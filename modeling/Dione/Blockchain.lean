/-
  Dione.Blockchain

  Block validation and storage (`blockchain/blockchain.go`,
  `blockchain/utils/verification.go`, the stake queries of
  `blockchain/miner.go`).

  What the node asks of libraries and services (keys and signatures, the Merkle
  tree, hashes, the staking contract, the beacon, CBOR) is an `Oracles` value.
  It is an argument of every call, so two calls of one run may be answered
  differently: stakes move and beacon rounds appear.
-/

import Dione.Election
import Dione.Database

namespace Dione

open Guard Text

/-- Libraries and services the chain code calls. -/
structure Oracles where
  /-- `peer.ID.ExtractPublicKey`. -/
  extractPublicKey : PeerID → Except Err Bytes
  /-- `crypto.PubKey.Verify`: key, data, signature. -/
  verify : Bytes → Bytes → Bytes → Except Err Bool
  /-- `peer.ID.MarshalBinary`. -/
  marshalBinary : PeerID → Except Err Bytes
  /-- `peer.ID.String`. -/
  peerString : PeerID → String
  /-- `merkletree.VerifyProofUsing` with Keccak: data, salt, proof, pollard. -/
  verifyProofUsing : Bytes → Bool → Proof → List Bytes → Except Err Bool
  /-- `crypto.Keccak256`. -/
  keccak256 : Bytes → Bytes
  /-- `blake2b.Sum256`. -/
  sum256 : Bytes → Bytes
  /-- `EthereumSideAPI.GetMinerStake`. -/
  getMinerStake : Address → Except Err Int
  /-- `EthereumSideAPI.GetTotalStake`. -/
  getTotalStake : Except Err Int
  /-- `DrandBeacon.Entry`. -/
  entry : UInt64 → Except Err BeaconEntry
  /-- `cbor.Unmarshal` into a `DioneTask`. -/
  unmarshalTask : Bytes → Except Err DioneTask
  /-- `cbor.Unmarshal` into a `Block`. -/
  unmarshalBlock : Bytes → Except Err Block
  /-- The registry `validation.validations`. -/
  validations : UInt8 → Option (Str → Option (DioneTask → Except Err Unit))

/-- The node before any service answers. -/
def Oracles.offline : Oracles where
  extractPublicKey _ := .error (.msg "no key")
  verify _ _ _ := .ok false
  marshalBinary _ := .error (.msg "no peer")
  peerString _ := ""
  verifyProofUsing _ _ _ _ := .ok false
  keccak256 b := b
  sum256 b := b
  getMinerStake _ := .error (.msg "no connection")
  getTotalStake := .error (.msg "no connection")
  entry _ := .error (.msg "no connection")
  unmarshalTask _ := .error (.msg "no task")
  unmarshalBlock _ := .error (.msg "no block")
  validations _ := none

/-! ## Transactions -/

/-- `Transaction.ValidateHash`. -/
def Transaction.validateHash (o : Oracles) (tx : Transaction) : Bool :=
  o.keccak256 (textBytes (hexEncode tx.data)) = tx.hash

/-- `utils.VerifyTx`. -/
def verifyTx (o : Oracles) (blockHeader : BlockHeader) (tx : Option Transaction) :
    Except Err Unit := do
  let tx ← deref tx
  require (tx.merkleProof.hashes ≠ none) (.msg "block transaction doesn't have merkle proof")
  let txProofVerified ← flattenErr "failed to verify tx hash merkle proof"
    (o.verifyProofUsing tx.hash true tx.merkleProof [blockHeader.hash])
  require (txProofVerified = true)
    (.msg "transaction doesn't present in block hash merkle tree")
  require (tx.validateHash o = true) (.msg "transaction hash is invalid")

/-- `validation.GetValidationMethod`. -/
def getValidationMethod (o : Oracles) (typ : UInt8) (methodName : Str) :
    Option (DioneTask → Except Err Unit) :=
  match o.validations typ with
  | none => none
  | some rpcMethods => rpcMethods methodName

/-- What `ValidateBlock` does with one transaction. -/
def validateTransaction (o : Oracles) (header : BlockHeader) (v : Option Transaction) :
    Except Err Unit := do
  wrapErr "failed to verify tx" (verifyTx o header v)
  let tx ← deref v
  let task ← wrapErr "failed to unmarshal transaction payload" (o.unmarshalTask tx.data)
  -- a task whose origin chain or request type has no method is not checked further
  match getValidationMethod o task.originChain task.requestType with
  | some validationFunc =>
    wrapErr "payload validation has been failed" (validationFunc task)
  | none => pure ()

/-- The transaction stage of `ValidateBlock`.  Every transaction has a goroutine of its
    own: a panic in any of them ends the node, and otherwise some failure is the
    result, here that of the first transaction that has one.  This is one order of their
    steps; `Dione.Blockchain.Goroutines` has all. -/
def validateTransactions (o : Oracles) (header : BlockHeader) :
    List (Option Transaction) → Except Err Unit
  | [] => .ok ()
  | v :: vs =>
    match validateTransaction o header v, validateTransactions o header vs with
    | .ok (), rest => rest
    | .error e, .ok () => .error e
    | .error e, .error e' => if e'.isPanic then .error e' else .error e

theorem validateTransactions_eq_ok {o : Oracles} {header : BlockHeader}
    {vs : List (Option Transaction)} : validateTransactions o header vs = .ok () ↔
      ∀ v ∈ vs, validateTransaction o header v = .ok () := by
  induction vs with
  | nil => simp [validateTransactions]
  | cons v vs ih =>
      rw [validateTransactions, List.forall_mem_cons, ← ih]
      cases validateTransaction o header v with
      | ok u => simp
      | error e =>
          cases validateTransactions o header vs with
          | ok u => simp
          | error e' =>
              dsimp only
              split <;> simp

/-! ## Stakes and election -/

/-- `ethclient.MinMinerStake`. -/
def minMinerStake : Int := 1000

/-- `Miner.IsMinerEligibleToProposeBlock`. -/
def isMinerEligibleToProposeBlock (o : Oracles) (ethAddress : Address) : Except Err Unit := do
  let mStake ← o.getMinerStake ethAddress
  require (minMinerStake ≤ mStake) (.msg "miner doesn't have enough staked tokens")

/-- `Miner.GetStakeInfo`. -/
def getStakeInfo (o : Oracles) (miner : Address) : Except Err (Int × Int) := do
  let mStake ← o.getMinerStake miner
  let nStake ← o.getTotalStake
  return (mStake, nStake)

/-- `beacon.VerifyVRF`. -/
def verifyVRF (o : Oracles) (worker : PeerID) (vrfBase vrfproof : Bytes) : Except Err Unit := do
  let pk ← o.extractPublicKey worker
  let ok ← o.verify pk vrfBase vrfproof
  require (ok = true) (.msg "vrf was invalid")

namespace BlockChain

variable {σ : Type} (db : Database σ) (o : Oracles)

/-- `BlockChain.ValidateBlock`. -/
def validateBlock (block : Block) (s : σ) : Except Err Unit := do
  let header ← deref block.header
  -- verify block signature
  let proposer ← deref header.proposer
  let pubkey ← wrapErr "unable to extract public key from block proposer's peer id"
    (o.extractPublicKey proposer)
  let ok ← wrapErr "failed to verify block signature"
    (o.verify pubkey header.hash header.signature)
  require (ok = true) (.msg ("signature of block " ++ hexString header.hash ++ " is invalid"))
  -- check last hash merkle proof
  let latestHeight ← db.getLatestBlockHeight s
  let previous ← db.fetchBlockHeaderByHeight latestHeight s
  let previousBlockHeader ← deref previous
  require (header.lastHash = previousBlockHeader.hash)
    (.msg ("block header has invalid last block hash (expected: "
      ++ hexString previousBlockHeader.hash ++ ", actual " ++ hexString header.lastHash ++ ")"))
  let lastHashProof ← deref header.lastHashProof
  let verified ← wrapErr "failed to verify last block hash merkle proof"
    (o.verifyProofUsing previousBlockHeader.hash true lastHashProof [header.hash])
  require (verified = true) (.msg "merkle hash of block doesn't contain hash of previous block")
  -- verify election proof wincount preliminarily
  let electionProof ← deref header.electionProof
  require (1 ≤ electionProof.winCount)
    (.msg ("block proposer " ++ o.peerString proposer ++ " is not a winner"))
  -- verify miner's eligibility to propose this task
  wrapErr "block proposer is not eligible to propose block"
    (isMinerEligibleToProposeBlock o header.proposerEth)
  -- verify election proof vrf
  let proposerBuf ← o.marshalBinary proposer
  let res ← o.entry electionProof.randomnessRound
  let eproofRandomness := drawRandomness o.sum256 res.data
    randomnessTypeElectionProofProduction header.height proposerBuf
  wrapErr "failed to verify election proof vrf"
    (verifyVRF o proposer eproofRandomness electionProof.vrfProof)
  -- compute wincount locally and verify values
  let stakes ← wrapErr "failed to get miner stake" (getStakeInfo o header.proposerEth)
  let actualWinCount ← electionProof.computeWinCount o.sum256 stakes.1 stakes.2
  require (electionProof.winCount = actualWinCount)
    (.msg "locally computed wincount of block is not matching to the received value")
  -- validate block transactions
  validateTransactions o header block.data

/-- Bus messages of `StoreBlock`. -/
inductive Published where
  | latestBlockHeightUpdated (block : Block)
  | blockCommitted (block : Block)
  deriving DecidableEq, Repr

/-- What a call of `StoreBlock` returns, leaves behind and publishes. -/
structure Outcome (σ : Type) where
  result : Except Err Unit
  state : σ
  published : List Published

/-- The validation `StoreBlock` does: none for height 0. -/
def checkBeforeStore (header : BlockHeader) (block : Block) (s : σ) : Except Err Unit :=
  if header.height ≠ 0 then
    wrapErr "failed to store block" (validateBlock db o block s)
  else .ok ()

/-- The part of `StoreBlock` after the database write: update the latest block
    height if there is none or the block is higher. -/
def updateLatest (header : BlockHeader) (block : Block) (s : σ) : Outcome σ :=
  let raise : Outcome σ := match db.setLatestBlockHeight header.height s with
    | (.error e, s') => ⟨.error e, s', []⟩
    | (.ok (), s') => ⟨.ok (), s', [.latestBlockHeightUpdated block, .blockCommitted block]⟩
  match db.getLatestBlockHeight s with
  -- `ErrLatestHeightNil`: nothing has been stored yet
  | .error e => if e = .latestHeightNil then raise else ⟨.error e, s, []⟩
  | .ok height =>
    if header.height > height then raise else ⟨.ok (), s, [.blockCommitted block]⟩

/-- `BlockChain.StoreBlock`. -/
def storeBlock (block : Block) (s : σ) : Outcome σ :=
  match block.header with
  | none => ⟨.error .nilDeref, s, []⟩
  | some header =>
    match db.hasBlock header.hash s with
    | .error e => ⟨.error e, s, []⟩
    -- a block stored before is neither checked nor reported
    | .ok true => ⟨.ok (), s, []⟩
    | .ok false =>
      match checkBeforeStore db o header block s with
      | .error e => ⟨.error e, s, []⟩
      | .ok () =>
        -- from here on a failure leaves what has been written
        match db.storeBlock block s with
        | (.error e, s') => ⟨.error e, s', []⟩
        | (.ok (), s') => updateLatest db header block s'

end BlockChain

end Dione
