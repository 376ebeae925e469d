/-
  Dione.Miner

  How a node makes blocks (`blockchain/miner.go`, `types.CreateBlock`).

  The Merkle tree of a block is the one of `Lib.Merkle`, salted, over the hashes of
  the transactions, the hash of the last block and the timestamp; its root is the
  block hash.
-/

import Dione.Blockchain
import Dione.Lib.Merkle

namespace Dione

open Guard

/-- What a miner signs with: `privateKey`, with the peer ID made from it and the
    address of the Ethereum account. -/
structure Signer where
  peerID : PeerID
  sign : Bytes → Except Err Bytes
  ethAddress : Address

/-- `binary.LittleEndian.PutUint64` of a timestamp. -/
def littleEndian64 (n : Int64) : Bytes := (bigEndian64 n.toUInt64).reverse

/-- `HashLength()` zero bytes, what the tree is filled up with. -/
def emptyHash : Bytes := List.replicate 32 0

/-- `merkletree.NewUsing(data, keccak256.New(), true)`: its leaves. -/
def merkleLeaves (o : Oracles) (data : List Bytes) : List Bytes :=
  Merkle.leaves o.keccak256 emptyHash true data

/-- `tree.Root()`. -/
def merkleRoot (o : Oracles) (data : List Bytes) : Bytes :=
  Merkle.root o.keccak256 (Merkle.depth data) (merkleLeaves o data)

/-- `tree.GenerateProof(item, 0)`: the path of the first piece of data equal to
    `item`. -/
def generateProof (o : Oracles) (data : List Bytes) (item : Bytes) : Except Err Proof :=
  match data.findIdx? (· = item) with
  | none => .error (.msg "data not found")
  -- two equal hashes have the proof of the first
  | some i =>
    .ok ⟨some (Merkle.path o.keccak256 (Merkle.depth data) (merkleLeaves o data) i),
      UInt64.ofNat i⟩

/-- The data of a block's tree. -/
def merkleHashes (lastHash : Bytes) (txs : List Transaction) (timestamp : Int64) : List Bytes :=
  txs.map (·.hash) ++ [lastHash, littleEndian64 timestamp]

/-- Set the Merkle proof of each transaction. -/
def proveTxs (o : Oracles) (data : List Bytes) : List Transaction → Except Err (List Transaction)
  | [] => .ok []
  | tx :: txs => do
    let mp ← generateProof o data tx.hash
    let rest ← proveTxs o data txs
    return { tx with merkleProof := mp } :: rest

/-- `types.CreateBlock` at the time `timestamp`.  `BeaconEntry` is left out. -/
def createBlock (o : Oracles) (signer : Signer) (timestamp : Int64) (lastBlockHeader : BlockHeader)
    (txs : List Transaction) (eproof : ElectionProof) : Except Err Block := do
  let data := merkleHashes lastBlockHeader.hash txs timestamp
  let blockHash := merkleRoot o data
  let s ← signer.sign blockHash
  let lastHashProof ← generateProof o data lastBlockHeader.hash
  let txs ← proveTxs o data txs
  return {
    header := some {
      timestamp := timestamp
      height := lastBlockHeader.height + 1
      hash := blockHash
      lastHash := lastBlockHeader.hash
      lastHashProof := some lastHashProof
      proposer := some signer.peerID
      proposerEth := signer.ethAddress
      signature := s
      beaconEntry := ⟨0, []⟩
      electionProof := some eproof }
    data := txs.map some }

/-- `isRoundWinner`: the election proof if the draw wins. -/
def isRoundWinner (o : Oracles) (signer : Signer) (round : UInt64) (randomness : Bytes)
    (randomnessRound : UInt64) (minerStake networkStake : Int) :
    Except Err (Option ElectionProof) := do
  let buf ← wrapErr "failed to marshal address" (o.marshalBinary signer.peerID)
  let electionRand := drawRandomness o.sum256 randomness randomnessTypeElectionProofProduction
    round buf
  let vrfout ← wrapErr "failed to compute VRF" (signer.sign electionRand)
  let ep : ElectionProof :=
    { winCount := 0, vrfProof := vrfout, randomnessRound := randomnessRound }
  let j ← ep.computeWinCount o.sum256 minerStake networkStake
  return if j < 1 then none else some { ep with winCount := j }

/-- `Miner.MineBlock`; `txs` is what the mempool has for a new block, and there is
    no block if the draw does not win. -/
def mineBlock (o : Oracles) (signer : Signer) (timestamp : Int64)
    (latestBlockHeader : Option BlockHeader) (txs : List Transaction) (randomness : Bytes)
    (randomnessRound : UInt64) : Except Err (Option Block) :=
  match latestBlockHeader with
  | none => .error (.msg "latest block header is null")
  | some last => do
    let stakes ← wrapErr "failed to update miner stake" (getStakeInfo o signer.ethAddress)
    let winner ← wrapErr "failed to check if we winned in next round"
      (isRoundWinner o signer (last.height + 1) randomness randomnessRound stakes.1 stakes.2)
    match winner with
    | none => return none
    | some eproof =>
      -- `ErrNoTxForBlock`
      require (txs ≠ []) (.msg "no transactions for including into block")
      let newBlock ← wrapErr "failed to create new block"
        (createBlock o signer timestamp last txs eproof)
      return some newBlock

/-! ## What is mined -/

/-- The header of a block made on the block with the header `last`. -/
structure CreatedOn (last header : BlockHeader) : Prop where
  height_eq : header.height = last.height + 1
  lastHash_eq : header.lastHash = last.hash

section Created

variable {o : Oracles} {signer : Signer} {timestamp : Int64} {last : BlockHeader}
  {txs : List Transaction} {block : Block}

theorem createdOn_of_createBlock {eproof : ElectionProof}
    (h : createBlock o signer timestamp last txs eproof = .ok block) :
    ∃ header, block.header = some header ∧ CreatedOn last header := by
  simp only [createBlock, bind_eq_ok, pure_eq_ok_iff] at h
  obtain ⟨s, -, proof, -, txs', -, rfl⟩ := h
  exact ⟨_, rfl, rfl, rfl⟩

/-- What it takes to mine a block. -/
theorem mineBlock_eq_ok {latest : Option BlockHeader} {randomness : Bytes}
    {randomnessRound : UInt64} :
    mineBlock o signer timestamp latest txs randomness randomnessRound = .ok (some block) ↔
      ∃ last stakes eproof, latest = some last ∧
        getStakeInfo o signer.ethAddress = .ok stakes ∧
        isRoundWinner o signer (last.height + 1) randomness randomnessRound stakes.1 stakes.2
          = .ok (some eproof) ∧
        txs ≠ [] ∧ createBlock o signer timestamp last txs eproof = .ok block := by
  cases latest with
  | none => simp [mineBlock]
  | some last =>
      simp only [mineBlock, bind_eq_ok, wrapErr_eq_ok]
      constructor
      · rintro ⟨stakes, hstakes, winner, hwinner, h⟩
        cases winner with
        | none => cases h
        | some eproof =>
            simp only [bind_eq_ok, wrapErr_eq_ok, require_eq_ok, pure_eq_ok_iff,
              Option.some.injEq] at h
            obtain ⟨_, htxs, newBlock, hcreate, rfl⟩ := h
            exact ⟨last, stakes, eproof, rfl, hstakes, hwinner, htxs, hcreate⟩
      · rintro ⟨_, stakes, eproof, ⟨⟩, hstakes, hwinner, htxs, hcreate⟩
        refine ⟨stakes, hstakes, some eproof, hwinner, ?_⟩
        simp only [bind_eq_ok, wrapErr_eq_ok, require_eq_ok, pure_eq_ok_iff, Option.some.injEq]
        exact ⟨(), htxs, block, hcreate, rfl⟩

theorem createdOn_of_mineBlock {latest : Option BlockHeader} {randomness : Bytes}
    {randomnessRound : UInt64}
    (h : mineBlock o signer timestamp latest txs randomness randomnessRound = .ok (some block)) :
    ∃ last header, latest = some last ∧ block.header = some header ∧ CreatedOn last header := by
  obtain ⟨last, stakes, eproof, hlast, -, -, -, hcreate⟩ := mineBlock_eq_ok.mp h
  obtain ⟨header, hheader, hcreated⟩ := createdOn_of_createBlock hcreate
  exact ⟨last, header, hlast, hheader, hcreated⟩

end Created

/-! ## Salted and unsalted proofs -/

/-- `VerifyProofUsing` recomputes the root as described in `Lib.Merkle`. -/
structure Oracles.RecomputesRoots (o : Oracles) : Prop where
  verify_eq : ∀ data salt proof pollard, o.verifyProofUsing data salt proof pollard
    = .ok (Merkle.verify o.keccak256 data salt (proof.hashes.getD []) proof.index.toNat pollard)

/-- The Merkle library is the one described in `Lib.Merkle`, and the hash has no
    collisions. -/
structure Oracles.MerkleLibrary (o : Oracles) : Prop extends o.RecomputesRoots where
  collisionFree : Function.Injective o.keccak256

namespace Oracles.MerkleLibrary

variable {o : Oracles}

/-- A tree's own proofs verify under the salt flag it was built with. -/
theorem verify_generateProof (hlib : o.MerkleLibrary) {data : List Bytes} {item : Bytes}
    {proof : Proof} (hcount : data.length ≤ 2 ^ 64) (h : generateProof o data item = .ok proof) :
    o.verifyProofUsing item true proof [merkleRoot o data] = .ok true := by
  unfold generateProof at h
  split at h
  · cases h
  · next i hi =>
      obtain ⟨hlt, heq, -⟩ := List.findIdx?_eq_some_iff_getElem.mp hi
      have hitem : data[i]? = some item := by
        rw [List.getElem?_eq_getElem hlt, of_decide_eq_true heq]
      have hindex : (UInt64.ofNat i).toNat = i :=
        UInt64.toNat_ofNat_of_lt' (Nat.lt_of_lt_of_le hlt hcount)
      obtain rfl := Except.ok.inj h
      rw [hlib.verify_eq, hindex]
      exact congrArg Except.ok (Merkle.verify_path o.keccak256 hitem)

/-- No proof verifies both with and without salt. -/
theorem not_unsalted (hlib : o.MerkleLibrary) {data : Bytes} {proof : Proof} {root : Bytes}
    (h : o.verifyProofUsing data true proof [root] = .ok true) :
    o.verifyProofUsing data false proof [root] ≠ .ok true := by
  intro hunsalted
  rw [hlib.verify_eq] at h hunsalted
  have hsalt := List.mem_singleton.mp (of_decide_eq_true (Except.ok.inj h))
  have hplain := List.mem_singleton.mp (of_decide_eq_true (Except.ok.inj hunsalted))
  exact Merkle.climb_salt_ne hlib.collisionFree _ _ _ (hsalt.trans hplain.symm)

end Oracles.MerkleLibrary

theorem generateProof_of_proveTxs {o : Oracles} {data : List Bytes} {txs txs' : List Transaction}
    (h : proveTxs o data txs = .ok txs') :
    ∀ tx ∈ txs', generateProof o data tx.hash = .ok tx.merkleProof := by
  induction txs generalizing txs' with
  | nil =>
      obtain rfl := Except.ok.inj h
      simp
  | cons tx txs ih =>
      simp only [proveTxs, bind_eq_ok, pure_eq_ok_iff] at h
      obtain ⟨proof, hproof, rest, hrest, rfl⟩ := h
      intro tx' hmem
      rcases List.mem_cons.mp hmem with rfl | hmem
      · exact hproof
      · exact ih hrest tx' hmem

end Dione
