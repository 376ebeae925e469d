/-
  Dione.Consensus.Handler

  Message validation (`consensus/consensus_validator.go`), the handlers of the
  consensus messages and of the node's own events
  (`consensus/consensus_handler.go`, `consensus/utils.go`), and the dispatch of
  pubsub messages to them (`pubsub/pubsub_router.go`).

  A payload is what CBOR decoding gives; decoding fails into `undecodable`.  The
  node's chain is a database state `s`, the private key a signing function.
-/

import Dione.Blockchain
import Dione.Consensus.Manager
import Mathlib.Data.List.Sort

namespace Dione.Consensus

open Guard BlockChain

/-! ## Validation -/

section Validation

variable {σ : Type} (db : Database σ) (o : Oracles)

/-- `checkSignatureForBlockhash`. -/
def checkSignatureForBlockhash (msg : ConsensusMessage) : Bool :=
  match o.extractPublicKey msg.fromPeer with
  | .error _ => false
  | .ok pubKey =>
    match o.verify pubKey msg.blockhash msg.signature with
    | .error _ => false
    | .ok ok => ok

/-- `ConsensusValidator.Valid`.  There is no entry for the unknown type in
    `validationFuncMap`, and calling a nil function panics. -/
def valid (s : σ) (msg : ConsensusMessage) : Except Err Bool :=
  match msg.type with
  | .unknown => .error .nilDeref
  | .prePrepare => do
    let block ← deref msg.block
    match validateBlock db o block s with
    | .ok () => .ok true
    -- an invalid block is a message that is not valid, a panic stays one
    | .error e => if e.isPanic then .error e else .ok false
  | .prepare | .commit => .ok (checkSignatureForBlockhash o msg)

end Validation

/-! ## Pubsub messages -/

/-- The payload of a pubsub message of the consensus and block types. -/
inductive Payload where
  | prePrepare (block : Option Block)
  | prepare (blockhash signature : Bytes)
  | commit (blockhash signature : Bytes)
  | newBlock (block : Block)
  | undecodable
  deriving DecidableEq

/-- `pubsub.PubSubMessage`, decoded. -/
structure PubSubMessage where
  fromPeer : PeerID
  payload : Payload
  deriving DecidableEq

section Handlers

variable {σ : Type} (db : Database σ) (o : Oracles) (address : PeerID) (s : σ)

/-- `handlePrePrepare` up to its last step: the message it goes on to insert into
    the log, if any. -/
def handlePrePrepare (fromPeer : PeerID) (block : Option Block) :
    Except Err (Option ConsensusMessage) := do
  let blk ← deref block
  let header ← deref blk.header
  let proposer ← deref header.proposer
  -- the node has logged its own proposal in `propose`
  if proposer = address then
    return none
  let cmsg : ConsensusMessage := ⟨.prePrepare, header.hash, [], some blk, fromPeer⟩
  let ok ← valid db o s cmsg
  return if ok then some cmsg else none

/-- What `handlePrepare` and `handleCommit` have in common. -/
def handleVote (typ : MessageType) (fromPeer : PeerID) (blockhash signature : Bytes) :
    Except Err (Option ConsensusMessage) := do
  let cmsg : ConsensusMessage := ⟨typ, blockhash, signature, none, fromPeer⟩
  let ok ← valid db o s cmsg
  return if ok then some cmsg else none

/-- `handlePrepare`, likewise. -/
def handlePrepare := handleVote db o s .prepare

/-- `handleCommit`, likewise. -/
def handleCommit := handleVote db o s .commit

/-- The consensus message a pubsub message is handled as.  `handleMessage` of the
    router drops the node's own messages. -/
def admitted (message : PubSubMessage) : Except Err (Option ConsensusMessage) :=
  if message.fromPeer = address then .ok none
  else match message.payload with
    | .prePrepare block => handlePrePrepare db o address s message.fromPeer block
    | .prepare blockhash signature => handlePrepare db o s message.fromPeer blockhash signature
    | .commit blockhash signature => handleCommit db o s message.fromPeer blockhash signature
    | .newBlock _ | .undecodable => .ok none

/-- `handleMessage` on a consensus message, with the last step of its handler. -/
def handleConsensusMessage (message : PubSubMessage) (cm : ConsensusManager) :
    Except Err (ConsensusManager × List NewState) := do
  match ← admitted db o address s message with
  | none => return (cm, [])
  | some cmsg => cm.insertOrWarn cmsg

end Handlers

/-! ## The node's own events -/

/-- `propose`, with the PrePrepare it broadcasts.  The message type is written
    as the state constant of the same number. -/
def propose (address : PeerID) (blk : Block) (cm : ConsensusManager) :
    Except Err (ConsensusManager × List NewState × Payload) := do
  let header ← deref blk.header
  -- an error here ends `propose` before the broadcast
  let r ← cm.insertMessageIntoLog ⟨.prePrepare, header.hash, [], some blk, address⟩
  return (r.1, r.2, .prePrepare (some blk))

/-- The vote that `NewMessage` signs; a failed signature is logged and nothing
    is sent. -/
def signedVote (vote : Bytes → Bytes → Payload) (sign : Bytes → Except Err Bytes)
    (blockhash : Bytes) : Option Payload :=
  match sign blockhash with
  | .ok signature => some (vote blockhash signature)
  | .error _ => none

/-- The `consensus:newState` handler: what it broadcasts. -/
def onNewState (address : PeerID) (sign : Bytes → Except Err Bytes) (ev : NewState) :
    Except Err (Option Payload) := do
  match ev.state with
  | .unknown => return none
  | .prePrepared =>
    let block ← deref ev.block
    let header ← deref block.header
    let proposer ← deref header.proposer
    -- the proposer sends no Prepare for its own block
    if proposer = address then
      return none
    return signedVote .prepare sign header.hash
  | .prepared =>
    let block ← deref ev.block
    let header ← deref block.header
    return signedVote .commit sign header.hash
  | .commited =>
    let block ← deref ev.block
    let _ ← deref block.header
    return none

/-! ## Committing the accepted block of a round -/

/-- The order of `sort.Slice` in `commitAcceptedBlocks`: larger stake first, then
    later timestamp; a stake that cannot be queried ranks nothing. -/
def ranksBefore (stake : Address → Except Err Int) (a b : BlockHeader) : Bool :=
  match stake a.proposerEth, stake b.proposerEth with
  | .ok aStake, .ok bStake =>
    if aStake < bStake then false
    else if bStake < aStake then true
    else decide (b.timestamp < a.timestamp)
  | _, _ => false

/-- The blocks of accepted rounds with their headers, in the order given. -/
def candidates : List ConsensusInfo → Except Err (List (Block × BlockHeader))
  | [] => .ok []
  | ci :: cis => do
    let block ← deref ci.block
    let header ← deref block.header
    let rest ← candidates cis
    return (block, header) :: rest

/-- The candidates as the code sorts them: none of them ranks before one that
    stands in front of it. -/
def sortCandidates (stake : Address → Except Err Int) (cs : List (Block × BlockHeader)) :
    List (Block × BlockHeader) :=
  cs.insertionSort fun a b => ranksBefore stake b.2 a.2 = false

/-- What `commitAcceptedBlocks` returns and leaves behind.  `deletedTxs` are the
    hashes it asks the mempool to delete. -/
structure CommitOutcome (σ : Type) where
  result : Except Err Block
  consensus : ConsensusManager
  chain : σ
  deletedTxs : List Bytes
  published : List Published

/-- The hashes of a block's transactions. -/
def txHashes : List (Option Transaction) → Except Err (List Bytes)
  | [] => .ok []
  | v :: vs => do
    let tx ← deref v
    let rest ← txHashes vs
    return tx.hash :: rest

/-- The selection part of `commitAcceptedBlocks`, up to `Prune`.  `blocks` is
    what `GetAllBlocksWithCommit` returned, in its order.  The log lines read the
    election proof and the proposer. -/
def selectBlock (o : Oracles) (blocks : List ConsensusInfo) : Except Err Block := do
  let cs ← candidates blocks
  match sortCandidates o.getMinerStake cs with
  | [] => .error .noAcceptedBlocks
  | (selectedBlock, header) :: _ =>
    let _ ← o.getMinerStake header.proposerEth
    let _ ← deref header.electionProof
    let _ ← deref header.proposer
    return selectedBlock

/-- `commitAcceptedBlocks`, for the order in which the map lists its entries. -/
def commitAcceptedBlocks {σ : Type} (db : Database σ) (o : Oracles)
    (blocks : List ConsensusInfo) (cm : ConsensusManager) (s : σ) : CommitOutcome σ :=
  match selectBlock o blocks with
  | .error e => ⟨.error e, cm, s, [], []⟩
  | .ok selectedBlock =>
    match txHashes selectedBlock.data with
    | .error e => ⟨.error e, cm.prune, s, [], []⟩
    | .ok hashes =>
      let out := storeBlock db o selectedBlock s
      ⟨out.result.map fun _ => selectedBlock, cm.prune, out.state, hashes, out.published⟩

end Dione.Consensus
