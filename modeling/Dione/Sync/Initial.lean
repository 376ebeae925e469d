/-
  Dione.Sync.Initial

  Initial block sync: the requests a node answers (`node/network_service.go`) and
  the node that asks for blocks it does not have (`doInitialBlockPoolSync` of
  `blockchain/sync/sync_mgr.go`).

  The blocks of a peer's chain arrive in order, in batches, and each goes through
  `processReceivedBlock`.  A node that starts from the genesis block then goes
  through the same stores as the peer did, block by block, as long as the block's
  proof of the last hash verifies without salt.  `CreateBlock` makes salted proofs
  only.
-/

import Dione.Miner
import Dione.Blockchain.Integrity

namespace Dione

open Guard BlockChain

/-! ## The peer -/

/-- `policy.MaxBlockCountForRetrieving`. -/
def maxBlockCountForRetrieving : UInt64 := 500

/-- `wire.GetRangeOfBlocksReply`. -/
structure GetRangeOfBlocksReply where
  blocks : List Block
  failedBlockHeights : List UInt64
  deriving DecidableEq, Repr

/-- What a peer answers to the two requests of a block sync.  A request that is
    never answered is `none`. -/
structure SyncPeer where
  lastBlockHeight : Except Err UInt64
  getRangeOfBlocks : UInt64 → UInt64 → Option (Except Err GetRangeOfBlocksReply)

namespace NetworkService

variable {σ : Type} (db : Database σ) (s : σ)

/-- One iteration of the loop of `GetRangeOfBlocks`. -/
def retrieve (i : UInt64) (reply : GetRangeOfBlocksReply) : GetRangeOfBlocksReply :=
  match db.fetchBlockByHeight i s with
  | .error _ => { reply with failedBlockHeights := reply.failedBlockHeights ++ [i] }
  | .ok block => { reply with blocks := reply.blocks ++ [block] }

/-- The loop `for i := arg.From; i <= arg.To; i++`, for `fuel` iterations. -/
def rangeLoop (argTo : UInt64) :
    Nat → UInt64 → GetRangeOfBlocksReply → Option GetRangeOfBlocksReply
  | 0, _, _ => none
  | fuel + 1, i, reply =>
    if i ≤ argTo then rangeLoop argTo fuel (i + 1) (retrieve db s i reply) else some reply

/-- `GetRangeOfBlocks`.  The loop is given one iteration for each height and one
    to stop; a loop that goes on then never stops (`rangeLoop_last`). -/
def getRangeOfBlocks (argFrom argTo : UInt64) : Option (Except Err GetRangeOfBlocksReply) :=
  if argFrom > argTo then some (.error (.msg "incorrect arguments: from > to"))
  else if argTo - argFrom > maxBlockCountForRetrieving then
    some (.error
      (.msg "incorrect arguments: count of block for retrieving is exceeded the limit"))
  else (rangeLoop db s argTo ((argTo - argFrom).toNat + 2) argFrom ⟨[], []⟩).map .ok

/-- A peer that serves its chain in the state `s`. -/
def serve : SyncPeer where
  lastBlockHeight := db.getLatestBlockHeight s
  getRangeOfBlocks := getRangeOfBlocks db s

end NetworkService

/-! ## The node -/

namespace Sync

variable {σ : Type} (db : Database σ) (o : Oracles)

/-- The request loop of `doInitialBlockPoolSync`: ask for `heightCount` blocks after
    the height `lastTo`, at most `MaxBlockCountForRetrieving` at a time.  What the
    peer could not retrieve is only logged. -/
def retrieveBlocks (peer : SyncPeer) : Nat → UInt64 → UInt64 → List Block →
    Option (Except Err (List Block))
  | 0, _, _, _ => none
  | fuel + 1, heightCount, lastTo, receivedBlocks =>
    if heightCount > 0 then
      let addedVal :=
        if heightCount < maxBlockCountForRetrieving then heightCount
        else maxBlockCountForRetrieving
      match peer.getRangeOfBlocks (lastTo + 1) (lastTo + addedVal) with
      | none => none
      | some (.error e) => some (.error e)
      | some (.ok reply) =>
        retrieveBlocks peer fuel (heightCount - addedVal) (lastTo + addedVal)
          (receivedBlocks ++ reply.blocks)
    else some (.ok receivedBlocks)

/-- Whether a call ended in a run-time panic. -/
def panicked : Except Err Unit → Bool
  | .error e => e.isPanic
  | .ok () => false

/-- The loop over the received blocks: a block that is not accepted is logged and
    skipped; a panic ends the node. -/
def processReceivedBlocks : List Block → σ → Outcome σ
  | [], s => ⟨.ok (), s, []⟩
  | b :: bs, s =>
    let out := processReceivedBlock db o b s
    if panicked out.result then out
    else
      let rest := processReceivedBlocks bs out.state
      { rest with published := out.published ++ rest.published }

/-- `doInitialBlockPoolSync`; `none` if a request is never answered. -/
def doInitialBlockPoolSync (initialSyncCompleted : Bool) (bootstrapPeer : Option SyncPeer) (s : σ) :
    Option (Outcome σ) :=
  if initialSyncCompleted then some ⟨.ok (), s, []⟩
  else
    -- an error counts as height 0
    let ourLastHeight := match db.getLatestBlockHeight s with
      | .ok height => height
      | .error _ => 0
    match bootstrapPeer with
    | none => some ⟨.ok (), s, []⟩
    | some peer =>
      match peer.lastBlockHeight with
      | .error e => some ⟨.error e, s, []⟩
      | .ok height =>
        if height > ourLastHeight then
          let heightCount := height - ourLastHeight
          match retrieveBlocks peer (heightCount.toNat + 1) heightCount ourLastHeight [] with
          | none => none
          | some (.error e) => some ⟨.error e, s, []⟩
          | some (.ok receivedBlocks) => some (processReceivedBlocks db o receivedBlocks s)
        else some ⟨.ok (), s, []⟩

end Sync

end Dione
