/-
  Dione.Sync

  How blocks enter the chain: blocks received during initial sync and NewBlock
  pubsub messages (`blockchain/sync/sync_mgr.go`), and the commits of the
  consensus (`consensus/consensus_handler.go`), all of which end in
  `BlockChain.StoreBlock`.  A `ChainEvent` is one of them; a history of a node's
  chain is a run of `chainStep`.
-/

import Dione.Blockchain
import Dione.Lib.Run

namespace Dione

open Guard BlockChain

namespace Sync

variable {σ : Type} (db : Database σ) (o : Oracles)

/-- The transaction loop of `processReceivedBlock`. -/
def verifyTxs (header : BlockHeader) : List (Option Transaction) → Except Err Unit
  | [] => .ok ()
  | tx :: txs => do
    verifyTx o header tx
    verifyTxs header txs

/-- The checks of `processReceivedBlock`.  `Height-1` is machine subtraction, so
    a block of height 0 is compared with the block of height `2^64 - 1`; the
    Merkle proof is checked without salt. -/
def checkReceivedBlock (block : Block) (s : σ) : Except Err Unit := do
  let header ← deref block.header
  let previous ← (db.fetchBlockHeaderByHeight (header.height - 1) s).mapError fun _ =>
    .msg ("failed to retrieve previous block " ++ toString (header.height - 1))
  let previousBlockHeader ← deref previous
  require (header.lastHash = previousBlockHeader.hash)
    (.msg "block header has invalid last block hash")
  let lastHashProof ← deref header.lastHashProof
  let verified ← wrapErr "failed to verify last block hash merkle proof"
    (o.verifyProofUsing previousBlockHeader.hash false lastHashProof [header.hash])
  require (verified = true)
    (.msg "merkle hash of current block doesn't contain hash of previous block")
  verifyTxs o header block.data

/-- `syncManager.processReceivedBlock`. -/
def processReceivedBlock (block : Block) (s : σ) : Outcome σ :=
  match checkReceivedBlock db o block s with
  | .error e => ⟨.error e, s, []⟩
  | .ok () =>
    let out := storeBlock db o block s
    { out with result := flattenErr "failed to store block in blockpool" out.result }

/-- `syncManager.onNewBlock`; the source logs the error that `result` holds. -/
def onNewBlock (payload : Bytes) (s : σ) : Outcome σ :=
  match o.unmarshalBlock payload with
  | .error e => ⟨.error e, s, []⟩
  -- no check comes before those of `StoreBlock`
  | .ok block => storeBlock db o block s

end Sync

/-- `initializeBlockchain` of `node/node_dep_providers.go`. -/
def initializeBlockchain {σ : Type} (db : Database σ) (o : Oracles) (s : σ) : σ :=
  match db.getLatestBlockHeight s with
  | .ok _ => s
  -- only an empty database gets the genesis block; any other error is ignored
  | .error e => if e = .latestHeightNil then (storeBlock db o genesisBlock s).state else s

/-! ## Histories of a chain -/

/-- What can happen to a node's chain, with the answers the services give
    meanwhile. -/
inductive ChainEvent where
  /-- A NewBlock message arrives. -/
  | newBlock (o : Oracles) (payload : Bytes)
  /-- `commitAcceptedBlocks` stores the block it selected. -/
  | commit (o : Oracles) (block : Block)
  /-- A block arrives during initial sync. -/
  | synced (o : Oracles) (block : Block)

namespace ChainEvent

variable {σ : Type} (db : Database σ)

/-- What the event does. -/
def outcome (s : σ) : ChainEvent → Outcome σ
  | newBlock o payload => Sync.onNewBlock db o payload s
  | commit o block => storeBlock db o block s
  | synced o block => Sync.processReceivedBlock db o block s

/-- The call of `StoreBlock` the event makes, if it gets that far. -/
def call (s : σ) : ChainEvent → Option (Oracles × Block)
  | newBlock o payload => (o.unmarshalBlock payload).toOption.map fun block => (o, block)
  | commit o block => some (o, block)
  | synced o block =>
    -- a block that fails the checks never gets to `StoreBlock`
    match Sync.checkReceivedBlock db o block s with
    | .error _ => none
    | .ok () => some (o, block)

end ChainEvent

/-- One call of `StoreBlock`. -/
def storeStep {σ : Type} (db : Database σ) (s : σ) (c : Oracles × Block) : σ :=
  (storeBlock db c.1 c.2 s).state

/-- One event of a node's chain. -/
def chainStep {σ : Type} (db : Database σ) (s : σ) (e : ChainEvent) : σ :=
  (e.outcome db s).state

/-- Every event is at most one call of `StoreBlock`. -/
theorem chainStep_eq {σ : Type} (db : Database σ) (s : σ) (e : ChainEvent) :
    chainStep db s e = ((e.call db s).map (storeStep db s)).getD s := by
  cases e with
  | newBlock o payload =>
      cases hu : o.unmarshalBlock payload <;>
        simp [chainStep, ChainEvent.outcome, ChainEvent.call, Sync.onNewBlock, storeStep, hu,
          Except.toOption]
  | commit o block => rfl
  | synced o block =>
      cases hc : Sync.checkReceivedBlock db o block s <;>
        simp [chainStep, ChainEvent.outcome, ChainEvent.call, Sync.processReceivedBlock,
          storeStep, hc]

end Dione
