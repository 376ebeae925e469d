/-
  Dione.Node

  A whole node: its mempool with what fills it, its chain, its consensus rounds and
  its miner (`node/node.go`, `consensus/consensus_handler.go`,
  `blockchain/miner.go`, `blockchain/sync/sync_mgr.go`).

  Everything that happens to a node is one event at a time, in any order.  A beacon
  entry commits the accepted block of the round, deletes its transactions from the
  mempool and then mines on the header the miner has last heard of; the bus tells
  the miner of new headers some time after they are stored.  What the node sends
  to others is left out.
-/

import Dione.Blockchain.Commit
import Dione.Consensus.Handler
import Dione.Miner
import Dione.Sync.Pool

namespace Dione

open Guard Text BlockChain Consensus

/-- The state of a node. -/
structure NodeState (σ : Type) where
  pool : TxPool
  chain : σ
  consensus : ConsensusManager
  /-- `Miner.latestBlockHeader`. -/
  latestBlockHeader : Option BlockHeader
  /-- The blocks of `blockchain:latestBlockHeightUpdated` events the miner has not
      handled yet. -/
  updates : List Block

/-- What happens to a node. -/
inductive NodeEvent where
  /-- Something happens to the mempool. -/
  | pool (e : PoolEvent)
  /-- A NewBlock message arrives. -/
  | newBlock (payload : Bytes)
  /-- A block arrives during initial sync. -/
  | synced (block : Block)
  /-- A consensus message arrives. -/
  | consensus (message : PubSubMessage)
  /-- A beacon entry arrives.  The maps list the accepted blocks and the keys of the
      mempool in the given orders. -/
  | beacon (blocks : List ConsensusInfo) (keys : List Str) (timestamp : Int64) (entry : BeaconEntry)
  /-- The miner handles the `k`-th update. -/
  | headerUpdated (k : Nat)

/-- The blocks of the `latestBlockHeightUpdated` events among those published. -/
def heightUpdates (published : List Published) : List Block :=
  published.filterMap fun
    | .latestBlockHeightUpdated block => some block
    | .blockCommitted _ => none

/-- `DeleteTx` of each hash; a failure is only logged. -/
def Mempool.deleteAll (mp : Mempool) (hashes : List Bytes) : Mempool :=
  hashes.foldl (fun mp hash => (mp.deleteTx hash).2) mp

namespace NodeState

/-- A node that has just started with the genesis block. -/
def new (B : Backend) (minApprovals : Int64) : NodeState B.σ where
  pool := .new
  chain := genesisChain B
  consensus := .new minApprovals
  latestBlockHeader := some genesisHeader
  updates := []

variable {σ : Type} (db : Database σ) (signer : Signer) (rpc : RpcServices) (o : Oracles)

/-- What a call that ends in `StoreBlock` leaves behind. -/
def stored (s : NodeState σ) (out : Outcome σ) : NodeState σ :=
  { s with chain := out.state, updates := s.updates ++ heightUpdates out.published }

/-- `commitAcceptedBlocks`: what it returns, and the node after. -/
def commit (s : NodeState σ) (blocks : List ConsensusInfo) : Except Err Block × NodeState σ :=
  let out := commitAcceptedBlocks db o blocks s.consensus s.chain
  (out.result,
    { s with
      -- the other paths to `StoreBlock` leave the mempool as it is
      pool := { s.pool with mempool := s.pool.mempool.deleteAll out.deletedTxs }
      chain := out.chain
      consensus := out.consensus
      updates := s.updates ++ heightUpdates out.published })

/-- The second half of `onNewBeaconEntry`: mine, and propose what was mined. -/
def mine (s : NodeState σ) (keys : List Str) (timestamp : Int64) (entry : BeaconEntry) :
    NodeState σ :=
  if keys.Perm s.pool.mempool.keys then
    match mineBlock o signer timestamp s.latestBlockHeader
        (s.pool.mempool.getTransactionsForNewBlock keys) entry.data entry.round with
    | .ok (some minedBlock) =>
      match propose signer.peerID minedBlock s.consensus with
      | .ok (cm, _, _) => { s with consensus := cm }
      | .error _ => s
    | _ => s
  else s

/-- `onNewBeaconEntry`. -/
def onNewBeaconEntry (s : NodeState σ) (blocks : List ConsensusInfo) (keys : List Str)
    (timestamp : Int64) (entry : BeaconEntry) : NodeState σ :=
  match s.commit db o blocks with
  | (.ok _, s') => s'.mine signer o keys timestamp entry
  -- no accepted block does not keep the node from mining
  | (.error .noAcceptedBlocks, s') => s'.mine signer o keys timestamp entry
  | (.error _, s') => s'

/-- One step of a node.  A beacon event that does not list the accepted blocks of the
    node is none. -/
def step (s : NodeState σ) (oe : Oracles × NodeEvent) : NodeState σ :=
  let o := oe.1
  match oe.2 with
  | .pool e => { s with pool := s.pool.step o rpc e }
  | .newBlock payload => s.stored (Sync.onNewBlock db o payload s.chain)
  | .synced block => s.stored (Sync.processReceivedBlock db o block s.chain)
  | .consensus message =>
    match handleConsensusMessage db o signer.peerID s.chain message s.consensus with
    | .ok (cm, _) => { s with consensus := cm }
    | .error _ => s
  | .beacon blocks keys timestamp entry =>
    if blocks.Perm s.consensus.getAllBlocksWithCommit then
      s.onNewBeaconEntry db signer o blocks keys timestamp entry
    else s
  | .headerUpdated k =>
    match s.updates[k]? with
    | some block => { s with
        latestBlockHeader := block.header
        updates := s.updates.eraseIdx k }
    | none => s

/-- The call of `StoreBlock` a step makes, if it gets that far. -/
def storeCall (s : NodeState σ) (oe : Oracles × NodeEvent) : Option (Oracles × Block) :=
  match oe.2 with
  | .newBlock payload => (ChainEvent.newBlock oe.1 payload).call db s.chain
  | .synced block => (ChainEvent.synced oe.1 block).call db s.chain
  | .beacon blocks _ _ _ =>
    if blocks.Perm s.consensus.getAllBlocksWithCommit then
      match selectBlock oe.1 blocks with
      | .error _ => none
      | .ok selectedBlock =>
        match txHashes selectedBlock.data with
        | .error _ => none
        | .ok _ => some (oe.1, selectedBlock)
    else none
  | .pool _ | .consensus _ | .headerUpdated _ => none

/-! ## The chain of a node -/

/-- `s'` is `s` after at most one call of `StoreBlock`, as far as the chain and what the
    miner hears of it go. -/
structure Stores (call : Option (Oracles × Block)) (s s' : NodeState σ) : Prop where
  chain_eq : s'.chain = (call.map (storeStep db s.chain)).getD s.chain
  updates_eq : s'.updates = s.updates
    ++ (call.map fun c => heightUpdates (storeBlock db c.1 c.2 s.chain).published).getD []
  header_eq : s'.latestBlockHeader = s.latestBlockHeader

/-- Whether `onNewBeaconEntry` goes on to mine. -/
def goesOn : Except Err Block → Bool
  | .ok _ | .error .noAcceptedBlocks => true
  | .error _ => false

variable {db signer rpc o}

theorem onNewBeaconEntry_eq (s : NodeState σ) (blocks : List ConsensusInfo) (keys : List Str)
    (timestamp : Int64) (entry : BeaconEntry) :
    s.onNewBeaconEntry db signer o blocks keys timestamp entry
      = if goesOn (s.commit db o blocks).1 then
          (s.commit db o blocks).2.mine signer o keys timestamp entry
        else (s.commit db o blocks).2 := by
  unfold onNewBeaconEntry
  split
  · next heq => simp [heq, goesOn]
  · next heq => simp [heq, goesOn]
  · next e s' hne heq =>
      have hstop : goesOn (.error e) = false := by
        cases e with
        | noAcceptedBlocks => exact absurd rfl hne
        | _ => rfl
      simp [heq, hstop]

/-- A step that calls nothing and tells the miner nothing. -/
theorem stores_none {s s' : NodeState σ} (hchain : s'.chain = s.chain)
    (hupdates : s'.updates = s.updates) (hheader : s'.latestBlockHeader = s.latestBlockHeader) :
    Stores db none s s' :=
  ⟨hchain, by simp [hupdates], hheader⟩

theorem stores_mine (s : NodeState σ) (keys : List Str) (timestamp : Int64) (entry : BeaconEntry) :
    Stores db none s (s.mine signer o keys timestamp entry) := by
  unfold mine
  split
  · split
    · split
      · exact stores_none rfl rfl rfl
      · exact stores_none rfl rfl rfl
    · exact stores_none rfl rfl rfl
  · exact stores_none rfl rfl rfl

theorem stores_commit (s : NodeState σ) (blocks : List ConsensusInfo) (keys : List Str)
    (timestamp : Int64) (entry : BeaconEntry)
    (hblocks : blocks.Perm s.consensus.getAllBlocksWithCommit) :
    Stores db (s.storeCall db (o, .beacon blocks keys timestamp entry)) s
      (s.commit db o blocks).2 := by
  simp only [storeCall, if_pos hblocks, commit, commitAcceptedBlocks]
  cases selectBlock o blocks with
  | error e => exact stores_none rfl (List.append_nil _) rfl
  | ok selectedBlock =>
      dsimp only
      cases txHashes selectedBlock.data with
      | error e => exact stores_none rfl (List.append_nil _) rfl
      | ok hashes => exact ⟨rfl, rfl, rfl⟩

variable (db signer rpc) in
/-- Every step but the delivery of an update is at most one call of `StoreBlock`. -/
theorem stores_step (s : NodeState σ) (oe : Oracles × NodeEvent)
    (he : ∀ k, oe.2 ≠ .headerUpdated k) :
    Stores db (s.storeCall db oe) s (s.step db signer rpc oe) := by
  obtain ⟨o, e⟩ := oe
  cases e with
  | headerUpdated k => exact absurd rfl (he k)
  | pool e => exact stores_none rfl rfl rfl
  | consensus message =>
      simp only [step, storeCall]
      split
      · exact stores_none rfl rfl rfl
      · exact stores_none rfl rfl rfl
  | newBlock payload =>
      simp only [step, storeCall, ChainEvent.call, Sync.onNewBlock]
      cases o.unmarshalBlock payload with
      | error e => exact stores_none rfl (List.append_nil _) rfl
      | ok block => exact ⟨rfl, rfl, rfl⟩
  | synced block =>
      simp only [step, storeCall, ChainEvent.call, Sync.processReceivedBlock]
      cases Sync.checkReceivedBlock db o block s.chain with
      | error e => exact stores_none rfl (List.append_nil _) rfl
      | ok _ => exact ⟨rfl, rfl, rfl⟩
  | beacon blocks keys timestamp entry =>
      by_cases hblocks : blocks.Perm s.consensus.getAllBlocksWithCommit
      · have hcommit : Stores db (s.storeCall db (o, .beacon blocks keys timestamp entry)) s
            (s.commit db o blocks).2 := stores_commit s blocks keys timestamp entry hblocks
        simp only [step, if_pos hblocks, onNewBeaconEntry_eq]
        split
        · -- mining changes nothing of what the commit has left
          have hmine : Stores db none (s.commit db o blocks).2
              ((s.commit db o blocks).2.mine signer o keys timestamp entry) :=
            stores_mine _ keys timestamp entry
          refine ⟨hmine.chain_eq.trans hcommit.chain_eq, ?_,
            hmine.header_eq.trans hcommit.header_eq⟩
          rw [hmine.updates_eq, hcommit.updates_eq]
          exact List.append_nil _
        · exact hcommit
      · simp only [step, storeCall, if_neg hblocks]
        exact stores_none rfl rfl rfl

/-- The chain of a node changes by the calls of `StoreBlock` only. -/
theorem chain_step (s : NodeState σ) (oe : Oracles × NodeEvent) :
    (s.step db signer rpc oe).chain
      = ((s.storeCall db oe).map (storeStep db s.chain)).getD s.chain := by
  by_cases he : ∃ k, oe.2 = .headerUpdated k
  · obtain ⟨o, e⟩ := oe
    obtain ⟨k, rfl⟩ := he
    simp only [step, storeCall, Option.map_none, Option.getD_none]
    split <;> rfl
  · push Not at he
    exact (stores_step db signer rpc s oe he).chain_eq

end NodeState

end Dione
