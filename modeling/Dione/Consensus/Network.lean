/-
  Dione.Consensus.Network

  A network of honest nodes running the consensus.

  The nodes exchange pubsub messages and handle the `consensus:newState` events
  of their own bus; both are delivered one at a time, in any order, so a network
  state lists the messages in flight and the events not yet handled.  A beacon
  entry makes a node commit the accepted block of the round and propose the
  block it mined, if any.  `committed` records what was stored that way and on
  which head; nothing reads it.
-/

import Dione.Blockchain.Commit
import Dione.Consensus.Handler
import Dione.Consensus.Round
import Dione.Lib.Run
import Mathlib.Data.List.FinRange
import Mathlib.Data.List.Sort

namespace Dione.Consensus

open Guard BlockChain ConsensusManager

/-- The part of a node the consensus works on. -/
structure Node (σ : Type) where
  address : PeerID
  consensus : ConsensusManager
  chain : σ

/-- A block that `commitAcceptedBlocks` of a node stored, and the head of the
    node's chain before. -/
structure Committed (n : Nat) where
  node : Fin n
  head : BlockHeader
  block : Block
  deriving DecidableEq

/-- A network of `n` nodes. -/
structure Network (σ : Type) (n : Nat) where
  nodes : Fin n → Node σ
  inFlight : List (Fin n × PubSubMessage)
  pending : List (Fin n × NewState)
  committed : List (Committed n)

/-- What happens next in a network. -/
inductive NetEvent (n : Nat) where
  /-- The `k`-th message in flight arrives. -/
  | deliver (k : Nat)
  /-- The `k`-th pending event is handled. -/
  | newState (k : Nat)
  /-- A node proposes a block. -/
  | propose (i : Fin n) (blk : Block)
  /-- A beacon entry arrives at a node whose map lists its accepted blocks in the
      given order and whose miner then mines the given block. -/
  | beacon (i : Fin n) (blocks : List ConsensusInfo) (mined : Option Block)

/-- The header of the block at the latest height. -/
def headOf {σ : Type} (db : Database σ) (s : σ) : Except Err BlockHeader := do
  let height ← db.getLatestBlockHeight s
  let header ← db.fetchBlockHeaderByHeight height s
  deref header

namespace Network

variable {σ : Type} {n : Nat} (db : Database σ) (o : Oracles)
  (sign : Fin n → Bytes → Except Err Bytes)

/-- `BroadcastToServiceTopic` of node `i`: the topic reaches every node, the
    sender included. -/
def broadcast (w : Network σ n) (i : Fin n) (payload : Payload) : Network σ n :=
  { w with inFlight := w.inFlight ++
      (List.finRange n).map fun j => (j, ⟨(w.nodes i).address, payload⟩) }

/-- Node `i` goes on with another manager and publishes events on its bus. -/
def setConsensus (w : Network σ n) (i : Fin n) (cm : ConsensusManager) (pubs : List NewState) :
    Network σ n :=
  { w with
    nodes := Function.update w.nodes i { w.nodes i with consensus := cm }
    pending := w.pending ++ pubs.map fun ev => (i, ev) }

/-- Node `i` goes on with another chain. -/
def setChain (w : Network σ n) (i : Fin n) (s : σ) : Network σ n :=
  { w with nodes := Function.update w.nodes i { w.nodes i with chain := s } }

/-- `PubSubRouter.handleMessage` at node `j`. -/
def handleMessage (w : Network σ n) (j : Fin n) (message : PubSubMessage) : Network σ n :=
  match message.payload with
  | .newBlock block =>
    -- `handleMessage` drops what the node itself has sent
    if message.fromPeer = (w.nodes j).address then w
    else w.setChain j (storeBlock db o block (w.nodes j).chain).state
  | _ =>
    match handleConsensusMessage db o (w.nodes j).address (w.nodes j).chain message
        (w.nodes j).consensus with
    | .ok (cm, pubs) => w.setConsensus j cm pubs
    | .error _ => w

/-- The `k`-th message in flight arrives. -/
def deliver (w : Network σ n) (k : Nat) : Network σ n :=
  match w.inFlight[k]? with
  | none => w
  | some (j, message) =>
    handleMessage db o { w with inFlight := w.inFlight.eraseIdx k } j message

/-- The `k`-th pending event is handled. -/
def handleNewState (w : Network σ n) (k : Nat) : Network σ n :=
  match w.pending[k]? with
  | none => w
  | some (i, ev) =>
    let w' := { w with pending := w.pending.eraseIdx k }
    match onNewState (w.nodes i).address (sign i) ev with
    -- the event is gone either way
    | .ok (some payload) => w'.broadcast i payload
    | .ok none => w'
    | .error _ => w'

/-- `propose` at node `i`. -/
def proposeAt (w : Network σ n) (i : Fin n) (blk : Block) : Network σ n :=
  match propose (w.nodes i).address blk (w.nodes i).consensus with
  | .ok (cm, pubs, payload) => (w.setConsensus i cm pubs).broadcast i payload
  | .error _ => w

/-- The end of `onNewBeaconEntry`. -/
def proposeMined (w : Network σ n) (i : Fin n) : Option Block → Network σ n
  | none => w
  | some blk => w.proposeAt i blk

/-- The record of a commit at node `i`: there is one if `StoreBlock` stores the
    block on top of a head. -/
def commitRecord (w : Network σ n) (i : Fin n) (block : Block) : List (Committed n) :=
  match headOf db (w.nodes i).chain, recorded db o block (w.nodes i).chain with
  -- `recorded` tells a stored block from one that was there already
  | .ok head, some _ => [⟨i, head, block⟩]
  | _, _ => []

/-- `commitAcceptedBlocks` at node `i`: what it returns, and the network after. -/
def commitAt (w : Network σ n) (i : Fin n) (blocks : List ConsensusInfo) :
    Except Err Block × Network σ n :=
  let out := commitAcceptedBlocks db o blocks (w.nodes i).consensus (w.nodes i).chain
  let w' := (w.setConsensus i out.consensus []).setChain i out.chain
  match out.result with
  | .ok block => (.ok block, { w' with committed := w.committed ++ commitRecord db o w i block })
  | .error e => (.error e, w')

/-- `onNewBeaconEntry` at node `i`. -/
def onNewBeaconEntry (w : Network σ n) (i : Fin n) (blocks : List ConsensusInfo)
    (mined : Option Block) : Network σ n :=
  match commitAt db o w i blocks with
  | (.ok block, w') => (w'.broadcast i (.newBlock block)).proposeMined i mined
  -- no accepted block does not keep the node from mining
  | (.error .noAcceptedBlocks, w') => w'.proposeMined i mined
  | (.error _, w') => w'

/-- One step of the network.  A beacon event that does not list the accepted
    blocks of the node is none. -/
def step (w : Network σ n) : NetEvent n → Network σ n
  | .deliver k => w.deliver db o k
  | .newState k => w.handleNewState sign k
  | .propose i blk => w.proposeAt i blk
  | .beacon i blocks mined =>
    if blocks.Perm (w.nodes i).consensus.getAllBlocksWithCommit then
      w.onNewBeaconEntry db o i blocks mined
    else w

theorem nodes_setConsensus (w : Network σ n) (j : Fin n) (cm : ConsensusManager)
    (pubs : List NewState) (i : Fin n) : (w.setConsensus j cm pubs).nodes i =
      if i = j then { w.nodes j with consensus := cm } else w.nodes i :=
  Function.update_apply ..

end Network

end Dione.Consensus
