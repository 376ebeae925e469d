/-
  Dione.Consensus.Manager

  Consensus messages, the message log and the consensus manager
  (`consensus/types`, `consensus/msg_log.go`, `consensus/consensus_manager.go`).

  The log is a set that tells its elements apart by their contents.  The map of
  rounds is keyed by the hexadecimal block hash.  Events published on the bus
  are returned in the order of publication; they are delivered asynchronously.
-/

import Dione.Lib.Lists
import Dione.Types

namespace Dione.Consensus

open Guard Text

/-! ## Messages and their log -/

/-- `types.ConsensusMessageType`. -/
inductive MessageType where
  | unknown
  | prePrepare
  | prepare
  | commit
  deriving DecidableEq, Repr

/-- `types.ConsensusMessage`. -/
structure ConsensusMessage where
  type : MessageType
  blockhash : Bytes
  signature : Bytes
  block : Option Block
  fromPeer : PeerID
  deriving DecidableEq, Repr

/-- `ConsensusMessageLog`. -/
abbrev MessageLog := List ConsensusMessage

namespace MessageLog

/-- `AddMessage`: whether the message was new, and the log afterwards. -/
def addMessage (log : MessageLog) (msg : ConsensusMessage) : Bool × MessageLog :=
  if msg ∈ log then (false, log) else (true, msg :: log)

/-- The hash `Get` files a message under: that of its block if it carries one. -/
def hashOf (msg : ConsensusMessage) : Except Err Bytes :=
  match msg.block with
  | none => .ok msg.blockhash
  | some block => do
    let header ← deref block.header
    return header.hash

/-- `Get`. -/
def get (log : MessageLog) (typ : MessageType) (blockhash : Bytes) :
    Except Err (List ConsensusMessage) :=
  match log with
  | [] => .ok []
  | msg :: msgs =>
    -- only a message of the type asked for is looked into
    if msg.type = typ then do
      let msgBlockHash ← hashOf msg
      let result ← get msgs typ blockhash
      return if msgBlockHash = blockhash then msg :: result else result
    else get msgs typ blockhash

end MessageLog

/-! ## Rounds -/

/-- `consensus.State`. -/
inductive State where
  | unknown
  | prePrepared
  | prepared
  | commited
  deriving DecidableEq, Repr

/-- `ConsensusInfo`. -/
structure ConsensusInfo where
  blockhash : Bytes
  block : Option Block
  state : State
  messageLog : MessageLog
  deriving DecidableEq

/-- A `consensus:newState` event. -/
structure NewState where
  block : Option Block
  state : State
  deriving DecidableEq, Repr

/-- The first step of `maybeUpdateConsensusState`: a PrePrepare makes the block
    known.  Its debug line reads the hash of the block. -/
def discoverBlock (ci : ConsensusInfo) (cmsg : ConsensusMessage) :
    Except Err (ConsensusInfo × List NewState) :=
  match cmsg.block with
  | none => .ok (ci, [])
  | some block =>
    -- later PrePrepares of the round do not replace its block
    if ci.state = .unknown ∧ cmsg.type = .prePrepare then do
      let _ ← deref block.header
      return ({ ci with block := some block, state := .prePrepared },
        [⟨some block, .prePrepared⟩])
    else .ok (ci, [])

/-- The other two steps: enough messages of one type move the round on. -/
def advance (typ : MessageType) (approvals : Int) (before after : State) (blockhash : Bytes)
    (ci : ConsensusInfo) : Except Err (ConsensusInfo × List NewState) := do
  let msgs ← ci.messageLog.get typ blockhash
  return if approvals ≤ msgs.length ∧ ci.state = before then
    ({ ci with state := after }, [⟨ci.block, after⟩])
  else (ci, [])

/-- How many Prepare messages a block needs, `minApprovals-1` on machine integers. -/
def prepareQuorum (minApprovals : Int64) : Int := (minApprovals - 1).toInt

/-- How many Commit messages a block needs. -/
def commitQuorum (minApprovals : Int64) : Int := minApprovals.toInt

/-- `maybeUpdateConsensusState`. -/
def maybeUpdateConsensusState (minApprovals : Int64) (ci : ConsensusInfo)
    (cmsg : ConsensusMessage) : Except Err (ConsensusInfo × List NewState) := do
  -- one message can take the round through all three
  let r₁ ← discoverBlock ci cmsg
  let r₂ ← advance .prepare (prepareQuorum minApprovals) .prePrepared .prepared
    cmsg.blockhash r₁.1
  let r₃ ← advance .commit (commitQuorum minApprovals) .prepared .commited
    cmsg.blockhash r₂.1
  return (r₃.1, r₁.2 ++ r₂.2 ++ r₃.2)

/-! ## The manager -/

/-- `ConsensusManager`. -/
structure ConsensusManager where
  consensusInfoMap : AList fun _ : Str => ConsensusInfo
  minApprovals : Int64

namespace ConsensusManager

/-- A manager that has seen nothing. -/
def new (minApprovals : Int64) : ConsensusManager := ⟨∅, minApprovals⟩

/-- The round of a block hash. -/
def info (cm : ConsensusManager) (blockhash : Bytes) : Option ConsensusInfo :=
  cm.consensusInfoMap.lookup (hexEncode blockhash)

/-- `consensusInfoMap[hex(blockhash)] = ci`. -/
def setInfo (cm : ConsensusManager) (blockhash : Bytes) (ci : ConsensusInfo) :
    ConsensusManager :=
  { cm with consensusInfoMap := cm.consensusInfoMap.insert (hexEncode blockhash) ci }

/-- The round a message belongs to, opened if there is none. -/
def infoOrNew (cm : ConsensusManager) (cmsg : ConsensusMessage) : ConsensusInfo :=
  match cm.info cmsg.blockhash with
  | some ci => ci
  -- the block of the first message is kept, whatever its type
  | none => ⟨cmsg.blockhash, cmsg.block, .unknown, []⟩

/-- The error of a message the log holds already. -/
def alreadyExists : Err := .msg "consensus message already exists in message log"

/-- `InsertMessageIntoLog`.  A refused message leaves the manager as it was: the
    log of a round that has just been opened is empty and refuses nothing. -/
def insertMessageIntoLog (cm : ConsensusManager) (cmsg : ConsensusMessage) :
    Except Err (ConsensusManager × List NewState) :=
  let consensusInfo := cm.infoOrNew cmsg
  match consensusInfo.messageLog.addMessage cmsg with
  | (false, _) => .error alreadyExists
  | (true, log) => do
    let r ← maybeUpdateConsensusState cm.minApprovals
      { consensusInfo with messageLog := log } cmsg
    return (cm.setInfo cmsg.blockhash r.1, r.2)

/-- How the handlers insert: an error that is not a panic is only logged. -/
def insertOrWarn (cm : ConsensusManager) (cmsg : ConsensusMessage) :
    Except Err (ConsensusManager × List NewState) :=
  match cm.insertMessageIntoLog cmsg with
  | .ok r => .ok r
  | .error e => if e.isPanic then .error e else .ok (cm, [])

/-- Insert one message after the other, with all that is published meanwhile. -/
def insertAll (cm : ConsensusManager) :
    List ConsensusMessage → Except Err (ConsensusManager × List NewState)
  | [] => .ok (cm, [])
  | cmsg :: cmsgs => do
    let r ← cm.insertOrWarn cmsg
    let r' ← r.1.insertAll cmsgs
    return (r'.1, r.2 ++ r'.2)

/-- The log of a block hash, empty if there is no round for it. -/
def logOf (cm : ConsensusManager) (blockhash : Bytes) : MessageLog :=
  match cm.info blockhash with
  | some ci => ci.messageLog
  | none => []

/-- The state of a block hash, unknown if there is no round for it. -/
def stateOf (cm : ConsensusManager) (blockhash : Bytes) : State :=
  match cm.info blockhash with
  | some ci => ci.state
  | none => .unknown

/-- `Prune`. -/
def prune (cm : ConsensusManager) : ConsensusManager := { cm with consensusInfoMap := ∅ }

/-- `GetAllBlocksWithCommit`, in the order in which this map lists its entries. -/
def getAllBlocksWithCommit (cm : ConsensusManager) : List ConsensusInfo :=
  (cm.consensusInfoMap.entries.map Sigma.snd).filter fun ci => ci.state = .commited

theorem insertOrWarn_of_ok {cm : ConsensusManager} {cmsg : ConsensusMessage}
    {r : ConsensusManager × List NewState} (h : cm.insertMessageIntoLog cmsg = .ok r) :
    cm.insertOrWarn cmsg = .ok r := by
  rw [insertOrWarn, h]

@[simp] theorem info_new (m : Int64) (h : Bytes) : (new m).info h = none := by
  simp [info, new]

@[simp] theorem info_prune (cm : ConsensusManager) (h : Bytes) : cm.prune.info h = none := by
  simp [info, prune]

theorem info_setInfo (cm : ConsensusManager) (h h' : Bytes) (ci : ConsensusInfo) :
    (cm.setInfo h ci).info h' = if h' = h then some ci else cm.info h' := by
  unfold info setInfo
  rw [Lists.lookup_insert_ite]
  simp only [hexEncode_injective.eq_iff]

end ConsensusManager

end Dione.Consensus
