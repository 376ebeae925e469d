/-
  Dione.Consensus.Disputes

  The dispute manager (`consensus/dispute_manager.go`): it compares the submissions
  it sees on the Ethereum side with the tasks of the chain, begins disputes over
  those that differ, and votes in the disputes of others.

  The contract's events reach it one after the other in any order, and the timers it
  has started fire in between.  The chain may be another one at every event.  A
  vote of yes says that the miner the dispute names has submitted wrong data.  The
  manager compares the data, and never the miner with the proposer of the block the
  task is in.
-/

import Dione.Blockchain.Integrity
import Dione.Lib.Lists

namespace Dione.Consensus

open Guard Text BlockChain

/-! ## Looking for a task -/

section Find

variable {σ : Type} (db : Database σ) (o : Oracles) (requestID : Str)

/-- The loop over the transactions of a block. -/
def findTask : List (Option Transaction) → Except Err (Option DioneTask)
  | [] => .ok none
  | v :: vs => do
    let tx ← deref v
    match o.unmarshalTask tx.data with
    -- logged and skipped
    | .error _ => findTask vs
    | .ok task => if task.requestID = requestID then return some task else findTask vs

/-- The loop from `height` downwards, for `fuel` iterations; the height wraps around
    below 0. -/
def findLoop (s : σ) : Nat → UInt64 → Option (Except Err (DioneTask × Block))
  | 0, _ => none
  | fuel + 1, height =>
    match db.fetchBlockByHeight height s with
    | .error e => some (.error e)
    | .ok block =>
      match findTask o requestID block.data with
      | .error e => some (.error e)
      | .ok (some task) => some (.ok (task, block))
      | .ok none => findLoop s fuel (height - 1)

/-- `findTaskAndBlockWithRequestID`.  After `2 ^ 64` blocks without the task the loop
    starts over with the first one and never ends (`findLoop_none_of_all`), which is
    `none`. -/
def findTaskAndBlockWithRequestID (s : σ) : Option (Except Err (DioneTask × Block)) :=
  match db.getLatestBlockHeight s with
  | .error e => some (.error e)
  | .ok height => findLoop db o requestID s (2 ^ 64) height

variable {db o requestID}

/-- The loop is still going iff all blocks it has looked at are there and do not have
    the task. -/
theorem findLoop_eq_none {s : σ} {fuel : Nat} {height : UInt64} :
    findLoop db o requestID s fuel height = none ↔ ∀ i < fuel, ∃ block,
      db.fetchBlockByHeight (height - UInt64.ofNat i) s = .ok block ∧
        findTask o requestID block.data = .ok none := by
  induction fuel generalizing height with
  | zero => simp [findLoop]
  | succ fuel ih =>
      have hzero : height - UInt64.ofNat 0 = height := UInt64.sub_zero height
      have hbelow : ∀ i, height - UInt64.ofNat (i + 1) = height - 1 - UInt64.ofNat i := by
        intro i
        have hsucc : UInt64.ofNat (i + 1) = UInt64.ofNat i + 1 := UInt64.ofNat_add i 1
        rw [hsucc]
        grind
      rw [Nat.forall_lt_succ_left, hzero, findLoop]
      simp only [hbelow, ← ih]
      cases hfetch : db.fetchBlockByHeight height s with
      | error e => simp
      | ok block =>
          cases htask : findTask o requestID block.data with
          | error e => simp [htask]
          | ok found => cases found <;> simp [htask]

/-- A search that has not ended after `2 ^ 64` blocks never ends. -/
theorem findLoop_none_of_all {s : σ} {height : UInt64}
    (h : findLoop db o requestID s (2 ^ 64) height = none) (fuel : Nat) :
    findLoop db o requestID s fuel height = none := by
  rw [findLoop_eq_none] at h ⊢
  intro i _
  -- the heights come round again
  have hsame : height - UInt64.ofNat i = height - UInt64.ofNat (i % 2 ^ 64) := by
    rw [UInt64.ofNat_mod_size]
  rw [hsame]
  exact h (i % 2 ^ 64) (Nat.mod_lt _ (Nat.two_pow_pos 64))

end Find

/-! ## The manager -/

/-- `DioneOracleSubmittedOracleRequest`. -/
structure SubmittedOracleRequest where
  reqID : Nat
  data : Bytes
  deriving DecidableEq, Repr

/-- `DioneDisputeNewDispute`. -/
structure NewDispute where
  dhash : Bytes
  requestID : Nat
  miner : Address
  disputeInitiator : Address
  deriving DecidableEq, Repr

/-- `Submission`. -/
structure Submission where
  reqID : Nat
  data : Bytes
  timestamp : Int64
  checked : Bool
  deriving DecidableEq, Repr

/-- `Dispute`. -/
structure Dispute where
  dhash : Bytes
  requestID : Nat
  miner : Address
  disputeInitiator : Address
  timestamp : Int64
  voted : Bool
  finished : Bool
  deriving DecidableEq, Repr

/-- `wrapSubmission`. -/
def wrapSubmission (s : SubmittedOracleRequest) : Submission := ⟨s.reqID, s.data, 0, false⟩

/-- `wrapDispute`. -/
def wrapDispute (d : NewDispute) : Dispute :=
  ⟨d.dhash, d.requestID, d.miner, d.disputeInitiator, 0, false, false⟩

/-- An entry of the dispute cache.  `Get` reads pointers; on an entry that is no
    pointer it panics. -/
inductive CachedDispute where
  | pointer (d : Dispute)
  | value (d : Dispute)
  deriving DecidableEq, Repr

/-- Calls of the Ethereum side. -/
inductive EthCall where
  | beginDispute (miner : Address) (requestID : Nat)
  | voteDispute (dhash : Bytes) (voteStatus : Bool)
  | finishDispute (dhash : Bytes)
  deriving DecidableEq, Repr

/-- Whether the loop of `Run` takes events. -/
inductive Activity where
  | running
  /-- It is in a search that never ends. -/
  | searching
  /-- The node has panicked. -/
  | crashed
  deriving DecidableEq, Repr

/-- `DisputeManager`; `timers` are the requests of running timers. -/
structure DisputeManager where
  submissionCache : AList fun _ : Str => Submission
  disputeCache : AList fun _ : Str => CachedDispute
  timers : List Nat
  activity : Activity

/-- What reaches the manager: events of the contracts with the chain it then sees,
    the time and the result of the call it may make, and its timers. -/
inductive DisputeEvent (σ : Type) where
  | submission (s : SubmittedOracleRequest) (o : Oracles) (chain : σ) (now : Int64)
      (result : Except Err Unit)
  | dispute (d : NewDispute) (o : Oracles) (chain : σ) (now : Int64) (result : Except Err Unit)
  /-- The `k`-th timer fires. -/
  | timer (k : Nat) (result : Except Err Unit)

/-- The data of the cached submission of a request after an event, if it was `data`
    before. -/
def DisputeEvent.submittedData {σ : Type} (e : DisputeEvent σ) (requestID : Nat)
    (data : Option Bytes) : Option Bytes :=
  match e with
  | .submission s _ _ _ _ => if requestID = s.reqID then some s.data else data
  | .dispute .. | .timer .. => data

namespace DisputeManager

/-- `NewDisputeManager`. -/
def new : DisputeManager := ⟨∅, ∅, [], .running⟩

/-- The search has failed. -/
def afterError (dm : DisputeManager) (e : Err) : DisputeManager :=
  if e.isPanic then { dm with activity := .crashed } else dm

/-- `submissionCache.Store`. -/
def storeSubmission (dm : DisputeManager) (s : Submission) : DisputeManager :=
  { dm with submissionCache := dm.submissionCache.insert (decimal s.reqID) s }

/-- `disputeCache.Store`. -/
def storeDispute (dm : DisputeManager) (d : CachedDispute) (requestID : Nat) : DisputeManager :=
  { dm with disputeCache := dm.disputeCache.insert (decimal requestID) d }

variable {σ : Type} (db : Database σ) (sha3 : Bytes → Bytes) (ethAddress : Address)

/-- `onNewSubmission`. -/
def onNewSubmission (dm : DisputeManager) (submission : SubmittedOracleRequest) (o : Oracles)
    (chain : σ) (now : Int64) (result : Except Err Unit) : DisputeManager × List EthCall :=
  let s := { wrapSubmission submission with timestamp := now }
  let dm := dm.storeSubmission s
  match findTaskAndBlockWithRequestID db o (decimal submission.reqID) chain with
  | none => ({ dm with activity := .searching }, [])
  | some (.error e) => (dm.afterError e, [])
  | some (.ok (task, block)) =>
    if hexEncode (sha3 s.data) ≠ hexEncode (sha3 task.payload) then
      match block.header with
      | none => ({ dm with activity := .crashed }, [])
      | some header =>
        let calls := [EthCall.beginDispute header.proposerEth s.reqID]
        match result with
        | .error _ => (dm, calls)
        | .ok () =>
          (({ dm with timers := dm.timers ++ [s.reqID] }).storeSubmission
            { s with checked := true }, calls)
    else (dm.storeSubmission { s with checked := true }, [])

/-- `onNewDispute`. -/
def onNewDispute (dm : DisputeManager) (dispute : NewDispute) (o : Oracles) (chain : σ)
    (now : Int64) (result : Except Err Unit) : DisputeManager × List EthCall :=
  let d := { wrapDispute dispute with timestamp := now }
  let dm := dm.storeDispute (.pointer d) d.requestID
  -- the block is not looked at
  match findTaskAndBlockWithRequestID db o (decimal d.requestID) chain with
  | none => ({ dm with activity := .searching }, [])
  | some (.error e) => (dm.afterError e, [])
  | some (.ok (task, _)) =>
    match dm.submissionCache.lookup (decimal d.requestID) with
    | none => (dm, [])
    | some s =>
      let voted := dm.storeDispute (.pointer { d with voted := true }) d.requestID
      if dispute.disputeInitiator = ethAddress then (voted, [])
      else
        let calls := [EthCall.voteDispute d.dhash
          (decide (hexEncode (sha3 s.data) ≠ hexEncode (sha3 task.payload)))]
        match result with
        | .error _ => (dm, calls)
        | .ok () => (voted, calls)

/-- What a timer started by `onNewSubmission` does.  The finished dispute is stored
    as a value. -/
def onTimer (dm : DisputeManager) (k : Nat) (result : Except Err Unit) :
    DisputeManager × List EthCall :=
  match dm.timers[k]? with
  | none => (dm, [])
  | some reqID =>
    let dm := { dm with timers := dm.timers.eraseIdx k }
    match dm.disputeCache.lookup (decimal reqID) with
    | none => (dm, [])
    | some (.value _) => ({ dm with activity := .crashed }, [])
    | some (.pointer d) =>
      let calls := [EthCall.finishDispute d.dhash]
      match result with
      | .error _ => (dm, calls)
      | .ok () => (dm.storeDispute (.value { d with finished := true }) d.requestID, calls)

/-- One event, with the calls it makes.  A timer fires whatever the loop does, as
    long as there is a node. -/
def handle (dm : DisputeManager) (e : DisputeEvent σ) : DisputeManager × List EthCall :=
  match dm.activity, e with
  | .running, .submission s o chain now result => dm.onNewSubmission db sha3 s o chain now result
  | .running, .dispute d o chain now result =>
    dm.onNewDispute db sha3 ethAddress d o chain now result
  | .running, .timer k result => dm.onTimer k result
  | .searching, .timer k result => dm.onTimer k result
  | _, _ => (dm, [])

/-- One step. -/
def step (dm : DisputeManager) (e : DisputeEvent σ) : DisputeManager :=
  (dm.handle db sha3 ethAddress e).1

/-! ## What a step does -/

/-- The data of the cached submission of a request. -/
def cachedData (dm : DisputeManager) (requestID : Nat) : Option Bytes :=
  (dm.submissionCache.lookup (decimal requestID)).map (·.data)

section Step

variable {dm : DisputeManager}

@[simp] theorem cachedData_storeSubmission (s : Submission) (requestID : Nat) :
    (dm.storeSubmission s).cachedData requestID
      = if requestID = s.reqID then some s.data else dm.cachedData requestID := by
  unfold cachedData storeSubmission
  rw [Lists.lookup_insert_ite]
  simp only [decimal_injective.eq_iff]
  split <;> rfl

@[simp] theorem cachedData_storeDispute (d : CachedDispute) (r requestID : Nat) :
    (dm.storeDispute d r).cachedData requestID = dm.cachedData requestID := rfl

@[simp] theorem cachedData_afterError (e : Err) (requestID : Nat) :
    (dm.afterError e).cachedData requestID = dm.cachedData requestID := by
  unfold afterError
  split <;> rfl

/-- Whatever becomes of it, a submission is cached. -/
theorem cachedData_onNewSubmission (submission : SubmittedOracleRequest) (o : Oracles) (chain : σ)
    (now : Int64) (result : Except Err Unit) (requestID : Nat) :
    (dm.onNewSubmission db sha3 submission o chain now result).1.cachedData requestID
      = if requestID = submission.reqID then some submission.data
        else dm.cachedData requestID := by
  have honce : ∀ s : Submission, s.reqID = submission.reqID → s.data = submission.data →
      (dm.storeSubmission s).cachedData requestID = if requestID = submission.reqID then
        some submission.data else dm.cachedData requestID := by
    intro s hreqID hdata
    rw [cachedData_storeSubmission, hreqID, hdata]
  -- the second store, after the check, has the same data
  have htwice : ∀ (dm' : DisputeManager) (s : Submission), s.reqID = submission.reqID →
      s.data = submission.data → dm'.cachedData requestID = (if requestID = submission.reqID then
        some submission.data else dm.cachedData requestID) →
      (dm'.storeSubmission s).cachedData requestID = if requestID = submission.reqID then
        some submission.data else dm.cachedData requestID := by
    intro dm' s hreqID hdata hbefore
    rw [cachedData_storeSubmission, hreqID, hdata, hbefore]
    split <;> rfl
  unfold onNewSubmission
  dsimp only
  split
  · exact honce _ rfl rfl
  · rw [cachedData_afterError]
    exact honce _ rfl rfl
  · split
    · split
      · exact honce _ rfl rfl
      · split
        · exact honce _ rfl rfl
        · exact htwice _ _ rfl rfl (honce _ rfl rfl)
    · exact htwice _ _ rfl rfl (honce _ rfl rfl)

theorem cachedData_onNewDispute (d : NewDispute) (o : Oracles) (chain : σ) (now : Int64)
    (result : Except Err Unit) (requestID : Nat) :
    (dm.onNewDispute db sha3 ethAddress d o chain now result).1.cachedData requestID
      = dm.cachedData requestID := by
  unfold onNewDispute
  dsimp only
  split
  · rfl
  · simp
  · split
    · rfl
    · split
      · rfl
      · split <;> rfl

theorem cachedData_onTimer (k : Nat) (result : Except Err Unit) (requestID : Nat) :
    (dm.onTimer k result).1.cachedData requestID = dm.cachedData requestID := by
  unfold onTimer
  split
  · rfl
  · dsimp only
    split
    · rfl
    · rfl
    · split <;> rfl

/-- The loop does not come back from a search that never ends or a crash. -/
theorem running_of_step {e : DisputeEvent σ}
    (h : (dm.step db sha3 ethAddress e).activity = .running) : dm.activity = .running := by
  have htimer : ∀ k result, dm.activity = .searching →
      (dm.onTimer k result).1.activity ≠ .running := by
    intro k result hsearching
    unfold onTimer
    split
    · rw [hsearching]
      decide
    · dsimp only
      split
      · rw [hsearching]
        decide
      · show Activity.crashed ≠ .running
        decide
      · split
        · rw [hsearching]
          decide
        · show dm.activity ≠ _
          rw [hsearching]
          decide
  unfold step handle at h
  split at h
  · next heq => exact heq
  · next heq => exact heq
  · next heq => exact heq
  · next k result heq => exact absurd h (htimer k result heq)
  · exact h

/-- What an event the loop takes does to the cached data. -/
theorem cachedData_step (hrun : dm.activity = .running) (e : DisputeEvent σ) (requestID : Nat) :
    (dm.step db sha3 ethAddress e).cachedData requestID
      = e.submittedData requestID (dm.cachedData requestID) := by
  unfold step handle
  rw [hrun]
  cases e with
  | submission s o chain now result =>
      exact cachedData_onNewSubmission db sha3 s o chain now result requestID
  | dispute d o chain now result =>
      exact cachedData_onNewDispute db sha3 ethAddress d o chain now result requestID
  | timer k result => exact cachedData_onTimer k result requestID

/-- The calls of `onNewDispute`. -/
theorem calls_onNewDispute (d : NewDispute) (o : Oracles) (chain : σ) (now : Int64)
    (result : Except Err Unit) (call : EthCall) :
    call ∈ (dm.onNewDispute db sha3 ethAddress d o chain now result).2 ↔
      d.disputeInitiator ≠ ethAddress ∧ ∃ task block data,
        findTaskAndBlockWithRequestID db o (decimal d.requestID) chain = some (.ok (task, block)) ∧
          dm.cachedData d.requestID = some data ∧
          call = .voteDispute d.dhash (decide (sha3 data ≠ sha3 task.payload)) := by
  have hhex : ∀ a b : Bytes, hexEncode a = hexEncode b ↔ a = b :=
    fun a b => hexEncode_injective.eq_iff
  unfold onNewDispute
  dsimp only [wrapDispute]
  cases hfind : findTaskAndBlockWithRequestID db o (decimal d.requestID) chain with
  | none => simp
  | some found =>
      cases found with
      | error e => simp
      | ok found =>
          obtain ⟨task, block⟩ := found
          have hcache : (dm.storeDispute (.pointer ⟨d.dhash, d.requestID, d.miner,
              d.disputeInitiator, now, false, false⟩) d.requestID).submissionCache
                = dm.submissionCache := rfl
          rw [hcache]
          unfold cachedData
          cases hlookup : dm.submissionCache.lookup (decimal d.requestID) with
          | none => simp
          | some s =>
              by_cases hself : d.disputeInitiator = ethAddress
              · simp [hself]
              · cases result <;> simp [hself, hhex]

/-- When a dispute event makes the manager vote yes. -/
theorem votesYes_iff {d : NewDispute} {o : Oracles} {chain : σ} {now : Int64}
    {result : Except Err Unit} :
    .voteDispute d.dhash true ∈ (dm.handle db sha3 ethAddress (.dispute d o chain now result)).2 ↔
      dm.activity = .running ∧ d.disputeInitiator ≠ ethAddress ∧ ∃ task block data,
        findTaskAndBlockWithRequestID db o (decimal d.requestID) chain = some (.ok (task, block)) ∧
          dm.cachedData d.requestID = some data ∧ sha3 data ≠ sha3 task.payload := by
  unfold handle
  cases hactivity : dm.activity with
  | running =>
      rw [calls_onNewDispute]
      simp
  | searching => simp
  | crashed => simp

end Step

end DisputeManager

/-! ## Runs -/

section Runs

variable {σ : Type} (db : Database σ) (sha3 : Bytes → Bytes) (ethAddress : Address)

/-- The data last submitted for a request. -/
def lastSubmission (requestID : Nat) (evs : List (DisputeEvent σ)) : Option Bytes :=
  evs.foldl (fun data e => e.submittedData requestID data) none

/-- The manager after the events `evs`. -/
def managerAfter (evs : List (DisputeEvent σ)) : DisputeManager :=
  Run.exec (DisputeManager.step db sha3 ethAddress) .new evs

/-- As long as the loop runs, the cache holds what was last submitted. -/
theorem cachedData_managerAfter {evs : List (DisputeEvent σ)}
    (hrun : (managerAfter db sha3 ethAddress evs).activity = .running) (requestID : Nat) :
    (managerAfter db sha3 ethAddress evs).cachedData requestID = lastSubmission requestID evs := by
  induction evs using List.reverseRecOn with
  | nil => rfl
  | append_singleton evs e ih =>
      rw [managerAfter, Run.exec_concat] at hrun ⊢
      have hbefore := DisputeManager.running_of_step db sha3 ethAddress hrun
      rw [DisputeManager.cachedData_step db sha3 ethAddress hbefore, lastSubmission,
        List.foldl_concat]
      exact congrArg (e.submittedData requestID) (ih hbefore)

/-- A yes in the dispute `d` is right: it names the proposer of the block that has the
    task, and the data submitted last is not what the task says. -/
def AccusesProposer (before : List (DisputeEvent σ)) (d : NewDispute) (o : Oracles) (chain : σ) :
    Prop :=
  ∃ task block header data,
    findTaskAndBlockWithRequestID db o (decimal d.requestID) chain = some (.ok (task, block)) ∧
      block.header = some header ∧ d.miner = header.proposerEth ∧
      lastSubmission d.requestID before = some data ∧ data ≠ task.payload

/-- Every yes of the run is right. -/
def VotesAccuseProposer (evs : List (DisputeEvent σ)) : Prop :=
  ∀ before d o chain now result, before ++ [.dispute d o chain now result] <+: evs →
    .voteDispute d.dhash true ∈ ((managerAfter db sha3 ethAddress before).handle db sha3 ethAddress
      (.dispute d o chain now result)).2 →
    AccusesProposer db before d o chain

/-- Every dispute of another node that the running manager gets to see over data that is not
    what the task says names the proposer of the block that has the task. -/
def DisputesNameProposer (evs : List (DisputeEvent σ)) : Prop :=
  ∀ before d o chain now result, before ++ [.dispute d o chain now result] <+: evs →
    (managerAfter db sha3 ethAddress before).activity = .running →
    d.disputeInitiator ≠ ethAddress → ∀ task block data,
      findTaskAndBlockWithRequestID db o (decimal d.requestID) chain = some (.ok (task, block)) →
      lastSubmission d.requestID before = some data → data ≠ task.payload →
      ∃ header, block.header = some header ∧ d.miner = header.proposerEth

/-- The votes of a manager accuse only the responsible miners iff the disputes it sees
    name them. -/
theorem votesAccuseProposer_iff (hsha3 : Function.Injective sha3) (evs : List (DisputeEvent σ)) :
    VotesAccuseProposer db sha3 ethAddress evs ↔ DisputesNameProposer db sha3 ethAddress evs := by
  constructor
  · intro h before d o chain now result hpre hrun hother task block data hfind hlast hdiffers
    have hcached := (cachedData_managerAfter db sha3 ethAddress hrun d.requestID).trans hlast
    have hvote : .voteDispute d.dhash true ∈ ((managerAfter db sha3 ethAddress before).handle db
        sha3 ethAddress (.dispute d o chain now result)).2 :=
      (DisputeManager.votesYes_iff db sha3 ethAddress).mpr
        ⟨hrun, hother, task, block, data, hfind, hcached, hsha3.ne hdiffers⟩
    obtain ⟨task', block', header, -, hfind', hheader, hminer, -⟩ :=
      h before d o chain now result hpre hvote
    rw [hfind] at hfind'
    obtain ⟨rfl, rfl⟩ := Prod.mk.inj (Except.ok.inj (Option.some.inj hfind'))
    exact ⟨header, hheader, hminer⟩
  · intro h before d o chain now result hpre hvote
    obtain ⟨hrun, hother, task, block, data, hfind, hcached, hdiffers⟩ :=
      (DisputeManager.votesYes_iff db sha3 ethAddress).mp hvote
    rw [cachedData_managerAfter db sha3 ethAddress hrun] at hcached
    have hne : data ≠ task.payload := fun heq => hdiffers (congrArg sha3 heq)
    obtain ⟨header, hheader, hminer⟩ :=
      h before d o chain now result hpre hrun hother task block data hfind hcached hne
    exact ⟨task, block, header, data, hfind, hheader, hminer, hcached, hne⟩

end Runs

/-! ### A dispute against a bystander -/

/-- Services that read every transaction as the task of request 1. -/
def taskOracles : Oracles :=
  { Oracles.permissive with unmarshalTask := fun data => .ok ⟨0, [], [], data, decimal 1⟩ }

/-- A block of the miner with address 1 with the payload `[8]` for request 1. -/
def taskBlock : Block :=
  ⟨some (childHeader [1] 1), [some ⟨textBytes (hexEncode [8]), ⟨some [], 0⟩, 0, [8]⟩]⟩

/-- The chain with that block. -/
def taskChain : Memory.Cache :=
  (storeBlock Memory.database taskOracles taskBlock (genesisChain Memory.backend)).state

/-- `[9]` is submitted for request 1. -/
def wrongSubmission : DisputeEvent Memory.Cache :=
  .submission ⟨1, [9]⟩ taskOracles taskChain 0 (.ok ())

/-- Somebody opens a dispute over request 1 that names a miner. -/
def disputeNaming (miner : Nat) : DisputeEvent Memory.Cache :=
  .dispute ⟨[7], 1, .ofNat miner, .ofNat 5⟩ taskOracles taskChain 0 (.ok ())

theorem find_taskChain :
    findTaskAndBlockWithRequestID Memory.database taskOracles (decimal 1) taskChain
      = some (.ok (⟨0, [], [], [8], decimal 1⟩, taskBlock)) := by
  decide +kernel

theorem votesYes_disputeNaming (miner : Nat) :
    .voteDispute [7] true ∈ ((managerAfter Memory.database id (.ofNat 9) [wrongSubmission]).handle
      Memory.database id (.ofNat 9) (disputeNaming miner)).2 := by
  have hrun :
      (managerAfter Memory.database id (.ofNat 9) [wrongSubmission]).activity = .running := by
    decide +kernel
  have hcached : (managerAfter Memory.database id (.ofNat 9) [wrongSubmission]).cachedData 1
      = some [9] := by decide +kernel
  have hother : Address.ofNat 5 ≠ Address.ofNat 9 := by decide
  exact (DisputeManager.votesYes_iff Memory.database id (.ofNat 9)
    (d := ⟨[7], 1, .ofNat miner, .ofNat 5⟩)).mpr
    ⟨hrun, hother, _, _, [9], find_taskChain, hcached, by decide⟩

theorem votesAccuseProposer_disputeNaming_one :
    VotesAccuseProposer Memory.database id (.ofNat 9) [wrongSubmission, disputeNaming 1] := by
  refine (votesAccuseProposer_iff Memory.database id (.ofNat 9) Function.injective_id _).mpr ?_
  intro before d o chain now result hpre hrun hother task block data hfind hlast hdiffers
  obtain ⟨after, hevs⟩ := hpre
  -- the dispute is the second of the two events
  match before, hevs with
  | [], hevs => simp [wrongSubmission] at hevs
  | [first], hevs =>
      simp only [disputeNaming, List.cons_append, List.nil_append, List.cons.injEq,
        DisputeEvent.dispute.injEq] at hevs
      obtain ⟨-, ⟨rfl, rfl, rfl, -, -⟩, -⟩ := hevs
      rw [find_taskChain] at hfind
      obtain ⟨-, rfl⟩ := Prod.mk.inj (Except.ok.inj (Option.some.inj hfind))
      exact ⟨childHeader [1] 1, rfl, rfl⟩
  | _ :: _ :: _, hevs => simp at hevs

/-- The manager votes yes in a dispute that names the miner with address 2, who has
    nothing to do with the block. -/
theorem not_votesAccuseProposer_disputeNaming_two :
    ¬ VotesAccuseProposer Memory.database id (.ofNat 9) [wrongSubmission, disputeNaming 2] := by
  intro h
  obtain ⟨task, block, header, data, hfind, hheader, hminer, -⟩ :=
    h [wrongSubmission] ⟨[7], 1, .ofNat 2, .ofNat 5⟩ taskOracles taskChain 0 (.ok ())
      (List.prefix_refl _) (votesYes_disputeNaming 2)
  have hfound := find_taskChain.symm.trans hfind
  obtain ⟨-, rfl⟩ := Prod.mk.inj (Except.ok.inj (Option.some.inj hfound))
  obtain rfl : childHeader [1] 1 = header := Option.some.inj hheader
  exact absurd hminer (by decide)

end Dione.Consensus
