/-
  Dione.Consensus.Timers

  The timers of the dispute manager (`consensus/dispute_manager.go`).  Where
  `onNewSubmission` has begun a dispute it starts a timer, and the timer finishes
  the dispute that is then cached for the request.

  The contract keeps disputes by miner and request, the cache by request alone, so
  the dispute a timer finds is the one of the last `NewDispute` event for its
  request, whoever that is against.
-/

import Dione.Consensus.Disputes
import Dione.Contracts.Solvency

namespace Dione.Consensus

open Guard Text

/-- The `dhash` of the dispute against `miner` over a request, as the contract emits
    it. -/
def disputeDhash (evm : Contracts.Evm) (miner : Address) (requestID : Nat) : Bytes :=
  Contracts.bigEndian 32
    (Contracts.DioneDispute.disputeHash evm miner (BitVec.ofNat 256 requestID)).toNat

/-- The event a cached dispute was made of. -/
def Dispute.event (d : Dispute) : NewDispute := ⟨d.dhash, d.requestID, d.miner, d.disputeInitiator⟩

/-- The event of a cache entry that `Get` can read. -/
def CachedDispute.readable : CachedDispute → Option NewDispute
  | .pointer d => some d.event
  | .value _ => none

namespace DisputeManager

/-- The dispute a timer for a request finds. -/
def openDispute (dm : DisputeManager) (requestID : Nat) : Option NewDispute :=
  (dm.disputeCache.lookup (decimal requestID)).bind CachedDispute.readable

variable {σ : Type} (db : Database σ) (sha3 : Bytes → Bytes) (ethAddress : Address)
  {dm : DisputeManager}

/-! ## What an event does to the timers and the cache -/

@[simp] theorem openDispute_storeDispute (d : CachedDispute) (r requestID : Nat) :
    (dm.storeDispute d r).openDispute requestID
      = if requestID = r then d.readable else dm.openDispute requestID := by
  unfold openDispute storeDispute
  rw [Lists.lookup_insert_ite]
  simp only [decimal_injective.eq_iff]
  split <;> rfl

theorem afterError_disputeCache (e : Err) : (dm.afterError e).disputeCache = dm.disputeCache := by
  unfold afterError
  split <;> rfl

theorem afterError_timers (e : Err) : (dm.afterError e).timers = dm.timers := by
  unfold afterError
  split <;> rfl

theorem onNewSubmission_disputeCache (s : SubmittedOracleRequest) (o : Oracles) (chain : σ)
    (now : Int64) (result : Except Err Unit) :
    (dm.onNewSubmission db sha3 s o chain now result).1.disputeCache = dm.disputeCache := by
  unfold onNewSubmission
  dsimp only
  split
  · rfl
  · exact afterError_disputeCache _
  · split
    · split
      · rfl
      · split <;> rfl
    · rfl

/-- The disputes that have been begun when the calls `calls` end with `result`. -/
def begunBy (result : Except Err Unit) (calls : List EthCall) : List (Address × Nat) :=
  match result, calls with
  | .ok (), [.beginDispute miner requestID] => [(miner, requestID)]
  | _, _ => []

/-- A submission starts a timer iff it has begun a dispute. -/
theorem onNewSubmission_timers (s : SubmittedOracleRequest) (o : Oracles) (chain : σ)
    (now : Int64) (result : Except Err Unit) :
    (dm.onNewSubmission db sha3 s o chain now result).1.timers = dm.timers ++
      (begunBy result (dm.onNewSubmission db sha3 s o chain now result).2).map Prod.snd := by
  have hnothing : begunBy result [] = [] := by
    cases result <;> rfl
  unfold onNewSubmission
  dsimp only
  split
  · simp [hnothing, storeSubmission]
  · simp [hnothing, afterError_timers, storeSubmission]
  · split
    · split
      · simp [hnothing, storeSubmission]
      · split
        · simp [begunBy, storeSubmission]
        · simp [begunBy, storeSubmission]
    · simp [hnothing, storeSubmission]

/-- Whatever becomes of it, a dispute is cached, over the one before. -/
theorem openDispute_onNewDispute (d : NewDispute) (o : Oracles) (chain : σ) (now : Int64)
    (result : Except Err Unit) (requestID : Nat) :
    (dm.onNewDispute db sha3 ethAddress d o chain now result).1.openDispute requestID
      = if requestID = d.requestID then some d else dm.openDispute requestID := by
  have hstore : ∀ (dm' : DisputeManager) (c : Dispute), c.event = d →
      (requestID ≠ d.requestID → dm'.openDispute requestID = dm.openDispute requestID) →
      (dm'.storeDispute (.pointer c) d.requestID).openDispute requestID
        = if requestID = d.requestID then some d else dm.openDispute requestID := by
    intro dm' c hevent hothers
    rw [openDispute_storeDispute, CachedDispute.readable, hevent]
    split
    · rfl
    · next hne => exact hothers hne
  have honce : (dm.storeDispute (.pointer { wrapDispute d with timestamp := now })
      d.requestID).openDispute requestID
        = if requestID = d.requestID then some d else dm.openDispute requestID :=
    hstore dm _ rfl fun _ => rfl
  -- the second store, with the vote noted, has the same event
  have htwice : ((dm.storeDispute (.pointer { wrapDispute d with timestamp := now })
      d.requestID).storeDispute (.pointer { wrapDispute d with timestamp := now, voted := true })
        d.requestID).openDispute requestID
        = if requestID = d.requestID then some d else dm.openDispute requestID := by
    refine hstore _ _ rfl fun hne => ?_
    rw [honce, if_neg hne]
  unfold onNewDispute
  dsimp only
  split
  · exact honce
  · unfold openDispute
    rw [afterError_disputeCache]
    exact honce
  · split
    · exact honce
    · split
      · exact htwice
      · split
        · exact honce
        · exact htwice

theorem onNewDispute_timers (d : NewDispute) (o : Oracles) (chain : σ) (now : Int64)
    (result : Except Err Unit) :
    (dm.onNewDispute db sha3 ethAddress d o chain now result).1.timers = dm.timers := by
  unfold onNewDispute
  dsimp only
  split
  · rfl
  · exact afterError_timers _
  · split
    · rfl
    · split
      · rfl
      · split <;> rfl

theorem onTimer_timers (k : Nat) (result : Except Err Unit) :
    (dm.onTimer k result).1.timers = dm.timers.eraseIdx k := by
  unfold onTimer
  split
  · next hnone => exact (List.eraseIdx_of_length_le (List.getElem?_eq_none_iff.mp hnone)).symm
  · dsimp only
    split
    · rfl
    · rfl
    · split <;> rfl

/-- A timer finishes the open dispute of its request. -/
theorem finishDispute_mem_onTimer {k : Nat} {result : Except Err Unit} {dhash : Bytes} :
    .finishDispute dhash ∈ (dm.onTimer k result).2 ↔ ∃ requestID d,
      dm.timers[k]? = some requestID ∧ dm.openDispute requestID = some d ∧ d.dhash = dhash := by
  unfold onTimer openDispute
  cases dm.timers[k]? with
  | none => simp
  | some requestID =>
      cases hlookup : dm.disputeCache.lookup (decimal requestID) with
      | none => simp [hlookup]
      | some c =>
          cases c with
          | value d => simp [hlookup, CachedDispute.readable]
          | pointer d =>
              cases result <;>
                simp [hlookup, CachedDispute.readable, Dispute.event, eq_comm]

/-- Once its dispute is finished, there is no open one for the request. -/
theorem openDispute_onTimer (hown : ∀ r d, dm.openDispute r = some d → d.requestID = r)
    (k : Nat) (result : Except Err Unit) (requestID : Nat) :
    (dm.onTimer k result).1.openDispute requestID
      = if result = .ok () ∧ dm.timers[k]? = some requestID then none
        else dm.openDispute requestID := by
  unfold onTimer
  cases htimer : dm.timers[k]? with
  | none => simp
  | some r =>
      dsimp only
      have hsame : ({ dm with timers := dm.timers.eraseIdx k } : DisputeManager).disputeCache.lookup
          (decimal r) = dm.disputeCache.lookup (decimal r) := rfl
      rw [hsame]
      -- where nothing can be read there is nothing to finish
      have hnone : dm.openDispute r = none → dm.openDispute requestID
          = if result = .ok () ∧ some r = some requestID then none
            else dm.openDispute requestID := by
        intro hr
        split
        · next h =>
            obtain rfl := Option.some.inj h.2
            exact hr
        · rfl
      cases hlookup : dm.disputeCache.lookup (decimal r) with
      | none =>
          refine hnone ?_
          rw [openDispute, hlookup]
          rfl
      | some c =>
          cases c with
          | value d =>
              refine hnone ?_
              rw [openDispute, hlookup]
              rfl
          | pointer d =>
              have hopen : dm.openDispute r = some d.event := by
                rw [openDispute, hlookup]
                rfl
              have hd : d.requestID = r := hown r _ hopen
              cases result with
              | error e =>
                  rw [if_neg (by simp)]
                  rfl
              | ok u =>
                  show (storeDispute _ _ _).openDispute requestID = _
                  rw [openDispute_storeDispute, hd]
                  simp only [CachedDispute.readable, true_and, Option.some.injEq, eq_comm]
                  rfl

end DisputeManager

/-! ## Which dispute a timer is for -/

/-- The manager, with the dispute each of its timers was started for, and for each
    request the `NewDispute` event it took last, unless it has finished that. -/
structure Watch where
  manager : DisputeManager
  begun : List (Address × Nat)
  latest : Nat → Option NewDispute

namespace Watch

/-- A new manager. -/
def new : Watch := ⟨.new, [], fun _ => none⟩

/-- The events taken last after the `k`-th timer has fired. -/
def latestAfter (w : Watch) (k : Nat) (result : Except Err Unit) : Nat → Option NewDispute :=
  fun requestID =>
    if result = .ok () ∧ w.begun[k]?.map Prod.snd = some requestID then none
    else w.latest requestID

variable {σ : Type} (db : Database σ) (sha3 : Bytes → Bytes) (ethAddress : Address)

/-- One event. -/
def step (w : Watch) (e : DisputeEvent σ) : Watch :=
  let (manager, calls) := w.manager.handle db sha3 ethAddress e
  match w.manager.activity, e with
  | .running, .submission _ _ _ _ result =>
    ⟨manager, w.begun ++ DisputeManager.begunBy result calls, w.latest⟩
  | .running, .dispute d _ _ _ _ =>
    ⟨manager, w.begun, Function.update w.latest d.requestID (some d)⟩
  | .running, .timer k result => ⟨manager, w.begun.eraseIdx k, w.latestAfter k result⟩
  | .searching, .timer k result => ⟨manager, w.begun.eraseIdx k, w.latestAfter k result⟩
  | _, _ => w

/-- The manager is not affected by being watched. -/
theorem step_manager (w : Watch) (e : DisputeEvent σ) :
    (w.step db sha3 ethAddress e).manager = w.manager.step db sha3 ethAddress e := by
  unfold step DisputeManager.step DisputeManager.handle
  cases w.manager.activity <;> cases e <;> rfl

theorem manager_exec (evs : List (DisputeEvent σ)) :
    (Run.exec (step db sha3 ethAddress) .new evs).manager
      = managerAfter db sha3 ethAddress evs := by
  induction evs using List.reverseRecOn with
  | nil => rfl
  | append_singleton evs e ih =>
      rw [managerAfter, Run.exec_concat, Run.exec_concat, step_manager, ih]
      rfl

/-- What is noted agrees with what the manager has. -/
structure Agrees (w : Watch) : Prop where
  timers : w.begun.map Prod.snd = w.manager.timers
  opened : ∀ r, w.manager.openDispute r = w.latest r
  own : ∀ r d, w.latest r = some d → d.requestID = r

variable {w : Watch}

theorem Agrees.getElem?_begun (h : w.Agrees) (k : Nat) :
    w.manager.timers[k]? = w.begun[k]?.map Prod.snd := by
  rw [← h.timers, List.getElem?_map]

theorem Agrees.onTimer (h : w.Agrees) (k : Nat) (result : Except Err Unit) :
    Agrees ⟨(w.manager.onTimer k result).1, w.begun.eraseIdx k, w.latestAfter k result⟩ := by
  constructor
  · rw [DisputeManager.onTimer_timers, ← h.timers, List.eraseIdx_map]
  · intro r
    have hown : ∀ r d, w.manager.openDispute r = some d → d.requestID = r := by
      intro r d hopen
      exact h.own r d ((h.opened r).symm.trans hopen)
    rw [DisputeManager.openDispute_onTimer hown, h.getElem?_begun, h.opened]
    rfl
  · intro r d hlatest
    obtain ⟨-, hlatest⟩ := Option.ite_none_left_eq_some.mp hlatest
    exact h.own r d hlatest

theorem Agrees.onNewSubmission (h : w.Agrees) (s : SubmittedOracleRequest) (o : Oracles) (chain : σ)
    (now : Int64) (result : Except Err Unit) :
    Agrees ⟨(w.manager.onNewSubmission db sha3 s o chain now result).1, w.begun ++
      DisputeManager.begunBy result (w.manager.onNewSubmission db sha3 s o chain now result).2,
      w.latest⟩ := by
  constructor
  · rw [List.map_append, h.timers]
    exact (DisputeManager.onNewSubmission_timers db sha3 s o chain now result).symm
  · intro r
    rw [DisputeManager.openDispute, DisputeManager.onNewSubmission_disputeCache]
    exact h.opened r
  · exact h.own

theorem Agrees.onNewDispute (h : w.Agrees) (d : NewDispute) (o : Oracles) (chain : σ) (now : Int64)
    (result : Except Err Unit) :
    Agrees ⟨(w.manager.onNewDispute db sha3 ethAddress d o chain now result).1, w.begun,
      Function.update w.latest d.requestID (some d)⟩ := by
  constructor
  · rw [DisputeManager.onNewDispute_timers]
    exact h.timers
  · intro r
    rw [DisputeManager.openDispute_onNewDispute, h.opened]
    exact (Function.update_apply w.latest d.requestID (some d) r).symm
  · show ∀ r d', Function.update w.latest d.requestID (some d) r = some d' → d'.requestID = r
    intro r d' hlatest
    rw [Function.update_apply] at hlatest
    split at hlatest
    · next hr =>
        obtain rfl := Option.some.inj hlatest
        exact hr.symm
    · exact h.own r d' hlatest

theorem agrees_step (h : w.Agrees) (e : DisputeEvent σ) :
    (w.step db sha3 ethAddress e).Agrees := by
  unfold step DisputeManager.handle
  cases w.manager.activity with
  | crashed => exact h
  | searching =>
      cases e with
      | submission s o chain now result => exact h
      | dispute d o chain now result => exact h
      | timer k result => exact h.onTimer k result
  | running =>
      cases e with
      | submission s o chain now result => exact h.onNewSubmission db sha3 s o chain now result
      | dispute d o chain now result => exact h.onNewDispute db sha3 ethAddress d o chain now result
      | timer k result => exact h.onTimer k result

theorem agrees_new : Watch.new.Agrees := ⟨rfl, fun _ => rfl, fun _ _ h => by cases h⟩

/-- Every dispute a timer finishes is the one it was started for. -/
def FinishesBegun (evm : Contracts.Evm) (w : Watch) (e : DisputeEvent σ) : Prop :=
  ∀ k result miner requestID dhash, e = .timer k result → w.begun[k]? = some (miner, requestID) →
    .finishDispute dhash ∈ (w.manager.handle db sha3 ethAddress e).2 →
    dhash = disputeDhash evm miner requestID

/-- When a timer fires, the `NewDispute` event taken last for its request, if that
    dispute is not finished, is the one of the dispute the timer was started for. -/
def LatestIsBegun (evm : Contracts.Evm) (w : Watch) (e : DisputeEvent σ) : Prop :=
  ∀ k result miner requestID d, e = .timer k result → w.manager.activity ≠ .crashed →
    w.begun[k]? = some (miner, requestID) → w.latest requestID = some d →
    d.dhash = disputeDhash evm miner requestID

/-- The calls of a timer of a live node. -/
theorem finishDispute_mem_handle {k : Nat} {result : Except Err Unit} {dhash : Bytes} :
    .finishDispute dhash ∈ (w.manager.handle db sha3 ethAddress (.timer k result)).2 ↔
      w.manager.activity ≠ .crashed ∧ .finishDispute dhash ∈ (w.manager.onTimer k result).2 := by
  unfold DisputeManager.handle
  cases w.manager.activity <;> simp

theorem finishesBegun_iff (h : w.Agrees) (evm : Contracts.Evm) (e : DisputeEvent σ) :
    w.FinishesBegun db sha3 ethAddress evm e ↔ w.LatestIsBegun evm e := by
  constructor
  · rintro hfinish k result miner requestID d rfl hlive hbegun hlatest
    refine hfinish k result miner requestID d.dhash rfl hbegun ?_
    rw [finishDispute_mem_handle, DisputeManager.finishDispute_mem_onTimer]
    refine ⟨hlive, requestID, d, ?_, ?_, rfl⟩
    · rw [h.getElem?_begun, hbegun]
      rfl
    · rw [h.opened, hlatest]
  · rintro hlast k result miner requestID dhash rfl hbegun hcall
    rw [finishDispute_mem_handle, DisputeManager.finishDispute_mem_onTimer] at hcall
    obtain ⟨hlive, r, d, htimer, hopen, rfl⟩ := hcall
    rw [h.getElem?_begun, hbegun] at htimer
    obtain rfl : requestID = r := Option.some.inj htimer
    rw [h.opened] at hopen
    exact hlast k result miner requestID d rfl hlive hbegun hopen

end Watch

/-- The timers of a manager finish the disputes they were started for, in every order
    of events, iff whenever one expires the `NewDispute` event that was taken last for its
    request, if that dispute is still open, is the one of the dispute it is for. -/
theorem timers_finish_begun_iff {σ : Type} (db : Database σ) (sha3 : Bytes → Bytes)
    (ethAddress : Address) (evm : Contracts.Evm) (evs : List (DisputeEvent σ)) :
    Run.StepsMeet (Watch.step db sha3 ethAddress) .new evs
        (Watch.FinishesBegun db sha3 ethAddress evm) ↔
      Run.StepsMeet (Watch.step db sha3 ethAddress) .new evs (Watch.LatestIsBegun evm) := by
  have hagrees : Run.Always (Watch.step db sha3 ethAddress) .new evs Watch.Agrees := fun pre _ =>
    Run.exec_invariant (I := Watch.Agrees)
      (fun _ e h => Watch.agrees_step db sha3 ethAddress h e) Watch.agrees_new pre
  exact Run.stepsMeet_congr hagrees fun _ e h =>
    Watch.finishesBegun_iff db sha3 ethAddress h evm e

/-- A dispute over request 1, as the contract reports it. -/
def disputeReported (miner initiator : Nat) : DisputeEvent Memory.Cache :=
  .dispute ⟨disputeDhash Contracts.sampleEvm (.ofNat miner) 1, 1, .ofNat miner, .ofNat initiator⟩
    taskOracles taskChain 0 (.ok ())

/-- The node with address 9 begins a dispute against the miner with address 1, the one
    with address 5 begins another one against the miner with address 2 over the same
    request, and the timer of the first node finishes the second dispute. -/
theorem timer_finishes_other_dispute :
    ¬ Run.StepsMeet (Watch.step Memory.database id (.ofNat 9)) .new
      [wrongSubmission, disputeReported 1 9, disputeReported 2 5, .timer 0 (.ok ())]
      (Watch.FinishesBegun Memory.database id (.ofNat 9) Contracts.sampleEvm) := by
  intro h
  have heq := h [wrongSubmission, disputeReported 1 9, disputeReported 2 5] (.timer 0 (.ok ()))
    (List.prefix_refl _) 0 (.ok ()) (.ofNat 1) 1
    (disputeDhash Contracts.sampleEvm (.ofNat 2) 1) rfl (by decide +kernel) (by decide +kernel)
  exact absurd heq (by decide +kernel)

end Dione.Consensus
