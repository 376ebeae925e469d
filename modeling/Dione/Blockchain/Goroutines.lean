/-
  Dione.Blockchain.Goroutines

  The transaction stage of `ValidateBlock` (`blockchain/blockchain.go`), step by step.

  Each transaction has a goroutine of its own.  It verifies the transaction, unmarshals its
  payload, tests the error and validates the payload; errors go over a channel without
  buffer to `ValidateBlock`, which returns the first, or nil once the goroutines are done
  and the channel is closed.  The goroutines run in any order, a step of one between any
  two of another.

  The error of `cbor.Unmarshal` is assigned to the `err` of `ValidateBlock`, which all of
  them share.  So the test after it may see what another goroutine has assigned: a payload
  that does not unmarshal is overlooked if one that does comes in between.

  All goroutines are started before anything is received, so starting one is not a step.
-/

import Dione.Blockchain.Integrity
import Dione.Lib.Lists
import Dione.Lib.Run

namespace Dione

open Guard

namespace BlockChain.TxStage

/-! ## The goroutines -/

/-- Where the goroutine of a transaction is. -/
inductive Phase where
  /-- Before `VerifyTx`. -/
  | verify
  /-- Before `err = cbor.Unmarshal(v.Data, &task)`. -/
  | unmarshal
  /-- Before the test of `err`, with what is in `task`. -/
  | test (task : DioneTask)
  /-- The test has found an error, and `err` is read again for the message. -/
  | report
  /-- Before the validation of the payload. -/
  | validate (task : DioneTask)
  /-- Blocked until the error is received. -/
  | sending (e : Err)
  /-- `wg.Done()` has been called. -/
  | finished
  deriving DecidableEq

/-- Go on with `next`, or send the error; a panic ends the node. -/
def settle (x : Except Err Unit) (next : Phase) : Except Err Phase :=
  match x with
  | .ok () => .ok next
  | .error e => if e.isPanic then .error e else .ok (.sending e)

section Steps

variable (o : Oracles) (header : BlockHeader) (leftover : Bytes → DioneTask)

/-- The validation of a payload; without a method for it there is none. -/
def validatePayload (task : DioneTask) : Except Err Unit :=
  match getValidationMethod o task.originChain task.requestType with
  | some validationFunc => wrapErr "payload validation has been failed" (validationFunc task)
  | none => pure ()

/-- The next step of the goroutine of `v`, which finds `err` in the shared variable: what it
    leaves there and where it goes on, or the panic.  `leftover` is what an `Unmarshal` that
    fails leaves in the task. -/
def advance (v : Option Transaction) (err : Option Err) : Phase → Except Err (Option Err × Phase)
  | .verify => do
    let phase ← settle (wrapErr "failed to verify tx" (verifyTx o header v)) .unmarshal
    return (err, phase)
  | .unmarshal => do
    let tx ← deref v
    match o.unmarshalTask tx.data with
    | .ok task => .ok (none, .test task)
    | .error e => if e.isPanic then .error e else .ok (some e, .test (leftover tx.data))
  | .test task => .ok (err, if err = none then .validate task else .report)
  | .report =>
    .ok (err, .sending (match err with
      | some e => .wrap "failed to unmarshal transaction payload" e
      -- `%w` of an error that has become nil in the meantime
      | none => .msg "failed to unmarshal transaction payload: %!w(<nil>)"))
  | .validate task => do
    let phase ← settle (validatePayload o task) .finished
    return (err, phase)
  | .sending e => .ok (err, .sending e)
  | .finished => .ok (err, .finished)

end Steps

/-- The transaction stage. -/
structure State where
  /-- The variable `err` of `ValidateBlock`. -/
  err : Option Err
  goroutines : List (Option Transaction × Phase)
  /-- The channel is closed. -/
  closed : Bool
  /-- What `ValidateBlock` has returned, or the panic that has ended the node. -/
  outcome : Option (Except Err Unit)

/-- Before the first step; `err` is nil after the checks of the header. -/
def start (vs : List (Option Transaction)) : State :=
  ⟨none, vs.map fun v => (v, .verify), false, none⟩

/-- Who takes the next step. -/
inductive Turn where
  | goroutine (i : Nat)
  /-- `ValidateBlock` receives what this goroutine sends. -/
  | receive (i : Nat)
  /-- `wg.Wait()` is over, and the channel is closed. -/
  | close
  /-- The loop over the channel ends. -/
  | endRange
  deriving DecidableEq

/-- One step; a turn that is not possible changes nothing.  What the goroutines do after
    `ValidateBlock` has returned is not followed. -/
def step (o : Oracles) (header : BlockHeader) (leftover : Bytes → DioneTask) (s : State)
    (turn : Turn) : State :=
  match s.outcome with
  | some _ => s
  | none =>
    match turn with
    | .goroutine i =>
      match s.goroutines[i]? with
      | none => s
      | some (v, phase) =>
        match advance o header leftover v s.err phase with
        | .error e => { s with outcome := some (.error e) }
        | .ok (err, phase') =>
          { s with err := err, goroutines := s.goroutines.set i (v, phase') }
    | .receive i =>
      match s.goroutines[i]? with
      | some (_, .sending e) => { s with outcome := some (.error e) }
      | _ => s
    | .close => if s.goroutines.all (fun g => g.2 = .finished) then { s with closed := true } else s
    | .endRange => if s.closed then { s with outcome := some (.ok ()) } else s

/-- The checks of `ValidateBlock` that come before the transactions. -/
def PassesHeaderChecks {σ : Type} (db : Database σ) (o : Oracles) (block : Block) (s : σ) : Prop :=
  validateBlock db o { block with data := [] } s = .ok ()

/-- `ValidateBlock`, for the turns that the goroutines and the loop take; `none` if it has
    not returned yet. -/
def validateBlockUnder {σ : Type} (db : Database σ) (o : Oracles) (leftover : Bytes → DioneTask)
    (block : Block) (s : σ) (turns : List Turn) : Option (Except Err Unit) :=
  match validateBlock db o { block with data := [] } s, block.header with
  | .ok (), some header => (Run.exec (step o header leftover) (start block.data) turns).outcome
  | .ok (), none => some (.error .nilDeref)
  | .error e, _ => some (.error e)

/-! ## What becomes of a transaction -/

section Classes

variable (o : Oracles) (header : BlockHeader) (leftover : Bytes → DioneTask)

/-- The payload unmarshals. -/
def Decodes (v : Option Transaction) : Prop :=
  ∃ tx task, v = some tx ∧ o.unmarshalTask tx.data = .ok task

/-- What is in `task` after `Unmarshal`; nothing if that panics. -/
def taskAfter (v : Option Transaction) : Option DioneTask :=
  v.bind fun tx =>
    match o.unmarshalTask tx.data with
    | .ok task => some task
    | .error e => if e.isPanic then none else some (leftover tx.data)

/-- The goroutine has nothing to send, as long as it does not see an error in `err`. -/
def Passes (v : Option Transaction) : Prop :=
  verifyTx o header v = .ok () ∧
    ∃ task, taskAfter o leftover v = some task ∧ validatePayload o task = .ok ()

end Classes

section Advance

variable {o : Oracles} {header : BlockHeader} {leftover : Bytes → DioneTask}
  {v : Option Transaction} {err err' : Option Err} {phase phase' : Phase} {task : DioneTask}

theorem validateTransaction_eq_ok_iff (leftover : Bytes → DioneTask) :
    validateTransaction o header v = .ok () ↔ Passes o header leftover v ∧ Decodes o v := by
  have hvalidate : validateTransaction o header v = (do
      wrapErr "failed to verify tx" (verifyTx o header v)
      let tx ← deref v
      let task ← wrapErr "failed to unmarshal transaction payload" (o.unmarshalTask tx.data)
      validatePayload o task) := rfl
  rw [hvalidate]
  simp only [bind_eq_ok, wrapErr_eq_ok, deref_eq_ok]
  constructor
  · rintro ⟨_, hverify, tx, rfl, task, htask, hpayload⟩
    exact ⟨⟨hverify, task, by simp [taskAfter, htask], hpayload⟩, tx, task, rfl, htask⟩
  · rintro ⟨⟨hverify, task, htask, hpayload⟩, tx, task', rfl, htask'⟩
    obtain rfl : task' = task := by simpa [taskAfter, htask'] using htask
    exact ⟨(), hverify, tx, rfl, task', htask', hpayload⟩

theorem settle_eq_ok {x : Except Err Unit} {next : Phase} : settle x next = .ok phase ↔
    (x = .ok () ∧ phase = next) ∨ ∃ e, x = .error e ∧ e.isPanic = false ∧ phase = .sending e := by
  cases x with
  | ok u =>
      rw [settle]
      constructor
      · intro h
        exact .inl ⟨rfl, (Except.ok.inj h).symm⟩
      · rintro (⟨-, rfl⟩ | ⟨e, he, -⟩)
        · rfl
        · cases he
  | error e =>
      rw [settle]
      constructor
      · intro h
        split at h
        · cases h
        · next hcalm =>
            exact .inr ⟨e, rfl, Bool.eq_false_iff.mpr hcalm, (Except.ok.inj h).symm⟩
      · rintro (⟨he, -⟩ | ⟨e', he, hcalm, rfl⟩)
        · cases he
        · obtain rfl := Except.error.inj he
          simp [hcalm]

/-- The unmarshalling step. -/
theorem advance_unmarshal (htask : taskAfter o leftover v = some task) (err : Option Err) :
    (Decodes o v ∧ advance o header leftover v err .unmarshal = .ok (none, .test task)) ∨
      (¬ Decodes o v ∧
        ∃ e, advance o header leftover v err .unmarshal = .ok (some e, .test task)) := by
  obtain ⟨tx, rfl, htx⟩ := Option.bind_eq_some_iff.mp htask
  rw [advance, deref_some, ok_bind]
  cases hdecode : o.unmarshalTask tx.data with
  | ok task' =>
      rw [hdecode] at htx
      obtain rfl := Option.some.inj htx
      exact .inl ⟨⟨tx, task', rfl, hdecode⟩, rfl⟩
  | error e =>
      rw [hdecode] at htx
      have hundecoded : ¬ Decodes o (some tx) := by
        rintro ⟨tx', task', heq, hok⟩
        obtain rfl := Option.some.inj heq
        rw [hdecode] at hok
        cases hok
      by_cases he : e.isPanic = true
      · simp [he] at htx
      · simp only [he] at htx
        obtain rfl := Option.some.inj htx
        exact .inr ⟨hundecoded, e, by simp [he]⟩

theorem exists_taskAfter (h : advance o header leftover v err .unmarshal = .ok (err', phase')) :
    ∃ task, taskAfter o leftover v = some task := by
  simp only [advance, bind_eq_ok, deref_eq_ok] at h
  obtain ⟨tx, rfl, h⟩ := h
  cases hdecode : o.unmarshalTask tx.data with
  | ok task => exact ⟨task, by simp [taskAfter, hdecode]⟩
  | error e =>
      rw [hdecode] at h
      by_cases he : e.isPanic = true
      · simp [he] at h
      · exact ⟨leftover tx.data, by simp [taskAfter, hdecode, he]⟩

/-- The steps of a goroutine that do not panic. -/
inductive Advances (o : Oracles) (header : BlockHeader) (leftover : Bytes → DioneTask)
    (v : Option Transaction) (err : Option Err) : Phase → Option Err → Phase → Prop where
  | verified (hverify : verifyTx o header v = .ok ()) :
      Advances o header leftover v err .verify err .unmarshal
  | unverified (e : Err) : Advances o header leftover v err .verify err (.sending e)
  | decoded {task : DioneTask} (htask : taskAfter o leftover v = some task)
      (hdecodes : Decodes o v) : Advances o header leftover v err .unmarshal none (.test task)
  | undecoded {task : DioneTask} (htask : taskAfter o leftover v = some task)
      (hnot : ¬ Decodes o v) (e : Err) :
      Advances o header leftover v err .unmarshal (some e) (.test task)
  | noError {task : DioneTask} (herr : err = none) :
      Advances o header leftover v err (.test task) err (.validate task)
  | sawError {task : DioneTask} (herr : err ≠ none) :
      Advances o header leftover v err (.test task) err .report
  | reported (e : Err) : Advances o header leftover v err .report err (.sending e)
  | validated {task : DioneTask} (hpayload : validatePayload o task = .ok ()) :
      Advances o header leftover v err (.validate task) err .finished
  | invalid {task : DioneTask} (e : Err) :
      Advances o header leftover v err (.validate task) err (.sending e)
  | blocked (e : Err) : Advances o header leftover v err (.sending e) err (.sending e)
  | finished : Advances o header leftover v err .finished err .finished

theorem advances_of_ok (h : advance o header leftover v err phase = .ok (err', phase')) :
    Advances o header leftover v err phase err' phase' := by
  cases phase with
  | verify =>
      simp only [advance, bind_eq_ok, pure_eq_ok_iff, settle_eq_ok, wrapErr_eq_ok] at h
      obtain ⟨_, ⟨hverify, rfl⟩ | ⟨e, -, -, rfl⟩, heq⟩ := h
      · obtain ⟨rfl, rfl⟩ := Prod.mk.inj heq
        exact .verified hverify
      · obtain ⟨rfl, rfl⟩ := Prod.mk.inj heq
        exact .unverified e
  | unmarshal =>
      obtain ⟨task, htask⟩ := exists_taskAfter h
      rcases advance_unmarshal htask err with ⟨hdecodes, h'⟩ | ⟨hnot, e, h'⟩
      · obtain ⟨rfl, rfl⟩ := Prod.mk.inj (Except.ok.inj (h'.symm.trans h))
        exact .decoded htask hdecodes
      · obtain ⟨rfl, rfl⟩ := Prod.mk.inj (Except.ok.inj (h'.symm.trans h))
        exact .undecoded htask hnot e
  | test task =>
      obtain ⟨rfl, rfl⟩ := Prod.mk.inj (Except.ok.inj h)
      split
      · next herr => exact .noError herr
      · next herr => exact .sawError herr
  | report =>
      obtain ⟨rfl, rfl⟩ := Prod.mk.inj (Except.ok.inj h)
      exact .reported _
  | validate task =>
      simp only [advance, bind_eq_ok, pure_eq_ok_iff, settle_eq_ok] at h
      obtain ⟨_, ⟨hpayload, rfl⟩ | ⟨e, -, -, rfl⟩, heq⟩ := h
      · obtain ⟨rfl, rfl⟩ := Prod.mk.inj heq
        exact .validated hpayload
      · obtain ⟨rfl, rfl⟩ := Prod.mk.inj heq
        exact .invalid e
  | sending e =>
      obtain ⟨rfl, rfl⟩ := Prod.mk.inj (Except.ok.inj h)
      exact .blocked e
  | finished =>
      obtain ⟨rfl, rfl⟩ := Prod.mk.inj (Except.ok.inj h)
      exact .finished

/-- What a goroutine has found out about its transaction by the time it is there. -/
def Reached (o : Oracles) (header : BlockHeader) (leftover : Bytes → DioneTask)
    (v : Option Transaction) : Phase → Prop
  | .verify | .report | .sending _ => True
  | .unmarshal => verifyTx o header v = .ok ()
  | .test task | .validate task =>
    verifyTx o header v = .ok () ∧ taskAfter o leftover v = some task
  | .finished => Passes o header leftover v

theorem Reached.advance (hreached : Reached o header leftover v phase)
    (h : Advances o header leftover v err phase err' phase') :
    Reached o header leftover v phase' := by
  cases h with
  | verified hverify => exact hverify
  | decoded htask hdecodes => exact ⟨hreached, htask⟩
  | undecoded htask hnot e => exact ⟨hreached, htask⟩
  | noError herr => exact hreached
  | validated hpayload => exact ⟨hreached.1, _, hreached.2, hpayload⟩
  | finished => exact hreached
  | unverified e | sawError herr | reported e | invalid e | blocked e => trivial

end Advance

/-! ## What a step does -/

/-- The steps, by what they change. -/
inductive Moves (o : Oracles) (header : BlockHeader) (leftover : Bytes → DioneTask) (s : State) :
    State → Prop where
  | idle : Moves o header leftover s s
  | advanced {i : Nat} {v : Option Transaction} {phase phase' : Phase} {err : Option Err}
      (hget : s.goroutines[i]? = some (v, phase))
      (hadvance : advance o header leftover v s.err phase = .ok (err, phase')) :
      Moves o header leftover s
        { s with err := err, goroutines := s.goroutines.set i (v, phase') }
  | panicked {v : Option Transaction} {phase : Phase} {e : Err} (hmem : (v, phase) ∈ s.goroutines)
      (hadvance : advance o header leftover v s.err phase = .error e) :
      Moves o header leftover s { s with outcome := some (.error e) }
  | received {v : Option Transaction} {e : Err} (hmem : (v, .sending e) ∈ s.goroutines) :
      Moves o header leftover s { s with outcome := some (.error e) }
  | closed (hfinished : ∀ g ∈ s.goroutines, g.2 = .finished) :
      Moves o header leftover s { s with closed := true }
  | returned (hclosed : s.closed = true) :
      Moves o header leftover s { s with outcome := some (.ok ()) }

section Runs

variable {o : Oracles} {header : BlockHeader} {leftover : Bytes → DioneTask}
  {vs : List (Option Transaction)} {s s' : State}

theorem moves_step (s : State) (turn : Turn) :
    Moves o header leftover s (step o header leftover s turn) := by
  unfold step
  split
  · exact .idle
  · split
    · split
      · exact .idle
      · next i v phase hget =>
          split
          · next e hadvance => exact .panicked (List.mem_of_getElem? hget) hadvance
          · next err phase' hadvance => exact .advanced hget hadvance
    · split
      · next i v e hget => exact .received (List.mem_of_getElem? hget)
      · exact .idle
    · split
      · next hall => exact .closed (by simpa using hall)
      · exact .idle
    · split
      · next hclosed => exact .returned hclosed
      · exact .idle

/-- What every step keeps holds when `ValidateBlock` returns. -/
theorem exec_moves {I : State → Prop} (hstart : I (start vs))
    (hstep : ∀ s s', I s → Moves o header leftover s s' → I s') (turns : List Turn) :
    I (Run.exec (step o header leftover) (start vs) turns) :=
  Run.exec_invariant (fun s turn h => hstep s _ h (moves_step s turn)) hstart turns

/-! ### A block that is accepted -/

/-- The goroutines are those of the transactions, each is where its transaction lets it be,
    and nil is returned only when all are finished. -/
structure Sound (o : Oracles) (header : BlockHeader) (leftover : Bytes → DioneTask)
    (vs : List (Option Transaction)) (s : State) : Prop where
  txs : s.goroutines.map Prod.fst = vs
  reached : ∀ g ∈ s.goroutines, Reached o header leftover g.1 g.2
  closed : s.closed = true → ∀ g ∈ s.goroutines, g.2 = .finished
  accepted : s.outcome = some (.ok ()) → s.closed = true

theorem sound_start (vs : List (Option Transaction)) : Sound o header leftover vs (start vs) := by
  refine ⟨?_, ?_, fun h => ?_, fun h => ?_⟩
  · simp [start, Function.comp_def]
  · simp [start, Reached]
  · cases h
  · cases h

theorem Sound.moves (h : Sound o header leftover vs s) (hmoves : Moves o header leftover s s') :
    Sound o header leftover vs s' := by
  cases hmoves with
  | idle => exact h
  | @advanced i v phase phase' err hget hadvance =>
      have hmem := List.mem_of_getElem? hget
      refine ⟨?_, ?_, ?_, h.accepted⟩
      · obtain ⟨hlt, hv⟩ := List.getElem?_eq_some_iff.mp hget
        have hlt' : i < (s.goroutines.map Prod.fst).length := by simpa using hlt
        have hsame : v = (s.goroutines.map Prod.fst)[i] := by simp [hv]
        rw [← h.txs, List.map_set]
        show (s.goroutines.map Prod.fst).set i v = _
        rw [hsame, List.set_getElem_self]
      · intro g hg
        rcases List.mem_or_eq_of_mem_set hg with hold | rfl
        · exact h.reached g hold
        · exact (h.reached _ hmem).advance (advances_of_ok hadvance)
      · intro hclosed g hg
        rcases List.mem_or_eq_of_mem_set hg with hold | rfl
        · exact h.closed hclosed g hold
        · obtain rfl : phase = .finished := h.closed hclosed _ hmem
          exact (congrArg Prod.snd (Except.ok.inj hadvance)).symm
  | panicked hmem hadvance => exact ⟨h.txs, h.reached, h.closed, fun h => by cases h⟩
  | received hmem => exact ⟨h.txs, h.reached, h.closed, fun h => by cases h⟩
  | closed hfinished => exact ⟨h.txs, h.reached, fun _ => hfinished, fun _ => rfl⟩
  | returned hclosed => exact ⟨h.txs, h.reached, h.closed, fun _ => hclosed⟩

theorem sound_exec (vs : List (Option Transaction)) (turns : List Turn) :
    Sound o header leftover vs (Run.exec (step o header leftover) (start vs) turns) :=
  exec_moves (sound_start vs) (fun _ _ h hmoves => h.moves hmoves) turns

/-- No goroutine of an accepted block has had anything to send. -/
theorem passes_of_accepted {turns : List Turn}
    (h : (Run.exec (step o header leftover) (start vs) turns).outcome = some (.ok ())) :
    ∀ v ∈ vs, Passes o header leftover v := by
  have hsound : Sound o header leftover vs _ := sound_exec vs turns
  intro v hv
  rw [← hsound.txs] at hv
  obtain ⟨g, hg, rfl⟩ := List.mem_map.mp hv
  have hreached := hsound.reached g hg
  rw [hsound.closed (hsound.accepted h) g hg] at hreached
  exact hreached

/-! ### Valid transactions -/

/-- Not on the way to send an error. -/
def Phase.Silent : Phase → Prop
  | .report | .sending _ => False
  | _ => True

/-- The step of a goroutine whose transaction is valid and that sees no error. -/
theorem exists_advance_silent {v : Option Transaction} {phase : Phase}
    (hvalid : validateTransaction o header v = .ok ())
    (hreached : Reached o header leftover v phase) (hsilent : phase.Silent) :
    ∃ phase', advance o header leftover v none phase = .ok (none, phase') ∧ phase'.Silent := by
  obtain ⟨⟨hverify, task, htask, hpayload⟩, hdecodes⟩ :=
    (validateTransaction_eq_ok_iff leftover).mp hvalid
  cases phase with
  | verify =>
      refine ⟨.unmarshal, ?_, trivial⟩
      rw [advance, hverify]
      rfl
  | unmarshal =>
      rcases advance_unmarshal htask none with ⟨-, hadvance⟩ | ⟨hnot, -⟩
      · exact ⟨.test task, hadvance, trivial⟩
      · exact absurd hdecodes hnot
  | test task' => exact ⟨.validate task', rfl, trivial⟩
  | report => cases hsilent
  | validate task' =>
      obtain rfl := Option.some.inj (htask.symm.trans hreached.2)
      refine ⟨.finished, ?_, trivial⟩
      rw [advance, hpayload]
      rfl
  | sending e => cases hsilent
  | finished => exact ⟨.finished, rfl, trivial⟩

/-- All transactions are valid, and nobody has seen an error. -/
structure Quiet (o : Oracles) (header : BlockHeader) (leftover : Bytes → DioneTask) (s : State) :
    Prop where
  err : s.err = none
  goroutines : ∀ g ∈ s.goroutines, validateTransaction o header g.1 = .ok () ∧
    Reached o header leftover g.1 g.2 ∧ g.2.Silent
  outcome : ∀ e, s.outcome ≠ some (.error e)

theorem Quiet.moves (h : Quiet o header leftover s) (hmoves : Moves o header leftover s s') :
    Quiet o header leftover s' := by
  cases hmoves with
  | idle => exact h
  | @advanced i v phase phase' err hget hadvance =>
      obtain ⟨hvalid, hreached, hsilent⟩ := h.goroutines _ (List.mem_of_getElem? hget)
      obtain ⟨_, hadvance', hsilent'⟩ := exists_advance_silent hvalid hreached hsilent
      have hreached' := hreached.advance (advances_of_ok hadvance)
      rw [h.err, hadvance'] at hadvance
      obtain ⟨rfl, rfl⟩ := Prod.mk.inj (Except.ok.inj hadvance)
      refine ⟨rfl, ?_, h.outcome⟩
      intro g hg
      rcases List.mem_or_eq_of_mem_set hg with hold | rfl
      · exact h.goroutines g hold
      · exact ⟨hvalid, hreached', hsilent'⟩
  | panicked hmem hadvance =>
      obtain ⟨hvalid, hreached, hsilent⟩ := h.goroutines _ hmem
      obtain ⟨_, hadvance', -⟩ := exists_advance_silent hvalid hreached hsilent
      rw [h.err, hadvance'] at hadvance
      cases hadvance
  | received hmem => exact (h.goroutines _ hmem).2.2.elim
  | closed hfinished => exact ⟨h.err, h.goroutines, h.outcome⟩
  | returned hclosed => exact ⟨h.err, h.goroutines, fun e he => by cases he⟩

/-- A block of valid transactions is not refused. -/
theorem not_refused_of_valid (hvalid : ∀ v ∈ vs, validateTransaction o header v = .ok ())
    (turns : List Turn) (e : Err) :
    (Run.exec (step o header leftover) (start vs) turns).outcome ≠ some (.error e) := by
  have hstart : Quiet o header leftover (start vs) := by
    refine ⟨rfl, ?_, fun e he => by cases he⟩
    intro g hg
    obtain ⟨v, hv, rfl⟩ := List.mem_map.mp hg
    exact ⟨hvalid v hv, trivial, trivial⟩
  exact (exec_moves hstart (fun _ _ h hmoves => h.moves hmoves) turns).outcome e

/-! ### Transactions of which none unmarshals -/

/-- The goroutine has not got past the test, and will not as long as `err` is set. -/
def Phase.Held (err : Option Err) : Phase → Prop
  | .validate _ | .finished => False
  | .test _ => err ≠ none
  | _ => True

theorem Phase.Held.mono {phase : Phase} {err err' : Option Err} (h : phase.Held err)
    (hset : err ≠ none → err' ≠ none) : phase.Held err' := by
  cases phase with
  | test task => exact hset h
  | validate task => exact h
  | finished => exact h
  | verify | unmarshal | report | sending e => trivial

theorem Phase.Held.advance {v : Option Transaction} {phase phase' : Phase} {err err' : Option Err}
    (h : phase.Held err) (hundecoded : ¬ Decodes o v)
    (hadvance : Advances o header leftover v err phase err' phase') :
    phase'.Held err' ∧ (err ≠ none → err' ≠ none) := by
  cases hadvance with
  | decoded htask hdecodes => exact absurd hdecodes hundecoded
  | undecoded htask hnot e => exact ⟨Option.some_ne_none e, fun _ => Option.some_ne_none e⟩
  | noError herr => exact absurd herr h
  | validated hpayload => exact h.elim
  | finished => exact h.elim
  | verified | unverified e | sawError herr | reported e | invalid e | blocked e =>
      exact ⟨trivial, id⟩

/-- No payload unmarshals, and no goroutine gets past its test. -/
def AllHeld (o : Oracles) (s : State) : Prop :=
  ∀ g ∈ s.goroutines, ¬ Decodes o g.1 ∧ g.2.Held s.err

theorem AllHeld.moves (h : AllHeld o s) (hmoves : Moves o header leftover s s') : AllHeld o s' := by
  cases hmoves with
  | idle => exact h
  | @advanced i v phase phase' err hget hadvance =>
      obtain ⟨hnot, hheld⟩ := h _ (List.mem_of_getElem? hget)
      obtain ⟨hheld', hset⟩ := hheld.advance hnot (advances_of_ok hadvance)
      intro g hg
      rcases List.mem_or_eq_of_mem_set hg with hold | rfl
      · exact ⟨(h g hold).1, (h g hold).2.mono hset⟩
      · exact ⟨hnot, hheld'⟩
  | panicked hmem hadvance => exact h
  | received hmem => exact h
  | closed hfinished => exact h
  | returned hclosed => exact h

/-- A block of such transactions is not accepted, if it has any. -/
theorem eq_nil_of_accepted (hnone : ∀ v ∈ vs, ¬ Decodes o v) {turns : List Turn}
    (h : (Run.exec (step o header leftover) (start vs) turns).outcome = some (.ok ())) :
    vs = [] := by
  have hstart : AllHeld o (start vs) := by
    intro g hg
    obtain ⟨v, hv, rfl⟩ := List.mem_map.mp hg
    exact ⟨hnone v hv, trivial⟩
  have hheld : AllHeld o (Run.exec (step o header leftover) (start vs) turns) :=
    exec_moves hstart (fun _ _ h hmoves => h.moves hmoves) turns
  have hsound : Sound o header leftover vs _ := sound_exec vs turns
  have hempty : (Run.exec (step o header leftover) (start vs) turns).goroutines = [] := by
    refine List.eq_nil_iff_forall_not_mem.mpr ?_
    intro g hg
    have hfinished := hsound.closed (hsound.accepted h) g hg
    have hheld' := (hheld g hg).2
    rw [hfinished] at hheld'
    exact hheld'
  rw [← hsound.txs, hempty]
  rfl

/-! ### One unmarshals and another does not -/

/-- The goroutines of all transactions, each in the phase given for it. -/
def together (vs : List (Option Transaction)) (err : Option Err)
    (phase : Option Transaction → Phase) : State :=
  ⟨err, vs.map fun v => (v, phase v), false, none⟩

theorem step_goroutine {done rest : List (Option Transaction × Phase)} {v : Option Transaction}
    {phase phase' : Phase} {err err' : Option Err}
    (hadvance : advance o header leftover v err phase = .ok (err', phase')) :
    step o header leftover ⟨err, done ++ (v, phase) :: rest, false, none⟩ (.goroutine done.length)
      = ⟨err', done ++ (v, phase') :: rest, false, none⟩ := by
  have hget : (done ++ (v, phase) :: rest)[done.length]? = some (v, phase) := by simp
  have hset : (done ++ (v, phase) :: rest).set done.length (v, phase')
      = done ++ (v, phase') :: rest := by
    rw [List.set_append_right _ _ (Nat.le_refl _), Nat.sub_self, List.set_cons_zero]
  simp only [step, hget, hadvance, hset]

/-- A round: the selected goroutines take one step each, in the order of the block.  `I`
    is kept of the shared variable, and `J` holds of it once one has taken its step. -/
theorem exists_round (before after : Option Transaction → Phase) (sel : Option Transaction → Prop)
    [DecidablePred sel] {I J : Option Err → Prop} (hJ : ∀ err, J err → I err)
    (hturn : ∀ v ∈ vs, sel v → ∀ err, I err →
      ∃ err', advance o header leftover v err (before v) = .ok (err', after v) ∧ J err')
    (err : Option Err) (herr : I err) :
    ∃ turns err', I err' ∧ ((J err ∨ ∃ v ∈ vs, sel v) → J err') ∧
      Run.exec (step o header leftover) (together vs err before) turns
        = together vs err' fun v => if sel v then after v else before v := by
  -- the goroutines before the next one have had their turn
  suffices h : ∀ done : List (Option Transaction × Phase), ∃ turns err', I err' ∧
      ((J err ∨ ∃ v ∈ vs, sel v) → J err') ∧
      Run.exec (step o header leftover)
          ⟨err, done ++ vs.map fun v => (v, before v), false, none⟩ turns
        = ⟨err', done ++ vs.map fun v => (v, if sel v then after v else before v), false, none⟩ from
    h []
  induction vs generalizing err with
  | nil =>
      intro done
      exact ⟨[], err, herr, by simp, rfl⟩
  | cons v vs ih =>
      intro done
      obtain ⟨hhead, htail⟩ := List.forall_mem_cons.mp hturn
      by_cases hsel : sel v
      · obtain ⟨err₁, hadvance, hJ₁⟩ := hhead hsel err herr
        obtain ⟨turns, err', hI, hJ', hrest⟩ := ih htail err₁ (hJ _ hJ₁) (done ++ [(v, after v)])
        refine ⟨.goroutine done.length :: turns, err', hI, fun _ => hJ' (.inl hJ₁), ?_⟩
        rw [List.append_assoc, List.append_assoc, List.singleton_append,
          List.singleton_append] at hrest
        rw [List.map_cons, List.map_cons, if_pos hsel, Run.exec_cons, step_goroutine hadvance]
        exact hrest
      · obtain ⟨turns, err', hI, hJ', hrest⟩ := ih htail err herr (done ++ [(v, before v)])
        refine ⟨turns, err', hI, ?_, ?_⟩
        · rintro (hold | ⟨w, hw, hselw⟩)
          · exact hJ' (.inl hold)
          · rcases List.mem_cons.mp hw with rfl | hw
            · exact absurd hselw hsel
            · exact hJ' (.inr ⟨w, hw, hselw⟩)
        · rw [List.append_assoc, List.append_assoc, List.singleton_append,
            List.singleton_append] at hrest
          rw [List.map_cons, List.map_cons, if_neg hsel]
          exact hrest

/-- A round of all goroutines, in which the shared variable stays nil. -/
theorem exists_round_all {before after : Option Transaction → Phase}
    (hturn : ∀ v ∈ vs, advance o header leftover v none (before v) = .ok (none, after v)) :
    ∃ turns, Run.exec (step o header leftover) (together vs none before) turns
      = together vs none after := by
  obtain ⟨turns, err', rfl, -, hrun⟩ := exists_round (I := (· = none)) (J := (· = none)) before
    after (fun _ => True) (fun _ h => h)
    (fun v hv _ err herr => ⟨none, by rw [herr, hturn v hv], rfl⟩) none rfl
  exact ⟨turns, by simpa using hrun⟩

open Classical in
/-- All unmarshal, those first whose payload does not: if there is another, it clears the
    error they leave. -/
theorem exists_unmarshalled {task : Option Transaction → DioneTask}
    (htask : ∀ v ∈ vs, taskAfter o leftover v = some (task v)) (hdecodes : ∃ v ∈ vs, Decodes o v) :
    ∃ turns, Run.exec (step o header leftover) (together vs none fun _ => .unmarshal) turns
      = together vs none fun v => .test (task v) := by
  have hfail : ∀ v ∈ vs, ¬ Decodes o v → ∀ err : Option Err, True →
      ∃ err', advance o header leftover v err .unmarshal = .ok (err', .test (task v)) ∧ True := by
    intro v hv hnot err _
    rcases advance_unmarshal (htask v hv) err with ⟨hdecodes, -⟩ | ⟨-, e, hadvance⟩
    · exact absurd hdecodes hnot
    · exact ⟨some e, hadvance, trivial⟩
  have hclear : ∀ v ∈ vs, Decodes o v → ∀ err : Option Err, True →
      ∃ err', advance o header leftover v err
        (if ¬ Decodes o v then .test (task v) else .unmarshal) = .ok (err', .test (task v)) ∧
          err' = none := by
    intro v hv hdecodes err _
    rw [if_neg (not_not.mpr hdecodes)]
    rcases advance_unmarshal (htask v hv) err with ⟨-, hadvance⟩ | ⟨hnot, -⟩
    · exact ⟨none, hadvance, rfl⟩
    · exact absurd hdecodes hnot
  obtain ⟨failing, err, -, -, hfailing⟩ := exists_round (fun _ => .unmarshal)
    (fun v => .test (task v)) (fun v => ¬ Decodes o v) (fun _ h => h) hfail none trivial
  obtain ⟨clearing, err', -, hnil, hclearing⟩ := exists_round
    (fun v => if ¬ Decodes o v then .test (task v) else .unmarshal) (fun v => .test (task v))
    (Decodes o) (fun _ _ => trivial) hclear err trivial
  obtain rfl : err' = none := hnil (.inr hdecodes)
  refine ⟨failing ++ clearing, ?_⟩
  rw [Run.exec_append, hfailing, hclearing]
  refine congrArg (together vs none) (funext fun v => ?_)
  by_cases h : Decodes o v
  · rw [if_pos h]
  · rw [if_neg h, if_pos h]

/-- If no transaction is sure to be caught and one of them unmarshals, the block can be
    accepted. -/
theorem exists_accepting (hpasses : ∀ v ∈ vs, Passes o header leftover v)
    (hdecodes : ∃ v ∈ vs, Decodes o v) :
    ∃ turns, (Run.exec (step o header leftover) (start vs) turns).outcome = some (.ok ()) := by
  let task : Option Transaction → DioneTask := fun v =>
    (taskAfter o leftover v).getD (leftover [])
  have htask : ∀ v ∈ vs, taskAfter o leftover v = some (task v) ∧
      validatePayload o (task v) = .ok () := by
    intro v hv
    obtain ⟨-, t, ht, hpayload⟩ := hpasses v hv
    have hget : task v = t := by simp [task, ht]
    rw [hget]
    exact ⟨ht, hpayload⟩
  have hverify : ∀ v ∈ vs, advance o header leftover v none .verify = .ok (none, .unmarshal) := by
    intro v hv
    rw [advance, (hpasses v hv).1]
    rfl
  have htest : ∀ v ∈ vs, advance o header leftover v none (.test (task v))
      = .ok (none, .validate (task v)) := fun v hv => rfl
  have hvalidate : ∀ v ∈ vs, advance o header leftover v none (.validate (task v))
      = .ok (none, .finished) := by
    intro v hv
    rw [advance, (htask v hv).2]
    rfl
  obtain ⟨verifying, hverifying⟩ := exists_round_all hverify
  obtain ⟨unmarshalling, hunmarshalling⟩ :
      ∃ turns, Run.exec (step o header leftover) (together vs none fun _ => .unmarshal) turns = _ :=
    exists_unmarshalled (fun v hv => (htask v hv).1) hdecodes
  obtain ⟨testing, htesting⟩ := exists_round_all htest
  obtain ⟨validating, hvalidating⟩ := exists_round_all hvalidate
  refine ⟨verifying ++ (unmarshalling ++ (testing ++ (validating ++ [.close, .endRange]))), ?_⟩
  have hstart : start vs = together vs none fun _ => .verify := rfl
  have hall : (vs.map fun v => (v, Phase.finished)).all (fun g => g.2 = .finished) = true := by
    simp
  rw [hstart, Run.exec_append, hverifying, Run.exec_append, hunmarshalling, Run.exec_append,
    htesting, Run.exec_append, hvalidating]
  simp only [Run.exec_cons, Run.exec_nil, step, together, hall]
  rfl

/-! ### Every schedule comes to an end -/

/-- How many steps a goroutine has left at most. -/
def Phase.left : Phase → Nat
  | .verify => 5
  | .unmarshal => 4
  | .test _ => 3
  | .report | .validate _ => 2
  | .sending _ => 1
  | .finished => 0

/-- How many steps are left at most. -/
def State.left (s : State) : Nat :=
  match s.outcome with
  | some _ => 0
  | none => (s.goroutines.map fun g => g.2.left).sum + (if s.closed then 0 else 1) + 1

/-- A goroutine that is neither blocked nor finished gets on. -/
theorem left_advance_lt {v : Option Transaction} {phase phase' : Phase} {err err' : Option Err}
    (hadvance : Advances o header leftover v err phase err' phase')
    (hsending : ∀ e, phase ≠ .sending e) (hfinished : phase ≠ .finished) :
    phase'.left < phase.left := by
  cases hadvance with
  | blocked e => exact absurd rfl (hsending e)
  | finished => exact absurd rfl hfinished
  | verified | unverified e | decoded | undecoded | noError | sawError | reported e | validated
    | invalid e => simp [Phase.left]

theorem left_pos (h : s.outcome = none) : 0 < s.left := by
  rw [State.left, h]
  exact Nat.succ_pos _

theorem left_set_lt (h : s.outcome = none) {i : Nat} {v : Option Transaction} {phase phase' : Phase}
    (hget : s.goroutines[i]? = some (v, phase)) (hlt : phase'.left < phase.left)
    (err : Option Err) :
    State.left { s with err := err, goroutines := s.goroutines.set i (v, phase') } < s.left := by
  have hsum := Lists.sum_map_set_lt (f := fun g : Option Transaction × Phase => g.2.left)
    (x := (v, phase')) hget hlt
  simp only [State.left, h]
  omega

/-- As long as `ValidateBlock` has not returned, somebody can take a step. -/
theorem exists_progress (h : s.outcome = none) :
    ∃ turn, (step o header leftover s turn).left < s.left := by
  by_cases hactive : ∃ (i : Nat) (v : Option Transaction) (phase : Phase),
      s.goroutines[i]? = some (v, phase) ∧ (∀ e, phase ≠ .sending e) ∧ phase ≠ .finished
  · obtain ⟨i, v, phase, hget, hsending, hfinished⟩ := hactive
    refine ⟨.goroutine i, ?_⟩
    simp only [step, h, hget]
    split
    · exact left_pos h
    · next err phase' hadvance =>
        have hlt := left_set_lt h hget
          (left_advance_lt (advances_of_ok hadvance) hsending hfinished) err
        rw [h] at hlt
        exact hlt
  · push Not at hactive
    by_cases hblocked : ∃ (i : Nat) (v : Option Transaction) (e : Err),
        s.goroutines[i]? = some (v, .sending e)
    · obtain ⟨i, v, e, hget⟩ := hblocked
      refine ⟨.receive i, ?_⟩
      simp only [step, h, hget]
      exact left_pos h
    · -- all are finished
      push Not at hblocked
      have hall : s.goroutines.all (fun g => g.2 = .finished) = true := by
        rw [List.all_eq_true]
        intro g hg
        obtain ⟨i, hget⟩ := List.mem_iff_getElem?.mp hg
        exact decide_eq_true (hactive i g.1 g.2 hget fun e he => hblocked i g.1 e (by
          rw [hget, ← he]))
      cases hclosed : s.closed with
      | false =>
          refine ⟨.close, ?_⟩
          simp [step, h, hall, State.left, hclosed]
      | true =>
          refine ⟨.endRange, ?_⟩
          simp [step, h, State.left, hclosed]

/-- So every schedule can be continued until it returns. -/
theorem exists_outcome (s : State) :
    ∃ turns outcome, (Run.exec (step o header leftover) s turns).outcome = some outcome := by
  induction hleft : s.left using Nat.strong_induction_on generalizing s with
  | _ n ih =>
      cases h : s.outcome with
      | some outcome => exact ⟨[], outcome, h⟩
      | none =>
          obtain ⟨turn, hlt⟩ := exists_progress (o := o) (s := s) h
          obtain ⟨turns, outcome, hrun⟩ := ih _ (hleft ▸ hlt) _ rfl
          exact ⟨turn :: turns, outcome, hrun⟩

theorem eq_or_left_lt_of_moves (h : s.outcome = none) (hmoves : Moves o header leftover s s') :
    s' = s ∨ s'.left < s.left := by
  cases hmoves with
  | idle => exact .inl rfl
  | @advanced i v phase phase' err hget hadvance =>
      by_cases hidle : (∃ e, phase = .sending e) ∨ phase = .finished
      · have hsame : advance o header leftover v s.err phase = .ok (s.err, phase) := by
          rcases hidle with ⟨e, rfl⟩ | rfl
          · rfl
          · rfl
        obtain ⟨rfl, rfl⟩ := Prod.mk.inj (Except.ok.inj (hsame.symm.trans hadvance))
        obtain ⟨hlt, hv⟩ := List.getElem?_eq_some_iff.mp hget
        rw [← hv, List.set_getElem_self]
        exact .inl rfl
      · rw [not_or, not_exists] at hidle
        exact .inr (left_set_lt h hget
          (left_advance_lt (advances_of_ok hadvance) hidle.1 hidle.2) err)
  | panicked hmem hadvance => exact .inr (left_pos h)
  | received hmem => exact .inr (left_pos h)
  | closed hfinished =>
      cases hclosed : s.closed with
      | true =>
          rw [← hclosed]
          exact .inl rfl
      | false =>
          refine .inr ?_
          simp [State.left, h, hclosed]
  | returned hclosed => exact .inr (left_pos h)

theorem length_le_left {turns : List Turn} (hturns : Run.StepsMeet (step o header leftover) s turns
    fun s turn => step o header leftover s turn ≠ s) : turns.length ≤ s.left := by
  induction turns generalizing s with
  | nil => exact Nat.zero_le _
  | cons turn turns ih =>
      obtain ⟨hturn, hrest⟩ := Run.stepsMeet_cons.mp hturns
      have hnone : s.outcome = none := by
        cases h : s.outcome with
        | none => rfl
        | some outcome => exact absurd (by simp only [step, h]) hturn
      have hlt := (eq_or_left_lt_of_moves hnone (moves_step s turn)).resolve_left hturn
      have hlength := ih hrest
      rw [List.length_cons]
      omega

theorem left_start (vs : List (Option Transaction)) : (start vs).left = 5 * vs.length + 2 := by
  simp [State.left, start, Function.comp_def, Phase.left, Nat.mul_comm]

/-- Every schedule has only so many turns that do something: five for each transaction, one
    to close the channel and one to return. -/
theorem length_turns_le {turns : List Turn}
    (hturns : Run.StepsMeet (step o header leftover) (start vs) turns
      fun s turn => step o header leftover s turn ≠ s) : turns.length ≤ 5 * vs.length + 2 := by
  rw [← left_start vs]
  exact length_le_left hturns

/-! ### The stage as one check after the other -/

section Alone

variable {done rest : List (Option Transaction × Phase)} {v : Option Transaction} {phase : Phase}
  {err : Option Err} {e : Err}

theorem exists_refused_sending :
    ∃ turns, (Run.exec (step o header leftover)
      ⟨err, done ++ (v, .sending e) :: rest, false, none⟩ turns).outcome = some (.error e) := by
  refine ⟨[.receive done.length], ?_⟩
  have hget : (done ++ (v, Phase.sending e) :: rest)[done.length]? = some (v, .sending e) := by simp
  simp only [Run.exec_cons, Run.exec_nil, step, hget]

theorem exists_refused_panic (hadvance : advance o header leftover v err phase = .error e) :
    ∃ turns, (Run.exec (step o header leftover)
      ⟨err, done ++ (v, phase) :: rest, false, none⟩ turns).outcome = some (.error e) := by
  refine ⟨[.goroutine done.length], ?_⟩
  have hget : (done ++ (v, phase) :: rest)[done.length]? = some (v, phase) := by simp
  simp only [Run.exec_cons, Run.exec_nil, step, hget, hadvance]

theorem exists_refused_advance (err' : Option Err) (phase' : Phase)
    (hadvance : advance o header leftover v err phase = .ok (err', phase'))
    (h : ∃ turns, (Run.exec (step o header leftover)
      ⟨err', done ++ (v, phase') :: rest, false, none⟩ turns).outcome = some (.error e)) :
    ∃ turns, (Run.exec (step o header leftover)
      ⟨err, done ++ (v, phase) :: rest, false, none⟩ turns).outcome = some (.error e) := by
  obtain ⟨turns, hrun⟩ := h
  refine ⟨.goroutine done.length :: turns, ?_⟩
  rw [Run.exec_cons, step_goroutine hadvance]
  exact hrun

/-- A step that fails with `e`: the error is sent, or it is a panic. -/
theorem exists_refused_settle (next : Phase)
    (hadvance : advance o header leftover v err phase = (do
      let phase ← settle (.error e) next
      return (err, phase))) :
    ∃ turns, (Run.exec (step o header leftover)
      ⟨err, done ++ (v, phase) :: rest, false, none⟩ turns).outcome = some (.error e) := by
  by_cases he : e.isPanic = true
  · refine exists_refused_panic ?_
    rw [hadvance, settle, if_pos he]
    rfl
  · refine exists_refused_advance err (.sending e) ?_ exists_refused_sending
    rw [hadvance, settle, if_neg he]
    rfl

/-- A goroutine that runs alone ends as the check of its transaction does. -/
theorem exists_refused_alone (h : validateTransaction o header v = .error e) :
    ∃ turns, (Run.exec (step o header leftover)
      ⟨none, done ++ (v, .verify) :: rest, false, none⟩ turns).outcome = some (.error e) := by
  rcases bind_eq_error.mp h with hverify | ⟨_, hverify, h⟩
  · refine exists_refused_settle .unmarshal ?_
    rw [advance, hverify]
  refine exists_refused_advance none .unmarshal ?_ ?_
  · rw [advance, hverify]
    rfl
  cases v with
  | none => cases wrapErr_eq_ok.mp hverify
  | some tx =>
      rw [deref_some, ok_bind] at h
      cases hdecode : o.unmarshalTask tx.data with
      | error e' =>
          rw [hdecode] at h
          by_cases he : e'.isPanic = true
          · have hsame : e' = e := by simpa [wrapErr, Except.mapError, he, error_bind] using h
            refine exists_refused_panic ?_
            rw [advance, deref_some, ok_bind, hdecode, ← hsame]
            exact if_pos he
          · have hsame : Err.wrap "failed to unmarshal transaction payload" e' = e := by
              simpa [wrapErr, Except.mapError, he, error_bind] using h
            refine exists_refused_advance (some e') (.test (leftover tx.data)) ?_ ?_
            · rw [advance, deref_some, ok_bind, hdecode]
              exact if_neg he
            refine exists_refused_advance (some e') .report rfl ?_
            refine exists_refused_advance (some e') (.sending e) ?_ exists_refused_sending
            rw [← hsame]
            rfl
      | ok task =>
          rw [hdecode] at h
          have hpayload : validatePayload o task = .error e := h
          refine exists_refused_advance none (.test task) ?_ ?_
          · rw [advance, deref_some, ok_bind, hdecode]
          refine exists_refused_advance none (.validate task) rfl ?_
          refine exists_refused_settle .finished ?_
          rw [advance, hpayload]

end Alone

theorem exists_mem_of_validateTransactions_error {e : Err}
    (h : validateTransactions o header vs = .error e) :
    ∃ v ∈ vs, validateTransaction o header v = .error e := by
  induction vs generalizing e with
  | nil => cases h
  | cons v vs ih =>
      rw [validateTransactions] at h
      split at h
      · obtain ⟨w, hw, he⟩ := ih h
        exact ⟨w, List.mem_cons_of_mem _ hw, he⟩
      · next e' hv _ =>
          obtain rfl := Except.error.inj h
          exact ⟨v, List.mem_cons_self .., hv⟩
      · next e₁ e₂ hv hvs =>
          split at h
          · obtain rfl := Except.error.inj h
            obtain ⟨w, hw, he⟩ := ih hvs
            exact ⟨w, List.mem_cons_of_mem _ hw, he⟩
          · obtain rfl := Except.error.inj h
            exact ⟨v, List.mem_cons_self .., hv⟩

/-- What `validateTransactions` says is what some schedule returns. -/
theorem exists_validateTransactions (leftover : Bytes → DioneTask) (o : Oracles)
    (header : BlockHeader) (vs : List (Option Transaction)) :
    ∃ turns, (Run.exec (step o header leftover) (start vs) turns).outcome
      = some (validateTransactions o header vs) := by
  cases h : validateTransactions o header vs with
  | ok _ =>
      obtain ⟨turns, outcome, hrun⟩ : ∃ turns outcome,
          (Run.exec (step o header leftover) (start vs) turns).outcome = some outcome :=
        exists_outcome (start vs)
      refine ⟨turns, ?_⟩
      cases outcome with
      | ok _ => exact hrun
      | error e =>
          exact absurd hrun (not_refused_of_valid (validateTransactions_eq_ok.mp h) turns e)
  | error e =>
      obtain ⟨v, hv, he⟩ := exists_mem_of_validateTransactions_error h
      obtain ⟨done, rest, rfl⟩ := List.append_of_mem hv
      obtain ⟨turns, hrun⟩ := exists_refused_alone he
      refine ⟨turns, ?_⟩
      rw [start, List.map_append, List.map_cons]
      exact hrun

/-! ## `ValidateBlock` -/

theorem accepts_only_valid_iff (o : Oracles) (header : BlockHeader) (leftover : Bytes → DioneTask)
    (vs : List (Option Transaction)) :
    (∀ turns outcome,
      (Run.exec (step o header leftover) (start vs) turns).outcome = some outcome →
        (outcome = .ok () ↔ ∀ v ∈ vs, validateTransaction o header v = .ok ())) ↔
      (∀ v ∈ vs, Decodes o v) ∨ (∀ v ∈ vs, ¬ Decodes o v) ∨
        ∃ v ∈ vs, ¬ Passes o header leftover v := by
  constructor
  · intro hjudges
    by_contra hcond
    push Not at hcond
    obtain ⟨⟨v, hv, hnot⟩, hdecodes, hpasses⟩ := hcond
    obtain ⟨turns, hrun⟩ := exists_accepting hpasses hdecodes
    have hvalid := (hjudges turns _ hrun).mp rfl v hv
    exact hnot ((validateTransaction_eq_ok_iff leftover).mp hvalid).2
  · intro hcond turns outcome hrun
    constructor
    · rintro rfl
      have hpasses := passes_of_accepted hrun
      rcases hcond with hall | hnone | ⟨v, hv, hnot⟩
      · intro v hv
        exact (validateTransaction_eq_ok_iff leftover).mpr ⟨hpasses v hv, hall v hv⟩
      · rw [eq_nil_of_accepted hnone hrun]
        simp
      · exact absurd (hpasses v hv) hnot
    · intro hvalid
      cases outcome with
      | ok _ => rfl
      | error e => exact absurd hrun (not_refused_of_valid hvalid turns e)

end Runs

/-- Of a block that passes the checks of its header, whatever order the goroutines run in:
    `ValidateBlock` can always go on until it returns, and it returns nil only and always if
    all transactions are valid, iff their payloads all unmarshal, or none does, or some
    transaction is caught by a check that does not read the shared variable. -/
theorem validateBlock_judges_txs_iff {σ : Type} {db : Database σ} {o : Oracles} {block : Block}
    {s : σ} {header : BlockHeader} (leftover : Bytes → DioneTask)
    (hheader : block.header = some header) (hchecks : PassesHeaderChecks db o block s) :
    ((∀ turns outcome, validateBlockUnder db o leftover block s turns = some outcome →
        (outcome = .ok () ↔ ∀ v ∈ block.data, validateTransaction o header v = .ok ())) ↔
      (∀ v ∈ block.data, Decodes o v) ∨ (∀ v ∈ block.data, ¬ Decodes o v) ∨
        ∃ v ∈ block.data, ¬ Passes o header leftover v) ∧
    ∀ turns, ∃ more outcome,
      validateBlockUnder db o leftover block s (turns ++ more) = some outcome := by
  have hunder : ∀ turns, validateBlockUnder db o leftover block s turns
      = (Run.exec (step o header leftover) (start block.data) turns).outcome := by
    intro turns
    rw [validateBlockUnder, hchecks, hheader]
  simp only [hunder]
  refine ⟨accepts_only_valid_iff o header leftover block.data, ?_⟩
  intro turns
  obtain ⟨more, outcome, hrun⟩ : ∃ more outcome, (Run.exec (step o header leftover)
      (Run.exec (step o header leftover) (start block.data) turns) more).outcome = some outcome :=
    exists_outcome _
  refine ⟨more, outcome, ?_⟩
  rw [Run.exec_append]
  exact hrun

/-- Payloads that start with 1 are tasks, others are not. -/
def tagged : Oracles :=
  { Oracles.permissive with
    unmarshalTask := fun data =>
      if data.head? = some 1 then .ok ⟨0, [], [], data, []⟩ else .error (.msg "no task") }

/-- A transaction with these data, complete but for what the Merkle library is asked. -/
def taggedTx (data : Bytes) : Transaction :=
  ⟨Text.textBytes (Text.hexEncode data), ⟨some [], 0⟩, 0, data⟩

/-- A block with a payload that does not unmarshal and one that does. -/
def mixedBlock : Block := ⟨some (childHeader [1] 1), [some (taggedTx [2]), some (taggedTx [1])]⟩

/-- What a failed `Unmarshal` leaves: the empty task. -/
def emptyTask : Bytes → DioneTask := fun _ => ⟨0, [], [], [], []⟩

/-- A block with two payloads that unmarshal. -/
def decodableBlock : Block :=
  ⟨some (childHeader [1] 1), [some (taggedTx [1, 0]), some (taggedTx [1])]⟩

theorem validateBlock_judges_txs_decodable :
    PassesHeaderChecks Memory.backend.db tagged decodableBlock (genesisChain Memory.backend) ∧
      ∀ turns outcome, validateBlockUnder Memory.backend.db tagged emptyTask decodableBlock
          (genesisChain Memory.backend) turns = some outcome →
        (outcome = .ok () ↔ ∀ v ∈ decodableBlock.data,
          validateTransaction tagged (childHeader [1] 1) v = .ok ()) := by
  have hchecks : PassesHeaderChecks Memory.backend.db tagged decodableBlock
      (genesisChain Memory.backend) := by
    unfold PassesHeaderChecks
    decide +kernel
  have hdecodes : ∀ v ∈ decodableBlock.data, Decodes tagged v := by
    simp only [decodableBlock, List.forall_mem_cons]
    exact ⟨⟨_, _, rfl, rfl⟩, ⟨_, _, rfl, rfl⟩, List.forall_mem_nil _⟩
  exact ⟨hchecks, (validateBlock_judges_txs_iff emptyTask rfl hchecks).1.mpr (.inl hdecodes)⟩

/-- The first goroutine unmarshals, then the second, and then they test. -/
def overlooking : List Turn :=
  [.goroutine 0, .goroutine 1, .goroutine 0, .goroutine 1, .goroutine 0, .goroutine 1,
    .goroutine 0, .goroutine 1, .close, .endRange]

/-- In this order the block is accepted, although its first transaction is not valid. -/
theorem validateBlock_overlooks_undecodable :
    PassesHeaderChecks Memory.backend.db tagged mixedBlock (genesisChain Memory.backend) ∧
      validateBlockUnder Memory.backend.db tagged emptyTask mixedBlock
        (genesisChain Memory.backend) overlooking = some (.ok ()) ∧
      validateTransaction tagged (childHeader [1] 1) (some (taggedTx [2])) ≠ .ok () := by
  refine ⟨?_, ?_, ?_⟩
  · unfold PassesHeaderChecks
    decide +kernel
  · decide +kernel
  · decide +kernel

end BlockChain.TxStage

end Dione
