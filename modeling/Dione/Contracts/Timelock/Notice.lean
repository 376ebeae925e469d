/-
  Dione.Contracts.Timelock.Notice

  The notice that the time lock gives: what it executes was announced, with the
  delay of that time, by whoever was administrator then, and is executed once for
  each announcement.  The time lock's own delay and administrator change under the
  same rule.

  All of it is read off the history.  `replay` gives the storage a history leaves,
  `Explained` says that a session's storage is that of its history, and each fact
  about the storage is then a fact about the last entry of some kind.
-/

import Dione.Contracts.Timelock

namespace Dione.Contracts.Timelock

open Dione.Lists

/-! ## The storage, explained by the history -/

/-- The storage that the calls of a history leave. -/
def replay (evm : Evm) (l : Timelock) (history : List Entry) : Timelock :=
  history.foldl (fun l e => e.call.effect evm e.msg l) l

/-- `tx` is announced: the last call about it is `q`, which queued it. -/
structure Announced (history : List Entry) (tx : Transaction) (q : Entry) : Prop where
  latest : Latest (fun e => e.call.transaction? = some tx) history q
  queued : q.call = .queueTransaction tx
  byAdmin : q.msg.sender = q.before.admin
  inAdvance : q.msg.timestamp.toNat + q.before.delay.toNat ≤ tx.eta.toNat
  aDay : minimumDelay ≤ q.before.delay

/-- Keccak tells these inputs apart. -/
def CollisionFree (evm : Evm) (inputs : List Bytes) : Prop :=
  ∀ a ∈ inputs, ∀ b ∈ inputs, evm.keccak256 a = evm.keccak256 b → a = b

/-- What the calls of a history hash. -/
def hashed (history : List Entry) : List Bytes :=
  history.filterMap fun e => e.call.transaction?.map fun tx => Abi.encode tx.args

section Histories

variable {ω μ : Type} (E : Surroundings ω μ) (l : Timelock)

/-- Who made a call: somebody else, or a call that was executed before. -/
inductive Entry.Origin (earlier : List Entry) (e : Entry) : Prop where
  | other (hself : e.msg.sender ≠ E.self) (hzero : e.msg.sender ≠ .zero)
  | itself (before : List Entry) (x : Entry) (later : List Entry) (tx : Transaction)
      (hsplit : earlier = before ++ x :: later) (hcall : x.call = .executeTransaction tx)
      (htarget : tx.target = E.self) (hdispatch : E.dispatch (tx.callData E.evm) = some e.call)
      (hmsg : e.msg = { x.msg with sender := E.self })

/-- A call as the contract allows it after the `earlier` ones. -/
structure Entry.Lawful (earlier : List Entry) (e : Entry) : Prop where
  before_eq : e.before = replay E.evm l earlier
  permitted : e.call.Permitted E.self E.evm e.msg e.before
  origin : e.Origin E earlier

/-- The history accounts for the storage, the open executions and the events. -/
structure Session.Explained (s : Session ω) : Prop where
  lock_eq : s.lock = replay E.evm l s.history
  lawful : Justified (Entry.Lawful E l) s.history
  opened : ∀ p ∈ s.opened, ∃ before x later, s.history = before ++ x :: later ∧
    x.msg = p.1 ∧ x.call = .executeTransaction p.2
  executed : ∀ tx : Transaction,
    s.events.count (.executeTransaction (tx.txHash E.evm) tx) + s.opened.countP (·.2 = tx) =
      s.history.countP (·.call = .executeTransaction tx)

variable {E l} {s s' : Session ω} {history : List Entry}

theorem replay_concat (evm : Evm) (e : Entry) :
    replay evm l (history ++ [e]) = e.call.effect evm e.msg (replay evm l history) := by
  simp only [replay, List.foldl_append, List.foldl_cons, List.foldl_nil]

theorem Session.explained_start (w : ω) : (start l w).Explained E l where
  lock_eq := rfl
  lawful := justified_nil
  opened := by simp [start, Session.opened]
  executed := by simp [start, Session.opened]

/-- No call emits the event of an execution; that comes at its end. -/
theorem count_emits (evm : Evm) (msg : Msg) (c : Call) (tx : Transaction) :
    (c.emits evm msg).count (.executeTransaction (tx.txHash evm) tx) = 0 := by
  cases c <;> simp [Call.emits]

theorem countP_opens (msg : Msg) (c : Call) (tx : Transaction) :
    (c.opens msg).countP (·.2 = tx) = if c = .executeTransaction tx then 1 else 0 := by
  cases c <;> simp [Call.opens, List.countP_cons]

theorem Session.Explained.move (h : s.Explained E l) (hmove : s.Move E s') :
    s'.Explained E l := by
  cases hmove with
  | elsewhere hlock hopened hevents hhistory =>
      constructor
      · rw [hlock, hhistory]
        exact h.lock_eq
      · rw [hhistory]
        exact h.lawful
      · rw [hopened, hhistory]
        exact h.opened
      · rw [hopened, hevents, hhistory]
        exact h.executed
  | performed msg c horigin hpermitted hlock hopened hevents hhistory =>
      constructor
      · rw [hlock, hhistory, replay_concat, ← h.lock_eq]
      · rw [hhistory]
        apply justified_concat h.lawful
        refine ⟨h.lock_eq, hpermitted, ?_⟩
        cases horigin with
        | other hself hzero => exact .other hself hzero
        | itself hopen htarget hdispatch =>
            obtain ⟨before, x, later, hsplit, hmsg, hcall⟩ := h.opened _ hopen
            exact .itself before x later _ hsplit hcall htarget hdispatch (by rw [hmsg])
      · intro p hp
        rw [hopened] at hp
        rw [hhistory]
        rcases List.mem_append.mp hp with hnew | hold
        · -- the call is an execution, and the last entry is it
          cases c with
          | executeTransaction tx =>
              obtain rfl : p = (msg, tx) := List.mem_singleton.mp hnew
              exact ⟨s.history, _, [], rfl, rfl, rfl⟩
          | _ => cases hnew
        · obtain ⟨before, x, later, hsplit, hx⟩ := h.opened p hold
          refine ⟨before, x, later ++ [⟨msg, c, s.lock⟩], ?_, hx⟩
          rw [hsplit, List.append_assoc, List.cons_append]
      · intro tx
        have hexecuted := h.executed tx
        rw [hevents, hopened, hhistory, List.count_append, List.countP_append,
          List.countP_append, count_emits, countP_opens, List.countP_singleton]
        simp only [decide_eq_true_eq]
        omega
  | returned msg tx hlock hopened hevents hhistory =>
      constructor
      · rw [hlock, hhistory]
        exact h.lock_eq
      · rw [hhistory]
        exact h.lawful
      · intro p hp
        rw [hhistory]
        apply h.opened p
        rw [hopened]
        exact List.mem_cons_of_mem _ hp
      · intro tx'
        have hexecuted := h.executed tx'
        -- the execution moves from the open ones to the events
        have hevent : [Event.executeTransaction (tx.txHash E.evm) tx].count
            (.executeTransaction (tx'.txHash E.evm) tx') = if tx = tx' then 1 else 0 := by
          by_cases htx : tx = tx'
          · simp [htx]
          · simp [htx]
        rw [hopened, List.countP_cons] at hexecuted
        simp only [decide_eq_true_eq] at hexecuted
        rw [hevents, hhistory, List.count_append, hevent]
        omega

theorem Session.explained_after (w : ω) (acts : List (Action E)) :
    (Session.after E l w acts).Explained E l := by
  apply Run.exec_invariant
  · intro s a h
    exact h.move (s.move_step a)
  · exact explained_start w

end Histories

/-! ## Announcements -/

section Announcements

variable {ω μ : Type} {E : Surroundings ω μ} {l : Timelock} {history : List Entry}
  {evm : Evm} {msg : Msg} {tx : Transaction} {h : Bytes32}

/-- An entry about a transaction with this hash. -/
def Entry.Concerns (evm : Evm) (h : Bytes32) (e : Entry) : Prop :=
  ∃ tx, e.call.transaction? = some tx ∧ tx.txHash evm = h

theorem queued_effect_of_not_concerns {e : Entry} (he : ¬e.Concerns evm h) :
    (e.call.effect evm e.msg l).queuedTransactions h = l.queuedTransactions h := by
  have hne : ∀ tx, e.call.transaction? = some tx → h ≠ tx.txHash evm := by
    intro tx htx heq
    exact he ⟨tx, htx, heq.symm⟩
  cases hcall : e.call with
  | setDelay d => rfl
  | acceptAdmin => rfl
  | setPendingAdmin a => rfl
  | queueTransaction tx => exact Function.update_of_ne (hne tx (by rw [hcall]; rfl)) _ _
  | cancelTransaction tx => exact Function.update_of_ne (hne tx (by rw [hcall]; rfl)) _ _
  | executeTransaction tx => exact Function.update_of_ne (hne tx (by rw [hcall]; rfl)) _ _

theorem queued_effect {c : Call} (hc : c.transaction? = some tx) :
    (c.effect evm msg l).queuedTransactions (tx.txHash evm) =
      decide (c = .queueTransaction tx) := by
  cases c with
  | queueTransaction tx' =>
      obtain rfl : tx' = tx := Option.some.inj hc
      rw [decide_eq_true rfl]
      exact Function.update_self ..
  | cancelTransaction tx' | executeTransaction tx' =>
      obtain rfl : tx' = tx := Option.some.inj hc
      rw [decide_eq_false (by simp)]
      exact Function.update_self ..
  | setDelay d => cases hc
  | acceptAdmin => cases hc
  | setPendingAdmin a => cases hc

/-- A hash is marked iff the last call about it queued it. -/
theorem queued_replay_iff (hl : l.queuedTransactions h = false) :
    (replay evm l history).queuedTransactions h = true ↔
      ∃ q tx, Latest (Entry.Concerns evm h) history q ∧ q.call = .queueTransaction tx := by
  induction history using List.reverseRecOn with
  | nil =>
      simp only [not_latest_nil, false_and, exists_false, iff_false, Bool.not_eq_true]
      exact hl
  | append_singleton history e ih =>
      rw [replay_concat]
      by_cases he : e.Concerns evm h
      · simp only [latest_concat, he, true_and, not_true, false_and, or_false, exists_and_left,
          exists_eq_left]
        obtain ⟨tx, htx, rfl⟩ := he
        rw [queued_effect htx, decide_eq_true_eq]
        constructor
        · intro hcall
          exact ⟨tx, hcall⟩
        · rintro ⟨tx', hcall⟩
          rw [hcall] at htx ⊢
          rw [Option.some.inj htx]
      · rw [queued_effect_of_not_concerns he, ih]
        simp only [latest_concat, he, false_and, false_or, not_false_eq_true, true_and]

/-- The delay stays between its bounds. -/
theorem delay_replay (hl : minimumDelay ≤ l.delay ∧ l.delay ≤ maximumDelay)
    (hlawful : Justified (Entry.Lawful E l) history) :
    minimumDelay ≤ (replay E.evm l history).delay ∧
      (replay E.evm l history).delay ≤ maximumDelay := by
  induction history using List.reverseRecOn with
  | nil => exact hl
  | append_singleton history e ih =>
      obtain ⟨hhistory, -, hpermitted, -⟩ := justified_of_concat hlawful
      rw [replay_concat]
      cases hcall : e.call with
      | setDelay d =>
          rw [hcall] at hpermitted
          exact hpermitted.2
      | _ => exact ih hhistory

/-- Where hashes tell the transactions of a history apart from `tx`. -/
theorem concerns_iff (hfree : CollisionFree evm (Abi.encode tx.args :: hashed history)) {e : Entry}
    (he : e ∈ history) : e.Concerns evm (tx.txHash evm) ↔ e.call.transaction? = some tx := by
  constructor
  · rintro ⟨tx', htx', heq⟩
    have hmem : Abi.encode tx'.args ∈ hashed history :=
      List.mem_filterMap.mpr ⟨e, he, by rw [htx', Option.map_some]⟩
    have hencode := hfree _ (List.mem_cons_of_mem _ hmem) _ List.mem_cons_self heq
    rw [htx', Transaction.eq_of_encode hencode]
  · intro htx
    exact ⟨tx, htx, rfl⟩

theorem hashed_subset {history' : List Entry} (hpart : history <+: history') :
    hashed history ⊆ hashed history' := by
  obtain ⟨later, rfl⟩ := hpart
  rw [hashed, hashed, List.filterMap_append]
  exact List.subset_append_left _ _

theorem CollisionFree.mono {inputs inputs' : List Bytes} (hfree : CollisionFree evm inputs)
    (hsub : inputs' ⊆ inputs) : CollisionFree evm inputs' :=
  fun a ha b hb => hfree a (hsub ha) b (hsub hb)

variable {admin : Address} {delay : Uint256} (hdeploy : deploy admin delay = .ok l)
include hdeploy

theorem queued_deploy : l.queuedTransactions h = false := by
  obtain ⟨-, -, rfl⟩ := deploy_eq_ok.mp hdeploy
  rfl

theorem delay_deploy : minimumDelay ≤ l.delay ∧ l.delay ≤ maximumDelay := by
  obtain ⟨hmin, hmax, rfl⟩ := deploy_eq_ok.mp hdeploy
  exact ⟨hmin, hmax⟩

/-- In a lawful history the marked transactions are the announced ones. -/
theorem queued_iff_announced (hlawful : Justified (Entry.Lawful E l) history)
    (hfree : CollisionFree E.evm (Abi.encode tx.args :: hashed history)) :
    (replay E.evm l history).queuedTransactions (tx.txHash E.evm) = true ↔
      ∃ q, Announced history tx q := by
  rw [queued_replay_iff (queued_deploy hdeploy)]
  have hlatest : ∀ q, Latest (Entry.Concerns E.evm (tx.txHash E.evm)) history q ↔
      Latest (fun e => e.call.transaction? = some tx) history q :=
    fun q => latest_congr fun e he => concerns_iff hfree he
  simp only [hlatest]
  constructor
  · rintro ⟨q, tx', hq, hcall⟩
    obtain ⟨earlier, later, rfl, habout, -⟩ := id hq
    obtain rfl : tx' = tx := by simpa [hcall, Call.transaction?] using habout
    -- the rest is what `queueTransaction` asked for
    obtain ⟨hbefore, hpermitted, -⟩ := hlawful earlier q
      ⟨later, by rw [List.append_assoc, List.singleton_append]⟩
    rw [hcall] at hpermitted
    have hpart : Justified (Entry.Lawful E l) earlier :=
      fun earlier' e hp => hlawful earlier' e (hp.trans (List.prefix_append _ _))
    refine ⟨q, hq, hcall, hpermitted.1, hpermitted.2, ?_⟩
    rw [hbefore]
    exact (delay_replay (delay_deploy hdeploy) hpart).1
  · rintro ⟨q, hannounced⟩
    exact ⟨q, tx, hannounced.latest, hannounced.queued⟩

/-- No more executions than announcements; a marked transaction has one to spare. -/
theorem executions_le_announcements (hlawful : Justified (Entry.Lawful E l) history)
    (hfree : CollisionFree E.evm (Abi.encode tx.args :: hashed history)) :
    history.countP (·.call = .executeTransaction tx) +
        (if (replay E.evm l history).queuedTransactions (tx.txHash E.evm) then 1 else 0) ≤
      history.countP (·.call = .queueTransaction tx) := by
  induction history using List.reverseRecOn with
  | nil => simp [replay, queued_deploy hdeploy]
  | append_singleton history e ih =>
      obtain ⟨hhistory, hbefore, hpermitted, -⟩ := justified_of_concat hlawful
      have hsub : Abi.encode tx.args :: hashed history ⊆
          Abi.encode tx.args :: hashed (history ++ [e]) := by
        apply List.cons_subset_cons
        exact hashed_subset (List.prefix_append history [e])
      have ih := ih hhistory (hfree.mono hsub)
      rw [replay_concat, List.countP_append, List.countP_append, List.countP_singleton,
        List.countP_singleton]
      simp only [decide_eq_true_eq]
      by_cases he : e.call.transaction? = some tx
      · rw [queued_effect he]
        by_cases hexecute : e.call = .executeTransaction tx
        · -- the mark was there, and it is what the new execution uses up
          rw [hbefore, hexecute] at hpermitted
          rw [hpermitted.2.1] at ih
          simp only [hexecute, reduceCtorEq, decide_false, Bool.false_eq_true, if_true, if_false]
            at ih ⊢
          omega
        · simp only [decide_eq_true_eq, if_neg hexecute]
          omega
      · -- the last call is about something else
        have hconcerns : ¬e.Concerns E.evm (tx.txHash E.evm) := by
          rw [concerns_iff hfree (List.mem_append_right _ (List.mem_singleton_self e))]
          exact he
        have hqueue : e.call ≠ .queueTransaction tx := fun h => he (by rw [h]; rfl)
        have hexecute : e.call ≠ .executeTransaction tx := fun h => he (by rw [h]; rfl)
        rw [queued_effect_of_not_concerns hconcerns, if_neg hqueue, if_neg hexecute]
        omega

end Announcements

section Executions

variable {ω μ : Type} {E : Surroundings ω μ} {l : Timelock} {admin : Address} {delay : Uint256}

/-- Whatever the calls it makes do meanwhile, the time lock starts a transaction iff its
    administrator asks for that in the transaction's window and has announced it, a delay
    of a day or more in advance, and neither executed nor cancelled it since.  No
    transaction is executed more often than it was announced. -/
theorem executes_iff_announced (hdeploy : deploy admin delay = .ok l) (w : ω)
    (acts : List (Action E)) (msg : Msg) (tx : Transaction)
    (hfree : CollisionFree E.evm
      (Abi.encode tx.args :: hashed (Session.after E l w acts).history)) :
    ((∃ r, (Session.after E l w acts).lock.startTransaction E.evm msg tx = .ok r) ↔
        msg.sender = (Session.after E l w acts).lock.admin ∧ InWindow tx msg ∧
          ∃ q, Announced (Session.after E l w acts).history tx q) ∧
      (Session.after E l w acts).events.count (.executeTransaction (tx.txHash E.evm) tx) +
          (Session.after E l w acts).opened.countP (·.2 = tx) ≤
        (Session.after E l w acts).history.countP (·.call = .queueTransaction tx) := by
  have hexplained := Session.explained_after (l := l) w acts
  constructor
  · rw [← queued_iff_announced hdeploy hexplained.lawful hfree, ← hexplained.lock_eq]
    constructor
    · rintro ⟨⟨l', evs⟩, hstart⟩
      obtain ⟨hadmin, hqueued, hwindow, -, -⟩ := startTransaction_eq_ok.mp hstart
      exact ⟨hadmin, hwindow, hqueued⟩
    · rintro ⟨hadmin, hwindow, hqueued⟩
      exact ⟨(_, _), startTransaction_eq_ok.mpr ⟨hadmin, hqueued, hwindow, rfl, rfl⟩⟩
  · have hle := executions_le_announcements hdeploy hexplained.lawful hfree
    rw [hexplained.executed tx]
    omega

/-- A time lock at address 5 that reads the byte 1 as "set the delay to two days". -/
def sampleSurroundings : Surroundings Unit Unit where
  self := .ofNat 5
  self_ne := by decide
  evm := ⟨fun b => BitVec.ofNat 256 b.length, fun _ _ _ _ => .zero, 1⟩
  move w _ := w
  receive _ _ _ _ w := .ok w
  dispatch data := if data = [1] then some (.setDelay 172800) else none

def sampleTransaction : Transaction := ⟨.ofNat 5, 0, [], [1], 100000, by decide, by decide⟩

theorem sampleAdmin_ne_self : Address.ofNat 10 ≠ .ofNat 5 := by decide

theorem sampleAdmin_ne_zero : Address.ofNat 10 ≠ .zero := by decide

/-- Account 10 announces the transaction, and executes it a day later. -/
def sampleActions : List (Action sampleSurroundings) :=
  [.call ⟨.ofNat 10, 1, 10⟩ (.queueTransaction sampleTransaction) sampleAdmin_ne_self
      sampleAdmin_ne_zero,
    .call ⟨.ofNat 10, 2, 100000⟩ (.executeTransaction sampleTransaction) sampleAdmin_ne_self
      sampleAdmin_ne_zero,
    .enter, .returns]

def sampleLock : Timelock := ⟨.ofNat 10, .zero, 86400, false, fun _ => false⟩

theorem deploy_sampleLock : deploy (.ofNat 10) 86400 = .ok sampleLock :=
  deploy_eq_ok.mpr ⟨by decide, by decide, rfl⟩

theorem executes_iff_announced_sample :
    ∃ q, Announced (Session.after sampleSurroundings sampleLock () (sampleActions.take 1)).history
      sampleTransaction q := by
  have hhashed : hashed (Session.after sampleSurroundings sampleLock ()
      (sampleActions.take 1)).history = [Abi.encode sampleTransaction.args] := by
    decide +kernel
  have hstarts : ((Session.after sampleSurroundings sampleLock ()
      (sampleActions.take 1)).lock.startTransaction sampleSurroundings.evm ⟨.ofNat 10, 2, 100000⟩
      sampleTransaction).isOk = true := by
    decide +kernel
  have hiff := (executes_iff_announced deploy_sampleLock () (sampleActions.take 1)
    ⟨.ofNat 10, 2, 100000⟩ sampleTransaction (by rw [hhashed]; simp [CollisionFree])).1
  cases hrun : (Session.after sampleSurroundings sampleLock ()
      (sampleActions.take 1)).lock.startTransaction sampleSurroundings.evm ⟨.ofNat 10, 2, 100000⟩
      sampleTransaction with
  | error e => rw [hrun] at hstarts; cases hstarts
  | ok r => exact (hiff.mp ⟨r, hrun⟩).2.2

end Executions

/-! ## Administration -/

section Administration

variable {ω μ : Type} {E : Surroundings ω μ} {l : Timelock} {history : List Entry} {evm : Evm}

/-- A call that says who may become administrator next. -/
def Entry.Nominates (e : Entry) : Prop :=
  e.call = .acceptAdmin ∨ ∃ a, e.call = .setPendingAdmin a

/-- The call of `e` was ordered by an execution, and announced at least a day before. -/
def Entry.Ordered (E : Surroundings ω μ) (earlier : List Entry) (e : Entry) : Prop :=
  ∃ before x later tx q, earlier = before ++ x :: later ∧ x.call = .executeTransaction tx ∧
    tx.target = E.self ∧ E.dispatch (tx.callData E.evm) = some e.call ∧
    e.msg = { x.msg with sender := E.self } ∧ Announced before tx q ∧
    q.msg.timestamp.toNat + minimumDelay.toNat ≤ e.msg.timestamp.toNat

/-- What the time lock asks of changes to itself, after the calls of `earlier`. -/
structure Entry.Governed (E : Surroundings ω μ) (l : Timelock) (earlier : List Entry)
    (e : Entry) : Prop where
  setDelay : ∀ d, e.call = .setDelay d →
    minimumDelay ≤ d ∧ d ≤ maximumDelay ∧ e.Ordered E earlier
  /-- The first nomination is the deployed administrator's. -/
  setPendingAdmin : ∀ a, e.call = .setPendingAdmin a → e.Ordered E earlier ∨
    e.msg.sender = l.admin ∧ ∀ x ∈ earlier, ¬x.Nominates
  /-- The administrator accepts in person. -/
  acceptAdmin : e.call = .acceptAdmin →
    ∃ p, Latest Entry.Nominates earlier p ∧ p.call = .setPendingAdmin e.msg.sender
  /-- Transactions are up to the administrator: the last who accepted, or the first. -/
  byAdmin : ∀ tx, e.call.transaction? = some tx →
    (∃ p, Latest (·.call = .acceptAdmin) earlier p ∧ e.msg.sender = p.msg.sender) ∨
      (∀ x ∈ earlier, x.call ≠ .acceptAdmin) ∧ e.msg.sender = l.admin

theorem pendingAdmin_replay (hl : l.pendingAdmin = .zero)
    (hne : (replay evm l history).pendingAdmin ≠ .zero) :
    ∃ p, Latest Entry.Nominates history p ∧
      p.call = .setPendingAdmin (replay evm l history).pendingAdmin := by
  induction history using List.reverseRecOn with
  | nil => exact absurd hl hne
  | append_singleton history e ih =>
      simp only [replay_concat, latest_concat] at hne ⊢
      cases hcall : e.call with
      | setPendingAdmin a => exact ⟨e, .inl ⟨.inr ⟨a, hcall⟩, rfl⟩, hcall⟩
      | acceptAdmin =>
          rw [hcall] at hne
          exact absurd rfl hne
      | setDelay _ | queueTransaction _ | cancelTransaction _ | executeTransaction _ =>
          have he : ¬e.Nominates := by simp [Entry.Nominates, hcall]
          rw [hcall] at hne
          obtain ⟨p, hlatest, hp⟩ := ih hne
          exact ⟨p, .inr ⟨he, hlatest⟩, hp⟩

theorem adminInitialized_replay (hl : l.adminInitialized = false) :
    (replay evm l history).adminInitialized = true ↔
      ∃ x ∈ history, ∃ a, x.call = .setPendingAdmin a := by
  induction history using List.reverseRecOn with
  | nil => simp [replay, hl]
  | append_singleton history e ih =>
      simp only [replay_concat, List.mem_append, List.mem_singleton, or_and_right, exists_or,
        exists_eq_left, ← ih]
      cases e.call <;> simp [Call.effect, setQueued]

theorem admin_replay (evm : Evm) (l : Timelock) (history : List Entry) :
    (∃ p, Latest (·.call = .acceptAdmin) history p ∧
        (replay evm l history).admin = p.msg.sender) ∨
      (∀ x ∈ history, x.call ≠ .acceptAdmin) ∧ (replay evm l history).admin = l.admin := by
  induction history using List.reverseRecOn with
  | nil => exact .inr ⟨by simp, rfl⟩
  | append_singleton history e ih =>
      simp only [replay_concat, latest_concat]
      by_cases he : e.call = .acceptAdmin
      · rw [he]
        exact .inl ⟨e, .inl ⟨rfl, rfl⟩, rfl⟩
      · -- the other calls leave the administrator alone
        have hadmin : (e.call.effect evm e.msg (replay evm l history)).admin =
            (replay evm l history).admin := by
          cases hcall : e.call with
          | acceptAdmin => exact absurd hcall he
          | _ => rfl
        rw [hadmin]
        rcases ih with ⟨p, hlatest, hp⟩ | ⟨hnone, hfirst⟩
        · exact .inl ⟨p, .inr ⟨he, hlatest⟩, hp⟩
        · exact .inr ⟨by simpa [or_imp, forall_and] using ⟨hnone, he⟩, hfirst⟩

variable {admin : Address} {delay : Uint256} (hdeploy : deploy admin delay = .ok l)
include hdeploy

/-- An execution in a lawful history was announced. -/
theorem announced_of_executed {before later : List Entry} {x : Entry} {tx : Transaction}
    (hlawful : Justified (Entry.Lawful E l) (before ++ x :: later))
    (hfree : CollisionFree E.evm (hashed (before ++ x :: later)))
    (hcall : x.call = .executeTransaction tx) :
    InWindow tx x.msg ∧ ∃ q, Announced before tx q ∧
      q.msg.timestamp.toNat + minimumDelay.toNat ≤ x.msg.timestamp.toNat := by
  have hpart : before ++ [x] <+: before ++ x :: later :=
    ⟨later, by rw [List.append_assoc, List.singleton_append]⟩
  obtain ⟨hbefore, hpermitted, -⟩ := hlawful before x hpart
  rw [hcall, hbefore] at hpermitted
  obtain ⟨-, hqueued, hwindow⟩ := hpermitted
  have hsub : Abi.encode tx.args :: hashed before ⊆ hashed (before ++ x :: later) := by
    rw [hashed, hashed, List.filterMap_append, List.filterMap_cons_some (by rw [hcall]; rfl)]
    apply List.cons_subset.mpr
    exact ⟨List.mem_append_right _ List.mem_cons_self, List.subset_append_left _ _⟩
  have hearlier : Justified (Entry.Lawful E l) before :=
    fun earlier e hp => hlawful earlier e (hp.trans (List.prefix_append _ _))
  obtain ⟨q, hq⟩ := (queued_iff_announced hdeploy hearlier (hfree.mono hsub)).mp hqueued
  refine ⟨hwindow, q, hq, ?_⟩
  have hinAdvance := hq.inAdvance
  have haDay : minimumDelay.toNat ≤ q.before.delay.toNat := hq.aDay
  have hnotEarly := hwindow.notEarly
  omega

/-- A call of the time lock by itself was ordered. -/
theorem Entry.Lawful.ordered {earlier : List Entry} {e : Entry}
    (hlawful : Justified (Entry.Lawful E l) earlier) (hfree : CollisionFree E.evm (hashed earlier))
    (he : e.Lawful E l earlier) (hself : e.msg.sender = E.self) : e.Ordered E earlier := by
  cases he.origin with
  | other hother hzero => exact absurd hself hother
  | itself before x later tx hsplit hcall htarget hdispatch hmsg =>
      subst hsplit
      obtain ⟨-, q, hq, hday⟩ := announced_of_executed hdeploy hlawful hfree hcall
      refine ⟨before, x, later, tx, q, rfl, hcall, htarget, hdispatch, hmsg, hq, ?_⟩
      rw [hmsg]
      exact hday

omit hdeploy in
theorem Entry.Lawful.sender_ne_zero {earlier : List Entry} {e : Entry} (he : e.Lawful E l earlier) :
    e.msg.sender ≠ .zero := by
  cases he.origin with
  | other hself hzero => exact hzero
  | itself before x later tx hsplit hcall htarget hdispatch hmsg =>
      rw [hmsg]
      exact E.self_ne

/-- Only the nominee becomes administrator. -/
theorem Entry.Lawful.nominated {earlier : List Entry} {e : Entry} (he : e.Lawful E l earlier)
    (hcall : e.call = .acceptAdmin) :
    ∃ p, Latest Entry.Nominates earlier p ∧ p.call = .setPendingAdmin e.msg.sender := by
  have hpermitted := he.permitted
  rw [hcall, he.before_eq] at hpermitted
  have hsender : e.msg.sender = (replay E.evm l earlier).pendingAdmin := hpermitted
  have hzero := he.sender_ne_zero
  rw [hsender] at hzero ⊢
  apply pendingAdmin_replay _ hzero
  obtain ⟨-, -, rfl⟩ := deploy_eq_ok.mp hdeploy
  rfl

/-- Nobody is nominated before the administrator is settled. -/
theorem not_nominates_of_not_initialized (hlawful : Justified (Entry.Lawful E l) history)
    (hinit : (replay E.evm l history).adminInitialized = false) : ∀ x ∈ history, ¬x.Nominates := by
  have hl : l.adminInitialized = false := by
    obtain ⟨-, -, rfl⟩ := deploy_eq_ok.mp hdeploy
    rfl
  have hnone : ¬∃ x ∈ history, ∃ a, x.call = .setPendingAdmin a := by
    rw [← adminInitialized_replay hl, hinit]
    exact Bool.false_ne_true
  rintro x hx (hcall | ⟨a, hcall⟩)
  · -- who accepts has been nominated before
    obtain ⟨before, later, rfl⟩ := List.append_of_mem hx
    have hx := hlawful before x ⟨later, by rw [List.append_assoc, List.singleton_append]⟩
    obtain ⟨p, ⟨earlier, between, rfl, -, -⟩, hp⟩ := hx.nominated hdeploy hcall
    exact hnone ⟨p, by simp, _, hp⟩
  · exact hnone ⟨x, hx, a, hcall⟩

theorem Entry.Lawful.governed {earlier : List Entry} {e : Entry}
    (hlawful : Justified (Entry.Lawful E l) earlier) (hfree : CollisionFree E.evm (hashed earlier))
    (he : e.Lawful E l earlier) : e.Governed E l earlier := by
  have hpermitted := he.permitted
  constructor
  · intro d hcall
    rw [hcall] at hpermitted
    obtain ⟨hself, hmin, hmax⟩ := hpermitted
    exact ⟨hmin, hmax, he.ordered hdeploy hlawful hfree hself⟩
  · intro a hcall
    rw [hcall, he.before_eq] at hpermitted
    cases hinit : (replay E.evm l earlier).adminInitialized with
    | true =>
        simp only [Call.Permitted, hinit, if_true] at hpermitted
        exact .inl (he.ordered hdeploy hlawful hfree hpermitted)
    | false =>
        simp only [Call.Permitted, hinit, Bool.false_eq_true, if_false] at hpermitted
        have hnone := not_nominates_of_not_initialized hdeploy hlawful hinit
        refine .inr ⟨?_, hnone⟩
        rw [hpermitted]
        rcases admin_replay E.evm l earlier with ⟨p, ⟨before, later, rfl, hp, -⟩, -⟩ | ⟨-, hfirst⟩
        · exact absurd (.inl hp) (hnone p (by simp))
        · exact hfirst
  · exact he.nominated hdeploy
  · intro tx htx
    have hsender : e.msg.sender = (replay E.evm l earlier).admin := by
      rw [he.before_eq] at hpermitted
      cases hcall : e.call with
      | queueTransaction tx' | executeTransaction tx' =>
          rw [hcall] at hpermitted
          exact hpermitted.1
      | cancelTransaction tx' =>
          rw [hcall] at hpermitted
          exact hpermitted
      | setDelay _ | acceptAdmin | setPendingAdmin _ =>
          rw [hcall] at htx
          cases htx
    rw [hsender]
    exact admin_replay _ _ _

end Administration

section Governance

variable {ω μ : Type} {E : Surroundings ω μ} {l : Timelock} {admin : Address} {delay : Uint256}

/-- Whatever the calls it makes do meanwhile, the time lock changes itself only by calls it
    has announced a day or more before; the deployed administrator's first nomination is
    the one exception.  The nominee becomes administrator by accepting, and nobody else
    does; the delay is between its bounds at all times. -/
theorem governed_after (hdeploy : deploy admin delay = .ok l) (w : ω) (acts : List (Action E))
    (hfree : CollisionFree E.evm (hashed (Session.after E l w acts).history)) :
    Justified (Entry.Governed E l) (Session.after E l w acts).history ∧
      minimumDelay ≤ (Session.after E l w acts).lock.delay ∧
      (Session.after E l w acts).lock.delay ≤ maximumDelay := by
  have hexplained := Session.explained_after (l := l) w acts
  constructor
  · rintro earlier e ⟨later, hsplit⟩
    have hearlier : Justified (Entry.Lawful E l) earlier := by
      intro before x hpart
      apply hexplained.lawful
      rw [← hsplit, List.append_assoc]
      exact hpart.trans (List.prefix_append _ _)
    have he := hexplained.lawful earlier e ⟨later, hsplit⟩
    apply he.governed hdeploy hearlier
    apply hfree.mono
    apply hashed_subset
    rw [← hsplit, List.append_assoc]
    exact List.prefix_append _ _
  · rw [hexplained.lock_eq]
    exact delay_replay (delay_deploy hdeploy) hexplained.lawful

theorem governed_after_sample :
    (Session.after sampleSurroundings sampleLock () sampleActions).lock.delay = 172800 ∧
      Justified (Entry.Governed sampleSurroundings sampleLock)
        (Session.after sampleSurroundings sampleLock () sampleActions).history := by
  have hhashed : hashed (Session.after sampleSurroundings sampleLock () sampleActions).history =
      [Abi.encode sampleTransaction.args, Abi.encode sampleTransaction.args] := by
    decide +kernel
  refine ⟨by decide +kernel, (governed_after deploy_sampleLock () sampleActions ?_).1⟩
  rw [hhashed]
  simp [CollisionFree]

end Governance

end Dione.Contracts.Timelock
