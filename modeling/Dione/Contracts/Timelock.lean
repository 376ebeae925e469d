/-
  Dione.Contracts.Timelock

  `Timelock.sol`: an administrator announces calls, and after a delay the time lock
  makes them.  It is meant to own the staking contract, so that no parameter of the
  network changes without notice.

  `executeTransaction` hands control to its target.  Here the call it makes may run
  any code: a session is a run in which executions stay open for as long as they
  like, and whatever is called meanwhile is called from inside them.  Code that
  reverts takes back all it did, so what is left of it is a session it is no part of.
  What surrounds the time lock is a parameter; of the calls with the time lock as
  sender it makes none itself.  Balances of ether are not kept: a call that asks for
  more than there is reverts.

  A session keeps a history the contract does not have: each call that took effect,
  with the storage it found.
-/

import Dione.Contracts.Evm
import Dione.Lib.Abi
import Dione.Lib.Lists
import Dione.Lib.Run

namespace Dione.Contracts

open Guard Dione.Lists

/-- The storage of `Timelock`. -/
structure Timelock where
  admin : Address
  pendingAdmin : Address
  delay : Uint256
  adminInitialized : Bool
  queuedTransactions : Bytes32 → Bool

namespace Timelock

/-- `GRACE_PERIOD`, 14 days. -/
def gracePeriod : Uint256 := 1209600

/-- `MINIMUM_DELAY`, 24 hours. -/
def minimumDelay : Uint256 := 86400

/-- `MAXIMUM_DELAY`, 30 days. -/
def maximumDelay : Uint256 := 2592000

/-- A call to be made: the arguments of `queueTransaction`, `cancelTransaction` and
    `executeTransaction`.  Lengths are words. -/
structure Transaction where
  target : Address
  value : Uint256
  signature : Bytes
  data : Bytes
  eta : Uint256
  signature_lt : signature.length < 2 ^ 256
  data_lt : data.length < 2 ^ 256
  deriving DecidableEq

/-- The arguments of `abi.encode(target, value, signature, data, eta)`. -/
def Transaction.args (tx : Transaction) : List Abi.Arg :=
  [.word tx.target.val, .word tx.value.toNat, .blob tx.signature, .blob tx.data,
    .word tx.eta.toNat]

def Transaction.txHash (evm : Evm) (tx : Transaction) : Bytes32 :=
  evm.keccak256 (Abi.encode tx.args)

/-- What the target is called with: the data, behind the selector of the function if
    there is one. -/
def Transaction.callData (evm : Evm) (tx : Transaction) : Bytes :=
  if tx.signature.length = 0 then tx.data
  else (bigEndian 32 (evm.keccak256 tx.signature).toNat).take 4 ++ tx.data

inductive Event where
  | newAdmin (newAdmin : Address)
  | newPendingAdmin (newPendingAdmin : Address)
  | newDelay (newDelay : Uint256)
  | cancelTransaction (txHash : Bytes32) (tx : Transaction)
  | executeTransaction (txHash : Bytes32) (tx : Transaction)
  | queueTransaction (txHash : Bytes32) (tx : Transaction)
  deriving DecidableEq

/-! ## Functions -/

/-- Write `queuedTransactions[txHash]`. -/
def setQueued (l : Timelock) (txHash : Bytes32) (queued : Bool) : Timelock :=
  { l with queuedTransactions := Function.update l.queuedTransactions txHash queued }

/-- The constructor. -/
def deploy (admin_ : Address) (delay_ : Uint256) : Except Revert Timelock := do
  require (minimumDelay ≤ delay_)
    (.reason "Timelock::constructor: Delay must exceed minimum delay.")
  require (delay_ ≤ maximumDelay)
    (.reason "Timelock::constructor: Delay must not exceed maximum delay.")
  return ⟨admin_, .zero, delay_, false, fun _ => false⟩

section Functions

variable (self : Address) (evm : Evm) (msg : Msg)

def setDelay (delay_ : Uint256) (l : Timelock) : Except Revert (Timelock × List Event) := do
  require (msg.sender = self) (.reason "Timelock::setDelay: Call must come from Timelock.")
  require (minimumDelay ≤ delay_)
    (.reason "Timelock::setDelay: Delay must exceed minimum delay.")
  require (delay_ ≤ maximumDelay)
    (.reason "Timelock::setDelay: Delay must not exceed maximum delay.")
  return ({ l with delay := delay_ }, [.newDelay delay_])

def acceptAdmin (l : Timelock) : Except Revert (Timelock × List Event) := do
  require (msg.sender = l.pendingAdmin)
    (.reason "Timelock::acceptAdmin: Call must come from pendingAdmin.")
  return ({ l with admin := msg.sender, pendingAdmin := .zero }, [.newAdmin msg.sender])

def setPendingAdmin (pendingAdmin_ : Address) (l : Timelock) :
    Except Revert (Timelock × List Event) := do
  -- the administrator may do this once, the time lock ever after
  if l.adminInitialized then
    require (msg.sender = self)
      (.reason "Timelock::setPendingAdmin: Call must come from Timelock.")
  else
    require (msg.sender = l.admin)
      (.reason "Timelock::setPendingAdmin: First call must come from admin.")
  return ({ l with adminInitialized := true, pendingAdmin := pendingAdmin_ },
    [.newPendingAdmin pendingAdmin_])

def queueTransaction (tx : Transaction) (l : Timelock) :
    Except Revert (Timelock × List Event) := do
  require (msg.sender = l.admin)
    (.reason "Timelock::queueTransaction: Call must come from admin.")
  let earliest ← Checked.add .overflow msg.timestamp l.delay
  require (earliest ≤ tx.eta)
    (.reason "Timelock::queueTransaction: Estimated execution block must satisfy delay.")
  return (l.setQueued (tx.txHash evm) true, [.queueTransaction (tx.txHash evm) tx])

def cancelTransaction (tx : Transaction) (l : Timelock) :
    Except Revert (Timelock × List Event) := do
  require (msg.sender = l.admin)
    (.reason "Timelock::cancelTransaction: Call must come from admin.")
  return (l.setQueued (tx.txHash evm) false, [.cancelTransaction (tx.txHash evm) tx])

/-- `executeTransaction` up to its low-level call; its event comes after that. -/
def startTransaction (tx : Transaction) (l : Timelock) :
    Except Revert (Timelock × List Event) := do
  require (msg.sender = l.admin)
    (.reason "Timelock::executeTransaction: Call must come from admin.")
  require (l.queuedTransactions (tx.txHash evm) = true)
    (.reason "Timelock::executeTransaction: Transaction hasn't been queued.")
  require (tx.eta ≤ msg.timestamp)
    (.reason "Timelock::executeTransaction: Transaction hasn't surpassed time lock.")
  let latest ← Checked.add .overflow tx.eta gracePeriod
  require (msg.timestamp ≤ latest)
    (.reason "Timelock::executeTransaction: Transaction is stale.")
  -- before the call: the same transaction cannot be executed again from inside it
  return (l.setQueued (tx.txHash evm) false, [])

end Functions

/-- The entry points. -/
inductive Call where
  | setDelay (delay_ : Uint256)
  | acceptAdmin
  | setPendingAdmin (pendingAdmin_ : Address)
  | queueTransaction (tx : Transaction)
  | cancelTransaction (tx : Transaction)
  | executeTransaction (tx : Transaction)
  deriving DecidableEq

/-- Run a call, an execution up to its low-level call. -/
def Call.run (self : Address) (evm : Evm) (msg : Msg) (l : Timelock) :
    Call → Except Revert (Timelock × List Event)
  | .setDelay delay_ => l.setDelay self msg delay_
  | .acceptAdmin => l.acceptAdmin msg
  | .setPendingAdmin pendingAdmin_ => l.setPendingAdmin self msg pendingAdmin_
  | .queueTransaction tx => l.queueTransaction evm msg tx
  | .cancelTransaction tx => l.cancelTransaction evm msg tx
  | .executeTransaction tx => l.startTransaction evm msg tx

/-- Only executions take ether along. -/
def Call.payable : Call → Bool
  | .executeTransaction _ => true
  | _ => false

/-- The transaction a call is about. -/
def Call.transaction? : Call → Option Transaction
  | .queueTransaction tx | .cancelTransaction tx | .executeTransaction tx => some tx
  | .setDelay _ | .acceptAdmin | .setPendingAdmin _ => none

/-! ## Sessions -/

/-- Everything but the time lock: what others do to the outside (`move`), what a call
    by the time lock does there (`receive`: target, value and data), and the function
    the time lock itself finds for call data. -/
structure Surroundings (ω μ : Type) where
  self : Address
  self_ne : self ≠ .zero
  evm : Evm
  move : ω → μ → ω
  receive : Msg → Address → Uint256 → Bytes → ω → Except Revert ω
  dispatch : Bytes → Option Call

/-- An `executeTransaction` whose call has not returned; `entered` tells whether the
    target has been reached. -/
structure Execution where
  msg : Msg
  tx : Transaction
  entered : Bool

/-- A call that took effect, and the storage it found. -/
structure Entry where
  msg : Msg
  call : Call
  before : Timelock

/-- The time lock in the middle of whatever is called; the innermost execution comes
    first. -/
structure Session (ω : Type) where
  lock : Timelock
  outside : ω
  executions : List Execution
  events : List Event
  history : List Entry

/-- What can happen next. -/
inductive Action {ω μ : Type} (E : Surroundings ω μ) where
  /-- Somebody else calls the time lock. -/
  | call (msg : Msg) (c : Call) (hself : msg.sender ≠ E.self) (hzero : msg.sender ≠ .zero)
  /-- Something happens elsewhere. -/
  | move (m : μ)
  /-- The call of the innermost execution reaches its target. -/
  | enter
  /-- It returns. -/
  | returns

namespace Session

variable {ω μ : Type} (E : Surroundings ω μ)

def start (l : Timelock) (w : ω) : Session ω := ⟨l, w, [], [], []⟩

/-- A call takes effect, unless it reverts. -/
def perform (s : Session ω) (msg : Msg) (c : Call) : Option (Session ω) :=
  match c.run E.self E.evm msg s.lock with
  | .error _ => none
  | .ok (lock, events) =>
    some { s with
      lock := lock
      executions := match c with
        | .executeTransaction tx => ⟨msg, tx, false⟩ :: s.executions
        | _ => s.executions
      events := s.events ++ events
      history := s.history ++ [⟨msg, c, s.lock⟩] }

/-- The low-level call of the innermost execution.  Sent to the time lock itself it is
    one of its functions, or, without data, `receive`. -/
def enter (s : Session ω) : Option (Session ω) :=
  match s.executions with
  | [] => none
  | x :: outer =>
    if x.entered then none
    else
      let s' := { s with executions := { x with entered := true } :: outer }
      let msg := { x.msg with sender := E.self }
      let callData := x.tx.callData E.evm
      if x.tx.target = E.self then
        match E.dispatch callData with
        | some c => if x.tx.value = 0 ∨ c.payable then s'.perform E msg c else none
        | none => if callData = [] then some s' else none
      else
        match E.receive msg x.tx.target x.tx.value callData s.outside with
        | .ok w => some { s' with outside := w }
        | .error _ => none

/-- The rest of the innermost `executeTransaction`. -/
def finish (s : Session ω) : Option (Session ω) :=
  match s.executions with
  | [] => none
  | x :: outer =>
    if x.entered then
      some { s with
        executions := outer
        events := s.events ++ [.executeTransaction (x.tx.txHash E.evm) x.tx] }
    else none

def step (s : Session ω) : Action E → Session ω
  | .call msg c _ _ => (s.perform E msg c).getD s
  | .move m => { s with outside := E.move s.outside m }
  | .enter => (s.enter E).getD s
  | .returns => (s.finish E).getD s

/-- The session after the actions `acts`, from a time lock just deployed. -/
def after (l : Timelock) (w : ω) (acts : List (Action E)) : Session ω :=
  Run.exec (step E) (start l w) acts

/-- The executions that are open. -/
def opened (s : Session ω) : List (Msg × Transaction) := s.executions.map fun x => (x.msg, x.tx)

end Session

/-! ## Successful calls -/

section Inversion

variable {self a : Address} {evm : Evm} {msg : Msg} {d : Uint256} {tx tx' : Transaction}
  {l l' : Timelock} {evs : List Event}

theorem deploy_eq_ok : deploy a d = .ok l ↔ minimumDelay ≤ d ∧ d ≤ maximumDelay ∧
    ⟨a, .zero, d, false, fun _ => false⟩ = l := by
  simp only [deploy, bind_eq_ok, require_eq_ok, exists_const, pure_eq_ok_iff]

theorem setDelay_eq_ok : l.setDelay self msg d = .ok (l', evs) ↔ msg.sender = self ∧
    minimumDelay ≤ d ∧ d ≤ maximumDelay ∧ { l with delay := d } = l' ∧ [.newDelay d] = evs := by
  simp only [setDelay, bind_eq_ok, require_eq_ok, exists_const, pure_eq_ok_iff, Prod.mk.injEq]

theorem acceptAdmin_eq_ok : l.acceptAdmin msg = .ok (l', evs) ↔ msg.sender = l.pendingAdmin ∧
    { l with admin := msg.sender, pendingAdmin := .zero } = l' ∧ [.newAdmin msg.sender] = evs := by
  simp only [acceptAdmin, bind_eq_ok, require_eq_ok, exists_const, pure_eq_ok_iff, Prod.mk.injEq]

theorem setPendingAdmin_eq_ok : l.setPendingAdmin self msg a = .ok (l', evs) ↔
    (if l.adminInitialized then msg.sender = self else msg.sender = l.admin) ∧
      { l with adminInitialized := true, pendingAdmin := a } = l' ∧
      [.newPendingAdmin a] = evs := by
  cases hinit : l.adminInitialized with
  | false =>
      simp only [setPendingAdmin, hinit, Bool.false_eq_true, if_false, bind_eq_ok, require_eq_ok,
        exists_const, pure_eq_ok_iff, Prod.mk.injEq]
  | true =>
      simp only [setPendingAdmin, hinit, if_true, bind_eq_ok, require_eq_ok, exists_const,
        pure_eq_ok_iff, Prod.mk.injEq]

theorem queueTransaction_eq_ok : l.queueTransaction evm msg tx = .ok (l', evs) ↔
    msg.sender = l.admin ∧ msg.timestamp.toNat + l.delay.toNat ≤ tx.eta.toNat ∧
      l.setQueued (tx.txHash evm) true = l' ∧
      [.queueTransaction (tx.txHash evm) tx] = evs := by
  simp only [queueTransaction, bind_eq_ok, require_eq_ok, exists_const, Checked.add_eq_ok,
    pure_eq_ok_iff, Prod.mk.injEq, BitVec.le_def]
  constructor
  · rintro ⟨hadmin, earliest, hearliest, hle, hl, hevs⟩
    exact ⟨hadmin, by omega, hl, hevs⟩
  · rintro ⟨hadmin, hle, hl, hevs⟩
    -- the earliest time is no later than `eta`, so it fits into a word
    have heta : tx.eta.toNat < 2 ^ 256 := tx.eta.isLt
    obtain ⟨earliest, -, hearliest⟩ := Checked.exists_add (e := Revert.overflow)
      (show msg.timestamp.toNat + l.delay.toNat < 2 ^ 256 by omega)
    exact ⟨hadmin, earliest, hearliest, by omega, hl, hevs⟩

theorem cancelTransaction_eq_ok : l.cancelTransaction evm msg tx = .ok (l', evs) ↔
    msg.sender = l.admin ∧ l.setQueued (tx.txHash evm) false = l' ∧
      [.cancelTransaction (tx.txHash evm) tx] = evs := by
  simp only [cancelTransaction, bind_eq_ok, require_eq_ok, exists_const, pure_eq_ok_iff,
    Prod.mk.injEq]

/-- The time at which `tx` may be executed. -/
structure InWindow (tx : Transaction) (msg : Msg) : Prop where
  notEarly : tx.eta.toNat ≤ msg.timestamp.toNat
  notStale : msg.timestamp.toNat ≤ tx.eta.toNat + gracePeriod.toNat
  /-- The end of the grace period is a word. -/
  fits : tx.eta.toNat + gracePeriod.toNat < 2 ^ 256

theorem startTransaction_eq_ok : l.startTransaction evm msg tx = .ok (l', evs) ↔
    msg.sender = l.admin ∧ l.queuedTransactions (tx.txHash evm) = true ∧ InWindow tx msg ∧
      l.setQueued (tx.txHash evm) false = l' ∧ [] = evs := by
  simp only [startTransaction, bind_eq_ok, require_eq_ok, exists_const, Checked.add_eq_ok,
    pure_eq_ok_iff, Prod.mk.injEq, BitVec.le_def]
  constructor
  · rintro ⟨hadmin, hqueued, hearly, latest, hlatest, hstale, hl, hevs⟩
    have hfits : latest.toNat < 2 ^ 256 := latest.isLt
    exact ⟨hadmin, hqueued, ⟨hearly, by omega, by omega⟩, hl, hevs⟩
  · rintro ⟨hadmin, hqueued, ⟨hearly, hstale, hfits⟩, hl, hevs⟩
    obtain ⟨latest, -, hlatest⟩ := Checked.exists_add (e := Revert.overflow) hfits
    exact ⟨hadmin, hqueued, hearly, latest, hlatest, by omega, hl, hevs⟩

/-- The encoding of a transaction determines it. -/
theorem Transaction.eq_of_encode (h : Abi.encode tx.args = Abi.encode tx'.args) : tx = tx' := by
  have hfits : ∀ t : Transaction, ∀ arg ∈ t.args, arg.Fits := by
    intro t arg harg
    have htarget : t.target.val < 2 ^ 256 := Nat.lt_trans t.target.isLt (by decide)
    simp only [Transaction.args, List.mem_cons, List.not_mem_nil, or_false] at harg
    rcases harg with rfl | rfl | rfl | rfl | rfl
    · exact htarget
    · exact t.value.isLt
    · exact t.signature_lt
    · exact t.data_lt
    · exact t.eta.isLt
  have hshape : tx.args.map Abi.Arg.isBlob = tx'.args.map Abi.Arg.isBlob := rfl
  have hargs := Abi.encode_inj hshape (hfits tx) (hfits tx') h
  simp only [Transaction.args, List.cons.injEq, Abi.Arg.word.injEq, Abi.Arg.blob.injEq, and_true]
    at hargs
  obtain ⟨htarget, hvalue, hsignature, hdata, heta⟩ := hargs
  cases tx with
  | mk target value signature data eta hs hd =>
      cases tx' with
      | mk target' value' signature' data' eta' hs' hd' =>
          obtain rfl : target = target' := Fin.ext htarget
          obtain rfl : value = value' := BitVec.eq_of_toNat_eq hvalue
          obtain rfl : signature = signature' := hsignature
          obtain rfl : data = data' := hdata
          obtain rfl : eta = eta' := BitVec.eq_of_toNat_eq heta
          rfl

/-- What a call asks of its sender, its arguments and the storage. -/
def Call.Permitted (self : Address) (evm : Evm) (msg : Msg) (l : Timelock) : Call → Prop
  | .setDelay delay_ => msg.sender = self ∧ minimumDelay ≤ delay_ ∧ delay_ ≤ maximumDelay
  | .acceptAdmin => msg.sender = l.pendingAdmin
  | .setPendingAdmin _ =>
    if l.adminInitialized then msg.sender = self else msg.sender = l.admin
  | .queueTransaction tx =>
    msg.sender = l.admin ∧ msg.timestamp.toNat + l.delay.toNat ≤ tx.eta.toNat
  | .cancelTransaction _ => msg.sender = l.admin
  | .executeTransaction tx =>
    msg.sender = l.admin ∧ l.queuedTransactions (tx.txHash evm) = true ∧ InWindow tx msg

/-- The storage a permitted call leaves. -/
def Call.effect (evm : Evm) (msg : Msg) (l : Timelock) : Call → Timelock
  | .setDelay delay_ => { l with delay := delay_ }
  | .acceptAdmin => { l with admin := msg.sender, pendingAdmin := .zero }
  | .setPendingAdmin pendingAdmin_ =>
    { l with adminInitialized := true, pendingAdmin := pendingAdmin_ }
  | .queueTransaction tx => l.setQueued (tx.txHash evm) true
  | .cancelTransaction tx | .executeTransaction tx => l.setQueued (tx.txHash evm) false

/-- The events of a permitted call, that of an execution apart. -/
def Call.emits (evm : Evm) (msg : Msg) : Call → List Event
  | .setDelay delay_ => [.newDelay delay_]
  | .acceptAdmin => [.newAdmin msg.sender]
  | .setPendingAdmin pendingAdmin_ => [.newPendingAdmin pendingAdmin_]
  | .queueTransaction tx => [.queueTransaction (tx.txHash evm) tx]
  | .cancelTransaction tx => [.cancelTransaction (tx.txHash evm) tx]
  | .executeTransaction _ => []

theorem Call.run_eq_ok {c : Call} : c.run self evm msg l = .ok (l', evs) ↔
    c.Permitted self evm msg l ∧ c.effect evm msg l = l' ∧ c.emits evm msg = evs := by
  cases c with
  | setDelay d =>
      show l.setDelay self msg d = _ ↔ _
      rw [setDelay_eq_ok]
      simp only [Permitted, effect, emits, and_assoc]
  | acceptAdmin => exact acceptAdmin_eq_ok
  | setPendingAdmin a => exact setPendingAdmin_eq_ok
  | queueTransaction tx =>
      show l.queueTransaction evm msg tx = _ ↔ _
      rw [queueTransaction_eq_ok]
      simp only [Permitted, effect, emits, and_assoc]
  | cancelTransaction tx => exact cancelTransaction_eq_ok
  | executeTransaction tx =>
      show l.startTransaction evm msg tx = _ ↔ _
      rw [startTransaction_eq_ok]
      simp only [Permitted, effect, emits, and_assoc]

end Inversion

/-! ## What a step does -/

/-- The executions a call opens. -/
def Call.opens (msg : Msg) : Call → List (Msg × Transaction)
  | .executeTransaction tx => [(msg, tx)]
  | _ => []

section Steps

variable {ω μ : Type} {E : Surroundings ω μ} {s s' : Session ω} {msg : Msg} {c : Call}

/-- Who makes a call: somebody else, or an execution that is open. -/
inductive Session.Origin (E : Surroundings ω μ) (s : Session ω) : Msg → Call → Prop where
  | other {msg : Msg} {c : Call} (hself : msg.sender ≠ E.self) (hzero : msg.sender ≠ .zero) :
      Origin E s msg c
  | itself {msg : Msg} {tx : Transaction} {c : Call} (hopen : (msg, tx) ∈ s.opened)
      (htarget : tx.target = E.self) (hdispatch : E.dispatch (tx.callData E.evm) = some c) :
      Origin E s { msg with sender := E.self } c

/-- The ways a step can change a session. -/
inductive Session.Move (E : Surroundings ω μ) (s s' : Session ω) : Prop where
  /-- Nothing that the time lock sees. -/
  | elsewhere (hlock : s'.lock = s.lock) (hopened : s'.opened = s.opened)
      (hevents : s'.events = s.events) (hhistory : s'.history = s.history)
  /-- A call, an execution up to its low-level call. -/
  | performed (msg : Msg) (c : Call) (horigin : s.Origin E msg c)
      (hpermitted : c.Permitted E.self E.evm msg s.lock)
      (hlock : s'.lock = c.effect E.evm msg s.lock)
      (hopened : s'.opened = c.opens msg ++ s.opened)
      (hevents : s'.events = s.events ++ c.emits E.evm msg)
      (hhistory : s'.history = s.history ++ [⟨msg, c, s.lock⟩])
  /-- The end of an execution. -/
  | returned (msg : Msg) (tx : Transaction) (hlock : s'.lock = s.lock)
      (hopened : s.opened = (msg, tx) :: s'.opened)
      (hevents : s'.events = s.events ++ [.executeTransaction (tx.txHash E.evm) tx])
      (hhistory : s'.history = s.history)

theorem Session.Move.stay : s.Move E s := .elsewhere rfl rfl rfl rfl

/-- A call made in a session with the same open executions. -/
theorem Session.move_perform {s₁ : Session ω} (horigin : s.Origin E msg c)
    (hlock : s₁.lock = s.lock) (hopened : s₁.opened = s.opened) (hevents : s₁.events = s.events)
    (hhistory : s₁.history = s.history) (h : s₁.perform E msg c = some s') : s.Move E s' := by
  unfold Session.perform at h
  split at h
  · cases h
  · rename_i lock events hrun
    obtain ⟨hpermitted, heffect, hemits⟩ := Call.run_eq_ok.mp hrun
    obtain rfl := Option.some.inj h
    rw [hlock] at hpermitted heffect
    refine .performed msg c horigin hpermitted heffect.symm ?_ ?_ ?_
    · -- only an execution opens one
      rw [← hopened]
      cases c <;> rfl
    · show s₁.events ++ events = _
      rw [hevents, hemits]
    · show s₁.history ++ [⟨msg, c, s₁.lock⟩] = _
      rw [hhistory, hlock]

theorem Session.move_enter (h : s.enter E = some s') : s.Move E s' := by
  unfold Session.enter at h
  split at h
  · cases h
  · rename_i x outer hexecutions
    split at h
    · cases h
    · -- the mark that the target has been reached is invisible to the time lock
      have hopened : ({ s with
          executions := { x with entered := true } :: outer } : Session ω).opened = s.opened := by
        simp only [Session.opened, hexecutions, List.map_cons]
      have hmem : (x.msg, x.tx) ∈ s.opened := by
        simp only [Session.opened, hexecutions, List.map_cons, List.mem_cons, true_or]
      dsimp only at h
      split at h
      · rename_i htarget
        split at h
        · rename_i c hdispatch
          split at h
          · refine move_perform (.itself hmem htarget hdispatch) ?_ hopened ?_ ?_ h <;> rfl
          · cases h
        · split at h
          · obtain rfl := Option.some.inj h
            exact .elsewhere rfl hopened rfl rfl
          · cases h
      · split at h
        · obtain rfl := Option.some.inj h
          exact .elsewhere rfl hopened rfl rfl
        · cases h

theorem Session.move_finish (h : s.finish E = some s') : s.Move E s' := by
  unfold Session.finish at h
  split at h
  · cases h
  · rename_i x outer hexecutions
    split at h
    · obtain rfl := Option.some.inj h
      refine .returned x.msg x.tx rfl ?_ rfl rfl
      simp only [Session.opened, hexecutions, List.map_cons]
    · cases h

theorem Session.move_step (s : Session ω) (a : Action E) : s.Move E (s.step E a) := by
  have hmove : ∀ o : Option (Session ω), (∀ s', o = some s' → s.Move E s') →
      s.Move E (o.getD s) := by
    intro o ho
    cases o with
    | none => exact .stay
    | some s' => exact ho s' rfl
  cases a with
  | call msg c hself hzero =>
      apply hmove
      intro s' h
      exact move_perform (.other hself hzero) rfl rfl rfl rfl h
  | move m => exact .elsewhere rfl rfl rfl rfl
  | enter => exact hmove _ fun s' => move_enter
  | returns => exact hmove _ fun s' => move_finish

/-- Histories only grow. -/
theorem Session.history_grows {l : Timelock} {w : ω} {pre acts : List (Action E)}
    (hpre : pre <+: acts) : (after E l w pre).history <+: (after E l w acts).history := by
  obtain ⟨rest, rfl⟩ := hpre
  have happend : after E l w (pre ++ rest) = Run.exec (step E) (after E l w pre) rest :=
    Run.exec_append ..
  rw [happend]
  refine Run.exec_invariant (I := fun s : Session ω => (after E l w pre).history <+: s.history) ?_
    (List.prefix_refl _) rest
  intro s a hs
  refine hs.trans ?_
  cases s.move_step a with
  | elsewhere hlock hopened hevents hhistory =>
      rw [hhistory]
  | performed msg c horigin hpermitted hlock hopened hevents hhistory =>
      rw [hhistory]
      exact List.prefix_append _ _
  | returned msg tx hlock hopened hevents hhistory =>
      rw [hhistory]

/-! ### The outside -/

theorem Session.outside_perform (h : s.perform E msg c = some s') : s'.outside = s.outside := by
  unfold Session.perform at h
  split at h
  · cases h
  · obtain rfl := Option.some.inj h
    rfl

theorem Session.outside_finish (h : s.finish E = some s') : s'.outside = s.outside := by
  unfold Session.finish at h
  split at h
  · cases h
  · split at h
    · obtain rfl := Option.some.inj h
      rfl
    · cases h

/-- A call that goes out is that of the innermost execution. -/
theorem Session.outside_enter (h : s.enter E = some s') : s'.outside = s.outside ∨
    ∃ x outer, s.executions = x :: outer ∧
      E.receive { x.msg with sender := E.self } x.tx.target x.tx.value (x.tx.callData E.evm)
        s.outside = .ok s'.outside := by
  unfold Session.enter at h
  split at h
  · cases h
  · rename_i x outer hexecutions
    split at h
    · cases h
    · dsimp only at h
      split at h
      · split at h
        · split at h
          · have hsame := outside_perform h
            exact .inl hsame
          · cases h
        · split at h
          · obtain rfl := Option.some.inj h
            exact .inl rfl
          · cases h
      · split at h
        · rename_i w hreceive
          obtain rfl := Option.some.inj h
          exact .inr ⟨x, outer, hexecutions, hreceive⟩
        · cases h

/-- The ways a step can change the outside. -/
theorem Session.outside_step (s : Session ω) (a : Action E) : (s.step E a).outside = s.outside ∨
    (∃ m, a = .move m ∧ (s.step E a).outside = E.move s.outside m) ∨
    a = .enter ∧ ∃ x outer, s.executions = x :: outer ∧
      E.receive { x.msg with sender := E.self } x.tx.target x.tx.value (x.tx.callData E.evm)
        s.outside = .ok (s.step E a).outside := by
  cases a with
  | call msg c hself hzero =>
      left
      show ((s.perform E msg c).getD s).outside = s.outside
      cases hperform : s.perform E msg c with
      | none => rfl
      | some s' => exact outside_perform hperform
  | move m => exact .inr (.inl ⟨m, rfl, rfl⟩)
  | enter =>
      cases henter : s.enter E with
      | none =>
          left
          show ((s.enter E).getD s).outside = s.outside
          rw [henter]
          rfl
      | some s' =>
          have hstep : s.step E .enter = s' := by
            show (s.enter E).getD s = s'
            rw [henter]
            rfl
          rw [hstep]
          rcases outside_enter henter with hsame | hreceive
          · exact .inl hsame
          · exact .inr (.inr ⟨rfl, hreceive⟩)
  | returns =>
      left
      show ((s.finish E).getD s).outside = s.outside
      cases hfinish : s.finish E with
      | none => rfl
      | some s' => exact outside_finish hfinish

end Steps

end Timelock

end Dione.Contracts
