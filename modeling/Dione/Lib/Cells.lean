/-
  Dione.Lib.Cells

  Programs that compute in mutable cells reached by pointers, and how they are
  compared with a computation on values.

  A store is the list of its cells and a pointer is a position: a new cell is added at
  the end, so the cells a program found are a prefix of the store it leaves iff it has
  written to none of them.  `Refines` says that a program ends as the computation on
  values does, with the same error or with related results; it goes through a program
  bind by bind.
-/

import Mathlib.Data.List.Infix

namespace Dione.Cells

variable {α β γ δ ε ζ : Type}

/-- Programs that may fail with an `ε`, over cells of type `α`. -/
abbrev Prog (ε α β : Type) := StateT (List α) (Except ε) β

/-- A new cell. -/
def alloc (v : α) : Prog ε α ℕ := fun cells => .ok (cells.length, cells ++ [v])

/-- What a cell holds; `dangling` if there is no such cell. -/
def load (dangling : ε) (ptr : ℕ) : Prog ε α α := fun cells =>
  match cells[ptr]? with
  | some v => .ok (v, cells)
  | none => .error dangling

/-- Write to a cell; the result is its pointer. -/
def store (ptr : ℕ) (v : α) : Prog ε α ℕ := fun cells => .ok (ptr, cells.set ptr v)

/-! ## Cells and the frame -/

section Frame

variable {base cells : List α} {ptr : ℕ} {v w : α}

theorem getElem?_extend (h : base <+: cells) (hv : base[ptr]? = some v) :
    cells[ptr]? = some v := by
  obtain ⟨new, rfl⟩ := h
  rw [List.getElem?_append_left (List.getElem?_eq_some_iff.mp hv).1]
  exact hv

theorem prefix_set (h : base <+: cells) (hptr : base.length ≤ ptr) (v : α) :
    base <+: cells.set ptr v := by
  obtain ⟨new, rfl⟩ := h
  rw [List.set_append_right _ _ hptr]
  exact List.prefix_append ..

theorem getElem?_set_of_ne {ptr' : ℕ} (hne : ptr ≠ ptr') (h : cells[ptr']? = some w) (v : α) :
    (cells.set ptr v)[ptr']? = some w := by
  rw [List.getElem?_set_ne hne]
  exact h

/-- A cell that holds `v` and was not among the cells `base`, which are as they were. -/
structure Fresh (base : List α) (v : α) (ptr : ℕ) (cells : List α) : Prop where
  frame : base <+: cells
  new : base.length ≤ ptr
  value : cells[ptr]? = some v

theorem Fresh.alloc (cells : List α) (v : α) : Fresh cells v cells.length (cells ++ [v]) :=
  ⟨List.prefix_append .., Nat.le_refl _, List.getElem?_concat_length⟩

theorem Fresh.store (h : Fresh base v ptr cells) (w : α) : Fresh base w ptr (cells.set ptr w) :=
  ⟨prefix_set h.frame h.new w, h.new,
    List.getElem?_set_self (List.getElem?_eq_some_iff.mp h.value).1⟩

/-- Another new cell is written to. -/
theorem Fresh.set_other (h : Fresh base v ptr cells) {ptr' : ℕ} (hnew : base.length ≤ ptr')
    (hne : ptr' ≠ ptr) (w : α) : Fresh base v ptr (cells.set ptr' w) :=
  ⟨prefix_set h.frame hnew w, h.new, getElem?_set_of_ne hne h.value w⟩

theorem Fresh.extend (h : Fresh base v ptr cells) {cells' : List α} (hext : cells <+: cells') :
    Fresh base v ptr cells' :=
  ⟨h.frame.trans hext, h.new, getElem?_extend hext h.value⟩

theorem Fresh.weaken {base' : List α} (h : Fresh base v ptr cells) (hbase : base' <+: base) :
    Fresh base' v ptr cells :=
  ⟨hbase.trans h.frame, hbase.length_le.trans h.new, h.value⟩

theorem Fresh.old (h : Fresh base v ptr cells) {ptr' : ℕ} (hold : base[ptr']? = some w) :
    cells[ptr']? = some w ∧ ptr ≠ ptr' := by
  refine ⟨getElem?_extend h.frame hold, ?_⟩
  have hlt := (List.getElem?_eq_some_iff.mp hold).1
  have hnew := h.new
  omega

end Frame

/-! ## Refinement -/

/-- The run of a program ends as the computation `spec` does. -/
def Refines (spec : Except ε β) (run : Except ε (γ × List α)) (rel : β → γ → List α → Prop) :
    Prop :=
  match spec, run with
  | .ok b, .ok (c, cells) => rel b c cells
  | .error e, .error e' => e = e'
  | _, _ => False

section Refines

variable {spec : Except ε β} {prog : Prog ε α γ} {cells : List α} {rel : β → γ → List α → Prop}

theorem Refines.of_ok {b : β} {run : Except ε (γ × List α)} (h : Refines (.ok b) run rel) :
    ∃ c cells', run = .ok (c, cells') ∧ rel b c cells' := by
  match run, h with
  | .ok (c, cells'), h => exact ⟨c, cells', rfl, h⟩

theorem Refines.mono {run : Except ε (γ × List α)} {rel' : β → γ → List α → Prop}
    (h : Refines spec run rel) (himp : ∀ b c cells', rel b c cells' → rel' b c cells') :
    Refines spec run rel' := by
  match spec, run, h with
  | .ok b, .ok (c, cells'), h => exact himp b c cells' h
  | .error e, .error e', h => exact h

/-- A computation on values whose result goes to a store. -/
theorem Refines.map {f : β → γ × List α} (h : ∀ b, rel b (f b).1 (f b).2) :
    Refines spec (spec.map f) rel := by
  cases spec with
  | error e => rfl
  | ok b => exact h b

theorem run_bind {c : γ} {cells' : List α} (hprog : prog cells = .ok (c, cells'))
    (k : γ → Prog ε α ζ) : (prog >>= k) cells = k c cells' := by
  show (prog cells >>= fun r => k r.1 r.2) = _
  rw [hprog]
  rfl

theorem Refines.bind (h : Refines spec (prog cells) rel) {k : β → Except ε δ} {k' : γ → Prog ε α ζ}
    {rel' : δ → ζ → List α → Prop}
    (hk : ∀ b c cells', rel b c cells' → Refines (k b) (k' c cells') rel') :
    Refines (spec >>= k) ((prog >>= k') cells) rel' := by
  show Refines _ (prog cells >>= fun r => k' r.1 r.2) rel'
  match spec, prog cells, h with
  | .ok b, .ok (c, cells'), h => exact hk b c cells' h
  | .error e, .error e', h => exact h

end Refines

end Dione.Cells
