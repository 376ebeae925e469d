/-
  Dione.Lib.Run

  Runs of a deterministic system: a step function `σ → ε → σ` folded over a
  list of events.  Nothing here knows what the states and events are.

  The rules are the ones safety arguments are made of:

    * `exec_invariant`: what every step keeps, every run keeps;
    * `always_of_stepsMeet`: the same when only the steps of *this* run are
      known to behave;
    * `always_iff_stepsMeet`: when, in addition, a misbehaving step is visible
      in the very next state, "every state of the run is good" and "every step
      of the run behaves" are the same statement (`…_of_valid`: given what the
      environment promises);
    * `stepsMeet_congr`: what a run asks of its steps may be restated under an
      invariant;
    * `related_iff_stepsRelated`: for a preorder on states, two states of a run
      are related in time order iff consecutive ones are;
    * `exec_simulates`: two systems that take the same events side by side;
    * `SomeStep.concat`, `someStep_last`: what has happened at some step of a run;
    * `outputs_invariant`: what the steps of a run have put out, step by step.
-/

import Mathlib.Data.List.Infix

namespace Dione.Run

variable {σ ε : Type*} (step : σ → ε → σ)

/-- The state reached from `s` by the events `evs`, oldest first. -/
def exec (s : σ) (evs : List ε) : σ := evs.foldl step s

@[simp] theorem exec_nil (s : σ) : exec step s [] = s := rfl

@[simp] theorem exec_cons (s : σ) (e : ε) (evs : List ε) :
    exec step s (e :: evs) = exec step (step s e) evs := rfl

theorem exec_append (s : σ) (xs ys : List ε) :
    exec step s (xs ++ ys) = exec step (exec step s xs) ys :=
  List.foldl_append

theorem exec_concat (s : σ) (evs : List ε) (e : ε) :
    exec step s (evs ++ [e]) = step (exec step s evs) e := by
  rw [exec_append, exec_cons, exec_nil]

/-- `P` holds in every state the run passes through, first and last included. -/
def Always (s : σ) (evs : List ε) (P : σ → Prop) : Prop :=
  ∀ pre, pre <+: evs → P (exec step s pre)

/-- Every step of the run meets `ok` in the state it is taken from. -/
def StepsMeet (s : σ) (evs : List ε) (ok : σ → ε → Prop) : Prop :=
  ∀ pre e, pre ++ [e] <+: evs → ok (exec step s pre) e

/-- Some step of the run meets `P` in the state it is taken from. -/
def SomeStep (s : σ) (evs : List ε) (P : σ → ε → Prop) : Prop :=
  ∃ pre e, pre ++ [e] <+: evs ∧ P (exec step s pre) e

/-- What the steps of the run put out, in order. -/
def outputs {ω : Type*} (out : σ → ε → List ω) : σ → List ε → List ω
  | _, [] => []
  | s, e :: evs => out s e ++ outputs out (step s e) evs

theorem outputs_append {ω : Type*} (out : σ → ε → List ω) (s : σ) (xs ys : List ε) :
    outputs step out s (xs ++ ys)
      = outputs step out s xs ++ outputs step out (exec step s xs) ys := by
  induction xs generalizing s with
  | nil => rfl
  | cons e xs ih => rw [List.cons_append, outputs, outputs, ih, List.append_assoc, exec_cons]

theorem outputs_concat {ω : Type*} (out : σ → ε → List ω) (s : σ) (evs : List ε) (e : ε) :
    outputs step out s (evs ++ [e]) = outputs step out s evs ++ out (exec step s evs) e := by
  rw [outputs_append, outputs, outputs, List.append_nil]

variable {step}

theorem Always.final {s : σ} {evs : List ε} {P : σ → Prop}
    (h : Always step s evs P) : P (exec step s evs) :=
  h evs (List.prefix_refl evs)

theorem stepsMeet_nil {s : σ} {ok : σ → ε → Prop} : StepsMeet step s [] ok := by
  intro pre e hpre
  simp at hpre

theorem stepsMeet_cons {s : σ} {e : ε} {evs : List ε} {ok : σ → ε → Prop} :
    StepsMeet step s (e :: evs) ok ↔ ok s e ∧ StepsMeet step (step s e) evs ok := by
  constructor
  · intro h
    refine ⟨h [] e (by simp), ?_⟩
    intro pre f hpre
    exact h (e :: pre) f (by simpa using hpre)
  · rintro ⟨he, htl⟩ pre f hpre
    cases pre with
    | nil =>
        have hf : f = e := by simpa using hpre
        exact hf ▸ he
    | cons g pre =>
        have hsplit : g = e ∧ pre ++ [f] <+: evs := by simpa using hpre
        obtain ⟨rfl, hrest⟩ := hsplit
        exact htl pre f hrest

theorem stepsMeet_of_forall {s : σ} {evs : List ε} {ok : ε → Prop} (h : ∀ e ∈ evs, ok e) :
    StepsMeet step s evs fun _ e => ok e :=
  fun _ e hpre => h e (hpre.mem (by simp))

theorem always_cons {s : σ} {e : ε} {evs : List ε} {P : σ → Prop} :
    Always step s (e :: evs) P ↔ P s ∧ Always step (step s e) evs P := by
  constructor
  · intro h
    refine ⟨h [] (by simp), ?_⟩
    intro pre hpre
    exact h (e :: pre) (by simpa using hpre)
  · rintro ⟨hs, htl⟩ pre hpre
    cases pre with
    | nil => exact hs
    | cons g pre =>
        have hsplit : g = e ∧ pre <+: evs := by simpa using hpre
        obtain ⟨rfl, hrest⟩ := hsplit
        exact htl pre hrest

/-! ## Invariant rules -/

theorem exec_invariant {I : σ → Prop} (hstep : ∀ s e, I s → I (step s e))
    {s : σ} (h0 : I s) (evs : List ε) : I (exec step s evs) := by
  induction evs generalizing s with
  | nil => exact h0
  | cons e evs ih => exact ih (hstep s e h0)

/-- What holds of the state and of everything put out so far. -/
theorem outputs_invariant {ω : Type*} {out : σ → ε → List ω} {I : σ → List ω → Prop}
    (hstep : ∀ s log e, I s log → I (step s e) (log ++ out s e)) {s : σ} (h0 : I s [])
    (evs : List ε) : I (exec step s evs) (outputs step out s evs) := by
  induction evs using List.reverseRecOn with
  | nil => exact h0
  | append_singleton evs e ih =>
      rw [exec_concat, outputs_concat]
      exact hstep _ _ e ih

theorem SomeStep.concat {s : σ} {evs : List ε} {P : σ → ε → Prop} (h : SomeStep step s evs P)
    (e : ε) : SomeStep step s (evs ++ [e]) P := by
  obtain ⟨pre, f, hpre, hf⟩ := h
  exact ⟨pre, f, hpre.trans (List.prefix_append evs [e]), hf⟩

theorem someStep_last {s : σ} {evs : List ε} {P : σ → ε → Prop} {e : ε}
    (h : P (exec step s evs) e) : SomeStep step s (evs ++ [e]) P :=
  ⟨evs, e, List.prefix_refl _, h⟩

/-- Two systems stay related along the same events, as far as single steps of `ok`
    events keep them related. -/
theorem exec_simulates {τ : Type*} {step' : τ → ε → τ} {R : σ → τ → Prop} {ok : ε → Prop}
    (hstep : ∀ s t e, ok e → R s t → R (step s e) (step' t e)) {s : σ} {t : τ} (h0 : R s t)
    {evs : List ε} (hok : ∀ e ∈ evs, ok e) : R (exec step s evs) (exec step' t evs) := by
  induction evs generalizing s t with
  | nil => exact h0
  | cons e evs ih =>
      obtain ⟨he, hevs⟩ := List.forall_mem_cons.mp hok
      exact ih (hstep s t e he h0) hevs

theorem always_of_stepsMeet {I : σ → Prop} {ok : σ → ε → Prop}
    (hstep : ∀ s e, I s → ok s e → I (step s e))
    {s : σ} (h0 : I s) {evs : List ε} (hok : StepsMeet step s evs ok) :
    Always step s evs I := by
  induction evs generalizing s with
  | nil =>
      intro pre hpre
      rw [List.prefix_nil.mp hpre]
      exact h0
  | cons e evs ih =>
      rw [stepsMeet_cons] at hok
      exact always_cons.mpr ⟨h0, ih (hstep s e h0 hok.1) hok.2⟩

/-- A run is good throughout iff its steps all behave, provided behaving steps
    keep an invariant that implies `Good` and a step that does not behave shows
    in the state right after it.  Of the steps only what the environment promises,
    `valid`, is known. -/
theorem always_iff_stepsMeet_of_valid {I Good : σ → Prop} {valid ok : σ → ε → Prop}
    (hgood : ∀ s, I s → Good s)
    (hstep : ∀ s e, I s → valid s e → ok s e → I (step s e))
    (hbad : ∀ s e, I s → valid s e → ¬ ok s e → ¬ Good (step s e))
    {s : σ} (h0 : I s) {evs : List ε} (hvalid : StepsMeet step s evs valid) :
    Always step s evs Good ↔ StepsMeet step s evs ok := by
  constructor
  · intro h
    induction evs generalizing s with
    | nil => exact stepsMeet_nil
    | cons e evs ih =>
        rw [always_cons] at h
        obtain ⟨hv, hvs⟩ := stepsMeet_cons.mp hvalid
        have hok : ok s e := by
          by_contra hno
          exact hbad s e h0 hv hno (h.2 [] (by simp))
        exact stepsMeet_cons.mpr ⟨hok, ih (hstep s e h0 hv hok) hvs h.2⟩
  · intro hok pre hpre
    have hboth : StepsMeet step s evs (fun s e => valid s e ∧ ok s e) := by
      intro p e hp
      exact ⟨hvalid p e hp, hok p e hp⟩
    refine hgood _ (always_of_stepsMeet ?_ h0 hboth pre hpre)
    rintro s e hI ⟨hv, hok⟩
    exact hstep s e hI hv hok

/-- The same for steps of which nothing is promised. -/
theorem always_iff_stepsMeet {I Good : σ → Prop} {ok : σ → ε → Prop}
    (hgood : ∀ s, I s → Good s)
    (hstep : ∀ s e, I s → ok s e → I (step s e))
    (hbad : ∀ s e, I s → ¬ ok s e → ¬ Good (step s e))
    {s : σ} (h0 : I s) (evs : List ε) :
    Always step s evs Good ↔ StepsMeet step s evs ok := by
  have hvalid : StepsMeet step s evs (fun _ _ => True) := fun _ _ _ => trivial
  exact always_iff_stepsMeet_of_valid hgood (fun s e hI _ => hstep s e hI)
    (fun s e hI _ => hbad s e hI) h0 hvalid

/-- Two conditions that agree wherever `I` holds are met by the same runs through `I`. -/
theorem stepsMeet_congr {I : σ → Prop} {ok ok' : σ → ε → Prop} {s : σ} {evs : List ε}
    (hI : Always step s evs I) (hiff : ∀ s e, I s → (ok s e ↔ ok' s e)) :
    StepsMeet step s evs ok ↔ StepsMeet step s evs ok' := by
  have hat : ∀ pre e, pre ++ [e] <+: evs → I (exec step s pre) := fun pre e hpre =>
    hI pre ((List.prefix_append pre [e]).trans hpre)
  constructor
  · intro h pre e hpre
    exact (hiff _ e (hat pre e hpre)).mp (h pre e hpre)
  · intro h pre e hpre
    exact (hiff _ e (hat pre e hpre)).mpr (h pre e hpre)

/-- For a reflexive and transitive `R`: every earlier state of the run is
    related to every later one iff each step relates its two ends. -/
theorem related_iff_stepsRelated {R : σ → σ → Prop} (hrefl : ∀ s, R s s)
    (htrans : ∀ s t u, R s t → R t u → R s u) {s : σ} {evs : List ε} :
    (∀ p q, p <+: q → q <+: evs → R (exec step s p) (exec step s q)) ↔
      StepsMeet step s evs (fun t e => R t (step t e)) := by
  constructor
  · intro h pre e hpre
    have hr := h pre (pre ++ [e]) (List.prefix_append pre [e]) hpre
    rwa [exec_concat] at hr
  · rintro h p q ⟨d, rfl⟩ hq
    -- Induction on the events between the two states, last one first.
    induction d using List.reverseRecOn with
    | nil =>
        rw [List.append_nil]
        exact hrefl _
    | append_singleton d e ih =>
        rw [← List.append_assoc] at hq ⊢
        have hd : p ++ d <+: evs := (List.prefix_append (p ++ d) [e]).trans hq
        have hlast := h (p ++ d) e hq
        rw [exec_concat]
        exact htrans _ _ _ (ih hd) hlast

end Dione.Run
