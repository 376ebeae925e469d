/-
  Dione.Lib.ExpBound

  Comparisons of `A(t) * exp t` with `q(t)` on an interval, for polynomials `A` and `q` with
  integer coefficients.  The exponential is replaced by its Taylor sum, from below, or by
  the sum and twice the next term, from above; what is left is a polynomial that
  `Bernstein.check` shows to be positive.
-/

import Dione.Lib.Bernstein
import Mathlib.Analysis.Complex.Exponential

namespace Dione.ExpBound

open Bernstein

/-- The Taylor polynomial of order `n`, times `n!` and with `c` as its highest coefficient, in
    front of the coefficients `p`. -/
def taylorFrom : ℕ → ℤ → List ℤ → List ℤ
  | 0, c, p => c :: p
  | n + 1, c, p => taylorFrom n (c * (n + 1 : ℕ)) (c :: p)

/-- The Taylor polynomial of order `n` times `n!`. -/
def taylor (n : ℕ) : List ℤ := taylorFrom n 1 []

theorem length_taylorFrom (n : ℕ) (c : ℤ) (p : List ℤ) :
    (taylorFrom n c p).length = n + 1 + p.length := by
  induction n generalizing c p with
  | zero => rw [taylorFrom, List.length_cons, zero_add, add_comm]
  | succ n ih =>
      rw [taylorFrom, ih, List.length_cons]
      omega

theorem length_taylor (n : ℕ) : (taylor n).length = n + 1 :=
  length_taylorFrom n 1 []

theorem eval_taylorFrom (t : ℝ) (n : ℕ) (c : ℤ) (p : List ℤ) :
    eval t (taylorFrom n c p)
      = c * (n.factorial * ∑ i ∈ Finset.range (n + 1), t ^ i / i.factorial)
        + t ^ (n + 1) * eval t p := by
  induction n generalizing c p with
  | zero => simp [taylorFrom]
  | succ n ih =>
      have hfact : ((n + 1).factorial : ℝ) ≠ 0 := Nat.cast_ne_zero.2 (Nat.factorial_ne_zero _)
      rw [taylorFrom, ih, eval_cons, Finset.sum_range_succ _ (n + 1), mul_add _ _ (t ^ _ / _),
        mul_div_cancel₀ _ hfact, Nat.factorial_succ]
      push_cast
      ring

theorem eval_taylor (t : ℝ) (n : ℕ) :
    eval t (taylor n) = n.factorial * ∑ i ∈ Finset.range (n + 1), t ^ i / i.factorial := by
  rw [taylor, eval_taylorFrom, eval_nil, mul_zero, add_zero, Int.cast_one, one_mul]

/-- The exponential is at most the sum and twice the next term. -/
theorem exp_le_sum_add {t : ℝ} {n : ℕ} (ht : 0 ≤ t) (hn : t ≤ (n + 1) / 2) :
    Real.exp t ≤ ∑ i ∈ Finset.range n, t ^ i / i.factorial + t ^ n / n.factorial * 2 := by
  have hnorm : ‖(t : ℂ)‖ = t := by
    rw [Complex.norm_real, Real.norm_of_nonneg ht]
  have hsmall : ‖(t : ℂ)‖ / n.succ ≤ 1 / 2 := by
    rw [hnorm, div_le_iff₀ (by positivity)]
    push_cast
    linarith
  have hbound := Complex.exp_bound' hsmall
  have hreal : Complex.exp t - ∑ i ∈ Finset.range n, (t : ℂ) ^ i / i.factorial
      = ((Real.exp t - ∑ i ∈ Finset.range n, t ^ i / i.factorial : ℝ) : ℂ) := by
    push_cast
    rfl
  rw [hreal, Complex.norm_real, hnorm] at hbound
  have hle := (le_abs_self _).trans hbound
  linarith

/-! ## The two comparisons -/

/-- Positive where `q < A * exp`: `A` times the sum, minus `q`. -/
def below (n : ℕ) (A q : List ℤ) : List ℤ :=
  add (mul A (taylor n)) (scale (-(n.factorial : ℤ)) q)

/-- Positive where `A * exp < q`: `q` minus `A` times the sum and twice the next term. -/
def above (n : ℕ) (A q : List ℤ) : List ℤ :=
  add (scale ((n + 1).factorial : ℤ) q)
    (scale (-1) (mul A (scale ((n + 1 : ℕ) : ℤ) (taylor n) ++ [2])))

section Comparisons

variable {A q : List ℤ} {n : ℕ} {t : ℝ}

theorem eval_below :
    eval t (below n A q) = n.factorial
      * (eval t A * ∑ i ∈ Finset.range (n + 1), t ^ i / i.factorial - eval t q) := by
  rw [below, eval_add, eval_mul, eval_scale, eval_taylor]
  push_cast
  ring

theorem eval_above :
    eval t (above n A q) = (n + 1).factorial
      * (eval t q - eval t A * (∑ i ∈ Finset.range (n + 1), t ^ i / i.factorial
          + t ^ (n + 1) / (n + 1).factorial * 2)) := by
  have hfact : ((n + 1).factorial : ℝ) ≠ 0 := Nat.cast_ne_zero.2 (Nat.factorial_ne_zero _)
  have hnext : ((n + 1).factorial : ℝ) * (t ^ (n + 1) / (n + 1).factorial * 2)
      = t ^ (n + 1) * 2 := by
    field_simp
  have hsum : eval t (scale ((n + 1 : ℕ) : ℤ) (taylor n) ++ [2])
      = (n + 1).factorial * (∑ i ∈ Finset.range (n + 1), t ^ i / i.factorial
          + t ^ (n + 1) / (n + 1).factorial * 2) := by
    rw [mul_add, hnext, eval_append, eval_scale, eval_taylor, length_scale, length_taylor,
      eval_cons, eval_nil, Nat.factorial_succ]
    push_cast
    ring
  rw [above, eval_add, eval_scale, eval_scale, eval_mul, hsum]
  push_cast
  ring

theorem lt_mul_exp (ht : 0 ≤ t) (hq : 0 ≤ eval t q) (h : 0 < eval t (below n A q)) :
    eval t q < eval t A * Real.exp t := by
  have hfact : (0 : ℝ) < n.factorial := Nat.cast_pos.2 (Nat.factorial_pos n)
  rw [eval_below, mul_pos_iff_of_pos_left hfact, sub_pos] at h
  have hsum := Real.sum_le_exp_of_nonneg ht (n + 1)
  have hterm : 0 ≤ ∑ i ∈ Finset.range (n + 1), t ^ i / (i.factorial : ℝ) :=
    Finset.sum_nonneg fun i _ => by positivity
  -- the sum is not negative, so `A` is not either
  have hA : 0 ≤ eval t A := by
    by_contra hneg
    have := mul_nonpos_of_nonpos_of_nonneg (not_le.1 hneg).le hterm
    linarith
  exact h.trans_le (mul_le_mul_of_nonneg_left hsum hA)

theorem mul_exp_lt (ht : 0 ≤ t) (hn : t ≤ (n + 2) / 2) (hq : 0 < eval t q)
    (h : 0 < eval t (above n A q)) : eval t A * Real.exp t < eval t q := by
  have hfact : (0 : ℝ) < (n + 1).factorial := Nat.cast_pos.2 (Nat.factorial_pos _)
  rw [eval_above, mul_pos_iff_of_pos_left hfact, sub_pos] at h
  have hsum := exp_le_sum_add (n := n + 1) ht (by push_cast; linarith)
  rcases le_total 0 (eval t A) with hA | hA
  · exact (mul_le_mul_of_nonneg_left hsum hA).trans_lt h
  · exact (mul_nonpos_of_nonpos_of_nonneg hA (Real.exp_pos t).le).trans_lt hq

variable {d : ℕ} {a b : ℤ} {m : ℕ}

theorem lt_mul_exp_of_check (h : check d a b m (below n A q) = true) (hd : 0 < d)
    (ha : a ≤ d * t) (hb : d * t < b) (ht : 0 ≤ t) (hq : 0 ≤ eval t q) :
    eval t q < eval t A * Real.exp t :=
  lt_mul_exp ht hq (eval_pos_of_check h hd ha hb)

theorem mul_exp_lt_of_check (h : check d a b m (above n A q) = true) (hd : 0 < d)
    (ha : a ≤ d * t) (hb : d * t < b) (ht : 0 ≤ t) (hn : t ≤ (n + 2) / 2) (hq : 0 < eval t q) :
    eval t A * Real.exp t < eval t q :=
  mul_exp_lt ht hn hq (eval_pos_of_check h hd ha hb)

end Comparisons

end Dione.ExpBound
