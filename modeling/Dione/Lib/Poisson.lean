/-
  Dione.Lib.Poisson

  Counts drawn from a Poisson distribution by comparing an evenly drawn number with
  thresholds, where the thresholds are computed with errors and there are only finitely
  many of them.

  The mean of such a count is the sum of its thresholds (`sum_count_lt`).  With exact
  tails as thresholds it is the rate up to what the missing ones would add
  (`abs_sum_tail_sub_le`), and errors in the masses move it by a multiple of the error
  (`Follows.abs_sum_max_sub_le`).
-/

import Dione.Lib.ExpBound
import Mathlib.Data.Nat.Count
import Mathlib.Algebra.Order.BigOperators.Group.Finset
import Mathlib.Tactic.Positivity

namespace Dione.Poisson

open Finset

/-- The probability of `k` events at the rate `t`. -/
noncomputable def mass (t : ℝ) (k : ℕ) : ℝ := Real.exp (-t) * (t ^ k / k.factorial)

/-- The probability of `n` events or more. -/
noncomputable def tail (t : ℝ) (n : ℕ) : ℝ := 1 - ∑ k ∈ range n, mass t k

/-! ## Tails -/

section Tails

variable {t : ℝ} {n : ℕ}

theorem mass_succ (t : ℝ) (k : ℕ) : mass t (k + 1) = t / (k + 1) * mass t k := by
  rw [mass, mass, pow_succ, Nat.factorial_succ, Nat.cast_mul, Nat.cast_succ]
  field_simp

theorem tail_succ (t : ℝ) (n : ℕ) : tail t (n + 1) = tail t n - mass t n := by
  rw [tail, tail, sum_range_succ]
  ring

/-- The first tails, summed up from the second on. -/
theorem sum_tail (t : ℝ) (n : ℕ) :
    ∑ k ∈ range (n + 1), tail t (k + 1) = (n + 1) * tail t (n + 1) + t * (1 - tail t n) := by
  induction n with
  | zero => simp [tail]
  | succ n ih =>
      rw [sum_range_succ, ih, tail_succ t (n + 1), tail_succ t n, mass_succ]
      push_cast
      field_simp
      ring

theorem sum_mass (t : ℝ) (n : ℕ) :
    ∑ k ∈ range n, mass t k = Real.exp (-t) * ∑ k ∈ range n, t ^ k / k.factorial :=
  (mul_sum ..).symm

theorem tail_nonneg (ht : 0 ≤ t) : 0 ≤ tail t n := by
  have hsum := Real.sum_le_exp_of_nonneg ht n
  have hmul := mul_le_mul_of_nonneg_left hsum (Real.exp_nonneg (-t))
  rw [← Real.exp_add, neg_add_cancel, Real.exp_zero, ← sum_mass] at hmul
  exact sub_nonneg.mpr hmul

theorem tail_le (ht : 0 ≤ t) (hn : t ≤ (n + 1) / 2) : tail t n ≤ t ^ n / n.factorial * 2 := by
  have hexp := ExpBound.exp_le_sum_add ht hn
  have hmul := mul_le_mul_of_nonneg_left hexp (Real.exp_nonneg (-t))
  rw [← Real.exp_add, neg_add_cancel, Real.exp_zero, mul_add, ← sum_mass] at hmul
  have hrest : 0 ≤ t ^ n / n.factorial * 2 := by positivity
  have hone : Real.exp (-t) ≤ 1 := Real.exp_le_one_iff.mpr (neg_nonpos.mpr ht)
  have hcut := mul_le_mul_of_nonneg_right hone hrest
  rw [tail]
  linarith

/-- Events are counted up to `n + 1` only; that lowers their mean by no more than this. -/
theorem abs_sum_tail_sub_le (ht : 0 ≤ t) (hn : t ≤ (n + 1) / 2) :
    |∑ k ∈ range (n + 1), tail t (k + 1) - t| ≤ t ^ (n + 1) / n.factorial * 2 := by
  have hlast : (n + 1) * tail t (n + 1) ≤ t ^ (n + 1) / n.factorial * 2 := by
    have hle : tail t (n + 1) ≤ t ^ (n + 1) / (n + 1).factorial * 2 :=
      tail_le ht (hn.trans (by push_cast; linarith))
    calc (n + 1) * tail t (n + 1)
        ≤ (n + 1) * (t ^ (n + 1) / (n + 1).factorial * 2) :=
          mul_le_mul_of_nonneg_left hle (by positivity)
      _ = t ^ (n + 1) / n.factorial * 2 := by
          rw [Nat.factorial_succ, Nat.cast_mul, Nat.cast_succ]
          field_simp
  have hfirst : t * tail t n ≤ t ^ (n + 1) / n.factorial * 2 := by
    calc t * tail t n ≤ t * (t ^ n / n.factorial * 2) :=
          mul_le_mul_of_nonneg_left (tail_le ht hn) ht
      _ = t ^ (n + 1) / n.factorial * 2 := by ring
  have hlast0 : 0 ≤ (n + 1) * tail t (n + 1) := mul_nonneg (by positivity) (tail_nonneg ht)
  have hfirst0 : 0 ≤ t * tail t n := mul_nonneg ht (tail_nonneg ht)
  rw [sum_tail, abs_le]
  constructor
  · linarith
  · linarith

end Tails

/-! ## Errors -/

/-- The first `n` of `q` are computed like the masses at the rate `t`, each with an error
    of at most `ε`. -/
structure Follows (t ε : ℝ) (n : ℕ) (q : ℕ → ℝ) : Prop where
  first : |q 0 - Real.exp (-t)| ≤ ε
  next : ∀ k, k + 1 < n → |q (k + 1) - t / (k + 1) * q k| ≤ ε

section Follows

variable {t ε : ℝ} {n : ℕ} {q : ℕ → ℝ}

theorem abs_sum_range_le {f : ℕ → ℝ} {b : ℝ} (h : ∀ k < n, |f k| ≤ b) :
    |∑ k ∈ range n, f k| ≤ n * b := by
  calc |∑ k ∈ range n, f k| ≤ ∑ k ∈ range n, |f k| := abs_sum_le_sum_abs _ _
    _ ≤ ∑ _k ∈ range n, b := sum_le_sum fun k hk => h k (mem_range.mp hk)
    _ = n * b := by rw [sum_const, card_range, nsmul_eq_mul]

/-- An error `e` becomes `2 * e / (k + 1) + ε`. -/
theorem Follows.error_succ (h : Follows t ε n q) (ht : 0 ≤ t) (ht2 : t ≤ 2) {k : ℕ} {e : ℝ}
    (hk : k + 1 < n) (he : |q k - mass t k| ≤ e) :
    |q (k + 1) - mass t (k + 1)| ≤ 2 / (k + 1) * e + ε := by
  have hsplit : q (k + 1) - mass t (k + 1)
      = t / (k + 1) * (q k - mass t k) + (q (k + 1) - t / (k + 1) * q k) := by
    rw [mass_succ]
    ring
  have hrate : |t / (k + 1)| ≤ 2 / (k + 1) := by
    rw [abs_of_nonneg (by positivity)]
    gcongr
  rw [hsplit]
  apply (abs_add_le _ _).trans
  apply add_le_add ?_ (h.next k hk)
  rw [abs_mul]
  exact mul_le_mul hrate he (abs_nonneg _) (by positivity)

/-- At a rate of at most two the errors do not add up. -/
theorem Follows.error_le (h : Follows t ε n q) (ht : 0 ≤ t) (ht2 : t ≤ 2) {k : ℕ} (hk : k < n) :
    |q k - mass t k| ≤ 4 * ε := by
  have hε : 0 ≤ ε := (abs_nonneg _).trans h.first
  have hzero : |q 0 - mass t 0| ≤ ε := by
    have hmass : mass t 0 = Real.exp (-t) := by simp [mass]
    rw [hmass]
    exact h.first
  match k with
  | 0 => linarith
  | 1 =>
      have hone := h.error_succ ht ht2 hk hzero
      norm_num at hone
      linarith
  | k + 2 =>
      -- from the third mass on the old error is divided by more than it is multiplied with
      induction k with
      | zero =>
          have hone := h.error_succ ht ht2 (by omega) hzero
          have htwo := h.error_succ ht ht2 hk hone
          norm_num at htwo
          linarith
      | succ k ih =>
          have hthird : 2 / (((k + 2 : ℕ) : ℝ) + 1) ≤ 2 / 3 := by
            apply div_le_div_of_nonneg_left (by norm_num) (by norm_num)
            push_cast
            linarith [(Nat.cast_nonneg k : (0 : ℝ) ≤ k)]
          have hmul := mul_le_mul_of_nonneg_right hthird (mul_nonneg zero_le_four hε)
          linarith [h.error_succ ht ht2 hk (ih (by omega))]

/-- What the computed masses leave of 1 is close to the tails. -/
theorem Follows.abs_sum_max_sub_le (h : Follows t ε n q) (ht : 0 ≤ t) (ht2 : t ≤ 2) :
    |∑ k ∈ range n, max (1 - ∑ i ∈ range (k + 1), q i) 0 - ∑ k ∈ range n, tail t (k + 1)|
      ≤ n * (n * (4 * ε)) := by
  rw [← sum_sub_distrib]
  apply abs_sum_range_le
  intro k hk
  have hε : 0 ≤ 4 * ε := (abs_nonneg _).trans (h.error_le ht ht2 hk)
  calc |max (1 - ∑ i ∈ range (k + 1), q i) 0 - tail t (k + 1)|
      = |max (1 - ∑ i ∈ range (k + 1), q i) 0 - max (tail t (k + 1)) 0| := by
        rw [max_eq_left (tail_nonneg ht)]
    _ ≤ |1 - ∑ i ∈ range (k + 1), q i - tail t (k + 1)| := abs_max_sub_max_le_abs _ _ _
    _ = |∑ i ∈ range (k + 1), (q i - mass t i)| := by
        rw [tail, sum_sub_distrib, ← abs_neg]
        ring_nf
    _ ≤ (k + 1 : ℕ) * (4 * ε) := abs_sum_range_le fun i hi => h.error_le ht ht2 (by omega)
    _ ≤ n * (4 * ε) := by gcongr; omega

end Follows

/-! ## Thresholds -/

/-- A number below `N` that is drawn evenly beats the thresholds `c` this often on average. -/
theorem sum_count_lt {N n : ℕ} {c : ℕ → ℤ} (hc : ∀ k < n, c k ≤ N) :
    ∑ d ∈ range N, ((Nat.count (fun k => (d : ℤ) < c k) n : ℕ) : ℝ)
      = ∑ k ∈ range n, max (c k : ℝ) 0 := by
  have hbelow : ∀ k ∈ range n,
      (filter (fun d : ℕ => (d : ℤ) < c k) (range N)).card = (c k).toNat := by
    intro k hk
    have hle := hc k (mem_range.mp hk)
    have hrange : filter (fun d : ℕ => (d : ℤ) < c k) (range N) = range (c k).toNat := by
      ext d
      simp only [mem_filter, mem_range]
      omega
    rw [hrange, card_range]
  have hcount : ∑ d ∈ range N, Nat.count (fun k => (d : ℤ) < c k) n
      = ∑ k ∈ range n, (c k).toNat := by
    simp only [Nat.count_eq_card_filter_range, card_filter]
    rw [sum_comm]
    refine sum_congr rfl fun k hk => ?_
    rw [← card_filter]
    exact hbelow k hk
  rw [← Nat.cast_sum, hcount, Nat.cast_sum]
  refine sum_congr rfl fun k _ => ?_
  have htoNat : (((c k).toNat : ℤ) : ℝ) = ((max (c k) 0 : ℤ) : ℝ) := by rw [Int.toNat_eq_max]
  push_cast at htoNat
  exact htoNat
end Dione.Poisson
