/-
  Dione.Election.Accuracy

  How far `expneg` is from the exponential.  Its comment promises an error below 4.6e-15
  on [0, 5) and below 3.4e-30 on [0, 1.725).

  The result is the quotient of two polynomials with all floors counted; the polynomials
  themselves are compared with the exponential by certificates (`ExpBound`).  The
  promise is kept up to an argument of 0.869..., broken up to 1.554..., kept up to
  4.983..., and broken up to 5.  What holds on the whole ranges is 5e-15 and 3.6e-30.
-/

import Dione.Election.Sequence
import Dione.Lib.ExpBound

namespace Dione.ElectionProof

open Bernstein ExpBound

/-! ## The quotient and its floors -/

/-- An argument in Q.256 as a real number. -/
noncomputable def arg (x : ℤ) : ℝ := x / 2 ^ 256

/-- The error of the result `e` for the argument `x`. -/
noncomputable def expnegError (x e : ℤ) : ℝ := e / 2 ^ 256 - Real.exp (-arg x)

/-- The numerator without floors, in Q.256. -/
noncomputable def num (t : ℝ) : ℝ := eval t expNumCoef.reverse

/-- The denominator without floors, in Q.256. -/
noncomputable def deno (t : ℝ) : ℝ := eval t expDenoCoef.reverse

/-- `e` is the floored quotient of `n` and `q`, and the floors have lowered each of them by
    at most `slack`. -/
structure Computed (t slack n q e : ℝ) : Prop where
  num_le : n ≤ num t
  le_num : num t ≤ n + slack
  deno_le : q ≤ deno t
  le_deno : deno t ≤ q + slack
  pos : 0 < q
  small : q ≤ slack * 2 ^ 256
  quot_le : e * q ≤ n * 2 ^ 256
  lt_quot : n * 2 ^ 256 < (e + 1) * q

theorem arg_nonneg {x : ℤ} (hx : 0 ≤ x) : 0 ≤ arg x :=
  div_nonneg (Int.cast_nonneg hx) (by positivity)

theorem mul_arg (d : ℝ) (x : ℤ) : d * arg x * 2 ^ 256 = d * x := by
  rw [arg]
  field_simp

theorem le_mul_arg {d : ℕ} {a x : ℤ} (h : a * 2 ^ 256 ≤ d * x) : (a : ℝ) ≤ d * arg x := by
  refine le_of_mul_le_mul_right ?_ (show (0 : ℝ) < 2 ^ 256 by positivity)
  rw [mul_arg]
  exact_mod_cast h

theorem mul_arg_lt {d : ℕ} {b x : ℤ} (h : d * x < b * 2 ^ 256) : (d : ℝ) * arg x < b := by
  refine lt_of_mul_lt_mul_right ?_ (show (0 : ℝ) ≤ 2 ^ 256 by positivity)
  rw [mul_arg]
  exact_mod_cast h

/-- The result for an argument of at most `b`, if `slack` is enough for the floors. -/
theorem computed_expneg {x e : ℤ} {b slack : ℕ} (hx : 0 ≤ x) (hxb : x ≤ b * 2 ^ 256)
    (he : expneg x = .ok e) (hnum : (Horner.Enclosure.ofCoefs b expNumCoef).error ≤ slack)
    (hdeno : (Horner.Enclosure.ofCoefs b expDenoCoef).error ≤ slack)
    (hsmall : polyval expDenoCoef (b * 2 ^ 256) ≤ slack * 2 ^ 256) :
    Computed (arg x) slack (polyval expNumCoef x) (polyval expDenoCoef x) e := by
  have hpos := polyval_expDenoCoef_pos hx
  have hx' : (x : ℝ) = arg x * 2 ^ precision := by
    have h := mul_arg 1 x
    rw [one_mul, one_mul] at h
    exact h.symm
  have htb : arg x ≤ b := by
    refine le_of_mul_le_mul_right ?_ (show (0 : ℝ) < 2 ^ 256 by positivity)
    exact hx'.symm.trans_le (by exact_mod_cast hxb)
  have hn := Horner.Enclosure.evalFixed_error hx' (arg_nonneg hx) htb expNumCoef
  have hq := Horner.Enclosure.evalFixed_error hx' (arg_nonneg hx) htb expDenoCoef
  rw [← polyval_eq_evalFixed, ← eval_reverse] at hn hq
  have hquot : e = polyval expNumCoef x * 2 ^ 256 / polyval expDenoCoef x := by
    rw [expneg, bigDiv_of_pos hpos] at he
    exact (Except.ok.inj he).symm
  refine ⟨hn.1, ?_, hq.1, ?_, by exact_mod_cast hpos, ?_, ?_, ?_⟩
  · exact hn.2.trans (add_le_add_right (by exact_mod_cast hnum) _)
  · exact hq.2.trans (add_le_add_right (by exact_mod_cast hdeno) _)
  · have hmono : polyval expDenoCoef x ≤ polyval expDenoCoef (b * 2 ^ 256) := by
      rw [polyval_eq_evalFixed, polyval_eq_evalFixed]
      exact Horner.evalFixed_mono expDenoCoef_nonneg hx hxb
    exact_mod_cast hmono.trans hsmall
  · rw [hquot]
    exact_mod_cast Int.ediv_mul_le _ hpos.ne'
  · rw [hquot]
    exact_mod_cast Int.lt_ediv_add_one_mul_self _ hpos

/-! ## From the polynomials to the error -/

/-- `k num - c deno + k h`.  The comparison of this times `exp t` with `k deno` says on which
    side of `c / k` the error is; `h` makes up for the floors. -/
def lead (k c h : ℤ) : List ℤ :=
  add (add (scale k expNumCoef.reverse) (scale (-c) expDenoCoef.reverse)) [k * h]

theorem eval_lead (t : ℝ) (k c h : ℤ) :
    eval t (lead k c h) = k * num t - c * deno t + k * h := by
  rw [lead, eval_add, eval_add, eval_scale, eval_scale, eval_cons, eval_nil, num, deno]
  push_cast
  ring

theorem eval_scale_deno (t : ℝ) (k : ℤ) :
    eval t (scale k expDenoCoef.reverse) = k * deno t := eval_scale t k _

section Error

variable {x e : ℤ} {slack n q : ℝ} {k c h : ℤ}

theorem Computed.slack_nonneg (hcomp : Computed (arg x) slack n q e) : 0 ≤ slack := by
  linarith [hcomp.num_le, hcomp.le_num]

theorem exp_neg_arg_le_one (hx : 0 ≤ x) : Real.exp (-arg x) ≤ 1 :=
  Real.exp_le_one_iff.2 (neg_nonpos.2 (arg_nonneg hx))

/-- The error is below `c / k`: the floored values, `n` and `q`, are on the same side as
    the exact ones. -/
theorem Computed.error_lt (hcomp : Computed (arg x) slack n q e) (hx : 0 ≤ x) (hk : 0 < k)
    (hck : c ≤ k) (hh : 4 * slack ≤ h)
    (hcmp : eval (arg x) (lead k c h) * Real.exp (arg x)
      < eval (arg x) (scale k expDenoCoef.reverse)) :
    expnegError x e < c / k := by
  have hk' : (0 : ℝ) < k := by exact_mod_cast hk
  have hck' : (c : ℝ) ≤ k := by exact_mod_cast hck
  have hexp := exp_neg_arg_le_one hx
  rw [eval_lead, eval_scale_deno, ← lt_div_iff₀ (Real.exp_pos _), div_eq_mul_inv, ← Real.exp_neg]
    at hcmp
  rw [expnegError, sub_lt_iff_lt_add, div_lt_iff₀ (by positivity)]
  generalize Real.exp (-arg x) = y at hcmp hexp ⊢
  have hky : k * y ≤ k := mul_le_of_le_one_right hk'.le hexp
  have hnum : k * n ≤ k * num (arg x) := mul_le_mul_of_nonneg_left hcomp.num_le hk'.le
  have hdeno : (c + k * y) * (deno (arg x) - q) ≤ (k + k) * slack :=
    mul_le_mul (add_le_add hck' hky) (by linarith [hcomp.le_deno])
      (sub_nonneg.2 hcomp.deno_le) (by positivity)
  have hfloors : k * (4 * slack) ≤ k * h := mul_le_mul_of_nonneg_left hh hk'.le
  have hslack : 0 ≤ k * slack := mul_nonneg hk'.le hcomp.slack_nonneg
  have hquot : k * n < (c + k * y) * q := by linarith
  have hscaled : n * 2 ^ 256 < (c / k + y) * q * 2 ^ 256 := by
    refine mul_lt_mul_of_pos_right ?_ (by positivity)
    rw [show (c / k + y) * q = (c + k * y) * q / k by field_simp, lt_div_iff₀' hk']
    exact hquot
  refine lt_of_mul_lt_mul_right ?_ hcomp.pos.le
  calc (e : ℝ) * q ≤ n * 2 ^ 256 := hcomp.quot_le
    _ < (c / k + y) * q * 2 ^ 256 := hscaled
    _ = (c / k + y) * 2 ^ 256 * q := by ring

/-- The error is above `c / k`. -/
theorem Computed.lt_error (hcomp : Computed (arg x) slack n q e) (hk : 0 < k) (hck : -k ≤ c)
    (hh : 4 * slack ≤ h)
    (hcmp : eval (arg x) (scale k expDenoCoef.reverse)
      < eval (arg x) (lead k c (-h)) * Real.exp (arg x)) :
    c / k < expnegError x e := by
  have hk' : (0 : ℝ) < k := by exact_mod_cast hk
  have hck' : -(k : ℝ) ≤ c := by exact_mod_cast hck
  have hexp := Real.exp_pos (-arg x)
  rw [eval_lead, eval_scale_deno, ← div_lt_iff₀ (Real.exp_pos _), div_eq_mul_inv, ← Real.exp_neg]
    at hcmp
  rw [expnegError, lt_sub_iff_add_lt, lt_div_iff₀ (by positivity)]
  generalize Real.exp (-arg x) = y at hcmp hexp ⊢
  push_cast at hcmp
  have hky : 0 ≤ k * y := by positivity
  have hnum : k * num (arg x) ≤ k * (n + slack) := mul_le_mul_of_nonneg_left hcomp.le_num hk'.le
  have hdeno : -(c + k * y) * (deno (arg x) - q) ≤ k * slack :=
    mul_le_mul (by linarith) (by linarith [hcomp.le_deno])
      (sub_nonneg.2 hcomp.deno_le) hk'.le
  have hfloors : k * (4 * slack) ≤ k * h := mul_le_mul_of_nonneg_left hh hk'.le
  have hslack : 0 ≤ k * slack := mul_nonneg hk'.le hcomp.slack_nonneg
  have hquot : (c + k * y) * q + k * slack < k * n := by linarith
  have hscaled : (c / k + y) * q * 2 ^ 256 + slack * 2 ^ 256 < n * 2 ^ 256 := by
    rw [← add_mul]
    refine mul_lt_mul_of_pos_right ?_ (by positivity)
    rw [show (c / k + y) * q + slack = ((c + k * y) * q + k * slack) / k by field_simp,
      div_lt_iff₀' hk']
    exact hquot
  refine lt_of_mul_lt_mul_right ?_ hcomp.pos.le
  have hsmall := hcomp.small
  have hlt := hcomp.lt_quot
  linarith

theorem Computed.eval_pos (hcomp : Computed (arg x) slack n q e) (hk : 0 < k) :
    0 < eval (arg x) (scale k expDenoCoef.reverse) := by
  rw [eval_scale_deno]
  exact mul_pos (by exact_mod_cast hk) (hcomp.pos.trans_le hcomp.deno_le)

end Error

/-! ## Certificates -/

/-- A comparison of the error with `c / k` for the arguments in `[a / d, b / d)`, by a Taylor
    sum up to the order `terms` and numbers with digits of `bits` bits. -/
structure Certificate where
  k : ℤ
  slack : ℕ
  terms : ℕ
  c : ℤ
  d : ℕ
  a : ℤ
  b : ℤ
  bits : ℕ

namespace Certificate

/-- What has to be computed for the error to be below `c / k`. -/
def Upper (r : Certificate) : Prop :=
  0 < r.k ∧ r.c ≤ r.k ∧ 0 < r.d ∧ check r.d r.a r.b r.bits
    (above r.terms (lead r.k r.c (4 * r.slack)) (scale r.k expDenoCoef.reverse)) = true

/-- What has to be computed for the error to be above `c / k`. -/
def Lower (r : Certificate) : Prop :=
  0 < r.k ∧ -r.k ≤ r.c ∧ 0 < r.d ∧ check r.d r.a r.b r.bits
    (below r.terms (lead r.k r.c (-(4 * r.slack))) (scale r.k expDenoCoef.reverse)) = true

instance (r : Certificate) : Decidable r.Upper := inferInstanceAs (Decidable (_ ∧ _))

instance (r : Certificate) : Decidable r.Lower := inferInstanceAs (Decidable (_ ∧ _))

variable {r : Certificate} {x e : ℤ} {n q : ℝ}

theorem Upper.error_lt (hr : r.Upper) (hcomp : Computed (arg x) r.slack n q e) (hx : 0 ≤ x)
    (ha : r.a * 2 ^ 256 ≤ r.d * x) (hb : r.d * x < r.b * 2 ^ 256)
    (hterms : arg x ≤ (r.terms + 2) / 2) : expnegError x e < r.c / r.k := by
  obtain ⟨hk, hck, hd, hcheck⟩ := hr
  refine hcomp.error_lt hx hk hck (h := 4 * r.slack) (by push_cast; exact le_refl _) ?_
  exact mul_exp_lt_of_check hcheck hd (le_mul_arg ha) (mul_arg_lt hb) (arg_nonneg hx) hterms
    (hcomp.eval_pos hk)

theorem Lower.lt_error (hr : r.Lower) (hcomp : Computed (arg x) r.slack n q e) (hx : 0 ≤ x)
    (ha : r.a * 2 ^ 256 ≤ r.d * x) (hb : r.d * x < r.b * 2 ^ 256) :
    r.c / r.k < expnegError x e := by
  obtain ⟨hk, hck, hd, hcheck⟩ := hr
  refine hcomp.lt_error hk hck (h := 4 * r.slack) (by push_cast; exact le_refl _) ?_
  exact lt_mul_exp_of_check hcheck hd (le_mul_arg ha) (mul_arg_lt hb) (arg_nonneg hx)
    (hcomp.eval_pos hk).le

end Certificate

/-- In units of `2 ^ -128`: where the error reaches 3.4e-30. -/
def firstCut : ℤ := 295849772403494392169720077777916801264

/-- In units of `2 ^ -128`: where it is below 3.4e-30 again. -/
def secondCut : ℤ := 528895638512176621374774274653430848488

/-- In units of `2 ^ -128`: where it reaches 4.6e-15. -/
def lastCut : ℤ := 1695912028218896676236875547519685623082

/-- Certificates for [0, 5), in units of 1e-16. -/
def wide (c : ℤ) (d : ℕ) (a b : ℤ) (bits : ℕ) : Certificate :=
  { k := 10 ^ 16, slack := 2 ^ 38, terms := 84, c, d, a, b, bits }

/-- Certificates for [0, 1.725), in units of 1e-31. -/
def narrow (c : ℤ) (d : ℕ) (a b : ℤ) (bits : ℕ) : Certificate :=
  { k := 10 ^ 31, slack := 2 ^ 18, terms := 59, c, d, a, b, bits }

def wideUpper : Certificate := wide 46 1 0 5 800

def wideLower : Certificate := wide (-50) 1 0 5 800

def wideKept : Certificate := wide (-46) (2 ^ 128) 0 lastCut 13400

def wideBroken : Certificate := wide (-46) (2 ^ 128) (lastCut + 1) (5 * 2 ^ 128) 13500

def narrowUpper : Certificate := narrow 34 40 0 69 1100

def narrowLower : Certificate := narrow (-36) 40 0 69 1100

def narrowKept : Certificate := narrow (-34) (2 ^ 128) 0 firstCut 10000

def narrowBroken : Certificate := narrow (-34) (2 ^ 128) (firstCut + 1) secondCut 10200

def narrowKeptAgain : Certificate :=
  narrow (-34) (5 * 2 ^ 128) (5 * (secondCut + 1)) (69 * 2 ^ 125) 10200

-- one statement for all, so that they are evaluated one after the other
theorem certificates :
    (wideUpper.Upper ∧ wideLower.Lower ∧ wideKept.Lower ∧ wideBroken.Upper)
      ∧ narrowUpper.Upper ∧ narrowLower.Lower ∧ narrowKept.Lower ∧ narrowBroken.Upper
      ∧ narrowKeptAgain.Lower := by
  refine ⟨⟨?_, ?_, ?_, ?_⟩, ?_, ?_, ?_, ?_, ?_⟩ <;> decide +kernel

theorem wideUpper_holds : wideUpper.Upper := certificates.1.1

theorem wideLower_holds : wideLower.Lower := certificates.1.2.1

theorem wideKept_holds : wideKept.Lower := certificates.1.2.2.1

theorem wideBroken_holds : wideBroken.Upper := certificates.1.2.2.2

theorem narrowUpper_holds : narrowUpper.Upper := certificates.2.1

theorem narrowLower_holds : narrowLower.Lower := certificates.2.2.1

theorem narrowKept_holds : narrowKept.Lower := certificates.2.2.2.1

theorem narrowBroken_holds : narrowBroken.Upper := certificates.2.2.2.2.1

theorem narrowKeptAgain_holds : narrowKeptAgain.Lower := certificates.2.2.2.2.2

/-! ## Arguments below 5 -/

section Wide

variable {x e c a b : ℤ} {d bits : ℕ}

theorem computed_wide (hx : 0 ≤ x) (hx5 : x < 5 * 2 ^ 256) (he : expneg x = .ok e) :
    Computed (arg x) (2 ^ 38 : ℕ) (polyval expNumCoef x) (polyval expDenoCoef x) e :=
  computed_expneg (b := 5) hx hx5.le he (by decide +kernel) (by decide +kernel) (by decide +kernel)

theorem arg_le_five (hx5 : x < 5 * 2 ^ 256) : arg x ≤ 5 := by
  have h : ((1 : ℕ) : ℝ) * arg x < (5 : ℤ) := mul_arg_lt (by push_cast; omega)
  push_cast at h
  linarith

theorem wide_k : ((wide c d a b bits).k : ℝ) = 10 ^ 16 := by
  norm_num [wide]

theorem error_lt_of_wide (hr : (wide c d a b bits).Upper) (hx : 0 ≤ x) (hx5 : x < 5 * 2 ^ 256)
    (he : expneg x = .ok e) (ha : a * 2 ^ 256 ≤ d * x) (hb : d * x < b * 2 ^ 256) :
    expnegError x e < c / 10 ^ 16 := by
  have hterms : arg x ≤ ((84 : ℕ) + 2) / 2 := by
    push_cast
    linarith [arg_le_five hx5]
  have h := hr.error_lt (computed_wide hx hx5 he) hx ha hb hterms
  rw [wide_k] at h
  exact h

theorem lt_error_of_wide (hr : (wide c d a b bits).Lower) (hx : 0 ≤ x) (hx5 : x < 5 * 2 ^ 256)
    (he : expneg x = .ok e) (ha : a * 2 ^ 256 ≤ d * x) (hb : d * x < b * 2 ^ 256) :
    c / 10 ^ 16 < expnegError x e := by
  have h := hr.lt_error (computed_wide hx hx5 he) hx ha hb
  rw [wide_k] at h
  exact h

/-- The result is never above the exponential by 4.6e-15. -/
theorem wide_error_lt (hx : 0 ≤ x) (hx5 : x < 5 * 2 ^ 256) (he : expneg x = .ok e) :
    expnegError x e < 46 / 10 ^ 16 :=
  error_lt_of_wide wideUpper_holds hx hx5 he (by omega) (by omega)

/-- It is never below by 5e-15. -/
theorem wide_lt_error (hx : 0 ≤ x) (hx5 : x < 5 * 2 ^ 256) (he : expneg x = .ok e) :
    -(50 / 10 ^ 16) < expnegError x e := by
  have h := lt_error_of_wide wideLower_holds hx hx5 he (by omega) (by omega)
  push_cast at h
  linarith

/-- Before the cut it is not below by 4.6e-15 either. -/
theorem wide_kept (hx : 0 ≤ x) (hcut : x / 2 ^ 128 < lastCut) (he : expneg x = .ok e) :
    -(46 / 10 ^ 16) < expnegError x e := by
  have hcut' : lastCut ≤ 5 * 2 ^ 128 := by decide
  have h := lt_error_of_wide wideKept_holds hx (by omega) he (by omega) (by push_cast; omega)
  push_cast at h
  linarith

/-- Behind it, it always is. -/
theorem wide_broken (hcut : lastCut < x / 2 ^ 128) (hx5 : x < 5 * 2 ^ 256)
    (he : expneg x = .ok e) : expnegError x e < -(46 / 10 ^ 16) := by
  have hcut' : 0 ≤ lastCut := by decide
  have h := error_lt_of_wide wideBroken_holds (by omega) hx5 he (by push_cast; omega)
    (by push_cast; omega)
  push_cast at h
  linarith

end Wide

/-! ## Arguments below 1.725 -/

section Narrow

variable {x e c a b : ℤ} {d bits : ℕ}

theorem computed_narrow (hx : 0 ≤ x) (hxn : 1000 * x < 1725 * 2 ^ 256) (he : expneg x = .ok e) :
    Computed (arg x) (2 ^ 18 : ℕ) (polyval expNumCoef x) (polyval expDenoCoef x) e :=
  computed_expneg (b := 2) hx (by push_cast; omega) he (by decide +kernel) (by decide +kernel)
    (by decide +kernel)

theorem narrow_k : ((narrow c d a b bits).k : ℝ) = 10 ^ 31 := by
  norm_num [narrow]

theorem error_lt_of_narrow (hr : (narrow c d a b bits).Upper) (hx : 0 ≤ x)
    (hxn : 1000 * x < 1725 * 2 ^ 256) (he : expneg x = .ok e) (ha : a * 2 ^ 256 ≤ d * x)
    (hb : d * x < b * 2 ^ 256) : expnegError x e < c / 10 ^ 31 := by
  have hterms : arg x ≤ ((59 : ℕ) + 2) / 2 := by
    push_cast
    linarith [arg_le_five (x := x) (by omega)]
  have h := hr.error_lt (computed_narrow hx hxn he) hx ha hb hterms
  rw [narrow_k] at h
  exact h

theorem lt_error_of_narrow (hr : (narrow c d a b bits).Lower) (hx : 0 ≤ x)
    (hxn : 1000 * x < 1725 * 2 ^ 256) (he : expneg x = .ok e) (ha : a * 2 ^ 256 ≤ d * x)
    (hb : d * x < b * 2 ^ 256) : c / 10 ^ 31 < expnegError x e := by
  have h := hr.lt_error (computed_narrow hx hxn he) hx ha hb
  rw [narrow_k] at h
  exact h

/-- The result is never above the exponential by 3.4e-30. -/
theorem narrow_error_lt (hx : 0 ≤ x) (hxn : 1000 * x < 1725 * 2 ^ 256) (he : expneg x = .ok e) :
    expnegError x e < 34 / 10 ^ 31 :=
  error_lt_of_narrow narrowUpper_holds hx hxn he (by omega) (by push_cast; omega)

/-- It is never below by 3.6e-30. -/
theorem narrow_lt_error (hx : 0 ≤ x) (hxn : 1000 * x < 1725 * 2 ^ 256) (he : expneg x = .ok e) :
    -(36 / 10 ^ 31) < expnegError x e := by
  have h := lt_error_of_narrow narrowLower_holds hx hxn he (by omega) (by push_cast; omega)
  push_cast at h
  linarith

/-- Before the first cut and behind the second it is not below by 3.4e-30 either. -/
theorem narrow_kept (hx : 0 ≤ x) (hxn : 1000 * x < 1725 * 2 ^ 256)
    (hcut : x / 2 ^ 128 < firstCut ∨ secondCut < x / 2 ^ 128) (he : expneg x = .ok e) :
    -(34 / 10 ^ 31) < expnegError x e := by
  rcases hcut with hcut | hcut
  · have h := lt_error_of_narrow narrowKept_holds hx hxn he (by omega) (by push_cast; omega)
    push_cast at h
    linarith
  · have h := lt_error_of_narrow narrowKeptAgain_holds hx hxn he (by push_cast; omega)
      (by push_cast; omega)
    push_cast at h
    linarith

/-- Between the cuts it always is. -/
theorem narrow_broken (hfirst : firstCut < x / 2 ^ 128) (hsecond : x / 2 ^ 128 < secondCut)
    (he : expneg x = .ok e) : expnegError x e < -(34 / 10 ^ 31) := by
  have hfirst' : 0 ≤ firstCut := by decide
  have hsecond' : 1000 * secondCut ≤ 1725 * 2 ^ 128 := by decide
  have h := error_lt_of_narrow narrowBroken_holds (by omega) (by omega) he (by push_cast; omega)
    (by push_cast; omega)
  push_cast at h
  linarith

end Narrow

/-! ## The documented accuracy -/

/-- There is a result for every argument that is not negative. -/
theorem exists_expneg_of_nonneg {x : ℤ} (hx : 0 ≤ x) : ∃ e, expneg x = .ok e :=
  ⟨_, bigDiv_of_pos (polyval_expDenoCoef_pos hx)⟩

/-- What holds for all arguments of the two ranges. -/
theorem abs_expnegError_lt {x e : ℤ} (hx : 0 ≤ x) (he : expneg x = .ok e) :
    (x < 5 * 2 ^ 256 → |expnegError x e| < 50 / 10 ^ 16)
      ∧ (1000 * x < 1725 * 2 ^ 256 → |expnegError x e| < 36 / 10 ^ 31) := by
  constructor
  · intro hx5
    rw [abs_lt]
    refine ⟨wide_lt_error hx hx5 he, (wide_error_lt hx hx5 he).trans ?_⟩
    norm_num
  · intro hxn
    rw [abs_lt]
    refine ⟨narrow_lt_error hx hxn he, (narrow_error_lt hx hxn he).trans ?_⟩
    norm_num

/-- `expneg` does for `x` what its comment says. -/
def AsDocumented (x : ℤ) : Prop :=
  ∃ e, expneg x = .ok e
    ∧ (x < 5 * 2 ^ 256 → |expnegError x e| < 46 / 10 ^ 16)
    ∧ (1000 * x < 1725 * 2 ^ 256 → |expnegError x e| < 34 / 10 ^ 31)

/-- The arguments before the first cut, and those between the second and the last. -/
def BetweenCuts (x : ℤ) : Prop :=
  x / 2 ^ 128 < firstCut ∨ secondCut < x / 2 ^ 128 ∧ x / 2 ^ 128 < lastCut

instance (x : ℤ) : Decidable (BetweenCuts x) := inferInstanceAs (Decidable (_ ∨ _ ∧ _))

/-- Between the first two cuts, and behind the last, the comment is wrong. -/
theorem not_asDocumented {x : ℤ} (hx5 : x < 5 * 2 ^ 256)
    (h : firstCut < x / 2 ^ 128 ∧ x / 2 ^ 128 < secondCut ∨ lastCut < x / 2 ^ 128) :
    ¬ AsDocumented x := by
  rintro ⟨e, he, hwide, hnarrow⟩
  rcases h with ⟨hfirst, hsecond⟩ | hlast
  · have hsecond' : 1000 * secondCut ≤ 1725 * 2 ^ 128 := by decide
    linarith [narrow_broken hfirst hsecond he, (abs_lt.1 (hnarrow (by omega))).1]
  · linarith [wide_broken hlast hx5 he, (abs_lt.1 (hwide hx5)).1]

/-- For every argument in [0, 5): it is enough to be between the cuts, and apart from the
    three blocks of `2 ^ 128` arguments at the cuts themselves it is also necessary. -/
theorem expneg_documented_between_cuts {x : ℤ} (hx : 0 ≤ x) (hx5 : x < 5 * 2 ^ 256) :
    (BetweenCuts x → AsDocumented x)
      ∧ (AsDocumented x → BetweenCuts x ∨ x / 2 ^ 128 ∈ [firstCut, secondCut, lastCut]) := by
  constructor
  · intro hcuts
    obtain ⟨e, he⟩ := exists_expneg_of_nonneg hx
    have hlast : x / 2 ^ 128 < lastCut := by
      have hle : firstCut ≤ lastCut := by decide
      rcases hcuts with hfirst | ⟨-, hlast⟩
      · exact hfirst.trans_le hle
      · exact hlast
    refine ⟨e, he, fun _ => ?_, fun hxn => ?_⟩
    · exact abs_lt.2 ⟨wide_kept hx hlast he, wide_error_lt hx hx5 he⟩
    · exact abs_lt.2 ⟨narrow_kept hx hxn (hcuts.imp id And.left) he, narrow_error_lt hx hxn he⟩
  · intro hdoc
    by_contra hnot
    rw [not_or, BetweenCuts, not_or, not_and_or] at hnot
    obtain ⟨⟨hfirst, hrest⟩, hcuts⟩ := hnot
    simp only [List.mem_cons, List.not_mem_nil, or_false, not_or] at hcuts
    obtain ⟨hne₁, hne₂, hne₃⟩ := hcuts
    refine not_asDocumented hx5 ?_ hdoc
    omega

/-- At 1/2 the comment is right. -/
theorem expneg_documented_half : AsDocumented (2 ^ 255) :=
  (expneg_documented_between_cuts (by decide) (by decide)).1 (by decide)

/-- At 1 the error is not below 3.4e-30, and at the last argument before 5 it is not below
    4.6e-15. -/
theorem expneg_not_documented_one_five :
    ¬ AsDocumented (2 ^ 256) ∧ ¬ AsDocumented (5 * 2 ^ 256 - 1) :=
  ⟨not_asDocumented (by decide) (by decide), not_asDocumented (by decide) (by decide)⟩

end Dione.ElectionProof
