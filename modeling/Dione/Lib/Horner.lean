/-
  Dione.Lib.Horner

  Horner evaluation of a polynomial in fixed point: every product is floored to
  `prec` fractional bits.  Nothing here knows what the polynomials are for.

    * Coefficients that are not negative give a value that is monotone in the argument
      and not below the last coefficient.
    * For coefficients of any sign, an `Enclosure` is computed along the same steps for
      all arguments between 0 and `b` at once: an interval for the value, an interval
      for the slope between two arguments, and what the floors can add to the
      difference of their values.
    * The same number bounds by how much the floors lower a value.
-/

import Mathlib.Algebra.Order.Field.Basic
import Mathlib.Algebra.Order.Ring.Int
import Mathlib.Tactic.Linarith
import Mathlib.Tactic.Ring

namespace Dione.Horner

/-- One step: multiply by the argument and add the next coefficient. -/
def step (prec : ℕ) (x v c : ℤ) : ℤ := (v * x) >>> prec + c

/-- The value at `x`, for the coefficients from the highest order down. -/
def evalFixed (prec : ℕ) (p : List ℤ) (x : ℤ) : ℤ := p.foldl (step prec x) 0

section Steps

variable {prec : ℕ} {x y v w : ℤ}

theorem two_pow_pos (prec : ℕ) : (0 : ℤ) < 2 ^ prec := pow_pos (by decide) prec

theorem le_shiftRight {a : ℤ} : a ≤ v >>> prec ↔ a * 2 ^ prec ≤ v := by
  rw [Int.shiftRight_eq_div_pow]
  push_cast
  exact Int.le_ediv_iff_mul_le (two_pow_pos prec)

theorem shiftRight_mul_le (v : ℤ) (prec : ℕ) : v >>> prec * 2 ^ prec ≤ v :=
  le_shiftRight.mp (Int.le_refl _)

theorem lt_shiftRight_mul_add (v : ℤ) (prec : ℕ) : v < v >>> prec * 2 ^ prec + 2 ^ prec := by
  by_contra hge
  have hnext : v >>> prec + 1 ≤ v >>> prec := le_shiftRight.mpr (by linarith)
  omega

theorem shiftRight_mono (h : v ≤ w) : v >>> prec ≤ w >>> prec :=
  le_shiftRight.mpr ((shiftRight_mul_le v prec).trans h)

end Steps

/-! ## Coefficients that are not negative -/

section Nonneg

variable {prec : ℕ} {p : List ℤ} {x y v w : ℤ}

theorem foldl_step_mono (hp : ∀ c ∈ p, 0 ≤ c) (hx : 0 ≤ x) (hxy : x ≤ y) (hv : 0 ≤ v)
    (hvw : v ≤ w) :
    0 ≤ p.foldl (step prec x) v ∧ p.foldl (step prec x) v ≤ p.foldl (step prec y) w := by
  induction p generalizing v w with
  | nil => exact ⟨hv, hvw⟩
  | cons c p ih =>
      obtain ⟨hc, hrest⟩ := List.forall_mem_cons.mp hp
      have hproduct : v * x ≤ w * y := mul_le_mul hvw hxy hx (hv.trans hvw)
      have hnonneg : 0 ≤ (v * x) >>> prec := le_shiftRight.mpr (by
        rw [zero_mul]
        exact mul_nonneg hv hx)
      exact ih hrest (Int.add_nonneg hnonneg hc)
        (Int.add_le_add_right (shiftRight_mono hproduct) c)

theorem evalFixed_mono (hp : ∀ c ∈ p, 0 ≤ c) (hx : 0 ≤ x) (hxy : x ≤ y) :
    evalFixed prec p x ≤ evalFixed prec p y :=
  (foldl_step_mono hp hx hxy (Int.le_refl 0) (Int.le_refl 0)).2

theorem le_evalFixed_concat (hp : ∀ c ∈ p, 0 ≤ c) (hx : 0 ≤ x) (c : ℤ) :
    c ≤ evalFixed prec (p ++ [c]) x := by
  have hv : 0 ≤ p.foldl (step prec x) 0 :=
    (foldl_step_mono hp hx (Int.le_refl x) (Int.le_refl 0) (Int.le_refl 0)).1
  have hnonneg : 0 ≤ (p.foldl (step prec x) 0 * x) >>> prec := le_shiftRight.mpr (by
    rw [zero_mul]
    exact mul_nonneg hv hx)
  rw [evalFixed, List.foldl_append]
  exact Int.le_add_of_nonneg_left hnonneg

end Nonneg

/-! ## Enclosures -/

/-- The numbers from `lo` to `hi`. -/
structure Interval where
  lo : ℤ
  hi : ℤ

namespace Interval

instance : Membership ℤ Interval where
  mem s v := s.lo ≤ v ∧ v ≤ s.hi

instance : Add Interval where
  add s t := ⟨s.lo + t.lo, s.hi + t.hi⟩

def pure (c : ℤ) : Interval := ⟨c, c⟩

theorem mem_pure (c : ℤ) : c ∈ pure c := ⟨Int.le_refl c, Int.le_refl c⟩

theorem add_mem_add {s t : Interval} {v w : ℤ} (hv : v ∈ s) (hw : w ∈ t) : v + w ∈ s + t :=
  ⟨Int.add_le_add hv.1 hw.1, Int.add_le_add hv.2 hw.2⟩

/-- The products of the numbers of an interval with those between 0 and `b`. -/
def stretch (b : ℕ) (s : Interval) : Interval := ⟨min 0 (s.lo * b), max 0 (s.hi * b)⟩

end Interval

/-- Bounds for the values at all arguments between 0 and `b`. -/
structure Enclosure where
  value : Interval
  /-- Bounds for the difference of two values over that of the arguments. -/
  slope : Interval
  /-- What the floors add to such a difference. -/
  error : ℕ

namespace Enclosure

/-- The enclosure after a step. -/
def next (b : ℕ) (e : Enclosure) (c : ℤ) : Enclosure where
  value := e.value.stretch b + Interval.pure c
  slope := e.value + e.slope.stretch b
  error := e.error * b + 1

/-- The enclosure of the values of a polynomial. -/
def ofCoefs (b : ℕ) (p : List ℤ) : Enclosure :=
  p.foldl (next b) ⟨Interval.pure 0, Interval.pure 0, 0⟩

/-- `e` holds for the values `vx` and `vy` at `x` and `y`. -/
structure Holds (prec : ℕ) (x y : ℤ) (e : Enclosure) (vx vy : ℤ) : Prop where
  left : vx ∈ e.value
  right : vy ∈ e.value
  lower : e.slope.lo * (y - x) ≤ (vy - vx) * 2 ^ prec + e.error * 2 ^ prec
  upper : (vy - vx) * 2 ^ prec ≤ e.slope.hi * (y - x) + e.error * 2 ^ prec

section Bounds

variable {prec b : ℕ} {x v : ℤ} {s : Interval}

theorem mul_le_max {hi : ℤ} (hv : v ≤ hi) (hx : 0 ≤ x) (hxb : x ≤ b * 2 ^ prec) :
    v * x ≤ max 0 (hi * b) * 2 ^ prec := by
  rcases le_total hi 0 with hneg | hpos
  · have hproduct : v * x ≤ 0 := mul_nonpos_of_nonpos_of_nonneg (hv.trans hneg) hx
    exact hproduct.trans (mul_nonneg (le_max_left ..) (two_pow_pos prec).le)
  · calc v * x ≤ hi * x := mul_le_mul_of_nonneg_right hv hx
      _ ≤ hi * (b * 2 ^ prec) := mul_le_mul_of_nonneg_left hxb hpos
      _ = hi * b * 2 ^ prec := (mul_assoc ..).symm
      _ ≤ max 0 (hi * b) * 2 ^ prec :=
        mul_le_mul_of_nonneg_right (le_max_right ..) (two_pow_pos prec).le

theorem max_zero_neg (lo : ℤ) : max 0 (-lo * b) = - min 0 (lo * b) := by
  rw [neg_mul]
  omega

theorem min_le_mul {lo : ℤ} (hv : lo ≤ v) (hx : 0 ≤ x) (hxb : x ≤ b * 2 ^ prec) :
    min 0 (lo * b) * 2 ^ prec ≤ v * x := by
  have hneg := mul_le_max (neg_le_neg hv) hx hxb
  rw [max_zero_neg, neg_mul, neg_mul] at hneg
  exact neg_le_neg_iff.mp hneg

theorem shiftRight_mem_stretch (hv : v ∈ s) (hx : 0 ≤ x) (hxb : x ≤ b * 2 ^ prec) :
    (v * x) >>> prec ∈ s.stretch b := by
  obtain ⟨hlo, hhi⟩ := hv
  refine ⟨le_shiftRight.mpr (min_le_mul hlo hx hxb), ?_⟩
  have hupper := (shiftRight_mul_le (v * x) prec).trans (mul_le_max hhi hx hxb)
  exact le_of_mul_le_mul_right hupper (two_pow_pos prec)

/-- The same for a difference of values that is bounded by slopes: `d` is the difference
    of the arguments and `err` what the floors have added so far. -/
theorem mul_le_slope {d hi : ℤ} {err : ℕ} (hv : v * 2 ^ prec ≤ hi * d + err * 2 ^ prec)
    (hd : 0 ≤ d) (hx : 0 ≤ x) (hxb : x ≤ b * 2 ^ prec) :
    v * x ≤ max 0 (hi * b) * d + err * b * 2 ^ prec := by
  have hmax : 0 ≤ max 0 (hi * b) * d := mul_nonneg (le_max_left ..) hd
  rcases le_total v 0 with hneg | hpos
  · have hproduct : v * x ≤ 0 := mul_nonpos_of_nonpos_of_nonneg hneg hx
    have herr : 0 ≤ (err : ℤ) * b * 2 ^ prec := by positivity
    linarith
  · have hslope : hi * b * d ≤ max 0 (hi * b) * d :=
      mul_le_mul_of_nonneg_right (le_max_right ..) hd
    calc v * x ≤ v * (b * 2 ^ prec) := mul_le_mul_of_nonneg_left hxb hpos
      _ = v * 2 ^ prec * b := by ring
      _ ≤ (hi * d + err * 2 ^ prec) * b :=
        mul_le_mul_of_nonneg_right hv (Int.natCast_nonneg b)
      _ = hi * b * d + err * b * 2 ^ prec := by ring
      _ ≤ max 0 (hi * b) * d + err * b * 2 ^ prec := by linarith

theorem slope_le_mul {d lo : ℤ} {err : ℕ} (hv : lo * d ≤ v * 2 ^ prec + err * 2 ^ prec)
    (hd : 0 ≤ d) (hx : 0 ≤ x) (hxb : x ≤ b * 2 ^ prec) :
    min 0 (lo * b) * d ≤ v * x + err * b * 2 ^ prec := by
  have hneg : -v * 2 ^ prec ≤ -lo * d + err * 2 ^ prec := by linarith
  have hupper := mul_le_slope hneg hd hx hxb
  rw [max_zero_neg] at hupper
  linarith

end Bounds

section Soundness

variable {prec b : ℕ} {x y vx vy : ℤ} {e : Enclosure}

/-- A step keeps an enclosure: the product grows by a value times the difference of the
    arguments, and by the difference of the values times an argument. -/
theorem Holds.step (h : e.Holds prec x y vx vy) (hx : 0 ≤ x) (hxy : x ≤ y)
    (hyb : y ≤ b * 2 ^ prec) (c : ℤ) :
    (e.next b c).Holds prec x y (step prec x vx c) (step prec y vy c) := by
  have hd : 0 ≤ y - x := sub_nonneg.mpr hxy
  have hxb : x ≤ b * 2 ^ prec := hxy.trans hyb
  have hmem : ∀ {v z : ℤ}, v ∈ e.value → 0 ≤ z → z ≤ b * 2 ^ prec →
      Horner.step prec z v c ∈ (e.next b c).value := by
    intro v z hv hz hzb
    exact Interval.add_mem_add (shiftRight_mem_stretch hv hz hzb) (Interval.mem_pure c)
  have hproduct : vy * y - vx * x = vy * (y - x) + (vy - vx) * x := by ring
  have hfloor_x := shiftRight_mul_le (vx * x) prec
  have hfloor_x' := lt_shiftRight_mul_add (vx * x) prec
  have hfloor_y := shiftRight_mul_le (vy * y) prec
  have hfloor_y' := lt_shiftRight_mul_add (vy * y) prec
  obtain ⟨hlo, hhi⟩ := h.right
  refine ⟨hmem h.left hx hxb, hmem h.right (hx.trans hxy) hyb, ?_, ?_⟩
  · have hvalue : e.value.lo * (y - x) ≤ vy * (y - x) := mul_le_mul_of_nonneg_right hlo hd
    have hslope := slope_le_mul h.lower hd hx hxb
    show (e.value.lo + min 0 (e.slope.lo * b)) * (y - x) ≤ _ + ((e.error * b + 1 : ℕ) : ℤ) * _
    rw [Horner.step, Horner.step]
    push_cast
    linarith
  · have hvalue : vy * (y - x) ≤ e.value.hi * (y - x) := mul_le_mul_of_nonneg_right hhi hd
    have hslope := mul_le_slope h.upper hd hx hxb
    show _ ≤ (e.value.hi + max 0 (e.slope.hi * b)) * (y - x) + ((e.error * b + 1 : ℕ) : ℤ) * _
    rw [Horner.step, Horner.step]
    push_cast
    linarith

theorem Holds.foldl (h : e.Holds prec x y vx vy) (hx : 0 ≤ x) (hxy : x ≤ y)
    (hyb : y ≤ b * 2 ^ prec) (p : List ℤ) :
    (p.foldl (next b) e).Holds prec x y (p.foldl (Horner.step prec x) vx)
      (p.foldl (Horner.step prec y) vy) := by
  induction p generalizing e vx vy with
  | nil => exact h
  | cons c p ih => exact ih (h.step hx hxy hyb c)

theorem holds_ofCoefs (p : List ℤ) (hx : 0 ≤ x) (hxy : x ≤ y) (hyb : y ≤ b * 2 ^ prec) :
    (ofCoefs b p).Holds prec x y (evalFixed prec p x) (evalFixed prec p y) := by
  refine Holds.foldl ⟨Interval.mem_pure 0, Interval.mem_pure 0, ?_, ?_⟩
    hx hxy hyb p
  · simp [Interval.pure]
  · simp [Interval.pure]

/-- Where the slopes are negative, the value does not grow between two arguments that
    are further apart than the floors matter. -/
theorem Holds.le_of_slope {drop : ℤ} (h : e.Holds prec x y vx vy) (hxy : x ≤ y)
    (hslope : e.slope.hi ≤ -drop) (herror : e.error * 2 ^ prec ≤ drop * (y - x)) : vy ≤ vx := by
  have hd : 0 ≤ y - x := sub_nonneg.mpr hxy
  have hdrop : e.slope.hi * (y - x) ≤ -drop * (y - x) := mul_le_mul_of_nonneg_right hslope hd
  have hupper : (vy - vx) * 2 ^ prec ≤ 0 := by linarith [h.upper]
  by_contra hlt
  have hpos : 0 < (vy - vx) * 2 ^ prec := mul_pos (by omega) (two_pow_pos prec)
  exact absurd hupper (not_le.mpr hpos)

end Soundness

/-! ### The exact value -/

section Exact

variable {K : Type*} [Field K] [LinearOrder K] [IsStrictOrderedRing K]
variable {prec b : ℕ} {x v : ℤ} {t w : K} {e : Enclosure}

/-- A step at `x`, against one without a floor at `t = x / 2 ^ prec`. -/
theorem step_error (hx : (x : K) = t * 2 ^ prec) (ht : 0 ≤ t) (htb : t ≤ b) (hv : (v : K) ≤ w)
    (hw : w ≤ v + e.error) (c : ℤ) :
    (step prec x v c : K) ≤ w * t + c ∧ w * t + c ≤ step prec x v c + (e.next b c).error := by
  have hscale : (0 : K) < 2 ^ prec := pow_pos two_pos prec
  have hfloor : (((v * x) >>> prec : ℤ) : K) ≤ v * t := by
    refine le_of_mul_le_mul_right ?_ hscale
    have h := shiftRight_mul_le (v * x) prec
    calc (((v * x) >>> prec : ℤ) : K) * 2 ^ prec ≤ v * x := by exact_mod_cast h
      _ = v * t * 2 ^ prec := by rw [hx, mul_assoc]
  have hfloor' : (v : K) * t ≤ ((v * x) >>> prec : ℤ) + 1 := by
    refine le_of_mul_le_mul_right ?_ hscale
    have h := lt_shiftRight_mul_add (v * x) prec
    calc (v : K) * t * 2 ^ prec = v * x := by rw [hx, mul_assoc]
      _ ≤ ((v * x) >>> prec : ℤ) * 2 ^ prec + 2 ^ prec := by exact_mod_cast h.le
      _ = (((v * x) >>> prec : ℤ) + 1) * 2 ^ prec := by ring
  have hlow : (v : K) * t ≤ w * t := mul_le_mul_of_nonneg_right hv ht
  have hhigh : w * t ≤ (v + e.error) * t := mul_le_mul_of_nonneg_right hw ht
  have herror : (e.error : K) * t ≤ e.error * b :=
    mul_le_mul_of_nonneg_left htb (Nat.cast_nonneg _)
  have hnext : ((e.next b c).error : K) = e.error * b + 1 := by
    rw [next]
    push_cast
    ring
  rw [Horner.step, hnext]
  push_cast
  constructor <;> linarith

theorem foldl_error (hx : (x : K) = t * 2 ^ prec) (ht : 0 ≤ t) (htb : t ≤ b) (p : List ℤ)
    (hv : (v : K) ≤ w) (hw : w ≤ v + e.error) :
    ((p.foldl (Horner.step prec x) v : ℤ) : K) ≤ p.foldl (fun w (c : ℤ) => w * t + c) w
      ∧ p.foldl (fun w (c : ℤ) => w * t + c) w
        ≤ (p.foldl (Horner.step prec x) v : ℤ) + (p.foldl (next b) e).error := by
  induction p generalizing v w e with
  | nil => exact ⟨hv, hw⟩
  | cons c p ih =>
      obtain ⟨hlow, hhigh⟩ := step_error hx ht htb hv hw c
      exact ih hlow hhigh

/-- The floors lower the value, by no more than the enclosure says. -/
theorem evalFixed_error (hx : (x : K) = t * 2 ^ prec) (ht : 0 ≤ t) (htb : t ≤ b) (p : List ℤ) :
    (evalFixed prec p x : K) ≤ p.foldl (fun w (c : ℤ) => w * t + c) 0
      ∧ p.foldl (fun w (c : ℤ) => w * t + c) 0
        ≤ evalFixed prec p x + (ofCoefs b p).error := by
  refine foldl_error hx ht htb p ?_ ?_
  · simp
  · simp

end Exact

end Enclosure

end Dione.Horner
