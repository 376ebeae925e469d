/-
  Dione.Lib.Bernstein

  Polynomials that are positive on an interval, shown by one computation with integers.

  On `[a / d, b / d)` put `t = (a + b z) / (d (z + 1))` with `z` from 0 upwards.  A
  polynomial of degree less than `n`, multiplied by `(d (z + 1)) ^ n`, becomes a
  polynomial in `z` with integer coefficients, its coefficients in the Bernstein basis up
  to binomial factors.  If none of them is negative, and the lowest is positive, the
  polynomial is positive on the interval.

  The coefficients are not computed one by one.  `check` evaluates the polynomial in `z` at
  one large power of two and reads the coefficients off as the digits of the result;
  that they are the digits is what the bound on their absolute values is for.
-/

import Mathlib.Algebra.Polynomial.Inductions
import Mathlib.Algebra.Polynomial.Eval.Degree
import Mathlib.Algebra.Order.BigOperators.Ring.Finset
import Mathlib.Tactic.FieldSimp
import Mathlib.Tactic.Linarith

namespace Dione.Bernstein

/-! ## Polynomials as lists of integers -/

section Lists

variable {R : Type*} [CommRing R]

/-- The value at `t`, for the coefficients from the lowest order up. -/
def eval (t : R) : List ℤ → R
  | [] => 0
  | c :: p => c + t * eval t p

def scale (k : ℤ) (p : List ℤ) : List ℤ := p.map (k * ·)

def add : List ℤ → List ℤ → List ℤ
  | [], q => q
  | p, [] => p
  | a :: p, b :: q => (a + b) :: add p q

def mul : List ℤ → List ℤ → List ℤ
  | [], _ => []
  | a :: p, q => add (scale a q) (0 :: mul p q)

@[simp] theorem eval_nil (t : R) : eval t [] = 0 := rfl

@[simp] theorem eval_cons (t : R) (c : ℤ) (p : List ℤ) : eval t (c :: p) = c + t * eval t p := rfl

@[simp] theorem eval_scale (t : R) (k : ℤ) (p : List ℤ) : eval t (scale k p) = k * eval t p := by
  induction p with
  | nil => simp [scale]
  | cons c p ih =>
      have hcons : scale k (c :: p) = k * c :: scale k p := rfl
      rw [hcons, eval_cons, eval_cons, ih]
      push_cast
      ring

@[simp] theorem eval_add (t : R) (p q : List ℤ) : eval t (add p q) = eval t p + eval t q := by
  induction p, q using add.induct with
  | case1 q => simp [add]
  | case2 p hp => cases p <;> simp [add]
  | case3 a p b q ih =>
      rw [add, eval_cons, eval_cons, eval_cons, ih]
      push_cast
      ring

@[simp] theorem eval_mul (t : R) (p q : List ℤ) : eval t (mul p q) = eval t p * eval t q := by
  induction p with
  | nil => simp [mul]
  | cons a p ih =>
      rw [mul, eval_add, eval_scale, eval_cons, eval_cons, ih]
      push_cast
      ring

theorem eval_append (t : R) (p q : List ℤ) :
    eval t (p ++ q) = eval t p + t ^ p.length * eval t q := by
  induction p with
  | nil => simp
  | cons c p ih =>
      rw [List.cons_append, eval_cons, eval_cons, ih, List.length_cons]
      ring

/-- The coefficients from the highest order down, and one multiplication for each. -/
theorem eval_reverse (t : R) (p : List ℤ) :
    eval t p.reverse = p.foldl (fun v (c : ℤ) => v * t + c) 0 := by
  induction p using List.reverseRecOn with
  | nil => rfl
  | append_singleton p c ih =>
      rw [List.reverse_append, List.reverse_singleton, List.singleton_append, eval_cons, ih,
        List.foldl_append, List.foldl_cons, List.foldl_nil]
      ring

@[simp] theorem length_scale (k : ℤ) (p : List ℤ) : (scale k p).length = p.length :=
  List.length_map _

/-- `D ^ n` and `D ^ n * p (T / D)`, for `n` coefficients and without a division. -/
def hom (D T : R) : List ℤ → R × R
  | [] => (1, 0)
  | c :: p => (D * (hom D T p).1, c * (D * (hom D T p).1) + T * (hom D T p).2)

theorem hom_fst (D T : R) (p : List ℤ) : (hom D T p).1 = D ^ p.length := by
  induction p with
  | nil => exact (pow_zero D).symm
  | cons c p ih => rw [hom, ih, List.length_cons, pow_succ']

theorem hom_snd {D T t : R} (h : T = t * D) (p : List ℤ) :
    (hom D T p).2 = D ^ p.length * eval t p := by
  induction p with
  | nil => simp [hom]
  | cons c p ih =>
      rw [hom, ih, hom_fst, eval_cons, List.length_cons, h]
      ring

theorem map_hom {S : Type*} [CommRing S] (f : R →+* S) (D T : R) (p : List ℤ) :
    f (hom D T p).2 = (hom (f D) (f T) p).2 := by
  induction p with
  | nil => simp [hom]
  | cons c p ih =>
      rw [hom, hom, map_add, map_mul, map_mul, map_mul, map_intCast, ih, hom_fst, hom_fst,
        map_pow]

end Lists

/-! ## Bounds on coefficients -/

section Dominated

open Polynomial

/-- The coefficients of `g` bound those of `f`. -/
def Dominated (f g : ℤ[X]) : Prop := ∀ i, |f.coeff i| ≤ g.coeff i

namespace Dominated

variable {f f' g g' : ℤ[X]}

theorem nonneg (h : Dominated f g) (i : ℕ) : 0 ≤ g.coeff i := (abs_nonneg _).trans (h i)

theorem add (h : Dominated f g) (h' : Dominated f' g') : Dominated (f + f') (g + g') := by
  intro i
  rw [coeff_add, coeff_add]
  exact (abs_add_le _ _).trans (add_le_add (h i) (h' i))

theorem mul (h : Dominated f g) (h' : Dominated f' g') : Dominated (f * f') (g * g') := by
  intro i
  rw [coeff_mul, coeff_mul]
  refine (Finset.abs_sum_le_sum_abs _ _).trans (Finset.sum_le_sum ?_)
  intro jk _
  rw [abs_mul]
  exact mul_le_mul (h _) (h' _) (abs_nonneg _) (h.nonneg _)

theorem constant (c : ℤ) : Dominated (C c) (C |c|) := by
  intro i
  rw [coeff_C, coeff_C]
  split
  · exact le_refl _
  · simp

theorem one : Dominated 1 1 := by
  have h := constant 1
  rwa [abs_one, C_1] at h

theorem zero : Dominated 0 0 := by
  have h := constant 0
  rwa [abs_zero, C_0] at h

theorem intCast (c : ℤ) : Dominated (c : ℤ[X]) ((c.natAbs : ℤ) : ℤ[X]) := by
  have h := constant c
  rwa [Int.abs_eq_natAbs, eq_intCast, eq_intCast] at h

theorem indeterminate : Dominated X X := by
  intro i
  rw [coeff_X]
  split <;> simp

/-- No coefficient is larger than the value at 1 of a bound. -/
theorem abs_coeff_le (h : Dominated f g) (i : ℕ) : |f.coeff i| ≤ g.eval 1 := by
  refine (h i).trans ?_
  rw [eval_eq_sum_range]
  simp only [one_pow, mul_one]
  by_cases hi : i < g.natDegree + 1
  · exact Finset.single_le_sum (f := fun i => g.coeff i) (fun j _ => h.nonneg j)
      (Finset.mem_range.2 hi)
  · rw [coeff_eq_zero_of_natDegree_lt (by omega)]
    exact Finset.sum_nonneg fun j _ => h.nonneg j

/-- Bounds for the two arguments and the coefficients give bounds for the form. -/
theorem hom {D T D' T' : ℤ[X]} (hD : Dominated D D') (hT : Dominated T T') (p : List ℤ) :
    Dominated (hom D T p).2 (hom D' T' (p.map fun c => (c.natAbs : ℤ))).2 := by
  have hboth : Dominated (Bernstein.hom D T p).1
        (Bernstein.hom D' T' (p.map fun c => (c.natAbs : ℤ))).1
      ∧ Dominated (Bernstein.hom D T p).2
        (Bernstein.hom D' T' (p.map fun c => (c.natAbs : ℤ))).2 := by
    induction p with
    | nil => exact ⟨one, zero⟩
    | cons c p ih =>
        obtain ⟨h₁, h₂⟩ := ih
        exact ⟨hD.mul h₁, ((intCast c).mul (hD.mul h₁)).add (hT.mul h₂)⟩
  exact hboth.2

end Dominated

end Dominated

/-! ## Coefficients as digits -/

section Digits

open Polynomial

/-- If the value at `N` is 0 then the lowest coefficient, a multiple of `N`, is 0, and the
    others are those of a polynomial whose value is 0 as well. -/
theorem divX_of_eval_eq_zero {N : ℕ} {f : ℤ[X]} (hlt : ∀ i, |f.coeff i| < N)
    (h : f.eval (N : ℤ) = 0) : f.coeff 0 = 0 ∧ f.divX.eval (N : ℤ) = 0 := by
  have hN : (0 : ℤ) < N := (abs_nonneg _).trans_lt (hlt 0)
  have hsplit : f.divX.eval (N : ℤ) * N + f.coeff 0 = 0 := by
    rw [← h]
    nth_rewrite 3 [← divX_mul_X_add f]
    simp
  have hzero : f.coeff 0 = 0 := by
    refine Int.eq_zero_of_abs_lt_dvd (m := N) ⟨-f.divX.eval (N : ℤ), ?_⟩ (hlt 0)
    linarith
  rw [hzero, add_zero] at hsplit
  exact ⟨hzero, (mul_eq_zero.1 hsplit).resolve_right hN.ne'⟩

theorem coeff_eq_zero_of_eval {N : ℕ} (i : ℕ) {f : ℤ[X]} (hlt : ∀ i, |f.coeff i| < N)
    (h : f.eval (N : ℤ) = 0) : f.coeff i = 0 := by
  induction i generalizing f with
  | zero => exact (divX_of_eval_eq_zero hlt h).1
  | succ i ih =>
      have hquot : ∀ i, |f.divX.coeff i| < N := by
        intro i
        rw [coeff_divX]
        exact hlt (i + 1)
      rw [← coeff_divX]
      exact ih hquot (divX_of_eval_eq_zero hlt h).2

/-- Two polynomials with the same value at `N` are the same if their coefficients differ by
    less. -/
theorem eq_of_eval_eq {N : ℕ} {f g : ℤ[X]} (hlt : ∀ i, |f.coeff i - g.coeff i| < N)
    (h : f.eval (N : ℤ) = g.eval (N : ℤ)) : f = g := by
  ext i
  have hzero : (f - g).coeff i = 0 := by
    refine coeff_eq_zero_of_eval i (N := N) ?_ ?_
    · intro i
      rw [coeff_sub]
      exact hlt i
    · rw [eval_sub, h, sub_self]
  rw [coeff_sub] at hzero
  exact sub_eq_zero.1 hzero

/-- `v` has at most `n` digits to the base `N`, each of them below `h`. -/
def digitsLt (N h : ℕ) : ℕ → ℕ → Bool
  | 0, v => v == 0
  | n + 1, v => decide (v % N < h) && digitsLt N h n (v / N)

/-- The polynomial with the digits of `v`. -/
theorem exists_digits {N h n v : ℕ} (hok : digitsLt N h n v = true) (hh : 0 < h) :
    ∃ g : ℤ[X], g.eval (N : ℤ) = v ∧ (∀ i, 0 ≤ g.coeff i ∧ g.coeff i < h)
      ∧ (0 < n → g.coeff 0 = (v % N : ℕ)) := by
  induction n generalizing v with
  | zero =>
      have hv : v = 0 := by simpa [digitsLt] using hok
      refine ⟨0, by simp [hv], ?_, fun hn => absurd hn (by omega)⟩
      intro i
      rw [coeff_zero]
      exact ⟨le_refl 0, by exact_mod_cast hh⟩
  | succ n ih =>
      rw [digitsLt, Bool.and_eq_true, decide_eq_true_eq] at hok
      obtain ⟨g, hval, hcoeff, -⟩ := ih hok.2
      refine ⟨g * X + C ((v % N : ℕ) : ℤ), ?_, ?_, ?_⟩
      · rw [Polynomial.eval_add, Polynomial.eval_mul, eval_X, eval_C, hval]
        exact_mod_cast Nat.div_add_mod' v N
      · intro i
        cases i with
        | zero =>
            rw [coeff_add, mul_coeff_zero, coeff_X_zero, mul_zero, zero_add, coeff_C_zero]
            exact ⟨Int.natCast_nonneg _, by exact_mod_cast hok.1⟩
        | succ i =>
            rw [coeff_add, coeff_mul_X, coeff_C_succ, add_zero]
            exact hcoeff i
      · intro _
        rw [coeff_add, mul_coeff_zero, coeff_X_zero, mul_zero, zero_add, coeff_C_zero]

end Digits

/-! ## The certificate -/

/-- The value at `2 ^ (m + 1)` of the polynomial in `z` has no digit from `2 ^ m` on, its last
    one is positive, and the coefficients are below `2 ^ m`. -/
def check (d : ℕ) (a b : ℤ) (m : ℕ) (p : List ℤ) : Bool :=
  decide ((hom ((d * 2 : ℕ) : ℤ) (a.natAbs + b.natAbs : ℕ)
      (p.map fun c => (c.natAbs : ℤ))).2 < (2 ^ m : ℕ))
  && decide (0 < (hom ((d * (2 ^ (m + 1) + 1) : ℕ) : ℤ) (a + b * (2 ^ (m + 1) : ℕ)) p).2.toNat
      % 2 ^ (m + 1))
  && digitsLt (2 ^ (m + 1)) (2 ^ m) (p.length + 1)
      (hom ((d * (2 ^ (m + 1) + 1) : ℕ) : ℤ) (a + b * (2 ^ (m + 1) : ℕ)) p).2.toNat

section Certificate

open Polynomial

/-- The polynomial in `z`. -/
noncomputable def form (d : ℕ) (a b : ℤ) (p : List ℤ) : ℤ[X] :=
  (hom (C (d : ℤ) * (X + 1)) (C a + C b * X) p).2

variable {d : ℕ} {a b : ℤ} {m : ℕ} {p : List ℤ}

theorem eval_form (d : ℕ) (a b : ℤ) (p : List ℤ) (z : ℤ) :
    (form d a b p).eval z = (hom (d * (z + 1)) (a + b * z) p).2 := by
  have h := map_hom (evalRingHom z) (C (d : ℤ) * (X + 1)) (C a + C b * X) p
  simpa [form] using h

theorem eval₂_form {K : Type*} [Field K] (d : ℕ) (a b : ℤ) (p : List ℤ) (z : K) :
    (form d a b p).eval₂ (Int.castRingHom K) z = (hom (d * (z + 1)) (a + b * z) p).2 := by
  have hD : eval₂RingHom (Int.castRingHom K) z (C (d : ℤ) * (X + 1)) = d * (z + 1) := by
    simp
  have hT : eval₂RingHom (Int.castRingHom K) z (C a + C b * X) = a + b * z := by
    rw [coe_eval₂RingHom, eval₂_add, eval₂_mul, eval₂_C, eval₂_C, eval₂_X, eq_intCast, eq_intCast]
  have h := map_hom (eval₂RingHom (Int.castRingHom K) z) (C (d : ℤ) * (X + 1)) (C a + C b * X) p
  rw [hD, hT] at h
  exact h

/-- The first part of the check bounds the coefficients. -/
theorem abs_coeff_form_le (i : ℕ) :
    |(form d a b p).coeff i|
      ≤ (hom ((d * 2 : ℕ) : ℤ) (a.natAbs + b.natAbs : ℕ) (p.map fun c => (c.natAbs : ℤ))).2 := by
  have hD : Dominated (C (d : ℤ) * (X + 1)) (C |(d : ℤ)| * (X + 1)) :=
    (Dominated.constant d).mul (Dominated.indeterminate.add Dominated.one)
  have hT : Dominated (C a + C b * X) (C |a| + C |b| * X) :=
    (Dominated.constant a).add ((Dominated.constant b).mul Dominated.indeterminate)
  refine (Dominated.abs_coeff_le (Dominated.hom hD hT p) i).trans (le_of_eq ?_)
  have h := map_hom (evalRingHom (1 : ℤ)) (C |(d : ℤ)| * (X + 1)) (C |a| + C |b| * X)
    (p.map fun c => (c.natAbs : ℤ))
  have htwo : (1 : ℤ) + 1 = 2 := rfl
  simpa [htwo] using h

/-- The coefficients are the digits, so none is negative and the lowest is positive. -/
theorem coeff_form_of_check (h : check d a b m p = true) :
    (∀ i, 0 ≤ (form d a b p).coeff i) ∧ 0 < (form d a b p).coeff 0 := by
  rw [check, Bool.and_eq_true, Bool.and_eq_true, decide_eq_true_eq, decide_eq_true_eq] at h
  obtain ⟨⟨hnorm, hlast⟩, hdigits⟩ := h
  obtain ⟨g, hval, hcoeff, hzero⟩ := exists_digits hdigits (Nat.two_pow_pos m)
  have hform := eval_form d a b p ((2 ^ (m + 1) : ℕ) : ℤ)
  have hcast : (((d * (2 ^ (m + 1) + 1) : ℕ) : ℤ)) = d * (((2 ^ (m + 1) : ℕ) : ℤ) + 1) := by
    push_cast
    ring
  rw [hcast] at hval hlast hzero
  -- a value with a positive digit is not negative
  have hpos : 0 ≤ (hom (d * (((2 ^ (m + 1) : ℕ) : ℤ) + 1)) (a + b * (2 ^ (m + 1) : ℕ)) p).2 := by
    by_contra hneg
    rw [Int.toNat_of_nonpos (le_of_lt (not_le.1 hneg)), Nat.zero_mod] at hlast
    exact absurd hlast (lt_irrefl 0)
  rw [Int.toNat_of_nonneg hpos] at hval
  have heq : form d a b p = g := by
    refine eq_of_eval_eq (N := 2 ^ (m + 1)) ?_ (hform.trans hval.symm)
    intro i
    have hbound := (abs_coeff_form_le (d := d) (a := a) (b := b) (p := p) i).trans_lt hnorm
    obtain ⟨hge, hlt⟩ := hcoeff i
    rw [abs_lt] at hbound ⊢
    push_cast at hbound hlt ⊢
    rw [pow_succ]
    constructor <;> linarith
  rw [heq]
  refine ⟨fun i => (hcoeff i).1, ?_⟩
  rw [hzero (Nat.succ_pos _)]
  exact_mod_cast hlast

/-- Coefficients that are not negative, the lowest one positive, give a positive value. -/
theorem eval₂_pos {K : Type*} [Field K] [LinearOrder K] [IsStrictOrderedRing K] {f : ℤ[X]}
    (hf : ∀ i, 0 ≤ f.coeff i) (hzero : 0 < f.coeff 0) {z : K} (hz : 0 ≤ z) :
    0 < f.eval₂ (Int.castRingHom K) z := by
  have hnonneg : 0 ≤ f.divX.eval₂ (Int.castRingHom K) z := by
    rw [eval₂_eq_sum_range]
    refine Finset.sum_nonneg fun i _ => mul_nonneg ?_ (pow_nonneg hz i)
    rw [coeff_divX]
    exact Int.cast_nonneg (hf (i + 1))
  rw [← divX_mul_X_add f, eval₂_add, eval₂_mul, eval₂_X, eval₂_C]
  exact add_pos_of_nonneg_of_pos (mul_nonneg hnonneg hz) (Int.cast_pos.2 hzero)

/-- A polynomial that passes the check is positive on `[a / d, b / d)`. -/
theorem eval_pos_of_check {K : Type*} [Field K] [LinearOrder K] [IsStrictOrderedRing K]
    (h : check d a b m p = true) (hd : 0 < d) {t : K} (ha : a ≤ d * t) (hb : d * t < b) :
    0 < eval t p := by
  obtain ⟨hcoeff, hzero⟩ := coeff_form_of_check h
  have hd' : (0 : K) < d := Nat.cast_pos.2 hd
  have hgap : (0 : K) < b - d * t := sub_pos.2 hb
  have hz : (0 : K) ≤ (d * t - a) / (b - d * t) := div_nonneg (sub_nonneg.2 ha) hgap.le
  have hpos := eval₂_pos hcoeff hzero hz
  have hD : (0 : K) < d * ((d * t - a) / (b - d * t) + 1) :=
    mul_pos hd' (add_pos_of_nonneg_of_pos hz one_pos)
  have hT : (a + b * ((d * t - a) / (b - d * t)) : K)
      = t * (d * ((d * t - a) / (b - d * t) + 1)) := by
    field_simp
    ring
  rw [eval₂_form, hom_snd hT] at hpos
  exact (mul_pos_iff_of_pos_left (pow_pos hD _)).1 hpos

end Certificate

end Dione.Bernstein
