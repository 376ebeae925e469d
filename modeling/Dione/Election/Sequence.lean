/-
  Dione.Election.Sequence

  The thresholds of the election.  For a stake that is a part of the total, `lambda` is
  between 0 and 2 in Q.256, where

    * the denominator polynomial of `expneg` is at least 1, since its coefficients are
      positive;
    * the numerator polynomial is positive, though its coefficients alternate in sign:
      an enclosure over [0, 2] says so, floors included.

  So no term of the sequence is negative, the thresholds fall, and the loop that stops
  at the first one the hash does not beat has counted them all.
-/

import Dione.Election.InPlace
import Dione.Lib.Horner
import Mathlib.Data.Nat.Count
import Mathlib.Algebra.BigOperators.Group.Finset.Basic

namespace Dione

open Guard

namespace ElectionProof

/-! ## The polynomials -/

theorem polyval_eq_evalFixed (p : List Int) (x : Int) :
    polyval p x = Horner.evalFixed precision p x := by
  cases p with
  | nil => rfl
  | cons c p =>
      have hfirst : Horner.step precision x 0 c = c := by
        rw [Horner.step, zero_mul, Int.zero_shiftRight, zero_add]
      rw [Horner.evalFixed, List.foldl_cons, hfirst]
      rfl

theorem expDenoCoef_nonneg : ∀ c ∈ expDenoCoef, 0 ≤ c := by decide +kernel

theorem le_polyval_expDenoCoef {x : Int} (hx : 0 ≤ x) :
    2 ^ precision ≤ polyval expDenoCoef x := by
  have hsplit : expDenoCoef = expDenoCoef.dropLast ++ [2 ^ precision] := by decide +kernel
  rw [polyval_eq_evalFixed, hsplit]
  exact Horner.le_evalFixed_concat
    (fun c hc => expDenoCoef_nonneg c (List.mem_of_mem_dropLast hc)) hx _

theorem polyval_expDenoCoef_pos {x : Int} (hx : 0 ≤ x) : 0 < polyval expDenoCoef x :=
  lt_of_lt_of_le (Horner.two_pow_pos precision) (le_polyval_expDenoCoef hx)

/-- The numerator over [0, 2]: it is not negative, falls by at least an eighth of the
    argument, and two values are off by less than 256 units because of floors. -/
theorem expNumCoef_enclosure :
    0 ≤ (Horner.Enclosure.ofCoefs 2 expNumCoef).value.lo ∧
      (Horner.Enclosure.ofCoefs 2 expNumCoef).slope.hi ≤ -2 ^ 253 ∧
      (Horner.Enclosure.ofCoefs 2 expNumCoef).error = 255 := by
  decide +kernel

theorem polyval_expNumCoef_nonneg {x : Int} (hx : 0 ≤ x) (hx2 : x ≤ 2 * 2 ^ precision) :
    0 ≤ polyval expNumCoef x := by
  have hvalue := (Horner.Enclosure.holds_ofCoefs expNumCoef hx (le_refl x) hx2).left
  rw [← polyval_eq_evalFixed] at hvalue
  exact expNumCoef_enclosure.1.trans hvalue.1

/-! ## `expneg` and `lambda` -/

theorem bigDiv_of_pos {x y : Int} (hy : 0 < y) : bigDiv x y = .ok (x / y) :=
  if_neg (ne_of_gt hy)

theorem exists_expneg {x : Int} (hx : 0 ≤ x) (hx2 : x ≤ 2 * 2 ^ precision) :
    ∃ e, expneg x = .ok e ∧ 0 ≤ e := by
  refine ⟨_, bigDiv_of_pos (polyval_expDenoCoef_pos hx), ?_⟩
  exact Int.ediv_nonneg
    (mul_nonneg (polyval_expNumCoef_nonneg hx hx2) (Horner.two_pow_pos precision).le)
    (polyval_expDenoCoef_pos hx).le

theorem exists_lambda {power totalPower : Int} (hpower : 0 ≤ power) (hle : power ≤ totalPower)
    (htotal : 0 < totalPower) :
    ∃ lam, lambda power totalPower = .ok lam ∧ 0 ≤ lam ∧ lam ≤ 2 * 2 ^ precision := by
  have hscale := Horner.two_pow_pos precision
  have hnum : 0 ≤ power * expectedLeadersPerEpoch * 2 ^ precision :=
    mul_nonneg (mul_nonneg hpower (by decide)) hscale.le
  refine ⟨_, bigDiv_of_pos htotal, Int.ediv_nonneg hnum htotal.le, ?_⟩
  refine Int.ediv_le_of_le_mul htotal ?_
  show power * 2 * 2 ^ precision ≤ 2 * 2 ^ precision * totalPower
  calc power * 2 * 2 ^ precision ≤ totalPower * 2 * 2 ^ precision :=
        mul_le_mul_of_nonneg_right (mul_le_mul_of_nonneg_right hle (by decide)) hscale.le
    _ = 2 * 2 ^ precision * totalPower := by ring

/-! ## The sequence -/

/-- `s` is what `newPoiss` and the calls of `next` produce.  The call that would make `k`
    zero again divides by it. -/
structure Produced (lam : Int) (s : ℕ → Poiss) : Prop where
  first : newPoiss lam = .ok (s 0)
  next : ∀ k, k + 1 < 2 ^ 64 → (s k).next = .ok (s (k + 1))

/-- `next`, as long as `k` has not reached its largest value. -/
theorem Poiss.next_eq {p : Poiss} (hk : p.k.toNat + 1 < 2 ^ 64) :
    p.next = .ok { p with
      pmf := (p.pmf / ((p.k.toNat + 1 : ℕ) : Int) * p.lam) >>> precision
      icdf := p.icdf - (p.pmf / ((p.k.toNat + 1 : ℕ) : Int) * p.lam) >>> precision
      k := p.k + 1 } := by
  have hadd : (p.k + 1).toNat = p.k.toNat + 1 := by
    rw [UInt64.toNat_add]
    exact Nat.mod_eq_of_lt hk
  have hdiv : bigDiv p.pmf (p.k + 1).toNat = .ok (p.pmf / ((p.k.toNat + 1 : ℕ) : Int)) := by
    rw [hadd]
    exact bigDiv_of_pos (by omega)
  rw [Poiss.next, hdiv]
  rfl

/-- What holds of every term of the sequence. -/
structure Poiss.Sound (lam : Int) (k : ℕ) (p : Poiss) : Prop where
  lam : p.lam = lam
  k : p.k.toNat = k
  pmf : 0 ≤ p.pmf

section Terms

variable {lam : Int} {k : ℕ} {p : Poiss}

theorem exists_newPoiss (hlam : 0 ≤ lam) (hlam2 : lam ≤ 2 * 2 ^ precision) :
    ∃ p, newPoiss lam = .ok p ∧ p.Sound lam 0 ∧ p.icdf + p.pmf = 2 ^ precision := by
  obtain ⟨e, he, hnonneg⟩ := exists_expneg hlam hlam2
  refine ⟨⟨lam, e, 2 ^ precision - e, 0⟩, ?_, ⟨rfl, rfl, hnonneg⟩, sub_add_cancel ..⟩
  rw [newPoiss, he]
  rfl

/-- One more term, taken off the threshold. -/
theorem Poiss.Sound.next (hlam : 0 ≤ lam) (h : p.Sound lam k) (hk : k + 1 < 2 ^ 64) :
    ∃ q, p.next = .ok q ∧ q.Sound lam (k + 1) ∧ q.icdf + q.pmf = p.icdf := by
  have hpk : p.k.toNat + 1 < 2 ^ 64 := by
    rw [h.k]
    exact hk
  refine ⟨_, Poiss.next_eq hpk, ⟨h.lam, ?_, ?_⟩, sub_add_cancel ..⟩
  · show (p.k + 1).toNat = k + 1
    rw [UInt64.toNat_add, h.k]
    exact Nat.mod_eq_of_lt hk
  · refine Horner.le_shiftRight.mpr ?_
    rw [zero_mul, h.lam]
    exact mul_nonneg (Int.ediv_nonneg h.pmf (Int.natCast_nonneg _)) hlam

end Terms

/-- What `k` calls of `next` leave. -/
def Poiss.after (p : Poiss) : ℕ → Poiss
  | 0 => p
  | k + 1 =>
    match (p.after k).next with
    | .ok q => q
    | .error _ => p.after k

section Produced

variable {lam : Int} {s : ℕ → Poiss} {k : ℕ}

theorem exists_produced (hlam : 0 ≤ lam) (hlam2 : lam ≤ 2 * 2 ^ precision) :
    ∃ s, Produced lam s := by
  obtain ⟨p, hp, hsound, -⟩ := exists_newPoiss hlam hlam2
  have hafter : ∀ k, k < 2 ^ 64 → (p.after k).Sound lam k := by
    intro k
    induction k with
    | zero => exact fun _ => hsound
    | succ k ih =>
        intro hk
        obtain ⟨q, hq, hsound', -⟩ := (ih (by omega)).next hlam hk
        rw [Poiss.after, hq]
        exact hsound'
  refine ⟨p.after, hp, ?_⟩
  intro k hk
  obtain ⟨q, hq, -⟩ := (hafter k (by omega)).next hlam hk
  rw [Poiss.after, hq]

theorem Produced.sound (h : Produced lam s) (hlam : 0 ≤ lam) (hlam2 : lam ≤ 2 * 2 ^ precision)
    (hk : k < 2 ^ 64) : (s k).Sound lam k := by
  induction k with
  | zero =>
      obtain ⟨p, hp, hsound, -⟩ := exists_newPoiss hlam hlam2
      obtain rfl : s 0 = p := Except.ok.inj (h.first.symm.trans hp)
      exact hsound
  | succ k ih =>
      obtain ⟨q, hq, hsound, -⟩ := (ih (by omega)).next hlam hk
      obtain rfl : s (k + 1) = q := Except.ok.inj ((h.next k hk).symm.trans hq)
      exact hsound

theorem Produced.icdf_step (h : Produced lam s) (hlam : 0 ≤ lam) (hlam2 : lam ≤ 2 * 2 ^ precision)
    (hk : k + 1 < 2 ^ 64) : (s (k + 1)).icdf + (s (k + 1)).pmf = (s k).icdf := by
  obtain ⟨q, hq, -, hicdf⟩ := (h.sound hlam hlam2 (by omega : k < 2 ^ 64)).next hlam hk
  obtain rfl : s (k + 1) = q := Except.ok.inj ((h.next k hk).symm.trans hq)
  exact hicdf

/-- The threshold is what the terms so far leave of 1. -/
theorem Produced.icdf_add_sum (h : Produced lam s) (hlam : 0 ≤ lam)
    (hlam2 : lam ≤ 2 * 2 ^ precision) (hk : k < 2 ^ 64) :
    (s k).icdf + ∑ i ∈ Finset.range (k + 1), (s i).pmf = 2 ^ precision := by
  induction k with
  | zero =>
      obtain ⟨p, hp, -, hicdf⟩ := exists_newPoiss hlam hlam2
      obtain rfl : s 0 = p := Except.ok.inj (h.first.symm.trans hp)
      simpa using hicdf
  | succ k ih =>
      rw [Finset.sum_range_succ, add_comm _ (s (k + 1)).pmf, ← add_assoc,
        h.icdf_step hlam hlam2 hk]
      exact ih (by omega)

theorem Produced.icdf_succ_le (h : Produced lam s) (hlam : 0 ≤ lam)
    (hlam2 : lam ≤ 2 * 2 ^ precision) (hk : k + 1 < 2 ^ 64) : (s (k + 1)).icdf ≤ (s k).icdf := by
  have hpmf := (h.sound hlam hlam2 hk).pmf
  have hstep := h.icdf_step hlam hlam2 hk
  omega

theorem Produced.icdf_le (h : Produced lam s) (hlam : 0 ≤ lam) (hlam2 : lam ≤ 2 * 2 ^ precision)
    {n : ℕ} (hn : k + n < 2 ^ 64) : (s (k + n)).icdf ≤ (s k).icdf := by
  induction n with
  | zero => exact le_refl _
  | succ n ih => exact (h.icdf_succ_le hlam hlam2 hn).trans (ih (by omega))

/-! ## Counting -/

theorem ofNat_succ (n : ℕ) : Int64.ofNat n + 1 = Int64.ofNat (n + 1) := by
  rw [Int64.ofNat_add]
  rfl

/-- The loop, from the `k`-th threshold on: a hash that does not beat one does not beat
    any later one. -/
theorem Produced.winLoop_eq (h : Produced lam s) (hlam : 0 ≤ lam) (hlam2 : lam ≤ 2 * 2 ^ precision)
    (lhs : Int) {left : ℕ} (hk : k + left < 2 ^ 64) :
    winLoop lhs left (s k) (Int64.ofNat k)
      = .ok (Int64.ofNat (k + Nat.count (fun i => lhs < (s (k + i)).icdf) left)) := by
  induction left generalizing k with
  | zero => rfl
  | succ left ih =>
      have hk' : k + 1 + left < 2 ^ 64 := by omega
      rw [winLoop]
      split
      · next hlt =>
          have hcount : Nat.count (fun i => lhs < (s (k + i)).icdf) (left + 1)
              = Nat.count (fun i => lhs < (s (k + 1 + i)).icdf) left + 1 := by
            rw [Nat.count_succ', if_pos (show lhs < (s (k + 0)).icdf from hlt)]
            simp only [Nat.add_assoc, Nat.add_comm 1]
          rw [h.next k (by omega), ok_bind, ofNat_succ, ih hk', hcount]
          congr 2
          omega
      · next hge =>
          have hnone : Nat.count (fun i => lhs < (s (k + i)).icdf) (left + 1) = 0 := by
            refine Nat.count_of_forall_not fun i hi hlt => hge ?_
            exact lt_of_lt_of_le hlt (h.icdf_le hlam hlam2 (by omega))
          rw [hnone, Nat.add_zero]

end Produced

/-- The wins of a proof with the hash `lhs`. -/
def wins (s : ℕ → Poiss) (lhs : Int) : ℕ := Nat.count (fun k => lhs < (s k).icdf) maxWinCount

theorem wins_le (s : ℕ → Poiss) (lhs : Int) : wins s lhs ≤ maxWinCount := Nat.count_le _

theorem wins_antitone (s : ℕ → Poiss) {lhs lhs' : Int} (h : lhs ≤ lhs') :
    wins s lhs' ≤ wins s lhs :=
  Nat.count_mono_left fun _ _ hlt => lt_of_le_of_lt h hlt

theorem toInt_ofNat_wins (s : ℕ → Poiss) (lhs : Int) :
    (Int64.ofNat (wins s lhs)).toInt = wins s lhs := by
  have hle := wins_le s lhs
  have hmax : maxWinCount = 20 := rfl
  exact Int64.toInt_ofNat_of_lt (by omega)

theorem Produced.computeWinCount_eq {lam : Int} {s : ℕ → Poiss} (h : Produced lam s)
    (hlam : 0 ≤ lam) (hlam2 : lam ≤ 2 * 2 ^ precision) {power totalPower : Int}
    (hlambda : lambda power totalPower = .ok lam) (sum256 : Bytes → Bytes) (ep : ElectionProof) :
    computeWinCount sum256 ep power totalPower
      = .ok (Int64.ofNat (wins s (setBytes (sum256 ep.vrfProof)))) := by
  have hloop : winLoop (setBytes (sum256 ep.vrfProof)) maxWinCount (s 0) (Int64.ofNat 0) = _ :=
    h.winLoop_eq hlam hlam2 _ (by decide)
  simp only [Nat.zero_add] at hloop
  rw [computeWinCount, hlambda, ok_bind, h.first, ok_bind]
  exact hloop

/-- `ComputeWinCount` counts the thresholds that the hash is below: for a stake that is
    part of a positive total, the terms of the sequence are not negative, the thresholds
    are what the terms leave of 1, and they fall.  So the count is between 0 and
    `MaxWinCount` and does not grow with the hash.  The program that computes in shared
    variables returns the same. -/
theorem computeWinCount_exact (sum256 : Bytes → Bytes) {power totalPower : Int}
    (hpower : 0 ≤ power) (hle : power ≤ totalPower) (htotal : 0 < totalPower) :
    ∃ lam s, lambda power totalPower = .ok lam ∧ Produced lam s ∧
      (∀ k < 2 ^ 64, 0 ≤ (s k).pmf ∧
        (s k).icdf + ∑ i ∈ Finset.range (k + 1), (s i).pmf = 2 ^ 256) ∧
      (∀ k, k + 1 < 2 ^ 64 → (s (k + 1)).icdf ≤ (s k).icdf) ∧
      (∀ ep : ElectionProof, ∃ j, computeWinCount sum256 ep power totalPower = .ok j ∧
        j.toInt = Nat.count (fun k => setBytes (sum256 ep.vrfProof) < (s k).icdf) maxWinCount ∧
        0 ≤ j.toInt ∧ j.toInt ≤ maxWinCount ∧
        ∀ (g : InPlace.Globals) (cells : List Int) (pw tot : BigInt.Ptr), g.Loaded cells →
          cells[pw]? = some power → cells[tot]? = some totalPower →
          ∃ cells', InPlace.computeWinCount g sum256 ep pw tot cells = .ok (j, cells') ∧
            cells <+: cells') ∧
      ∀ (ep ep' : ElectionProof) j j',
        setBytes (sum256 ep.vrfProof) ≤ setBytes (sum256 ep'.vrfProof) →
        computeWinCount sum256 ep power totalPower = .ok j →
        computeWinCount sum256 ep' power totalPower = .ok j' → j'.toInt ≤ j.toInt := by
  obtain ⟨lam, hlambda, hlam, hlam2⟩ := exists_lambda hpower hle htotal
  obtain ⟨s, hs⟩ := exists_produced hlam hlam2
  have hcount := hs.computeWinCount_eq hlam hlam2 hlambda sum256
  refine ⟨lam, s, hlambda, hs, ?_, ?_, ?_, ?_⟩
  · exact fun k hk => ⟨(hs.sound hlam hlam2 hk).pmf, hs.icdf_add_sum hlam hlam2 hk⟩
  · exact fun k hk => hs.icdf_succ_le hlam hlam2 hk
  · intro ep
    refine ⟨_, hcount ep, toInt_ofNat_wins .., ?_, ?_, ?_⟩
    · rw [toInt_ofNat_wins]
      exact Int.natCast_nonneg _
    · rw [toInt_ofNat_wins]
      exact Int.ofNat_le.mpr (wins_le ..)
    · intro g cells pw tot hg hpw htot
      have hrefines := InPlace.computeWinCount_refines sum256 hg ep hpw htot
      rw [hcount ep] at hrefines
      obtain ⟨j, cells', hrun, rfl, hframe⟩ := hrefines.of_ok
      exact ⟨cells', hrun, hframe⟩
  · intro ep ep' j j' hhash hj hj'
    obtain rfl := Except.ok.inj ((hcount ep).symm.trans hj)
    obtain rfl := Except.ok.inj ((hcount ep').symm.trans hj')
    rw [toInt_ofNat_wins, toInt_ofNat_wins]
    exact Int.ofNat_le.mpr (wins_antitone s hhash)

/-- Half of the stake: the thresholds are those of `lambda` 1. -/
theorem computeWinCount_exact_half :
    ∃ s, Produced (2 ^ 256) s ∧ (∀ k, k + 1 < 2 ^ 64 → (s (k + 1)).icdf ≤ (s k).icdf) ∧
      ∃ j, computeWinCount id ⟨0, [7], 0⟩ 1 2 = .ok j ∧
        j.toInt = Nat.count (fun k => 7 < (s k).icdf) maxWinCount := by
  obtain ⟨lam, s, hlambda, hs, -, hfall, hcount, -⟩ :=
    computeWinCount_exact id (show (0 : Int) ≤ 1 by decide) (show (1 : Int) ≤ 2 by decide)
      (by decide)
  have hone : lambda 1 2 = .ok (2 ^ 256) := by decide +kernel
  obtain rfl : 2 ^ 256 = lam := Except.ok.inj (hone.symm.trans hlambda)
  obtain ⟨j, hj, hcount, -⟩ := hcount ⟨0, [7], 0⟩
  exact ⟨s, hs, hfall, j, hj, hcount⟩

end ElectionProof

end Dione
