/-
  Dione.Election.Stakes

  More stake never loses the election: `expneg (lambda power)` does not grow with the
  power.

  The denominator of `expneg` grows with its argument.  The numerator falls, but each of
  its values is off by the floors of the evaluation, so for two arguments next to each
  other nothing is known.  The arguments of two different stakes are never that close:
  a total below 2^128 keeps them 2^129 units apart, and 2040 would do.
-/

import Dione.Election.Sequence

namespace Dione

open Guard

namespace ElectionProof

/-- A larger divisor gives a smaller quotient. -/
theorem ediv_le_ediv_of_divisor {a d d' : Int} (ha : 0 ≤ a) (hd : 0 < d) (hle : d ≤ d') :
    a / d' ≤ a / d := by
  have hd' : 0 < d' := hd.trans_le hle
  refine (Int.le_ediv_iff_mul_le hd).mpr ?_
  calc a / d' * d ≤ a / d' * d' := mul_le_mul_of_nonneg_left hle (Int.ediv_nonneg ha hd'.le)
    _ ≤ a := Int.ediv_mul_le a hd'.ne'

section Monotone

variable {x y : Int}

theorem polyval_expDenoCoef_mono (hx : 0 ≤ x) (hxy : x ≤ y) :
    polyval expDenoCoef x ≤ polyval expDenoCoef y := by
  rw [polyval_eq_evalFixed, polyval_eq_evalFixed]
  exact Horner.evalFixed_mono expDenoCoef_nonneg hx hxy

theorem polyval_expNumCoef_antitone (hx : 0 ≤ x) (hy : y ≤ 2 * 2 ^ precision)
    (hapart : x + 2040 ≤ y) : polyval expNumCoef y ≤ polyval expNumCoef x := by
  have hxy : x ≤ y := by omega
  obtain ⟨-, hslope, herror⟩ := expNumCoef_enclosure
  rw [polyval_eq_evalFixed, polyval_eq_evalFixed]
  refine (Horner.Enclosure.holds_ofCoefs expNumCoef hx hxy hy).le_of_slope hxy hslope ?_
  -- 255 units of error against an eighth of the distance
  rw [herror]
  have hscale : (2 : Int) ^ precision = 8 * 2 ^ 253 := by decide +kernel
  have hpos : (0 : Int) ≤ 2 ^ 253 := by decide +kernel
  calc ((255 : ℕ) : Int) * 2 ^ precision = 2 ^ 253 * 2040 := by rw [hscale]; ring
    _ ≤ 2 ^ 253 * (y - x) := mul_le_mul_of_nonneg_left (by omega) hpos

theorem expneg_antitone (hx : 0 ≤ x) (hy : y ≤ 2 * 2 ^ precision) (hapart : x + 2040 ≤ y) :
    ∃ e e', expneg x = .ok e ∧ expneg y = .ok e' ∧ e' ≤ e := by
  have hxy : x ≤ y := by omega
  have hnum := polyval_expNumCoef_antitone hx hy hapart
  have hnonneg := polyval_expNumCoef_nonneg hx (hxy.trans hy)
  have hdeno := polyval_expDenoCoef_mono hx hxy
  have hpos := polyval_expDenoCoef_pos hx
  have hscale := Horner.two_pow_pos precision
  refine ⟨_, _, bigDiv_of_pos hpos, bigDiv_of_pos (hpos.trans_le hdeno), ?_⟩
  calc polyval expNumCoef y * 2 ^ precision / polyval expDenoCoef y
      ≤ polyval expNumCoef x * 2 ^ precision / polyval expDenoCoef y :=
        Int.ediv_le_ediv (hpos.trans_le hdeno) (mul_le_mul_of_nonneg_right hnum hscale.le)
    _ ≤ polyval expNumCoef x * 2 ^ precision / polyval expDenoCoef x :=
        ediv_le_ediv_of_divisor (mul_nonneg hnonneg hscale.le) hpos hdeno

end Monotone

/-- One unit of power is far more than the floors. -/
theorem lambda_apart {p₁ p₂ total : ℕ} {lam₁ lam₂ : Int} (hlt : p₁ < p₂) (hpos : 0 < total)
    (htotal : total < 2 ^ 128) (hlam₁ : lambda p₁ total = .ok lam₁)
    (hlam₂ : lambda p₂ total = .ok lam₂) : lam₁ + 2040 ≤ lam₂ := by
  have hpos' : (0 : Int) < total := Int.natCast_pos.mpr hpos
  rw [lambda, bigDiv_of_pos hpos'] at hlam₁ hlam₂
  obtain rfl := Except.ok.inj hlam₁
  obtain rfl := Except.ok.inj hlam₂
  have hscale : (2 : Int) ^ precision = 2 ^ 128 * 2 ^ 128 := by decide +kernel
  have hscale_pos : (0 : Int) < 2 ^ precision := Horner.two_pow_pos precision
  have hfloor : (p₁ : Int) * expectedLeadersPerEpoch * 2 ^ precision / total * total
      ≤ p₁ * expectedLeadersPerEpoch * 2 ^ precision := Int.ediv_mul_le _ hpos'.ne'
  have hunit : (2040 : Int) * total ≤ expectedLeadersPerEpoch * 2 ^ precision := by
    have htotal' : (total : Int) ≤ 2 ^ 128 := by exact_mod_cast htotal.le
    rw [hscale]
    show (2040 : Int) * total ≤ 2 * (2 ^ 128 * 2 ^ 128)
    linarith
  have hnext : (p₁ : Int) + 1 ≤ p₂ := by exact_mod_cast hlt
  refine (Int.le_ediv_iff_mul_le hpos').mpr ?_
  calc ((p₁ : Int) * expectedLeadersPerEpoch * 2 ^ precision / total + 2040) * total
      ≤ p₁ * expectedLeadersPerEpoch * 2 ^ precision + expectedLeadersPerEpoch * 2 ^ precision := by
        linarith
    _ = (p₁ + 1) * expectedLeadersPerEpoch * 2 ^ precision := by ring
    _ ≤ p₂ * expectedLeadersPerEpoch * 2 ^ precision :=
        mul_le_mul_of_nonneg_right (mul_le_mul_of_nonneg_right hnext (by decide)) hscale_pos.le

theorem Produced.one_le_wins_iff {lam : Int} {s : ℕ → Poiss} (h : Produced lam s) (hlam : 0 ≤ lam)
    (hlam2 : lam ≤ 2 * 2 ^ precision) (lhs : Int) : 1 ≤ wins s lhs ↔ lhs < (s 0).icdf := by
  rw [wins, Nat.one_le_iff_ne_zero, Nat.count_ne_iff_exists]
  constructor
  · rintro ⟨k, hk, hlt⟩
    have hmax : maxWinCount = 20 := rfl
    have hle := h.icdf_le hlam hlam2 (k := 0) (n := k) (by omega)
    rw [Nat.zero_add] at hle
    exact hlt.trans_le hle
  · intro hlt
    exact ⟨0, by decide, hlt⟩

theorem Produced.icdf_zero {lam e : Int} {s : ℕ → Poiss} (h : Produced lam s)
    (he : expneg lam = .ok e) : (s 0).icdf = 2 ^ precision - e := by
  have hfirst := h.first
  rw [newPoiss, he] at hfirst
  rw [← Except.ok.inj hfirst]

/-- For stakes `p₁ ≤ p₂` of a total below 2^128, a proof that wins with the first wins
    with the second. -/
theorem computeWinCount_stake_mono (sum256 : Bytes → Bytes) {p₁ p₂ total : ℕ} (hle : p₁ ≤ p₂)
    (hle₂ : p₂ ≤ total) (hpos : 0 < total) (htotal : total < 2 ^ 128) :
    ∃ lam₁ lam₂ e₁ e₂, lambda p₁ total = .ok lam₁ ∧ lambda p₂ total = .ok lam₂ ∧
      expneg lam₁ = .ok e₁ ∧ expneg lam₂ = .ok e₂ ∧ e₂ ≤ e₁ ∧
      ∀ ep : ElectionProof, ∃ j₁ j₂, computeWinCount sum256 ep p₁ total = .ok j₁ ∧
        computeWinCount sum256 ep p₂ total = .ok j₂ ∧ (1 ≤ j₁.toInt → 1 ≤ j₂.toInt) := by
  have hpos' : (0 : Int) < total := Int.natCast_pos.mpr hpos
  obtain ⟨lam₁, hlambda₁, hlam₁, hlam₁'⟩ := exists_lambda (Int.natCast_nonneg p₁)
    (Int.ofNat_le.mpr (hle.trans hle₂)) hpos'
  obtain ⟨lam₂, hlambda₂, hlam₂, hlam₂'⟩ := exists_lambda (Int.natCast_nonneg p₂)
    (Int.ofNat_le.mpr hle₂) hpos'
  obtain ⟨e₁, e₂, he₁, he₂, hantitone⟩ :
      ∃ e₁ e₂, expneg lam₁ = .ok e₁ ∧ expneg lam₂ = .ok e₂ ∧ e₂ ≤ e₁ := by
    rcases Nat.eq_or_lt_of_le hle with rfl | hlt
    · obtain rfl := Except.ok.inj (hlambda₁.symm.trans hlambda₂)
      obtain ⟨e, he, -⟩ := exists_expneg hlam₁ hlam₁'
      exact ⟨e, e, he, he, le_refl e⟩
    · exact expneg_antitone hlam₁ hlam₂' (lambda_apart hlt hpos htotal hlambda₁ hlambda₂)
  refine ⟨lam₁, lam₂, e₁, e₂, hlambda₁, hlambda₂, he₁, he₂, hantitone, ?_⟩
  intro ep
  obtain ⟨s₁, hs₁⟩ := exists_produced hlam₁ hlam₁'
  obtain ⟨s₂, hs₂⟩ := exists_produced hlam₂ hlam₂'
  refine ⟨_, _, hs₁.computeWinCount_eq hlam₁ hlam₁' hlambda₁ sum256 ep,
    hs₂.computeWinCount_eq hlam₂ hlam₂' hlambda₂ sum256 ep, ?_⟩
  rw [toInt_ofNat_wins, toInt_ofNat_wins]
  intro hwin
  have hwin₁ := (hs₁.one_le_wins_iff hlam₁ hlam₁' _).mp (by exact_mod_cast hwin)
  rw [hs₁.icdf_zero he₁] at hwin₁
  have hwin₂ : 1 ≤ wins s₂ (setBytes (sum256 ep.vrfProof)) := by
    rw [hs₂.one_le_wins_iff hlam₂ hlam₂', hs₂.icdf_zero he₂]
    omega
  exact_mod_cast hwin₂

/-- One of 3 tokens, and 2 of them. -/
theorem computeWinCount_stake_mono_three :
    ∃ lam₁ lam₂ e₁ e₂, lambda 1 3 = .ok lam₁ ∧ lambda 2 3 = .ok lam₂ ∧
      expneg lam₁ = .ok e₁ ∧ expneg lam₂ = .ok e₂ ∧ e₂ ≤ e₁ := by
  obtain ⟨lam₁, lam₂, e₁, e₂, h₁, h₂, he₁, he₂, hle, -⟩ :=
    computeWinCount_stake_mono id (show 1 ≤ 2 by decide) (show 2 ≤ 3 by decide) (by decide)
      (by decide)
  exact ⟨lam₁, lam₂, e₁, e₂, h₁, h₂, he₁, he₂, hle⟩

end ElectionProof

end Dione
