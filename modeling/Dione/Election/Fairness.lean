/-
  Dione.Election.Fairness

  What the election is for: blocks are won in proportion to stake, and nobody gains by
  spreading a stake over several accounts.

  The hash of a VRF proof is taken as drawn evenly from all 32-byte strings.  The mean of
  the win count over all of them is then the sum of the thresholds that `ComputeWinCount`
  compares the hash with.  The thresholds are Poisson tails with the errors of `expneg` and
  of the floors in `next`, and there are `MaxWinCount` of them, so the mean is `lambda` up
  to these errors and to the tails that are cut off.
-/

import Dione.Election.Accuracy
import Dione.Lib.Cbor
import Dione.Lib.Poisson
import Mathlib.Algebra.BigOperators.Field

namespace Dione.ElectionProof

open Guard

/-! ## Drawn hashes -/

/-- The hash `d`. -/
def digest (d : ℕ) : Bytes := Cbor.beBytes 32 d

/-- `SetBytes` reads a number in big-endian order. -/
theorem setBytes_eq_beValue (b : Bytes) : setBytes b = Cbor.beValue b := by
  have hfold : ∀ acc : Int, b.foldl (fun acc x => acc * 256 + (x.toNat : Int)) acc
      = acc * 256 ^ b.length + Cbor.beValue b := by
    induction b with
    | nil => simp [Cbor.beValue]
    | cons x b ih =>
        intro acc
        rw [List.foldl_cons, ih, List.length_cons, Cbor.beValue]
        push_cast
        ring
  rw [setBytes, hfold, zero_mul, zero_add]

theorem setBytes_digest {d : ℕ} (hd : d < 2 ^ 256) : setBytes (digest d) = d := by
  rw [setBytes_eq_beValue, digest, Cbor.beValue_beBytes (lt_of_lt_of_eq hd (by norm_num))]

/-- The win count if the hash of the proof is `d`. -/
def drawnWinCount (ep : ElectionProof) (power totalPower : Int) (d : ℕ) : Int :=
  match computeWinCount (fun _ => digest d) ep power totalPower with
  | .ok j => j.toInt
  | .error _ => 0

/-- The mean of the win count over all hashes. -/
noncomputable def meanWinCount (ep : ElectionProof) (power totalPower : Int) : ℝ :=
  (∑ d ∈ Finset.range (2 ^ 256), (drawnWinCount ep power totalPower d : ℝ)) / (2 ^ 256 : ℕ)

section Mean

variable {lam power totalPower : Int} {s : ℕ → Poiss}

theorem Produced.drawnWinCount_eq (h : Produced lam s) (hlam : 0 ≤ lam)
    (hlam2 : lam ≤ 2 * 2 ^ precision) (hlambda : lambda power totalPower = .ok lam)
    (ep : ElectionProof) {d : ℕ} (hd : d < 2 ^ 256) :
    drawnWinCount ep power totalPower d
      = Nat.count (fun k => (d : Int) < (s k).icdf) maxWinCount := by
  rw [drawnWinCount, h.computeWinCount_eq hlam hlam2 hlambda]
  show (Int64.ofNat (wins s (setBytes (digest d)))).toInt = _
  rw [toInt_ofNat_wins, setBytes_digest hd, wins]

/-- The thresholds as what the masses leave of 1. -/
theorem Produced.icdf_eq (h : Produced lam s) (hlam : 0 ≤ lam) (hlam2 : lam ≤ 2 * 2 ^ precision)
    {k : ℕ} (hk : k < 2 ^ 64) :
    ((s k).icdf : ℝ) = (1 - ∑ i ∈ Finset.range (k + 1), ((s i).pmf : ℝ) / 2 ^ 256) * 2 ^ 256 := by
  have hsum := h.icdf_add_sum hlam hlam2 hk
  have hcast : ((s k).icdf : ℝ) + ∑ i ∈ Finset.range (k + 1), ((s i).pmf : ℝ) = 2 ^ 256 := by
    exact_mod_cast hsum
  rw [← Finset.sum_div, sub_mul, div_mul_cancel₀ _ (by positivity), one_mul]
  linarith

theorem Produced.meanWinCount_eq (h : Produced lam s) (hlam : 0 ≤ lam)
    (hlam2 : lam ≤ 2 * 2 ^ precision) (hlambda : lambda power totalPower = .ok lam)
    (ep : ElectionProof) : meanWinCount ep power totalPower = ∑ k ∈ Finset.range maxWinCount,
      max (1 - ∑ i ∈ Finset.range (k + 1), ((s i).pmf : ℝ) / 2 ^ 256) 0 := by
  have hmax : maxWinCount < 2 ^ 64 := by decide
  have hbound : ∀ k < maxWinCount, (s k).icdf ≤ ((2 ^ 256 : ℕ) : ℤ) := by
    intro k hk
    have hsum := h.icdf_add_sum hlam hlam2 (hk.trans hmax)
    have hnonneg : 0 ≤ ∑ i ∈ Finset.range (k + 1), (s i).pmf := by
      apply Finset.sum_nonneg
      intro i hi
      have hik := Finset.mem_range.mp hi
      exact (h.sound hlam hlam2 (by omega)).pmf
    push_cast
    have hprecision : precision = 256 := rfl
    rw [hprecision] at hsum
    linarith
  have hdraws : ∑ d ∈ Finset.range (2 ^ 256), (drawnWinCount ep power totalPower d : ℝ)
      = ∑ k ∈ Finset.range maxWinCount, max ((s k).icdf : ℝ) 0 := by
    rw [← Poisson.sum_count_lt hbound]
    refine Finset.sum_congr rfl fun d hd => ?_
    rw [h.drawnWinCount_eq hlam hlam2 hlambda ep (Finset.mem_range.mp hd), Int.cast_natCast]
  rw [meanWinCount, hdraws, Finset.sum_div, Nat.cast_pow, Nat.cast_ofNat]
  refine Finset.sum_congr rfl fun k hk => ?_
  rw [h.icdf_eq hlam hlam2 ((Finset.mem_range.mp hk).trans hmax)]
  rw [← max_div_div_right (by positivity), mul_div_cancel_right₀ _ (by positivity), zero_div]

end Mean

/-! ## The errors of the thresholds -/

/-- What is at most `c` units too small. -/
theorem abs_units_sub_le {r v c : ℝ} (hle : r ≤ v) (hge : v ≤ r + c) :
    |r / 2 ^ 256 - v / 2 ^ 256| ≤ c / 2 ^ 256 := by
  rw [← sub_div, abs_div, abs_of_pos (show (0 : ℝ) < 2 ^ 256 by positivity)]
  gcongr
  rw [abs_le]
  constructor
  · linarith
  · linarith

/-- One step of `next`: both floors together take off less than three units. -/
theorem pmf_error_le {lam a : Int} {m : ℕ} (hm : 0 < m) (hlam : 0 ≤ lam)
    (hlam2 : lam ≤ 2 * 2 ^ 256) :
    |(((a / m * lam) >>> precision : Int) : ℝ) / 2 ^ 256 - arg lam / m * (a / 2 ^ 256)|
      ≤ 3 / 2 ^ 256 := by
  have hmpos : (0 : ℝ) < m := Nat.cast_pos.mpr hm
  have harg := arg_nonneg hlam
  have harg2 : arg lam ≤ 2 := by
    rw [arg, div_le_iff₀ (by positivity)]
    exact_mod_cast hlam2
  -- the quotient by `m` loses less than 1
  have hquot : ((a / m : Int) : ℝ) ≤ a / m := by
    rw [le_div_iff₀ hmpos]
    exact_mod_cast Int.ediv_mul_le a (by omega)
  have hquot' : (a : ℝ) / m ≤ ((a / m : Int) : ℝ) + 1 := by
    rw [div_le_iff₀ hmpos]
    exact_mod_cast (Int.lt_ediv_add_one_mul_self a (by omega)).le
  -- so does the shift
  have hshift : (((a / m * lam) >>> precision : Int) : ℝ) ≤ ((a / m : Int) : ℝ) * arg lam := by
    rw [arg, ← mul_div_assoc, le_div_iff₀ (by positivity)]
    exact_mod_cast Horner.shiftRight_mul_le (a / m * lam) precision
  have hshift' : ((a / m : Int) : ℝ) * arg lam
      ≤ (((a / m * lam) >>> precision : Int) : ℝ) + 1 := by
    rw [arg, ← mul_div_assoc, div_le_iff₀ (by positivity), add_mul, one_mul]
    exact_mod_cast (Horner.lt_shiftRight_mul_add (a / m * lam) precision).le
  have hmul := mul_le_mul_of_nonneg_right hquot harg
  have hmul' := mul_le_mul_of_nonneg_right hquot' harg
  have hunits : arg lam / m * (a / 2 ^ 256) = a / m * arg lam / 2 ^ 256 := by ring
  rw [hunits]
  apply abs_units_sub_le
  · linarith
  · linarith

section Errors

variable {lam : Int} {s : ℕ → Poiss}

theorem Produced.pmf_zero {e : Int} (h : Produced lam s) (he : expneg lam = .ok e) :
    (s 0).pmf = e := by
  have hfirst := h.first
  rw [newPoiss, he, ok_bind] at hfirst
  exact (congrArg Poiss.pmf (Except.ok.inj hfirst)).symm

theorem Produced.pmf_succ (h : Produced lam s) (hlam : 0 ≤ lam) (hlam2 : lam ≤ 2 * 2 ^ precision)
    {k : ℕ} (hk : k + 1 < 2 ^ 64) :
    (s (k + 1)).pmf = ((s k).pmf / ((k + 1 : ℕ) : Int) * lam) >>> precision := by
  have hsound := h.sound hlam hlam2 (show k < 2 ^ 64 by omega)
  have hnext := Poiss.next_eq (p := s k) (by rw [hsound.k]; exact hk)
  rw [h.next k hk, hsound.k, hsound.lam] at hnext
  exact congrArg Poiss.pmf (Except.ok.inj hnext)

theorem Produced.follows {e : Int} {ε : ℝ} (h : Produced lam s) (hlam : 0 ≤ lam)
    (hlam2 : lam ≤ 2 * 2 ^ precision) (he : expneg lam = .ok e) (herror : |expnegError lam e| ≤ ε)
    (hε : 3 / 2 ^ 256 ≤ ε) :
    Poisson.Follows (arg lam) ε maxWinCount fun k => ((s k).pmf : ℝ) / 2 ^ 256 where
  first := by
    rw [h.pmf_zero he]
    exact herror
  next k hk := by
    have hmax : maxWinCount < 2 ^ 64 := by decide
    rw [h.pmf_succ hlam hlam2 (hk.trans hmax)]
    have hstep := pmf_error_le (a := (s k).pmf) (m := k + 1) (Nat.succ_pos k) hlam hlam2
    push_cast at hstep ⊢
    exact hstep.trans hε

end Errors

/-! ## Means -/

/-- The part of the expected leaders that belongs to a stake. -/
noncomputable def share (power total : ℕ) : ℝ := expectedLeadersPerEpoch * power / total

theorem share_le {power total n : ℕ} (htotal : 0 < total) (h : 2 * power ≤ n * total) :
    share power total ≤ n := by
  have hleaders : (expectedLeadersPerEpoch : ℝ) = 2 := by norm_num [expectedLeadersPerEpoch]
  rw [share, hleaders, div_le_iff₀ (Nat.cast_pos.mpr htotal)]
  exact_mod_cast h

theorem share_nonneg (power total : ℕ) : 0 ≤ share power total :=
  div_nonneg (mul_nonneg (Int.cast_nonneg (by decide)) (Nat.cast_nonneg _)) (Nat.cast_nonneg _)

/-- `lambda` is the share with a floor. -/
theorem arg_lambda {power total : ℕ} {lam : Int} (htotal : 0 < total)
    (hlambda : lambda power total = .ok lam) :
    arg lam ≤ share power total ∧ |arg lam - share power total| ≤ 1 / 2 ^ 256 := by
  have hpos : (0 : ℝ) < total := Nat.cast_pos.mpr htotal
  rw [lambda, bigDiv_of_pos (by omega)] at hlambda
  have hle : (lam : ℝ) ≤ power * expectedLeadersPerEpoch * 2 ^ 256 / total := by
    rw [← Except.ok.inj hlambda, le_div_iff₀ hpos]
    exact_mod_cast Int.ediv_mul_le _ (by omega)
  have hge : (power * expectedLeadersPerEpoch * 2 ^ 256 / total : ℝ) ≤ lam + 1 := by
    rw [← Except.ok.inj hlambda, div_le_iff₀ hpos]
    exact_mod_cast (Int.lt_ediv_add_one_mul_self _ (by omega)).le
  have hunits : share power total
      = power * expectedLeadersPerEpoch * 2 ^ 256 / total / 2 ^ 256 := by
    rw [share]
    field_simp
  rw [hunits, arg]
  refine ⟨?_, abs_units_sub_le hle hge⟩
  gcongr

/-- The mean for one account, with a bound `ε` on the error of `expneg`. -/
theorem abs_meanWinCount_sub_le {power total : ℕ} {ε : ℝ} (hle : power ≤ total)
    (htotal : 0 < total) (hε : 3 / 2 ^ 256 ≤ ε)
    (herror : ∀ lam e, 0 ≤ lam → arg lam ≤ share power total → expneg lam = .ok e →
      |expnegError lam e| ≤ ε) (ep : ElectionProof) :
    |meanWinCount ep power total - share power total|
      ≤ 1601 * ε + share power total ^ 20 / Nat.factorial 19 * 2 := by
  obtain ⟨lam, hlambda, hlam, hlam2⟩ :
      ∃ lam, lambda power total = .ok lam ∧ 0 ≤ lam ∧ lam ≤ 2 * 2 ^ precision :=
    exists_lambda (by omega) (by omega) (by omega)
  obtain ⟨s, hs⟩ := exists_produced hlam hlam2
  obtain ⟨e, he, -⟩ := exists_expneg hlam hlam2
  obtain ⟨hfloor, hclose⟩ := arg_lambda htotal hlambda
  have hfollows := hs.follows hlam hlam2 he (herror lam e hlam hfloor he) hε
  have harg := arg_nonneg hlam
  have harg2 : arg lam ≤ 2 :=
    hfloor.trans (share_le (n := 2) htotal (Nat.mul_le_mul_left 2 hle))
  -- the errors of the thresholds, those that are missing, and the floor of `lambda`
  have hthresholds := hfollows.abs_sum_max_sub_le harg harg2
  rw [← hs.meanWinCount_eq hlam hlam2 hlambda ep] at hthresholds
  have hcut := Poisson.abs_sum_tail_sub_le (n := 19) harg (by norm_num; linarith)
  have hmax : maxWinCount = 19 + 1 := rfl
  rw [hmax] at hthresholds
  have hpow : arg lam ^ 20 / Nat.factorial 19 * 2
      ≤ share power total ^ 20 / Nat.factorial 19 * 2 := by
    gcongr
  have hunit : (1 : ℝ) / 2 ^ 256 ≤ ε := le_trans (by gcongr; norm_num) hε
  have hfar := abs_sub_le (meanWinCount ep power total)
    (∑ k ∈ Finset.range (19 + 1), Poisson.tail (arg lam) (k + 1)) (share power total)
  have hnear := abs_sub_le (∑ k ∈ Finset.range (19 + 1), Poisson.tail (arg lam) (k + 1)) (arg lam)
    (share power total)
  push_cast at hthresholds
  norm_num at hthresholds hcut
  linarith

theorem mul_lt_of_mul_arg_lt {d b : ℕ} {x : Int} (h : d * arg x < b) : d * x < b * 2 ^ 256 := by
  have hmul := mul_lt_mul_of_pos_right h (show (0 : ℝ) < 2 ^ 256 by positivity)
  rw [mul_arg] at hmul
  exact_mod_cast hmul

section Account

variable {power total : ℕ}

/-- Any stake. -/
theorem meanWinCount_any (hle : power ≤ total) (htotal : 0 < total) (ep : ElectionProof) :
    |meanWinCount ep power total - share power total| ≤ 1 / 10 ^ 10 := by
  have hshare : share power total ≤ 2 := share_le (n := 2) htotal (Nat.mul_le_mul_left 2 hle)
  have hnonneg := share_nonneg power total
  have hmean := abs_meanWinCount_sub_le (ε := 50 / 10 ^ 16) hle htotal (by norm_num)
    (fun lam e hlam hfloor he => by
      have hlt := mul_lt_of_mul_arg_lt (d := 1) (b := 5) (x := lam) (by push_cast; linarith)
      exact ((abs_expnegError_lt hlam he).1 (by omega)).le) ep
  have hpow : share power total ^ 20 ≤ 2 ^ 20 := by gcongr
  norm_num [Nat.factorial] at hmean ⊢
  linarith

/-- No more than half of the total. -/
theorem meanWinCount_half (hle : 2 * power ≤ total) (htotal : 0 < total) (ep : ElectionProof) :
    |meanWinCount ep power total - share power total| ≤ 1 / 10 ^ 16 := by
  have hshare : share power total ≤ 1 := by
    have h : share power total ≤ (1 : ℕ) := share_le htotal (by omega)
    exact_mod_cast h
  have hnonneg := share_nonneg power total
  have hmean := abs_meanWinCount_sub_le (ε := 36 / 10 ^ 31) (show power ≤ total by omega) htotal
    (by norm_num)
    (fun lam e hlam hfloor he => by
      have hlt := mul_lt_of_mul_arg_lt (d := 1000) (b := 1725) (x := lam) (by push_cast; linarith)
      exact ((abs_expnegError_lt hlam he).2 (by omega)).le) ep
  have hpow : share power total ^ 20 ≤ 1 ^ 20 := by gcongr
  norm_num [Nat.factorial] at hmean hpow ⊢
  linarith

end Account

theorem abs_sum_map_sub_le {f g : ℕ → ℝ} {b : ℝ} {stakes : List ℕ}
    (h : ∀ power ∈ stakes, |f power - g power| ≤ b) :
    |(stakes.map f).sum - (stakes.map g).sum| ≤ stakes.length * b := by
  induction stakes with
  | nil => simp
  | cons power stakes ih =>
      obtain ⟨hfirst, hrest⟩ := List.forall_mem_cons.mp h
      have hadd := abs_add_le (f power - g power) ((stakes.map f).sum - (stakes.map g).sum)
      rw [List.map_cons, List.map_cons, List.sum_cons, List.sum_cons, List.length_cons,
        add_sub_add_comm]
      push_cast
      linarith [ih hrest]

theorem sum_share (stakes : List ℕ) (total : ℕ) :
    (stakes.map fun power => share power total).sum = share stakes.sum total := by
  induction stakes with
  | nil => simp [share]
  | cons power stakes ih =>
      rw [List.map_cons, List.sum_cons, ih, List.sum_cons, share, share, share]
      push_cast
      ring

/-- The accounts of one owner, however the owner's stake is spread over them, win on
    average as often as the whole stake is due: twice its share in the total stake.  With
    no more than half of the total the mean is exact to 16 decimals an account, and in
    general to 10. -/
theorem mean_wins_proportional {total : ℕ} (htotal : 0 < total) (stakes : List ℕ)
    (hstakes : stakes.sum ≤ total) (ep : ElectionProof) :
    |(stakes.map fun power : ℕ => meanWinCount ep power total).sum - share stakes.sum total|
        ≤ stakes.length * (1 / 10 ^ 10) ∧
      (2 * stakes.sum ≤ total →
        |(stakes.map fun power : ℕ => meanWinCount ep power total).sum - share stakes.sum total|
          ≤ stakes.length * (1 / 10 ^ 16)) := by
  rw [← sum_share]
  constructor
  · apply abs_sum_map_sub_le
    intro power hpower
    exact meanWinCount_any ((List.le_sum_of_mem hpower).trans hstakes) htotal ep
  · intro hhalf
    apply abs_sum_map_sub_le
    intro power hpower
    have hle := List.le_sum_of_mem hpower
    exact meanWinCount_half (by omega) htotal ep

/-- Two accounts with half of the stake each: together they are due both leaders. -/
theorem mean_wins_proportional_two :
    |(([1, 1] : List ℕ).map fun power : ℕ => meanWinCount ⟨0, [], 0⟩ power (2 : ℕ)).sum
        - share 2 2| ≤ ([1, 1] : List ℕ).length * (1 / 10 ^ 10) :=
  (mean_wins_proportional (show 0 < 2 by decide) [1, 1] (by decide) ⟨0, [], 0⟩).1

end Dione.ElectionProof
