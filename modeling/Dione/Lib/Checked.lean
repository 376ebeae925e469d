/-
  Dione.Lib.Checked

  Fixed-width arithmetic that fails instead of wrapping around, signed and
  unsigned, over bit vectors of any width.

  Each operation has one rule, `…_eq_ok`: it returns `c` exactly when `c` is the
  result over the integers.  Proofs about checked code use these rules and then
  have equations between natural numbers (integers) left, for `omega`.
-/

import Dione.Lib.Guard
import Mathlib.Algebra.Ring.Int.Defs
import Mathlib.Algebra.Ring.Nat

namespace Dione.Checked

variable {ε : Type} {w : Nat} (e : ε) (a b : BitVec w)

/-- Unsigned addition. -/
def add : Except ε (BitVec w) := if a.uaddOverflow b then .error e else .ok (a + b)

/-- Unsigned subtraction. -/
def sub : Except ε (BitVec w) := if a.usubOverflow b then .error e else .ok (a - b)

/-- Unsigned division. -/
def div : Except ε (BitVec w) := if b = 0 then .error e else .ok (a / b)

/-- Signed addition. -/
def sadd : Except ε (BitVec w) := if a.saddOverflow b then .error e else .ok (a + b)

/-- Signed subtraction. -/
def ssub : Except ε (BitVec w) := if a.ssubOverflow b then .error e else .ok (a - b)

variable {e a b} {c : BitVec w}

theorem add_eq_ok : add e a b = .ok c ↔ c.toNat = a.toNat + b.toNat := by
  unfold add
  by_cases h : a.uaddOverflow b
  · -- the sum does not fit, so no `c` is equal to it
    have hlt : c.toNat < 2 ^ w := c.isLt
    have hge : 2 ^ w ≤ a.toNat + b.toNat := by simpa [BitVec.uaddOverflow] using h
    simp only [if_pos h, reduceCtorEq, false_iff]
    omega
  · have hsum : (a + b).toNat = a.toNat + b.toNat := BitVec.toNat_add_of_not_uaddOverflow h
    rw [if_neg h, Except.ok.injEq, ← hsum, BitVec.toNat_inj, eq_comm]

theorem sub_eq_ok : sub e a b = .ok c ↔ c.toNat + b.toNat = a.toNat := by
  unfold sub
  by_cases h : a.usubOverflow b
  · have hlt : a.toNat < b.toNat := by simpa [BitVec.usubOverflow] using h
    simp only [if_pos h, reduceCtorEq, false_iff]
    omega
  · have hle : b.toNat ≤ a.toNat := by simpa [BitVec.usubOverflow] using h
    have hdiff : (a - b).toNat = a.toNat - b.toNat := BitVec.toNat_sub_of_not_usubOverflow h
    rw [if_neg h, Except.ok.injEq, ← BitVec.toNat_inj, hdiff]
    omega

theorem div_eq_ok : div e a b = .ok c ↔ b.toNat ≠ 0 ∧ c.toNat = a.toNat / b.toNat := by
  unfold div
  by_cases h : b = 0
  · simp [h]
  · have hne : b.toNat ≠ 0 := fun h0 => h (BitVec.eq_of_toNat_eq (by simpa using h0))
    rw [if_neg h, Except.ok.injEq, ← BitVec.toNat_udiv, BitVec.toNat_inj, eq_comm]
    exact ⟨fun hc => ⟨hne, hc⟩, fun hc => hc.2⟩

theorem sadd_eq_ok : sadd e a b = .ok c ↔ c.toInt = a.toInt + b.toInt := by
  unfold sadd
  by_cases h : a.saddOverflow b
  · have hlt : c.toInt < 2 ^ (w - 1) := BitVec.toInt_lt
    have hle : -2 ^ (w - 1) ≤ c.toInt := c.le_toInt
    have hover : 2 ^ (w - 1) ≤ a.toInt + b.toInt ∨ a.toInt + b.toInt < -2 ^ (w - 1) := by
      simpa [BitVec.saddOverflow] using h
    simp only [if_pos h, reduceCtorEq, false_iff]
    omega
  · have hsum : (a + b).toInt = a.toInt + b.toInt := BitVec.toInt_add_of_not_saddOverflow h
    rw [if_neg h, Except.ok.injEq, ← hsum, BitVec.toInt_inj, eq_comm]

theorem ssub_eq_ok : ssub e a b = .ok c ↔ c.toInt = a.toInt - b.toInt := by
  unfold ssub
  by_cases h : a.ssubOverflow b
  · have hlt : c.toInt < 2 ^ (w - 1) := BitVec.toInt_lt
    have hle : -2 ^ (w - 1) ≤ c.toInt := c.le_toInt
    have hover : 2 ^ (w - 1) ≤ a.toInt - b.toInt ∨ a.toInt - b.toInt < -2 ^ (w - 1) := by
      simpa [BitVec.ssubOverflow] using h
    simp only [if_pos h, reduceCtorEq, false_iff]
    omega
  · have hdiff : (a - b).toInt = a.toInt - b.toInt := BitVec.toInt_sub_of_not_ssubOverflow h
    rw [if_neg h, Except.ok.injEq, ← hdiff, BitVec.toInt_inj, eq_comm]

/-- A sum that fits is returned. -/
theorem exists_add (h : a.toNat + b.toNat < 2 ^ w) :
    ∃ c, add e a b = .ok c ∧ c.toNat = a.toNat + b.toNat := by
  have hofNat : (BitVec.ofNat w (a.toNat + b.toNat)).toNat = a.toNat + b.toNat := by
    rw [BitVec.toNat_ofNat, Nat.mod_eq_of_lt h]
  exact ⟨_, add_eq_ok.mpr hofNat, hofNat⟩

/-- A difference that is not negative is returned. -/
theorem exists_sub (h : b.toNat ≤ a.toNat) :
    ∃ c, sub e a b = .ok c ∧ c.toNat + b.toNat = a.toNat := by
  have hofNat : (BitVec.ofNat w (a.toNat - b.toNat)).toNat + b.toNat = a.toNat := by
    have hlt : a.toNat < 2 ^ w := a.isLt
    rw [BitVec.toNat_ofNat, Nat.mod_eq_of_lt (by omega)]
    omega
  exact ⟨_, sub_eq_ok.mpr hofNat, hofNat⟩

end Dione.Checked
