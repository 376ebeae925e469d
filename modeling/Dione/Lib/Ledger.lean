/-
  Dione.Lib.Ledger

  Ledgers: a fixed-width amount for each account of a finite type, kept as a
  function and changed one entry at a time.  The rules say what an update does
  to the sum of all entries, and to the sums over groups of accounts.
-/

import Mathlib.Algebra.BigOperators.Group.Finset.Basic
import Mathlib.Algebra.Order.BigOperators.Group.Finset

namespace Dione.Ledger

variable {α : Type*} [Fintype α] {w : Nat}

/-- The sum of all entries. -/
def total (m : α → BitVec w) : Nat := ∑ a, (m a).toNat

theorem total_zero : total (fun _ : α => (0 : BitVec w)) = 0 := by
  simp [total]

theorem le_total (m : α → BitVec w) (a : α) : (m a).toNat ≤ total m :=
  Finset.single_le_sum (f := fun b => (m b).toNat) (fun _ _ => Nat.zero_le _) (Finset.mem_univ a)

variable [DecidableEq α]

/-- What is written at `a` replaces what was there. -/
theorem total_update (m : α → BitVec w) (a : α) (v : BitVec w) :
    total (Function.update m a v) + (m a).toNat = total m + v.toNat := by
  have hrest : ∑ b ∈ Finset.univ.erase a, (Function.update m a v b).toNat
      = ∑ b ∈ Finset.univ.erase a, (m b).toNat := by
    apply Finset.sum_congr rfl
    intro b hb
    rw [Function.update_of_ne (Finset.ne_of_mem_erase hb)]
  have hnew := Finset.add_sum_erase Finset.univ (fun b => (Function.update m a v b).toNat)
    (Finset.mem_univ a)
  have hold := Finset.add_sum_erase Finset.univ (fun b => (m b).toNat) (Finset.mem_univ a)
  simp only [Function.update_self] at hnew
  unfold total
  omega

/-- Two ledgers that agree everywhere else differ in their sums as they do in the entry
    of `a`. -/
theorem total_of_agree {m m' : α → BitVec w} {a : α} (h : ∀ b, b ≠ a → m' b = m b) :
    total m' + (m a).toNat = total m + (m' a).toNat := by
  have hwrite : m' = Function.update m a (m' a) := Function.eq_update_iff.mpr ⟨rfl, h⟩
  have hupdate := total_update m a (m' a)
  rw [← hwrite] at hupdate
  exact hupdate

/-- Two different entries together are within the sum. -/
theorem add_le_total (m : α → BitVec w) {a b : α} (hne : a ≠ b) :
    (m a).toNat + (m b).toNat ≤ total m := by
  -- empty the entry of `a`: what is left still holds that of `b`
  have hempty := total_update m a 0
  have hb := le_total (Function.update m a 0) b
  rw [Function.update_of_ne hne.symm] at hb
  have hzero : (0 : BitVec w).toNat = 0 := by simp
  omega

/-- Moving an amount from one entry to another keeps the sum, also when the two
    are the same entry. -/
theorem total_move (m : α → BitVec w) (a b : α) {x y : BitVec w} {v : Nat}
    (hx : x.toNat + v = (m a).toNat)
    (hy : y.toNat = (Function.update m a x b).toNat + v) :
    total (Function.update (Function.update m a x) b y) = total m := by
  have hdebit := total_update m a x
  have hcredit := total_update (Function.update m a x) b y
  omega

/-! ## Groups of accounts -/

theorem toNat_ite (p : Prop) [Decidable p] (x : BitVec w) :
    (if p then x else 0).toNat = if p then x.toNat else 0 := by
  split <;> simp

variable {β : Type*} [DecidableEq β]

/-- The sum of the entries of the accounts in the group `g`. -/
def share (group : α → β) (m : α → BitVec w) (g : β) : Nat :=
  total fun a => if group a = g then m a else 0

variable (group : α → β) (m : α → BitVec w) (a : α)

/-- Writing an entry changes the share of its group. -/
theorem share_update (v : BitVec w) (g : β) :
    share group (Function.update m a v) g + (if group a = g then (m a).toNat else 0)
      = share group m g + (if group a = g then v.toNat else 0) := by
  have hagree : ∀ b, b ≠ a →
      (if group b = g then Function.update m a v b else 0) = if group b = g then m b else 0 := by
    intro b hb
    rw [Function.update_of_ne hb]
  have htotal := total_of_agree hagree
  simp only [Function.update_self, toNat_ite] at htotal
  exact htotal

/-- An amount added to an entry is added to the share of its group. -/
theorem share_credit {y : BitVec w} {v : Nat} (hy : y.toNat = (m a).toNat + v) (g : β) :
    share group (Function.update m a y) g
      = share group m g + (if group a = g then v else 0) := by
  have hupdate := share_update group m a y g
  split at hupdate <;> simp only [*, if_true, if_false] <;> omega

/-- Moving an amount from one entry to another moves it between their groups. -/
theorem share_move (b : α) {x y : BitVec w} {v : Nat} (hx : x.toNat + v = (m a).toNat)
    (hy : y.toNat = (Function.update m a x b).toNat + v) (g : β) :
    share group (Function.update (Function.update m a x) b y) g
        + (if group a = g then v else 0)
      = share group m g + (if group b = g then v else 0) := by
  have hdebit := share_update group m a x g
  have hcredit := share_credit group (Function.update m a x) b hy g
  rw [hcredit]
  split at hdebit <;> simp only [*, if_true, if_false] <;> omega

/-- An account that changes its group takes its entry along. -/
theorem share_update_group (h g : β) :
    share (Function.update group a h) m g + (if group a = g then (m a).toNat else 0)
      = share group m g + (if h = g then (m a).toNat else 0) := by
  have hagree : ∀ b, b ≠ a →
      (if Function.update group a h b = g then m b else 0) = if group b = g then m b else 0 := by
    intro b hb
    rw [Function.update_of_ne hb]
  have htotal := total_of_agree hagree
  simp only [Function.update_self, toNat_ite] at htotal
  exact htotal

omit [DecidableEq α] in
theorem le_share : (m a).toNat ≤ share group m (group a) := by
  have hle := le_total (fun b => if group b = group a then m b else 0) a
  simpa [share] using hle

omit [DecidableEq α] in
theorem share_le_total (g : β) : share group m g ≤ total m := by
  refine Finset.sum_le_sum ?_
  intro b _
  simp only [toNat_ite]
  split
  · exact le_refl _
  · exact Nat.zero_le _

/-- A group and an account outside of it together are within the sum. -/
theorem share_add_le_total {g : β} (hne : group a ≠ g) :
    share group m g + (m a).toNat ≤ total m := by
  -- join the group: its share is still within the sum
  have hjoin := share_update_group group m a g g
  rw [if_neg hne, if_pos rfl] at hjoin
  have hle := share_le_total (Function.update group a g) m g
  omega

end Dione.Ledger
