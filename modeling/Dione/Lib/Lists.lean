/-
  Dione.Lib.Lists

  Facts about lists that schedules, selections, logs and caches need: what is left
  of a list when one element is taken out by its index, how a sum changes with one
  element, what insertion sort puts in front, logs in which each entry is justified
  by those before it, the first entry for each key, and lookups in an association list
  after a change of one entry.
-/

import Mathlib.Algebra.GroupWithZero.Nat
import Mathlib.Data.List.AList
import Mathlib.Data.List.Sort

namespace Dione.Lists

variable {α : Type*}

/-- Taking out the `k`-th element leaves every other one. -/
theorem mem_eraseIdx_or_eq {l : List α} {k : Nat} {x y : α} (hx : x ∈ l)
    (hy : l[k]? = some y) : x = y ∨ x ∈ l.eraseIdx k := by
  obtain ⟨m, hm⟩ := List.getElem?_of_mem hx
  by_cases hmk : m = k
  · subst hmk
    exact .inl (Option.some.inj (hm.symm.trans hy))
  · exact .inr (List.mem_eraseIdx_iff_getElem?.mpr ⟨m, hmk, hm⟩)

/-- A sum gets smaller with one of its terms. -/
theorem sum_map_set_lt {f : α → Nat} {l : List α} {k : Nat} {x y : α} (hy : l[k]? = some y)
    (hlt : f x < f y) : ((l.set k x).map f).sum < (l.map f).sum := by
  induction l generalizing k with
  | nil => cases hy
  | cons a l ih =>
      cases k with
      | zero =>
          obtain rfl : a = y := Option.some.inj hy
          simp only [List.set_cons_zero, List.map_cons, List.sum_cons]
          omega
      | succ k =>
          have hrest := ih (k := k) hy
          simp only [List.set_cons_succ, List.map_cons, List.sum_cons]
          omega

/-- An element that goes before every other one, and none of them before it, ends
    up in front.  The relation need not be an order. -/
theorem head?_insertionSort {r : α → α → Prop} [DecidableRel r] {t : α} (hrefl : r t t)
    {l : List α} (hmem : t ∈ l) (hfirst : ∀ x ∈ l, x ≠ t → r t x ∧ ¬ r x t) :
    (l.insertionSort r).head? = some t := by
  induction l with
  | nil => cases hmem
  | cons a l ih =>
      have htail : ∀ x ∈ l, x ≠ t → r t x ∧ ¬ r x t := fun x hx =>
        hfirst x (List.mem_cons_of_mem _ hx)
      rw [List.insertionSort_cons]
      rcases hs : l.insertionSort r with _ | ⟨b, bs⟩
      · -- The rest is empty, so `a` is `t`.
        have hnil : l = [] := by
          have hlen := List.length_insertionSort r l
          rw [hs] at hlen
          exact List.eq_nil_of_length_eq_zero hlen.symm
        subst hnil
        obtain rfl : t = a := by simpa using hmem
        rfl
      · have hb : b ∈ l := by
          rw [← List.mem_insertionSort r, hs]
          exact List.mem_cons_self ..
        by_cases hat : a = t
        · subst hat
          have hab : r a b := by
            by_cases hba : b = a
            · exact hba ▸ hrefl
            · exact (htail b hb hba).1
          rw [List.orderedInsert_cons_of_le r bs hab]
          rfl
        · have htl : t ∈ l := (List.mem_cons.mp hmem).resolve_left fun h => hat h.symm
          have hbt : b = t := by
            have hhead := ih htl htail
            rw [hs] at hhead
            exact Option.some.inj hhead
          have hnot : ¬ r a b := hbt ▸ (hfirst a (List.mem_cons_self ..) hat).2
          rw [List.orderedInsert_cons, if_neg hnot, hbt]
          rfl

/-! ## Logs -/

/-- Every entry of the log is `ok` after the entries before it. -/
def Justified (ok : List α → α → Prop) (log : List α) : Prop :=
  ∀ earlier x, earlier ++ [x] <+: log → ok earlier x

theorem justified_nil {ok : List α → α → Prop} : Justified ok [] := by
  intro earlier x hprefix
  simp at hprefix

theorem justified_concat {ok : List α → α → Prop} {log : List α} {x : α}
    (hlog : Justified ok log) (hx : ok log x) : Justified ok (log ++ [x]) := by
  intro earlier y hprefix
  rcases List.prefix_concat_iff.mp hprefix with hlast | hbefore
  · obtain ⟨rfl, hy⟩ := List.append_inj' hlast rfl
    obtain rfl : y = x := by simpa using hy
    exact hx
  · exact hlog earlier y hbefore

theorem justified_of_concat {ok : List α → α → Prop} {log : List α} {x : α}
    (h : Justified ok (log ++ [x])) : Justified ok log ∧ ok log x :=
  ⟨fun earlier y hy => h earlier y (hy.trans (List.prefix_append log [x])),
    h log x (List.prefix_refl _)⟩

/-- Entries that are `ok` after anything can be added. -/
theorem justified_append {ok : List α → α → Prop} {log new : List α}
    (hlog : Justified ok log) (hnew : ∀ x ∈ new, ∀ earlier, ok earlier x) :
    Justified ok (log ++ new) := by
  induction new generalizing log with
  | nil => rwa [List.append_nil]
  | cons x new ih =>
      obtain ⟨hx, hrest⟩ := List.forall_mem_cons.mp hnew
      rw [← List.singleton_append, ← List.append_assoc]
      exact ih (justified_concat hlog (hx log)) hrest

/-- `x` is the last entry of the log that is `about` something. -/
def Latest (about : α → Prop) (log : List α) (x : α) : Prop :=
  ∃ earlier later, log = earlier ++ x :: later ∧ about x ∧ ∀ y ∈ later, ¬about y

theorem not_latest_nil {about : α → Prop} {x : α} : ¬Latest about [] x := by
  rintro ⟨earlier, later, hlog, -, -⟩
  simp at hlog

theorem latest_concat {about : α → Prop} {log : List α} {x y : α} :
    Latest about (log ++ [y]) x ↔ about y ∧ x = y ∨ ¬about y ∧ Latest about log x := by
  constructor
  · rintro ⟨earlier, later, hlog, hx, hlater⟩
    rcases List.eq_nil_or_concat' later with rfl | ⟨later, z, rfl⟩
    · obtain ⟨-, hy⟩ := List.append_inj' hlog rfl
      obtain rfl : y = x := by simpa using hy
      exact .inl ⟨hx, rfl⟩
    · -- the new entry is behind `x`, where nothing is about it
      rw [← List.cons_append, ← List.append_assoc] at hlog
      obtain ⟨hinit, hy⟩ := List.append_inj' hlog rfl
      obtain rfl : y = z := by simpa using hy
      obtain ⟨hlater, hz⟩ := List.forall_mem_append.mp hlater
      exact .inr ⟨hz y (List.mem_singleton_self y), earlier, later, hinit, hx, hlater⟩
  · rintro (⟨hy, rfl⟩ | ⟨hy, earlier, later, rfl, hx, hlater⟩)
    · exact ⟨log, [], rfl, hy, by simp⟩
    · refine ⟨earlier, later ++ [y], by simp, hx, ?_⟩
      simpa [or_imp, forall_and] using ⟨hlater, hy⟩

theorem latest_congr {about about' : α → Prop} {log : List α} {x : α}
    (h : ∀ y ∈ log, about y ↔ about' y) : Latest about log x ↔ Latest about' log x := by
  constructor
  · rintro ⟨earlier, later, rfl, hx, hlater⟩
    refine ⟨earlier, later, rfl, (h x (by simp)).mp hx, ?_⟩
    intro y hy habout
    exact hlater y hy ((h y (by simp [hy])).mpr habout)
  · rintro ⟨earlier, later, rfl, hx, hlater⟩
    refine ⟨earlier, later, rfl, (h x (by simp)).mpr hx, ?_⟩
    intro y hy habout
    exact hlater y hy ((h y (by simp [hy])).mp habout)

/-! ## First entries -/

section Firsts

variable {κ : Type*} [DecidableEq κ] {key : α → κ}

/-- Of the entries that are `ok`, the first one for each key. -/
def firsts (key : α → κ) (ok : α → Bool) : List α → List α
  | [] => []
  | x :: xs =>
    if ok x then x :: firsts key (fun y => key y != key x && ok y) xs
    else firsts key ok xs

theorem firsts_sublist (ok : α → Bool) (xs : List α) : (firsts key ok xs).Sublist xs := by
  induction xs generalizing ok with
  | nil => exact List.Sublist.slnil
  | cons x xs ih =>
      unfold firsts
      split
      · exact (ih _).cons_cons x
      · exact (ih ok).cons x

theorem ok_of_mem_firsts {ok : α → Bool} {xs : List α} {y : α} (h : y ∈ firsts key ok xs) :
    ok y = true := by
  induction xs generalizing ok with
  | nil => cases h
  | cons x xs ih =>
      unfold firsts at h
      split at h
      · next hx =>
          rcases List.mem_cons.mp h with rfl | hmem
          · exact hx
          · have hy := ih hmem
            exact (Bool.and_eq_true_iff.mp hy).2
      · exact ih h

/-- A key has one first entry. -/
theorem nodup_firsts (ok : α → Bool) (xs : List α) : ((firsts key ok xs).map key).Nodup := by
  induction xs generalizing ok with
  | nil => exact List.nodup_nil
  | cons x xs ih =>
      unfold firsts
      split
      · refine List.nodup_cons.mpr ⟨?_, ih _⟩
        intro hmem
        obtain ⟨y, hy, hkey⟩ := List.mem_map.mp hmem
        have hok := ok_of_mem_firsts hy
        exact bne_iff_ne.mp (Bool.and_eq_true_iff.mp hok).1 hkey
      · exact ih ok

theorem find?_firsts (ok : α → Bool) (xs : List α) (k : κ) :
    (firsts key ok xs).find? (fun x => key x == k) = xs.find? fun x => key x == k && ok x := by
  induction xs generalizing ok with
  | nil => rfl
  | cons x xs ih =>
      unfold firsts
      rw [List.find?_cons]
      by_cases hx : ok x = true
      · rw [if_pos hx, List.find?_cons, ih]
        by_cases hk : key x = k
        · simp [hk, hx]
        · -- the entries that are dropped have another key
          have hsame : ∀ y, (key y == k && (key y != key x && ok y)) = (key y == k && ok y) := by
            intro y
            by_cases hy : key y = k
            · rw [hy, bne_iff_ne.mpr (Ne.symm hk), Bool.true_and]
            · rw [beq_false_of_ne hy, Bool.false_and, Bool.false_and]
          simp only [hsame, beq_false_of_ne hk, Bool.false_and]
      · rw [if_neg hx, ih]
        simp [hx]

end Firsts

/-! ## Maps -/

section Maps

variable {β : Type*} [DecidableEq α]

theorem lookup_insert_ite (m : AList fun _ : α => β) (k k' : α) (v : β) :
    (m.insert k v).lookup k' = if k' = k then some v else m.lookup k' := by
  split
  · next heq =>
      rw [heq]
      exact AList.lookup_insert m
  · next hne => exact AList.lookup_insert_ne hne

theorem lookup_erase_ite (m : AList fun _ : α => β) (k k' : α) :
    (m.erase k).lookup k' = if k' = k then none else m.lookup k' := by
  split
  · next heq =>
      rw [heq]
      exact AList.lookup_erase k m
  · next hne => exact AList.lookup_erase_ne hne

end Maps

end Dione.Lists
