/-
  Dione.Lib.Timeline

  The history of a value that changes from time to time: a list of entries, each
  with the time of the change and the value from then on, oldest first, with one
  entry per time.

    * `current` is the value now, `valueAt` the value at a time gone by;
    * `record` enters a change; made at the time of the last entry, it replaces it;
    * a change leaves the value at all earlier times alone
      (`valueAt_record_of_lt`);
    * `valueAt_of_getElem?` is what a search in the list has to find.
-/

import Mathlib.Data.List.Perm.Subperm
import Mathlib.Order.Lattice
import Mathlib.Order.Nat

namespace Dione.Timeline

variable {τ α : Type*}

/-- The value after all entries, `d` if there is none. -/
def current (d : α) (l : List (τ × α)) : α := (l.getLast?.map (·.2)).getD d

@[simp] theorem current_nil {d : α} : current d ([] : List (τ × α)) = d := rfl

@[simp] theorem current_concat {d : α} {l : List (τ × α)} (x : τ × α) :
    current d (l ++ [x]) = x.2 := by
  simp [current]

variable [LinearOrder τ]

/-- The value at time `t`, that of the last entry not after it. -/
def valueAt (d : α) (l : List (τ × α)) (t : τ) : α := current d (l.filter (·.1 ≤ t))

/-- Enter the value `v` from time `t` on. -/
def record (l : List (τ × α)) (t : τ) (v : α) : List (τ × α) := l.filter (·.1 ≠ t) ++ [(t, v)]

/-- The entries are in the order of time, one per time. -/
def Ordered (l : List (τ × α)) : Prop := l.Pairwise fun x y => x.1 < y.1

/-- No entry is after `t`. -/
def UpTo (t : τ) (l : List (τ × α)) : Prop := ∀ x ∈ l, x.1 ≤ t

variable {d v : α} {l : List (τ × α)} {t t' : τ}

@[simp] theorem current_record : current d (record l t v) = v := current_concat _

theorem valueAt_of_upTo (h : UpTo t l) : valueAt d l t = current d l := by
  unfold valueAt
  rw [List.filter_eq_self.mpr]
  intro x hx
  simpa using h x hx

theorem valueAt_of_forall_lt (h : ∀ x ∈ l, t < x.1) : valueAt d l t = d := by
  unfold valueAt
  rw [List.filter_eq_nil_iff.mpr, current_nil]
  intro x hx
  simpa using h x hx

/-- The past stays as it is. -/
theorem valueAt_record_of_lt (h : t' < t) : valueAt d (record l t v) t' = valueAt d l t' := by
  unfold valueAt record
  rw [List.filter_append, List.filter_filter]
  have hnew : [(t, v)].filter (fun x => decide (x.1 ≤ t')) = [] := by simpa using h
  have hold : l.filter (fun x => decide (x.1 ≤ t') && decide (x.1 ≠ t))
      = l.filter (fun x => decide (x.1 ≤ t')) := by
    refine List.filter_congr ?_
    intro x _
    by_cases hx : x.1 ≤ t'
    · have hne : x.1 ≠ t := (lt_of_le_of_lt hx h).ne
      simp [hx, hne]
    · simp [hx]
  rw [hnew, hold, List.append_nil]

/-- A change at the time of the last entry takes its place. -/
theorem record_of_last {u : α} (h : Ordered (l ++ [(t, u)])) :
    record (l ++ [(t, u)]) t v = l ++ [(t, v)] := by
  have hbefore : ∀ x ∈ l, x.1 < t := by
    intro x hx
    exact (List.pairwise_append.mp h).2.2 x hx (t, u) (List.mem_singleton_self _)
  have hkept : l.filter (fun x => decide (x.1 ≠ t)) = l := by
    rw [List.filter_eq_self]
    intro x hx
    simpa using (hbefore x hx).ne
  unfold record
  rw [List.filter_append, hkept]
  simp

/-- A change at another time is added. -/
theorem record_of_forall_ne (h : ∀ x ∈ l, x.1 ≠ t) : record l t v = l ++ [(t, v)] := by
  unfold record
  rw [List.filter_eq_self.mpr]
  intro x hx
  simpa using h x hx

theorem upTo_record (h : UpTo t l) : UpTo t (record l t v) := by
  intro x hx
  rcases List.mem_append.mp hx with hx | hx
  · exact h x (List.mem_of_mem_filter hx)
  · exact (congrArg Prod.fst (List.mem_singleton.mp hx)).le

theorem ordered_record (hl : Ordered l) (ht : UpTo t l) : Ordered (record l t v) := by
  refine List.pairwise_append.mpr ⟨hl.filter _, List.pairwise_singleton _ _, ?_⟩
  intro x hx y hy
  obtain ⟨hmem, hne⟩ := List.mem_filter.mp hx
  rw [List.mem_singleton.mp hy]
  exact lt_of_le_of_ne (ht x hmem) (by simpa using hne)

/-- An entry not after `t` whose successor, if there is one, is after `t`. -/
theorem valueAt_of_getElem? {i : Nat} {x : τ × α} (hl : Ordered l) (hx : l[i]? = some x)
    (hle : x.1 ≤ t) (hnext : ∀ y, l[i + 1]? = some y → t < y.1) : valueAt d l t = x.2 := by
  obtain ⟨hi, hget⟩ := List.getElem?_eq_some_iff.mp hx
  have hsplit : l = l.take i ++ x :: l.drop (i + 1) := by
    rw [← hget, List.getElem_cons_drop, List.take_append_drop]
  have hord := hl
  rw [hsplit, Ordered, List.pairwise_append, List.pairwise_cons] at hord
  obtain ⟨-, ⟨-, hlater⟩, hearlier⟩ := hord
  -- what comes before the entry is before it in time
  have hbefore : (l.take i).filter (fun y => decide (y.1 ≤ t)) = l.take i := by
    rw [List.filter_eq_self]
    intro y hy
    simpa using (hearlier y hy x (List.mem_cons_self ..)).le.trans hle
  -- what comes behind it is not before its successor
  have hafter : (l.drop (i + 1)).filter (fun y => decide (y.1 ≤ t)) = [] := by
    rw [List.filter_eq_nil_iff]
    intro y hy
    have hty : t < y.1 := by
      cases hdrop : l.drop (i + 1) with
      | nil =>
          rw [hdrop] at hy
          cases hy
      | cons z rest =>
          have hz : t < z.1 := by
            refine hnext z ?_
            have hhead : (l.drop (i + 1))[0]? = l[i + 1]? := List.getElem?_drop
            rw [hdrop] at hhead
            exact hhead.symm
          rw [hdrop] at hy hlater
          rcases List.mem_cons.mp hy with rfl | hy
          · exact hz
          · exact hz.trans ((List.pairwise_cons.mp hlater).1 y hy)
    simpa using hty
  unfold valueAt
  rw [hsplit, List.filter_append, List.filter_cons, if_pos (by simpa using hle), hbefore, hafter,
    current_concat]

/-- At times from 1 on there are no more entries than time has passed. -/
theorem length_le_of_upTo {l : List (Nat × α)} {t : Nat} (hl : Ordered l) (ht : UpTo t l)
    (hpos : ∀ x ∈ l, 0 < x.1) : l.length ≤ t := by
  have hnodup : (l.map Prod.fst).Nodup :=
    (List.pairwise_map.mpr hl).imp fun hlt => hlt.ne
  have hsub : l.map Prod.fst ⊆ List.range' 1 t := by
    intro n hn
    obtain ⟨x, hx, rfl⟩ := List.mem_map.mp hn
    have hle := ht x hx
    have hgt := hpos x hx
    rw [List.mem_range'_1]
    omega
  have hlength := (List.subperm_of_subset hnodup hsub).length_le
  rwa [List.length_map, List.length_range'] at hlength

end Dione.Timeline
