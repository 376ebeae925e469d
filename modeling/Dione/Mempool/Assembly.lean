/-
  Dione.Mempool.Assembly

  Which transactions go into a new block.  `GetTransactionsForNewBlock` reads the
  entries in the order in which the map lists its keys, sorts them with `sort.Slice`,
  which is not stable, and pops at most `BlockMaxTransactionCount` of them.

  So what it returns is not determined by the mempool: `Assembles` holds of every list it
  may return, and `getTransactionsForNewBlock` is one of them.
-/

import Dione.Mempool
import Mathlib.Data.List.Perm.Basic

namespace Dione

open Text

/-- What `sort.Slice` may make of a slice: a rearrangement in which no element is less
    than one before it. -/
def SortSlice {α : Type} (less : α → α → Prop) (slice sorted : List α) : Prop :=
  sorted.Perm slice ∧ sorted.Pairwise fun a b => ¬ less b a

namespace Mempool

/-- `Timestamp.Before`. -/
def Before (a b : Transaction) : Prop := a.timestamp < b.timestamp

/-- The loop that pops the first transaction, at most `n` times. -/
def popLoop : Nat → List Transaction → List Transaction
  | 0, _ => []
  | _ + 1, [] => []
  | n + 1, tx :: allTxs => tx :: popLoop n allTxs

/-- `out` is a possible result of `GetTransactionsForNewBlock`, if the map lists its keys
    as `keys`. -/
def Assembles (mp : Mempool) (keys : List Str) (out : List Transaction) : Prop :=
  ∃ sorted, SortSlice Before (mp.getAllTransactions keys) sorted
    ∧ out = popLoop blockMaxTransactionCount sorted

variable {mp : Mempool} {keys : List Str} {out : List Transaction}

theorem popLoop_eq_take (n : Nat) (allTxs : List Transaction) :
    popLoop n allTxs = allTxs.take n := by
  induction n generalizing allTxs with
  | zero => rfl
  | succ n ih =>
      cases allTxs with
      | nil => rfl
      | cons tx allTxs => rw [popLoop, ih, List.take_succ_cons]

/-- The stable sort of the model is one that `sort.Slice` may make. -/
theorem getTransactionsForNewBlock_assembles (mp : Mempool) (keys : List Str) :
    mp.Assembles keys (mp.getTransactionsForNewBlock keys) := by
  have htotal : Std.Total fun a b : Transaction => a.timestamp ≤ b.timestamp :=
    ⟨fun a b => Int.le_total a.timestamp b.timestamp⟩
  have htrans : IsTrans Transaction fun a b => a.timestamp ≤ b.timestamp :=
    ⟨fun a b c => Int.le_trans⟩
  have hsorted := List.pairwise_insertionSort
    (fun a b : Transaction => a.timestamp ≤ b.timestamp) (mp.getAllTransactions keys)
  refine ⟨_, ⟨List.perm_insertionSort (fun a b : Transaction => a.timestamp ≤ b.timestamp) _,
    hsorted.imp fun hab => Int.not_lt.2 hab⟩, ?_⟩
  rw [popLoop_eq_take]
  rfl

/-! ## Entries and transactions -/

/-- Every key that the map lists has a transaction. -/
theorem exists_read_of_mem_keys {key : Str} (h : key ∈ mp.keys) : ∃ tx, mp.read key = some tx := by
  obtain ⟨ptr, hptr⟩ := Option.isSome_iff_exists.1 (AList.lookup_isSome.2 (AList.mem_keys.2 h))
  have hlt := mp.inHeap key ptr hptr
  exact ⟨mp.heap[ptr], read_eq_some.2 ⟨ptr, hptr, List.getElem?_eq_getElem hlt⟩⟩

/-- So no read fails, and there is one transaction for each key. -/
theorem map_some_getAllTransactions (hkeys : ∀ key ∈ keys, key ∈ mp.keys) :
    (mp.getAllTransactions keys).map some = keys.map mp.read := by
  induction keys with
  | nil => rfl
  | cons key keys ih =>
      obtain ⟨tx, htx⟩ := exists_read_of_mem_keys (hkeys key List.mem_cons_self)
      have htail := ih fun k hk => hkeys k (List.mem_cons_of_mem key hk)
      rw [getAllTransactions, List.filterMap_cons_some htx, List.map_cons, List.map_cons, htx]
      exact congrArg _ htail

/-- The sorted transactions come from the keys in some order. -/
theorem exists_keys_of_sortSlice (hkeys : keys.Perm mp.keys) {sorted : List Transaction}
    (h : SortSlice Before (mp.getAllTransactions keys) sorted) :
    ∃ order : List Str, order.Perm mp.keys ∧ order.map mp.read = sorted.map some := by
  have hall := map_some_getAllTransactions (fun key hkey => hkeys.mem_iff.1 hkey)
  have hperm : (sorted.map some).Perm (keys.map mp.read) := hall ▸ h.1.map some
  -- a rearrangement of the images is the image of a rearrangement
  have himage : List.Forall₂ (fun read key => read = mp.read key) (keys.map mp.read) keys :=
    List.forall₂_map_left_iff.2 (List.forall₂_same.2 fun _ _ => rfl)
  obtain ⟨order, hrel, horder⟩ := List.perm_comp_forall₂ hperm himage
  have heq : List.Forall₂ (fun a b : Option Transaction => a = b) (sorted.map some)
      (order.map mp.read) := List.forall₂_map_right_iff.2 hrel
  rw [List.forall₂_eq_eq_eq] at heq
  exact ⟨order, horder.trans hkeys, heq.symm⟩

/-! ## The oldest transactions -/

/-- `chosen` are the entries that a new block takes, as `out`, and `left` are the others:
    each entry is on one side and only once, the chosen ones are in the order of their
    times, and none of the others is older than one of them. -/
structure TakesOldest (mp : Mempool) (chosen left : List Str) (out : List Transaction) :
    Prop where
  split : (chosen ++ left).Perm mp.keys
  nodup : (chosen ++ left).Nodup
  taken : chosen.map mp.read = out.map some
  ordered : out.Pairwise fun a b => a.timestamp ≤ b.timestamp
  oldest : ∀ key ∈ left, ∀ tx, mp.read key = some tx → ∀ t ∈ out, t.timestamp ≤ tx.timestamp

/-- Cutting a sorted list takes the oldest. -/
theorem takesOldest_take {order : List Str} {sorted : List Transaction} (n : Nat)
    (horder : order.Perm mp.keys) (hread : order.map mp.read = sorted.map some)
    (hsorted : sorted.Pairwise fun a b => ¬ Before b a) :
    TakesOldest mp (order.take n) (order.drop n) (sorted.take n) := by
  have hle : sorted.Pairwise fun a b => a.timestamp ≤ b.timestamp :=
    hsorted.imp fun hab => Int.not_lt.1 hab
  have hnodup : order.Nodup := horder.nodup_iff.2 mp.cache.nodupKeys
  refine ⟨?_, ?_, ?_, ?_, ?_⟩
  · rw [List.take_append_drop]
    exact horder
  · rw [List.take_append_drop]
    exact hnodup
  · rw [List.map_take, hread, List.map_take]
  · exact hle.sublist (List.take_sublist n sorted)
  · intro key hkey tx htx t ht
    have hdrop : some tx ∈ (sorted.drop n).map some := by
      rw [List.map_drop, ← hread, ← List.map_drop, ← htx]
      exact List.mem_map_of_mem hkey
    obtain ⟨tx', htx', heq⟩ := List.mem_map.1 hdrop
    cases heq
    rw [← List.take_append_drop n sorted, List.pairwise_append] at hle
    exact hle.2.2 t ht tx htx'

/-- For every content of the mempool, every order of its keys and every way to sort,
    a new block gets the oldest transactions: `BlockMaxTransactionCount` of them or all,
    each entry at most once, and none only if there is none. -/
theorem assembles_takes_oldest (hkeys : keys.Perm mp.keys) (h : mp.Assembles keys out) :
    out.length = min blockMaxTransactionCount mp.keys.length
      ∧ (∃ chosen left, TakesOldest mp chosen left out)
      ∧ (out = [] ↔ mp.keys = []) := by
  obtain ⟨sorted, hsort, rfl⟩ := h
  obtain ⟨order, horder, hread⟩ := exists_keys_of_sortSlice hkeys hsort
  have hlen : (popLoop blockMaxTransactionCount sorted).length
      = min blockMaxTransactionCount mp.keys.length := by
    have hsame := congrArg List.length hread
    rw [List.length_map, List.length_map, horder.length_eq] at hsame
    rw [popLoop_eq_take, List.length_take, hsame]
  refine ⟨hlen, ?_, ?_⟩
  · rw [popLoop_eq_take]
    exact ⟨_, _, takesOldest_take blockMaxTransactionCount horder hread hsort.2⟩
  · rw [← List.length_eq_zero_iff, hlen, ← List.length_eq_zero_iff, blockMaxTransactionCount]
    omega

/-- Three transactions, two of them of one time. -/
def threeTxs : Mempool :=
  [(5, 1), (3, 2), (5, 3)].foldl (fun mp (time, hash) =>
    (mp.alloc ⟨[hash], ⟨none, 0⟩, time, []⟩).2.storeTx mp.heap.length) new

theorem assembles_threeTxs :
    (threeTxs.getTransactionsForNewBlock threeTxs.keys).length = 3
      ∧ ∃ chosen left, TakesOldest threeTxs chosen left
          (threeTxs.getTransactionsForNewBlock threeTxs.keys) := by
  have h := assembles_takes_oldest (List.Perm.refl threeTxs.keys)
    (getTransactionsForNewBlock_assembles threeTxs threeTxs.keys)
  have hcount : min blockMaxTransactionCount threeTxs.keys.length = 3 := by decide
  exact ⟨h.1.trans hcount, h.2.1⟩

end Mempool

end Dione
