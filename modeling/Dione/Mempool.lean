/-
  Dione.Mempool

  The mempool (`blockchain/pool/mempool.go`) over the in-memory cache
  (`cache/inmemory/cache.go`).

  The cache holds pointers, and two entries may hold the same one: what they point
  to is a variable of whoever stored them.  So a mempool is a list of variables and
  a map from keys to them; reading an entry copies what its variable holds at that
  time.  The order in which a Go map lists its keys is not fixed; it is an argument
  where it matters.
-/

import Dione.Blockchain
import Dione.Lib.Lists

namespace Dione

open Guard Text Dione.Lists

/-- The key of a transaction, `DefaultTxPrefix` and its hash. -/
def txKey (hash : Bytes) : Str := "tx_".toList ++ hexEncode hash

theorem txKey_injective : Function.Injective txKey :=
  fun _ _ h => hexEncode_injective (List.append_cancel_left h)

/-- `Mempool`: variables, and the cache whose entries point to them. -/
structure Mempool where
  heap : List Transaction
  cache : AList fun _ : Str => Nat
  inHeap : ∀ key ptr, cache.lookup key = some ptr → ptr < heap.length

namespace Mempool

/-- `NewMempool`. -/
def new : Mempool := ⟨[], ∅, by simp⟩

/-- `Keys`, in the order of this map. -/
def keys (mp : Mempool) : List Str := mp.cache.keys

/-- `cache.Get` into a fresh variable; `none` is `cache.ErrNotFound`. -/
def read (mp : Mempool) (key : Str) : Option Transaction :=
  (mp.cache.lookup key).bind fun ptr => mp.heap[ptr]?

/-- A new variable that holds `tx`, with its pointer. -/
def alloc (mp : Mempool) (tx : Transaction) : Nat × Mempool :=
  (mp.heap.length,
    { mp with
      heap := mp.heap ++ [tx]
      inHeap := fun key ptr h => by
        have hlt := mp.inHeap key ptr h
        simp only [List.length_append, List.length_singleton]
        omega })

/-- Assign to a variable. -/
def assign (mp : Mempool) (ptr : Nat) (tx : Transaction) : Mempool :=
  { mp with
    heap := mp.heap.set ptr tx
    inHeap := fun key ptr' h => by
      rw [List.length_set]
      exact mp.inHeap key ptr' h }

/-- `StoreTx` of a pointer.  The time to live is not kept: an entry may be gone at
    any time. -/
def storeTx (mp : Mempool) (ptr : Nat) : Mempool :=
  if hptr : ptr < mp.heap.length then
    { mp with
      cache := mp.cache.insert (txKey mp.heap[ptr].hash) ptr
      inHeap := fun key ptr' h => by
        rw [lookup_insert_ite] at h
        split at h
        · obtain rfl := Option.some.inj h
          exact hptr
        · exact mp.inHeap key ptr' h }
  else mp

/-- An entry leaves the cache, deleted or expired. -/
def remove (mp : Mempool) (key : Str) : Mempool :=
  { mp with
    cache := mp.cache.erase key
    inHeap := fun key' ptr h => by
      rw [lookup_erase_ite] at h
      split at h
      · cases h
      · exact mp.inHeap key' ptr h }

/-- `DeleteTx`. -/
def deleteTx (mp : Mempool) (txHash : Bytes) : Except Err Unit × Mempool :=
  -- `Delete` of the cache has no error, so the look-up before it is the only one
  match mp.read (txKey txHash) with
  | none => (.error (.msg "key doesn't exist in cache"), mp)
  | some _ => (.ok (), mp.remove (txKey txHash))

/-- `GetAllTransactions`, for the order in which the map lists its keys. -/
def getAllTransactions (mp : Mempool) (keys : List Str) : List Transaction :=
  keys.filterMap mp.read

/-- `ErrTxNotFound`. -/
def errTxNotFound : Err := .msg "tx isn't found in mempool"

/-- `GetTransaction`. -/
def getTransaction (mp : Mempool) (hash : Bytes) : Except Err Transaction :=
  match mp.read (txKey hash) with
  | none => .error errTxNotFound
  | some tx => .ok tx

/-- `policy.BlockMaxTransactionCount`. -/
def blockMaxTransactionCount : Nat := 100

/-- `GetTransactionsForNewBlock`: the oldest transactions.  Those of one time stand
    in the order of the keys. -/
def getTransactionsForNewBlock (mp : Mempool) (keys : List Str) : List Transaction :=
  ((mp.getAllTransactions keys).insertionSort fun a b => a.timestamp ≤ b.timestamp).take
    blockMaxTransactionCount

/-! ## What the operations do to the entries -/

variable {mp : Mempool} {key : Str} {ptr : Nat} {tx : Transaction}

theorem read_eq_some : mp.read key = some tx ↔
    ∃ ptr, mp.cache.lookup key = some ptr ∧ mp.heap[ptr]? = some tx :=
  Option.bind_eq_some_iff

theorem mem_keys_of_read (h : mp.read key = some tx) : key ∈ mp.keys := by
  obtain ⟨ptr, hptr, -⟩ := read_eq_some.mp h
  have hmem : key ∈ mp.cache := by
    rw [← AList.lookup_isSome, hptr]
    rfl
  exact AList.mem_keys.mp hmem

theorem mem_getAllTransactions {keys : List Str} (hkeys : keys.Perm mp.keys) :
    tx ∈ mp.getAllTransactions keys ↔ ∃ key, mp.read key = some tx := by
  rw [getAllTransactions, List.mem_filterMap]
  constructor
  · rintro ⟨key, -, hread⟩
    exact ⟨key, hread⟩
  · rintro ⟨key, hread⟩
    exact ⟨key, hkeys.mem_iff.mpr (mem_keys_of_read hread), hread⟩

@[simp] theorem length_heap_alloc (new : Transaction) :
    (mp.alloc new).2.heap.length = mp.heap.length + 1 :=
  List.length_append

@[simp] theorem length_heap_assign (ptr : Nat) (new : Transaction) :
    (mp.assign ptr new).heap.length = mp.heap.length :=
  List.length_set

@[simp] theorem heap_storeTx (ptr : Nat) : (mp.storeTx ptr).heap = mp.heap := by
  unfold storeTx
  split <;> rfl

/-- A new variable changes no entry. -/
theorem read_alloc (new : Transaction) (key : Str) : (mp.alloc new).2.read key = mp.read key := by
  show (mp.cache.lookup key).bind (fun ptr => (mp.heap ++ [new])[ptr]?) = _
  rw [read]
  cases hptr : mp.cache.lookup key with
  | none => rfl
  | some ptr => exact List.getElem?_append_left (mp.inHeap key ptr hptr)

/-- An assignment shows in all entries that point to the variable. -/
theorem read_assign (hptr : ptr < mp.heap.length) (new : Transaction) (key : Str) :
    (mp.assign ptr new).read key
      = if mp.cache.lookup key = some ptr then some new else mp.read key := by
  show (mp.cache.lookup key).bind (fun i => (mp.heap.set ptr new)[i]?) = _
  rw [read]
  cases hkey : mp.cache.lookup key with
  | none => simp
  | some i =>
      rw [Option.bind_some, Option.bind_some, List.getElem?_set]
      simp [hptr, eq_comm]

theorem cache_storeTx (hptr : mp.heap[ptr]? = some tx) :
    (mp.storeTx ptr).cache = mp.cache.insert (txKey tx.hash) ptr := by
  obtain ⟨hlt, hget⟩ := List.getElem?_eq_some_iff.mp hptr
  rw [storeTx, dif_pos hlt]
  show mp.cache.insert (txKey mp.heap[ptr].hash) ptr = _
  rw [hget]

/-- What is stored is found under its key; the other entries are as before. -/
theorem read_storeTx (hptr : mp.heap[ptr]? = some tx) (key : Str) :
    (mp.storeTx ptr).read key = if key = txKey tx.hash then some tx else mp.read key := by
  rw [read, cache_storeTx hptr, heap_storeTx, lookup_insert_ite]
  split
  · exact hptr
  · rfl

theorem read_remove (key key' : Str) :
    (mp.remove key).read key' = if key' = key then none else mp.read key' := by
  show ((mp.cache.erase key).lookup key').bind _ = _
  rw [lookup_erase_ite]
  split <;> rfl

end Mempool

/-- `CreateTransaction` at the time `now`. -/
def createTransaction (o : Oracles) (now : Int) (data : Bytes) : Transaction where
  hash := o.keccak256 (textBytes (hexEncode data))
  merkleProof := ⟨none, 0⟩
  timestamp := now
  data := data

theorem validateHash_createTransaction (o : Oracles) (now : Int) (data : Bytes) :
    (createTransaction o now data).validateHash o = true :=
  decide_eq_true rfl

end Dione
