/-
  Dione.Cache

  The two cache backends (`cache/inmemory/cache.go`, `cache/redis/cache.go`) behind
  the same calls, and the loop of `Mempool.GetAllTransactions` over them.

  In memory every named cache is a map of its own.  Redis is one map for all of
  them, in which the key `k` of the cache `n` is `n/k`; values are stored as what
  `gob` makes of them.  `Keys` of the Redis backend returns the keys of that map
  as they are, with the name in front, and `Get` puts the name in front once more.
  Under the right key, too, `Get` fails: it has `gob` decode into an `interface{}`
  variable that holds the destination, and not into the destination.

  Entries with a time to live are taken to be still alive.  Of `gob` all that is
  asked is that reading into a variable of the type inverts writing, and that a value
  of a concrete type is not read into an interface; which keys match a pattern is a
  parameter.
-/

import Dione.Database.Wire
import Dione.Lib.Lists
import Dione.Lib.Run

namespace Dione.Cache

open Guard Text Dione.Lists

/-- `cache.ErrNotFound`. -/
def errNotFound : Err := .msg "key doesn't exist in cache"

/-- What `Decode` is given the address of. -/
inductive Receiver where
  /-- A variable of the type of the value. -/
  | typed
  /-- A variable of type `interface{}`, whatever it holds. -/
  | interface
  deriving DecidableEq, Repr

/-- What `Decode` says to a value of a concrete type and an `interface{}` variable. -/
def errInterface (typeString : String) : Err :=
  .msg ("gob: local interface type *interface \x7b\x7d can only be decoded from remote interface "
    ++ "type; received concrete type " ++ typeString)

/-- What the Redis backend uses of `encoding/gob` for values of type `V`, whose encoding
    carries the description `typeString` of the type. -/
structure Gob (V : Type) where
  typeString : String
  encode : V → Bytes
  decode : Receiver → Bytes → Except Err V
  decode_typed : ∀ v, decode .typed (encode v) = .ok v
  decode_interface : ∀ v, decode .interface (encode v) = .error (errInterface typeString)

/-- The calls that change a cache. -/
inductive Call (V : Type) where
  | store (key : Str) (value : V)
  | storeWithTTL (key : Str) (value : V) (ttl : Nat)
  | delete (key : Str)

/-- The key a call is about. -/
def Call.key {V : Type} : Call V → Str
  | .store key _ | .storeWithTTL key _ _ | .delete key => key

/-- What is under that key after it. -/
def Call.value {V : Type} : Call V → Option V
  | .store _ value | .storeWithTTL _ value _ => some value
  | .delete _ => none

/-! ## In memory -/

namespace InMemory

variable {V : Type}

/-- The caches of a manager, by name. -/
abbrev Caches (V : Type) := Str → AList fun _ : Str => V

def new : Caches V := fun _ => ∅

/-- A call on the cache `name`. -/
def step (s : Caches V) (c : Str × Call V) : Caches V :=
  Function.update s c.1 <|
    match c.2 with
    | .store key value => (s c.1).insert key value
    | .storeWithTTL key value _ => (s c.1).insert key value
    | .delete key => (s c.1).erase key

/-- `Get`. -/
def get (s : Caches V) (name key : Str) : Except Err V := orErr errNotFound ((s name).lookup key)

/-- `Exists`. -/
def existsKey (s : Caches V) (name key : Str) : Bool := ((s name).lookup key).isSome

/-- `Keys`, in some order. -/
def keys (s : Caches V) (name : Str) : List Str := (s name).keys

end InMemory

/-! ## Redis -/

namespace Redis

/-- The strings Redis holds. -/
abbrev Client := AList fun _ : Str => Bytes

/-- `rc.name + "/" + key`. -/
def fullKey (name key : Str) : Str := name ++ '/' :: key

variable {V : Type} (gob : Gob V) (glob : Str → Str → Bool)

def new : Client := ∅

/-- `gobMarshal`. -/
def gobMarshal (value : V) : Bytes := gob.encode value

/-- `gobUnmarshal`: its parameter `val` is an `interface{}`, and `&val` is what it passes on. -/
def gobUnmarshal (data : Bytes) : Except Err V := gob.decode .interface data

/-- A call on the cache `name`. -/
def step (s : Client) (c : Str × Call V) : Client :=
  match c.2 with
  | .store key value => s.insert (fullKey c.1 key) (gobMarshal gob value)
  | .storeWithTTL key value _ => s.insert (fullKey c.1 key) (gobMarshal gob value)
  | .delete key => s.erase (fullKey c.1 key)

/-- `Get`. -/
def get (s : Client) (name key : Str) : Except Err V := do
  let data ← orErr errNotFound (s.lookup (fullKey name key))
  gobUnmarshal gob data

/-- `Exists`. -/
def existsKey (s : Client) (name key : Str) : Bool := (s.lookup (fullKey name key)).isSome

/-- `Keys`: the keys that match `name/*`, as Redis has them. -/
def keys (s : Client) (name : Str) : List Str := s.keys.filter (glob (fullKey name ['*']))

end Redis

/-! ## What a cache is for -/

/-- The answers of the caches of a backend. -/
structure Answers (V : Type) where
  get : Str → Str → Except Err V
  existsKey : Str → Str → Bool
  keys : Str → List Str

/-- The loop of `Mempool.GetAllTransactions` over the cache `name`: where `Get` fails, the
    error is logged and the key skipped. -/
def Answers.getAll {V : Type} (a : Answers V) (name : Str) : List V :=
  (a.keys name).filterMap fun key => (a.get name key).toOption

section Backends

variable {V : Type} (gob : Gob V) (glob : Str → Str → Bool) (calls : List (Str × Call V))

/-- The in-memory backend after the calls. -/
def inMemory : Answers V :=
  let s := Run.exec InMemory.step InMemory.new calls
  ⟨InMemory.get s, InMemory.existsKey s, InMemory.keys s⟩

/-- The Redis backend after the calls. -/
def redis : Answers V :=
  let s := Run.exec (Redis.step gob) Redis.new calls
  ⟨Redis.get gob s, Redis.existsKey s, Redis.keys glob s⟩

/-- What has been stored last under a key of a cache and not been deleted. -/
def stored (name key : Str) : Option V :=
  calls.foldl (fun v c => if name = c.1 ∧ key = c.2.key then c.2.value else v) none

/-- The backends answer alike, what `Keys` returns can be fetched, and fetching all of it
    gives what is stored. -/
structure Interchangeable (a b : Answers V) : Prop where
  get_eq : ∀ name key, a.get name key = b.get name key
  existsKey_eq : ∀ name key, a.existsKey name key = b.existsKey name key
  keys_eq : ∀ name key, key ∈ a.keys name ↔ key ∈ b.keys name
  accepted : ∀ name, ∀ key ∈ a.keys name, ∃ v, a.get name key = .ok v ∧ b.get name key = .ok v
  getAll : ∀ name v, (v ∈ a.getAll name ↔ ∃ key, stored calls name key = some v) ∧
    (v ∈ b.getAll name ↔ ∃ key, stored calls name key = some v)

variable {gob glob calls}

theorem stored_concat (c : Str × Call V) (name key : Str) :
    stored (calls ++ [c]) name key
      = if name = c.1 ∧ key = c.2.key then c.2.value else stored calls name key := by
  rw [stored, List.foldl_concat]
  rfl

/-! ## What the backends hold -/

theorem InMemory.lookup_step (s : Caches V) (c : Str × Call V) (name key : Str) :
    (step s c name).lookup key
      = if name = c.1 ∧ key = c.2.key then c.2.value else (s name).lookup key := by
  obtain ⟨name', call⟩ := c
  by_cases hname : name = name'
  · subst hname
    simp only [step, Function.update_self, true_and]
    cases call with
    | store k v => exact lookup_insert_ite _ _ _ _
    | storeWithTTL k v ttl => exact lookup_insert_ite _ _ _ _
    | delete k => exact lookup_erase_ite _ _ _
  · simp only [step, Function.update_of_ne hname, hname, false_and, if_false]

theorem Redis.lookup_step (gob : Gob V) (s : Client) (c : Str × Call V) (full : Str) :
    (step gob s c).lookup full
      = if full = fullKey c.1 c.2.key then c.2.value.map (gobMarshal gob) else s.lookup full := by
  obtain ⟨name, call⟩ := c
  cases call with
  | store k v => exact lookup_insert_ite _ _ _ _
  | storeWithTTL k v ttl => exact lookup_insert_ite _ _ _ _
  | delete k => exact lookup_erase_ite _ _ _

/-- Every cache in memory holds what is stored. -/
theorem InMemory.lookup_exec (calls : List (Str × Call V)) (name key : Str) :
    (Run.exec step new calls name).lookup key = stored calls name key := by
  induction calls using List.reverseRecOn with
  | nil => exact AList.lookup_empty key
  | append_singleton calls c ih => rw [Run.exec_concat, lookup_step, stored_concat, ih]

/-- What Redis holds is stored under a key of some cache. -/
theorem Redis.stored_of_lookup {calls : List (Str × Call V)} {full : Str} {data : Bytes}
    (h : (Run.exec (step gob) new calls).lookup full = some data) :
    ∃ name key v, full = fullKey name key ∧ stored calls name key = some v ∧
      data = gobMarshal gob v := by
  induction calls using List.reverseRecOn generalizing data with
  | nil =>
      rw [Run.exec_nil, new, AList.lookup_empty] at h
      cases h
  | append_singleton calls c ih =>
      rw [Run.exec_concat, lookup_step] at h
      split at h
      · next hfull =>
          obtain ⟨v, hv, rfl⟩ := Option.map_eq_some_iff.mp h
          refine ⟨c.1, c.2.key, v, hfull, ?_, rfl⟩
          rw [stored_concat, if_pos ⟨rfl, rfl⟩, hv]
      · next hne =>
          obtain ⟨name, key, v, rfl, hv, rfl⟩ := ih h
          refine ⟨name, key, v, rfl, ?_, rfl⟩
          rw [stored_concat, if_neg]
          · exact hv
          · rintro ⟨rfl, rfl⟩
            exact hne rfl

/-! ## When the backends are interchangeable -/

theorem mem_keys_inMemory {name key : Str} :
    key ∈ (inMemory calls).keys name ↔ stored calls name key ≠ none := by
  rw [← InMemory.lookup_exec, ← Option.isSome_iff_ne_none, AList.lookup_isSome]
  exact AList.mem_keys.symm

theorem existsKey_inMemory {name key : Str} :
    (inMemory calls).existsKey name key = true ↔ stored calls name key ≠ none := by
  rw [← InMemory.lookup_exec, ← Option.isSome_iff_ne_none]
  rfl

/-- The keys of the Redis backend are full keys of what it holds. -/
theorem existsKey_of_mem_keys_redis {name full : Str}
    (h : full ∈ (redis gob glob calls).keys name) :
    ∃ name' key, full = Redis.fullKey name' key ∧
      (redis gob glob calls).existsKey name' key = true := by
  have hin : full ∈ Run.exec (Redis.step gob) Redis.new calls :=
    AList.mem_keys.mpr (List.mem_filter.mp h).1
  have hsome := AList.lookup_isSome.mpr hin
  obtain ⟨data, hdata⟩ := Option.isSome_iff_exists.mp hsome
  obtain ⟨name', key, v, rfl, -, -⟩ := Redis.stored_of_lookup hdata
  exact ⟨name', key, rfl, hsome⟩

/-- Of backends that answer alike, none can hold anything: what is under the key `k` in
    memory makes `k` a full key of Redis, and so the key in it, which is shorter, is a
    key in memory too. -/
theorem stored_eq_none_of_agree
    (hexists : ∀ name key, (inMemory calls).existsKey name key
      = (redis gob glob calls).existsKey name key)
    (hkeys : ∀ name key, key ∈ (inMemory calls).keys name → key ∈ (redis gob glob calls).keys name)
    (name key : Str) : stored calls name key = none := by
  induction hlen : key.length using Nat.strongRecOn generalizing name key with
  | ind n ih =>
      by_contra hstored
      obtain ⟨name', key', rfl, hthere⟩ :=
        existsKey_of_mem_keys_redis (hkeys name key (mem_keys_inMemory.mpr hstored))
      have hshorter : key'.length < n := by
        rw [← hlen, Redis.fullKey, List.length_append, List.length_cons]
        omega
      rw [← hexists] at hthere
      exact existsKey_inMemory.mp hthere (ih key'.length hshorter name' key' rfl)

/-- Nothing is ever read from Redis: there is no value under the key, or it is one of a concrete
    type. -/
theorem get_redis_ne_ok (name key : Str) (v : V) : (redis gob glob calls).get name key ≠ .ok v := by
  intro h
  replace h : Redis.get gob (Run.exec (Redis.step gob) Redis.new calls) name key = .ok v := h
  simp only [Redis.get, bind_eq_ok, orErr_eq_ok] at h
  obtain ⟨data, hdata, hdecode⟩ := h
  obtain ⟨name', key', v', -, -, rfl⟩ := Redis.stored_of_lookup hdata
  rw [Redis.gobUnmarshal, Redis.gobMarshal, gob.decode_interface] at hdecode
  cases hdecode

theorem stored_eq_none_of_get_agree
    (hget : ∀ name key, (inMemory calls).get name key = (redis gob glob calls).get name key)
    (name key : Str) : stored calls name key = none := by
  by_contra hstored
  obtain ⟨v, hv⟩ := Option.ne_none_iff_exists'.mp hstored
  have hmemory : (inMemory calls).get name key = .ok v := by
    show InMemory.get _ name key = .ok v
    rw [InMemory.get, InMemory.lookup_exec, hv]
    rfl
  exact get_redis_ne_ok name key v ((hget name key).symm.trans hmemory)

theorem lookup_redis_eq_none (h : ∀ name key, stored calls name key = none) (full : Str) :
    (Run.exec (Redis.step gob) Redis.new calls).lookup full = none := by
  by_contra hne
  obtain ⟨data, hdata⟩ := Option.ne_none_iff_exists'.mp hne
  obtain ⟨name, key, v, -, hv, -⟩ := Redis.stored_of_lookup hdata
  rw [h name key] at hv
  cases hv

theorem keys_redis_eq_nil (h : ∀ name key, stored calls name key = none) (name : Str) :
    (redis gob glob calls).keys name = [] := by
  refine List.eq_nil_iff_forall_not_mem.mpr fun full hin => ?_
  obtain ⟨name', key, -, hthere⟩ := existsKey_of_mem_keys_redis hin
  have hnone : (redis gob glob calls).existsKey name' key = false := by
    show Redis.existsKey (Run.exec (Redis.step gob) Redis.new calls) name' key = false
    rw [Redis.existsKey, lookup_redis_eq_none h]
    rfl
  rw [hnone] at hthere
  cases hthere

theorem keys_inMemory_eq_nil (h : ∀ name key, stored calls name key = none) (name : Str) :
    (inMemory calls).keys name = [] :=
  List.eq_nil_iff_forall_not_mem.mpr fun key hin => mem_keys_inMemory.mp hin (h name key)

end Backends

theorem interchangeable_of_none_stored {V : Type} {gob : Gob V} {glob : Str → Str → Bool}
    {calls : List (Str × Call V)} (h : ∀ name key, stored calls name key = none) :
    Interchangeable calls (inMemory calls) (redis gob glob calls) := by
  have hmemory : ∀ name key,
      (Run.exec InMemory.step InMemory.new calls name).lookup key = none := fun name key =>
    (InMemory.lookup_exec calls name key).trans (h name key)
  constructor
  · intro name key
    show InMemory.get _ name key = Redis.get gob _ name key
    rw [InMemory.get, Redis.get, hmemory, lookup_redis_eq_none h]
    rfl
  · intro name key
    show InMemory.existsKey _ name key = Redis.existsKey _ name key
    rw [InMemory.existsKey, Redis.existsKey, hmemory, lookup_redis_eq_none h]
    rfl
  · intro name key
    rw [keys_inMemory_eq_nil h, keys_redis_eq_nil h]
  · intro name key hin
    rw [keys_inMemory_eq_nil h] at hin
    cases hin
  · intro name v
    have hnone : ¬ ∃ key, stored calls name key = some v := by
      rintro ⟨key, hkey⟩
      rw [h name key] at hkey
      cases hkey
    rw [Answers.getAll, Answers.getAll, keys_inMemory_eq_nil h, keys_redis_eq_nil h]
    simp [hnone]

/-- After any calls on any caches the in-memory backend and Redis are interchangeable
    iff every value that was stored has been deleted again.  `Get` alone agrees under no other
    condition, and neither do `Exists` and `Keys`. -/
theorem interchangeable_iff {V : Type} (gob : Gob V) (glob : Str → Str → Bool)
    (calls : List (Str × Call V)) :
    (Interchangeable calls (inMemory calls) (redis gob glob calls) ↔
      ∀ name key, stored calls name key = none) ∧
    ((∀ name key, (inMemory calls).get name key = (redis gob glob calls).get name key) ↔
      ∀ name key, stored calls name key = none) ∧
    ((∀ name key, (inMemory calls).existsKey name key = (redis gob glob calls).existsKey name key ∧
        (key ∈ (inMemory calls).keys name ↔ key ∈ (redis gob glob calls).keys name)) ↔
      ∀ name key, stored calls name key = none) := by
  refine ⟨⟨?_, interchangeable_of_none_stored⟩, ⟨stored_eq_none_of_get_agree, ?_⟩, ⟨?_, ?_⟩⟩
  · intro h
    exact stored_eq_none_of_get_agree h.get_eq
  · intro h
    exact (interchangeable_of_none_stored h).get_eq
  · intro h
    exact stored_eq_none_of_agree (fun name key => (h name key).1)
      fun name key => (h name key).2.mp
  · intro h name key
    have hboth : Interchangeable calls (inMemory calls) (redis gob glob calls) :=
      interchangeable_of_none_stored h
    exact ⟨hboth.existsKey_eq name key, hboth.keys_eq name key⟩

/-! ### A mempool that cannot be read -/

/-- Transactions, written field by field. -/
def transactionGob : Gob Transaction where
  typeString := "Transaction"
  encode := Lmdb.Format.transaction.put
  decode
    | .typed, bs => orErr (.msg "EOF") (Lmdb.Format.transaction.decode bs)
    | .interface, _ => .error (errInterface "Transaction")
  decode_typed tx := by
    show orErr _ (Lmdb.Format.transaction.decode (Lmdb.Format.transaction.put tx)) = .ok tx
    rw [Lmdb.Format.transaction.decode_put, orErr]
  decode_interface _ := rfl

/-- Patterns that end in the only star they have. -/
def starGlob (pattern key : Str) : Bool := pattern.dropLast.isPrefixOf key

/-- A transaction is stored in the mempool. -/
def oneTx : List (Str × Call Transaction) :=
  [("mempool".toList, .storeWithTTL "tx_01".toList ⟨[1], ⟨none, 0⟩, 0, []⟩ 600)]

/-- In memory it is there under its key and among all transactions.  In Redis its key exists, but
    `Get` cannot read what is there, `Keys` gives another key, and `GetAllTransactions` is
    empty. -/
theorem redis_loses_transaction :
    (inMemory oneTx).get "mempool".toList "tx_01".toList = .ok ⟨[1], ⟨none, 0⟩, 0, []⟩ ∧
      (inMemory oneTx).getAll "mempool".toList = [⟨[1], ⟨none, 0⟩, 0, []⟩] ∧
      (redis transactionGob starGlob oneTx).existsKey "mempool".toList "tx_01".toList = true ∧
      (redis transactionGob starGlob oneTx).get "mempool".toList "tx_01".toList
        = .error (errInterface "Transaction") ∧
      (redis transactionGob starGlob oneTx).keys "mempool".toList = ["mempool/tx_01".toList] ∧
      (redis transactionGob starGlob oneTx).getAll "mempool".toList = [] := by
  refine ⟨?_, ?_, ?_, ?_, ?_, ?_⟩
  · decide
  · decide
  · decide
  · decide
  · decide
  · decide

end Dione.Cache
