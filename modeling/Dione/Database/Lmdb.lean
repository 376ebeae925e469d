/-
  Dione.Database.Lmdb

  The LMDB block database (`blockchain/database/lmdb`): one byte-string map
  holds the CBOR of a block's transactions under `blockdata_<hash>`, the CBOR of
  its header under `header_<hash>`, and, under index keys, the hash for each
  height and the latest height.

  A height is looked up in two steps, height to hash and hash to block, so the
  refinement of `Store` needs the invariant that the height index never names a
  hash without a block.

  LMDB itself is a map that takes no empty keys and no keys of more than 511 bytes;
  a key that is too long is refused by `put` and not found by `get`.  The CBOR
  library is a `Codec` whose decoder inverts its encoder.
-/

import Dione.Database

namespace Dione.Lmdb

open Text Guard

/-- What the database uses of `fxamacker/cbor`. -/
structure Codec where
  encodeHeader : BlockHeader → Bytes
  decodeHeader : Bytes → Except Err BlockHeader
  encodeData : List (Option Transaction) → Bytes
  decodeData : Bytes → Except Err (List (Option Transaction))
  decode_encodeHeader : ∀ h, decodeHeader (encodeHeader h) = .ok h
  decode_encodeData : ∀ d, decodeData (encodeData d) = .ok d

/-- The contents of the LMDB database `blocks`. -/
abbrev Env := Str → Option Bytes

/-! ## Transactions -/

/-- `MDB_MAXKEYSIZE`. -/
def maxKeySize : Nat := 511

def ValidKey (key : Str) : Prop := 0 < key.length ∧ key.length ≤ maxKeySize

instance (key : Str) : Decidable (ValidKey key) :=
  inferInstanceAs (Decidable (0 < key.length ∧ key.length ≤ maxKeySize))

def badValSize : Err :=
  .msg "MDB_BAD_VALSIZE: Unsupported size of key/DB name/data, or wrong DUPFIXED size"

/-- `Txn.Put`. -/
def put (key : Str) (value : Bytes) (e : Env) : Except Err Env :=
  if ValidKey key then .ok (Function.update e key (some value)) else .error badValSize

/-- `Txn.Get`; `none` is the error `lmdb.IsNotFound` recognises. -/
def get (key : Str) (e : Env) : Except Err (Option Bytes) :=
  if key = [] then .error badValSize else .ok (if ValidKey key then e key else none)

theorem get_of_valid {key : Str} (h : ValidKey key) (e : Env) : get key e = .ok (e key) := by
  rw [get, if_neg (List.length_pos_iff.mp h.1), if_pos h]

theorem get_of_missing {key : Str} {e : Env} (hne : key ≠ []) (h : e key = none) :
    get key e = .ok none := by
  rw [get, if_neg hne, h, ite_self]

theorem put_of_valid {key : Str} (h : ValidKey key) (value : Bytes) (e : Env) :
    put key value e = .ok (Function.update e key (some value)) := if_pos h

/-! ## Keys and numbers -/

def blockDataKey (hash : Bytes) : Str := "blockdata_".toList ++ hexEncode hash

def headerKey (hash : Bytes) : Str := "header_".toList ++ hexEncode hash

/-- `Index.constructIndexKey`: the prefix `indexes/` already ends in a slash. -/
def constructIndexKey (name : Str) (key : Bytes) : Str :=
  "indexes//".toList ++ (name ++ ('/' :: hexEncode key))

/-- `binary.LittleEndian.PutUint64`. -/
def putUint64 (n : UInt64) : Bytes :=
  (List.range 8).map fun i => (n.toNat / 256 ^ i % 256).toUInt8

/-- `binary.LittleEndian.Uint64`. -/
def uint64 : Bytes → Except Err UInt64
  | b0 :: b1 :: b2 :: b3 :: b4 :: b5 :: b6 :: b7 :: _ =>
    .ok (UInt64.ofNat (b0.toNat + 256 * (b1.toNat + 256 * (b2.toNat + 256 * (b3.toNat +
      256 * (b4.toNat + 256 * (b5.toNat + 256 * (b6.toNat + 256 * b7.toNat))))))))
  | _ => .error .indexOutOfRange

/-- The index key of a height. -/
def heightIndexKey (height : UInt64) : Str := constructIndexKey "height".toList (putUint64 height)

/-- The bytes of `LatestBlockHeightKey`. -/
def latestBlockHeightKey : Bytes :=
  "latest_block_height".toList.map fun c => c.toNat.toUInt8

/-- The index key of the latest height. -/
def latestIndexKey : Str := constructIndexKey "metadata".toList latestBlockHeightKey

/-! ## Operations -/

variable (c : Codec)

/-- The write transaction of `Database.StoreBlock`: both records or none. -/
def putBlock (header : BlockHeader) (block : Block) (e : Env) : Except Err Env := do
  let e ← put (blockDataKey header.hash) (c.encodeData block.data) e
  put (headerKey header.hash) (c.encodeHeader header) e

/-- `Database.StoreBlock`: the block's transaction, then the height index. -/
def storeBlock (block : Block) (e : Env) : Except Err Unit × Env :=
  match block.header with
  | none => (.error .nilDeref, e)
  | some header =>
    match putBlock c header block e with
    | .error err => (.error err, e)
    | .ok e' =>
      match put (heightIndexKey header.height) header.hash e' with
      | .error err => (.error err, e')
      | .ok e'' => (.ok (), e'')

/-- `Database.HasBlock`: the header record decides. -/
def hasBlock (blockHash : Bytes) (e : Env) : Except Err Bool := do
  let v ← get (headerKey blockHash) e
  return v.isSome

/-- `Database.FetchBlockData`. -/
def fetchBlockData (blockHash : Bytes) (e : Env) : Except Err (List (Option Transaction)) := do
  let v ← get (blockDataKey blockHash) e
  let data ← orErr .blockNotFound v
  c.decodeData data

/-- `Database.FetchBlockHeader`, before taking the address of the result. -/
def decodedHeader (blockHash : Bytes) (e : Env) : Except Err BlockHeader := do
  let v ← get (headerKey blockHash) e
  let data ← orErr .blockNotFound v
  c.decodeHeader data

/-- `Database.FetchBlockHeader`. -/
def fetchBlockHeader (blockHash : Bytes) (e : Env) : Except Err (Option BlockHeader) := do
  let header ← decodedHeader c blockHash e
  return some header

/-- `Database.FetchBlock`. -/
def fetchBlock (blockHash : Bytes) (e : Env) : Except Err Block := do
  let header ← fetchBlockHeader c blockHash e
  let data ← fetchBlockData c blockHash e
  return ⟨header, data⟩

/-- The hash the height index gives: only `ErrIndexKeyNotFound` is handled, on
    another error the lookup goes on with a nil hash. -/
def hashAtHeight (height : UInt64) (e : Env) : Except Err Bytes :=
  match get (heightIndexKey height) e with
  | .ok (some hash) => .ok hash
  | .ok none => .error .blockNotFound
  | .error _ => .ok []

/-- `Database.FetchBlockByHeight`. -/
def fetchBlockByHeight (height : UInt64) (e : Env) : Except Err Block := do
  let blockHash ← hashAtHeight height e
  fetchBlock c blockHash e

/-- `Database.FetchBlockHeaderByHeight`. -/
def fetchBlockHeaderByHeight (height : UInt64) (e : Env) : Except Err (Option BlockHeader) := do
  let blockHash ← hashAtHeight height e
  fetchBlockHeader c blockHash e

/-- `Database.GetLatestBlockHeight`. -/
def getLatestBlockHeight (e : Env) : Except Err UInt64 := do
  let v ← get latestIndexKey e
  let data ← orErr .latestHeightNil v
  uint64 data

/-- `Database.SetLatestBlockHeight`. -/
def setLatestBlockHeight (height : UInt64) (e : Env) : Except Err Unit × Env :=
  match put latestIndexKey (putUint64 height) e with
  | .error err => (.error err, e)
  | .ok e' => (.ok (), e')

/-- The LMDB implementation of the interface. -/
def database : Database Env where
  storeBlock := storeBlock c
  hasBlock := hasBlock
  fetchBlockData := fetchBlockData c
  fetchBlockHeader := fetchBlockHeader c
  fetchBlock := fetchBlock c
  fetchBlockByHeight := fetchBlockByHeight c
  fetchBlockHeaderByHeight := fetchBlockHeaderByHeight c
  getLatestBlockHeight := getLatestBlockHeight
  setLatestBlockHeight := setLatestBlockHeight

/-! ## Numbers and keys do not get mixed up -/

theorem uint64_putUint64 (n : UInt64) : uint64 (putUint64 n) = .ok n := by
  have hn := n.toNat_lt
  simp only [putUint64, List.range, List.range.loop, List.map_cons, List.map_nil, uint64]
  refine congrArg Except.ok ?_
  apply UInt64.toNat_inj.mp
  simp only [UInt64.toNat_ofNat', UInt8.toNat_ofNat', Nat.toUInt8]
  omega

theorem putUint64_injective : Function.Injective putUint64 := by
  intro a b h
  have ha := uint64_putUint64 a
  rw [h, uint64_putUint64] at ha
  exact (Except.ok.inj ha).symm

theorem length_putUint64 (n : UInt64) : (putUint64 n).length = 8 := by
  simp [putUint64]

theorem length_hexEncode (b : Bytes) : (hexEncode b).length = 2 * b.length := by
  induction b with
  | nil => rfl
  | cons x xs ih =>
      simp only [hexEncode, List.length_cons, ih]
      omega

theorem blockDataKey_injective : Function.Injective blockDataKey :=
  fun _ _ h => hexEncode_injective (List.append_cancel_left h)

theorem headerKey_injective : Function.Injective headerKey :=
  fun _ _ h => hexEncode_injective (List.append_cancel_left h)

theorem heightIndexKey_injective : Function.Injective heightIndexKey := by
  intro a b h
  have h1 := List.append_cancel_left (List.append_cancel_left h)
  exact putUint64_injective (hexEncode_injective (List.cons.inj h1).2)

/-- The first character of each kind of key. -/
theorem head_blockDataKey (hash : Bytes) : (blockDataKey hash).head? = some 'b' := by
  unfold blockDataKey
  rw [List.head?_append_of_ne_nil _ (by decide)]
  decide

theorem head_headerKey (hash : Bytes) : (headerKey hash).head? = some 'h' := by
  unfold headerKey
  rw [List.head?_append_of_ne_nil _ (by decide)]
  decide

theorem head_constructIndexKey (name : Str) (key : Bytes) :
    (constructIndexKey name key).head? = some 'i' := by
  unfold constructIndexKey
  rw [List.head?_append_of_ne_nil _ (by decide)]
  decide

theorem ne_nil_of_head {k : Str} {x : Char} (hk : k.head? = some x) : k ≠ [] := by
  rintro rfl
  cases hk

theorem ne_of_head {k k' : Str} {x y : Char} (hk : k.head? = some x) (hk' : k'.head? = some y)
    (hxy : x ≠ y) : k ≠ k' := by
  rintro rfl
  exact hxy (Option.some.inj (hk.symm.trans hk'))

theorem headerKey_ne_blockDataKey (a b : Bytes) : headerKey a ≠ blockDataKey b :=
  ne_of_head (head_headerKey a) (head_blockDataKey b) (by decide)

theorem headerKey_ne_indexKey (a b : Bytes) (name : Str) :
    headerKey a ≠ constructIndexKey name b :=
  ne_of_head (head_headerKey a) (head_constructIndexKey name b) (by decide)

theorem blockDataKey_ne_indexKey (a b : Bytes) (name : Str) :
    blockDataKey a ≠ constructIndexKey name b :=
  ne_of_head (head_blockDataKey a) (head_constructIndexKey name b) (by decide)

theorem heightIndexKey_ne_latest (h : UInt64) : heightIndexKey h ≠ latestIndexKey := by
  intro heq
  -- `height` and `metadata` differ in their first letter
  have h1 := congrArg List.head? (List.append_cancel_left heq)
  rw [List.head?_append_of_ne_nil _ (by decide), List.head?_append_of_ne_nil _ (by decide)] at h1
  exact absurd h1 (by decide)

theorem validKey_heightIndexKey (h : UInt64) : ValidKey (heightIndexKey h) := by
  have hlen : (heightIndexKey h).length = 32 := by
    unfold heightIndexKey constructIndexKey
    rw [List.length_append, List.length_append, List.length_cons, length_hexEncode,
      length_putUint64]
    decide
  rw [ValidKey, hlen]
  decide

theorem validKey_latestIndexKey : ValidKey latestIndexKey := by decide

/-- Hashes short enough for both records of a block. -/
def Storable (hash : Bytes) : Prop := ValidKey (blockDataKey hash)

theorem length_blockDataKey (hash : Bytes) :
    (blockDataKey hash).length = 10 + 2 * hash.length := by
  unfold blockDataKey
  rw [List.length_append, length_hexEncode]
  rfl

theorem length_headerKey (hash : Bytes) : (headerKey hash).length = 7 + 2 * hash.length := by
  unfold headerKey
  rw [List.length_append, length_hexEncode]
  rfl

theorem validKey_headerKey {hash : Bytes} (h : Storable hash) : ValidKey (headerKey hash) := by
  unfold Storable ValidKey at *
  rw [length_blockDataKey] at h
  rw [length_headerKey]
  omega

theorem storable_of_length_le {hash : Bytes} (h : hash.length ≤ 32) : Storable hash := by
  unfold Storable ValidKey maxKeySize
  rw [length_blockDataKey]
  omega

/-! ## Refinement -/

/-- Both records of a block are there and decode to it. -/
def StoredAs (e : Env) (hash : Bytes) (hd : BlockHeader) (data : List (Option Transaction)) :
    Prop :=
  e (headerKey hash) = some (c.encodeHeader hd) ∧ e (blockDataKey hash) = some (c.encodeData data)

/-- A header record comes with its data record, the height index only names
    hashes that have a header record, and the latest height is eight bytes. -/
structure Wf (e : Env) : Prop where
  block : ∀ hash v, e (headerKey hash) = some v →
    Storable hash ∧ ∃ hd data, StoredAs c e hash hd data
  index : ∀ h v, e (heightIndexKey h) = some v → (e (headerKey v)).isSome
  latest : ∀ v, e latestIndexKey = some v → ∃ n, v = putUint64 n

/-- What the database means as a store. -/
def view (e : Env) : Store where
  byHash h := (fetchBlock c h e).toOption
  byHeight h := (fetchBlockByHeight c h e).toOption
  latest := (getLatestBlockHeight e).toOption

variable {c}

theorem fetchBlockHeader_of_stored {e : Env} {hash : Bytes} {hd : BlockHeader}
    {data : List (Option Transaction)} (hs : Storable hash) (h : StoredAs c e hash hd data) :
    fetchBlockHeader c hash e = .ok (some hd) := by
  simp [fetchBlockHeader, decodedHeader, get_of_valid (validKey_headerKey hs), h.1, orErr,
    c.decode_encodeHeader]

theorem fetchBlock_of_stored {e : Env} {hash : Bytes} {hd : BlockHeader}
    {data : List (Option Transaction)} (hs : Storable hash) (h : StoredAs c e hash hd data) :
    fetchBlock c hash e = .ok ⟨some hd, data⟩ := by
  have hv : ValidKey (blockDataKey hash) := hs
  simp [fetchBlock, fetchBlockHeader_of_stored hs h, fetchBlockData, get_of_valid hv, h.2, orErr,
    c.decode_encodeData]

theorem fetchBlockHeader_of_missing {e : Env} {hash : Bytes} (h : e (headerKey hash) = none) :
    fetchBlockHeader c hash e = .error .blockNotFound := by
  simp [fetchBlockHeader, decodedHeader, get_of_missing (ne_nil_of_head (head_headerKey hash)) h,
    orErr]

theorem fetchBlock_of_missing {e : Env} {hash : Bytes} (h : e (headerKey hash) = none) :
    fetchBlock c hash e = .error .blockNotFound := by
  simp [fetchBlock, fetchBlockHeader_of_missing h]

/-- In a well-formed database a header record and a block are the same thing. -/
theorem byHash_eq_none_iff {e : Env} (he : Wf c e) {hash : Bytes} :
    (view c e).byHash hash = none ↔ e (headerKey hash) = none := by
  cases hv : e (headerKey hash) with
  | none => simp [view, fetchBlock_of_missing hv, Except.toOption]
  | some v =>
      obtain ⟨hs, hd, data, hst⟩ := he.block hash v hv
      simp [view, fetchBlock_of_stored hs hst, Except.toOption]

theorem hashAtHeight_eq (e : Env) (h : UInt64) :
    hashAtHeight h e = orErr .blockNotFound (e (heightIndexKey h)) := by
  rw [hashAtHeight, get_of_valid (validKey_heightIndexKey h)]
  cases e (heightIndexKey h) <;> rfl

/-- A height either has no entry or leads to a stored block. -/
theorem height_cases {e : Env} (he : Wf c e) (h : UInt64) :
    e (heightIndexKey h) = none ∨ ∃ hash hd data, e (heightIndexKey h) = some hash ∧
      Storable hash ∧ StoredAs c e hash hd data := by
  cases hv : e (heightIndexKey h) with
  | none => exact Or.inl rfl
  | some hash =>
      obtain ⟨v, hv'⟩ := Option.isSome_iff_exists.mp (he.index h hash hv)
      obtain ⟨hs, hd, data, hst⟩ := he.block hash v hv'
      exact Or.inr ⟨hash, hd, data, rfl, hs, hst⟩

theorem fetchBlockByHeight_eq {e : Env} (he : Wf c e) (h : UInt64) :
    fetchBlockByHeight c h e = orErr .blockNotFound ((view c e).byHeight h) := by
  -- The height index is empty there, or both records of its block exist.
  rcases height_cases he h with hn | ⟨hash, hd, data, hv, hs, hst⟩
  · simp [view, fetchBlockByHeight, hashAtHeight_eq, hn, orErr, Except.toOption]
  · simp [view, fetchBlockByHeight, hashAtHeight_eq, hv, orErr, Except.toOption,
      fetchBlock_of_stored hs hst]

theorem fetchBlockHeaderByHeight_eq {e : Env} (he : Wf c e) (h : UInt64) :
    fetchBlockHeaderByHeight c h e
      = orErr .blockNotFound (((view c e).byHeight h).map Block.header) := by
  rcases height_cases he h with hn | ⟨hash, hd, data, hv, hs, hst⟩
  · simp [view, fetchBlockByHeight, fetchBlockHeaderByHeight, hashAtHeight_eq, hn, orErr,
      Except.toOption]
  · simp [view, fetchBlockByHeight, fetchBlockHeaderByHeight, hashAtHeight_eq, hv, orErr,
      Except.toOption, fetchBlock_of_stored hs hst, fetchBlockHeader_of_stored hs hst]

theorem getLatestBlockHeight_eq {e : Env} (he : Wf c e) :
    getLatestBlockHeight e = orErr .latestHeightNil (view c e).latest := by
  cases hv : e latestIndexKey with
  | none =>
      simp [view, getLatestBlockHeight, get_of_valid validKey_latestIndexKey, hv, orErr,
        Except.toOption]
  | some v =>
      obtain ⟨n, rfl⟩ := he.latest v hv
      simp [view, getLatestBlockHeight, get_of_valid validKey_latestIndexKey, hv, orErr,
        Except.toOption, uint64_putUint64]

theorem hasBlock_of_missing {e : Env} {hash : Bytes} (h : e (headerKey hash) = none) :
    hasBlock hash e = .ok false := by
  simp [hasBlock, get_of_missing (ne_nil_of_head (head_headerKey hash)) h]

/-- Also of a hash that is too long for a key. -/
theorem hasBlock_eq {e : Env} (he : Wf c e) {hash : Bytes} :
    hasBlock hash e = .ok ((view c e).byHash hash).isSome := by
  cases hx : e (headerKey hash) with
  | none =>
      rw [hasBlock_of_missing hx, (byHash_eq_none_iff he).mpr hx]
      rfl
  | some v =>
      obtain ⟨hs, hd, data, hst⟩ := he.block hash v hx
      simp [hasBlock, get_of_valid (validKey_headerKey hs), hx, view, fetchBlock_of_stored hs hst,
        Except.toOption]

/-- The database after the three writes of a successful `StoreBlock`. -/
def stored (c : Codec) (hd : BlockHeader) (b : Block) (e : Env) : Env :=
  Function.update (Function.update (Function.update e (blockDataKey hd.hash)
    (some (c.encodeData b.data))) (headerKey hd.hash) (some (c.encodeHeader hd)))
    (heightIndexKey hd.height) (some hd.hash)

theorem storeBlock_eq {b : Block} {hd : BlockHeader} (hb : b.header = some hd)
    (hs : Storable hd.hash) (e : Env) : storeBlock c b e = (.ok (), stored c hd b e) := by
  have hv : ValidKey (blockDataKey hd.hash) := hs
  simp [storeBlock, hb, putBlock, put_of_valid hv, put_of_valid (validKey_headerKey hs),
    put_of_valid (validKey_heightIndexKey hd.height), stored]

theorem storeBlock_unstorable {b : Block} {hd : BlockHeader} (hb : b.header = some hd)
    (hs : ¬ Storable hd.hash) (e : Env) : storeBlock c b e = (.error badValSize, e) := by
  have hv : ¬ ValidKey (blockDataKey hd.hash) := hs
  simp [storeBlock, hb, putBlock, put, hv]

section Stored

variable (hd : BlockHeader) (b : Block) (e : Env)

theorem stored_header (hash : Bytes) :
    stored c hd b e (headerKey hash)
      = if hash = hd.hash then some (c.encodeHeader hd) else e (headerKey hash) := by
  simp [stored, Function.update_apply, headerKey_ne_indexKey, heightIndexKey,
    headerKey_ne_blockDataKey, headerKey_injective.eq_iff]

theorem stored_data (hash : Bytes) :
    stored c hd b e (blockDataKey hash)
      = if hash = hd.hash then some (c.encodeData b.data) else e (blockDataKey hash) := by
  simp [stored, Function.update_apply, blockDataKey_ne_indexKey, heightIndexKey,
    (headerKey_ne_blockDataKey _ _).symm, blockDataKey_injective.eq_iff]

theorem stored_index (h : UInt64) :
    stored c hd b e (heightIndexKey h)
      = if h = hd.height then some hd.hash else e (heightIndexKey h) := by
  have h1 : heightIndexKey h ≠ headerKey hd.hash := (headerKey_ne_indexKey _ _ _).symm
  have h2 : heightIndexKey h ≠ blockDataKey hd.hash := (blockDataKey_ne_indexKey _ _ _).symm
  simp [stored, Function.update_apply, h1, h2, heightIndexKey_injective.eq_iff]

theorem stored_latest : stored c hd b e latestIndexKey = e latestIndexKey := by
  have h1 : latestIndexKey ≠ headerKey hd.hash := (headerKey_ne_indexKey _ _ _).symm
  have h2 : latestIndexKey ≠ blockDataKey hd.hash := (blockDataKey_ne_indexKey _ _ _).symm
  simp [stored, h1, h2, (heightIndexKey_ne_latest hd.height).symm]

end Stored

theorem storedAs_stored_self {b : Block} {hd : BlockHeader} (e : Env) :
    StoredAs c (stored c hd b e) hd.hash hd b.data := by
  constructor
  · rw [stored_header, if_pos rfl]
  · rw [stored_data, if_pos rfl]

theorem storedAs_stored_of_ne {b : Block} {hd hd' : BlockHeader} {e : Env} {hash : Bytes}
    {data : List (Option Transaction)} (hne : hash ≠ hd.hash) (h : StoredAs c e hash hd' data) :
    StoredAs c (stored c hd b e) hash hd' data := by
  constructor
  · rw [stored_header, if_neg hne]
    exact h.1
  · rw [stored_data, if_neg hne]
    exact h.2

theorem wf_stored {e : Env} (he : Wf c e) {hd : BlockHeader} {b : Block}
    (hs : Storable hd.hash) : Wf c (stored c hd b e) := by
  constructor
  · intro hash v hv
    by_cases hne : hash = hd.hash
    · subst hne
      exact ⟨hs, hd, b.data, storedAs_stored_self e⟩
    · rw [stored_header, if_neg hne] at hv
      obtain ⟨hs', hd', data, hst⟩ := he.block hash v hv
      exact ⟨hs', hd', data, storedAs_stored_of_ne hne hst⟩
  · intro h v hv
    rw [stored_header]
    -- the new entry names the new header, the others name old ones
    by_cases hvh : v = hd.hash
    · simp [hvh]
    · rw [stored_index] at hv
      by_cases hh : h = hd.height
      · rw [if_pos hh] at hv
        exact absurd (Option.some.inj hv).symm hvh
      · rw [if_neg hh] at hv
        rw [if_neg hvh]
        exact he.index h v hv
  · intro v hv
    rw [stored_latest] at hv
    exact he.latest v hv

theorem fetchBlock_stored_of_ne {hash : Bytes} {hd : BlockHeader} {b : Block} (e : Env)
    (hne : hash ≠ hd.hash) : fetchBlock c hash (stored c hd b e) = fetchBlock c hash e := by
  have h1 : get (headerKey hash) (stored c hd b e) = get (headerKey hash) e := by
    simp only [get, stored_header, if_neg hne]
  have h2 : get (blockDataKey hash) (stored c hd b e) = get (blockDataKey hash) e := by
    simp only [get, stored_data, if_neg hne]
  simp only [fetchBlock, fetchBlockHeader, decodedHeader, fetchBlockData, h1, h2]

theorem view_stored {e : Env} (he : Wf c e) {hd : BlockHeader} {b : Block}
    (hb : b.header = some hd) (hs : Storable hd.hash)
    (hfresh : (view c e).byHash hd.hash = none) :
    view c (stored c hd b e) = (view c e).insert hd b := by
  have hself : fetchBlock c hd.hash (stored c hd b e) = .ok b := by
    rw [fetchBlock_of_stored hs (storedAs_stored_self e), ← hb]
  refine Store.ext ?_ ?_ ?_
  · funext hash
    rw [Store.insert_byHash]
    by_cases hne : hash = hd.hash
    · subst hne
      simp [view, hself, Except.toOption]
    · simp [view, fetchBlock_stored_of_ne e hne, hne]
  · funext h
    rw [Store.insert_byHeight]
    simp only [view, fetchBlockByHeight, hashAtHeight_eq, stored_index]
    by_cases hh : h = hd.height
    · simp [hh, orErr, hself, Except.toOption]
    · rw [if_neg hh, if_neg hh]
      -- an entry of the old index has a block, so its hash is not the new one
      rcases height_cases he h with hn | ⟨hash, hd', data, hv, hs', hst⟩
      · simp [hn, orErr]
      · have hne : hash ≠ hd.hash := by
          rintro rfl
          rw [byHash_eq_none_iff he, hst.1] at hfresh
          cases hfresh
        simp [hv, orErr, fetchBlock_stored_of_ne e hne]
  · simp only [view, getLatestBlockHeight, get, stored_latest, Store.insert_latest]

/-- The database after `SetLatestBlockHeight`. -/
def withLatest (h : UInt64) (e : Env) : Env :=
  Function.update e latestIndexKey (some (putUint64 h))

theorem withLatest_of_ne {e : Env} (h : UInt64) {key : Str} (hne : key ≠ latestIndexKey) :
    withLatest h e key = e key := by
  simp [withLatest, hne]

theorem wf_withLatest {e : Env} (he : Wf c e) (h : UInt64) : Wf c (withLatest h e) := by
  have hhd : ∀ hash, withLatest h e (headerKey hash) = e (headerKey hash) :=
    fun hash => withLatest_of_ne h (headerKey_ne_indexKey _ _ _)
  have hdt : ∀ hash, withLatest h e (blockDataKey hash) = e (blockDataKey hash) :=
    fun hash => withLatest_of_ne h (blockDataKey_ne_indexKey _ _ _)
  constructor
  · intro hash v hv
    rw [hhd] at hv
    obtain ⟨hs, hd, data, hst⟩ := he.block hash v hv
    exact ⟨hs, hd, data, (hhd hash).trans hst.1, (hdt hash).trans hst.2⟩
  · intro k v hv
    rw [withLatest_of_ne h (heightIndexKey_ne_latest k)] at hv
    rw [hhd]
    exact he.index k v hv
  · intro v hv
    exact ⟨h, by simpa [withLatest] using hv.symm⟩

theorem view_withLatest (e : Env) (h : UInt64) :
    view c (withLatest h e) = (view c e).setLatest h := by
  have hhd : ∀ hash, get (headerKey hash) (withLatest h e) = get (headerKey hash) e :=
    fun hash => by rw [get, withLatest_of_ne h (headerKey_ne_indexKey _ _ _), get]
  have hdt : ∀ hash, get (blockDataKey hash) (withLatest h e) = get (blockDataKey hash) e :=
    fun hash => by rw [get, withLatest_of_ne h (blockDataKey_ne_indexKey _ _ _), get]
  have hfetch : ∀ hash, fetchBlock c hash (withLatest h e) = fetchBlock c hash e := by
    intro hash
    simp only [fetchBlock, fetchBlockHeader, decodedHeader, fetchBlockData, hhd, hdt]
  refine Store.ext ?_ ?_ ?_
  · funext hash
    simp only [view, hfetch, Store.setLatest]
  · funext k
    simp only [view, fetchBlockByHeight, hashAtHeight_eq, hfetch, Store.setLatest,
      withLatest_of_ne h (heightIndexKey_ne_latest k)]
  · simp [view, getLatestBlockHeight, get_of_valid validKey_latestIndexKey, withLatest, orErr,
      uint64_putUint64, Except.toOption]

/-- The LMDB database refines `Store` on the hashes its keys have room for. -/
def backend (c : Codec) : Backend where
  σ := Env
  db := database c
  new := fun _ => none
  view := view c
  Wf := Wf c
  storable := Storable
  storable_short := fun _ => storable_of_length_le
  new_wf := by constructor <;> simp
  view_new := by
    refine Store.ext ?_ ?_ ?_
    · funext hash
      simp [view, fetchBlock_of_missing, Store.empty, Except.toOption]
    · funext h
      simp [view, fetchBlockByHeight, hashAtHeight_eq, orErr, Store.empty, Except.toOption]
    · simp [view, getLatestBlockHeight, get_of_valid validKey_latestIndexKey, orErr, Store.empty,
        Except.toOption]
  hasBlock_eq := fun he _ => hasBlock_eq he
  unstorable := by
    intro e b hd he hb hs
    -- `HasBlock` answers for a hash that is too long, and `StoreBlock` fails
    refine .inr ⟨?_, badValSize, storeBlock_unstorable hb hs e⟩
    cases hx : e (headerKey hd.hash) with
    | none => exact hasBlock_of_missing hx
    | some v => exact absurd (he.block hd.hash v hx).1 hs
  fetchBlockByHeight_eq := fun h he => fetchBlockByHeight_eq he h
  fetchBlockHeaderByHeight_eq := fun h he => fetchBlockHeaderByHeight_eq he h
  getLatestBlockHeight_eq := getLatestBlockHeight_eq
  storeBlock_spec := fun {e b hd} he hb hs hfresh =>
    ⟨stored c hd b e, storeBlock_eq hb hs e, wf_stored he hs, view_stored he hb hs hfresh⟩
  setLatestBlockHeight_spec := by
    intro e h he
    refine ⟨withLatest h e, ?_, wf_withLatest he h, view_withLatest e h⟩
    simp [database, setLatestBlockHeight, put_of_valid validKey_latestIndexKey, withLatest]

end Dione.Lmdb
