/-
  Dione.Database.Memory

  The in-memory block database (`blockchain/database/memory`): one string-keyed
  cache without expiration holds blocks under their hexadecimal hash, the same
  blocks under `height/<n>`, and the latest height under its own key.

  The three kinds of key cannot collide: a hexadecimal text has no `h` and no
  `l`.  That is all the refinement of `Store` rests on.
-/

import Dione.Database

namespace Dione.Memory

open Text

/-- A cached value, `interface{}` in the source. -/
inductive Item where
  | block (b : Block)
  | height (h : UInt64)
  deriving DecidableEq, Repr

/-- `memory.Database`: the contents of its cache. -/
abbrev Cache := Str → Option Item

/-- `LatestBlockHeightKey`. -/
def latestBlockHeightKey : Str := "latest_block_height".toList

/-- `hex.EncodeToString(hash)` as a cache key. -/
def hashKey (hash : Bytes) : Str := hexEncode hash

/-- `fmt.Sprintf("height/%d", height)`. -/
def heightKey (height : UInt64) : Str := "height/".toList ++ decimal height.toNat

/-- `cache.SetDefault`. -/
def Cache.set (c : Cache) (key : Str) (item : Item) : Cache := Function.update c key (some item)

/-- The type assertion `b.(*types2.Block)`, which panics on another type. -/
def Item.asBlock : Item → Except Err Block
  | .block b => .ok b
  | .height _ => .error .nilDeref

/-- The type assertion `height.(uint64)`. -/
def Item.asHeight : Item → Except Err UInt64
  | .height h => .ok h
  | .block _ => .error .nilDeref

/-- `Database.StoreBlock`. -/
def storeBlock (block : Block) (c : Cache) : Except Err Unit × Cache :=
  match block.header with
  | none => (.error .nilDeref, c)
  | some header =>
    (.ok (), (c.set (hashKey header.hash) (.block block)).set (heightKey header.height)
      (.block block))

/-- `Database.HasBlock`. -/
def hasBlock (blockHash : Bytes) (c : Cache) : Except Err Bool :=
  .ok (c (hashKey blockHash)).isSome

/-- `Database.FetchBlock`. -/
def fetchBlock (blockHash : Bytes) (c : Cache) : Except Err Block := do
  let item ← orErr .blockNotFound (c (hashKey blockHash))
  item.asBlock

/-- `Database.FetchBlockData`. -/
def fetchBlockData (blockHash : Bytes) (c : Cache) :
    Except Err (List (Option Transaction)) := do
  let b ← fetchBlock blockHash c
  return b.data

/-- `Database.FetchBlockHeader`. -/
def fetchBlockHeader (blockHash : Bytes) (c : Cache) : Except Err (Option BlockHeader) := do
  let b ← fetchBlock blockHash c
  return b.header

/-- `Database.FetchBlockByHeight`. -/
def fetchBlockByHeight (height : UInt64) (c : Cache) : Except Err Block := do
  let item ← orErr .blockNotFound (c (heightKey height))
  item.asBlock

/-- `Database.FetchBlockHeaderByHeight`. -/
def fetchBlockHeaderByHeight (height : UInt64) (c : Cache) :
    Except Err (Option BlockHeader) := do
  let item ← orErr .blockNotFound (c (heightKey height))
  let b ← item.asBlock
  return b.header

/-- `Database.GetLatestBlockHeight`. -/
def getLatestBlockHeight (c : Cache) : Except Err UInt64 := do
  let item ← orErr .latestHeightNil (c latestBlockHeightKey)
  item.asHeight

/-- `Database.SetLatestBlockHeight`. -/
def setLatestBlockHeight (height : UInt64) (c : Cache) : Except Err Unit × Cache :=
  (.ok (), c.set latestBlockHeightKey (.height height))

/-- The in-memory implementation of the interface. -/
def database : Database Cache where
  storeBlock := storeBlock
  hasBlock := hasBlock
  fetchBlockData := fetchBlockData
  fetchBlockHeader := fetchBlockHeader
  fetchBlock := fetchBlock
  fetchBlockByHeight := fetchBlockByHeight
  fetchBlockHeaderByHeight := fetchBlockHeaderByHeight
  getLatestBlockHeight := getLatestBlockHeight
  setLatestBlockHeight := setLatestBlockHeight

/-! ## Keys -/

theorem hashKey_injective : Function.Injective hashKey := hexEncode_injective

theorem heightKey_injective : Function.Injective heightKey := by
  intro a b h
  exact UInt64.toNat_inj.mp (decimal_injective (List.append_cancel_left h))

theorem heightKey_cons (h : UInt64) :
    heightKey h = 'h' :: ("eight/".toList ++ decimal h.toNat) := by
  have hpre : "height/".toList = 'h' :: "eight/".toList := by decide
  unfold heightKey
  rw [hpre]
  exact List.cons_append

theorem latestBlockHeightKey_cons :
    latestBlockHeightKey = 'l' :: "atest_block_height".toList := by decide

theorem hashKey_ne_heightKey (hash : Bytes) (h : UInt64) : hashKey hash ≠ heightKey h := by
  rw [heightKey_cons]
  exact hexEncode_ne_cons (by decide)

theorem hashKey_ne_latest (hash : Bytes) : hashKey hash ≠ latestBlockHeightKey := by
  rw [latestBlockHeightKey_cons]
  exact hexEncode_ne_cons (by decide)

theorem heightKey_ne_latest (h : UInt64) : heightKey h ≠ latestBlockHeightKey := by
  rw [heightKey_cons, latestBlockHeightKey_cons]
  intro heq
  exact absurd (List.cons.inj heq).1 (by decide)

/-! ## Refinement -/

/-- Block keys hold blocks and the latest-height key holds a height. -/
structure Wf (c : Cache) : Prop where
  hash : ∀ h i, c (hashKey h) = some i → ∃ b, i = .block b
  height : ∀ h i, c (heightKey h) = some i → ∃ b, i = .block b
  latest : ∀ i, c latestBlockHeightKey = some i → ∃ h, i = .height h

/-- The block under a key. -/
def blockAt (c : Cache) (key : Str) : Option Block :=
  match c key with
  | some (.block b) => some b
  | _ => none

/-- What the cache means as a store. -/
def view (c : Cache) : Store where
  byHash h := blockAt c (hashKey h)
  byHeight h := blockAt c (heightKey h)
  latest := match c latestBlockHeightKey with
    | some (.height h) => some h
    | _ => none

theorem blockAt_set (c : Cache) (key key' : Str) (b : Block) :
    blockAt (c.set key (.block b)) key' = if key' = key then some b else blockAt c key' := by
  by_cases h : key' = key
  · subst h
    simp [blockAt, Cache.set]
  · simp [blockAt, Cache.set, h]

theorem wf_set_block {c : Cache} (hc : Wf c) {key : Str} (b : Block)
    (hkey : key ≠ latestBlockHeightKey) : Wf (c.set key (.block b)) := by
  constructor
  · intro h i hi
    by_cases heq : hashKey h = key
    · exact ⟨b, by simpa [Cache.set, heq] using hi.symm⟩
    · exact hc.hash h i (by simpa [Cache.set, heq] using hi)
  · intro h i hi
    by_cases heq : heightKey h = key
    · exact ⟨b, by simpa [Cache.set, heq] using hi.symm⟩
    · exact hc.height h i (by simpa [Cache.set, heq] using hi)
  · intro i hi
    exact hc.latest i (by simpa [Cache.set, hkey.symm] using hi)

theorem wf_set_latest {c : Cache} (hc : Wf c) (h : UInt64) :
    Wf (c.set latestBlockHeightKey (.height h)) := by
  constructor
  · intro k i hi
    exact hc.hash k i (by simpa [Cache.set, hashKey_ne_latest] using hi)
  · intro k i hi
    exact hc.height k i (by simpa [Cache.set, heightKey_ne_latest] using hi)
  · intro i hi
    exact ⟨h, by simpa [Cache.set] using hi.symm⟩

theorem storeBlock_view {c : Cache} {b : Block} {hd : BlockHeader} (hb : b.header = some hd) :
    view (storeBlock b c).2 = (view c).insert hd b := by
  have hst : (storeBlock b c).2 = (c.set (hashKey hd.hash) (.block b)).set
      (heightKey hd.height) (.block b) := by
    simp [storeBlock, hb]
  rw [hst]
  refine Store.ext ?_ ?_ ?_
  · funext h
    rw [Store.insert_byHash]
    change blockAt _ (hashKey h) = _
    rw [blockAt_set, blockAt_set, if_neg (hashKey_ne_heightKey h hd.height)]
    exact if_congr hashKey_injective.eq_iff rfl rfl
  · funext h
    rw [Store.insert_byHeight]
    change blockAt _ (heightKey h) = _
    rw [blockAt_set, blockAt_set, if_neg (hashKey_ne_heightKey hd.hash h).symm]
    exact if_congr heightKey_injective.eq_iff rfl rfl
  · simp [view, Cache.set, (heightKey_ne_latest hd.height).symm,
      (hashKey_ne_latest hd.hash).symm]

theorem setLatestBlockHeight_view (c : Cache) (h : UInt64) :
    view (setLatestBlockHeight h c).2 = (view c).setLatest h := by
  refine Store.ext ?_ ?_ ?_
  · funext k
    simp [view, setLatestBlockHeight, blockAt, Cache.set, hashKey_ne_latest]
  · funext k
    simp [view, setLatestBlockHeight, blockAt, Cache.set, heightKey_ne_latest]
  · simp [view, setLatestBlockHeight, Cache.set]

theorem hasBlock_eq {c : Cache} (hc : Wf c) (h : Bytes) :
    hasBlock h c = .ok ((view c).byHash h).isSome := by
  cases hi : c (hashKey h) with
  | none => simp [hasBlock, view, blockAt, hi]
  | some i =>
      obtain ⟨b, rfl⟩ := hc.hash h i hi
      simp [hasBlock, view, blockAt, hi]

theorem fetchBlockByHeight_eq {c : Cache} (hc : Wf c) (h : UInt64) :
    fetchBlockByHeight h c = orErr .blockNotFound ((view c).byHeight h) := by
  cases hi : c (heightKey h) with
  | none => simp [fetchBlockByHeight, view, blockAt, hi, orErr]
  | some i =>
      obtain ⟨b, rfl⟩ := hc.height h i hi
      simp [fetchBlockByHeight, view, blockAt, hi, orErr, Item.asBlock]

theorem fetchBlockHeaderByHeight_eq {c : Cache} (hc : Wf c) (h : UInt64) :
    fetchBlockHeaderByHeight h c
      = orErr .blockNotFound (((view c).byHeight h).map Block.header) := by
  cases hi : c (heightKey h) with
  | none => simp [fetchBlockHeaderByHeight, view, blockAt, hi, orErr]
  | some i =>
      obtain ⟨b, rfl⟩ := hc.height h i hi
      simp [fetchBlockHeaderByHeight, view, blockAt, hi, orErr, Item.asBlock, pure, Except.pure]

theorem getLatestBlockHeight_eq {c : Cache} (hc : Wf c) :
    getLatestBlockHeight c = orErr .latestHeightNil (view c).latest := by
  cases hi : c latestBlockHeightKey with
  | none => simp [getLatestBlockHeight, view, hi, orErr]
  | some i =>
      obtain ⟨h, rfl⟩ := hc.latest i hi
      simp [getLatestBlockHeight, view, hi, orErr, Item.asHeight]

/-- The in-memory database refines `Store`; it takes any hash as a key. -/
def backend : Backend where
  σ := Cache
  db := database
  new := fun _ => none
  view := view
  Wf := Wf
  storable := fun _ => True
  storable_short := fun _ _ => trivial
  new_wf := by constructor <;> simp
  view_new := rfl
  hasBlock_eq := fun hc _ => hasBlock_eq hc _
  unstorable := fun _ _ h => absurd trivial h
  fetchBlockByHeight_eq := fun h hc => fetchBlockByHeight_eq hc h
  fetchBlockHeaderByHeight_eq := fun h hc => fetchBlockHeaderByHeight_eq hc h
  getLatestBlockHeight_eq := getLatestBlockHeight_eq
  storeBlock_spec := by
    intro c b hd hc hb _ _
    refine ⟨(storeBlock b c).2, ?_, ?_, storeBlock_view hb⟩
    · simp [database, storeBlock, hb]
    · simp only [storeBlock, hb]
      exact wf_set_block (wf_set_block hc b (hashKey_ne_latest hd.hash)) b
        (heightKey_ne_latest hd.height)
  setLatestBlockHeight_spec := fun {c} h hc =>
    ⟨(setLatestBlockHeight h c).2, rfl, wf_set_latest hc h, setLatestBlockHeight_view c h⟩

end Dione.Memory
