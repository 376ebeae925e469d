/-
  Dione.Blockchain.Retry

  `StoreBlock` over LMDB when one of its writes fails.

  A call makes three writes, each a transaction of its own: the records of the block,
  the entry of the height index, and the latest height.  A second call with the same
  block looks for its header first and then takes it for stored, so what was missing
  after the first write stays missing.
-/

import Dione.Blockchain.Stores

namespace Dione

open Guard Text BlockChain

namespace Lmdb

/-- The writes of `StoreBlock`. -/
inductive Write where
  | block
  | heightIndex
  | latestHeight
  deriving DecidableEq, Repr

/-- What a failing write returns. -/
def mapFull : Err := .msg "MDB_MAP_FULL: Environment mapsize limit reached"

/-- The outcome `x` of a write `w`, unless that is the one that fails. -/
def attempt {α : Type} (failing : Option Write) (w : Write) (x : Except Err α) : Except Err α :=
  if failing = some w then .error mapFull else x

variable (c : Codec) (failing : Option Write)

/-- `Database.StoreBlock`. -/
def storeBlockFailing (block : Block) (e : Env) : Except Err Unit × Env :=
  match block.header with
  | none => (.error .nilDeref, e)
  | some header =>
    match attempt failing .block (putBlock c header block e) with
    | .error err => (.error err, e)
    | .ok e' =>
      match attempt failing .heightIndex (put (heightIndexKey header.height) header.hash e') with
      | .error err => (.error err, e')
      | .ok e'' => (.ok (), e'')

/-- `Database.SetLatestBlockHeight`. -/
def setLatestBlockHeightFailing (height : UInt64) (e : Env) : Except Err Unit × Env :=
  match attempt failing .latestHeight (put latestIndexKey (putUint64 height) e) with
  | .error err => (.error err, e)
  | .ok e' => (.ok (), e')

/-- The LMDB implementation when a write fails. -/
def failingDatabase : Database Env :=
  { database c with
    storeBlock := storeBlockFailing c failing
    setLatestBlockHeight := setLatestBlockHeightFailing failing }

/-- Without a failure it is the implementation. -/
theorem failingDatabase_none : failingDatabase c none = database c := rfl

/-! ## What is left behind -/

/-- The database after the first write. -/
def withRecords (hd : BlockHeader) (b : Block) (e : Env) : Env :=
  Function.update (Function.update e (blockDataKey hd.hash) (some (c.encodeData b.data)))
    (headerKey hd.hash) (some (c.encodeHeader hd))

/-- A header record is filed under the hash of the header. -/
def HeaderKeyed (e : Env) : Prop :=
  ∀ hash v, e (headerKey hash) = some v → ∃ hd, v = c.encodeHeader hd ∧ hd.hash = hash

/-- What holds of the database after any calls, whatever writes have failed. -/
structure Sound (e : Env) : Prop where
  wf : Wf c e
  keyed : HeaderKeyed c e

variable {c failing} {e : Env} {hd : BlockHeader} {b : Block}

theorem putBlock_eq (hs : Storable hd.hash) : putBlock c hd b e = .ok (withRecords c hd b e) := by
  have hv : ValidKey (blockDataKey hd.hash) := hs
  rw [putBlock, put_of_valid hv, ok_bind, put_of_valid (validKey_headerKey hs), withRecords]

theorem putBlock_unstorable (hs : ¬ Storable hd.hash) : putBlock c hd b e = .error badValSize := by
  have hv : ¬ ValidKey (blockDataKey hd.hash) := hs
  rw [putBlock, put, if_neg hv, error_bind]

theorem withRecords_header (hash : Bytes) : withRecords c hd b e (headerKey hash)
    = if hash = hd.hash then some (c.encodeHeader hd) else e (headerKey hash) := by
  simp [withRecords, Function.update_apply, headerKey_ne_blockDataKey, headerKey_injective.eq_iff]

theorem withRecords_data (hash : Bytes) : withRecords c hd b e (blockDataKey hash)
    = if hash = hd.hash then some (c.encodeData b.data) else e (blockDataKey hash) := by
  simp [withRecords, Function.update_apply, (headerKey_ne_blockDataKey _ _).symm,
    blockDataKey_injective.eq_iff]

theorem withRecords_index (name : Str) (key : Bytes) :
    withRecords c hd b e (constructIndexKey name key) = e (constructIndexKey name key) := by
  simp [withRecords, (headerKey_ne_indexKey _ _ _).symm, (blockDataKey_ne_indexKey _ _ _).symm]

/-- What the writes of a block leave, up to the one that fails. -/
theorem storeBlockFailing_eq (hb : b.header = some hd) (hs : Storable hd.hash) :
    storeBlockFailing c failing b e
      = match failing with
        | some .block => (.error mapFull, e)
        | some .heightIndex => (.error mapFull, withRecords c hd b e)
        | _ => (.ok (), stored c hd b e) := by
  simp only [storeBlockFailing, attempt, hb, putBlock_eq hs,
    put_of_valid (validKey_heightIndexKey hd.height)]
  match failing with
  | none => rfl
  | some .block => rfl
  | some .heightIndex => rfl
  | some .latestHeight => rfl

theorem storeBlockFailing_unstorable (hb : b.header = some hd) (hs : ¬ Storable hd.hash) :
    (storeBlockFailing c failing b e).2 = e := by
  simp only [storeBlockFailing, attempt, hb, putBlock_unstorable hs]
  match failing with
  | none => rfl
  | some .block => rfl
  | some .heightIndex => rfl
  | some .latestHeight => rfl

/-! ## The invariant of every database -/

namespace Sound

theorem withRecords (h : Sound c e) (hs : Storable hd.hash) : Sound c (withRecords c hd b e) := by
  refine ⟨⟨?_, ?_, ?_⟩, ?_⟩
  · intro hash v hv
    by_cases hself : hash = hd.hash
    · subst hself
      refine ⟨hs, hd, b.data, ?_, ?_⟩
      · rw [withRecords_header, if_pos rfl]
      · rw [withRecords_data, if_pos rfl]
    · rw [withRecords_header, if_neg hself] at hv
      obtain ⟨hs', hd', data, hst⟩ := h.wf.block hash v hv
      refine ⟨hs', hd', data, ?_, ?_⟩
      · rw [withRecords_header, if_neg hself]
        exact hst.1
      · rw [withRecords_data, if_neg hself]
        exact hst.2
  · intro height hash hv
    have hold : e (heightIndexKey height) = some hash := (withRecords_index _ _).symm.trans hv
    rw [withRecords_header]
    split
    · rfl
    · exact h.wf.index height hash hold
  · intro v hv
    exact h.wf.latest v ((withRecords_index _ _).symm.trans hv)
  · intro hash v hv
    rw [withRecords_header] at hv
    split at hv
    · next hself => exact ⟨hd, (Option.some.inj hv).symm, hself.symm⟩
    · exact h.keyed hash v hv

theorem stored (h : Sound c e) (hs : Storable hd.hash) : Sound c (stored c hd b e) := by
  refine ⟨wf_stored h.wf hs, ?_⟩
  intro hash v hv
  rw [stored_header] at hv
  split at hv
  · next hself => exact ⟨hd, (Option.some.inj hv).symm, hself.symm⟩
  · exact h.keyed hash v hv

theorem withLatest (h : Sound c e) (height : UInt64) : Sound c (withLatest height e) := by
  refine ⟨wf_withLatest h.wf height, ?_⟩
  intro hash v hv
  exact h.keyed hash v ((withLatest_of_ne height (headerKey_ne_indexKey _ _ _)).symm.trans hv)

theorem storeBlockFailing (h : Sound c e) (failing : Option Write) (b : Block) :
    Sound c (storeBlockFailing c failing b e).2 := by
  cases hb : b.header with
  | none =>
      rw [Lmdb.storeBlockFailing, hb]
      exact h
  | some hd =>
      by_cases hs : Storable hd.hash
      · rw [storeBlockFailing_eq hb hs]
        split
        · exact h
        · exact h.withRecords hs
        · exact h.stored hs
      · rw [storeBlockFailing_unstorable hb hs]
        exact h

theorem setLatestBlockHeightFailing (h : Sound c e) (failing : Option Write) (height : UInt64) :
    Sound c (setLatestBlockHeightFailing failing height e).2 := by
  unfold Lmdb.setLatestBlockHeightFailing attempt
  rw [put_of_valid validKey_latestIndexKey]
  split
  · exact h
  · next heq =>
      split at heq
      · cases heq
      · obtain rfl := Except.ok.inj heq
        exact h.withLatest height

end Sound

end Lmdb

/-- A call of `StoreBlock` and the write in it that fails, if any. -/
structure StoreCall where
  oracles : Oracles
  block : Block
  failing : Option Lmdb.Write

/-- One call over LMDB. -/
def failingStep (c : Lmdb.Codec) (e : Lmdb.Env) (call : StoreCall) : Lmdb.Env :=
  (storeBlock (Lmdb.failingDatabase c call.failing) call.oracles call.block e).state

/-- The database after the calls `calls`. -/
def lmdbAfter (c : Lmdb.Codec) (calls : List StoreCall) : Lmdb.Env :=
  Run.exec (failingStep c) (Lmdb.backend c).new calls

theorem sound_lmdbAfter (c : Lmdb.Codec) (calls : List StoreCall) :
    Lmdb.Sound c (lmdbAfter c calls) := by
  refine Run.exec_invariant ?_ ⟨(Lmdb.backend c).new_wf, fun _ _ h => by cases h⟩ calls
  intro e call h
  exact storeBlock_preserves (Lmdb.failingDatabase c call.failing) (I := Lmdb.Sound c)
    (fun b _ h => h.storeBlockFailing call.failing b)
    (fun height _ h => h.setLatestBlockHeightFailing call.failing height) h

/-! ## Trying again -/

/-- The same answers of `HasBlock`, `FetchBlockByHeight` and `GetLatestBlockHeight`. -/
structure SameAnswers {σ : Type} (db : Database σ) (s s' : σ) : Prop where
  hasBlock : ∀ hash, db.hasBlock hash s = db.hasBlock hash s'
  byHeight : ∀ height, db.fetchBlockByHeight height s = db.fetchBlockByHeight height s'
  latest : db.getLatestBlockHeight s = db.getLatestBlockHeight s'

section Retry

open Lmdb

variable {c : Codec} {e : Env} {o : Oracles} {block : Block} {hd : BlockHeader}
  {failing : Option Write}

theorem hasBlock_of_storable (hs : Storable hd.hash) :
    (database c).hasBlock hd.hash e = .ok (e (headerKey hd.hash)).isSome := by
  show Lmdb.hasBlock hd.hash e = _
  rw [Lmdb.hasBlock, get_of_valid (validKey_headerKey hs), ok_bind]
  rfl

/-- A block whose header is there is taken for stored. -/
theorem storeBlock_of_header (hheader : block.header = some hd) (hs : Storable hd.hash)
    (hthere : (e (headerKey hd.hash)).isSome) :
    BlockChain.storeBlock (failingDatabase c failing) o block e = ⟨.ok (), e, []⟩ := by
  have hhas : (failingDatabase c failing).hasBlock hd.hash e = .ok true := by
    rw [← hthere]
    exact hasBlock_of_storable (c := c) hs
  rw [BlockChain.storeBlock, hheader]
  dsimp only
  rw [hhas]

/-- A block that is new to the database and passes the checks. -/
structure Storing (c : Codec) (o : Oracles) (block : Block) (hd : BlockHeader) (e : Env) :
    Prop where
  header : block.header = some hd
  storable : Storable hd.hash
  fresh : e (headerKey hd.hash) = none
  valid : checkBeforeStore (database c) o hd block e = .ok ()

namespace Storing

theorem hasBlock (h : Storing c o block hd e) (failing : Option Write) :
    (failingDatabase c failing).hasBlock hd.hash e = .ok false := by
  refine (hasBlock_of_storable (c := c) h.storable).trans ?_
  rw [h.fresh]
  rfl

theorem check (h : Storing c o block hd e) :
    checkBeforeStore (failingDatabase c failing) o hd block e = .ok () := h.valid

/-- A call that does not get to the latest height. -/
theorem storeBlock_of_error (h : Storing c o block hd e) {err : Err} {e' : Env}
    (hwrite : (failingDatabase c failing).storeBlock block e = (.error err, e')) :
    BlockChain.storeBlock (failingDatabase c failing) o block e = ⟨.error err, e', []⟩ := by
  simp only [BlockChain.storeBlock, h.header, h.hasBlock failing, h.check, hwrite]

theorem storeBlock_of_ok (h : Storing c o block hd e) {e' : Env}
    (hwrite : (failingDatabase c failing).storeBlock block e = (.ok (), e')) :
    BlockChain.storeBlock (failingDatabase c failing) o block e
      = updateLatest (failingDatabase c failing) hd block e' := by
  simp only [BlockChain.storeBlock, h.header, h.hasBlock failing, h.check, hwrite]

/-- The store after a call in which nothing fails. -/
theorem succeeds (h : Storing c o block hd e) (hwf : Wf c e) :
    Wf c (BlockChain.storeBlock (database c) o block e).state ∧
      Lmdb.view c (BlockChain.storeBlock (database c) o block e).state
        = (Lmdb.view c e).commit hd block := by
  have hrec : recorded (database c) o block e = some hd :=
    recorded_eq_some.mpr ⟨h.header, h.hasBlock none, h.valid,
      by show (Lmdb.storeBlock c block e).1 = _; rw [storeBlock_eq h.header h.storable]⟩
  obtain ⟨s', pub, hst, hwf', hview⟩ := storeBlock_of_recorded (backend c) hwf hrec
  have hst' : BlockChain.storeBlock (database c) o block e = ⟨.ok (), s', pub⟩ := hst
  rw [hst']
  exact ⟨hwf', hview⟩

end Storing

/-- Without its entry in the height index the block is not found at its height. -/
theorem fetchBlockByHeight_withRecords (h : Storing c o block hd e) (he : Sound c e) :
    fetchBlockByHeight c hd.height (withRecords c hd block e) ≠ .ok block := by
  intro hfetch
  have he' := he.withRecords (b := block) h.storable
  rcases height_cases he'.wf hd.height with hnone | ⟨hash, hd', data, hindex, hs', hst⟩
  · rw [fetchBlockByHeight, hashAtHeight_eq, hnone, orErr, error_bind] at hfetch
    cases hfetch
  · rw [fetchBlockByHeight, hashAtHeight_eq, hindex, orErr, ok_bind,
      fetchBlock_of_stored hs' hst] at hfetch
    -- the index names the hash of another block, which was there before
    have hold : e (heightIndexKey hd.height) = some hash :=
      (withRecords_index _ _).symm.trans hindex
    obtain rfl : hd' = hd := by
      have hheader := h.header
      rw [← Except.ok.inj hfetch] at hheader
      exact Option.some.inj hheader
    obtain ⟨hd'', henc, rfl⟩ := he'.keyed hash _ hst.1
    obtain rfl : hd' = hd'' := by
      have hdec := c.decode_encodeHeader hd'
      rw [henc, c.decode_encodeHeader] at hdec
      exact (Except.ok.inj hdec).symm
    have hthere := he.wf.index hd'.height hd'.hash hold
    rw [h.fresh] at hthere
    cases hthere

theorem updateLatest_failing_state :
    (updateLatest (failingDatabase c (some .latestHeight)) hd block e).state = e := by
  have hset : (failingDatabase c (some .latestHeight)).setLatestBlockHeight hd.height e
      = (.error mapFull, e) := rfl
  unfold updateLatest
  rw [hset]
  dsimp only
  split
  · split <;> rfl
  · split <;> rfl

/-- A call fails in raising the latest height only if there is something to raise. -/
theorem latest_of_error (h : Storing c o block hd e) (hwf : Wf c e) {err : Err}
    (herror : (BlockChain.storeBlock (failingDatabase c (some .latestHeight)) o block e).result
      = .error err) :
    ((Lmdb.view c e).commit hd block).latest ≠ (Lmdb.view c e).latest := by
  have hwrite : (failingDatabase c (some .latestHeight)).storeBlock block e
      = (.ok (), Lmdb.stored c hd block e) := storeBlockFailing_eq h.header h.storable
  have hview := view_stored (b := block) hwf h.header h.storable
    ((byHash_eq_none_iff hwf).mpr h.fresh)
  have hlatest : (failingDatabase c (some .latestHeight)).getLatestBlockHeight
      (Lmdb.stored c hd block e) = orErr .latestHeightNil (Lmdb.view c e).latest := by
    refine (Lmdb.getLatestBlockHeight_eq (wf_stored hwf h.storable)).trans ?_
    rw [hview, Store.insert_latest]
  cases hl : (Lmdb.view c e).latest with
  | none =>
      rw [Store.commit, hl]
      exact fun heq => by cases heq
  | some l =>
      rw [Store.commit_latest hl]
      by_cases hlt : l < hd.height
      · rw [if_pos hlt]
        intro heq
        rw [Option.some.inj heq] at hlt
        exact absurd hlt (UInt64.lt_irrefl l)
      · -- a block that is not higher is done without that write
        rw [h.storeBlock_of_ok hwrite, updateLatest, hlatest, hl] at herror
        simp only [orErr, gt_iff_lt, if_neg hlt] at herror
        cases herror

theorem storing_of_error (hheader : block.header = some hd) (hs : Storable hd.hash)
    (hvalid : checkBeforeStore (database c) o hd block e = .ok ()) {err : Err}
    (herror : (BlockChain.storeBlock (failingDatabase c failing) o block e).result = .error err) :
    Storing c o block hd e := by
  refine ⟨hheader, hs, ?_, hvalid⟩
  by_contra hthere
  rw [storeBlock_of_header hheader hs (Option.isSome_iff_ne_none.mpr hthere)] at herror
  cases herror

end Retry

/-- The database after a call in which the write `w` fails and a second call with the
    same block. -/
def retried (c : Lmdb.Codec) (o : Oracles) (block : Block) (w : Lmdb.Write) (e : Lmdb.Env) :
    Lmdb.Env :=
  (storeBlock (Lmdb.database c) o block
    (storeBlock (Lmdb.failingDatabase c (some w)) o block e).state).state

section Retried

open Lmdb

variable {c : Codec} {e : Env} {o : Oracles} {block : Block} {hd : BlockHeader}

/-- Once the header is there, the second call does nothing. -/
theorem retried_of_header (hheader : block.header = some hd) (hs : Storable hd.hash)
    {w : Write} {e' : Env}
    (hfirst : (BlockChain.storeBlock (failingDatabase c (some w)) o block e).state = e')
    (hthere : (e' (headerKey hd.hash)).isSome) :
    retried c o block w e = e' := by
  rw [retried, hfirst, ← failingDatabase_none, storeBlock_of_header hheader hs hthere]

theorem retried_block (h : Storing c o block hd e) :
    retried c o block .block e = (BlockChain.storeBlock (database c) o block e).state := by
  have hwrite : (failingDatabase c (some .block)).storeBlock block e = (.error mapFull, e) := by
    show storeBlockFailing c (some .block) block e = _
    rw [storeBlockFailing_eq h.header h.storable]
  rw [retried, h.storeBlock_of_error hwrite]

theorem retried_heightIndex (h : Storing c o block hd e) :
    retried c o block .heightIndex e = withRecords c hd block e := by
  have hwrite : (failingDatabase c (some .heightIndex)).storeBlock block e
      = (.error mapFull, withRecords c hd block e) := storeBlockFailing_eq h.header h.storable
  refine retried_of_header h.header h.storable ?_ ?_
  · rw [h.storeBlock_of_error hwrite]
  · rw [withRecords_header, if_pos rfl]
    rfl

theorem retried_latestHeight (h : Storing c o block hd e) :
    retried c o block .latestHeight e = Lmdb.stored c hd block e := by
  have hwrite : (failingDatabase c (some .latestHeight)).storeBlock block e
      = (.ok (), Lmdb.stored c hd block e) := storeBlockFailing_eq h.header h.storable
  refine retried_of_header h.header h.storable ?_ ?_
  · rw [h.storeBlock_of_ok hwrite, updateLatest_failing_state]
  · rw [stored_header, if_pos rfl]
    rfl

/-- The answers differ at the height of the block. -/
theorem not_sameAnswers_withRecords (h : Storing c o block hd e) (he : Sound c e) :
    ¬ SameAnswers (database c) (withRecords c hd block e)
      (BlockChain.storeBlock (database c) o block e).state := by
  intro hsame
  obtain ⟨hwf', hview'⟩ := h.succeeds he.wf
  have hfetch : (database c).fetchBlockByHeight hd.height
      (BlockChain.storeBlock (database c) o block e).state = .ok block := by
    refine (Lmdb.fetchBlockByHeight_eq hwf' hd.height).trans ?_
    rw [hview', Store.commit_byHeight, if_pos rfl, orErr]
  exact fetchBlockByHeight_withRecords h he ((hsame.byHeight hd.height).trans hfetch)

/-- The answers differ in the latest height. -/
theorem not_sameAnswers_stored (h : Storing c o block hd e) (hwf : Wf c e) {err : Err}
    (herror : (BlockChain.storeBlock (failingDatabase c (some .latestHeight)) o block e).result
      = .error err) :
    ¬ SameAnswers (database c) (Lmdb.stored c hd block e)
      (BlockChain.storeBlock (database c) o block e).state := by
  intro hsame
  obtain ⟨hwf', hview'⟩ := h.succeeds hwf
  have hlatest := (Lmdb.getLatestBlockHeight_eq (wf_stored hwf h.storable)).symm.trans
    (hsame.latest.trans (Lmdb.getLatestBlockHeight_eq hwf'))
  rw [hview', view_stored hwf h.header h.storable
    ((byHash_eq_none_iff hwf).mpr h.fresh), Store.insert_latest] at hlatest
  exact latest_of_error h hwf herror (orErr_injective hlatest).symm

end Retried

/-- After an error, a second call with a valid block brings the database to where the
    first one should have brought it iff it was the write of the block itself that
    failed. -/
theorem retry_completes_iff (c : Lmdb.Codec) (calls : List StoreCall) {o : Oracles} {block : Block}
    {hd : BlockHeader} {w : Lmdb.Write} (hheader : block.header = some hd)
    (hs : Lmdb.Storable hd.hash)
    (hvalid : checkBeforeStore (Lmdb.database c) o hd block (lmdbAfter c calls) = .ok ())
    (herror : ∃ err, (storeBlock (Lmdb.failingDatabase c (some w)) o block
      (lmdbAfter c calls)).result = .error err) :
    SameAnswers (Lmdb.database c) (retried c o block w (lmdbAfter c calls))
        (storeBlock (Lmdb.database c) o block (lmdbAfter c calls)).state ↔ w = .block := by
  obtain ⟨err, herror⟩ := herror
  have he := sound_lmdbAfter c calls
  generalize lmdbAfter c calls = e at hvalid herror he ⊢
  have h := storing_of_error hheader hs hvalid herror
  cases w with
  | block =>
      rw [retried_block h]
      exact ⟨fun _ => rfl, fun _ => ⟨fun _ => rfl, fun _ => rfl, rfl⟩⟩
  | heightIndex =>
      rw [retried_heightIndex h]
      exact iff_of_false (not_sameAnswers_withRecords h he) (by decide)
  | latestHeight =>
      rw [retried_latestHeight h]
      exact iff_of_false (not_sameAnswers_stored h he.wf herror) (by decide)

/-- A chain with the genesis block. -/
def genesisStored : List StoreCall := [⟨.offline, genesisBlock, none⟩]

theorem retry_completes_block :
    SameAnswers (Lmdb.database Lmdb.wireCodec)
      (retried Lmdb.wireCodec .permissive (childOfGenesis [1] 1) .block
        (lmdbAfter Lmdb.wireCodec genesisStored))
      (storeBlock (Lmdb.database Lmdb.wireCodec) .permissive (childOfGenesis [1] 1)
        (lmdbAfter Lmdb.wireCodec genesisStored)).state :=
  (retry_completes_iff Lmdb.wireCodec genesisStored rfl (Lmdb.storable_of_length_le (by decide))
    (by decide +kernel) ⟨Lmdb.mapFull, by decide +kernel⟩).mpr rfl

/-- The height index is not written, the error is reported, and after the second call
    the block is there but not at its height. -/
theorem retry_without_height_index :
    (Lmdb.database Lmdb.wireCodec).fetchBlockByHeight 1
        (retried Lmdb.wireCodec .permissive (childOfGenesis [1] 1) .heightIndex
          (lmdbAfter Lmdb.wireCodec genesisStored)) = .error .blockNotFound ∧
      (Lmdb.database Lmdb.wireCodec).fetchBlockByHeight 1
        (storeBlock (Lmdb.database Lmdb.wireCodec) .permissive (childOfGenesis [1] 1)
          (lmdbAfter Lmdb.wireCodec genesisStored)).state = .ok (childOfGenesis [1] 1) := by
  refine ⟨?_, ?_⟩
  · decide +kernel
  · decide +kernel

end Dione
