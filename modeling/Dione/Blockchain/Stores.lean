/-
  Dione.Blockchain.Stores

  The in-memory database and the LMDB database behind the same calls of `StoreBlock`.

  Both refine `Store`, so two chains that take the same calls show the same store,
  and every question about it has the same answer.  LMDB answers the question for
  the transactions of a block from a record of its own; `DataHasHeader` says that
  there is none without a header.
-/

import Dione.Blockchain.Integrity
import Dione.Database.Wire

namespace Dione

open Guard BlockChain

/-! ## Backends side by side -/

/-- Two backends show the same store. -/
structure SameStore (B B' : Backend) (s : B.σ) (s' : B'.σ) : Prop where
  wf : B.Wf s
  wf' : B'.Wf s'
  view_eq : B'.view s' = B.view s

namespace SameStore

variable {B B' : Backend} {s : B.σ} {s' : B'.σ}

theorem new (B B' : Backend) : SameStore B B' B.new B'.new :=
  ⟨B.new_wf, B'.new_wf, B'.view_new.trans B.view_new.symm⟩

/-- A call on a hash that is a key of both backends. -/
theorem storeStep (h : SameStore B B' s s') {call : Oracles × Block}
    (hkeys : ∀ hd, call.2.header = some hd → B.storable hd.hash ∧ B'.storable hd.hash) :
    SameStore B B' (storeStep B.db s call) (storeStep B'.db s' call) := by
  cases hrec : recorded B.db call.1 call.2 s with
  | some hd =>
      have hkey := (hkeys hd (recorded_eq_some.mp hrec).1).2
      have hrec' := recorded_congr (fun _ => hkey) h.wf h.wf' h.view_eq hrec
      obtain ⟨hwf, hview⟩ := storeStep_of_recorded B h.wf hrec
      obtain ⟨hwf', hview'⟩ := storeStep_of_recorded B' h.wf' hrec'
      refine ⟨hwf, hwf', ?_⟩
      rw [hview, hview', h.view_eq]
  | none =>
      -- what the other one recorded, this one would have recorded too
      have hrec' : recorded B'.db call.1 call.2 s' = none := by
        by_contra hne
        obtain ⟨hd, hsome⟩ := Option.ne_none_iff_exists'.mp hne
        have hkey := (hkeys hd (recorded_eq_some.mp hsome).1).1
        rw [recorded_congr (fun _ => hkey) h.wf' h.wf h.view_eq.symm hsome] at hrec
        cases hrec
      have hstep : Dione.storeStep B.db s call = s := storeBlock_of_not_recorded B h.wf hrec
      have hstep' : Dione.storeStep B'.db s' call = s' := storeBlock_of_not_recorded B' h.wf' hrec'
      rw [hstep, hstep']
      exact h

theorem exec {calls : List (Oracles × Block)} (hkeys : ∀ call ∈ calls, ∀ hd,
      call.2.header = some hd → B.storable hd.hash ∧ B'.storable hd.hash) :
    SameStore B B' (Run.exec (Dione.storeStep B.db) B.new calls)
      (Run.exec (Dione.storeStep B'.db) B'.new calls) := by
  refine Run.exec_simulates (R := SameStore B B') ?_ (new B B') hkeys
  intro s s' call hcall h
  exact h.storeStep hcall

end SameStore

/-- What the two writes of a database keep, `StoreBlock` keeps. -/
theorem BlockChain.storeBlock_preserves {σ : Type} (db : Database σ) {I : σ → Prop}
    (hstore : ∀ b s, I s → I (db.storeBlock b s).2)
    (hset : ∀ h s, I s → I (db.setLatestBlockHeight h s).2) {o : Oracles} {block : Block} {s : σ}
    (h : I s) : I (storeBlock db o block s).state := by
  have hupdate : ∀ (hd : BlockHeader) (s : σ), I s → I (updateLatest db hd block s).state := by
    intro hd s h
    have hraised := hset hd.height s h
    unfold updateLatest
    generalize db.setLatestBlockHeight hd.height s = r at hraised
    dsimp only
    split
    · split
      · split <;> exact hraised
      · exact h
    · split
      · split <;> exact hraised
      · exact h
  have hwritten := hstore block s h
  unfold storeBlock
  split
  · exact h
  · split
    · exact h
    · exact h
    · split
      · exact h
      · generalize db.storeBlock block s = r at hwritten
        split
        · exact hwritten
        · exact hupdate _ _ hwritten

/-! ## Questions by hash -/

namespace Memory

variable {c : Cache}

theorem fetchBlock_eq (hc : Wf c) (hash : Bytes) :
    fetchBlock hash c = orErr .blockNotFound ((view c).byHash hash) := by
  cases hi : c (hashKey hash) with
  | none => simp [fetchBlock, view, blockAt, hi, orErr]
  | some i =>
      obtain ⟨b, rfl⟩ := hc.hash hash i hi
      simp [fetchBlock, view, blockAt, hi, orErr, Item.asBlock]

theorem fetchBlockData_eq (hc : Wf c) (hash : Bytes) :
    fetchBlockData hash c = orErr .blockNotFound (((view c).byHash hash).map Block.data) := by
  rw [fetchBlockData, fetchBlock_eq hc]
  cases (view c).byHash hash <;> rfl

theorem fetchBlockHeader_eq (hc : Wf c) (hash : Bytes) :
    fetchBlockHeader hash c = orErr .blockNotFound (((view c).byHash hash).map Block.header) := by
  rw [fetchBlockHeader, fetchBlock_eq hc]
  cases (view c).byHash hash <;> rfl

end Memory

namespace Lmdb

variable {c : Codec} {e : Env} {hash : Bytes}

/-- A data record comes with its header record. -/
def DataHasHeader (e : Env) : Prop :=
  ∀ hash, e (headerKey hash) = none → e (blockDataKey hash) = none

theorem dataHasHeader_storeBlock (h : DataHasHeader e) (b : Block) :
    DataHasHeader (storeBlock c b e).2 := by
  cases hb : b.header with
  | none =>
      rw [storeBlock, hb]
      exact h
  | some hd =>
      by_cases hs : Storable hd.hash
      · rw [storeBlock_eq hb hs]
        show DataHasHeader (stored c hd b e)
        intro hash hnone
        rw [stored_header] at hnone
        split at hnone
        · cases hnone
        · next hne =>
            rw [stored_data, if_neg hne]
            exact h hash hnone
      · rw [storeBlock_unstorable hb hs]
        exact h

theorem dataHasHeader_setLatestBlockHeight (h : DataHasHeader e) (height : UInt64) :
    DataHasHeader (setLatestBlockHeight height e).2 := by
  have hset : (setLatestBlockHeight height e).2 = withLatest height e := by
    rw [setLatestBlockHeight, put_of_valid validKey_latestIndexKey]
    rfl
  rw [hset]
  intro hash
  have hheader : withLatest height e (headerKey hash) = e (headerKey hash) :=
    withLatest_of_ne height (headerKey_ne_indexKey _ _ _)
  have hdata : withLatest height e (blockDataKey hash) = e (blockDataKey hash) :=
    withLatest_of_ne height (blockDataKey_ne_indexKey _ _ _)
  rw [hheader, hdata]
  exact h hash

theorem dataHasHeader_exec (c : Codec) (calls : List (Oracles × Block)) :
    DataHasHeader (Run.exec (storeStep (database c)) (backend c).new calls) := by
  refine Run.exec_invariant ?_ (fun _ _ => rfl) calls
  intro e call h
  exact BlockChain.storeBlock_preserves (database c) (I := DataHasHeader)
    (fun b _ h => dataHasHeader_storeBlock h b)
    (fun height _ h => dataHasHeader_setLatestBlockHeight h height) h

/-- A hash either has no records or both. -/
theorem hash_cases (he : Wf c e) (h : DataHasHeader e) (hash : Bytes) :
    (e (headerKey hash) = none ∧ e (blockDataKey hash) = none) ∨
      ∃ hd data, Storable hash ∧ StoredAs c e hash hd data := by
  cases hv : e (headerKey hash) with
  | none => exact .inl ⟨rfl, h hash hv⟩
  | some v =>
      obtain ⟨hs, hd, data, hst⟩ := he.block hash v hv
      exact .inr ⟨hd, data, hs, hst⟩

theorem byHash_of_missing (h : e (headerKey hash) = none) : (view c e).byHash hash = none := by
  show (fetchBlock c hash e).toOption = none
  rw [fetchBlock_of_missing h]
  rfl

theorem byHash_of_stored (hs : Storable hash) {hd : BlockHeader} {data : List (Option Transaction)}
    (h : StoredAs c e hash hd data) : (view c e).byHash hash = some ⟨some hd, data⟩ := by
  show (fetchBlock c hash e).toOption = _
  rw [fetchBlock_of_stored hs h]
  rfl

theorem fetchBlock_eq (he : Wf c e) (h : DataHasHeader e) (hash : Bytes) :
    fetchBlock c hash e = orErr .blockNotFound ((view c e).byHash hash) := by
  rcases hash_cases he h hash with ⟨hn, -⟩ | ⟨hd, data, hs, hst⟩
  · rw [fetchBlock_of_missing hn, byHash_of_missing hn, orErr]
  · rw [fetchBlock_of_stored hs hst, byHash_of_stored hs hst, orErr]

theorem fetchBlockHeader_eq (he : Wf c e) (h : DataHasHeader e) (hash : Bytes) :
    fetchBlockHeader c hash e
      = orErr .blockNotFound (((view c e).byHash hash).map Block.header) := by
  rcases hash_cases he h hash with ⟨hn, -⟩ | ⟨hd, data, hs, hst⟩
  · rw [fetchBlockHeader_of_missing hn, byHash_of_missing hn]
    rfl
  · rw [fetchBlockHeader_of_stored hs hst, byHash_of_stored hs hst]
    rfl

theorem fetchBlockData_eq (he : Wf c e) (h : DataHasHeader e) (hash : Bytes) :
    fetchBlockData c hash e
      = orErr .blockNotFound (((view c e).byHash hash).map Block.data) := by
  rcases hash_cases he h hash with ⟨hn, hdata⟩ | ⟨hd, data, hs, hst⟩
  · rw [byHash_of_missing hn]
    simp [fetchBlockData, get_of_missing (ne_nil_of_head (head_blockDataKey hash)) hdata, orErr]
  · have hkey : ValidKey (blockDataKey hash) := hs
    rw [byHash_of_stored hs hst]
    simp [fetchBlockData, get_of_valid hkey, hst.2, orErr, c.decode_encodeData]

end Lmdb

/-- After the same calls of `StoreBlock`, on blocks whose hashes fit into the keys of
    LMDB, a chain over the in-memory database and one over LMDB give the same answers to
    the same questions, whatever hash or height is asked for. -/
theorem memory_lmdb_interchangeable (c : Lmdb.Codec) (calls : List (Oracles × Block))
    (hkeys : ∀ call ∈ calls, ∀ hd, call.2.header = some hd → Lmdb.Storable hd.hash) :
    let m := Run.exec (storeStep Memory.database) Memory.backend.new calls
    let e := Run.exec (storeStep (Lmdb.database c)) (Lmdb.backend c).new calls
    (∀ hash,
      Memory.database.hasBlock hash m = (Lmdb.database c).hasBlock hash e ∧
      Memory.database.fetchBlock hash m = (Lmdb.database c).fetchBlock hash e ∧
      Memory.database.fetchBlockData hash m = (Lmdb.database c).fetchBlockData hash e ∧
      Memory.database.fetchBlockHeader hash m = (Lmdb.database c).fetchBlockHeader hash e) ∧
    (∀ height,
      Memory.database.fetchBlockByHeight height m = (Lmdb.database c).fetchBlockByHeight height e ∧
      Memory.database.fetchBlockHeaderByHeight height m
        = (Lmdb.database c).fetchBlockHeaderByHeight height e) ∧
    Memory.database.getLatestBlockHeight m = (Lmdb.database c).getLatestBlockHeight e := by
  intro m e
  have hsame : SameStore Memory.backend (Lmdb.backend c) m e :=
    .exec fun call hcall hd hheader => ⟨trivial, hkeys call hcall hd hheader⟩
  have hview : Lmdb.view c e = Memory.view m := hsame.view_eq
  have hdata := Lmdb.dataHasHeader_exec c calls
  refine ⟨?_, ?_, ?_⟩
  · intro hash
    refine ⟨?_, ?_, ?_, ?_⟩
    · exact (Memory.hasBlock_eq hsame.wf hash).trans (hview ▸ (Lmdb.hasBlock_eq hsame.wf').symm)
    · exact (Memory.fetchBlock_eq hsame.wf hash).trans
        (hview ▸ (Lmdb.fetchBlock_eq hsame.wf' hdata hash).symm)
    · exact (Memory.fetchBlockData_eq hsame.wf hash).trans
        (hview ▸ (Lmdb.fetchBlockData_eq hsame.wf' hdata hash).symm)
    · exact (Memory.fetchBlockHeader_eq hsame.wf hash).trans
        (hview ▸ (Lmdb.fetchBlockHeader_eq hsame.wf' hdata hash).symm)
  · intro height
    refine ⟨?_, ?_⟩
    · exact (Memory.fetchBlockByHeight_eq hsame.wf height).trans
        (hview ▸ (Lmdb.fetchBlockByHeight_eq hsame.wf' height).symm)
    · exact (Memory.fetchBlockHeaderByHeight_eq hsame.wf height).trans
        (hview ▸ (Lmdb.fetchBlockHeaderByHeight_eq hsame.wf' height).symm)
  · exact (Memory.getLatestBlockHeight_eq hsame.wf).trans
      (hview ▸ (Lmdb.getLatestBlockHeight_eq hsame.wf').symm)

/-- The genesis block and a block on it. -/
def twoStores : List (Oracles × Block) :=
  [(.offline, genesisBlock), (.permissive, childOfGenesis [1] 1)]

theorem memory_lmdb_interchangeable_twoStores :
    Memory.database.fetchBlock [1]
          (Run.exec (storeStep Memory.database) Memory.backend.new twoStores)
        = .ok (childOfGenesis [1] 1) ∧
      (Lmdb.database Lmdb.wireCodec).fetchBlock [1] (Run.exec
        (storeStep (Lmdb.database Lmdb.wireCodec)) (Lmdb.backend Lmdb.wireCodec).new twoStores)
        = .ok (childOfGenesis [1] 1) := by
  have hshort : ∀ call ∈ twoStores, ∀ hd, call.2.header = some hd → Lmdb.Storable hd.hash := by
    intro call hcall hd hheader
    apply Lmdb.storable_of_length_le
    rcases List.mem_pair.mp hcall with rfl | rfl
    · obtain rfl := Option.some.inj hheader
      decide
    · obtain rfl := Option.some.inj hheader
      decide
  have hagree := ((memory_lmdb_interchangeable Lmdb.wireCodec twoStores hshort).1 [1]).2.1
  have hmemory : Memory.database.fetchBlock [1] (Run.exec (storeStep Memory.database)
      Memory.backend.new twoStores) = .ok (childOfGenesis [1] 1) := by
    decide +kernel
  exact ⟨hmemory, hagree.symm.trans hmemory⟩

end Dione
