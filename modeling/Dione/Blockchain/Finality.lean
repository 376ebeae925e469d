/-
  Dione.Blockchain.Finality

  Finality of stored history: a block fetched by its height is fetched again by
  the same height after any further events.

  The height index is written without looking at what it holds, so a history is
  final exactly when no two blocks it records, the genesis block included, claim
  the same height.
-/

import Dione.Blockchain.Integrity

namespace Dione

open BlockChain

/-! ## One event -/

/-- The header of the block an event records. -/
def ChainEvent.recorded {σ : Type} (db : Database σ) (s : σ) (e : ChainEvent) :
    Option BlockHeader :=
  (e.call db s).bind fun c => BlockChain.recorded db c.1 c.2 s

/-- Every block at a height has a header whose hash is indexed. -/
def Store.Indexed (st : Store) : Prop :=
  ∀ h b, st.byHeight h = some b → ∃ hd, b.header = some hd ∧ st.byHash hd.hash ≠ none

theorem Store.Indexed.commit {st : Store} (hi : st.Indexed) {hd : BlockHeader} {b : Block}
    (hb : b.header = some hd) : (st.commit hd b).Indexed := by
  intro h b' hat
  rw [commit_byHeight] at hat
  split at hat
  · obtain rfl : b = b' := by simpa using hat
    exact ⟨hd, hb, by simp [commit_byHash]⟩
  · obtain ⟨hd', hhd', hin⟩ := hi h b' hat
    refine ⟨hd', hhd', ?_⟩
    rw [commit_byHash]
    split
    · simp
    · exact hin

/-- What was at a height stays there. -/
def Store.Keeps (st st' : Store) : Prop :=
  ∀ h b, st.byHeight h = some b → st'.byHeight h = some b

theorem Store.keeps_commit_iff {st : Store} (hi : st.Indexed) {hd : BlockHeader} {b : Block}
    (hb : b.header = some hd) (hfresh : st.byHash hd.hash = none) :
    st.Keeps (st.commit hd b) ↔ st.byHeight hd.height = none := by
  constructor
  · intro hkeep
    -- The block that was there has an indexed hash, the new one has not.
    by_contra hocc
    obtain ⟨old, hold⟩ := Option.ne_none_iff_exists'.mp hocc
    have hnew := hkeep hd.height old hold
    rw [commit_byHeight, if_pos rfl] at hnew
    obtain rfl : b = old := by simpa using hnew
    obtain ⟨hd', hhd', hin⟩ := hi hd.height b hold
    obtain rfl : hd = hd' := by simpa [hb] using hhd'
    exact hin hfresh
  · intro hfree h b' hat
    rw [commit_byHeight, if_neg]
    · exact hat
    · rintro rfl
      rw [hfree] at hat
      cases hat

section Step

variable {B : Backend} {s : B.σ} {e : ChainEvent}

/-- An event that records nothing changes nothing. -/
theorem chainStep_of_not_recorded (hwf : B.Wf s) (h : e.recorded B.db s = none) :
    chainStep B.db s e = s := by
  rw [chainStep_eq]
  refine getD_storeStep_of_not_recorded B hwf ?_
  intro c hc
  rw [ChainEvent.recorded, hc] at h
  exact h

/-- An event that records a block commits a new one to the store. -/
theorem chainStep_of_recorded (hwf : B.Wf s) {hd : BlockHeader}
    (h : e.recorded B.db s = some hd) :
    B.Wf (chainStep B.db s e) ∧ (B.view s).byHash hd.hash = none ∧
      ∃ b, b.header = some hd ∧ B.view (chainStep B.db s e) = (B.view s).commit hd b := by
  rw [ChainEvent.recorded, Option.bind_eq_some_iff] at h
  obtain ⟨c, hc, hrec⟩ := h
  have hstep : chainStep B.db s e = storeStep B.db s c := by
    rw [chainStep_eq, hc]
    rfl
  obtain ⟨hwf', hview⟩ := storeStep_of_recorded B hwf hrec
  rw [hstep]
  exact ⟨hwf', fresh_of_recorded B hwf hrec, c.2, (recorded_eq_some.mp hrec).1, hview⟩

/-- The heights that are taken after an event. -/
theorem chainStep_free_iff (hwf : B.Wf s) (h : UInt64) :
    (B.view (chainStep B.db s e)).byHeight h = none ↔
      (B.view s).byHeight h = none ∧ ∀ hd, e.recorded B.db s = some hd → h ≠ hd.height := by
  cases hrec : e.recorded B.db s with
  | none => simp [chainStep_of_not_recorded hwf hrec]
  | some hd =>
      obtain ⟨-, -, b, -, hview⟩ := chainStep_of_recorded hwf hrec
      rw [hview, Store.commit_byHeight]
      by_cases heq : h = hd.height <;> simp [heq]

theorem chainStep_inv (hwf : B.Wf s) (hi : (B.view s).Indexed) :
    B.Wf (chainStep B.db s e) ∧ (B.view (chainStep B.db s e)).Indexed := by
  cases hrec : e.recorded B.db s with
  | none =>
      rw [chainStep_of_not_recorded hwf hrec]
      exact ⟨hwf, hi⟩
  | some hd =>
      obtain ⟨hwf', -, b, hb, hview⟩ := chainStep_of_recorded hwf hrec
      rw [hview]
      exact ⟨hwf', hi.commit hb⟩

/-- An event keeps what is stored iff the height it records at is free. -/
theorem chainStep_keeps_iff (hwf : B.Wf s) (hi : (B.view s).Indexed) :
    (B.view s).Keeps (B.view (chainStep B.db s e)) ↔
      ∀ hd, e.recorded B.db s = some hd → (B.view s).byHeight hd.height = none := by
  cases hrec : e.recorded B.db s with
  | none =>
      rw [chainStep_of_not_recorded hwf hrec]
      simp [Store.Keeps]
  | some hd =>
      obtain ⟨-, hfresh, b, hb, hview⟩ := chainStep_of_recorded hwf hrec
      rw [hview, Store.keeps_commit_iff hi hb hfresh]
      simp

end Step

/-! ## Histories -/

/-- The heights a history records blocks at, in order. -/
def recordedHeights {σ : Type} (db : Database σ) : σ → List ChainEvent → List UInt64
  | _, [] => []
  | s, e :: evs =>
    ((e.recorded db s).map BlockHeader.height).toList ++
      recordedHeights db (chainStep db s e) evs

/-- Every step of a history finds its height free iff the history records at
    pairwise distinct heights that are all free at the start. -/
theorem stepsMeet_free_iff {B : Backend} {s : B.σ} (hwf : B.Wf s) (hi : (B.view s).Indexed)
    (evs : List ChainEvent) :
    Run.StepsMeet (chainStep B.db) s evs (fun t e =>
        ∀ hd, e.recorded B.db t = some hd → (B.view t).byHeight hd.height = none) ↔
      (recordedHeights B.db s evs).Nodup ∧
        ∀ h ∈ recordedHeights B.db s evs, (B.view s).byHeight h = none := by
  induction evs generalizing s with
  | nil => simp [Run.StepsMeet, recordedHeights]
  | cons e evs ih =>
      obtain ⟨hwf', hi'⟩ := chainStep_inv (e := e) hwf hi
      rw [Run.stepsMeet_cons, ih hwf' hi']
      simp only [chainStep_free_iff hwf, recordedHeights]
      cases hrec : e.recorded B.db s with
      | none => simp
      | some hd =>
          simp only [Option.some.injEq, forall_eq', Option.map_some, Option.toList_some,
            List.singleton_append, List.nodup_cons, List.mem_cons, forall_eq_or_imp]
          -- The heights recorded later are free now and are not the height recorded now.
          constructor
          · rintro ⟨hfree, hnd, hall⟩
            exact ⟨⟨fun hin => (hall _ hin).2 rfl, hnd⟩, hfree, fun h hin => (hall h hin).1⟩
          · rintro ⟨⟨hnin, hnd⟩, hfree, hall⟩
            exact ⟨hfree, hnd, fun h hin => ⟨hall h hin, fun heq => hnin (heq ▸ hin)⟩⟩

theorem genesisChain_indexed (B : Backend) : (B.view (genesisChain B)).Indexed := by
  rw [(genesisChain_spec B).2]
  exact Store.Indexed.commit (fun _ _ h => by cases h) rfl

theorem genesisChain_free_iff (B : Backend) (h : UInt64) :
    (B.view (genesisChain B)).byHeight h = none ↔ h ≠ genesisHeader.height := by
  rw [(genesisChain_spec B).2, Store.commit_byHeight]
  by_cases h0 : h = genesisHeader.height <;> simp [h0, Store.empty]

/-- A block is fetched by its height for good, in every history of NewBlock
    messages, commits and synced blocks, iff the blocks the history records and
    the genesis block claim pairwise distinct heights. -/
theorem stored_history_final_iff (B : Backend) (evs : List ChainEvent) :
    (∀ p q, p <+: q → q <+: evs → ∀ h b,
        B.db.fetchBlockByHeight h (Run.exec (chainStep B.db) (genesisChain B) p) = .ok b →
        B.db.fetchBlockByHeight h (Run.exec (chainStep B.db) (genesisChain B) q) = .ok b) ↔
      (genesisHeader.height :: recordedHeights B.db (genesisChain B) evs).Nodup := by
  have hwf0 := (genesisChain_spec B).1
  have hinv : ∀ p, B.Wf (Run.exec (chainStep B.db) (genesisChain B) p) ∧
      (B.view (Run.exec (chainStep B.db) (genesisChain B) p)).Indexed := fun p =>
    Run.exec_invariant (I := fun s => B.Wf s ∧ (B.view s).Indexed)
      (fun s e h => chainStep_inv h.1 h.2) ⟨hwf0, genesisChain_indexed B⟩ p
  -- fetching by height reads the height index of the store
  have hkeeps : ∀ p q, (∀ h b,
        B.db.fetchBlockByHeight h (Run.exec (chainStep B.db) (genesisChain B) p) = .ok b →
        B.db.fetchBlockByHeight h (Run.exec (chainStep B.db) (genesisChain B) q) = .ok b) ↔
      (B.view (Run.exec (chainStep B.db) (genesisChain B) p)).Keeps
        (B.view (Run.exec (chainStep B.db) (genesisChain B) q)) := by
    intro p q
    simp only [B.fetchBlockByHeight_eq _ (hinv p).1, B.fetchBlockByHeight_eq _ (hinv q).1,
      orErr_eq_ok, Store.Keeps]
  simp only [hkeeps]
  -- `Keeps` is reflexive and transitive, so single steps decide
  rw [Run.related_iff_stepsRelated (R := fun s t => (B.view s).Keeps (B.view t))
    (fun s h b hb => hb) (fun s t u hst htu h b hb => htu h b (hst h b hb))]
  have hsteps : Run.StepsMeet (chainStep B.db) (genesisChain B) evs
        (fun t e => (B.view t).Keeps (B.view (chainStep B.db t e))) ↔
      Run.StepsMeet (chainStep B.db) (genesisChain B) evs (fun t e =>
        ∀ hd, e.recorded B.db t = some hd → (B.view t).byHeight hd.height = none) := by
    unfold Run.StepsMeet
    exact forall₃_congr fun pre e _ => chainStep_keeps_iff (hinv pre).1 (hinv pre).2
  rw [hsteps, stepsMeet_free_iff hwf0 (genesisChain_indexed B), List.nodup_cons]
  simp only [genesisChain_free_iff]
  constructor
  · rintro ⟨hnd, hall⟩
    exact ⟨fun hin => hall _ hin rfl, hnd⟩
  · rintro ⟨hnin, hnd⟩
    exact ⟨hnd, fun h hin heq => hnin (heq ▸ hin)⟩

/-- A NewBlock message that carries the block `b`, to a node whose other
    services do not answer. -/
def newBlockMessage (b : Block) : ChainEvent :=
  .newBlock { Oracles.offline with unmarshalBlock := fun _ => .ok b } []

/-- A NewBlock message with any block of height 0 replaces the genesis block. -/
theorem genesis_replaced_by_newBlock :
    ¬ ∀ p q, p <+: q → q <+: [newBlockMessage (childOfGenesis [1] 0)] → ∀ h b,
        Memory.fetchBlockByHeight h
          (Run.exec (chainStep Memory.database) (genesisChain Memory.backend) p) = .ok b →
        Memory.fetchBlockByHeight h
          (Run.exec (chainStep Memory.database) (genesisChain Memory.backend) q) = .ok b := by
  intro hfinal
  have hbefore : Memory.fetchBlockByHeight 0 (genesisChain Memory.backend)
      = .ok genesisBlock := by decide +kernel
  have hafter : Memory.fetchBlockByHeight 0 (chainStep Memory.database
      (genesisChain Memory.backend) (newBlockMessage (childOfGenesis [1] 0)))
      = .ok (childOfGenesis [1] 0) := by decide +kernel
  have hkept := hfinal [] [newBlockMessage (childOfGenesis [1] 0)] (by simp) (by simp)
    0 genesisBlock hbefore
  have hsame : childOfGenesis [1] 0 = genesisBlock := by
    simpa using hafter.symm.trans hkept
  exact absurd hsame (by decide)

end Dione
