/-
  Dione.Blockchain.Latest

  The latest height of a chain that any calls of `StoreBlock` have built, over any
  backend: the greatest height among the blocks stored so far, with a block of that
  height at it.

  Heights come in any order and may repeat.  `updateLatest` raises the latest height
  to a block that is higher and never lowers it, and a block written at a height takes
  the place of the one before, so whatever stands at the latest height has that height.
-/

import Dione.Blockchain.Integrity

namespace Dione

open BlockChain

/-- The heights of the blocks the calls store, in order. -/
def storedHeights {σ : Type} (db : Database σ) : σ → List (Oracles × Block) → List UInt64
  | _, [] => []
  | s, c :: cs =>
    ((recorded db c.1 c.2 s).map BlockHeader.height).toList ++
      storedHeights db (storeStep db s c) cs

theorem storedHeights_append {σ : Type} (db : Database σ) (s : σ)
    (cs ds : List (Oracles × Block)) : storedHeights db s (cs ++ ds)
      = storedHeights db s cs ++ storedHeights db (Run.exec (storeStep db) s cs) ds := by
  induction cs generalizing s with
  | nil => rfl
  | cons c cs ih =>
      rw [List.cons_append, storedHeights, ih, storedHeights, List.append_assoc, Run.exec_cons]

/-- The state of an empty database after the calls. -/
def stateAfter (B : Backend) (calls : List (Oracles × Block)) : B.σ :=
  Run.exec (storeStep B.db) B.new calls

/-! ## The invariant -/

/-- The latest height of the store is the greatest of `heights`, and it is the height
    of the block that stands there. -/
structure Store.Tops (st : Store) (heights : List UInt64) : Prop where
  undefined : st.latest = none ↔ heights = []
  maximum : ∀ l, st.latest = some l → l ∈ heights ∧ ∀ h ∈ heights, h ≤ l
  head : ∀ l, st.latest = some l → ∃ hd, st.headerAt l = some hd ∧ hd.height = l

namespace Store.Tops

variable {st : Store} {heights : List UInt64} {hd : BlockHeader} {b : Block}

theorem empty : Store.empty.Tops [] where
  undefined := by simp [Store.empty]
  maximum l hl := by cases hl
  head l hl := by cases hl

theorem exists_latest (h : st.Tops heights) (hne : heights ≠ []) : ∃ l, st.latest = some l :=
  Option.ne_none_iff_exists'.mp (h.undefined.not.mpr hne)

/-- The latest height after a block has been stored. -/
theorem latest_commit (h : st.Tops heights) (hd : BlockHeader) (b : Block) :
    ∃ l, (st.commit hd b).latest = some l ∧ (l = hd.height ∨ st.latest = some l) ∧
      ∀ h' ∈ heights ++ [hd.height], h' ≤ l := by
  cases hl : st.latest with
  | none =>
      refine ⟨hd.height, by rw [Store.commit, hl]; rfl, .inl rfl, ?_⟩
      rw [h.undefined.mp hl]
      simp
  | some l =>
      obtain ⟨-, hmax⟩ := h.maximum l hl
      rw [commit_latest hl]
      by_cases hlt : l < hd.height
      · refine ⟨hd.height, by rw [if_pos hlt], .inl rfl, ?_⟩
        intro h' hh'
        rcases List.mem_append.mp hh' with hold | hnew
        · exact UInt64.le_trans (hmax h' hold) (UInt64.le_of_lt hlt)
        · exact List.mem_singleton.mp hnew ▸ UInt64.le_rfl
      · refine ⟨l, by rw [if_neg hlt], .inr rfl, ?_⟩
        intro h' hh'
        rcases List.mem_append.mp hh' with hold | hnew
        · exact hmax h' hold
        · exact List.mem_singleton.mp hnew ▸ UInt64.not_lt.mp hlt

theorem commit (h : st.Tops heights) (hb : b.header = some hd) :
    (st.commit hd b).Tops (heights ++ [hd.height]) := by
  obtain ⟨l, hlatest, horigin, hmax⟩ := h.latest_commit hd b
  refine ⟨by simp [hlatest], ?_, ?_⟩
  · intro l' hl'
    obtain rfl := Option.some.inj (hlatest.symm.trans hl')
    refine ⟨?_, hmax⟩
    rcases horigin with rfl | hold
    · exact List.mem_append_right _ (List.mem_singleton_self _)
    · exact List.mem_append_left _ (h.maximum l hold).1
  · intro l' hl'
    obtain rfl := Option.some.inj (hlatest.symm.trans hl')
    rw [commit_headerAt st hb]
    split
    · next heq => exact ⟨hd, rfl, heq.symm⟩
    · next hne => exact h.head l (horigin.resolve_left hne)

end Store.Tops

section Runs

variable {B : Backend} {s : B.σ} {heights : List UInt64}

theorem tops_storeStep (hwf : B.Wf s) (h : (B.view s).Tops heights) (c : Oracles × Block) :
    B.Wf (storeStep B.db s c) ∧ (B.view (storeStep B.db s c)).Tops
      (heights ++ ((recorded B.db c.1 c.2 s).map BlockHeader.height).toList) := by
  cases hrec : recorded B.db c.1 c.2 s with
  | none =>
      have hsame : storeStep B.db s c = s := storeBlock_of_not_recorded B hwf hrec
      rw [hsame]
      exact ⟨hwf, by simpa using h⟩
  | some hd =>
      obtain ⟨hwf', hview⟩ := storeStep_of_recorded B hwf hrec
      rw [hview]
      exact ⟨hwf', h.commit (recorded_eq_some.mp hrec).1⟩

theorem tops_exec (hwf : B.Wf s) (h : (B.view s).Tops heights) (calls : List (Oracles × Block)) :
    B.Wf (Run.exec (storeStep B.db) s calls) ∧
      (B.view (Run.exec (storeStep B.db) s calls)).Tops
        (heights ++ storedHeights B.db s calls) := by
  induction calls generalizing s heights with
  | nil => exact ⟨hwf, by simpa [storedHeights] using h⟩
  | cons c calls ih =>
      obtain ⟨hwf', htops⟩ := tops_storeStep hwf h c
      rw [Run.exec_cons, storedHeights, ← List.append_assoc]
      exact ih hwf' htops

theorem tops_stateAfter (B : Backend) (calls : List (Oracles × Block)) :
    B.Wf (stateAfter B calls) ∧
      (B.view (stateAfter B calls)).Tops (storedHeights B.db B.new calls) := by
  have hnew : (B.view B.new).Tops [] := by
    rw [B.view_new]
    exact .empty
  exact tops_exec B.new_wf hnew calls

end Runs

/-! ## The head -/

/-- A database in which `head` is the header at the latest height, and there is nothing
    else. -/
def headOnly (head : BlockHeader) : Database Unit where
  storeBlock _ _ := (.error (.msg "read only"), ())
  hasBlock hash _ := .ok (decide (hash = head.hash))
  fetchBlockData _ _ := .error .blockNotFound
  fetchBlockHeader _ _ := .error .blockNotFound
  fetchBlock _ _ := .error .blockNotFound
  fetchBlockByHeight _ _ := .error .blockNotFound
  fetchBlockHeaderByHeight _ _ := .ok (some head)
  getLatestBlockHeight _ := .ok head.height
  setLatestBlockHeight _ _ := (.error (.msg "read only"), ())

/-- A validator that finds a head sees nothing else of the database. -/
theorem validateBlock_headOnly {σ : Type} {db : Database σ} {s : σ} {l : UInt64}
    {head : BlockHeader} (hlatest : db.getLatestBlockHeight s = .ok l)
    (hhead : db.fetchBlockHeaderByHeight l s = .ok (some head)) (o : Oracles) (block : Block) :
    validateBlock db o block s = validateBlock (headOnly head) o block () := by
  unfold validateBlock
  simp only [hlatest, hhead, headOnly, Guard.ok_bind]

/-- After any calls of `StoreBlock` the latest height is defined iff a block has been
    stored; it is the greatest height of a stored block and never decreases; and the
    header at it is found and has that height, so that `ValidateBlock` judges every
    block by it. -/
theorem latestHeight_is_maximum (B : Backend) (calls : List (Oracles × Block)) :
    ((∃ l, B.db.getLatestBlockHeight (stateAfter B calls) = .ok l) ↔
        storedHeights B.db B.new calls ≠ []) ∧
      ∀ l, B.db.getLatestBlockHeight (stateAfter B calls) = .ok l →
        (l ∈ storedHeights B.db B.new calls ∧
          ∀ h ∈ storedHeights B.db B.new calls, h ≤ l) ∧
        (∀ later, ∃ l',
          B.db.getLatestBlockHeight (stateAfter B (calls ++ later)) = .ok l' ∧ l ≤ l') ∧
        ∃ head, B.db.fetchBlockHeaderByHeight l (stateAfter B calls) = .ok (some head) ∧
          head.height = l ∧
          ∀ o block, validateBlock B.db o block (stateAfter B calls)
            = validateBlock (headOnly head) o block () := by
  obtain ⟨hwf, htops⟩ := tops_stateAfter B calls
  have hread : ∀ l, B.db.getLatestBlockHeight (stateAfter B calls) = .ok l ↔
      (B.view (stateAfter B calls)).latest = some l := by
    intro l
    rw [B.getLatestBlockHeight_eq hwf, orErr_eq_ok]
  constructor
  · simp only [hread]
    rw [← Option.ne_none_iff_exists']
    exact htops.undefined.not
  · intro l hl
    obtain ⟨hmem, hmax⟩ := htops.maximum l ((hread l).mp hl)
    obtain ⟨head, hat, hheight⟩ := htops.head l ((hread l).mp hl)
    have hhead : B.db.fetchBlockHeaderByHeight l (stateAfter B calls) = .ok (some head) := by
      rw [B.fetchBlockHeaderByHeight_eq l hwf, orErr_eq_ok, Option.map_eq_some_iff]
      exact Store.headerAt_eq_some.mp hat
    refine ⟨⟨hmem, hmax⟩, ?_, head, hhead, hheight, validateBlock_headOnly hl hhead⟩
    intro later
    obtain ⟨hwf', htops'⟩ := tops_stateAfter B (calls ++ later)
    -- what has been stored stays among what is the maximum of later
    have hmem' : l ∈ storedHeights B.db B.new (calls ++ later) := by
      rw [storedHeights_append]
      exact List.mem_append_left _ hmem
    obtain ⟨l', hl'⟩ := htops'.exists_latest (List.ne_nil_of_mem hmem')
    refine ⟨l', ?_, (htops'.maximum l' hl').2 l hmem'⟩
    rw [B.getLatestBlockHeight_eq hwf', orErr_eq_ok]
    exact hl'

end Dione
