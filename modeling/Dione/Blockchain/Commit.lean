/-
  Dione.Blockchain.Commit

  What `ValidateBlock` and `StoreBlock` do, over any backend.

  An accepted block passed every stage of the validator; `Accepted` lists what
  the stages establish.  A call of `StoreBlock` either records a block, and then
  its effect on the abstract store is `Store.commit`, or leaves the state alone.
-/

import Dione.Sync

namespace Dione

open Guard Text

/-! ## Validation -/

/-- What validation of one transaction establishes. -/
structure TxAccepted (o : Oracles) (header : BlockHeader) (tx : Transaction) : Prop where
  hasProof : tx.merkleProof.hashes ≠ none
  inTree : o.verifyProofUsing tx.hash true tx.merkleProof [header.hash] = .ok true
  hashValid : o.keccak256 (textBytes (hexEncode tx.data)) = tx.hash

theorem verifyTx_accepted {o : Oracles} {header : BlockHeader} {v : Option Transaction}
    (h : verifyTx o header v = .ok ()) : ∃ tx, v = some tx ∧ TxAccepted o header tx := by
  simp only [verifyTx, bind_eq_ok, deref_eq_ok, flattenErr_eq_ok, require_eq_ok,
    Transaction.validateHash, decide_eq_true_eq] at h
  obtain ⟨tx, htx, _, hproof, verified, hv, _, hin, hhash⟩ := h
  exact ⟨tx, htx, hproof, hin ▸ hv, hhash⟩

theorem validateTransaction_accepted {o : Oracles} {header : BlockHeader}
    {v : Option Transaction} (h : validateTransaction o header v = .ok ()) :
    ∃ tx, v = some tx ∧ TxAccepted o header tx := by
  rw [validateTransaction, bind_eq_ok] at h
  obtain ⟨_, hv, _⟩ := h
  exact verifyTx_accepted (wrapErr_eq_ok.mp hv)

theorem validateTransactions_accepted {o : Oracles} {header : BlockHeader}
    {vs : List (Option Transaction)} (h : validateTransactions o header vs = .ok ()) :
    ∀ v ∈ vs, ∃ tx, v = some tx ∧ TxAccepted o header tx := by
  intro v hv
  exact validateTransaction_accepted (validateTransactions_eq_ok.mp h v hv)

namespace BlockChain

/-- What the stages of `ValidateBlock` establish about the block's link to the
    chain and about its transactions. -/
structure Accepted {σ : Type} (db : Database σ) (o : Oracles) (block : Block) (s : σ)
    (header head : BlockHeader) : Prop where
  header_eq : block.header = some header
  head_eq : ∃ latest, db.getLatestBlockHeight s = .ok latest ∧
    db.fetchBlockHeaderByHeight latest s = .ok (some head)
  lastHash_eq : header.lastHash = head.hash
  lastHash_inTree : ∃ proof, header.lastHashProof = some proof ∧
    o.verifyProofUsing head.hash true proof [header.hash] = .ok true
  txs : ∀ v ∈ block.data, ∃ tx, v = some tx ∧ TxAccepted o header tx

theorem validateBlock_accepted {σ : Type} {db : Database σ} {o : Oracles} {block : Block}
    {s : σ} (h : validateBlock db o block s = .ok ()) :
    ∃ header head, Accepted db o block s header head := by
  simp only [validateBlock, bind_eq_ok, deref_eq_ok, wrapErr_eq_ok, require_eq_ok] at h
  obtain ⟨header, hheader, proposer, -, pubkey, -, ok, -, _, -, latest, hlatest, prev, hprev,
    head, rfl, _, hlast, proof, hproof, verified, hver, _, rfl, h⟩ := h
  obtain ⟨ep, -, _, -, _, -, buf, -, res, -, _, -, stakes, -, wc, -, _, -, htxs⟩ := h
  exact ⟨header, head, hheader, ⟨latest, hlatest, hprev⟩, hlast, ⟨proof, hproof, hver⟩,
    validateTransactions_accepted htxs⟩

/-- The header of the block a call of `StoreBlock` would record: the block is
    not there yet, passes the checks, and the database takes it. -/
def recorded {σ : Type} (db : Database σ) (o : Oracles) (block : Block) (s : σ) :
    Option BlockHeader :=
  match block.header with
  | none => none
  | some header =>
    if db.hasBlock header.hash s = .ok false ∧ checkBeforeStore db o header block s = .ok () ∧
        (db.storeBlock block s).1 = .ok () then some header
    else none

theorem recorded_eq_some {σ : Type} {db : Database σ} {o : Oracles} {block : Block} {s : σ}
    {hd : BlockHeader} : recorded db o block s = some hd ↔
      block.header = some hd ∧ db.hasBlock hd.hash s = .ok false ∧
        checkBeforeStore db o hd block s = .ok () ∧ (db.storeBlock block s).1 = .ok () := by
  unfold recorded
  cases block.header with
  | none => simp
  | some header =>
      simp only [Option.ite_none_right_eq_some, Option.some.injEq]
      constructor
      · rintro ⟨h, rfl⟩
        exact ⟨rfl, h⟩
      · rintro ⟨rfl, h⟩
        exact ⟨h, rfl⟩

end BlockChain

/-! ## The effect on the store -/

/-- Record a block and raise the latest height to it if it is higher. -/
def Store.commit (st : Store) (hd : BlockHeader) (b : Block) : Store :=
  match st.latest with
  | none => (st.insert hd b).setLatest hd.height
  | some l => if l < hd.height then (st.insert hd b).setLatest hd.height else st.insert hd b

namespace Store

theorem commit_byHeight (st : Store) (hd : BlockHeader) (b : Block) (h : UInt64) :
    (st.commit hd b).byHeight h = if h = hd.height then some b else st.byHeight h := by
  rw [← insert_byHeight]
  unfold commit
  split
  · rfl
  · split <;> rfl

theorem commit_byHash (st : Store) (hd : BlockHeader) (b : Block) (h : Bytes) :
    (st.commit hd b).byHash h = if h = hd.hash then some b else st.byHash h := by
  rw [← insert_byHash]
  unfold commit
  split
  · rfl
  · split <;> rfl

theorem commit_latest {st : Store} {l : UInt64} (hl : st.latest = some l) (hd : BlockHeader)
    (b : Block) :
    (st.commit hd b).latest = some (if l < hd.height then hd.height else l) := by
  rw [commit, hl]
  dsimp only
  split
  · rfl
  · exact hl

end Store

namespace BlockChain

variable (B : Backend) {o : Oracles} {block : Block} {hd : BlockHeader} {s : B.σ}

theorem updateLatest_view (hwf : B.Wf s) {st : Store} (hview : B.view s = st.insert hd block) :
    ∃ s' pub, updateLatest B.db hd block s = ⟨.ok (), s', pub⟩ ∧ B.Wf s' ∧
      B.view s' = st.commit hd block := by
  obtain ⟨s', hset, hwf', hview'⟩ := B.setLatestBlockHeight_spec hd.height hwf
  rw [hview] at hview'
  have hlatest : (B.view s).latest = st.latest := by rw [hview, Store.insert_latest]
  cases hl : st.latest with
  | none =>
      refine ⟨s', [.latestBlockHeightUpdated block, .blockCommitted block], ?_, hwf', ?_⟩
      · rw [updateLatest, B.getLatestBlockHeight_eq hwf, hlatest, hl, hset]
        rfl
      · rw [hview', Store.commit, hl]
  | some l =>
      by_cases hlt : l < hd.height
      · refine ⟨s', [.latestBlockHeightUpdated block, .blockCommitted block], ?_, hwf', ?_⟩
        · rw [updateLatest, B.getLatestBlockHeight_eq hwf, hlatest, hl, hset]
          simp only [orErr, gt_iff_lt, if_pos hlt]
        · rw [hview', Store.commit, hl]
          simp only [if_pos hlt]
      · refine ⟨s, [.blockCommitted block], ?_, hwf, ?_⟩
        · rw [updateLatest, B.getLatestBlockHeight_eq hwf, hlatest, hl]
          simp only [orErr, gt_iff_lt, if_neg hlt]
        · rw [hview, Store.commit, hl]
          simp only [if_neg hlt]

/-- A hash the database takes is one it can use as a key. -/
theorem storable_of_recorded (hwf : B.Wf s) (h : recorded B.db o block s = some hd) :
    B.storable hd.hash := by
  obtain ⟨hheader, hfresh, -, hwrite⟩ := recorded_eq_some.mp h
  by_contra hs
  rcases B.unstorable hwf hheader hs with ⟨e, he⟩ | ⟨_, e, he⟩
  · rw [he] at hfresh
    cases hfresh
  · rw [he] at hwrite
    cases hwrite

theorem fresh_of_recorded (hwf : B.Wf s) (h : recorded B.db o block s = some hd) :
    (B.view s).byHash hd.hash = none := by
  have hs := storable_of_recorded B hwf h
  have hfresh := (recorded_eq_some.mp h).2.1
  rw [B.hasBlock_eq hwf hs] at hfresh
  simpa using hfresh

/-- A call that records a block commits it to the store. -/
theorem storeBlock_of_recorded (hwf : B.Wf s) (h : recorded B.db o block s = some hd) :
    ∃ s' pub, storeBlock B.db o block s = ⟨.ok (), s', pub⟩ ∧ B.Wf s' ∧
      B.view s' = (B.view s).commit hd block := by
  have hs := storable_of_recorded B hwf h
  have hfresh := fresh_of_recorded B hwf h
  obtain ⟨hheader, hhas, hcheck, -⟩ := recorded_eq_some.mp h
  obtain ⟨s₁, hwrite, hwf₁, hview₁⟩ := B.storeBlock_spec hwf hheader hs hfresh
  obtain ⟨s', pub, hupd, hwf', hview'⟩ := updateLatest_view B hwf₁ hview₁
  refine ⟨s', pub, ?_, hwf', hview'⟩
  simp only [storeBlock, hheader, hhas, hcheck, hwrite, hupd]

/-- A call that records nothing changes nothing. -/
theorem storeBlock_of_not_recorded (hwf : B.Wf s) (h : recorded B.db o block s = none) :
    (storeBlock B.db o block s).state = s := by
  cases hheader : block.header with
  | none => simp [storeBlock, hheader]
  | some header =>
      cases hhas : B.db.hasBlock header.hash s with
      | error e => simp [storeBlock, hheader, hhas]
      | ok found =>
          cases found with
          | true => simp [storeBlock, hheader, hhas]
          | false =>
              cases hcheck : checkBeforeStore B.db o header block s with
              | error e => simp [storeBlock, hheader, hhas, hcheck]
              | ok _ =>
                  -- Only the write is left to fail, and a refused write leaves the state alone.
                  have hwrite : (B.db.storeBlock block s).1 ≠ .ok () := fun hw => by
                    rw [recorded_eq_some.mpr ⟨hheader, hhas, hcheck, hw⟩] at h
                    cases h
                  have hns : ¬ B.storable header.hash := fun hs => by
                    rw [B.hasBlock_eq hwf hs] at hhas
                    have hfresh : (B.view s).byHash header.hash = none := by simpa using hhas
                    obtain ⟨s', hw, -⟩ := B.storeBlock_spec hwf hheader hs hfresh
                    exact hwrite (by rw [hw])
                  rcases B.unstorable hwf hheader hns with ⟨e, he⟩ | ⟨_, e, he⟩
                  · rw [he] at hhas
                    cases hhas
                  · simp [storeBlock, hheader, hhas, hcheck, he]

/-- The same two facts about a step that makes at most one call. -/
theorem storeStep_of_recorded (hwf : B.Wf s) {c : Oracles × Block}
    (h : recorded B.db c.1 c.2 s = some hd) : B.Wf (storeStep B.db s c) ∧
      B.view (storeStep B.db s c) = (B.view s).commit hd c.2 := by
  obtain ⟨s', pub, hst, hwf', hview⟩ := storeBlock_of_recorded B hwf h
  rw [storeStep, hst]
  exact ⟨hwf', hview⟩

theorem getD_storeStep_of_not_recorded (hwf : B.Wf s) {call : Option (Oracles × Block)}
    (h : ∀ c, call = some c → recorded B.db c.1 c.2 s = none) :
    (call.map (storeStep B.db s)).getD s = s := by
  cases call with
  | none => rfl
  | some c => exact storeBlock_of_not_recorded B hwf (h c rfl)

/-! ## Two backends with the same store -/

section Congruence

variable {B B' : Backend} {s : B.σ} {s' : B'.σ}

/-- The validator sees a database only through the store it implements. -/
theorem validateBlock_congr (hwf : B.Wf s) (hwf' : B'.Wf s') (hview : B'.view s' = B.view s) :
    validateBlock B'.db o block s' = validateBlock B.db o block s := by
  unfold validateBlock
  simp only [B.getLatestBlockHeight_eq hwf, B.fetchBlockHeaderByHeight_eq _ hwf,
    B'.getLatestBlockHeight_eq hwf', B'.fetchBlockHeaderByHeight_eq _ hwf', hview]

/-- What one backend records, another one with the same store and room for the hash
    records as well. -/
theorem recorded_congr (hkey : B.storable hd.hash → B'.storable hd.hash) (hwf : B.Wf s)
    (hwf' : B'.Wf s') (hview : B'.view s' = B.view s)
    (hrec : recorded B.db o block s = some hd) : recorded B'.db o block s' = some hd := by
  have hstorable := hkey (storable_of_recorded B hwf hrec)
  have hfresh : (B'.view s').byHash hd.hash = none := by
    rw [hview]
    exact fresh_of_recorded B hwf hrec
  obtain ⟨hheader, -, hcheck, -⟩ := recorded_eq_some.mp hrec
  obtain ⟨s₁, hwrite, -⟩ := B'.storeBlock_spec hwf' hheader hstorable hfresh
  refine recorded_eq_some.mpr ⟨hheader, ?_, ?_, by rw [hwrite]⟩
  · rw [B'.hasBlock_eq hwf' hstorable, hfresh]
    rfl
  · rw [checkBeforeStore, validateBlock_congr hwf hwf' hview]
    exact hcheck

end Congruence

end BlockChain

/-! ## The genesis-only chain -/

open BlockChain

/-- The chain of a node that has just started: the genesis block is stored
    without asking any service. -/
def genesisChain (B : Backend) : B.σ := initializeBlockchain B.db .offline B.new

section Genesis

variable (B : Backend)

theorem recorded_genesis : recorded B.db .offline genesisBlock B.new = some genesisHeader := by
  have hs : B.storable genesisHeader.hash := B.storable_short _ (by decide)
  have hfresh : (B.view B.new).byHash genesisHeader.hash = none := by rw [B.view_new]; rfl
  obtain ⟨s', hw, -⟩ := B.storeBlock_spec (b := genesisBlock) B.new_wf rfl hs hfresh
  refine recorded_eq_some.mpr ⟨rfl, ?_, rfl, by rw [hw]⟩
  rw [B.hasBlock_eq B.new_wf hs, hfresh]
  rfl

theorem genesisChain_spec : B.Wf (genesisChain B) ∧
    B.view (genesisChain B) = Store.empty.commit genesisHeader genesisBlock := by
  obtain ⟨s', pub, hst, hwf, hview⟩ := storeBlock_of_recorded B B.new_wf (recorded_genesis B)
  have hstate : genesisChain B = s' := by
    rw [genesisChain, initializeBlockchain, B.getLatestBlockHeight_eq B.new_wf, B.view_new]
    simp [orErr, Store.empty, hst]
  rw [hstate, hview, B.view_new]
  exact ⟨hwf, rfl⟩

end Genesis

end Dione
