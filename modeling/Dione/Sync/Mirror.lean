/-
  Dione.Sync.Mirror

  What initial sync makes of a chain that a peer has mined from the genesis block.

    * `mirrors_of_unsalted`: a node that starts from the genesis block and finds
      the proofs of the last hashes verified without salt goes through the peer's
      stores, block by block;
    * `unsalted_of_reproduces`: it gets the peer's chain in no other case.
-/

import Dione.Blockchain.Ticket
import Dione.Sync.Serving

namespace Dione

open Guard BlockChain

/-! ## What the node makes of it -/

/-- The block's proof of its last hash verifies without salt. -/
def Unsalted (o : Oracles) (block : Block) : Prop :=
  ∃ header proof, block.header = some header ∧ header.lastHashProof = some proof ∧
    o.verifyProofUsing header.lastHash false proof [header.hash] = .ok true

theorem checkReceivedBlock_eq_ok {σ : Type} {db : Database σ} {o : Oracles} {block : Block}
    {s : σ} :
    Sync.checkReceivedBlock db o block s = .ok () ↔
      ∃ header prev proof, block.header = some header ∧
        db.fetchBlockHeaderByHeight (header.height - 1) s = .ok (some prev) ∧
        header.lastHash = prev.hash ∧ header.lastHashProof = some proof ∧
        o.verifyProofUsing prev.hash false proof [header.hash] = .ok true ∧
        Sync.verifyTxs o header block.data = .ok () := by
  have hmap : ∀ {α : Type} (x : Except Err α) (f : Err → Err) (a : α),
      x.mapError f = .ok a ↔ x = .ok a := by
    intro α x f a
    cases x <;> simp [Except.mapError]
  simp only [Sync.checkReceivedBlock, bind_eq_ok, deref_eq_ok, wrapErr_eq_ok, require_eq_ok, hmap]
  constructor
  · rintro ⟨header, hheader, _, hprev, prev, rfl, _, hlast, proof, hproof, _, hverified, _, rfl,
      htxs⟩
    exact ⟨header, prev, proof, hheader, hprev, hlast, hproof, hverified, htxs⟩
  · rintro ⟨header, prev, proof, hheader, hprev, hlast, hproof, hverified, htxs⟩
    exact ⟨header, hheader, some prev, hprev, prev, rfl, (), hlast, proof, hproof, true, hverified,
      (), rfl, htxs⟩

theorem unsalted_of_checkReceivedBlock {σ : Type} {db : Database σ} {o : Oracles} {block : Block}
    {s : σ} (h : Sync.checkReceivedBlock db o block s = .ok ()) : Unsalted o block := by
  obtain ⟨header, prev, proof, hheader, -, hlast, hproof, hverified, -⟩ :=
    checkReceivedBlock_eq_ok.mp h
  exact ⟨header, proof, hheader, hproof, hlast ▸ hverified⟩

/-- What `ValidateBlock` accepts, on any head, `processReceivedBlock` does not. -/
theorem not_unsalted_of_validateBlock {σ : Type} {db : Database σ} {o : Oracles} {block : Block}
    {s : σ} (hlib : o.MerkleLibrary) (h : validateBlock db o block s = .ok ()) :
    ¬ Unsalted o block := by
  rintro ⟨header, proof, hheader, hproof, hunsalted⟩
  obtain ⟨header', head, hacc⟩ := validateBlock_accepted h
  obtain rfl : header = header' := Option.some.inj (hheader.symm.trans hacc.header_eq)
  obtain ⟨proof', hproof', hsalted⟩ := hacc.lastHash_inTree
  obtain rfl : proof = proof' := Option.some.inj (hproof.symm.trans hproof')
  rw [← hacc.lastHash_eq] at hsalted
  exact hlib.not_unsalted hsalted hunsalted

theorem verifyTxs_of_validateTransactions {o : Oracles} {header : BlockHeader}
    {vs : List (Option Transaction)} (h : validateTransactions o header vs = .ok ()) :
    Sync.verifyTxs o header vs = .ok () := by
  induction vs with
  | nil => rfl
  | cons v vs ih =>
      obtain ⟨hv, hrest⟩ := List.forall_mem_cons.mp (validateTransactions_eq_ok.mp h)
      simp only [validateTransaction, bind_eq_ok, wrapErr_eq_ok] at hv
      obtain ⟨_, hverify, -⟩ := hv
      rw [Sync.verifyTxs, hverify, ok_bind]
      exact ih (validateTransactions_eq_ok.mpr hrest)

section Mirror

variable {B B' : Backend} {o : Oracles} {block : Block} {s : B.σ} {s' : B'.σ}

/-- A node whose store is the peer's before a block was mined gets the peer's
    store after it, if the proof of the last hash verifies without salt. -/
theorem processReceivedBlock_mirrors (hkeys : ∀ h, B.storable h → B'.storable h) (hwf : B.Wf s)
    (hwf' : B'.Wf s') (hview : B'.view s' = B.view s) {latest : UInt64} {last header : BlockHeader}
    (hmined : MinedOn B o s block latest last header) (hheight : last.height = latest)
    (hunsalted : Unsalted o block) : ∃ out, Sync.processReceivedBlock B'.db o block s' = out ∧
      out.result = .ok () ∧ B'.Wf out.state ∧
        B'.view out.state = (B.view s).commit header block := by
  have hheader := (recorded_eq_some.mp hmined.isRecorded).1
  obtain ⟨header₁, proof, hheader₁, hproof, hverified⟩ := hunsalted
  obtain rfl : header = header₁ := Option.some.inj (hheader.symm.trans hheader₁)
  have hprev : B'.db.fetchBlockHeaderByHeight (header.height - 1) s' = .ok (some last) := by
    rw [hmined.created.height_eq, hheight, UInt64.add_sub_cancel,
      B'.fetchBlockHeaderByHeight_eq _ hwf', hview, orErr_eq_ok, Option.map_eq_some_iff]
    exact Store.headerAt_eq_some.mp hmined.last_eq
  have htxs : Sync.verifyTxs o header block.data = .ok () := by
    obtain ⟨header₂, -, -, hheader₂, -, -, -, -, -, htxs⟩ := validateBlock_eq_ok.mp hmined.valid
    obtain rfl : header = header₂ := Option.some.inj (hheader.symm.trans hheader₂)
    exact verifyTxs_of_validateTransactions htxs
  -- the check of the node and the miner agree on all but the salt
  have hcheck : Sync.checkReceivedBlock B'.db o block s' = .ok () :=
    checkReceivedBlock_eq_ok.mpr ⟨header, last, proof, hheader, hprev, hmined.created.lastHash_eq,
      hproof, hmined.created.lastHash_eq ▸ hverified, htxs⟩
  obtain ⟨s₁, pub, hst, hwf₁, hview₁⟩ := storeBlock_of_recorded B' hwf'
    (recorded_congr (hkeys _) hwf hwf' hview hmined.isRecorded)
  refine ⟨_, rfl, ?_⟩
  simp only [Sync.processReceivedBlock, hcheck, hst]
  rw [hview] at hview₁
  exact ⟨rfl, hwf₁, hview₁⟩

end Mirror

/-! ## Whole syncs -/

section Blocks

variable {σ : Type} {db : Database σ} {o : Oracles}

theorem processReceivedBlocks_concat {bs : List Block} {b : Block} {s : σ}
    (hbs : (Sync.processReceivedBlocks db o bs s).result = .ok ())
    (hb : (Sync.processReceivedBlock db o b
      (Sync.processReceivedBlocks db o bs s).state).result = .ok ()) :
    (Sync.processReceivedBlocks db o (bs ++ [b]) s).result = .ok () ∧
      (Sync.processReceivedBlocks db o (bs ++ [b]) s).state = (Sync.processReceivedBlock db o b
        (Sync.processReceivedBlocks db o bs s).state).state := by
  induction bs generalizing s with
  | nil =>
      have hb' : (Sync.processReceivedBlock db o b s).result = .ok () := hb
      simp [Sync.processReceivedBlocks, hb', Sync.panicked]
  | cons c cs ih =>
      have hcons : ∀ l, Sync.processReceivedBlocks db o (c :: l) s =
          if Sync.panicked (Sync.processReceivedBlock db o c s).result then
            Sync.processReceivedBlock db o c s
          else _ := fun l => rfl
      by_cases hpanic : Sync.panicked (Sync.processReceivedBlock db o c s).result = true
      · -- a panic is not a success
        rw [hcons, if_pos hpanic] at hbs
        rw [hbs] at hpanic
        cases hpanic
      · rw [hcons, if_neg hpanic] at hbs hb
        rw [List.cons_append, hcons, hcons, if_neg hpanic, if_neg hpanic]
        exact ih hbs hb

/-- What processing one block keeps, processing all keeps. -/
theorem processReceivedBlocks_invariant {I : σ → Prop}
    (hstep : ∀ b s, I s → I (Sync.processReceivedBlock db o b s).state) {s : σ} (h0 : I s)
    (bs : List Block) : I (Sync.processReceivedBlocks db o bs s).state := by
  induction bs generalizing s with
  | nil => exact h0
  | cons b bs ih =>
      rw [Sync.processReceivedBlocks]
      split
      · exact hstep b s h0
      · exact ih (hstep b s h0)

end Blocks

section Syncs

variable {B : Backend} (B' : Backend) {o : Oracles} {bs : List Block} {s : B.σ}

/-- Processing the blocks of a mined chain in order ends with the peer's store, if
    the proofs of the last hashes verify without salt. -/
theorem mirrors_of_unsalted (hkeys : ∀ h, B.storable h → B'.storable h) (h : MinedChain B o bs s)
    (hlength : bs.length < 2 ^ 64) (hunsalted : ∀ b ∈ bs, Unsalted o b) :
    ∃ out, Sync.processReceivedBlocks B'.db o bs (genesisChain B') = out ∧ out.result = .ok () ∧
      B'.Wf out.state ∧ B'.view out.state = B.view s := by
  induction h with
  | genesis =>
      refine ⟨_, rfl, rfl, (genesisChain_spec B').1, ?_⟩
      rw [(genesisChain_spec B).2]
      exact (genesisChain_spec B').2
  | mine signer timestamp txs randomness randomnessRound chain hlatest hhead hmine hvalid hrec ih =>
      rename_i bs s latest head block header
      rw [List.length_append, List.length_singleton] at hlength
      obtain ⟨hwf, hholds, -⟩ := chain.holds
      obtain ⟨last, hmined⟩ := minedOn_of_mineBlock hwf hlatest hhead hmine hvalid hrec
      have hlinked := (hholds (by omega)).linked
      obtain rfl : UInt64.ofNat bs.length = latest :=
        Option.some.inj (hlinked.latest_eq.symm.trans hmined.latest_eq)
      obtain ⟨last', hlast', hheight⟩ := hlinked.occupied _ UInt64.le_rfl
      obtain rfl : last = last' := Option.some.inj (hmined.last_eq.symm.trans hlast')
      obtain ⟨out, rfl, hresult, hwf', hview⟩ :=
        ih (by omega) fun b hb => hunsalted b (List.mem_append_left _ hb)
      obtain ⟨out', rfl, hresult', hwf'', hview'⟩ := processReceivedBlock_mirrors hkeys hwf hwf'
        hview hmined hheight (hunsalted block (by simp))
      obtain ⟨hboth, hstate⟩ := processReceivedBlocks_concat hresult hresult'
      obtain ⟨s₁, pub, hst, -, hview₁⟩ := storeBlock_of_recorded B hwf hrec
      refine ⟨_, rfl, hboth, ?_, ?_⟩
      · rw [hstate]
        exact hwf''
      · rw [hstate, hview', hst]
        exact hview₁.symm

/-- Every block of a node's store but the genesis block has come through
    `processReceivedBlock`. -/
def Received (o : Oracles) (st : Store) : Prop :=
  ∀ h b, st.byHeight h = some b → b = genesisBlock ∨ Unsalted o b

theorem received_processReceivedBlock {block : Block} {s' : B'.σ}
    (h : B'.Wf s' ∧ Received o (B'.view s')) :
    B'.Wf (Sync.processReceivedBlock B'.db o block s').state ∧
      Received o (B'.view (Sync.processReceivedBlock B'.db o block s').state) := by
  obtain ⟨hwf, hreceived⟩ := h
  cases hcheck : Sync.checkReceivedBlock B'.db o block s' with
  | error e =>
      simp only [Sync.processReceivedBlock, hcheck]
      exact ⟨hwf, hreceived⟩
  | ok _ =>
      simp only [Sync.processReceivedBlock, hcheck]
      cases hrec : recorded B'.db o block s' with
      | none =>
          rw [storeBlock_of_not_recorded B' hwf hrec]
          exact ⟨hwf, hreceived⟩
      | some header =>
          obtain ⟨s₁, pub, hst, hwf₁, hview₁⟩ := storeBlock_of_recorded B' hwf hrec
          rw [hst]
          refine ⟨hwf₁, ?_⟩
          intro h b hb
          rw [hview₁, Store.commit_byHeight] at hb
          split at hb
          · obtain rfl := Option.some.inj hb
            exact .inr (unsalted_of_checkReceivedBlock hcheck)
          · exact hreceived h b hb

theorem received_processReceivedBlocks (bs : List Block) :
    B'.Wf (Sync.processReceivedBlocks B'.db o bs (genesisChain B')).state ∧
      Received o (B'.view (Sync.processReceivedBlocks B'.db o bs (genesisChain B')).state) := by
  refine processReceivedBlocks_invariant (I := fun s => B'.Wf s ∧ Received o (B'.view s))
    (fun b s hs => received_processReceivedBlock B' hs) ⟨(genesisChain_spec B').1, ?_⟩ bs
  intro h b hb
  rw [(genesisChain_spec B').2, Store.commit_byHeight] at hb
  split at hb
  · exact .inl (Option.some.inj hb).symm
  · cases hb

/-- The block sync of a node that holds the genesis block only, against a peer in
    the state `s`. -/
def initialBlockSync (B B' : Backend) (o : Oracles) (s : B.σ) : Option (Outcome B'.σ) :=
  Sync.doInitialBlockPoolSync B'.db o false (some (NetworkService.serve B.db s)) (genesisChain B')

theorem genesisChain_latest : B'.db.getLatestBlockHeight (genesisChain B') = .ok 0 := by
  rw [B'.getLatestBlockHeight_eq (genesisChain_spec B').1, (genesisChain_linked B').latest_eq]
  rfl

/-- All blocks of the chain are requested and processed in order. -/
theorem initialBlockSync_holds (hwf : B.Wf s) (hholds : (B.view s).Holds bs)
    (hlength : bs.length + 1 < 2 ^ 64) :
    initialBlockSync B B' o s = some (Sync.processReceivedBlocks B'.db o bs (genesisChain B')) := by
  have htheirs : (NetworkService.serve B.db s).lastBlockHeight = .ok (UInt64.ofNat bs.length) := by
    show B.db.getLatestBlockHeight s = _
    rw [B.getLatestBlockHeight_eq hwf, hholds.linked.latest_eq]
    rfl
  have hnat := toNat_ofNat_height (n := bs.length) (by omega)
  have hall : Sync.retrieveBlocks (NetworkService.serve B.db s) (bs.length + 1)
      (UInt64.ofNat bs.length) 0 [] = some (.ok bs) :=
    retrieveBlocks_holds (k := 0) hwf hholds hlength (by omega) (by omega) []
  simp only [initialBlockSync, Sync.doInitialBlockPoolSync, genesisChain_latest, htheirs,
    Bool.false_eq_true, if_false, UInt64.sub_zero, hnat, hall]
  split
  · rfl
  · next hnone =>
      -- there is nothing above the genesis block
      have hzero : bs.length = 0 := by
        rw [gt_iff_lt, UInt64.lt_iff_toNat_lt, hnat] at hnone
        have h0 : (0 : UInt64).toNat = 0 := rfl
        omega
      obtain rfl := List.length_eq_zero_iff.mp hzero
      rfl

/-- Against a peer whose heights have run out a sync stores nothing, if it ends. -/
theorem initialBlockSync_last (hwf : B.Wf s) (hlatest : (B.view s).latest = some lastHeight)
    {out : Outcome B'.σ} (h : initialBlockSync B B' o s = some out) :
    out.state = genesisChain B' := by
  have htheirs : (NetworkService.serve B.db s).lastBlockHeight = .ok lastHeight := by
    show B.db.getLatestBlockHeight s = _
    rw [B.getLatestBlockHeight_eq hwf, hlatest]
    rfl
  have hnever : ∀ blocks, Sync.retrieveBlocks (NetworkService.serve B.db s) (lastHeight.toNat + 1)
      lastHeight 0 [] ≠ some (.ok blocks) :=
    retrieveBlocks_last B.db s (by decide) (by decide) []
  simp only [initialBlockSync, Sync.doInitialBlockPoolSync, genesisChain_latest, htheirs,
    Bool.false_eq_true, if_false, UInt64.sub_zero] at h
  rw [if_pos (by decide)] at h
  split at h
  · cases h
  · obtain rfl := Option.some.inj h
    rfl
  · next blocks heq => exact absurd heq (hnever blocks)

/-- The node in the state `s'` has the latest height and the blocks of the peer in
    the state `s`. -/
def SameChain (B B' : Backend) (s : B.σ) (s' : B'.σ) : Prop :=
  B'.db.getLatestBlockHeight s' = B.db.getLatestBlockHeight s ∧
    ∀ h, B'.db.fetchBlockByHeight h s' = B.db.fetchBlockByHeight h s

theorem sameChain_of_view {s' : B'.σ} (hwf : B.Wf s) (hwf' : B'.Wf s')
    (hview : B'.view s' = B.view s) : SameChain B B' s s' := by
  constructor
  · rw [B'.getLatestBlockHeight_eq hwf', hview, B.getLatestBlockHeight_eq hwf]
  · intro h
    rw [B'.fetchBlockByHeight_eq h hwf', hview, B.fetchBlockByHeight_eq h hwf]

/-- The sync ends, and the node has the peer's chain. -/
def Reproduces (B B' : Backend) (o : Oracles) (s : B.σ) : Prop :=
  ∃ out, initialBlockSync B B' o s = some out ∧ out.result = .ok () ∧ SameChain B B' s out.state

theorem MinedChain.validated (h : MinedChain B o bs s) :
    ∀ b ∈ bs, ∃ t, validateBlock B.db o b t = .ok () := by
  induction h with
  | genesis => simp
  | mine signer timestamp txs randomness randomnessRound chain hlatest hhead hmine hvalid hrec ih =>
      intro b hb
      rcases List.mem_append.mp hb with hb | hb
      · exact ih b hb
      · obtain rfl := List.mem_singleton.mp hb
        exact ⟨_, hvalid⟩

/-- `ValidateBlock` does not accept the genesis block, which proves no last hash. -/
theorem ne_genesisBlock_of_validateBlock {σ : Type} {db : Database σ} {block : Block} {t : σ}
    (h : validateBlock db o block t = .ok ()) : block ≠ genesisBlock := by
  rintro rfl
  obtain ⟨header, head, hacc⟩ := validateBlock_accepted h
  obtain rfl : genesisHeader = header := Option.some.inj hacc.header_eq
  obtain ⟨proof, hproof, -⟩ := hacc.lastHash_inTree
  cases hproof

theorem unsalted_of_reproduces (h : MinedChain B o bs s) (hrep : Reproduces B B' o s) :
    bs.length + 1 < 2 ^ 64 ∧ ∀ b ∈ bs, Unsalted o b := by
  obtain ⟨hwf, hholds, hlast⟩ := h.holds
  obtain ⟨out, hout, -, hheight, hsame⟩ := hrep
  have hlength : bs.length + 1 < 2 ^ 64 := by
    -- at the last height the node stays with the genesis block
    by_contra hlong
    have hlatest := hlast (by omega)
    rw [initialBlockSync_last B' hwf hlatest hout, B.getLatestBlockHeight_eq hwf, hlatest,
      genesisChain_latest] at hheight
    exact absurd (Except.ok.inj hheight) (by decide)
  refine ⟨hlength, ?_⟩
  intro b hb
  have hbs := hholds (by omega)
  obtain rfl := Option.some.inj ((initialBlockSync_holds B' hwf hbs hlength).symm.trans hout)
  obtain ⟨hwf', hreceived⟩ := received_processReceivedBlocks B' bs
  obtain ⟨i, hi⟩ := List.mem_iff_getElem?.mp hb
  have hat := hsame (UInt64.ofNat (i + 1))
  rw [B.fetchBlockByHeight_eq _ hwf, hbs.byHeight_eq i b hi, B'.fetchBlockByHeight_eq _ hwf'] at hat
  obtain ⟨t, hvalid⟩ := h.validated b hb
  rcases hreceived _ b (orErr_eq_ok.mp hat) with hgenesis | hunsalted
  · exact absurd hgenesis (ne_genesisBlock_of_validateBlock hvalid)
  · exact hunsalted

/-- Initial sync reproduces a mined chain exactly if the proofs of all its last
    hashes verify without salt and its heights have not run out. -/
theorem reproduces_iff_unsalted (hkeys : ∀ h, B.storable h → B'.storable h)
    (h : MinedChain B o bs s) :
    Reproduces B B' o s ↔ bs.length + 1 < 2 ^ 64 ∧ ∀ b ∈ bs, Unsalted o b := by
  constructor
  · exact unsalted_of_reproduces B' h
  · rintro ⟨hlength, hunsalted⟩
    obtain ⟨hwf, hholds, -⟩ := h.holds
    obtain ⟨out, rfl, hresult, hwf', hview⟩ :=
      mirrors_of_unsalted B' hkeys h (by omega) hunsalted
    exact ⟨_, initialBlockSync_holds B' hwf (hholds (by omega)) hlength, hresult,
      sameChain_of_view B' hwf hwf' hview⟩

/-- A peer that has mined nothing is reproduced whatever hashes the node can store. -/
theorem reproduces_genesis : Reproduces B B' o (genesisChain B) := by
  obtain ⟨hwf, hholds, -⟩ := (MinedChain.genesis (o := o)).holds
  refine ⟨_, initialBlockSync_holds B' hwf (hholds (by decide)) (by decide), rfl, ?_⟩
  refine sameChain_of_view B' hwf (genesisChain_spec B').1 ?_
  rw [(genesisChain_spec B).2]
  exact (genesisChain_spec B').2

end Syncs

/-- Initial sync reproduces the chain a peer has mined only if nothing has been
    mined: no block that `ValidateBlock` accepts is accepted by
    `processReceivedBlock`, which checks the salted proof without salt. -/
theorem initialBlockSync_reproduces_iff (B B' : Backend) (o : Oracles) (hlib : o.MerkleLibrary)
    (bs : List Block) (s : B.σ) (h : MinedChain B o bs s) :
    (Reproduces B B' o s ↔ bs = []) ∧
      ∀ block t t', validateBlock B.db o block t = .ok () →
        (Sync.processReceivedBlock B'.db o block t').result ≠ .ok () := by
  constructor
  · constructor
    · intro hrep
      obtain ⟨-, hunsalted⟩ := unsalted_of_reproduces B' h hrep
      refine List.eq_nil_iff_forall_not_mem.mpr ?_
      intro b hb
      obtain ⟨t, hvalid⟩ := h.validated b hb
      exact not_unsalted_of_validateBlock hlib hvalid (hunsalted b hb)
    · intro hnil
      cases h with
      | genesis => exact reproduces_genesis B'
      | mine => simp at hnil
  · intro block t t' hvalid hresult
    have hnot := not_unsalted_of_validateBlock hlib hvalid
    cases hcheck : Sync.checkReceivedBlock B'.db o block t' with
    | error e =>
        rw [Sync.processReceivedBlock, hcheck] at hresult
        cases hresult
    | ok _ => exact hnot (unsalted_of_checkReceivedBlock hcheck)

/-! ### A peer that has mined one block -/

/-- Services with the Merkle library of `Lib.Merkle` over an identity for a hash. -/
def Oracles.salted : Oracles :=
  { Oracles.permissive with
    verifyProofUsing := fun data salt proof pollard =>
      .ok (Merkle.verify (fun b => b) data salt (proof.hashes.getD []) proof.index.toNat pollard)
    unmarshalTask := fun data => .ok ⟨0, [], [], data, []⟩ }

theorem salted_merkleLibrary : Oracles.salted.MerkleLibrary :=
  ⟨⟨fun _ _ _ _ => rfl⟩, fun _ _ h => h⟩

def soleSigner : Signer := ⟨[1], fun _ => .ok [], .ofNat 1⟩

/-- A transaction of the mempool, with no Merkle proof yet. -/
def pooledTx : Transaction := ⟨Text.textBytes (Text.hexEncode [7]), ⟨none, 0⟩, 0, [7]⟩

/-- What the sole miner makes of one transaction on the genesis block. -/
def firstMined : Block :=
  match mineBlock .salted soleSigner 0 (some genesisHeader) [pooledTx] [] 1 with
  | .ok (some block) => block
  | _ => genesisBlock

/-- The peer's chain with that block. -/
def firstMinedChain : Memory.Cache :=
  (storeBlock Memory.database .salted firstMined (genesisChain Memory.backend)).state

theorem minedChain_firstMined : MinedChain Memory.backend .salted [firstMined] firstMinedChain := by
  have hmined : mineBlock .salted soleSigner 0 (some genesisHeader) [pooledTx] [] 1
      = .ok (some firstMined) := by decide +kernel
  have hrecorded : recorded Memory.database .salted firstMined (genesisChain Memory.backend)
      = some (firstMined.header.getD genesisHeader) := by decide +kernel
  have hhead : Memory.fetchBlockHeaderByHeight 0 (genesisChain Memory.backend)
      = .ok (some genesisHeader) := by decide +kernel
  exact .mine soleSigner 0 [pooledTx] [] 1 .genesis (genesisChain_latest Memory.backend) hhead
    hmined (by decide +kernel) hrecorded

theorem initialBlockSync_reproduces_genesis_only :
    Reproduces Memory.backend Memory.backend .salted (genesisChain Memory.backend) ∧
      ¬ Reproduces Memory.backend Memory.backend .salted firstMinedChain := by
  constructor
  · exact (initialBlockSync_reproduces_iff Memory.backend Memory.backend .salted
      salted_merkleLibrary [] _ .genesis).1.mpr rfl
  · intro hrep
    have hnil := (initialBlockSync_reproduces_iff Memory.backend Memory.backend .salted
      salted_merkleLibrary [firstMined] _ minedChain_firstMined).1.mp hrep
    simp at hnil

/-- The node stays at height 0 while the peer is at height 1. -/
theorem not_reproduces_firstMined : Oracles.salted.MerkleLibrary ∧
    MinedChain Memory.backend .salted [firstMined] firstMinedChain ∧
    ¬ Reproduces Memory.backend Memory.backend .salted firstMinedChain := by
  refine ⟨salted_merkleLibrary, minedChain_firstMined, ?_⟩
  rintro ⟨out, hout, -, hheight, -⟩
  have hnode : (initialBlockSync Memory.backend Memory.backend .salted firstMinedChain).map
      (fun out => Memory.getLatestBlockHeight out.state) = some (.ok 0) := by decide +kernel
  have hpeer : Memory.getLatestBlockHeight firstMinedChain = .ok 1 := by decide +kernel
  rw [hout] at hnode
  have hzero : Memory.getLatestBlockHeight out.state = .ok 0 := Option.some.inj hnode
  have hone : Memory.getLatestBlockHeight out.state = .ok 1 := hheight.trans hpeer
  exact absurd (hzero.symm.trans hone) (by decide)

end Dione
