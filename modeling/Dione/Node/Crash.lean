/-
  Dione.Node.Crash

  Which received messages crash a node.

  CBOR leaves a pointer nil when its field is absent, and the handlers read through the
  pointers of a message as they go: the block, its header, the proposer, and then, as far
  as the checks of `ValidateBlock` let the block come, the Merkle proof of the last hash,
  the election proof and the transactions.  None of these reads asks first, and the
  goroutine that makes one ends the process.  `NilRead` has one case for each place.

  The other handlers read no pointer of a message, and a node's own state has none to
  trip over: what a node stores and logs is complete (`HandlersReady`).
-/

import Dione.Database.Lmdb
import Dione.Miner.Validity
import Dione.Node.Rounds
import Dione.Node.Atomicity

namespace Dione

open Guard Text BlockChain Consensus ConsensusManager

/-! ## Calls that do not panic -/

/-- The call returns, be it with an error. -/
def Calm {α : Type} (x : Except Err α) : Prop := ∀ e, x = .error e → e.isPanic = false

namespace Calm

variable {α β : Type} {x : Except Err α}

theorem ne_panic (h : Calm x) {p : Err} (hp : p.isPanic = true) : x ≠ .error p := fun heq => by
  rw [h p heq] at hp
  cases hp

theorem ne_nilDeref (h : Calm x) : x ≠ .error .nilDeref := h.ne_panic rfl

theorem ne_divisionByZero (h : Calm x) : x ≠ .error .divisionByZero := h.ne_panic rfl

theorem ok (a : α) : Calm (.ok a) := fun _ h => by
  cases h

theorem error {e : Err} (he : e.isPanic = false) : Calm (.error e : Except Err α) := fun e' h => by
  rw [← Except.error.inj h]
  exact he

theorem bind (hx : Calm x) {f : α → Except Err β} (hf : ∀ a, x = .ok a → Calm (f a)) :
    Calm (x >>= f) := by
  intro e he
  rcases bind_eq_error.mp he with herror | ⟨a, ha, herror⟩
  · exact hx e herror
  · exact hf a ha e herror

theorem require {p : Prop} [Decidable p] {text : String} : Calm (require p (Err.msg text)) := by
  intro e he
  rw [← (require_eq_error.mp he).2]
  rfl

theorem wrapErr (hx : Calm x) (text : String) : Calm (wrapErr text x) := by
  intro e he
  cases x with
  | ok a => cases he
  | error e' =>
      have hcalm := hx e' rfl
      simp only [Dione.wrapErr, Except.mapError, hcalm] at he
      rw [← Except.error.inj he]
      rfl

theorem flattenErr (hx : Calm x) (text : String) : Calm (flattenErr text x) := by
  intro e he
  cases x with
  | ok a => cases he
  | error e' =>
      have hcalm := hx e' rfl
      simp only [Dione.flattenErr, Except.mapError, hcalm] at he
      rw [← Except.error.inj he]
      rfl

end Calm

/-- Library calls are total on arguments that are not nil. -/
structure Oracles.Total (o : Oracles) : Prop where
  extractPublicKey : ∀ peer, Calm (o.extractPublicKey peer)
  verify : ∀ key data signature, Calm (o.verify key data signature)
  marshalBinary : ∀ peer, Calm (o.marshalBinary peer)
  verifyProofUsing : ∀ data salt proof pollard, Calm (o.verifyProofUsing data salt proof pollard)
  getMinerStake : ∀ miner, Calm (o.getMinerStake miner)
  getTotalStake : Calm o.getTotalStake
  entry : ∀ round, Calm (o.entry round)
  unmarshalTask : ∀ data, Calm (o.unmarshalTask data)
  unmarshalBlock : ∀ payload, Calm (o.unmarshalBlock payload)
  validations : ∀ typ name validate, getValidationMethod o typ name = some validate →
    ∀ task, Calm (validate task)

/-- The same of a database in the state `s`, which gives out no nil header. -/
structure Database.Readable {σ : Type} (db : Database σ) (s : σ) : Prop where
  latest : Calm (db.getLatestBlockHeight s)
  header : ∀ h, Calm (db.fetchBlockHeaderByHeight h s)
  header_ne : ∀ h, db.fetchBlockHeaderByHeight h s ≠ .ok none

/-! ## The pieces of `ValidateBlock` -/

/-- The arithmetic of the election can divide by zero, and that is all. -/
theorem bigDiv_eq_error {x y : Int} {e : Err} (h : bigDiv x y = .error e) :
    e = .divisionByZero := by
  unfold bigDiv at h
  split at h
  · exact (Except.error.inj h).symm
  · cases h

theorem winLoop_eq_error {lhs : Int} {left : Nat} {p : ElectionProof.Poiss} {j : Int64} {e : Err}
    (h : ElectionProof.winLoop lhs left p j = .error e) : e = .divisionByZero := by
  induction left generalizing p j with
  | zero => cases h
  | succ left ih =>
      rw [ElectionProof.winLoop] at h
      split at h
      · rcases bind_eq_error.mp h with hnext | ⟨p', -, hloop⟩
        · rcases bind_eq_error.mp hnext with hdiv | ⟨pmf, -, hpure⟩
          · exact bigDiv_eq_error hdiv
          · cases hpure
        · exact ih hloop
      · cases h

theorem computeWinCount_eq_error {sum256 : Bytes → Bytes} {ep : ElectionProof}
    {power totalPower : Int} {e : Err}
    (h : ep.computeWinCount sum256 power totalPower = .error e) : e = .divisionByZero := by
  rcases bind_eq_error.mp h with hlam | ⟨lam, -, h⟩
  · exact bigDiv_eq_error hlam
  · rcases bind_eq_error.mp h with hpoiss | ⟨p, -, hloop⟩
    · rcases bind_eq_error.mp hpoiss with hdiv | ⟨elam, -, hpure⟩
      · exact bigDiv_eq_error hdiv
      · cases hpure
    · exact winLoop_eq_error hloop

namespace Oracles.Total

variable {o : Oracles} (ho : o.Total)

include ho

theorem getStakeInfo (miner : Address) : Calm (getStakeInfo o miner) :=
  (ho.getMinerStake miner).bind fun _ _ => ho.getTotalStake.bind fun _ _ => .ok _

theorem isMinerEligibleToProposeBlock (miner : Address) :
    Calm (isMinerEligibleToProposeBlock o miner) :=
  (ho.getMinerStake miner).bind fun _ _ => .require

theorem verifyVRF (worker : PeerID) (vrfBase vrfproof : Bytes) :
    Calm (verifyVRF o worker vrfBase vrfproof) :=
  (ho.extractPublicKey worker).bind fun key _ =>
    (ho.verify key vrfBase vrfproof).bind fun _ _ => .require

theorem validateTransaction (header : BlockHeader) (tx : Transaction) :
    Calm (validateTransaction o header (some tx)) := by
  have hverify : Calm (verifyTx o header (some tx)) :=
    (Calm.ok tx).bind fun tx' _ => Calm.require.bind fun _ _ =>
      ((ho.verifyProofUsing tx'.hash true tx'.merkleProof [header.hash]).flattenErr _).bind
        fun _ _ => Calm.require.bind fun _ _ => .require
  refine (hverify.wrapErr _).bind fun _ _ => (Calm.ok tx).bind fun tx' _ =>
    ((ho.unmarshalTask tx'.data).wrapErr _).bind fun task _ => ?_
  split
  · next validate hmethod => exact (ho.validations _ _ validate hmethod task).wrapErr _
  · exact .ok ()

/-- No transaction panics but a nil one. -/
theorem eq_nilDeref_of_validateTransactions {header : BlockHeader} {vs : List (Option Transaction)}
    {e : Err} (h : validateTransactions o header vs = .error e) (hpanic : e.isPanic = true) :
    e = .nilDeref := by
  induction vs generalizing e with
  | nil => cases h
  | cons v vs ih =>
      have hfirst : ∀ e', Dione.validateTransaction o header v = .error e' → e'.isPanic = true →
          e' = .nilDeref := by
        intro e' he' hpanic'
        cases v with
        | none => exact (Except.error.inj he').symm
        | some tx =>
            rw [ho.validateTransaction header tx e' he'] at hpanic'
            cases hpanic'
      rw [validateTransactions] at h
      split at h
      · exact ih h hpanic
      · next e₁ hv _ =>
          obtain rfl := Except.error.inj h
          exact hfirst _ hv hpanic
      · next e₁ e₂ hv hvs =>
          split at h
          · obtain rfl := Except.error.inj h
            exact ih hvs hpanic
          · obtain rfl := Except.error.inj h
            exact hfirst _ hv hpanic

/-- Every nil transaction ends the node, whatever the others do. -/
theorem validateTransactions_eq_nilDeref (header : BlockHeader) (vs : List (Option Transaction)) :
    validateTransactions o header vs = .error .nilDeref ↔ none ∈ vs := by
  induction vs with
  | nil => simp [validateTransactions]
  | cons v vs ih =>
      rw [validateTransactions]
      cases v with
      | none =>
          have hnone : Dione.validateTransaction o header none = .error .nilDeref := rfl
          rw [hnone]
          cases hvs : validateTransactions o header vs with
          | ok _ => simp
          | error e =>
              by_cases hpanic : e.isPanic = true
              · simp [ho.eq_nilDeref_of_validateTransactions hvs hpanic]
              · simp [hpanic]
      | some tx =>
          have hcalm := ho.validateTransaction header tx
          rw [List.mem_cons, or_iff_right (Option.some_ne_none tx).symm, ← ih]
          cases htx : Dione.validateTransaction o header (some tx) with
          | ok _ => rfl
          | error e =>
              have hne : e ≠ .nilDeref := fun heq => by
                have := hcalm e htx
                rw [heq] at this
                cases this
              cases hvs : validateTransactions o header vs with
              | ok _ => simp [hne]
              | error e' =>
                  by_cases hpanic : e'.isPanic = true
                  · simp [hpanic]
                  · have hne' : e' ≠ .nilDeref := fun heq => hpanic (by rw [heq]; rfl)
                    simp [hpanic, hne, hne']

end Oracles.Total

/-! ## Reading through a nil pointer -/

/-- `ValidateBlock` comes to read a pointer of the block that is nil. -/
inductive NilRead {σ : Type} (db : Database σ) (o : Oracles) (s : σ) (block : Block) : Prop where
  | header (h : block.header = none)
  | proposer {header : BlockHeader} (hheader : block.header = some header)
      (h : header.proposer = none)
  /-- The signature is valid and the last hash is that of the head. -/
  | lastHashProof {header : BlockHeader} {proposer : PeerID} (hheader : block.header = some header)
      (hproposer : header.proposer = some proposer)
      (hsigned : ∃ pubkey, o.extractPublicKey proposer = .ok pubkey ∧
        o.verify pubkey header.hash header.signature = .ok true)
      (hhead : ∃ head, IsHead db s head ∧ header.lastHash = head.hash)
      (h : header.lastHashProof = none)
  /-- So is the Merkle proof of the last hash. -/
  | electionProof {header : BlockHeader} {proposer : PeerID}
      (hheader : block.header = some header) (hproposer : header.proposer = some proposer)
      (hlinked : Linked db o s header proposer) (h : header.electionProof = none)
  /-- The proposer is eligible and wins. -/
  | data {header : BlockHeader} {proposer : PeerID} {ep : ElectionProof}
      (hheader : block.header = some header) (hproposer : header.proposer = some proposer)
      (hep : header.electionProof = some ep) (hlinked : Linked db o s header proposer)
      (heligible : isMinerEligibleToProposeBlock o header.proposerEth = .ok ())
      (hwins : Wins o proposer header.proposerEth
        ⟨ep.randomnessRound, header.height, ep.vrfProof⟩ ep.winCount)
      (h : none ∈ block.data)

section Validate

variable {σ : Type} {db : Database σ} {o : Oracles} {s : σ} {block : Block}

theorem validateBlock_eq_nilDeref (ho : o.Total) (hdb : db.Readable s) :
    validateBlock db o block s = .error .nilDeref ↔ NilRead db o s block := by
  have hextract := fun p => (ho.extractPublicKey p).ne_nilDeref
  have hverify := fun k d sig => (ho.verify k d sig).ne_nilDeref
  have hmarshal := fun p => (ho.marshalBinary p).ne_nilDeref
  have hproofs := fun d salt p r => (ho.verifyProofUsing d salt p r).ne_nilDeref
  have hentry := fun r => (ho.entry r).ne_nilDeref
  have hstakes := fun m => (ho.getStakeInfo m).ne_nilDeref
  have heligible := fun m => (ho.isMinerEligibleToProposeBlock m).ne_nilDeref
  have hvrf := fun w b p => (ho.verifyVRF w b p).ne_nilDeref
  have hlatest := hdb.latest.ne_nilDeref
  have hheader := fun h => (hdb.header h).ne_nilDeref
  have hcount : ∀ (ep : ElectionProof) (a b : Int),
      ep.computeWinCount o.sum256 a b ≠ .error .nilDeref := fun ep a b h => by
    cases computeWinCount_eq_error h
  simp only [validateBlock, bind_eq_error, deref_eq_ok, deref_eq_error, wrapErr_eq_ok,
    wrapErr_eq_nilDeref, require_eq_ok, require_eq_error, hextract, hverify, hmarshal, hproofs,
    hentry, hstakes, heligible, hvrf, hlatest, hheader, hcount,
    ho.validateTransactions_eq_nilDeref, reduceCtorEq, and_false, false_or, and_true]
  constructor
  · -- the reads in the order of the code
    rintro (hnone | ⟨header, hheader, hnone | ⟨proposer, hproposer, pubkey, hpubkey, _, hsigned,
      -, rfl, latest, hlatest, _, hfetch, rfl | ⟨head, rfl, -, hlast, hrest⟩⟩⟩)
    · exact .header hnone
    · exact .proposer hheader hnone
    · exact absurd hfetch (hdb.header_ne latest)
    · rcases hrest with hnone | ⟨proof, hproof, _, hverified, -, rfl, hrest⟩
      · exact .lastHashProof hheader hproposer ⟨pubkey, hpubkey, hsigned⟩
          ⟨head, ⟨latest, hlatest, hfetch⟩, hlast⟩ hnone
      · have hlinked : Linked db o s header proposer :=
          ⟨⟨pubkey, hpubkey, hsigned⟩, latest, head, proof, hlatest, hfetch, hlast, hproof,
            hverified⟩
        rcases hrest with hnone | ⟨ep, hep, -, hpositive, _, heligible, buf, hbuf, res, hres, _,
          hvrf, stakes, hstakes, _, hcount, -, rfl, hnone⟩
        · exact .electionProof hheader hproposer hlinked hnone
        · exact .data hheader hproposer hep hlinked heligible
            ⟨hpositive, ⟨buf, res, hbuf, hres, hvrf⟩, stakes, hstakes, hcount⟩ hnone
  · rintro (hnone | ⟨hheader, hnone⟩ | ⟨hheader, hproposer, ⟨pubkey, hpubkey, hsigned⟩,
      ⟨head, ⟨latest, hlatest, hfetch⟩, hlast⟩, hnone⟩ | ⟨hheader, hproposer, hlinked, hnone⟩ |
      ⟨hheader, hproposer, hep, hlinked, heligible, hwins, hnone⟩)
    · exact .inl hnone
    · exact .inr ⟨_, hheader, .inl hnone⟩
    · exact .inr ⟨_, hheader, .inr ⟨_, hproposer, pubkey, hpubkey, true, hsigned, (), rfl, latest,
        hlatest, some head, hfetch, .inr ⟨head, rfl, (), hlast, .inl hnone⟩⟩⟩
    · obtain ⟨⟨pubkey, hpubkey, hsigned⟩, latest, head, proof, hlatest, hfetch, hlast, hproof,
        hverified⟩ := hlinked
      exact .inr ⟨_, hheader, .inr ⟨_, hproposer, pubkey, hpubkey, true, hsigned, (), rfl, latest,
        hlatest, some head, hfetch, .inr ⟨head, rfl, (), hlast, .inr ⟨proof, hproof, true,
          hverified, (), rfl, .inl hnone⟩⟩⟩⟩
    · obtain ⟨⟨pubkey, hpubkey, hsigned⟩, latest, head, proof, hlatest, hfetch, hlast, hproof,
        hverified⟩ := hlinked
      obtain ⟨hpositive, ⟨buf, res, hbuf, hres, hvrf⟩, stakes, hstakes, hcount⟩ := hwins
      exact .inr ⟨_, hheader, .inr ⟨_, hproposer, pubkey, hpubkey, true, hsigned, (), rfl, latest,
        hlatest, some head, hfetch, .inr ⟨head, rfl, (), hlast, .inr ⟨proof, hproof, true,
          hverified, (), rfl, .inr ⟨_, hep, (), hpositive, (), heligible, buf, hbuf, res, hres, (),
            hvrf, stakes, hstakes, _, hcount, (), rfl, hnone⟩⟩⟩⟩⟩

/-- `handlePrePrepare` reads the block of a message, up to its proposer, before anything
    else; a block of the node's own is not validated. -/
theorem handlePrePrepare_eq_nilDeref (ho : o.Total) (hdb : db.Readable s) {address : PeerID}
    {fromPeer : PeerID} {payload : Option Block} :
    handlePrePrepare db o address s fromPeer payload = .error .nilDeref ↔
      ∀ blk, payload = some blk → NilRead db o s blk ∧
        ∀ header, blk.header = some header → header.proposer ≠ some address := by
  cases payload with
  | none => simp [handlePrePrepare, deref]
  | some blk =>
      simp only [Option.some.injEq, forall_eq']
      cases hheader : blk.header with
      | none => simp [handlePrePrepare, hheader, deref, NilRead.header hheader]
      | some header =>
          cases hproposer : header.proposer with
          | none =>
              simp [handlePrePrepare, hheader, hproposer, deref, NilRead.proposer hheader hproposer]
          | some proposer =>
              by_cases hown : proposer = address
              · simp [handlePrePrepare, hheader, hproposer, hown, pure, Except.pure]
              · rw [← validateBlock_eq_nilDeref ho hdb]
                cases hvalid : validateBlock db o blk s with
                | ok _ => simp [handlePrePrepare, hheader, hproposer, hown, valid, hvalid]
                | error e =>
                    cases e <;> simp [handlePrePrepare, hheader, hproposer, hown, valid, hvalid,
                      Err.isPanic, pure, Except.pure]

end Validate

/-! ## Storing -/

/-- A backend whose writes and look-ups fail without a panic. -/
structure Backend.Total (B : Backend) : Prop where
  hasBlock : ∀ (h : Bytes) (s : B.σ), Calm (B.db.hasBlock h s)
  storeBlock : ∀ (b : Block) (s : B.σ), b.header ≠ none → Calm (B.db.storeBlock b s).1

theorem Memory.backend_total : Memory.backend.Total where
  hasBlock h c := .ok _
  storeBlock b c hheader := by
    obtain ⟨header, hheader⟩ := Option.ne_none_iff_exists'.mp hheader
    show Calm (Memory.storeBlock b c).1
    simp only [Memory.storeBlock, hheader]
    exact .ok ()

theorem Lmdb.calm_get (key : Str) (e : Lmdb.Env) : Calm (Lmdb.get key e) := by
  unfold Lmdb.get
  split
  · exact .error rfl
  · exact .ok _

theorem Lmdb.calm_put (key : Str) (value : Bytes) (e : Lmdb.Env) : Calm (Lmdb.put key value e) := by
  unfold Lmdb.put
  split
  · exact .ok _
  · exact .error rfl

theorem Lmdb.backend_total (c : Lmdb.Codec) : (Lmdb.backend c).Total where
  hasBlock h e := (Lmdb.calm_get _ e).bind fun _ _ => .ok _
  storeBlock b e hheader := by
    obtain ⟨header, hheader⟩ := Option.ne_none_iff_exists'.mp hheader
    have hput : Calm (Lmdb.putBlock c header b e) :=
      (Lmdb.calm_put _ _ e).bind fun e' _ => Lmdb.calm_put _ _ e'
    show Calm (Lmdb.storeBlock c b e).1
    simp only [Lmdb.storeBlock, hheader]
    split
    · next err herr => exact .error (hput err herr)
    · split
      · next err herr => exact .error (Lmdb.calm_put _ _ _ err herr)
      · exact .ok ()

/-- Every block of the store has a header. -/
def Store.Headed (st : Store) : Prop := ∀ h b, st.byHeight h = some b → b.header ≠ none

section Backend

variable {B : Backend} {o : Oracles} {s : B.σ}

theorem readable_of_headed (hwf : B.Wf s) (hheaded : (B.view s).Headed) : B.db.Readable s where
  latest := by
    rw [B.getLatestBlockHeight_eq hwf]
    cases (B.view s).latest with
    | none => exact .error rfl
    | some latest => exact .ok latest
  header h := by
    rw [B.fetchBlockHeaderByHeight_eq h hwf]
    cases (B.view s).byHeight h with
    | none => exact .error rfl
    | some b => exact .ok b.header
  header_ne h := by
    rw [B.fetchBlockHeaderByHeight_eq h hwf, ne_eq, orErr_eq_ok, Option.map_eq_some_iff]
    rintro ⟨b, hb, hnone⟩
    exact hheaded h b hb hnone

theorem checkBeforeStore_eq_nilDeref {header : BlockHeader} {block : Block} :
    checkBeforeStore B.db o header block s = .error .nilDeref ↔
      header.height ≠ 0 ∧ validateBlock B.db o block s = .error .nilDeref := by
  unfold checkBeforeStore
  split
  · next hheight => simp [wrapErr_eq_nilDeref, hheight]
  · next hheight => simp [hheight]

/-- What passes the checks is written or refused. -/
theorem storeBlock_ne_nilDeref_of_checked (hB : B.Total) (hwf : B.Wf s) {header : BlockHeader}
    {block : Block} (hheader : block.header = some header)
    (hhas : B.db.hasBlock header.hash s = .ok false)
    (hchecked : checkBeforeStore B.db o header block s = .ok ()) :
    (storeBlock B.db o block s).result ≠ .error .nilDeref := by
  have hwrite := hB.storeBlock block s (by simp [hheader])
  cases hwritten : B.db.storeBlock block s with
  | mk result s' =>
      cases result with
      | error e =>
          rw [hwritten] at hwrite
          simp only [storeBlock, hheader, hhas, hchecked, hwritten]
          exact hwrite.ne_nilDeref
      | ok _ =>
          have hrec : recorded B.db o block s = some header :=
            recorded_eq_some.mpr ⟨hheader, hhas, hchecked, by rw [hwritten]⟩
          obtain ⟨s', pub, hst, -⟩ := storeBlock_of_recorded B hwf hrec
          rw [hst]
          exact (Calm.ok ()).ne_nilDeref

/-- `StoreBlock` reads the header of a block, and validates it if it is not there yet and
    not of height 0. -/
theorem storeBlock_eq_nilDeref (ho : o.Total) (hB : B.Total) (hwf : B.Wf s)
    (hheaded : (B.view s).Headed) (block : Block) :
    (storeBlock B.db o block s).result = .error .nilDeref ↔
      ∀ header, block.header = some header → B.db.hasBlock header.hash s = .ok false ∧
        header.height ≠ 0 ∧ NilRead B.db o s block := by
  have hvalidate : validateBlock B.db o block s = .error .nilDeref ↔ NilRead B.db o s block :=
    validateBlock_eq_nilDeref ho (readable_of_headed hwf hheaded)
  cases hheader : block.header with
  | none => simp [storeBlock, hheader]
  | some header =>
      simp only [Option.some.injEq, forall_eq', ← hvalidate, ← checkBeforeStore_eq_nilDeref]
      cases hhas : B.db.hasBlock header.hash s with
      | error e =>
          have hne : e ≠ .nilDeref := fun heq =>
            (hB.hasBlock header.hash s).ne_nilDeref (heq ▸ hhas)
          simp [storeBlock, hheader, hhas, hne]
      | ok found =>
          cases found with
          | true => simp [storeBlock, hheader, hhas]
          | false =>
              cases hchecked : checkBeforeStore B.db o header block s with
              | error e => simp [storeBlock, hheader, hhas, hchecked]
              | ok _ => simp [storeBlock_ne_nilDeref_of_checked hB hwf hheader hhas hchecked]

end Backend

/-! ## The handlers -/

/-- A message a node receives, decoded as far as the model has it so. -/
inductive Incoming where
  | consensus (message : PubSubMessage)
  | newBlock (payload : Bytes)
  | newTransaction (payload : Option Transaction)

namespace Incoming

/-- The event of the node. -/
def event : Incoming → NodeEvent
  | consensus message => .consensus message
  | newBlock payload => .newBlock payload
  | newTransaction payload => .pool (.newTx payload)

/-- The nil pointers of the message, if any, are not read: they stand behind a check that
    the message does not pass. -/
def Guarded {σ : Type} (db : Database σ) (signer : Signer) (o : Oracles) (s : NodeState σ) :
    Incoming → Prop
  | consensus ⟨fromPeer, .prePrepare payload⟩ =>
    fromPeer = signer.peerID ∨ ∃ blk, payload = some blk ∧
      ((∃ header, blk.header = some header ∧ header.proposer = some signer.peerID) ∨
        ¬ NilRead db o s.chain blk)
  | newBlock payload => ∀ block, o.unmarshalBlock payload = .ok block →
    ∃ header, block.header = some header ∧ (db.hasBlock header.hash s.chain = .ok false →
      header.height ≠ 0 → ¬ NilRead db o s.chain block)
  | consensus _ | newTransaction _ => True

end Incoming

/-- The handlers of received messages: the node after, or a panic. -/
def NodeState.receive {σ : Type} (db : Database σ) (signer : Signer) (o : Oracles)
    (s : NodeState σ) : Incoming → Except Err (NodeState σ)
  | .consensus message => do
    let r ← handleConsensusMessage db o signer.peerID s.chain message s.consensus
    return { s with consensus := r.1 }
  | .newBlock payload =>
    let out := Sync.onNewBlock db o payload s.chain
    match out.result with
    | .ok () => .ok (s.stored out)
    -- an error is logged
    | .error e => if e.isPanic then .error e else .ok (s.stored out)
  | .newTransaction payload =>
    .ok { s with pool := { s.pool with mempool := s.pool.mempool.onNewTransaction o payload } }

section Receive

variable {σ : Type} {db : Database σ} {signer : Signer} {o : Oracles} {s : NodeState σ}

theorem NodeState.receive_consensus_eq_nilDeref {message : PubSubMessage} :
    s.receive db signer o (.consensus message) = .error .nilDeref ↔
      handleConsensusMessage db o signer.peerID s.chain message s.consensus
        = .error .nilDeref := by
  simp only [receive, bind_eq_error]
  constructor
  · rintro (h | ⟨_, -, h⟩)
    · exact h
    · cases h
  · exact Or.inl

theorem NodeState.receive_newBlock_eq_nilDeref {payload : Bytes} :
    s.receive db signer o (.newBlock payload) = .error .nilDeref ↔
      (Sync.onNewBlock db o payload s.chain).result = .error .nilDeref := by
  simp only [receive]
  split
  · next hresult => simp [hresult]
  · next e hresult =>
      rw [hresult]
      cases e <;> simp [Err.isPanic]

/-- A handler that returns makes the step of the node. -/
theorem NodeState.step_of_receive (rpc : RpcServices) {s' : NodeState σ} {m : Incoming}
    (h : s.receive db signer o m = .ok s') : s.step db signer rpc (o, m.event) = s' := by
  cases m with
  | newTransaction payload => exact Except.ok.inj h
  | consensus message =>
      simp only [receive, bind_eq_ok, pure_eq_ok_iff] at h
      obtain ⟨⟨cm, pubs⟩, hr, rfl⟩ := h
      simp only [Incoming.event, step, hr]
  | newBlock payload =>
      have hstored : s.stored (Sync.onNewBlock db o payload s.chain) = s' := by
        simp only [receive] at h
        split at h
        · exact Except.ok.inj h
        · split at h
          · cases h
          · exact Except.ok.inj h
      exact hstored

end Receive

/-- What the handlers rely on of the node's own state. -/
structure HandlersReady (B : Backend) (s : NodeState B.σ) : Prop where
  wf : B.Wf s.chain
  headed : (B.view s.chain).Headed
  rounds : RoundsOk s.consensus

namespace HandlersReady

variable {B : Backend} {s : NodeState B.σ}

theorem new (B : Backend) (minApprovals : Int64) :
    HandlersReady B (NodeState.new B minApprovals) where
  wf := (genesisChain_spec B).1
  headed := by
    show (B.view (genesisChain B)).Headed
    rw [(genesisChain_spec B).2]
    intro h b hb
    rw [Store.commit_byHeight] at hb
    split at hb
    · obtain rfl := Option.some.inj hb
      exact Option.some_ne_none _
    · cases hb
  rounds := roundsOk_of_empty rfl

theorem step (h : HandlersReady B s) (signer : Signer) (rpc : RpcServices)
    (oe : Oracles × NodeEvent) : HandlersReady B (s.step B.db signer rpc oe) := by
  rcases chain_step_cases signer rpc h.wf with hchain | ⟨o, block, hd, -, hrec, hwf, hview⟩
  · exact ⟨hchain ▸ h.wf, hchain ▸ h.headed, h.rounds.step oe⟩
  · refine ⟨hwf, ?_, h.rounds.step oe⟩
    rw [hview]
    intro height b hb
    rw [Store.commit_byHeight] at hb
    split at hb
    · -- what is recorded has a header
      obtain rfl := Option.some.inj hb
      rw [(recorded_eq_some.mp hrec).1]
      exact Option.some_ne_none hd
    · exact h.headed height b hb

theorem run (B : Backend) (signer : Signer) (rpc : RpcServices) (minApprovals : Int64)
    (evs : List (Oracles × NodeEvent)) :
    HandlersReady B
      (Run.exec (NodeState.step B.db signer rpc) (NodeState.new B minApprovals) evs) :=
  Run.exec_invariant (fun _ oe h => h.step signer rpc oe) (new B minApprovals) evs

/-- Logging a message that a handler lets through does not fail. -/
theorem handleConsensusMessage_eq_nilDeref (h : HandlersReady B s) {o : Oracles} {address : PeerID}
    {message : PubSubMessage} :
    handleConsensusMessage B.db o address s.chain message s.consensus = .error .nilDeref ↔
      admitted B.db o address s.chain message = .error .nilDeref := by
  cases hadmitted : admitted B.db o address s.chain message with
  | error e => simp [handleConsensusMessage, hadmitted]
  | ok m =>
      cases m with
      | none => simp [handleConsensusMessage, hadmitted, pure, Except.pure]
      | some cmsg =>
          obtain ⟨cm', pubs, hins, -⟩ :=
            insertOrWarn_spec (h.rounds.round cmsg.blockhash) (built_of_admitted hadmitted)
          simp [handleConsensusMessage, hadmitted, hins]

/-- A vote is checked without reading a pointer. -/
theorem handleVote_ne_nilDeref {σ : Type} {db : Database σ} {o : Oracles} {s : σ}
    {typ : MessageType} (htyp : typ = .prepare ∨ typ = .commit) {fromPeer : PeerID}
    {blockhash signature : Bytes} :
    handleVote db o s typ fromPeer blockhash signature ≠ .error .nilDeref := by
  rcases htyp with rfl | rfl
  · simp [handleVote, valid, pure, Except.pure]
  · simp [handleVote, valid, pure, Except.pure]

theorem admitted_eq_nilDeref (h : HandlersReady B s) {o : Oracles} (ho : o.Total) {signer : Signer}
    {message : PubSubMessage} :
    admitted B.db o signer.peerID s.chain message ≠ .error .nilDeref ↔
      (Incoming.consensus message).Guarded B.db signer o s := by
  have hdb := readable_of_headed h.wf h.headed
  obtain ⟨fromPeer, payload⟩ := message
  by_cases hself : fromPeer = signer.peerID
  · cases payload <;> simp [admitted, hself, Incoming.Guarded]
  · cases payload with
    | prePrepare block =>
        have hhandler : admitted B.db o signer.peerID s.chain ⟨fromPeer, .prePrepare block⟩
            = handlePrePrepare B.db o signer.peerID s.chain fromPeer block := if_neg hself
        rw [hhandler, ne_eq, handlePrePrepare_eq_nilDeref ho hdb]
        simp only [Incoming.Guarded, hself, false_or]
        cases block with
        | none => simp
        | some blk =>
            simp only [Option.some.injEq, forall_eq', exists_eq_left']
            rw [not_and_or, or_comm]
            simp
    | prepare blockhash signature =>
        simp only [admitted, if_neg hself, Incoming.Guarded, iff_true]
        exact handleVote_ne_nilDeref (.inl rfl)
    | commit blockhash signature =>
        simp only [admitted, if_neg hself, Incoming.Guarded, iff_true]
        exact handleVote_ne_nilDeref (.inr rfl)
    | newBlock block => simp [admitted, hself, Incoming.Guarded]
    | undecodable => simp [admitted, hself, Incoming.Guarded]

end HandlersReady

/-- Whatever has happened to a node, the handler of a received message reads no nil
    pointer iff those of the message are guarded. -/
theorem receive_ne_nilDeref_iff (B : Backend) (hB : B.Total) (signer : Signer) (rpc : RpcServices)
    (minApprovals : Int64) (evs : List (Oracles × NodeEvent)) (o : Oracles) (ho : o.Total)
    (m : Incoming) (s : NodeState B.σ)
    (hs : s = Run.exec (NodeState.step B.db signer rpc) (NodeState.new B minApprovals) evs) :
    s.receive B.db signer o m ≠ .error .nilDeref ↔ m.Guarded B.db signer o s := by
  have hready : HandlersReady B s := hs ▸ HandlersReady.run B signer rpc minApprovals evs
  cases m with
  | newTransaction payload => simp [NodeState.receive, Incoming.Guarded]
  | consensus message =>
      rw [← hready.admitted_eq_nilDeref ho, ne_eq, ne_eq,
        ← hready.handleConsensusMessage_eq_nilDeref, NodeState.receive_consensus_eq_nilDeref]
  | newBlock payload =>
      rw [ne_eq, NodeState.receive_newBlock_eq_nilDeref, Sync.onNewBlock, Incoming.Guarded]
      cases hdecoded : o.unmarshalBlock payload with
      | error e =>
          have hcalm := (ho.unmarshalBlock payload).ne_nilDeref
          rw [hdecoded] at hcalm
          simpa using hcalm
      | ok block =>
          dsimp only
          rw [storeBlock_eq_nilDeref ho hB hready.wf hready.headed]
          push Not
          simp

/-! ### Complete and incomplete messages -/

theorem salted_total : Oracles.salted.Total where
  extractPublicKey _ := .ok _
  verify _ _ _ := .ok _
  marshalBinary _ := .ok _
  verifyProofUsing _ _ _ _ := .ok _
  getMinerStake _ := .ok _
  getTotalStake := .ok _
  entry _ := .ok _
  unmarshalTask _ := .ok _
  unmarshalBlock _ := .error rfl
  validations _ _ _ h := by cases h

theorem firstMined_not_nilRead :
    ¬ NilRead Memory.database .salted (genesisChain Memory.backend) firstMined := by
  have hready := HandlersReady.new Memory.backend 1
  have hvalid : validateBlock Memory.database .salted firstMined (genesisChain Memory.backend)
      = .ok () := by decide +kernel
  intro hnil
  have hpanic := (validateBlock_eq_nilDeref salted_total
    (readable_of_headed hready.wf hready.headed)).mpr hnil
  cases hvalid.symm.trans hpanic

/-- The proposal of a complete block crashes nobody. -/
theorem receive_firstMined_ne_nilDeref :
    (NodeState.new Memory.backend 1).receive Memory.database otherSigner .salted
      (.consensus ⟨[1], .prePrepare (some firstMined)⟩) ≠ .error .nilDeref :=
  (receive_ne_nilDeref_iff Memory.backend Memory.backend_total otherSigner TxPool.noRpc 1 [] .salted
    salted_total _ _ rfl).mpr (.inr ⟨firstMined, rfl, .inr firstMined_not_nilRead⟩)

/-- A PrePrepare without a block crashes a node that has just started, and so does a
    NewBlock message with a block without a header. -/
theorem receive_absent_nilDeref :
    (NodeState.new Memory.backend 1).receive Memory.database otherSigner .salted
        (.consensus ⟨[1], .prePrepare none⟩) = .error .nilDeref ∧
      (NodeState.new Memory.backend 1).receive Memory.database otherSigner
        { Oracles.salted with unmarshalBlock := fun _ => .ok ⟨none, []⟩ } (.newBlock [])
          = .error .nilDeref :=
  ⟨rfl, rfl⟩

end Dione
