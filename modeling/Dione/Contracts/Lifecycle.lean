/-
  Dione.Contracts.Lifecycle

  The life of a dispute in `DioneDispute.sol`: begun once, voted on while it is open,
  finished once.

  `vote` and `finishDispute` take a dispute for existing when its initiator is not
  `address(0)`; `beginDispute` takes it for existing when its miner is not
  `address(0)`.  The two tests disagree on disputes against `address(0)`, which can
  be begun again at any time, finished or not.
-/

import Dione.Contracts.Voting

namespace Dione.Contracts

open Guard

/-- A dispute may become `d'` later in its life. -/
structure Dispute.Precedes (d d' : Dispute) : Prop where
  identity : d.disputeInitiator ≠ .zero →
    d'.miner = d.miner ∧ d'.disputeInitiator = d.disputeInitiator ∧ d'.timestamp = d.timestamp
  finished : d.finished = true → d'.finished = true ∧ d'.disputeResult = d.disputeResult

namespace Dispute.Precedes

theorem refl (d : Dispute) : d.Precedes d := ⟨fun _ => ⟨rfl, rfl, rfl⟩, fun h => ⟨h, rfl⟩⟩

theorem trans {d₁ d₂ d₃ : Dispute} (h₁ : d₁.Precedes d₂) (h₂ : d₂.Precedes d₃) :
    d₁.Precedes d₃ := by
  constructor
  · intro hexisting
    obtain ⟨hminer, hinitiator, htime⟩ := h₁.identity hexisting
    obtain ⟨hminer', hinitiator', htime'⟩ := h₂.identity (hinitiator ▸ hexisting)
    exact ⟨hminer'.trans hminer, hinitiator'.trans hinitiator, htime'.trans htime⟩
  · intro hfinished
    obtain ⟨hfinished', hresult⟩ := h₁.finished hfinished
    obtain ⟨hfinished'', hresult'⟩ := h₂.finished hfinished'
    exact ⟨hfinished'', hresult'.trans hresult⟩

end Dispute.Precedes

/-- Every dispute has become what it is in `w'` by living on. -/
def World.DisputesLiveOn (w w' : World) : Prop :=
  ∀ dhash, (w.dispute.disputes dhash).Precedes (w'.dispute.disputes dhash)

section Conditions

variable (D : Deployment) (evm : Evm)

/-- The transaction changes the votes of a dispute only by voting on it or finishing
    it, while it is unfinished. -/
def ChangesOpenVotes (w : World) (tx : Tx D) : Prop :=
  ∀ dhash, ((w.step D evm tx).dispute.disputes dhash).sum ≠ (w.dispute.disputes dhash).sum ∨
      ((w.step D evm tx).dispute.disputes dhash).voted ≠ (w.dispute.disputes dhash).voted →
    ((∃ voteStatus, tx.call = .dispute (.vote dhash voteStatus)) ∨
        tx.call = .dispute (.finishDispute dhash)) ∧
      (w.dispute.disputes dhash).finished = false

/-- Where a miner begins a dispute and the stored miner is `address(0)`, there is no
    dispute yet, or it is an open one against `address(0)`, without counted votes, that
    the same miner has begun at the same time. -/
def BeginsNew (w : World) (tx : Tx D) : Prop :=
  ∀ miner requestID, tx.call = .dispute (.beginDispute miner requestID) →
    let d := w.dispute.disputes (DioneDispute.disputeHash evm miner requestID)
    d.miner = .zero → w.staking.isMiner tx.msg.sender = true →
    d.disputeInitiator = .zero ∨
      miner = .zero ∧ d.disputeInitiator = tx.msg.sender ∧ d.timestamp = tx.msg.timestamp ∧
        d.finished = false ∧ d.sum = 0

end Conditions

/-! ## What a call does -/

/-- What a call does to the storage of the dispute contract. -/
inductive DisputeChange (evm : Evm) (msg : Msg) (w : World) : Call → DioneDispute → Prop where
  | nothing (call : Call) : DisputeChange evm msg w call w.dispute
  | begun (miner : Address) (requestID : Uint256)
      (hfree : (w.dispute.disputes (DioneDispute.disputeHash evm miner requestID)).miner = .zero)
      (hminer : w.staking.isMiner msg.sender = true) :
      DisputeChange evm msg w (.dispute (.beginDispute miner requestID))
        (w.dispute.setDispute (DioneDispute.disputeHash evm miner requestID)
          (DioneDispute.begun (DioneDispute.disputeHash evm miner requestID) miner msg
            (w.dispute.disputes (DioneDispute.disputeHash evm miner requestID))))
  | voted (dhash : Bytes32) (voteStatus : Bool) (sum : Int256)
      (hexisting : (w.dispute.disputes dhash).disputeInitiator ≠ .zero)
      (hunfinished : (w.dispute.disputes dhash).finished = false) :
      DisputeChange evm msg w (.dispute (.vote dhash voteStatus))
        (w.dispute.setDispute dhash { w.dispute.disputes dhash with
          sum := sum, voted := (w.dispute.disputes dhash).voted ++ [msg.sender] })
  | finished (dhash : Bytes32) (hexisting : (w.dispute.disputes dhash).disputeInitiator ≠ .zero)
      (hunfinished : (w.dispute.disputes dhash).finished = false) :
      DisputeChange evm msg w (.dispute (.finishDispute dhash))
        (w.dispute.setDispute dhash (DioneDispute.closed msg (w.dispute.disputes dhash)))

theorem DioneDispute.closed_identity (msg : Msg) (d : Dispute) :
    (closed msg d).miner = d.miner ∧ (closed msg d).disputeInitiator = d.disputeInitiator ∧
      (closed msg d).timestamp = d.timestamp := by
  unfold closed
  split <;> exact ⟨rfl, rfl, rfl⟩

section Calls

variable {D : Deployment} {evm : Evm} {msg : Msg} {w w' : World} {tx : Tx D}

theorem disputeChange_of_run {call : Call} (h : call.run D evm msg w = .ok w') :
    DisputeChange evm msg w call w'.dispute := by
  cases call with
  | token c =>
      rw [dispute_eq_of_token h]
      exact .nothing _
  | staking c =>
      rw [dispute_eq_of_staking h]
      exact .nothing _
  | oracle c =>
      rw [dispute_eq_of_oracle h]
      exact .nothing _
  | dispute c =>
      cases c with
      | beginDispute miner requestID =>
          obtain ⟨evs, hbegin⟩ := beginDispute_run h
          obtain ⟨hfree, hminer, hw, -⟩ := DioneDispute.beginDispute_eq_ok.mp hbegin
          rw [← hw]
          exact .begun miner requestID hfree hminer
      | vote dhash voteStatus =>
          obtain ⟨evs, hvote⟩ := vote_run h
          obtain ⟨hexisting, hunfinished, -, -, -, -, sum, -, hw, -⟩ :=
            DioneDispute.vote_eq_ok.mp hvote
          rw [← hw]
          exact .voted dhash voteStatus sum hexisting hunfinished
      | finishDispute dhash =>
          obtain ⟨evs, hfinish⟩ := finishDispute_run h
          obtain ⟨hfinishable, hsettle⟩ := DioneDispute.finishDispute_eq_ok.mp hfinish
          obtain ⟨-, hw, -⟩ := DioneDispute.settleDispute_eq_ok.mp hsettle
          rw [← hw]
          exact .finished dhash hfinishable.existing hfinishable.unfinished

theorem disputeChange_step (evm : Evm) (w : World) (tx : Tx D) :
    DisputeChange evm tx.msg w tx.call (w.step D evm tx).dispute := by
  unfold World.step
  split
  · next w' hrun => exact disputeChange_of_run hrun
  · exact .nothing _

/-- A `beginDispute` whose checks pass writes the dispute. -/
theorem disputes_step_of_begin {miner : Address} {requestID : Uint256}
    (hcall : tx.call = .dispute (.beginDispute miner requestID))
    (hfree : (w.dispute.disputes (DioneDispute.disputeHash evm miner requestID)).miner = .zero)
    (hminer : w.staking.isMiner tx.msg.sender = true) :
    (w.step D evm tx).dispute.disputes (DioneDispute.disputeHash evm miner requestID)
      = DioneDispute.begun (DioneDispute.disputeHash evm miner requestID) miner tx.msg
          (w.dispute.disputes (DioneDispute.disputeHash evm miner requestID)) := by
  have hbegin := DioneDispute.beginDispute_eq_ok.mpr ⟨hfree, hminer, rfl, rfl⟩
  simp only [World.step, hcall, Call.run, DisputeCall.run, hbegin, ok_bind]
  exact DioneDispute.disputes_setDispute ..

end Calls

/-! ## Runs -/

/-- Nothing is stored under a key that no dispute has been begun under. -/
def World.UnbegunZero (w : World) : Prop :=
  ∀ dhash, (w.dispute.disputes dhash).disputeInitiator = .zero → w.dispute.disputes dhash = .zero

section Steps

variable {D : Deployment} {evm : Evm} {w : World} {tx : Tx D}

theorem World.UnbegunZero.write (h : w.UnbegunZero) {dhash : Bytes32} {d : Dispute}
    (hd : d.disputeInitiator ≠ .zero) (other : Bytes32)
    (hother : ((w.dispute.setDispute dhash d).disputes other).disputeInitiator = .zero) :
    (w.dispute.setDispute dhash d).disputes other = .zero := by
  by_cases hkey : other = dhash
  · subst hkey
    rw [DioneDispute.disputes_setDispute] at hother
    exact absurd hother hd
  · rw [DioneDispute.disputes_setDispute_of_ne _ _ hkey] at hother ⊢
    exact h other hother

theorem unbegunZero_step (h : w.UnbegunZero) : (w.step D evm tx).UnbegunZero := by
  obtain ⟨msg, call, hext⟩ := tx
  have hchange := disputeChange_step evm w ⟨msg, call, hext⟩
  unfold World.UnbegunZero
  generalize (w.step D evm ⟨msg, call, hext⟩).dispute = d' at hchange ⊢
  cases hchange with
  | nothing => exact h
  | begun => exact h.write hext.ne_zero
  | voted dhash voteStatus sum hexisting =>
      refine h.write ?_
      exact hexisting
  | finished dhash hexisting =>
      refine h.write ?_
      rw [(DioneDispute.closed_identity msg _).2.1]
      exact hexisting

theorem disputesLiveOn_write {d' : DioneDispute} {dhash : Bytes32} {d : Dispute}
    (hd' : d' = w.dispute.setDispute dhash d) (h : (w.dispute.disputes dhash).Precedes d)
    (other : Bytes32) : (w.dispute.disputes other).Precedes (d'.disputes other) := by
  rw [hd']
  by_cases hkey : other = dhash
  · subst hkey
    rw [DioneDispute.disputes_setDispute]
    exact h
  · rw [DioneDispute.disputes_setDispute_of_ne _ _ hkey]
    exact .refl _

/-- A step that begins only new disputes lets the disputes live on. -/
theorem disputesLiveOn_step (h : w.UnbegunZero) (hnew : BeginsNew D evm w tx) :
    w.DisputesLiveOn (w.step D evm tx) := by
  obtain ⟨msg, call, hext⟩ := tx
  have hchange := disputeChange_step evm w ⟨msg, call, hext⟩
  unfold World.DisputesLiveOn
  generalize (w.step D evm ⟨msg, call, hext⟩).dispute = d' at hchange ⊢
  cases hchange with
  | nothing => exact fun _ => .refl _
  | begun miner requestID hfree hminer =>
      refine disputesLiveOn_write rfl ?_
      obtain hzero | ⟨rfl, hinitiator, htime, hunfinished, -⟩ :=
        hnew miner requestID rfl hfree hminer
      · rw [h _ hzero]
        exact ⟨fun hexisting => absurd rfl hexisting, fun hfinished => by cases hfinished⟩
      · exact ⟨fun _ => ⟨hfree.symm, hinitiator.symm, htime.symm⟩,
          fun hfinished => by rw [hunfinished] at hfinished; cases hfinished⟩
  | voted dhash voteStatus sum hexisting hunfinished =>
      refine disputesLiveOn_write rfl ⟨fun _ => ⟨rfl, rfl, rfl⟩, ?_⟩
      intro hfinished
      exact ⟨hfinished, rfl⟩
  | finished dhash hexisting hunfinished =>
      refine disputesLiveOn_write rfl ⟨fun _ => DioneDispute.closed_identity msg _, ?_⟩
      intro hfinished
      rw [hunfinished] at hfinished
      cases hfinished

/-- A step that begins only new disputes changes no votes but by the calls for that. -/
theorem changesOpenVotes_step (h : w.UnbegunZero) (hnew : BeginsNew D evm w tx) :
    ChangesOpenVotes D evm w tx := by
  obtain ⟨msg, call, hext⟩ := tx
  have hchange := disputeChange_step evm w ⟨msg, call, hext⟩
  unfold ChangesOpenVotes
  generalize (w.step D evm ⟨msg, call, hext⟩).dispute = d' at hchange ⊢
  intro other hother
  -- only the dispute under the key that was written has other votes
  have hkey : ∀ {dhash : Bytes32} {d : Dispute}, d' = w.dispute.setDispute dhash d →
      other = dhash := by
    rintro dhash d rfl
    by_contra hne
    rw [DioneDispute.disputes_setDispute_of_ne _ _ hne] at hother
    simp at hother
  cases hchange with
  | nothing => simp at hother
  | begun miner requestID hfree hminer =>
      obtain rfl := hkey rfl
      rw [DioneDispute.disputes_setDispute] at hother
      have hsum : (w.dispute.disputes (DioneDispute.disputeHash evm miner requestID)).sum = 0 := by
        obtain hzero | ⟨-, -, -, -, hsum⟩ := hnew miner requestID rfl hfree hminer
        · rw [h _ hzero]
          rfl
        · exact hsum
      simp [DioneDispute.begun, hsum] at hother
  | voted dhash voteStatus sum hexisting hunfinished =>
      obtain rfl := hkey rfl
      exact ⟨.inl ⟨voteStatus, rfl⟩, hunfinished⟩
  | finished dhash hexisting hunfinished =>
      obtain rfl := hkey rfl
      exact ⟨.inr rfl, hunfinished⟩

/-- A dispute begun over another one does not live on, or loses its votes. -/
theorem beginsNew_of_step (hlive : w.DisputesLiveOn (w.step D evm tx))
    (hvotes : ChangesOpenVotes D evm w tx) : BeginsNew D evm w tx := by
  intro miner requestID hcall d hfree hminer
  have hwritten := disputes_step_of_begin hcall hfree hminer
  by_cases hexisting : d.disputeInitiator = .zero
  · exact .inl hexisting
  have hlater := hlive (DioneDispute.disputeHash evm miner requestID)
  rw [hwritten] at hlater
  obtain ⟨hsame, hinitiator, htime⟩ := hlater.identity hexisting
  refine .inr ⟨hsame.trans hfree, hinitiator.symm, htime.symm, ?_, ?_⟩
  · by_contra hfinished
    have hreset := (hlater.finished (Bool.eq_true_of_not_eq_false hfinished)).1
    cases hreset
  · by_contra hsum
    obtain ⟨⟨voteStatus, hvote⟩ | hfinish, -⟩ :=
      hvotes (DioneDispute.disputeHash evm miner requestID)
        (.inl (by rw [hwritten]; exact fun hzero => hsum hzero.symm))
    · rw [hcall] at hvote
      cases hvote
    · rw [hcall] at hfinish
      cases hfinish

end Steps

/-- In a run of the contracts the disputes live on, finished ones stay as they are and
    votes change only by voting and finishing, iff the run begins new disputes only. -/
theorem disputesLiveOn_iff_beginsNew (D : Deployment) (evm : Evm) (c : Config)
    (txs : List (Tx D)) :
    ((∀ p q, p <+: q → q <+: txs →
        (World.after D evm c p).DisputesLiveOn (World.after D evm c q)) ∧
      Run.StepsMeet (World.step D evm) (.deployed c) txs (ChangesOpenVotes D evm)) ↔
      Run.StepsMeet (World.step D evm) (.deployed c) txs (BeginsNew D evm) := by
  have hzero : ∀ p, (World.after D evm c p).UnbegunZero := fun p =>
    Run.exec_invariant (fun _ _ => unbegunZero_step) (fun _ _ => rfl) p
  -- living on is a preorder, so single steps decide
  unfold World.after
  rw [Run.related_iff_stepsRelated (R := World.DisputesLiveOn) (fun _ _ => .refl _)
    (fun _ _ _ h₁ h₂ dhash => (h₁ dhash).trans (h₂ dhash))]
  constructor
  · rintro ⟨hlive, hvotes⟩ pre tx hpre
    exact beginsNew_of_step (hlive pre tx hpre) (hvotes pre tx hpre)
  · intro hnew
    constructor
    · intro pre tx hpre
      exact disputesLiveOn_step (hzero pre) (hnew pre tx hpre)
    · intro pre tx hpre
      exact changesOpenVotes_step (hzero pre) (hnew pre tx hpre)

/-- Two miners stake, and both begin a dispute against `address(0)` over the same
    request. -/
def begunTwice : List (Address × Uint256 × Call) :=
  joins (.ofNat 11) 100 ++ joins (.ofNat 12) 100 ++
    [(.ofNat 11, 2, .dispute (.beginDispute .zero 7)),
      (.ofNat 12, 5, .dispute (.beginDispute .zero 7))]

/-- The second of the two miners takes the dispute over. -/
theorem begunTwice_changes_initiator :
    ¬ ∀ p q, p <+: q → q <+: sampleDeployment.txs begunTwice →
      (World.after sampleDeployment sampleEvm sampleConfig p).DisputesLiveOn
        (World.after sampleDeployment sampleEvm sampleConfig q) := by
  intro h
  have hlater := h (sampleDeployment.txs begunTwice).dropLast (sampleDeployment.txs begunTwice)
    (List.dropLast_prefix _) (List.prefix_refl _) (DioneDispute.disputeHash sampleEvm .zero 7)
  have hinitiator := (hlater.identity (by decide +kernel)).2.1
  exact absurd hinitiator (by decide +kernel)

end Dione.Contracts
