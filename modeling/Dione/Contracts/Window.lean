/-
  Dione.Contracts.Window

  What the vote window of a dispute decides.

  `finishDispute` waits for the window to pass, `vote` does not look at it.  So
  two runs that agree up to the end of the window finish a dispute with the same
  result as long as no vote gets through after it.
-/

import Dione.Contracts.Lifecycle

namespace Dione.Contracts

open Guard

/-- The end of a dispute's vote window. -/
def DioneDispute.deadline (d : DioneDispute) (dhash : Bytes32) : Nat :=
  (d.disputes dhash).timestamp.toNat + d.voteWindowTime.toNat

/-- A dispute that would be closed in favour of its initiator: the votes are for
    it, and there is somebody to slash. -/
def Dispute.Upheld (d : Dispute) : Prop := 0 < d.sum.toInt ∧ d.miner ≠ .zero

/-- A vote on the dispute that gets through is cast by the time `deadline`. -/
def VotesInTime (D : Deployment) (evm : Evm) (deadline : Nat) (dhash : Bytes32) (w : World)
    (tx : Tx D) : Prop :=
  ∀ voteStatus, tx.call = .dispute (.vote dhash voteStatus) →
    (∃ w', tx.call.run D evm tx.msg w = .ok w') → tx.msg.timestamp.toNat ≤ deadline

section Steps

variable {D : Deployment} {evm : Evm} {msg : Msg} {w w' : World} {dhash : Bytes32}

/-- The result a successful `finishDispute` writes. -/
theorem disputeResult_of_finishDispute
    (hrun : (Call.dispute (.finishDispute dhash)).run D evm msg w = .ok w') :
    (w'.dispute.disputes dhash).disputeResult = true ↔ (w.dispute.disputes dhash).Upheld := by
  obtain ⟨evs, hfinish⟩ := finishDispute_run hrun
  obtain ⟨-, hsettle⟩ := DioneDispute.finishDispute_eq_ok.mp hfinish
  obtain ⟨hstaking, hw, -⟩ := DioneDispute.settleDispute_eq_ok.mp hsettle
  rw [← hw, DioneDispute.disputes_setDispute]
  unfold DioneDispute.closed Dispute.Upheld
  split at hstaking
  · next hsum =>
      rw [if_pos hsum]
      constructor
      · intro hres
        cases hres
      · rintro ⟨hpos, -⟩
        omega
  · next hsum =>
      -- slashing went through, so the accused is not `address(0)`
      have hne := (DioneStaking.slashMiner_eq_ok.mp hstaking).2.1
      rw [if_neg hsum]
      exact ⟨fun _ => ⟨by omega, hne⟩, fun _ => rfl⟩

/-- A call that is no vote on the dispute does not change whether it is upheld. -/
theorem DisputeChange.upheld {call : Call} {d : DioneDispute} (h : DisputeChange evm msg w call d)
    (hno : ∀ voteStatus, call ≠ .dispute (.vote dhash voteStatus)) :
    (d.disputes dhash).Upheld ↔ (w.dispute.disputes dhash).Upheld := by
  cases h with
  | nothing => rfl
  | begun miner requestID hfree hminer =>
      by_cases hkey : dhash = DioneDispute.disputeHash evm miner requestID
      · -- begun over nothing or over a dispute against `address(0)`, with no votes counted
        subst hkey
        rw [DioneDispute.disputes_setDispute]
        constructor
        · rintro ⟨hpos, -⟩
          have hzero : ¬ 0 < (0 : Int256).toInt := by decide
          exact absurd hpos hzero
        · rintro ⟨-, hne⟩
          exact absurd hfree hne
      · rw [DioneDispute.disputes_setDispute_of_ne _ _ hkey]
  | voted key voteStatus sum hexisting hunfinished =>
      have hkey : dhash ≠ key := by
        rintro rfl
        exact hno voteStatus rfl
      rw [DioneDispute.disputes_setDispute_of_ne _ _ hkey]
  | finished key hexisting hunfinished =>
      by_cases hkey : dhash = key
      · -- closing keeps the sum and the accused
        subst hkey
        rw [DioneDispute.disputes_setDispute]
        unfold DioneDispute.closed Dispute.Upheld
        split <;> rfl
      · rw [DioneDispute.disputes_setDispute_of_ne _ _ hkey]

/-- A transaction after the deadline that meets the condition. -/
theorem upheld_step {deadline : Nat} {tx : Tx D} (hlate : deadline < tx.msg.timestamp.toNat)
    (hok : VotesInTime D evm deadline dhash w tx) :
    ((w.step D evm tx).dispute.disputes dhash).Upheld ↔ (w.dispute.disputes dhash).Upheld := by
  unfold World.step
  split
  · next w' hrun =>
      refine (disputeChange_of_run hrun).upheld ?_
      intro voteStatus hcall
      have htime := hok voteStatus hcall ⟨w', hrun⟩
      omega
  · rfl

end Steps

/-- Late transactions without late votes leave open what they found open. -/
theorem upheld_exec {D : Deployment} {evm : Evm} {deadline : Nat} {dhash : Bytes32} {w : World}
    {txs : List (Tx D)} (hlate : ∀ tx ∈ txs, deadline < tx.msg.timestamp.toNat)
    (hok : Run.StepsMeet (World.step D evm) w txs (VotesInTime D evm deadline dhash)) :
    ((Run.exec (World.step D evm) w txs).dispute.disputes dhash).Upheld ↔
      (w.dispute.disputes dhash).Upheld := by
  induction txs generalizing w with
  | nil => rfl
  | cons tx txs ih =>
      obtain ⟨hstep, hrest⟩ := Run.stepsMeet_cons.mp hok
      obtain ⟨htx, htxs⟩ := List.forall_mem_cons.mp hlate
      rw [Run.exec_cons, ih htxs hrest, upheld_step htx hstep]

/-- Two runs that share their calls up to the end of a dispute's vote window, and
    in which no vote on it gets through later, finish it with the same result. -/
theorem disputeResult_eq_of_votesInTime {D : Deployment} {evm : Evm} {c : Config} {dhash : Bytes32}
    (shared late₁ late₂ : List (Tx D))
    (hlate₁ : ∀ tx ∈ late₁,
      (World.after D evm c shared).dispute.deadline dhash < tx.msg.timestamp.toNat)
    (hlate₂ : ∀ tx ∈ late₂,
      (World.after D evm c shared).dispute.deadline dhash < tx.msg.timestamp.toNat)
    (hvotes₁ : Run.StepsMeet (World.step D evm) (World.after D evm c shared) late₁
      (VotesInTime D evm ((World.after D evm c shared).dispute.deadline dhash) dhash))
    (hvotes₂ : Run.StepsMeet (World.step D evm) (World.after D evm c shared) late₂
      (VotesInTime D evm ((World.after D evm c shared).dispute.deadline dhash) dhash))
    {msg₁ msg₂ : Msg} {w₁ w₂ : World}
    (hfinish₁ : (Call.dispute (.finishDispute dhash)).run D evm msg₁
      (World.after D evm c (shared ++ late₁)) = .ok w₁)
    (hfinish₂ : (Call.dispute (.finishDispute dhash)).run D evm msg₂
      (World.after D evm c (shared ++ late₂)) = .ok w₂) :
    (w₁.dispute.disputes dhash).disputeResult = (w₂.dispute.disputes dhash).disputeResult := by
  have hresult₁ := disputeResult_of_finishDispute hfinish₁
  have hresult₂ := disputeResult_of_finishDispute hfinish₂
  rw [World.after, Run.exec_append] at hresult₁ hresult₂
  rw [← World.after, upheld_exec hlate₁ hvotes₁] at hresult₁
  rw [← World.after, upheld_exec hlate₂ hvotes₂] at hresult₂
  exact Bool.eq_iff_iff.mpr (hresult₁.trans hresult₂.symm)

/-- The result of the dispute `dhash` after a call that succeeds. -/
def resultOf (dhash : Bytes32) (r : Except Revert World) : Option Bool :=
  r.toOption.map fun w => (w.dispute.disputes dhash).disputeResult

/-- A fourth miner stakes more than the others, and the third votes for the
    dispute of `disputeOpened`. -/
def windowVotes : List (Tx sampleDeployment) :=
  sampleDeployment.txs (joins (.ofNat 14) 200 ++ disputeOpened ++
    [(.ofNat 13, 3, .dispute (.vote openedHash true))])

/-- Somebody joins after the window. -/
def lateJoin : List (Tx sampleDeployment) :=
  sampleDeployment.txs [(.ofNat 10, 25, .token (.mint (.ofNat 15) 100))]

/-- The fourth miner votes after the window. -/
def lateVote : List (Tx sampleDeployment) :=
  sampleDeployment.txs [(.ofNat 14, 25, .dispute (.vote openedHash false))]

/-- The initiator's call. -/
def finishedAfter (late : List (Tx sampleDeployment)) : Except Revert World :=
  (Call.dispute (.finishDispute openedHash)).run sampleDeployment sampleEvm ⟨.ofNat 11, 30, 30⟩
    (.after sampleDeployment sampleEvm sampleConfig (windowVotes ++ late))

theorem exists_of_resultOf {dhash : Bytes32} {r : Except Revert World} {b : Bool}
    (h : resultOf dhash r = some b) :
    ∃ w, r = .ok w ∧ (w.dispute.disputes dhash).disputeResult = b := by
  cases r with
  | error e => cases h
  | ok w => exact ⟨w, rfl, Option.some.inj h⟩

theorem disputeResult_eq_lateJoin :
    ∃ w₁ w₂, finishedAfter [] = .ok w₁ ∧ finishedAfter lateJoin = .ok w₂ ∧
      (w₁.dispute.disputes openedHash).disputeResult
        = (w₂.dispute.disputes openedHash).disputeResult := by
  obtain ⟨w₁, hw₁, -⟩ := exists_of_resultOf
    (show resultOf openedHash (finishedAfter []) = some true by decide +kernel)
  obtain ⟨w₂, hw₂, -⟩ := exists_of_resultOf
    (show resultOf openedHash (finishedAfter lateJoin) = some true by decide +kernel)
  refine ⟨w₁, w₂, hw₁, hw₂, disputeResult_eq_of_votesInTime windowVotes [] lateJoin
    (by simp) (by decide +kernel) Run.stepsMeet_nil ?_ hw₁ hw₂⟩
  refine Run.stepsMeet_cons.mpr ⟨?_, Run.stepsMeet_nil⟩
  intro voteStatus hcall
  cases hcall

/-- The vote after the window turns the result. -/
theorem lateVote_changes_result :
    (∀ tx ∈ lateVote, (World.after sampleDeployment sampleEvm sampleConfig
        windowVotes).dispute.deadline openedHash < tx.msg.timestamp.toNat) ∧
      resultOf openedHash (finishedAfter []) = some true ∧
      resultOf openedHash (finishedAfter lateVote) = some false := by
  decide +kernel

end Dione.Contracts
