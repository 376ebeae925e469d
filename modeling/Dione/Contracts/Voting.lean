/-
  Dione.Contracts.Voting

  How the votes on a dispute are counted.

  `vote` does not look at the list of those who have voted, it takes the stake
  for a signed number as it is, and `beginDispute` on the same key resets the sum
  but not the list.  The count is right in a run exactly when nobody makes use of
  that.

  An `Audit` watches a run: it notes what each successful vote should count for,
  and nothing it notes has an effect on the contracts.
-/

import Dione.Contracts.Solvency

namespace Dione.Contracts

open Guard

/-- What a vote with a stake should count for. -/
def signedStake (voteStatus : Bool) (stake : Uint256) : Int :=
  if voteStatus then stake.toNat else -(stake.toNat : Int)

/-- A world, and for each dispute and voter what the last vote should count for. -/
structure Audit where
  world : World
  cast : Bytes32 → Address → Int

namespace Audit

/-- The start of a run. -/
def deployed (c : Config) : Audit := ⟨.deployed c, fun _ _ => 0⟩

/-- What is noted when a call by `msg.sender` succeeds. -/
def castAfter (x : Audit) (msg : Msg) : Call → Bytes32 → Address → Int
  | .dispute (.vote dhash voteStatus) =>
    Function.update x.cast dhash (Function.update (x.cast dhash) msg.sender
      (signedStake voteStatus (x.world.staking.minerStake msg.sender)))
  | _ => x.cast

section Steps

variable (D : Deployment) (evm : Evm)

/-- One transaction. -/
def step (x : Audit) (tx : Tx D) : Audit :=
  match tx.call.run D evm tx.msg x.world with
  | .ok w => ⟨w, x.castAfter tx.msg tx.call⟩
  | .error _ => x

theorem step_world (x : Audit) (tx : Tx D) :
    (x.step D evm tx).world = x.world.step D evm tx := by
  unfold step World.step
  cases tx.call.run D evm tx.msg x.world with
  | ok w => rfl
  | error e => rfl

/-- The audit only watches. -/
theorem world_exec (x : Audit) (txs : List (Tx D)) :
    (Run.exec (step D evm) x txs).world = Run.exec (World.step D evm) x.world txs := by
  induction txs generalizing x with
  | nil => rfl
  | cons tx txs ih =>
      rw [Run.exec_cons, Run.exec_cons, ih, step_world]

end Steps

end Audit

/-- Nobody is listed twice, and the sum is what the listed voters' votes should
    count for. -/
structure Dispute.Fair (cast : Address → Int) (d : Dispute) : Prop where
  nodup : d.voted.Nodup
  sum_eq : d.sum.toInt = (d.voted.map cast).sum

namespace Audit

/-- In every unfinished dispute each voter is counted once. -/
def OneVote (x : Audit) : Prop :=
  ∀ dhash, (x.world.dispute.disputes dhash).disputeInitiator ≠ .zero →
    (x.world.dispute.disputes dhash).finished = false →
    (x.world.dispute.disputes dhash).Fair (x.cast dhash)

/-- A vote that gets through is by an account that has not voted and whose stake
    is the same number as an `int256`; a dispute that gets begun finds no votes counted under
    its key. -/
def VotesOnce (D : Deployment) (evm : Evm) (x : Audit) (tx : Tx D) : Prop :=
  match tx.call with
  | .dispute (.vote dhash voteStatus) =>
    (∃ w, (Call.dispute (.vote dhash voteStatus)).run D evm tx.msg x.world = .ok w) →
      tx.msg.sender ∉ (x.world.dispute.disputes dhash).voted ∧
        (x.world.staking.minerStake tx.msg.sender).toNat < 2 ^ 255
  | .dispute (.beginDispute miner requestID) =>
    (∃ w, (Call.dispute (.beginDispute miner requestID)).run D evm tx.msg x.world = .ok w) →
      (x.world.dispute.disputes (DioneDispute.disputeHash evm miner requestID)).sum = 0
  | _ => True

/-! ## One step -/

/-- What the proof carries along: also a finished dispute is in order if it can be
    begun again, which takes the miner `address(0)`. -/
def InOrder (x : Audit) : Prop :=
  ∀ dhash, (x.world.dispute.disputes dhash).finished = false ∨
      (x.world.dispute.disputes dhash).miner = .zero →
    (x.world.dispute.disputes dhash).Fair (x.cast dhash)

end Audit

section Counting

variable {cast : Address → Int} {d : Dispute} {a : Address} {v : Int}

/-- A vote of somebody new does not change what the others' votes count for. -/
theorem map_cast_append (hnew : a ∉ d.voted) :
    ((d.voted ++ [a]).map (Function.update cast a v)).sum = (d.voted.map cast).sum + v := by
  have hothers : d.voted.map (Function.update cast a v) = d.voted.map cast := by
    apply List.map_congr_left
    intro b hb
    have hba : b ≠ a := by
      rintro rfl
      exact hnew hb
    exact Function.update_of_ne hba ..
  rw [List.map_append, List.sum_append, hothers]
  simp

/-- A vote keeps the count right iff the voter is new and the vote counts for what
    it should. -/
theorem fair_vote_iff (h : d.Fair cast) {sum : Int256} {counted : Int}
    (hsum : sum.toInt = d.sum.toInt + counted) :
    ({ d with sum := sum, voted := d.voted ++ [a] } : Dispute).Fair (Function.update cast a v) ↔
      a ∉ d.voted ∧ counted = v := by
  constructor
  · intro hfair
    -- a voter listed already would be listed twice
    have hnew : a ∉ d.voted := by
      have hnodup : (d.voted ++ [a]).Nodup := hfair.nodup
      intro hmem
      exact (List.nodup_append.mp hnodup).2.2 a hmem a (List.mem_singleton_self a) rfl
    have heq : sum.toInt = (d.voted.map cast).sum + v := by
      rw [← map_cast_append hnew]
      exact hfair.sum_eq
    have hold := h.sum_eq
    exact ⟨hnew, by omega⟩
  · rintro ⟨hnew, rfl⟩
    refine ⟨?_, ?_⟩
    · show (d.voted ++ [a]).Nodup
      refine List.nodup_append.mpr ⟨h.nodup, List.nodup_singleton a, ?_⟩
      rintro b hb c hc rfl
      exact hnew (List.mem_singleton.mp hc ▸ hb)
    · show sum.toInt = ((d.voted ++ [a]).map (Function.update cast a counted)).sum
      rw [map_cast_append hnew, hsum, h.sum_eq]

/-- The stake counts for what it should iff it is not negative as an `int256`. -/
theorem ballot_eq_signedStake_iff {voteStatus : Bool} {stake : Uint256} :
    DioneDispute.ballot voteStatus stake = signedStake voteStatus stake ↔
      stake.toNat < 2 ^ 255 := by
  have hlt : stake.toNat < 2 ^ 256 := stake.isLt
  have htoInt : stake.toInt = stake.toNat ↔ stake.toNat < 2 ^ 255 := by
    -- two's complement: from `2 ^ 255` on the same bits are a negative number
    rw [BitVec.toInt_eq_toNat_cond]
    split <;> omega
  unfold DioneDispute.ballot signedStake
  cases voteStatus with
  | true => simpa using htoInt
  | false => simpa using htoInt

/-- Beginning a dispute over keeps the count right iff nothing was counted. -/
theorem fair_begun_iff (h : d.Fair cast) {dhash : Bytes32} {miner : Address} {msg : Msg} :
    (DioneDispute.begun dhash miner msg d).Fair cast ↔ d.sum = 0 := by
  constructor
  · intro hfair
    have hsum : (0 : Int256).toInt = (d.voted.map cast).sum := hfair.sum_eq
    apply BitVec.eq_of_toInt_eq
    rw [h.sum_eq, hsum]
  · intro hsum
    refine ⟨h.nodup, ?_⟩
    show (0 : Int256).toInt = (d.voted.map cast).sum
    rw [← h.sum_eq, hsum]

end Counting

namespace Audit

variable {D : Deployment} {evm : Evm} {msg : Msg} {x : Audit} {tx : Tx D} {w : World}

theorem step_of_ok (hrun : tx.call.run D evm tx.msg x.world = .ok w) :
    x.step D evm tx = ⟨w, x.castAfter tx.msg tx.call⟩ := by
  rw [step, hrun]

/-- Writing one dispute leaves the others in order. -/
theorem InOrder.write (h : x.InOrder) {dhash : Bytes32} {d : Dispute}
    {cast : Bytes32 → Address → Int} (hw : w.dispute = x.world.dispute.setDispute dhash d)
    (hcast : ∀ other, other ≠ dhash → cast other = x.cast other)
    (hd : d.finished = false ∨ d.miner = .zero → d.Fair (cast dhash)) :
    InOrder ⟨w, cast⟩ := by
  intro other
  show (w.dispute.disputes other).finished = false ∨ (w.dispute.disputes other).miner = .zero →
    (w.dispute.disputes other).Fair (cast other)
  rw [hw]
  by_cases hother : other = dhash
  · subst hother
    rw [DioneDispute.disputes_setDispute]
    exact hd
  · rw [DioneDispute.disputes_setDispute_of_ne _ _ hother, hcast other hother]
    exact h other

theorem InOrder.begun {miner : Address} {requestID : Uint256} (h : x.InOrder)
    (hrun : (Call.dispute (.beginDispute miner requestID)).run D evm msg x.world = .ok w)
    (hsum : (x.world.dispute.disputes (DioneDispute.disputeHash evm miner requestID)).sum = 0) :
    InOrder ⟨w, x.cast⟩ := by
  obtain ⟨evs, hbegin⟩ := beginDispute_run hrun
  obtain ⟨hfree, -, hw, -⟩ := DioneDispute.beginDispute_eq_ok.mp hbegin
  -- What lies under the key has the miner `address(0)`: never begun, or begun against nobody.
  refine h.write hw.symm (fun _ _ => rfl) fun _ => ?_
  exact (fair_begun_iff (h _ (.inr hfree))).mpr hsum

theorem InOrder.voted {dhash : Bytes32} {voteStatus : Bool} (h : x.InOrder)
    (hrun : (Call.dispute (.vote dhash voteStatus)).run D evm msg x.world = .ok w)
    (hnew : msg.sender ∉ (x.world.dispute.disputes dhash).voted)
    (hstake : (x.world.staking.minerStake msg.sender).toNat < 2 ^ 255) :
    InOrder ⟨w, x.castAfter msg (.dispute (.vote dhash voteStatus))⟩ := by
  obtain ⟨evs, hvote⟩ := vote_run hrun
  obtain ⟨-, hunfinished, -, -, -, -, sum, hsum, hw, -⟩ := DioneDispute.vote_eq_ok.mp hvote
  -- only the votes under this key are noted anew
  refine h.write hw.symm (fun other hne => Function.update_of_ne hne ..) fun _ => ?_
  rw [castAfter, Function.update_self]
  exact (fair_vote_iff (h dhash (.inl hunfinished)) hsum).mpr
    ⟨hnew, ballot_eq_signedStake_iff.mpr hstake⟩

theorem InOrder.finished {dhash : Bytes32} (h : x.InOrder)
    (hrun : (Call.dispute (.finishDispute dhash)).run D evm msg x.world = .ok w) :
    InOrder ⟨w, x.cast⟩ := by
  obtain ⟨evs, hfinish⟩ := finishDispute_run hrun
  obtain ⟨hfinishable, hsettle⟩ := DioneDispute.finishDispute_eq_ok.mp hfinish
  obtain ⟨hstaking, hw, -⟩ := DioneDispute.settleDispute_eq_ok.mp hsettle
  have hold := h dhash (.inl hfinishable.unfinished)
  refine h.write hw.symm (fun _ _ => rfl) ?_
  unfold DioneDispute.closed
  split at hstaking
  · next hsum =>
      rw [if_pos hsum]
      exact fun _ => ⟨hold.nodup, hold.sum_eq⟩
  · next hsum =>
      -- the initiator joins the list only where the accused can be slashed
      have hne := (DioneStaking.slashMiner_eq_ok.mp hstaking).2.1
      rw [if_neg hsum]
      rintro (hfinished | hzero)
      · cases hfinished
      · exact absurd hzero hne

theorem step_inOrder (h : x.InOrder) (hok : VotesOnce D evm x tx) :
    (x.step D evm tx).InOrder := by
  obtain ⟨msg, call, hext⟩ := tx
  cases hrun : call.run D evm msg x.world with
  | error e =>
      have hstep : x.step D evm ⟨msg, call, hext⟩ = x := by rw [step, hrun]
      rw [hstep]
      exact h
  | ok w =>
      rw [step_of_ok hrun]
      cases call with
      -- the other contracts do not write disputes
      | token c =>
          intro dhash
          exact dispute_eq_of_token hrun ▸ h dhash
      | staking c =>
          intro dhash
          exact dispute_eq_of_staking hrun ▸ h dhash
      | oracle c =>
          intro dhash
          exact dispute_eq_of_oracle hrun ▸ h dhash
      | dispute c =>
          cases c with
          | beginDispute miner requestID => exact h.begun hrun (hok ⟨w, hrun⟩)
          | vote dhash voteStatus =>
              obtain ⟨hnew, hstake⟩ := hok ⟨w, hrun⟩
              exact h.voted hrun hnew hstake
          | finishDispute dhash => exact h.finished hrun

/-- A dispute begun over counted votes is not counted right any more. -/
theorem not_oneVote_begun {miner : Address} {requestID : Uint256} (h : x.InOrder)
    (hext : D.External msg.sender)
    (hrun : (Call.dispute (.beginDispute miner requestID)).run D evm msg x.world = .ok w)
    (hsum : (x.world.dispute.disputes (DioneDispute.disputeHash evm miner requestID)).sum ≠ 0) :
    ¬ OneVote ⟨w, x.cast⟩ := by
  obtain ⟨evs, hbegin⟩ := beginDispute_run hrun
  obtain ⟨hfree, -, hw, -⟩ := DioneDispute.beginDispute_eq_ok.mp hbegin
  intro hone
  have hfair := hone (DioneDispute.disputeHash evm miner requestID)
  simp only [← hw, DioneDispute.disputes_setDispute] at hfair
  -- the new dispute is unfinished and has an initiator, so `OneVote` speaks of it
  exact hsum ((fair_begun_iff (h _ (.inr hfree))).mp (hfair hext.ne_zero rfl))

/-- A second vote, or one whose stake is negative as an `int256`, is not counted
    right. -/
theorem not_oneVote_voted {dhash : Bytes32} {voteStatus : Bool} (h : x.InOrder)
    (hrun : (Call.dispute (.vote dhash voteStatus)).run D evm msg x.world = .ok w)
    (hbad : ¬ (msg.sender ∉ (x.world.dispute.disputes dhash).voted ∧
      (x.world.staking.minerStake msg.sender).toNat < 2 ^ 255)) :
    ¬ OneVote ⟨w, x.castAfter msg (.dispute (.vote dhash voteStatus))⟩ := by
  obtain ⟨evs, hvote⟩ := vote_run hrun
  obtain ⟨hexisting, hunfinished, -, -, -, -, sum, hsum, hw, -⟩ := DioneDispute.vote_eq_ok.mp hvote
  intro hone
  have hfair := hone dhash
  simp only [← hw, DioneDispute.disputes_setDispute, castAfter, Function.update_self] at hfair
  obtain ⟨hnew, hcounted⟩ := (fair_vote_iff (h dhash (.inl hunfinished)) hsum).mp
    (hfair hexisting hunfinished)
  exact hbad ⟨hnew, ballot_eq_signedStake_iff.mp hcounted⟩

theorem not_oneVote_step (h : x.InOrder) (hno : ¬ VotesOnce D evm x tx) :
    ¬ (x.step D evm tx).OneVote := by
  obtain ⟨msg, call, hext⟩ := tx
  cases call with
  | token c => exact absurd trivial hno
  | staking c => exact absurd trivial hno
  | oracle c => exact absurd trivial hno
  | dispute c =>
      cases c with
      | beginDispute miner requestID =>
          obtain ⟨⟨w, hrun⟩, hsum⟩ := Classical.not_imp.mp hno
          rw [step_of_ok hrun]
          exact not_oneVote_begun h hext hrun hsum
      | vote dhash voteStatus =>
          obtain ⟨⟨w, hrun⟩, hbad⟩ := Classical.not_imp.mp hno
          rw [step_of_ok hrun]
          exact not_oneVote_voted h hrun hbad
      | finishDispute dhash => exact absurd trivial hno

theorem inOrder_deployed (c : Config) : (deployed c).InOrder := by
  intro dhash _
  have hzero : (0 : Int256).toInt = 0 := by decide
  exact ⟨List.nodup_nil, hzero⟩

end Audit

/-- In every state of a run the votes of the unfinished disputes are counted right
    iff no step of the run votes twice, votes with a stake beyond `int256` or
    begins a dispute over counted votes. -/
theorem oneVote_iff_votesOnce (D : Deployment) (evm : Evm) (c : Config) (txs : List (Tx D)) :
    Run.Always (Audit.step D evm) (.deployed c) txs Audit.OneVote ↔
      Run.StepsMeet (Audit.step D evm) (.deployed c) txs (Audit.VotesOnce D evm) := by
  refine Run.always_iff_stepsMeet (I := Audit.InOrder) ?_ ?_ ?_ (Audit.inOrder_deployed c) txs
  · intro x h dhash _ hunfinished
    exact h dhash (.inl hunfinished)
  · intro x tx h hok
    exact Audit.step_inOrder h hok
  · intro x tx h hno
    exact Audit.not_oneVote_step h hno

/-- Three miners stake, and the first opens a dispute against the second. -/
def disputeOpened : List (Address × Uint256 × Call) :=
  joins (.ofNat 11) 100 ++ joins (.ofNat 12) 100 ++ joins (.ofNat 13) 100 ++
    [(.ofNat 10, 1, .staking (.setDisputeContractAddress (.ofNat 3))),
      (.ofNat 11, 2, .dispute (.beginDispute (.ofNat 12) 7))]

/-- The key of that dispute. -/
def openedHash : Bytes32 := DioneDispute.disputeHash sampleEvm (.ofNat 12) 7

/-- The third miner votes twice: it is listed and counted twice. -/
theorem not_oneVote_of_two_votes :
    ¬ Run.Always (Audit.step sampleDeployment sampleEvm) (.deployed sampleConfig)
        (sampleDeployment.txs (disputeOpened ++
          [(.ofNat 13, 3, .dispute (.vote openedHash true)),
            (.ofNat 13, 4, .dispute (.vote openedHash true))]))
        Audit.OneVote := by
  intro h
  have hfair := h.final openedHash (by decide +kernel) (by decide +kernel)
  have hvoted : ((Run.exec (Audit.step sampleDeployment sampleEvm) (.deployed sampleConfig)
      (sampleDeployment.txs (disputeOpened ++
        [(.ofNat 13, 3, .dispute (.vote openedHash true)),
          (.ofNat 13, 4, .dispute (.vote openedHash true))]))).world.dispute.disputes
        openedHash).voted = [.ofNat 13, .ofNat 13] := by
    decide +kernel
  have hnodup := hfair.nodup
  rw [hvoted] at hnodup
  exact absurd hnodup (by decide)

end Dione.Contracts
