/-
  Dione.Contracts.Verdicts

  What it takes to lose a stake.

  The disputes are kept here as the files of cases: who accuses whom, since when, and the
  votes with the stakes that were behind them at the time.  A file is read off the calls that
  went through, and what the dispute contract stores of the parties, the time, the end and
  the sum of the votes is what its file says (`Case.Describes`).  The stored list of voters is
  not on file: an accusation against the zero address can be made again, and keeps it.

  A stake then shrinks in two ways only: its owner takes from it, or the one who accused the
  owner closes the case, no earlier than the vote window allows, with more stake counted for
  the accusation than against it.
-/

import Dione.Contracts.Accounts
import Dione.Contracts.Finishing

namespace Dione.Contracts

open Guard

/-! ## Cases -/

/-- A vote, and the stake of the voter when it was given. -/
structure Ballot where
  voter : Address
  voteStatus : Bool
  stake : Uint256
  deriving DecidableEq, Repr

structure Case where
  miner : Address
  disputeInitiator : Address
  timestamp : Uint256
  ballots : List Ballot
  closed : Bool
  deriving DecidableEq, Repr

/-- What is put on file. -/
inductive Filing where
  | accusation (dhash : Bytes32) (miner disputeInitiator : Address) (timestamp : Uint256)
  | ballot (dhash : Bytes32) (ballot : Ballot)
  | closing (dhash : Bytes32)
  deriving DecidableEq, Repr

def Filing.dhash : Filing → Bytes32
  | .accusation dhash _ _ _ | .ballot dhash _ | .closing dhash => dhash

/-- The case after one more filing.  An accusation opens the case anew. -/
def Case.file : Option Case → Filing → Option Case
  | _, .accusation _ miner disputeInitiator timestamp =>
    some ⟨miner, disputeInitiator, timestamp, [], false⟩
  | k, .ballot _ ballot => k.map fun k => { k with ballots := k.ballots ++ [ballot] }
  | k, .closing _ => k.map fun k => { k with closed := true }

/-- The case of a dispute. -/
def caseOf (dhash : Bytes32) (files : List Filing) : Option Case :=
  (files.filter fun f => f.dhash = dhash).foldl Case.file none

/-- The stake for the accusation less the stake against it, as the contract counts it. -/
def Case.tally (k : Case) : Int :=
  (k.ballots.map fun b => DioneDispute.ballot b.voteStatus b.stake).sum

/-- What a call puts on file. -/
def Call.filing (evm : Evm) (w : World) (msg : Msg) : Call → Option Filing
  | .dispute (.beginDispute miner requestID) =>
    some (.accusation (DioneDispute.disputeHash evm miner requestID) miner msg.sender msg.timestamp)
  | .dispute (.vote dhash voteStatus) =>
    some (.ballot dhash ⟨msg.sender, voteStatus, w.staking.minerStake msg.sender⟩)
  | .dispute (.finishDispute dhash) => some (.closing dhash)
  | _ => none

/-- What a run has put on file, the oldest first. -/
def filings (D : Deployment) (evm : Evm) : Config → List (Tx D) → List Filing :=
  World.journal D evm fun w msg call => (call.filing evm w msg).toList

theorem caseOf_concat (dhash : Bytes32) (files : List Filing) (f : Filing) :
    caseOf dhash (files ++ [f])
      = if f.dhash = dhash then Case.file (caseOf dhash files) f else caseOf dhash files := by
  unfold caseOf
  rw [List.filter_append, List.foldl_append]
  by_cases hf : f.dhash = dhash
  · simp [hf]
  · simp [hf]

/-! ## What is stored -/

/-- The stored dispute is the case, but for the list of those who have voted. -/
structure Case.Describes (minStake : Uint256) (k : Case) (d : Dispute) : Prop where
  miner_eq : d.miner = k.miner
  disputeInitiator_eq : d.disputeInitiator = k.disputeInitiator
  timestamp_eq : d.timestamp = k.timestamp
  finished_eq : d.finished = k.closed
  sum_eq : d.sum.toInt = k.tally
  voters : ∀ b ∈ k.ballots, b.voter ≠ k.miner ∧ b.voter ≠ k.disputeInitiator ∧ minStake ≤ b.stake

/-- What is stored is what the file says; without a file there is no dispute. -/
def Dispute.OnFile (minStake : Uint256) (d : Dispute) : Option Case → Prop
  | none => d.disputeInitiator = .zero
  | some k => k.Describes minStake d

/-- All disputes are on file, and the settings are those of the deployment. -/
structure DioneDispute.AllOnFile (c : Config) (files : List Filing) (d : DioneDispute) : Prop where
  minStake_eq : d.minStake = c.minStake
  voteWindowTime_eq : d.voteWindowTime = c.voteWindowTime
  onFile : ∀ dhash, (d.disputes dhash).OnFile c.minStake (caseOf dhash files)

namespace DioneDispute.AllOnFile

variable {c : Config} {files : List Filing} {d : DioneDispute}

/-- A dispute that is written with its filing; the others are as before. -/
theorem write {f : Filing} {dispute : Dispute} (h : d.AllOnFile c files)
    (hnew : dispute.OnFile c.minStake (Case.file (caseOf f.dhash files) f)) :
    (d.setDispute f.dhash dispute).AllOnFile c (files ++ [f]) := by
  refine ⟨h.minStake_eq, h.voteWindowTime_eq, ?_⟩
  intro dhash
  rw [caseOf_concat]
  by_cases hf : f.dhash = dhash
  · subst hf
    rw [if_pos rfl, disputes_setDispute]
    exact hnew
  · rw [if_neg hf, disputes_setDispute_of_ne _ _ (Ne.symm hf)]
    exact h.onFile dhash

/-- A dispute that exists has a case. -/
theorem exists_case {dhash : Bytes32} (h : d.AllOnFile c files)
    (hexisting : (d.disputes dhash).disputeInitiator ≠ .zero) :
    ∃ k, caseOf dhash files = some k ∧ k.Describes c.minStake (d.disputes dhash) := by
  have honFile := h.onFile dhash
  cases hcase : caseOf dhash files with
  | none =>
      rw [hcase] at honFile
      exact absurd honFile hexisting
  | some k =>
      rw [hcase] at honFile
      exact ⟨k, rfl, honFile⟩

end DioneDispute.AllOnFile

section Calls

variable {D : Deployment} {evm : Evm} {c : Config} {msg : Msg} {w w' : World}
  {files : List Filing}

theorem Case.Describes.closed {minStake : Uint256} {k : Case} {d : Dispute}
    (h : k.Describes minStake d) :
    Case.Describes minStake { k with closed := true } (DioneDispute.closed msg d) := by
  unfold DioneDispute.closed
  split
  · exact ⟨h.miner_eq, h.disputeInitiator_eq, h.timestamp_eq, rfl, h.sum_eq, h.voters⟩
  · exact ⟨h.miner_eq, h.disputeInitiator_eq, h.timestamp_eq, rfl, h.sum_eq, h.voters⟩

theorem allOnFile_beginDispute {miner : Address} {requestID : Uint256}
    (h : w.dispute.AllOnFile c files)
    (hrun : (Call.dispute (.beginDispute miner requestID)).run D evm msg w = .ok w') :
    w'.dispute.AllOnFile c (files ++ [.accusation (DioneDispute.disputeHash evm miner requestID)
      miner msg.sender msg.timestamp]) := by
  obtain ⟨evs, hbegin⟩ := beginDispute_run hrun
  obtain ⟨-, -, hw, -⟩ := DioneDispute.beginDispute_eq_ok.mp hbegin
  rw [← hw]
  apply h.write
  exact ⟨rfl, rfl, rfl, rfl, rfl, by simp⟩

theorem allOnFile_vote {dhash : Bytes32} {voteStatus : Bool} (h : w.dispute.AllOnFile c files)
    (hrun : (Call.dispute (.vote dhash voteStatus)).run D evm msg w = .ok w') :
    w'.dispute.AllOnFile c
      (files ++ [.ballot dhash ⟨msg.sender, voteStatus, w.staking.minerStake msg.sender⟩]) := by
  obtain ⟨evs, hvote⟩ := vote_run hrun
  obtain ⟨hexisting, -, hinitiator, hminer, -, hstake, sum, hsum, hw, -⟩ :=
    DioneDispute.vote_eq_ok.mp hvote
  obtain ⟨k, hcase, hk⟩ := h.exists_case hexisting
  rw [← hw]
  apply h.write
  show Dispute.OnFile _ _ (Case.file (caseOf dhash files) _)
  rw [hcase]
  refine ⟨hk.miner_eq, hk.disputeInitiator_eq, hk.timestamp_eq, hk.finished_eq, ?_, ?_⟩
  · show sum.toInt = _
    rw [hsum, hk.sum_eq]
    simp [Case.tally]
  · intro b hb
    rcases List.mem_append.mp hb with hold | hnew
    · exact hk.voters b hold
    · obtain rfl := List.mem_singleton.mp hnew
      rw [hk.miner_eq] at hminer
      rw [hk.disputeInitiator_eq] at hinitiator
      rw [h.minStake_eq] at hstake
      exact ⟨hminer, hinitiator, hstake⟩

theorem allOnFile_finishDispute {dhash : Bytes32} (h : w.dispute.AllOnFile c files)
    (hrun : (Call.dispute (.finishDispute dhash)).run D evm msg w = .ok w') :
    w'.dispute.AllOnFile c (files ++ [.closing dhash]) := by
  obtain ⟨evs, hfinish⟩ := finishDispute_run hrun
  obtain ⟨hfinishable, hsettle⟩ := DioneDispute.finishDispute_eq_ok.mp hfinish
  obtain ⟨-, hw, -⟩ := DioneDispute.settleDispute_eq_ok.mp hsettle
  obtain ⟨k, hcase, hk⟩ := h.exists_case hfinishable.existing
  rw [← hw]
  apply h.write
  show Dispute.OnFile _ _ (Case.file (caseOf dhash files) _)
  rw [hcase]
  exact hk.closed

theorem Call.allOnFile {call : Call} (h : w.dispute.AllOnFile c files)
    (hrun : call.run D evm msg w = .ok w') :
    w'.dispute.AllOnFile c (files ++ (call.filing evm w msg).toList) := by
  cases call with
  | token call =>
      rw [dispute_eq_of_token hrun]
      exact (List.append_nil files).symm ▸ h
  | staking call =>
      rw [dispute_eq_of_staking hrun]
      exact (List.append_nil files).symm ▸ h
  | oracle call =>
      rw [dispute_eq_of_oracle hrun]
      exact (List.append_nil files).symm ▸ h
  | dispute call =>
      cases call with
      | beginDispute miner requestID => exact allOnFile_beginDispute h hrun
      | vote dhash voteStatus => exact allOnFile_vote h hrun
      | finishDispute dhash => exact allOnFile_finishDispute h hrun

end Calls

theorem allOnFile_filings (D : Deployment) (evm : Evm) (c : Config) (txs : List (Tx D)) :
    (World.after D evm c txs).dispute.AllOnFile c (filings D evm c txs) := by
  apply World.journal_invariant
    (I := fun (w : World) (files : List Filing) => w.dispute.AllOnFile c files)
  · exact ⟨rfl, rfl, fun dhash => rfl⟩
  · intro w w' files tx h hrun
    exact Call.allOnFile h hrun

/-! ## Losses -/

section Losses

variable {D : Deployment} {evm : Evm} {a : Address} {s s' : DioneStaking} {w w' : World}

theorem Booked.exists_debit {bookings : List Booking} (h : Booked bookings s s')
    (hless : s'.minerStake a < s.minerStake a) : ∃ b ∈ bookings, 0 < b.debit a := by
  by_contra hnone
  have hzero : debits a bookings = 0 := by
    apply List.sum_eq_zero
    intro x hx
    obtain ⟨b, hb, rfl⟩ := List.mem_map.mp hx
    have hdebit : ¬0 < b.debit a := fun hpos => hnone ⟨b, hb, hpos⟩
    omega
  have hbooked := h a
  rw [BitVec.lt_def] at hless
  omega

/-- Who takes a stake: its owner, the one who has accused the owner, or the account that the
    staking contract takes for the dispute contract. -/
theorem Call.effect_loss {msg : Msg} {call : Call} (h : World.Effect D evm msg w w' call)
    (hless : w'.staking.minerStake a < w.staking.minerStake a) :
    (∃ amount, call = .staking (.withdraw amount) ∧ msg.sender = a)
      ∨ (∃ rs, call = .staking (.slashMiner a rs) ∧ msg.sender = w.staking.disputeContractAddr)
      ∨ ∃ dhash, call = .dispute (.finishDispute dhash) ∧ w.dispute.Finishable dhash msg
        ∧ 0 < (w.dispute.disputes dhash).sum.toInt ∧ (w.dispute.disputes dhash).miner = a := by
  obtain ⟨b, hb, hdebit⟩ := h.booked.exists_debit hless
  cases h with
  | none hbookings hstaking htoken hanswers =>
      rw [hbookings] at hb
      cases hb
  | token c hstaking hrun hanswers => cases hb
  | reward reqID data hanswers hrun =>
      obtain rfl := List.mem_singleton.mp hb
      exact absurd hdebit (Nat.lt_irrefl 0)
  | staking c hrun hanswers =>
      cases c with
      | withdraw amount =>
          obtain rfl := List.mem_singleton.mp hb
          left
          refine ⟨amount, rfl, ?_⟩
          by_contra hne
          simp [Booking.debit, hne] at hdebit
      | slashMiner miner rs =>
          obtain rfl := List.mem_singleton.mp hb
          simp only [StakingCall.run, bind_eq_ok, pure_eq_ok_iff, Prod.mk.injEq] at hrun
          obtain ⟨s₁, hslash, -, -⟩ := hrun
          have hminer : miner = a := by
            by_contra hne
            simp [Booking.debit, hne] at hdebit
          subst hminer
          exact .inr (.inl ⟨rs, rfl, (DioneStaking.slashMiner_eq_ok.mp hslash).1⟩)
      | stake | mineAndStake =>
          obtain rfl := List.mem_singleton.mp hb
          exact absurd hdebit (Nat.lt_irrefl 0)
      | mine | setMinerReward | setMinimumStake | setOracleContractAddress
      | setDisputeContractAddress | transferOwnership | renounceOwnership => cases hb
  | slash dhash hfinishable hwon hrun hanswers =>
      refine .inr (.inr ⟨dhash, rfl, hfinishable, hwon, ?_⟩)
      simp only [Call.bookings, if_pos hwon] at hb
      obtain rfl := List.mem_singleton.mp hb
      by_contra hne
      simp [Booking.debit, hne] at hdebit

end Losses

/-- The one who made the accusation closes the case with a majority of the stake that was put to
    it, all of it by others than the two parties. -/
structure Case.Carried (c : Config) (msg : Msg) (k : Case) : Prop where
  unfinished : k.closed = false
  initiator : k.disputeInitiator = msg.sender
  window : k.timestamp.toNat + c.voteWindowTime.toNat ≤ msg.timestamp.toNat
  majority : 0 < k.tally
  voters : ∀ b ∈ k.ballots, b.voter ≠ k.miner ∧ b.voter ≠ k.disputeInitiator ∧ c.minStake ≤ b.stake

/-- The account 11 closes its case against 12. -/
def closingTx : Tx sampleDeployment :=
  ⟨⟨.ofNat 11, 30, 30⟩, .dispute (.finishDispute openedHash), by decide⟩

end Dione.Contracts
