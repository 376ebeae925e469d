/-
  Dione.Contracts.Dispute

  `DioneDispute.sol`: a miner opens a dispute against another, miners vote on it
  with their stakes, and the initiator closes it after the vote window, which
  slashes the accused if the votes say so.
-/

import Dione.Contracts.Staking

namespace Dione.Contracts

open Guard

structure Dispute where
  dhash : Bytes32
  sum : Int256
  finished : Bool
  disputeResult : Bool
  miner : Address
  disputeInitiator : Address
  timestamp : Uint256
  voted : List Address
  deriving DecidableEq, Repr

/-- The storage of `DioneDispute`. -/
structure DioneDispute where
  voteWindowTime : Uint256
  minStake : Uint256
  disputes : Bytes32 → Dispute

/-- Storage never written. -/
def Dispute.zero : Dispute := ⟨0, 0, false, false, .zero, .zero, 0, []⟩

namespace DioneDispute

/-- The storage after the constructor. -/
def deployed (voteWindowTime minStake : Uint256) : DioneDispute :=
  ⟨voteWindowTime, minStake, fun _ => .zero⟩

/-- Write `disputes[dhash]`. -/
def setDispute (d : DioneDispute) (dhash : Bytes32) (dispute : Dispute) : DioneDispute :=
  { d with disputes := Function.update d.disputes dhash dispute }

/-- The key of a dispute, `keccak256(abi.encodePacked(miner, requestID))`. -/
def disputeHash (evm : Evm) (miner : Address) (requestID : Uint256) : Bytes32 :=
  evm.keccak256 (packedAddress miner ++ abiWords [requestID])

/-- The modifier `onlyExistingDispute`. -/
def onlyExistingDispute (d : DioneDispute) (dhash : Bytes32) : Except Revert Unit :=
  require ((d.disputes dhash).disputeInitiator ≠ .zero) (.reason "dispute doesn't exist")

/-- `beginDispute`.  It leaves `voted` as it is. -/
def beginDispute (evm : Evm) (msg : Msg) (miner : Address) (requestID : Uint256)
    (dioneStaking : DioneStaking) (d : DioneDispute) :
    Except Revert (DioneDispute × List Event) := do
  let dhash := disputeHash evm miner requestID
  -- a dispute against `address(0)` passes this check again and again
  require ((d.disputes dhash).miner = .zero) (.reason "dispute already exists")
  require (dioneStaking.isMiner msg.sender = true) (.reason "caller isn't dione miner")
  let dispute := { d.disputes dhash with
    dhash := dhash
    sum := 0
    finished := false
    disputeResult := false
    miner := miner
    timestamp := msg.timestamp
    disputeInitiator := msg.sender }
  return (d.setDispute dhash dispute, [.newDispute dhash requestID miner msg.sender])

/-- The sum after a vote. -/
def countVote (voteStatus : Bool) (sum : Int256) (stake : Uint256) : Except Revert Int256 :=
  if voteStatus then Checked.sadd .overflow sum stake else Checked.ssub .overflow sum stake

def vote (msg : Msg) (dhash : Bytes32) (voteStatus : Bool) (dioneStaking : DioneStaking)
    (d : DioneDispute) : Except Revert (DioneDispute × List Event) := do
  d.onlyExistingDispute dhash
  let dispute := d.disputes dhash
  require (dispute.finished = false) (.reason "dispute already finished")
  require (msg.sender ≠ dispute.disputeInitiator)
    (.reason "dispute initiator isn't allowed to vote")
  require (msg.sender ≠ dispute.miner)
    (.reason "the miner against whom dispute has beginned isn't allowed to vote")
  require (dioneStaking.isMiner msg.sender = true) (.reason "caller isn't dione miner")
  require (d.minStake ≤ dioneStaking.minerStake msg.sender)
    (.reason "miner doesn't have minimum stake to vote")
  -- the list of voters is not consulted
  let sum ← countVote voteStatus dispute.sum (dioneStaking.minerStake msg.sender)
  return (d.setDispute dhash
    { dispute with sum := sum, voted := dispute.voted ++ [msg.sender] },
    [.newVote dhash msg.sender])

/-- The part of `finishDispute` after its checks; `self` is the address of the
    dispute contract. -/
def settleDispute (self : Address) (msg : Msg) (dhash : Bytes32) (dioneStaking : DioneStaking)
    (d : DioneDispute) : Except Revert (DioneDispute × DioneStaking × List Event) :=
  let dispute := d.disputes dhash
  if dispute.sum.toInt ≤ 0 then
    return (d.setDispute dhash { dispute with disputeResult := false, finished := true },
      dioneStaking, [.disputeFinished dhash false])
  else do
    let voted := dispute.voted ++ [msg.sender]
    let dioneStaking ← dioneStaking.slashMiner { msg with sender := self } dispute.miner voted
    return (d.setDispute dhash
        { dispute with disputeResult := true, voted := voted, finished := true },
      dioneStaking, [.disputeFinished dhash true])

def finishDispute (self : Address) (msg : Msg) (dhash : Bytes32) (dioneStaking : DioneStaking)
    (d : DioneDispute) : Except Revert (DioneDispute × DioneStaking × List Event) := do
  d.onlyExistingDispute dhash
  let dispute := d.disputes dhash
  -- the subtraction itself reverts before the dispute's own time
  let elapsed ← Checked.sub .overflow msg.timestamp dispute.timestamp
  require (d.voteWindowTime ≤ elapsed) (.reason "vote window hasn't passed yet")
  require (dispute.finished = false) (.reason "dispute already finished")
  require (dispute.disputeInitiator = msg.sender)
    (.reason "only dispute initiator can call this function")
  d.settleDispute self msg dhash dioneStaking

/-! ## Successful calls -/

@[simp] theorem disputes_setDispute (d : DioneDispute) (dhash : Bytes32) (dispute : Dispute) :
    (d.setDispute dhash dispute).disputes dhash = dispute :=
  Function.update_self ..

theorem disputes_setDispute_of_ne (d : DioneDispute) {dhash dhash' : Bytes32} (dispute : Dispute)
    (hne : dhash' ≠ dhash) : (d.setDispute dhash dispute).disputes dhash' = d.disputes dhash' :=
  Function.update_of_ne hne ..

section Inversion

variable {evm : Evm} {self miner : Address} {msg : Msg} {requestID : Uint256} {dhash : Bytes32}
  {voteStatus : Bool} {s s' : DioneStaking} {d d' : DioneDispute} {evs : List Event}

/-- The dispute `beginDispute` writes over what is stored. -/
def begun (dhash : Bytes32) (miner : Address) (msg : Msg) (dispute : Dispute) : Dispute :=
  { dispute with
    dhash := dhash, sum := 0, finished := false, disputeResult := false, miner := miner
    timestamp := msg.timestamp, disputeInitiator := msg.sender }

theorem beginDispute_eq_ok : d.beginDispute evm msg miner requestID s = .ok (d', evs) ↔
    (d.disputes (disputeHash evm miner requestID)).miner = .zero ∧
      s.isMiner msg.sender = true ∧
      d.setDispute (disputeHash evm miner requestID)
        (begun (disputeHash evm miner requestID) miner msg
          (d.disputes (disputeHash evm miner requestID))) = d' ∧
      [.newDispute (disputeHash evm miner requestID) requestID miner msg.sender] = evs := by
  simp only [beginDispute, bind_eq_ok, require_eq_ok, exists_const, pure_eq_ok_iff,
    Prod.mk.injEq, begun]

/-- The signed stake a vote stands for. -/
def ballot (voteStatus : Bool) (stake : Uint256) : Int :=
  if voteStatus then stake.toInt else -stake.toInt

theorem countVote_eq_ok {sum sum' : Int256} {stake : Uint256} :
    countVote voteStatus sum stake = .ok sum' ↔
      sum'.toInt = sum.toInt + ballot voteStatus stake := by
  cases voteStatus with
  | true => exact Checked.sadd_eq_ok
  | false =>
      have hsub : sum.toInt - stake.toInt = sum.toInt + -stake.toInt := Int.sub_eq_add_neg
      show Checked.ssub Revert.overflow sum stake = .ok sum' ↔
        sum'.toInt = sum.toInt + -stake.toInt
      rw [Checked.ssub_eq_ok, hsub]

theorem vote_eq_ok : d.vote msg dhash voteStatus s = .ok (d', evs) ↔
    (d.disputes dhash).disputeInitiator ≠ .zero ∧ (d.disputes dhash).finished = false ∧
      msg.sender ≠ (d.disputes dhash).disputeInitiator ∧ msg.sender ≠ (d.disputes dhash).miner ∧
      s.isMiner msg.sender = true ∧ d.minStake ≤ s.minerStake msg.sender ∧
      ∃ sum : Int256, sum.toInt = (d.disputes dhash).sum.toInt
          + ballot voteStatus (s.minerStake msg.sender) ∧
        d.setDispute dhash { d.disputes dhash with
          sum := sum, voted := (d.disputes dhash).voted ++ [msg.sender] } = d' ∧
        [.newVote dhash msg.sender] = evs := by
  simp only [vote, onlyExistingDispute, bind_eq_ok, require_eq_ok, exists_const, countVote_eq_ok,
    pure_eq_ok_iff, Prod.mk.injEq]

/-- The conditions `finishDispute` checks itself. -/
structure Finishable (d : DioneDispute) (dhash : Bytes32) (msg : Msg) : Prop where
  existing : (d.disputes dhash).disputeInitiator ≠ .zero
  window : (d.disputes dhash).timestamp.toNat + d.voteWindowTime.toNat ≤ msg.timestamp.toNat
  unfinished : (d.disputes dhash).finished = false
  initiator : (d.disputes dhash).disputeInitiator = msg.sender

/-- The dispute `finishDispute` leaves. -/
def closed (msg : Msg) (dispute : Dispute) : Dispute :=
  if dispute.sum.toInt ≤ 0 then { dispute with disputeResult := false, finished := true }
  else { dispute with
    disputeResult := true, voted := dispute.voted ++ [msg.sender], finished := true }

theorem settleDispute_eq_ok : d.settleDispute self msg dhash s = .ok (d', s', evs) ↔
    (if (d.disputes dhash).sum.toInt ≤ 0 then s = s'
      else s.slashMiner { msg with sender := self } (d.disputes dhash).miner
        ((d.disputes dhash).voted ++ [msg.sender]) = .ok s') ∧
      d.setDispute dhash (closed msg (d.disputes dhash)) = d' ∧
      [.disputeFinished dhash (closed msg (d.disputes dhash)).disputeResult] = evs := by
  unfold settleDispute closed
  by_cases hsum : (d.disputes dhash).sum.toInt ≤ 0
  · simp only [if_pos hsum, pure_eq_ok_iff, Prod.mk.injEq]
    tauto
  · simp only [if_neg hsum, bind_eq_ok, pure_eq_ok_iff, Prod.mk.injEq]
    constructor
    · rintro ⟨s₁, hslash, rfl, rfl, rfl⟩
      exact ⟨hslash, rfl, rfl⟩
    · rintro ⟨hslash, rfl, rfl⟩
      exact ⟨s', hslash, rfl, rfl, rfl⟩

theorem finishDispute_eq_ok : d.finishDispute self msg dhash s = .ok (d', s', evs) ↔
    d.Finishable dhash msg ∧ d.settleDispute self msg dhash s = .ok (d', s', evs) := by
  simp only [finishDispute, onlyExistingDispute, bind_eq_ok, require_eq_ok, exists_const,
    Checked.sub_eq_ok, BitVec.le_def]
  constructor
  · rintro ⟨hexisting, elapsed, helapsed, hwindow, hunfinished, hinitiator, h⟩
    exact ⟨⟨hexisting, by omega, hunfinished, hinitiator⟩, h⟩
  · rintro ⟨⟨hexisting, hwindow, hunfinished, hinitiator⟩, h⟩
    obtain ⟨elapsed, -, helapsed⟩ := Checked.exists_sub (e := Revert.overflow)
      (show (d.disputes dhash).timestamp.toNat ≤ msg.timestamp.toNat by omega)
    exact ⟨hexisting, elapsed, helapsed, by omega, hunfinished, hinitiator, h⟩

end Inversion

end DioneDispute

end Dione.Contracts
