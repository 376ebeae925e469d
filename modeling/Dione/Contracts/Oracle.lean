/-
  Dione.Contracts.Oracle

  `DioneOracle.sol`: requests for data from other chains, which a miner answers
  for a reward.
-/

import Dione.Contracts.Staking

namespace Dione.Contracts

open Guard

structure OracleRequest where
  requestSender : Address
  originChain : UInt8
  requestType : String
  requestParams : String
  callbackAddress : Address
  callbackMethodID : BitVec 32
  reqID : Uint256
  deadline : Int256
  data : Bytes
  deriving DecidableEq, Repr

/-- The storage of `DioneOracle`. -/
structure DioneOracle where
  requestCounter : Uint256
  pendingRequests : Uint256 → OracleRequest

/-- Storage never written, or deleted. -/
def OracleRequest.zero : OracleRequest := ⟨.zero, 0, "", "", .zero, 0, 0, 0, []⟩

/-- `MAXIMUM_DELAY`, five minutes. -/
def maximumDelay : Uint256 := 300

namespace DioneOracle

/-- The storage after the constructor. -/
def deployed : DioneOracle := ⟨0, fun _ => .zero⟩

/-- Write `pendingRequests[reqID]`. -/
def setRequest (o : DioneOracle) (reqID : Uint256) (request : OracleRequest) : DioneOracle :=
  { o with pendingRequests := Function.update o.pendingRequests reqID request }

/-- The modifier `onlyPendingRequest`. -/
def onlyPendingRequest (o : DioneOracle) (reqID : Uint256) : Except Revert Unit :=
  require ((o.pendingRequests reqID).requestSender ≠ .zero) (.reason "this request is not pending")

def requestOracles (msg : Msg) (originChain : UInt8) (requestType requestParams : String)
    (callbackAddress : Address) (callbackMethodID : BitVec 32) (o : DioneOracle) :
    Except Revert (DioneOracle × List Event) := do
  let requestCounter ← Checked.add .overflow o.requestCounter 1
  let requestDeadline ← Checked.add .overflow msg.timestamp maximumDelay
  let request : OracleRequest :=
    { requestSender := msg.sender
      originChain := originChain
      requestType := requestType
      requestParams := requestParams
      callbackAddress := callbackAddress
      callbackMethodID := callbackMethodID
      reqID := requestCounter
      deadline := requestDeadline
      data := [] }
  return ({ o with requestCounter := requestCounter }.setRequest requestCounter request,
    [.newOracleRequest originChain requestType requestParams requestCounter requestDeadline])

def cancelOracleRequest (msg : Msg) (reqID : Uint256) (o : DioneOracle) :
    Except Revert (DioneOracle × List Event) := do
  o.onlyPendingRequest reqID
  require (msg.sender = (o.pendingRequests reqID).requestSender)
    (.reason "you aren't request sender")
  return (o.setRequest reqID .zero, [.cancelOracleRequest reqID])

/-- `submitOracleRequest` up to its low-level call, which is the last of what is
    returned; `self` and `stakingAddr` are the addresses of this contract and of the
    staking contract.  The request is deleted before its callback is read, so the
    call goes to `address(0)`, where there is no code to run. -/
def answer (self stakingAddr : Address) (msg : Msg) (reqID : Uint256) (data : Bytes)
    (dioneStaking : DioneStaking) (t : DioneToken) (o : DioneOracle) :
    Except Revert (DioneOracle × (DioneStaking × DioneToken) × Event) := do
  o.onlyPendingRequest reqID
  -- anybody may submit, for any pending request
  let left ← Checked.ssub .overflow (o.pendingRequests reqID).deadline msg.timestamp
  require (0 ≤ left.toInt) (.reason "submission has exceeded the deadline")
  let o := o.setRequest reqID .zero
  let paid ← dioneStaking.mineAndStake stakingAddr { msg with sender := self } msg.sender t
  -- read after the deletion
  let request := o.pendingRequests reqID
  return (o, paid, .callback request.callbackAddress request.callbackMethodID reqID data)

/-- `submitOracleRequest`: after the low-level call only the event is emitted. -/
def submitOracleRequest (self stakingAddr : Address) (msg : Msg) (reqID : Uint256) (data : Bytes)
    (dioneStaking : DioneStaking) (t : DioneToken) (o : DioneOracle) :
    Except Revert (DioneOracle × (DioneStaking × DioneToken) × List Event) := do
  let (o, paid, call) ← o.answer self stakingAddr msg reqID data dioneStaking t
  return (o, paid, [call, .submittedOracleRequest reqID data])

/-- A request that can be cancelled or answered. -/
def Pending (o : DioneOracle) (reqID : Uint256) : Prop :=
  (o.pendingRequests reqID).requestSender ≠ .zero

instance (o : DioneOracle) (reqID : Uint256) : Decidable (o.Pending reqID) :=
  inferInstanceAs (Decidable (_ ≠ _))

/-! ## Successful calls -/

@[simp] theorem pendingRequests_setRequest (o : DioneOracle) (reqID : Uint256)
    (request : OracleRequest) : (o.setRequest reqID request).pendingRequests reqID = request :=
  Function.update_self ..

theorem pendingRequests_setRequest_of_ne (o : DioneOracle) {reqID id : Uint256}
    (request : OracleRequest) (hne : id ≠ reqID) :
    (o.setRequest reqID request).pendingRequests id = o.pendingRequests id :=
  Function.update_of_ne hne ..

/-- Deleting a request makes that request, and no other, stop being pending. -/
theorem pending_delete {o : DioneOracle} {reqID id : Uint256} :
    (o.setRequest reqID .zero).Pending id ↔ id ≠ reqID ∧ o.Pending id := by
  unfold Pending
  by_cases hid : id = reqID
  · subst hid
    rw [pendingRequests_setRequest]
    simp [OracleRequest.zero]
  · rw [pendingRequests_setRequest_of_ne _ _ hid]
    simp [hid]

section Inversion

variable {self stakingAddr callbackAddress : Address} {msg : Msg} {reqID : Uint256} {data : Bytes}
  {originChain : UInt8} {requestType requestParams : String} {callbackMethodID : BitVec 32}
  {s : DioneStaking} {t : DioneToken} {o o' : DioneOracle} {paid : DioneStaking × DioneToken}
  {evs : List Event} {call : Event}

theorem requestOracles_eq_ok :
    o.requestOracles msg originChain requestType requestParams callbackAddress callbackMethodID
        = .ok (o', evs) ↔
      ∃ id : Uint256, id.toNat = o.requestCounter.toNat + 1 ∧
        ∃ deadline : Uint256, deadline.toNat = msg.timestamp.toNat + maximumDelay.toNat ∧
          { o with requestCounter := id }.setRequest id ⟨msg.sender, originChain, requestType,
            requestParams, callbackAddress, callbackMethodID, id, deadline, []⟩ = o' ∧
          [.newOracleRequest originChain requestType requestParams id deadline] = evs := by
  simp only [requestOracles, bind_eq_ok, Checked.add_eq_ok, pure_eq_ok_iff, Prod.mk.injEq]
  rfl

theorem cancelOracleRequest_eq_ok : o.cancelOracleRequest msg reqID = .ok (o', evs) ↔
    o.Pending reqID ∧ msg.sender = (o.pendingRequests reqID).requestSender ∧
      o.setRequest reqID .zero = o' ∧ [.cancelOracleRequest reqID] = evs := by
  simp only [cancelOracleRequest, onlyPendingRequest, bind_eq_ok, require_eq_ok, exists_const,
    pure_eq_ok_iff, Prod.mk.injEq, Pending]

/-- The low-level call goes nowhere, whatever the request asked for. -/
theorem answer_eq_ok : o.answer self stakingAddr msg reqID data s t = .ok (o', paid, call) ↔
    o.Pending reqID ∧
      (∃ left : Int256,
        left.toInt = (o.pendingRequests reqID).deadline.toInt - msg.timestamp.toInt ∧
          0 ≤ left.toInt) ∧
      s.mineAndStake stakingAddr { msg with sender := self } msg.sender t = .ok paid ∧
      o.setRequest reqID .zero = o' ∧ .callback .zero 0 reqID data = call := by
  simp only [answer, onlyPendingRequest, bind_eq_ok, require_eq_ok, exists_const,
    Checked.ssub_eq_ok, pure_eq_ok_iff, Prod.mk.injEq, pendingRequests_setRequest, Pending]
  constructor
  · rintro ⟨hpending, left, hleft, hnonneg, paid', hpaid, rfl, rfl, rfl⟩
    exact ⟨hpending, ⟨left, hleft, hnonneg⟩, hpaid, rfl, rfl⟩
  · rintro ⟨hpending, ⟨left, hleft, hnonneg⟩, hpaid, rfl, rfl⟩
    exact ⟨hpending, left, hleft, hnonneg, paid, hpaid, rfl, rfl, rfl⟩

theorem submitOracleRequest_eq_ok :
    o.submitOracleRequest self stakingAddr msg reqID data s t = .ok (o', paid, evs) ↔
      ∃ call, o.answer self stakingAddr msg reqID data s t = .ok (o', paid, call) ∧
        [call, .submittedOracleRequest reqID data] = evs := by
  simp only [submitOracleRequest, bind_eq_ok, pure_eq_ok_iff, Prod.mk.injEq]
  constructor
  · rintro ⟨⟨o₁, paid₁, call⟩, hanswer, rfl, rfl, rfl⟩
    exact ⟨call, hanswer, rfl⟩
  · rintro ⟨call, hanswer, rfl⟩
    exact ⟨(o', paid, call), hanswer, rfl, rfl, rfl⟩

end Inversion

end DioneOracle

end Dione.Contracts
