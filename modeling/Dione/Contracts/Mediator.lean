/-
  Dione.Contracts.Mediator

  `Mediator.sol`, the contract that asks the oracle and waits for the answer, and
  whether answers get to whoever asked.

  `submitOracleRequest` deletes the request before it reads where to deliver the
  answer.  So the answer goes to `address(0)`, although the storage still had the
  callback when the submission began.  `Mediator` adds a slip of its own: the
  signature it hashes has a blank that the selector of its callback has not.
-/

import Dione.Contracts.Requests
import Dione.Contracts.Solvency

namespace Dione.Contracts

open Guard Text

/-- `bytes4(keccak256(signature))`. -/
def selector (evm : Evm) (signature : String) : BitVec 32 :=
  (evm.keccak256 (textBytes signature.toList)).extractLsb' 224 32

/-- A `Mediator` that works with the deployed oracle. -/
structure Mediator (D : Deployment) where
  address : Address
  external : D.External address

namespace Mediator

variable {D : Deployment} (m : Mediator D) (evm : Evm)

/-- `request`, as the call of `requestOracles` it makes. -/
def request (msg : Msg) (originChain : UInt8) (requestType requestParams : String) : Tx D where
  msg := { msg with sender := m.address }
  call := .oracle (.requestOracles originChain requestType requestParams m.address
    (selector evm "_receiveDataCallback(uint256, string)"))
  external := m.external

/-- `_receiveDataCallback`, with what `DataReceived` says. -/
def _receiveDataCallback (sender : Address) (reqID : Uint256) (data : Bytes) :
    Except Revert (Uint256 × Bytes) := do
  require (sender = D.oracle) (.reason "")
  return (reqID, data)

/-- The `DataReceived` that a low-level call of the oracle makes the mediator
    emit.  A `bytes` argument is encoded as a `string` is. -/
def received? : Event → Option (Uint256 × Bytes)
  | .callback target methodID reqID data =>
    if target = m.address ∧ methodID = selector evm "_receiveDataCallback(uint256,string)" then
      (_receiveDataCallback (D := D) D.oracle reqID data).toOption
    else none
  | _ => none

end Mediator

/-- The events of what happened between two states. -/
def World.emitted (w w' : World) : List Event := w'.events.drop w.events.length

/-- The answer got to who asked with the call `asked`: the low-level call is the
    one that was asked for, and a mediator emits `DataReceived`. -/
structure Delivered {D : Deployment} (evm : Evm) (asked : Tx D) (reqID : Uint256) (data : Bytes)
    (evs : List Event) : Prop where
  called : ∀ originChain requestType requestParams callbackAddress callbackMethodID,
    asked.call = .oracle (.requestOracles originChain requestType requestParams callbackAddress
      callbackMethodID) → .callback callbackAddress callbackMethodID reqID data ∈ evs
  received : ∀ (m : Mediator D) msg originChain requestType requestParams,
    asked = m.request evm msg originChain requestType requestParams →
      (reqID, data) ∈ evs.filterMap (m.received? evm)

/-! ## What is stored of a request -/

section Steps

variable {D : Deployment} {evm : Evm} {msg : Msg} {w w' : World}

/-- A call adds a request under a new number, deletes one or leaves them alone. -/
theorem oracle_of_run {c : Call} (h : c.run D evm msg w = .ok w') :
    w'.oracle = w.oracle ∨
      (∃ (id : Uint256) (request : OracleRequest), id.toNat = w.oracle.requestCounter.toNat + 1 ∧
        w'.oracle = { w.oracle with requestCounter := id }.setRequest id request) ∨
      ∃ id, w'.oracle = w.oracle.setRequest id .zero := by
  cases c with
  | oracle oc =>
      cases oc with
      | requestOracles originChain requestType requestParams callbackAddress methodID =>
          obtain ⟨evs, hrequest, -⟩ := requestOracles_run h
          obtain ⟨id, hid, deadline, -, horacle, -⟩ :=
            DioneOracle.requestOracles_eq_ok.mp hrequest
          exact .inr (.inl ⟨id, _, hid, horacle.symm⟩)
      | cancelOracleRequest reqID =>
          obtain ⟨evs, hcancel, -⟩ := cancelOracleRequest_run h
          obtain ⟨-, -, horacle, -⟩ := DioneOracle.cancelOracleRequest_eq_ok.mp hcancel
          exact .inr (.inr ⟨reqID, horacle.symm⟩)
      | submitOracleRequest reqID data =>
          obtain ⟨w₁, hanswer, rfl⟩ := submitOracleRequest_run.mp h
          obtain ⟨call, horacle, -⟩ := answer_run hanswer
          obtain ⟨-, -, -, horacle, -⟩ := DioneOracle.answer_eq_ok.mp horacle
          exact .inr (.inr ⟨reqID, horacle.symm⟩)
  | _ => exact .inl (oracle_eq_of_not_oracle (by simp) h).1

/-- The number is taken, and as long as the request is pending it is `request`. -/
def Kept (reqID : Uint256) (request : OracleRequest) (w : World) : Prop :=
  reqID.toNat ≤ w.oracle.requestCounter.toNat ∧
    (w.oracle.Pending reqID → w.oracle.pendingRequests reqID = request)

theorem kept_step {reqID : Uint256} {request : OracleRequest} (w : World) (tx : Tx D)
    (h : Kept reqID request w) : Kept reqID request (w.step D evm tx) := by
  unfold World.step
  split
  · next w' hrun =>
      obtain ⟨htaken, hkept⟩ := h
      unfold Kept
      rcases oracle_of_run hrun with horacle | ⟨id, other, hid, horacle⟩ | ⟨id, horacle⟩
      · rw [horacle]
        exact ⟨htaken, hkept⟩
      · have hne : reqID ≠ id := by
          rintro rfl
          omega
        rw [horacle]
        refine ⟨?_, ?_⟩
        · show reqID.toNat ≤ id.toNat
          omega
        · unfold DioneOracle.Pending
          rw [DioneOracle.pendingRequests_setRequest_of_ne _ _ hne]
          exact hkept
      · rw [horacle]
        refine ⟨htaken, ?_⟩
        intro hpending
        obtain ⟨hne, hstill⟩ := DioneOracle.pending_delete.mp hpending
        rw [DioneOracle.pendingRequests_setRequest_of_ne _ _ hne]
        exact hkept hstill
  · exact h

/-- A submission calls nobody and then says that it has submitted. -/
theorem emitted_of_submit {reqID : Uint256} {data : Bytes}
    (h : (Call.oracle (.submitOracleRequest reqID data)).run D evm msg w = .ok w') :
    w.oracle.Pending reqID ∧
      w.emitted w' = [.callback .zero 0 reqID data, .submittedOracleRequest reqID data] := by
  obtain ⟨w₁, hanswer, rfl⟩ := submitOracleRequest_run.mp h
  obtain ⟨call, horacle, hevents⟩ := answer_run hanswer
  -- the callback is read after `delete`
  obtain ⟨hpending, -, -, -, rfl⟩ := DioneOracle.answer_eq_ok.mp horacle
  refine ⟨hpending, ?_⟩
  simp only [World.emitted, hevents, List.append_assoc, List.drop_left]
  rfl

end Steps

section Runs

variable {D : Deployment} {evm : Evm} {c : Config} {asked : Tx D} {w₁ : World}
  {originChain : UInt8} {requestType requestParams : String} {callbackAddress : Address}
  {callbackMethodID : BitVec 32}

/-- Whatever happens after a request, while it is pending its callback is stored. -/
theorem callback_of_pending {before later : List (Tx D)}
    (hcall : asked.call = .oracle (.requestOracles originChain requestType requestParams
      callbackAddress callbackMethodID))
    (hrequest : asked.call.run D evm asked.msg (.after D evm c before) = .ok w₁)
    (hpending : (World.after D evm c (before ++ asked :: later)).oracle.Pending
      w₁.oracle.requestCounter) :
    ((World.after D evm c (before ++ asked :: later)).oracle.pendingRequests
        w₁.oracle.requestCounter).callbackAddress = callbackAddress ∧
      ((World.after D evm c (before ++ asked :: later)).oracle.pendingRequests
        w₁.oracle.requestCounter).callbackMethodID = callbackMethodID := by
  have hstep : (World.after D evm c before).step D evm asked = w₁ := by
    unfold World.step
    rw [hrequest]
  rw [hcall] at hrequest
  obtain ⟨evs, hrequest, -⟩ := requestOracles_run hrequest
  obtain ⟨id, -, deadline, -, horacle, -⟩ := DioneOracle.requestOracles_eq_ok.mp hrequest
  have hcounter : w₁.oracle.requestCounter = id := by
    rw [← horacle]
    rfl
  have hkept : Kept id ⟨asked.msg.sender, originChain, requestType, requestParams,
      callbackAddress, callbackMethodID, id, deadline, []⟩ w₁ := by
    refine ⟨le_of_eq (congrArg BitVec.toNat hcounter.symm), ?_⟩
    intro _
    rw [← horacle, DioneOracle.pendingRequests_setRequest]
  have hafter : World.after D evm c (before ++ asked :: later)
      = Run.exec (World.step D evm) w₁ later := by
    rw [World.after, Run.exec_append, Run.exec_cons, ← hstep]
    rfl
  rw [hafter, hcounter] at hpending ⊢
  have hstored := (Run.exec_invariant kept_step hkept later).2 hpending
  rw [hstored]
  exact ⟨rfl, rfl⟩

/-- A request is answered with the call it asks for, and a mediator's request with
    `DataReceived`, exactly if the stored callback is that of nobody. -/
theorem delivered_iff (before later : List (Tx D))
    (hcall : asked.call = .oracle (.requestOracles originChain requestType requestParams
      callbackAddress callbackMethodID))
    (hrequest : asked.call.run D evm asked.msg (.after D evm c before) = .ok w₁)
    {msg : Msg} {data : Bytes} {w' : World}
    (hsubmit : (Call.oracle (.submitOracleRequest w₁.oracle.requestCounter data)).run D evm msg
      (.after D evm c (before ++ asked :: later)) = .ok w') :
    Delivered evm asked w₁.oracle.requestCounter data
        ((World.after D evm c (before ++ asked :: later)).emitted w') ↔
      ((World.after D evm c (before ++ asked :: later)).oracle.pendingRequests
          w₁.oracle.requestCounter).callbackAddress = .zero ∧
        ((World.after D evm c (before ++ asked :: later)).oracle.pendingRequests
          w₁.oracle.requestCounter).callbackMethodID = 0 := by
  obtain ⟨hpending, hemitted⟩ := emitted_of_submit hsubmit
  obtain ⟨haddress, hmethod⟩ := callback_of_pending hcall hrequest hpending
  rw [hemitted, haddress, hmethod]
  constructor
  · intro h
    have hcalled := h.called _ _ _ _ _ hcall
    simp only [List.mem_cons, Event.callback.injEq, reduceCtorEq, List.not_mem_nil,
      or_false] at hcalled
    exact ⟨hcalled.1, hcalled.2.1⟩
  · rintro ⟨rfl, rfl⟩
    refine ⟨?_, ?_⟩
    · intro _ _ _ target methodID hsame
      rw [hcall] at hsame
      injection hsame with hsame
      injection hsame with _ _ _ htarget hmethodID
      rw [← htarget, ← hmethodID]
      exact List.mem_cons_self ..
    · -- a mediator asks for a call of itself, and it is not at `address(0)`
      rintro m msg' _ _ _ rfl
      injection hcall with hsame
      injection hsame with _ _ _ htarget _
      exact absurd (htarget ▸ List.mem_cons_self ..) m.external

end Runs

/-- The staking contract may mint, and pays for the oracle. -/
def oracleReady : List (Tx sampleDeployment) :=
  sampleDeployment.txs [(.ofNat 10, 1, .token (.transferOwnership (.ofNat 2))),
    (.ofNat 10, 1, .staking (.setOracleContractAddress (.ofNat 4)))]

/-- A request with no callback. -/
def bareRequest : Tx sampleDeployment where
  msg := ⟨.ofNat 11, 2, 2⟩
  call := .oracle (.requestOracles 1 "getTransaction" "tx" .zero 0)
  external := by decide

def sampleMediator : Mediator sampleDeployment := ⟨.ofNat 20, by decide⟩

/-- The same request by a mediator. -/
def mediatorRequest : Tx sampleDeployment :=
  sampleMediator.request sampleEvm ⟨.ofNat 11, 2, 2⟩ 1 "getTransaction" "tx"

/-- The answer of a miner to the first request. -/
def answered (asked : Tx sampleDeployment) : Except Revert World :=
  (Call.oracle (.submitOracleRequest 1 [7])).run sampleDeployment sampleEvm ⟨.ofNat 11, 3, 3⟩
    (.after sampleDeployment sampleEvm sampleConfig (oracleReady ++ [asked]))

/-- The number of requests after a call that succeeds. -/
def requestsOf (r : Except Revert World) : Option Uint256 :=
  r.toOption.map (·.oracle.requestCounter)

theorem exists_of_requestsOf {r : Except Revert World} {n : Uint256} (h : requestsOf r = some n) :
    ∃ w, r = .ok w ∧ w.oracle.requestCounter = n := by
  cases r with
  | error e => cases h
  | ok w => exact ⟨w, rfl, Option.some.inj h⟩

theorem delivered_bareRequest :
    ∃ w', answered bareRequest = .ok w' ∧ Delivered sampleEvm bareRequest 1 [7]
      ((World.after sampleDeployment sampleEvm sampleConfig
        (oracleReady ++ [bareRequest])).emitted w') := by
  obtain ⟨w₁, hrequest, hcounter⟩ := exists_of_requestsOf
    (show requestsOf (bareRequest.call.run sampleDeployment sampleEvm bareRequest.msg
      (.after sampleDeployment sampleEvm sampleConfig oracleReady)) = some 1 by decide +kernel)
  obtain ⟨w', hsubmit, -⟩ := exists_of_requestsOf
    (show requestsOf (answered bareRequest) = some 1 by decide +kernel)
  have hanswer : (Call.oracle (.submitOracleRequest w₁.oracle.requestCounter [7])).run
      sampleDeployment sampleEvm ⟨.ofNat 11, 3, 3⟩
      (.after sampleDeployment sampleEvm sampleConfig (oracleReady ++ [bareRequest])) = .ok w' := by
    rw [hcounter]
    exact hsubmit
  have hiff := delivered_iff oracleReady [] rfl hrequest hanswer
  rw [hcounter] at hiff
  exact ⟨w', hsubmit, hiff.mpr (by decide +kernel)⟩

/-- The mediator's request is answered, and the mediator hears nothing of it. -/
theorem not_delivered_mediatorRequest :
    ∃ w', answered mediatorRequest = .ok w' ∧ ¬ Delivered sampleEvm mediatorRequest 1 [7]
      ((World.after sampleDeployment sampleEvm sampleConfig
        (oracleReady ++ [mediatorRequest])).emitted w') := by
  obtain ⟨w', hsubmit, -⟩ := exists_of_requestsOf
    (show requestsOf (answered mediatorRequest) = some 1 by decide +kernel)
  refine ⟨w', hsubmit, ?_⟩
  intro h
  have hreceived := h.received sampleMediator _ _ _ _ rfl
  rw [(emitted_of_submit hsubmit).2] at hreceived
  revert hreceived
  decide +kernel

end Dione.Contracts
