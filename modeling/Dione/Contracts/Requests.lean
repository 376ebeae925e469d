/-
  Dione.Contracts.Requests

  The life of an oracle request: issued, pending, and then either cancelled by
  who asked for it or answered for a reward, once.

  `submitOracleRequest` makes a low-level call between paying the reward and
  emitting its event.  Here that call may run any code: a session is a run in
  which the callbacks of submissions are open for as long as they like, and
  whatever is called meanwhile is called from inside them.  Code that reverts
  takes back all it did, so what is left of it is a session it is no part of.

  A session keeps a history the contracts do not have: each event with the call
  that emitted it, and each change of the stakes with the contract or account that
  asked the staking contract for it.  That the stakes are what these changes add up
  to is part of what is proved.
-/

import Dione.Contracts.Effects
import Dione.Lib.Lists

namespace Dione.Contracts

open Guard Dione.Lists

/-! ## Sessions -/

/-- `submitOracleRequest` of the deployed contracts up to its low-level call. -/
def World.answer (D : Deployment) (msg : Msg) (reqID : Uint256) (data : Bytes) (w : World) :
    Except Revert World := do
  let (oracle, (staking, token), call) ← w.oracle.answer D.oracle D.staking msg reqID data
    w.staking w.token
  return { w with
    oracle := oracle, staking := staking, token := token, events := w.events ++ [call] }

/-- A submission whose callback has not returned. -/
structure Submission where
  msg : Msg
  reqID : Uint256
  data : Bytes
  deriving DecidableEq, Repr

/-- The contracts in the middle of whatever is called; the innermost submission
    comes first, and a booking is recorded with who asked for it. -/
structure Session where
  world : World
  submissions : List Submission
  history : List (Msg × Event)
  bookings : List (Address × Booking)

/-- The contracts just deployed. -/
def Session.deployed (c : Config) : Session := ⟨.deployed c, [], [], []⟩

/-- A call made in a block; the header has 64 bits for the time. -/
structure BlockTx (D : Deployment) extends Tx D where
  clock : msg.timestamp.toNat < 2 ^ 64

/-- What can happen next in a session. -/
inductive Action (D : Deployment) where
  | call (tx : BlockTx D)
  | callbackReturns

/-- Who calls the staking contract in a call. -/
def Call.asker (D : Deployment) (msg : Msg) : Call → Address
  | .token _ | .staking _ => msg.sender
  | .dispute _ => D.dispute
  | .oracle _ => D.oracle

/-- What a successful call books, with who asks for it. -/
def Call.asked (D : Deployment) (w : World) (msg : Msg) (c : Call) : List (Address × Booking) :=
  (c.bookings w msg).map (c.asker D msg, ·)

/-- Take over what a call did, unless it reverted. -/
def Session.record (s : Session) (msg : Msg) (asked : List (Address × Booking))
    (submitted : List Submission) : Except Revert World → Session
  | .ok w =>
    { world := w
      submissions := submitted ++ s.submissions
      history := s.history ++ (w.events.drop s.world.events.length).map (msg, ·)
      bookings := s.bookings ++ asked }
  | .error _ => s

/-- The rest of the innermost `submitOracleRequest`. -/
def Session.finishSubmission (s : Session) : Session :=
  match s.submissions with
  | [] => s
  | ⟨msg, reqID, data⟩ :: outer =>
    { s with
      world := { s.world with
        events := s.world.events ++ [.submittedOracleRequest reqID data] }
      submissions := outer
      history := s.history ++ [(msg, .submittedOracleRequest reqID data)] }

/-- A submission is left open at its callback; every other call is made in one
    go. -/
def Session.step (D : Deployment) (evm : Evm) (s : Session) : Action D → Session
  | .call tx =>
    match tx.call with
    | .oracle (.submitOracleRequest reqID data) =>
      s.record tx.msg (tx.call.asked D s.world tx.msg) [⟨tx.msg, reqID, data⟩]
        (s.world.answer D tx.msg reqID data)
    | c => s.record tx.msg (tx.call.asked D s.world tx.msg) [] (c.run D evm tx.msg s.world)
  | .callbackReturns => s.finishSubmission

/-- The session after the actions `acts`. -/
def Session.after (D : Deployment) (evm : Evm) (c : Config) (acts : List (Action D)) : Session :=
  Run.exec (Session.step D evm) (.deployed c) acts

/-! ## Sessions and transactions -/

section Refinement

variable {D : Deployment} {evm : Evm} {msg : Msg} {w w' : World} {reqID : Uint256} {data : Bytes}

theorem submitOracleRequest_run :
    (Call.oracle (.submitOracleRequest reqID data)).run D evm msg w = .ok w' ↔
      ∃ w₁, w.answer D msg reqID data = .ok w₁ ∧
        { w₁ with events := w₁.events ++ [.submittedOracleRequest reqID data] } = w' := by
  simp only [Call.run, OracleCall.run, World.answer, bind_eq_ok, pure_eq_ok_iff]
  constructor
  · rintro ⟨⟨o, ⟨st, t⟩, evs⟩, hsubmit, rfl⟩
    obtain ⟨call, hanswer, rfl⟩ := DioneOracle.submitOracleRequest_eq_ok.mp hsubmit
    refine ⟨_, ⟨⟨o, ⟨st, t⟩, call⟩, hanswer, rfl⟩, ?_⟩
    simp
  · rintro ⟨w₁, ⟨⟨o, ⟨st, t⟩, call⟩, hanswer, rfl⟩, rfl⟩
    refine ⟨⟨o, ⟨st, t⟩, [call, .submittedOracleRequest reqID data]⟩, ?_, ?_⟩
    · exact DioneOracle.submitOracleRequest_eq_ok.mpr ⟨call, hanswer, rfl⟩
    · simp

/-- A submission whose callback does nothing is one transaction. -/
theorem Session.world_of_submission {s : Session} {tx : BlockTx D}
    (hcall : tx.call = .oracle (.submitOracleRequest reqID data))
    (hrun : tx.call.run D evm tx.msg s.world = .ok w') :
    ((s.step D evm (.call tx)).step D evm .callbackReturns).world = s.world.step D evm tx.toTx := by
  have hworld : s.world.step D evm tx.toTx = w' := by
    unfold World.step
    rw [hrun]
  rw [hcall] at hrun
  obtain ⟨w₁, hanswer, hw'⟩ := submitOracleRequest_run.mp hrun
  have hstep : s.step D evm (.call tx) = s.record tx.msg (tx.call.asked D s.world tx.msg)
      [⟨tx.msg, reqID, data⟩] (.ok w₁) := by
    unfold Session.step
    simp only [hcall, hanswer]
  rw [hworld, hstep, ← hw']
  rfl

/-- Every other call is one transaction by itself. -/
theorem Session.world_of_call {s : Session} {tx : BlockTx D}
    (hcall : ∀ reqID data, tx.call ≠ .oracle (.submitOracleRequest reqID data)) :
    (s.step D evm (.call tx)).world = s.world.step D evm tx.toTx := by
  have hstep : s.step D evm (.call tx) = s.record tx.msg (tx.call.asked D s.world tx.msg) []
      (tx.call.run D evm tx.msg s.world) := by
    unfold Session.step
    simp only
  rw [hstep]
  unfold World.step
  cases tx.call.run D evm tx.msg s.world <;> rfl

end Refinement

/-! ## What one step does to the requests -/

namespace Event

/-- The request the event announces. -/
def issued? : Event → Option Uint256
  | .newOracleRequest _ _ _ reqID _ => some reqID
  | _ => none

/-- The request the event closes. -/
def resolved? : Event → Option Uint256
  | .cancelOracleRequest reqID => some reqID
  | .submittedOracleRequest reqID _ => some reqID
  | _ => none

/-- The event says nothing about a request. -/
def Silent (e : Event) : Prop := e.issued? = none ∧ e.resolved? = none

theorem Silent.isSubmission {e : Event} (h : e.Silent) : e.isSubmission = false := by
  cases e with
  | submittedOracleRequest reqID data => cases h.2
  | _ => rfl

end Event

section Moves

variable {D : Deployment} {evm : Evm} {msg : Msg} {w w' : World}

theorem requestOracles_run {originChain : UInt8} {requestType requestParams : String}
    {callbackAddress : Address} {callbackMethodID : BitVec 32}
    (h : (Call.oracle (.requestOracles originChain requestType requestParams callbackAddress
      callbackMethodID)).run D evm msg w = .ok w') :
    ∃ evs, w.oracle.requestOracles msg originChain requestType requestParams callbackAddress
        callbackMethodID = .ok (w'.oracle, evs) ∧ w'.events = w.events ++ evs := by
  simp only [Call.run, OracleCall.run, bind_eq_ok, pure_eq_ok_iff] at h
  obtain ⟨⟨o, evs⟩, ho, rfl⟩ := h
  exact ⟨evs, ho, rfl⟩

theorem cancelOracleRequest_run {reqID : Uint256}
    (h : (Call.oracle (.cancelOracleRequest reqID)).run D evm msg w = .ok w') :
    ∃ evs, w.oracle.cancelOracleRequest msg reqID = .ok (w'.oracle, evs) ∧
      w'.events = w.events ++ evs := by
  simp only [Call.run, OracleCall.run, bind_eq_ok, pure_eq_ok_iff] at h
  obtain ⟨⟨o, evs⟩, ho, rfl⟩ := h
  exact ⟨evs, ho, rfl⟩

theorem answer_run {reqID : Uint256} {data : Bytes} (h : w.answer D msg reqID data = .ok w') :
    ∃ call, w.oracle.answer D.oracle D.staking msg reqID data w.staking w.token
        = .ok (w'.oracle, (w'.staking, w'.token), call) ∧ w'.events = w.events ++ [call] := by
  simp only [World.answer, bind_eq_ok, pure_eq_ok_iff] at h
  obtain ⟨⟨o, ⟨st, t⟩, call⟩, ho, rfl⟩ := h
  exact ⟨call, ho, rfl⟩

/-- The other three contracts leave the requests alone. -/
theorem oracle_eq_of_not_oracle {c : Call} (hne : ∀ oc, c ≠ .oracle oc)
    (h : c.run D evm msg w = .ok w') :
    w'.oracle = w.oracle ∧ ∃ evs, w'.events = w.events ++ evs ∧ ∀ e ∈ evs, e.Silent := by
  cases c with
  | oracle oc => exact absurd rfl (hne oc)
  | token c =>
      simp only [Call.run, bind_eq_ok, pure_eq_ok_iff] at h
      obtain ⟨t, -, rfl⟩ := h
      exact ⟨rfl, [], by simp, by simp⟩
  | staking c =>
      simp only [Call.run, bind_eq_ok, pure_eq_ok_iff] at h
      obtain ⟨⟨s, t⟩, -, rfl⟩ := h
      exact ⟨rfl, [], by simp, by simp⟩
  | dispute c =>
      cases c with
      | beginDispute miner requestID =>
          simp only [Call.run, DisputeCall.run, bind_eq_ok, pure_eq_ok_iff] at h
          obtain ⟨⟨d, evs⟩, hbegin, rfl⟩ := h
          obtain ⟨-, -, -, rfl⟩ := DioneDispute.beginDispute_eq_ok.mp hbegin
          exact ⟨rfl, _, rfl, by simp [Event.Silent, Event.issued?, Event.resolved?]⟩
      | vote dhash voteStatus =>
          simp only [Call.run, DisputeCall.run, bind_eq_ok, pure_eq_ok_iff] at h
          obtain ⟨⟨d, evs⟩, hvote, rfl⟩ := h
          obtain ⟨-, -, -, -, -, -, -, -, -, rfl⟩ := DioneDispute.vote_eq_ok.mp hvote
          exact ⟨rfl, _, rfl, by simp [Event.Silent, Event.issued?, Event.resolved?]⟩
      | finishDispute dhash =>
          simp only [Call.run, DisputeCall.run, bind_eq_ok, pure_eq_ok_iff] at h
          obtain ⟨⟨d, st, evs⟩, hfinish, rfl⟩ := h
          obtain ⟨-, hsettle⟩ := DioneDispute.finishDispute_eq_ok.mp hfinish
          obtain ⟨-, -, rfl⟩ := DioneDispute.settleDispute_eq_ok.mp hsettle
          exact ⟨rfl, _, rfl, by simp [Event.Silent, Event.issued?, Event.resolved?]⟩

/-- The ways a step can change a session. -/
inductive Session.Move (D : Deployment) (s : Session) : Session → Prop where
  /-- A call that reverted, or a return without a callback. -/
  | stay : Move D s s
  /-- A call of the token, the staking or the dispute contract. -/
  | elsewhere (w : World) (msg : Msg) (evs : List Event) (asked : List (Address × Booking))
      (horacle : w.oracle = s.world.oracle) (hevs : ∀ e ∈ evs, e.Silent)
      (hasked : ∀ p ∈ asked, p.1 ≠ D.oracle) :
      Move D s ⟨w, s.submissions, s.history ++ evs.map (msg, ·), s.bookings ++ asked⟩
  /-- A new request. -/
  | issue (w : World) (msg : Msg) (request : OracleRequest)
      (hclock : msg.timestamp.toNat < 2 ^ 64) (hsender : msg.sender ≠ .zero)
      (hid : request.reqID.toNat = s.world.oracle.requestCounter.toNat + 1)
      (hrequester : request.requestSender = msg.sender)
      (hdeadline : request.deadline.toNat = msg.timestamp.toNat + maximumDelay.toNat)
      (horacle : w.oracle = { s.world.oracle with requestCounter := request.reqID }.setRequest
        request.reqID request) :
      Move D s ⟨w, s.submissions, s.history ++ [(msg, .newOracleRequest request.originChain
        request.requestType request.requestParams request.reqID request.deadline)], s.bookings⟩
  /-- A cancellation. -/
  | cancel (w : World) (msg : Msg) (reqID : Uint256) (hpending : s.world.oracle.Pending reqID)
      (hsender : msg.sender = (s.world.oracle.pendingRequests reqID).requestSender)
      (horacle : w.oracle = s.world.oracle.setRequest reqID .zero) :
      Move D s ⟨w, s.submissions, s.history ++ [(msg, .cancelOracleRequest reqID)], s.bookings⟩
  /-- A submission up to its callback. -/
  | answer (w : World) (sub : Submission) (call : Event) (amount : Uint256)
      (hclock : sub.msg.timestamp.toNat < 2 ^ 64)
      (hpending : s.world.oracle.Pending sub.reqID)
      (htime : sub.msg.timestamp.toInt ≤ (s.world.oracle.pendingRequests sub.reqID).deadline.toInt)
      (horacle : w.oracle = s.world.oracle.setRequest sub.reqID .zero) (hcall : call.Silent) :
      Move D s ⟨w, sub :: s.submissions, s.history ++ [(sub.msg, call)],
        s.bookings ++ [(D.oracle, .reward sub.msg.sender amount)]⟩
  /-- The end of a submission. -/
  | finish (w : World) (sub : Submission) (outer : List Submission)
      (hopen : s.submissions = sub :: outer) (horacle : w.oracle = s.world.oracle) :
      Move D s ⟨w, outer, s.history ++ [(sub.msg, .submittedOracleRequest sub.reqID sub.data)],
        s.bookings⟩

/-- What a successful call adds to the history. -/
theorem Session.record_ok {s : Session} {asked : List (Address × Booking)}
    {submitted : List Submission} {evs : List Event} (hevs : w.events = s.world.events ++ evs) :
    s.record msg asked submitted (.ok w) = ⟨w, submitted ++ s.submissions,
      s.history ++ evs.map (msg, ·), s.bookings ++ asked⟩ := by
  simp only [Session.record, hevs, List.drop_left]

theorem Session.move_submission {s : Session} {reqID : Uint256} {data : Bytes}
    (hclock : msg.timestamp.toNat < 2 ^ 64) :
    s.Move D (s.record msg ((Call.oracle (.submitOracleRequest reqID data)).asked D s.world msg)
      [⟨msg, reqID, data⟩] (s.world.answer D msg reqID data)) := by
  cases hrun : s.world.answer D msg reqID data with
  | error e => exact .stay
  | ok w =>
      obtain ⟨call, hanswer, hevents⟩ := answer_run hrun
      obtain ⟨hpending, ⟨left, hleft, hnonneg⟩, -, horacle, rfl⟩ :=
        DioneOracle.answer_eq_ok.mp hanswer
      have htime : msg.timestamp.toInt ≤ (s.world.oracle.pendingRequests reqID).deadline.toInt := by
        omega
      rw [Session.record_ok hevents]
      exact .answer w ⟨msg, reqID, data⟩ _ _ hclock hpending htime horacle.symm ⟨rfl, rfl⟩

/-- The oracle contract asks for nothing but in its own calls. -/
theorem Call.ne_oracle_of_mem_asked {c : Call} (hne : ∀ oc, c ≠ .oracle oc)
    (hexternal : D.External msg.sender) {p : Address × Booking} (hp : p ∈ c.asked D w msg) :
    p.1 ≠ D.oracle := by
  obtain ⟨b, -, rfl⟩ := List.mem_map.mp hp
  cases c with
  | oracle oc => exact absurd rfl (hne oc)
  | dispute c => exact D.dispute_ne_oracle
  | token c => exact hexternal.ne_oracle
  | staking c => exact hexternal.ne_oracle

theorem Session.move_call {s : Session} {c : Call} (hclock : msg.timestamp.toNat < 2 ^ 64)
    (hexternal : D.External msg.sender)
    (hc : ∀ reqID data, c ≠ .oracle (.submitOracleRequest reqID data)) :
    s.Move D (s.record msg (c.asked D s.world msg) [] (c.run D evm msg s.world)) := by
  cases hrun : c.run D evm msg s.world with
  | error e => exact .stay
  | ok w =>
      cases c with
      | oracle oc =>
          cases oc with
          | submitOracleRequest reqID data => exact absurd rfl (hc reqID data)
          | requestOracles originChain requestType requestParams callbackAddress methodID =>
              obtain ⟨evs, hrequest, hevents⟩ := requestOracles_run hrun
              obtain ⟨id, hid, deadline, hdeadline, horacle, rfl⟩ :=
                DioneOracle.requestOracles_eq_ok.mp hrequest
              rw [Session.record_ok hevents]
              exact (List.append_nil s.bookings).symm ▸ .issue w msg ⟨msg.sender, originChain,
                requestType, requestParams, callbackAddress, methodID, id, deadline, []⟩
                hclock hexternal.ne_zero hid rfl hdeadline horacle.symm
          | cancelOracleRequest reqID =>
              obtain ⟨evs, hcancel, hevents⟩ := cancelOracleRequest_run hrun
              obtain ⟨hpending, hrequester, horacle, rfl⟩ :=
                DioneOracle.cancelOracleRequest_eq_ok.mp hcancel
              rw [Session.record_ok hevents]
              exact (List.append_nil s.bookings).symm ▸
                .cancel w msg reqID hpending hrequester horacle.symm
      | _ =>
          obtain ⟨horacle, evs, hevents, hsilent⟩ := oracle_eq_of_not_oracle (by simp) hrun
          rw [Session.record_ok hevents]
          exact .elsewhere w msg evs _ horacle hsilent fun p hp =>
            Call.ne_oracle_of_mem_asked (by simp) hexternal hp

/-- Every step is one of these moves. -/
theorem Session.move_step (evm : Evm) (s : Session) (a : Action D) :
    s.Move D (s.step D evm a) := by
  cases a with
  | call tx =>
      unfold Session.step
      simp only
      split
      · next reqID data hcall =>
          rw [hcall]
          exact Session.move_submission tx.clock
      · next hc => exact Session.move_call tx.clock tx.external hc
  | callbackReturns =>
      show s.Move D s.finishSubmission
      unfold Session.finishSubmission
      split
      · exact .stay
      · next sub outer hopen => exact .finish _ _ _ hopen rfl

end Moves

/-! ## The account of a session -/

/-- The requests issued, in order. -/
def issuedIds (history : List (Msg × Event)) : List Uint256 := history.filterMap (·.2.issued?)

/-- The requests cancelled or submitted, in order. -/
def resolvedIds (history : List (Msg × Event)) : List Uint256 := history.filterMap (·.2.resolved?)

/-- The number of `SubmittedOracleRequest` events. -/
def submissionCount (history : List (Msg × Event)) : Nat := history.countP (·.2.isSubmission)

/-- Who made them. -/
def submitters (history : List (Msg × Event)) : List Address :=
  (history.filter (·.2.isSubmission)).map (·.1.sender)

/-- The request `reqID` was issued by the call `msg`. -/
def IssuedBy (history : List (Msg × Event)) (msg : Msg) (reqID : Uint256) : Prop :=
  ∃ e : Event, (msg, e) ∈ history ∧ e.issued? = some reqID

/-- Cancelled by who asked, submitted within the maximum delay; in both cases
    after the request was issued. -/
def Authorised (earlier : List (Msg × Event)) : Msg × Event → Prop
  | (msg, .cancelOracleRequest reqID) =>
    ∃ asked, IssuedBy earlier asked reqID ∧ msg.sender = asked.sender
  | (msg, .submittedOracleRequest reqID _) =>
    ∃ asked, IssuedBy earlier asked reqID ∧
      msg.timestamp.toNat ≤ asked.timestamp.toNat + maximumDelay.toNat
  | _ => True

/-- What was booked at the request of the oracle contract: rewards (`Call.bookings`). -/
def oracleRewards (D : Deployment) (bookings : List (Address × Booking)) : List Booking :=
  (bookings.filter (·.1 = D.oracle)).map (·.2)

/-- The invariant of a session. -/
structure Accounted (D : Deployment) (s : Session) : Prop where
  issued : (issuedIds s.history).map BitVec.toNat
    = List.range' 1 s.world.oracle.requestCounter.toNat
  /-- A request that was issued is in one place: resolved, being answered or
      pending. -/
  placed : ∀ id, (resolvedIds s.history).count id + (s.submissions.map (·.reqID)).count id
    + (if s.world.oracle.Pending id then 1 else 0) = if id ∈ issuedIds s.history then 1 else 0
  /-- What is stored of a pending request is what its requester left. -/
  terms : ∀ id, s.world.oracle.Pending id → ∃ asked, IssuedBy s.history asked id ∧
    (s.world.oracle.pendingRequests id).requestSender = asked.sender ∧
    (s.world.oracle.pendingRequests id).deadline.toInt
      = asked.timestamp.toNat + maximumDelay.toNat
  inTime : ∀ sub ∈ s.submissions, ∃ asked, IssuedBy s.history asked sub.reqID ∧
    sub.msg.timestamp.toNat ≤ asked.timestamp.toNat + maximumDelay.toNat
  justified : Justified Authorised s.history
  /-- The oracle contract has every submission paid for, those that are still open
      included. -/
  paid : ((oracleRewards D s.bookings).map Booking.miner).Perm
    (submitters s.history ++ s.submissions.map (·.msg.sender))

section History

variable {history : List (Msg × Event)} {msg : Msg} {e : Event} {evs : List Event} {id : Uint256}

theorem IssuedBy.append (h : IssuedBy history msg id) (more : List (Msg × Event)) :
    IssuedBy (history ++ more) msg id := by
  obtain ⟨e, hmem, he⟩ := h
  exact ⟨e, List.mem_append_left _ hmem, he⟩

theorem issuedIds_concat : issuedIds (history ++ [(msg, e)])
    = issuedIds history ++ e.issued?.toList := by
  unfold issuedIds
  rw [List.filterMap_append]
  cases h : e.issued? <;> simp [h]

theorem resolvedIds_concat : resolvedIds (history ++ [(msg, e)])
    = resolvedIds history ++ e.resolved?.toList := by
  unfold resolvedIds
  rw [List.filterMap_append]
  cases h : e.resolved? <;> simp [h]

theorem length_submitters : (submitters history).length = submissionCount history := by
  rw [submitters, List.length_map, submissionCount, List.countP_eq_length_filter]

theorem submitters_concat : submitters (history ++ [(msg, e)])
    = submitters history ++ if e.isSubmission then [msg.sender] else [] := by
  unfold submitters
  rw [List.filter_append, List.map_append]
  cases h : e.isSubmission <;> simp [h]

theorem authorised_of_silent (he : e.Silent) (earlier : List (Msg × Event)) :
    Authorised earlier (msg, e) := by
  cases e with
  | cancelOracleRequest reqID => cases he.2
  | submittedOracleRequest reqID data => cases he.2
  | _ => trivial

/-- Silent events change nothing the account speaks of. -/
theorem history_append_silent (history : List (Msg × Event)) (msg : Msg)
    (hevs : ∀ e ∈ evs, e.Silent) :
    issuedIds (history ++ evs.map (msg, ·)) = issuedIds history ∧
      resolvedIds (history ++ evs.map (msg, ·)) = resolvedIds history ∧
      submitters (history ++ evs.map (msg, ·)) = submitters history := by
  -- each event moves to the end of the history
  induction evs generalizing history with
  | nil => simp
  | cons e evs ih =>
      obtain ⟨he, hrest⟩ := List.forall_mem_cons.mp hevs
      obtain ⟨hissued, hresolved, hsubmitters⟩ := ih (history ++ [(msg, e)]) hrest
      rw [List.map_cons, ← List.singleton_append, ← List.append_assoc, hissued, hresolved,
        hsubmitters, issuedIds_concat, resolvedIds_concat, submitters_concat, he.1, he.2,
        he.isSubmission]
      simp

end History

namespace Accounted

variable {D : Deployment} {s : Session} {msg : Msg} {w : World}

theorem deployed (c : Config) : Accounted D (.deployed c) where
  issued := rfl
  placed := by
    intro id
    have hnone : ¬ (Session.deployed c).world.oracle.Pending id := fun hpending => hpending rfl
    rw [if_neg hnone]
    rfl
  terms := fun id hpending => absurd rfl hpending
  inTime := by
    intro sub hsub
    cases hsub
  justified := justified_nil
  paid := .nil

theorem pending_iff (h : Accounted D s) (id : Uint256) :
    s.world.oracle.Pending id ↔ id ∈ issuedIds s.history ∧ id ∉ resolvedIds s.history ∧
      id ∉ s.submissions.map (·.reqID) := by
  have hplaced := h.placed id
  constructor
  · intro hpending
    rw [if_pos hpending] at hplaced
    split at hplaced
    · next hissued =>
        exact ⟨hissued, List.count_eq_zero.mp (by omega), List.count_eq_zero.mp (by omega)⟩
    · omega
  · rintro ⟨hissued, hresolved, hanswered⟩
    rw [if_pos hissued, List.count_eq_zero.mpr hresolved, List.count_eq_zero.mpr hanswered]
      at hplaced
    by_contra hno
    rw [if_neg hno] at hplaced
    omega

/-! What is known of the past stays known when events are added to the history. -/

theorem inTime_append (h : Accounted D s) (more : List (Msg × Event)) {sub : Submission}
    (hsub : sub ∈ s.submissions) : ∃ asked, IssuedBy (s.history ++ more) asked sub.reqID ∧
      sub.msg.timestamp.toNat ≤ asked.timestamp.toNat + maximumDelay.toNat := by
  obtain ⟨asked, hasked, htime⟩ := h.inTime sub hsub
  exact ⟨asked, hasked.append _, htime⟩

theorem terms_append (h : Accounted D s) (more : List (Msg × Event)) {id : Uint256}
    (hpending : s.world.oracle.Pending id) : ∃ asked, IssuedBy (s.history ++ more) asked id ∧
      (s.world.oracle.pendingRequests id).requestSender = asked.sender ∧
      (s.world.oracle.pendingRequests id).deadline.toInt
        = asked.timestamp.toNat + maximumDelay.toNat := by
  obtain ⟨asked, hasked, hterms⟩ := h.terms id hpending
  exact ⟨asked, hasked.append _, hterms⟩

/-- An event that issues nothing, with the counter where it was. -/
theorem issued_concat (h : Accounted D s) {e : Event} (he : e.issued? = none)
    (hcounter : w.oracle.requestCounter = s.world.oracle.requestCounter) :
    (issuedIds (s.history ++ [(msg, e)])).map BitVec.toNat
      = List.range' 1 w.oracle.requestCounter.toNat := by
  rw [issuedIds_concat, he, Option.toList_none, List.append_nil, hcounter]
  exact h.issued

theorem elsewhere (h : Accounted D s) {evs : List Event} {asked : List (Address × Booking)}
    (horacle : w.oracle = s.world.oracle) (hevs : ∀ e ∈ evs, e.Silent)
    (hasked : ∀ p ∈ asked, p.1 ≠ D.oracle) :
    Accounted D ⟨w, s.submissions, s.history ++ evs.map (msg, ·), s.bookings ++ asked⟩ := by
  obtain ⟨hissued, hresolved, hsubmitters⟩ := history_append_silent s.history msg hevs
  refine ⟨?_, ?_, ?_, ?_, ?_, ?_⟩
  · simp only [hissued, horacle]
    exact h.issued
  · simp only [hissued, hresolved, horacle]
    exact h.placed
  · simp only [horacle]
    exact fun id => h.terms_append _
  · exact fun sub => h.inTime_append _
  · refine justified_append h.justified ?_
    intro x hx earlier
    obtain ⟨e, he, rfl⟩ := List.mem_map.mp hx
    exact authorised_of_silent (hevs e he) earlier
  · have hnone : asked.filter (·.1 = D.oracle) = [] :=
      List.filter_eq_nil_iff.mpr fun p hp => by simpa using hasked p hp
    simp only [hsubmitters]
    rw [oracleRewards, List.filter_append, hnone, List.append_nil]
    exact h.paid

theorem issue (h : Accounted D s) {request : OracleRequest}
    (hclock : msg.timestamp.toNat < 2 ^ 64) (hsender : msg.sender ≠ .zero)
    (hid : request.reqID.toNat = s.world.oracle.requestCounter.toNat + 1)
    (hrequester : request.requestSender = msg.sender)
    (hdeadline : request.deadline.toNat = msg.timestamp.toNat + maximumDelay.toNat)
    (horacle : w.oracle = { s.world.oracle with requestCounter := request.reqID }.setRequest
      request.reqID request) :
    Accounted D ⟨w, s.submissions, s.history ++ [(msg, .newOracleRequest request.originChain
      request.requestType request.requestParams request.reqID request.deadline)], s.bookings⟩ := by
  -- the number is new, so nothing is known of the request yet
  have hfresh : request.reqID ∉ issuedIds s.history := by
    intro hmem
    have hmap := List.mem_map_of_mem (f := BitVec.toNat) hmem
    rw [h.issued, List.mem_range'_1] at hmap
    omega
  have hnew : w.oracle.pendingRequests request.reqID = request := by
    rw [horacle, DioneOracle.pendingRequests_setRequest]
  have hold : ∀ id, id ≠ request.reqID →
      w.oracle.pendingRequests id = s.world.oracle.pendingRequests id := by
    intro id hne
    rw [horacle, DioneOracle.pendingRequests_setRequest_of_ne _ _ hne]
  have hcounter : w.oracle.requestCounter = request.reqID := by
    rw [horacle]
    rfl
  refine ⟨?_, ?_, ?_, ?_, justified_concat h.justified trivial, ?_⟩
  · rw [issuedIds_concat, hcounter, hid, List.range'_1_concat, ← h.issued, List.map_append]
    show _ ++ [request.reqID.toNat] = _
    rw [hid, Nat.add_comm]
  · intro id
    have hplaced := h.placed id
    rw [issuedIds_concat, resolvedIds_concat]
    by_cases hne : id = request.reqID
    · subst hne
      have hpending : w.oracle.Pending request.reqID := by
        unfold DioneOracle.Pending
        rw [hnew, hrequester]
        exact hsender
      rw [if_neg hfresh] at hplaced
      rw [if_pos hpending]
      simp [Event.issued?, Event.resolved?]
      omega
    · have hpending : w.oracle.Pending id ↔ s.world.oracle.Pending id := by
        unfold DioneOracle.Pending
        rw [hold id hne]
      simp only [hpending]
      simpa [Event.issued?, Event.resolved?, hne] using hplaced
  · intro id hpending
    by_cases hne : id = request.reqID
    · subst hne
      have hasked : IssuedBy (s.history ++ [(msg, .newOracleRequest request.originChain
          request.requestType request.requestParams request.reqID request.deadline)]) msg
          request.reqID := ⟨_, List.mem_append_right _ (List.mem_singleton_self _), rfl⟩
      have hdelay : maximumDelay.toNat = 300 := rfl
      have hint : request.deadline.toInt = request.deadline.toNat :=
        BitVec.toInt_eq_toNat_of_lt (by omega)
      refine ⟨msg, hasked, ?_⟩
      rw [hnew, hint, hdeadline]
      exact ⟨hrequester, by push_cast; rfl⟩
    · unfold DioneOracle.Pending at hpending
      rw [hold id hne] at hpending ⊢
      exact h.terms_append _ hpending
  · exact fun sub => h.inTime_append _
  · simpa [submitters_concat, Event.isSubmission] using h.paid

/-- The terms of the requests that stay pending when one is deleted. -/
theorem terms_of_delete (h : Accounted D s) {reqID : Uint256} (more : List (Msg × Event))
    (horacle : w.oracle = s.world.oracle.setRequest reqID .zero) {id : Uint256}
    (hpending : w.oracle.Pending id) : ∃ asked, IssuedBy (s.history ++ more) asked id ∧
      (w.oracle.pendingRequests id).requestSender = asked.sender ∧
      (w.oracle.pendingRequests id).deadline.toInt
        = asked.timestamp.toNat + maximumDelay.toNat := by
  rw [horacle] at hpending ⊢
  obtain ⟨hne, hstill⟩ := DioneOracle.pending_delete.mp hpending
  rw [DioneOracle.pendingRequests_setRequest_of_ne _ _ hne]
  exact h.terms_append _ hstill

theorem cancel (h : Accounted D s) {reqID : Uint256} (hpending : s.world.oracle.Pending reqID)
    (hsender : msg.sender = (s.world.oracle.pendingRequests reqID).requestSender)
    (horacle : w.oracle = s.world.oracle.setRequest reqID .zero) :
    Accounted D ⟨w, s.submissions, s.history ++ [(msg, .cancelOracleRequest reqID)],
      s.bookings⟩ := by
  refine ⟨?_, ?_, fun id => h.terms_of_delete _ horacle, ?_, ?_, ?_⟩
  · exact h.issued_concat rfl (by rw [horacle]; rfl)
  · intro id
    have hplaced := h.placed id
    simp only [horacle, DioneOracle.pending_delete, issuedIds_concat, resolvedIds_concat]
    by_cases hid : id = reqID
    · subst hid
      rw [if_pos hpending] at hplaced
      simpa [Event.issued?, Event.resolved?, Nat.add_right_comm] using hplaced
    · simpa [Event.issued?, Event.resolved?, hid, Ne.symm hid] using hplaced
  · exact fun sub => h.inTime_append _
  · obtain ⟨asked, hasked, hrequester, -⟩ := h.terms reqID hpending
    exact justified_concat h.justified ⟨asked, hasked, hsender.trans hrequester⟩
  · simpa [submitters_concat, Event.isSubmission] using h.paid

theorem answer (h : Accounted D s) {sub : Submission} {call : Event} (amount : Uint256)
    (hclock : sub.msg.timestamp.toNat < 2 ^ 64) (hpending : s.world.oracle.Pending sub.reqID)
    (htime : sub.msg.timestamp.toInt ≤ (s.world.oracle.pendingRequests sub.reqID).deadline.toInt)
    (horacle : w.oracle = s.world.oracle.setRequest sub.reqID .zero) (hcall : call.Silent) :
    Accounted D ⟨w, sub :: s.submissions, s.history ++ [(sub.msg, call)],
      s.bookings ++ [(D.oracle, .reward sub.msg.sender amount)]⟩ := by
  refine ⟨?_, ?_, fun id => h.terms_of_delete _ horacle, ?_, ?_, ?_⟩
  · exact h.issued_concat hcall.1 (by rw [horacle]; rfl)
  · intro id
    have hplaced := h.placed id
    simp only [horacle, DioneOracle.pending_delete, issuedIds_concat, resolvedIds_concat, hcall.1,
      hcall.2]
    by_cases hid : id = sub.reqID
    · subst hid
      rw [if_pos hpending] at hplaced
      simpa [Nat.add_assoc] using hplaced
    · simpa [hid, Ne.symm hid] using hplaced
  · intro sub' hsub
    rcases List.mem_cons.mp hsub with rfl | hsub
    · -- both times are small, so the signed comparison is the one of numbers
      obtain ⟨asked, hasked, -, hdeadline⟩ := h.terms sub'.reqID hpending
      have hint : sub'.msg.timestamp.toInt = sub'.msg.timestamp.toNat :=
        BitVec.toInt_eq_toNat_of_lt (by omega)
      refine ⟨asked, hasked.append _, ?_⟩
      omega
    · exact h.inTime_append _ hsub
  · exact justified_concat h.justified (authorised_of_silent hcall _)
  · have hreward : (oracleRewards D
        (s.bookings ++ [(D.oracle, .reward sub.msg.sender amount)])).map Booking.miner
          = (oracleRewards D s.bookings).map Booking.miner ++ [sub.msg.sender] := by
      simp [oracleRewards, Booking.miner]
    rw [submitters_concat, hcall.isSubmission, hreward]
    simp only [Bool.false_eq_true, if_false, List.append_nil, List.map_cons]
    exact (List.perm_append_singleton ..).trans ((h.paid.cons _).trans List.perm_middle.symm)

theorem finish (h : Accounted D s) {sub : Submission} {outer : List Submission}
    (hopen : s.submissions = sub :: outer) (horacle : w.oracle = s.world.oracle) :
    Accounted D ⟨w, outer, s.history ++ [(sub.msg, .submittedOracleRequest sub.reqID sub.data)],
      s.bookings⟩ := by
  refine ⟨?_, ?_, ?_, ?_, ?_, ?_⟩
  · exact h.issued_concat rfl (by rw [horacle])
  · intro id
    have hplaced := h.placed id
    simp only [hopen, List.map_cons, List.count_cons] at hplaced
    simp only [horacle, issuedIds_concat, resolvedIds_concat, Event.issued?, Event.resolved?,
      Option.toList_some, Option.toList_none, List.append_nil, List.count_append,
      List.count_singleton]
    rw [← hplaced]
    omega
  · simp only [horacle]
    exact fun id => h.terms_append _
  · intro sub' hsub
    have hmem : sub' ∈ s.submissions := by
      rw [hopen]
      exact List.mem_cons_of_mem _ hsub
    exact h.inTime_append _ hmem
  · have hmem : sub ∈ s.submissions := by
      rw [hopen]
      exact List.mem_cons_self ..
    exact justified_concat h.justified (h.inTime sub hmem)
  · have hpaid := h.paid
    rw [hopen, List.map_cons] at hpaid
    simpa [submitters_concat, Event.isSubmission] using hpaid

end Accounted

/-- Every step keeps the account. -/
theorem accounted_step {D : Deployment} {evm : Evm} (s : Session) (a : Action D)
    (h : Accounted D s) : Accounted D (s.step D evm a) := by
  -- by moves, not by calls: most calls are `elsewhere`
  have hmove := s.move_step evm a
  generalize s.step D evm a = s' at hmove ⊢
  cases hmove with
  | stay => exact h
  | elsewhere w msg evs asked horacle hevs hasked => exact h.elsewhere horacle hevs hasked
  | issue w msg request hclock hsender hid hrequester hdeadline horacle =>
      exact h.issue hclock hsender hid hrequester hdeadline horacle
  | cancel w msg reqID hpending hsender horacle => exact h.cancel hpending hsender horacle
  | answer w sub call amount hclock hpending htime horacle hcall =>
      exact h.answer amount hclock hpending htime horacle hcall
  | finish w sub outer hopen horacle => exact h.finish hopen horacle

/-! ## The history is what was emitted -/

section Emitted

variable {D : Deployment} {evm : Evm} {msg : Msg} {w w' : World}

theorem events_prefix_of_run {c : Call} (h : c.run D evm msg w = .ok w') :
    w.events <+: w'.events := by
  cases c with
  | oracle oc =>
      cases oc with
      | requestOracles originChain requestType requestParams callbackAddress methodID =>
          obtain ⟨evs, -, hevents⟩ := requestOracles_run h
          exact ⟨evs, hevents.symm⟩
      | cancelOracleRequest reqID =>
          obtain ⟨evs, -, hevents⟩ := cancelOracleRequest_run h
          exact ⟨evs, hevents.symm⟩
      | submitOracleRequest reqID data =>
          obtain ⟨w₁, hanswer, rfl⟩ := submitOracleRequest_run.mp h
          obtain ⟨call, -, hevents⟩ := answer_run hanswer
          exact ⟨[call, .submittedOracleRequest reqID data], by simp [hevents]⟩
  | _ =>
      obtain ⟨-, evs, hevents, -⟩ := oracle_eq_of_not_oracle (by simp) h
      exact ⟨evs, hevents.symm⟩

theorem Session.history_record {s : Session} {asked : List (Address × Booking)}
    {submitted : List Submission} {r : Except Revert World}
    (h : s.history.map (·.2) = s.world.events) (hr : ∀ w, r = .ok w → s.world.events <+: w.events) :
    (s.record msg asked submitted r).history.map (·.2)
      = (s.record msg asked submitted r).world.events := by
  cases r with
  | error e => exact h
  | ok w =>
      obtain ⟨evs, hevs⟩ := hr w rfl
      rw [Session.record_ok hevs.symm, List.map_append, List.map_map, h]
      show s.world.events ++ evs.map id = w.events
      rw [List.map_id, hevs]

theorem Session.history_step (s : Session) (a : Action D)
    (h : s.history.map (·.2) = s.world.events) :
    (s.step D evm a).history.map (·.2) = (s.step D evm a).world.events := by
  cases a with
  | call tx =>
      unfold Session.step
      simp only
      split
      · refine Session.history_record h ?_
        intro w hanswer
        obtain ⟨call, -, hevents⟩ := answer_run hanswer
        exact ⟨[call], hevents.symm⟩
      · exact Session.history_record h fun w hrun => events_prefix_of_run hrun
  | callbackReturns =>
      show s.finishSubmission.history.map (·.2) = s.finishSubmission.world.events
      unfold Session.finishSubmission
      split
      · exact h
      · simp [h]

end Emitted

/-! ## The stakes are what was booked -/

section Stakes

variable {D : Deployment} {evm : Evm} {msg : Msg} {w w' : World}

/-- Up to its callback a submission has booked what it books. -/
theorem booked_answer {reqID : Uint256} {data : Bytes} (h : w.answer D msg reqID data = .ok w') :
    Booked ((Call.oracle (.submitOracleRequest reqID data)).bookings w msg) w.staking
      w'.staking := by
  obtain ⟨call, hanswer, -⟩ := answer_run h
  obtain ⟨-, -, hpaid, -, -⟩ := DioneOracle.answer_eq_ok.mp hanswer
  exact StakingCall.booked (c := .mineAndStake msg.sender) hpaid

theorem Session.booked_record {s₀ : DioneStaking} {s : Session} {c : Call}
    {submitted : List Submission} {r : Except Revert World}
    (h : Booked (s.bookings.map (·.2)) s₀ s.world.staking)
    (hr : ∀ w, r = .ok w → Booked (c.bookings s.world msg) s.world.staking w.staking) :
    Booked ((s.record msg (c.asked D s.world msg) submitted r).bookings.map (·.2)) s₀
      (s.record msg (c.asked D s.world msg) submitted r).world.staking := by
  cases r with
  | error e => exact h
  | ok w =>
      have hasked : (c.asked D s.world msg).map (·.2) = c.bookings s.world msg := by
        rw [Call.asked, List.map_map]
        exact List.map_id _
      show Booked ((s.bookings ++ c.asked D s.world msg).map (·.2)) s₀ w.staking
      rw [List.map_append, hasked]
      exact h.append (hr w rfl)

theorem Session.booked_step {s₀ : DioneStaking} (s : Session) (a : Action D)
    (h : Booked (s.bookings.map (·.2)) s₀ s.world.staking) :
    Booked ((s.step D evm a).bookings.map (·.2)) s₀ (s.step D evm a).world.staking := by
  cases a with
  | call tx =>
      unfold Session.step
      simp only
      split
      · next reqID data hcall =>
          refine Session.booked_record h ?_
          intro w hanswer
          rw [hcall]
          exact booked_answer hanswer
      · exact Session.booked_record h fun w hrun => (Call.effect hrun).booked
  | callbackReturns =>
      show Booked (s.finishSubmission.bookings.map (·.2)) s₀ s.finishSubmission.world.staking
      unfold Session.finishSubmission
      split
      · exact h
      · exact h

end Stakes

/-- Each request is resolved and rewarded at most once. -/
structure ResolvedOnce (D : Deployment) (s : Session) : Prop where
  /-- The history has the events that were emitted. -/
  emitted : s.history.map (·.2) = s.world.events
  /-- The requests are numbered 1, 2, 3, … in the order they are issued. -/
  numbered : (issuedIds s.history).map BitVec.toNat
    = List.range' 1 (issuedIds s.history).length
  /-- Of all cancellations and submissions, no two are of the same request. -/
  once : (resolvedIds s.history).Nodup
  /-- Each comes after the request, from who may make it and in time. -/
  justified : Justified Authorised s.history
  /-- Every submission is paid for once; where a callback is still open, the event
      is to come. -/
  rewarded : (oracleRewards D s.bookings).length
    = submissionCount s.history + s.submissions.length
  /-- It is paid to who made it. -/
  toSubmitter : ((oracleRewards D s.bookings).map Booking.miner).Perm
    (submitters s.history ++ s.submissions.map (·.msg.sender))
  /-- In the staking contract everybody has the rewards and whatever else was booked, to
      the last token. -/
  stakes : ∀ a, (s.world.staking.minerStake a).toNat + debits a (s.bookings.map (·.2))
    = credits a (s.bookings.map (·.2))
  /-- Pending is what was issued and is neither resolved nor being answered. -/
  pending : ∀ id, s.world.oracle.Pending id ↔ id ∈ issuedIds s.history ∧
    id ∉ resolvedIds s.history ∧ id ∉ s.submissions.map (·.reqID)

/-- At every moment of every session, open callbacks included. -/
theorem resolvedOnce_after (D : Deployment) (evm : Evm) (c : Config) (acts : List (Action D)) :
    ResolvedOnce D (.after D evm c acts) := by
  have haccount : Accounted D (.after D evm c acts) :=
    Run.exec_invariant accounted_step (Accounted.deployed c) acts
  have hemitted : (Session.after D evm c acts).history.map (·.2)
      = (Session.after D evm c acts).world.events :=
    Run.exec_invariant Session.history_step rfl acts
  have hstart : Booked ((Session.deployed c).bookings.map (·.2)) (World.deployed c).staking
      (Session.deployed c).world.staking := booked_nil rfl
  have hbooked : Booked ((Session.after D evm c acts).bookings.map (·.2))
      (World.deployed c).staking (Session.after D evm c acts).world.staking :=
    Run.exec_invariant (I := fun s : Session => Booked (s.bookings.map (·.2))
      (World.deployed c).staking s.world.staking) Session.booked_step hstart acts
  refine ⟨hemitted, ?_, ?_, haccount.justified, ?_, haccount.paid, ?_, haccount.pending_iff⟩
  · have hlength := congrArg List.length haccount.issued
    rw [List.length_map, List.length_range'] at hlength
    rw [haccount.issued, hlength]
  · rw [List.nodup_iff_count_le_one]
    intro id
    have hplaced := haccount.placed id
    split at hplaced <;> split at hplaced <;> omega
  · have hlength := haccount.paid.length_eq
    rwa [List.length_map, List.length_append, length_submitters, List.length_map] at hlength
  · intro a
    have hzero : ((World.deployed c).staking.minerStake a).toNat = 0 := rfl
    rw [hbooked a, hzero, Nat.zero_add]

end Dione.Contracts
