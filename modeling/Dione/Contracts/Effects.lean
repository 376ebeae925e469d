/-
  Dione.Contracts.Effects

  What a call does to the token and to the staking contract, in one place.

  A call of any of the four contracts comes down to at most one call of the token
  or of the staking contract: the oracle contract pays a reward, the dispute
  contract slashes.  `World.Effect` says which; what holds of all calls of those two
  then holds of all calls.  `Call.bookings` says what a call means for the stakes, and
  `World.Effect.booked` that the stakes change by just that.
-/

import Dione.Contracts.System

namespace Dione.Contracts

open Guard

/-! ## Bookings -/

/-- A change of stakes. -/
inductive Booking where
  | deposit (miner : Address) (amount : Uint256)
  | reward (miner : Address) (amount : Uint256)
  | withdrawal (miner : Address) (amount : Uint256)
  | slash (miner : Address) (share : Uint256) (receipentMiners : List Address)
  deriving DecidableEq, Repr

/-- Whose stake it is about. -/
def Booking.miner : Booking → Address
  | .deposit miner _ | .reward miner _ | .withdrawal miner _ | .slash miner _ _ => miner

/-- What a booking adds to the stake of `a`. -/
def Booking.credit (a : Address) : Booking → Nat
  | .deposit miner amount | .reward miner amount => if miner = a then amount.toNat else 0
  | .withdrawal _ _ => 0
  | .slash _ share receipentMiners => receipentMiners.count a * share.toNat

/-- What it takes away. -/
def Booking.debit (a : Address) : Booking → Nat
  | .deposit _ _ | .reward _ _ => 0
  | .withdrawal miner amount => if miner = a then amount.toNat else 0
  | .slash miner share receipentMiners =>
    if miner = a then receipentMiners.length * share.toNat else 0

/-- What a successful call of the staking contract books. -/
def StakingCall.bookings (s : DioneStaking) (msg : Msg) : StakingCall → List Booking
  | .stake amount => [.deposit msg.sender amount]
  | .withdraw amount => [.withdrawal msg.sender amount]
  | .mineAndStake minerAddr => [.reward minerAddr s.minerReward]
  -- the remainder of the division stays with the miner
  | .slashMiner miner receipentMiners =>
    [.slash miner (BitVec.ofNat 256 ((s.minerStake miner).toNat / receipentMiners.length))
      receipentMiners]
  | .mine _ | .setMinerReward _ | .setMinimumStake _ | .setOracleContractAddress _
  | .setDisputeContractAddress _ | .transferOwnership _ | .renounceOwnership => []

/-- What a successful call books. -/
def Call.bookings (w : World) (msg : Msg) : Call → List Booking
  | .token _ => []
  | .staking c => c.bookings w.staking msg
  | .dispute (.finishDispute dhash) =>
    let dispute := w.dispute.disputes dhash
    if 0 < dispute.sum.toInt then
      (StakingCall.slashMiner dispute.miner (dispute.voted ++ [msg.sender])).bookings w.staking msg
    else []
  | .dispute _ => []
  | .oracle (.submitOracleRequest _ _) =>
    (StakingCall.mineAndStake msg.sender).bookings w.staking msg
  | .oracle _ => []

/-- What `bookings` add to the stake of `a`. -/
def credits (a : Address) (bookings : List Booking) : Nat := (bookings.map (Booking.credit a)).sum

/-- What they take away. -/
def debits (a : Address) (bookings : List Booking) : Nat := (bookings.map (Booking.debit a)).sum

/-- The stakes of `s'` are those of `s` after `bookings`. -/
def Booked (bookings : List Booking) (s s' : DioneStaking) : Prop :=
  ∀ a, (s'.minerStake a).toNat + debits a bookings = (s.minerStake a).toNat + credits a bookings

/-! ## Effects -/

def Event.isSubmission : Event → Bool
  | .submittedOracleRequest .. => true
  | _ => false

/-- The answers given so far. -/
def World.answers (w : World) : Nat := w.events.countP Event.isSubmission

/-- The call of the token or the staking contract that a call comes down to, and who
    makes it. -/
inductive World.Effect (D : Deployment) (evm : Evm) (msg : Msg) (w w' : World) : Call → Prop where
  | none {c : Call} (hbookings : c.bookings w msg = []) (hstaking : w'.staking = w.staking)
      (htoken : w'.token = w.token) (hanswers : w'.answers = w.answers) : Effect D evm msg w w' c
  | token (c : TokenCall) (hstaking : w'.staking = w.staking)
      (hrun : c.run evm D.token msg w.token = .ok w'.token) (hanswers : w'.answers = w.answers) :
      Effect D evm msg w w' (.token c)
  | staking (c : StakingCall)
      (hrun : c.run D.staking msg w.staking w.token = .ok (w'.staking, w'.token))
      (hanswers : w'.answers = w.answers) : Effect D evm msg w w' (.staking c)
  /-- The reward for an answer. -/
  | reward (reqID : Uint256) (data : Bytes) (hanswers : w'.answers = w.answers + 1)
      (hrun : (StakingCall.mineAndStake msg.sender).run D.staking { msg with sender := D.oracle }
        w.staking w.token = .ok (w'.staking, w'.token)) :
      Effect D evm msg w w' (.oracle (.submitOracleRequest reqID data))
  /-- The end of a dispute that was won. -/
  | slash (dhash : Bytes32) (hfinishable : w.dispute.Finishable dhash msg)
      (hwon : 0 < (w.dispute.disputes dhash).sum.toInt)
      (hrun : (StakingCall.slashMiner (w.dispute.disputes dhash).miner
          ((w.dispute.disputes dhash).voted ++ [msg.sender])).run D.staking
        { msg with sender := D.dispute } w.staking w.token = .ok (w'.staking, w'.token))
      (hanswers : w'.answers = w.answers) :
      Effect D evm msg w w' (.dispute (.finishDispute dhash))

section Effects

variable {D : Deployment} {evm : Evm} {msg : Msg} {w w' : World}

theorem DisputeCall.effect {c : DisputeCall} (h : c.run D evm msg w = .ok w') :
    World.Effect D evm msg w w' (.dispute c) := by
  cases c with
  | beginDispute miner requestID =>
      simp only [DisputeCall.run, bind_eq_ok, pure_eq_ok_iff] at h
      obtain ⟨⟨d, evs⟩, hbegin, rfl⟩ := h
      obtain ⟨-, -, -, rfl⟩ := DioneDispute.beginDispute_eq_ok.mp hbegin
      exact .none rfl rfl rfl (by simp [World.answers, Event.isSubmission])
  | vote dhash voteStatus =>
      simp only [DisputeCall.run, bind_eq_ok, pure_eq_ok_iff] at h
      obtain ⟨⟨d, evs⟩, hvote, rfl⟩ := h
      obtain ⟨-, -, -, -, -, -, sum, -, -, rfl⟩ := DioneDispute.vote_eq_ok.mp hvote
      exact .none rfl rfl rfl (by simp [World.answers, Event.isSubmission])
  | finishDispute dhash =>
      simp only [DisputeCall.run, bind_eq_ok, pure_eq_ok_iff] at h
      obtain ⟨⟨d, s, evs⟩, hfinish, rfl⟩ := h
      obtain ⟨hfinishable, hsettle⟩ := DioneDispute.finishDispute_eq_ok.mp hfinish
      obtain ⟨hstaking, -, rfl⟩ := DioneDispute.settleDispute_eq_ok.mp hsettle
      by_cases hsum : (w.dispute.disputes dhash).sum.toInt ≤ 0
      · rw [if_pos hsum] at hstaking
        have hlost : ¬0 < (w.dispute.disputes dhash).sum.toInt := by omega
        exact .none (if_neg hlost) hstaking.symm rfl (by simp [World.answers, Event.isSubmission])
      · rw [if_neg hsum] at hstaking
        refine .slash dhash hfinishable (by omega) ?_ (by simp [World.answers, Event.isSubmission])
        simp only [StakingCall.run, hstaking, ok_bind]
        rfl

theorem OracleCall.effect {c : OracleCall} (h : c.run D msg w = .ok w') :
    World.Effect D evm msg w w' (.oracle c) := by
  cases c with
  | requestOracles originChain requestType requestParams callbackAddress callbackMethodID =>
      simp only [OracleCall.run, bind_eq_ok, pure_eq_ok_iff] at h
      obtain ⟨⟨o, evs⟩, hrequest, rfl⟩ := h
      obtain ⟨id, -, deadline, -, -, rfl⟩ := DioneOracle.requestOracles_eq_ok.mp hrequest
      exact .none rfl rfl rfl (by simp [World.answers, Event.isSubmission])
  | cancelOracleRequest reqID =>
      simp only [OracleCall.run, bind_eq_ok, pure_eq_ok_iff] at h
      obtain ⟨⟨o, evs⟩, hcancel, rfl⟩ := h
      obtain ⟨-, -, -, rfl⟩ := DioneOracle.cancelOracleRequest_eq_ok.mp hcancel
      exact .none rfl rfl rfl (by simp [World.answers, Event.isSubmission])
  | submitOracleRequest reqID data =>
      simp only [OracleCall.run, bind_eq_ok, pure_eq_ok_iff] at h
      obtain ⟨⟨o, ⟨s, t⟩, evs⟩, hsubmit, rfl⟩ := h
      obtain ⟨call, hanswer, rfl⟩ := DioneOracle.submitOracleRequest_eq_ok.mp hsubmit
      obtain ⟨-, -, hpaid, -, rfl⟩ := DioneOracle.answer_eq_ok.mp hanswer
      exact .reward reqID data (by simp [World.answers, Event.isSubmission]) hpaid

theorem Call.effect {c : Call} (h : c.run D evm msg w = .ok w') :
    World.Effect D evm msg w w' c := by
  cases c with
  | token c =>
      simp only [Call.run, bind_eq_ok, pure_eq_ok_iff] at h
      obtain ⟨t, ht, rfl⟩ := h
      exact .token c rfl ht rfl
  | staking c =>
      simp only [Call.run, bind_eq_ok, pure_eq_ok_iff] at h
      obtain ⟨⟨s, t⟩, hst, rfl⟩ := h
      exact .staking c hst rfl
  | dispute c => exact DisputeCall.effect h
  | oracle c => exact OracleCall.effect h

end Effects

/-! ## Stakes -/

section Stakes

variable {self : Address} {evm : Evm} {msg : Msg} {s s' s'' : DioneStaking} {t t' : DioneToken}

theorem Booked.append {bookings bookings' : List Booking} (h : Booked bookings s s')
    (h' : Booked bookings' s' s'') : Booked (bookings ++ bookings') s s'' := by
  intro a
  have hfirst := h a
  have hsecond := h' a
  simp only [credits, debits, List.map_append, List.sum_append] at hfirst hsecond ⊢
  omega

theorem booked_nil (h : s'.minerStake = s.minerStake) : Booked [] s s' := by
  intro a
  rw [h]
  rfl

/-- A deposit of `v`. -/
theorem booked_update {who : Address} {x v : Uint256} {b : Booking}
    (hcredit : ∀ a, b.credit a = if who = a then v.toNat else 0) (hdebit : ∀ a, b.debit a = 0)
    (hstakes : s'.minerStake = Function.update s.minerStake who x)
    (hx : x.toNat = (s.minerStake who).toNat + v.toNat) : Booked [b] s s' := by
  intro a
  simp only [credits, debits, List.map_cons, List.map_nil, List.sum_cons, List.sum_nil, hcredit,
    hdebit, hstakes]
  by_cases ha : who = a
  · subst ha
    rw [Function.update_self, if_pos rfl]
    omega
  · rw [Function.update_of_ne (Ne.symm ha), if_neg ha]

theorem booked_slashed {miner : Address} {share : Uint256} {rs : List Address}
    (h : DioneStaking.Slashed miner share rs s s') : Booked [.slash miner share rs] s s' := by
  intro a
  simp only [credits, debits, List.map_cons, List.map_nil, List.sum_cons, List.sum_nil,
    Booking.credit, Booking.debit]
  by_cases ha : miner = a
  · subst ha
    -- a miner is not among the recipients of its own stake
    have hcount : rs.count miner = 0 := List.count_eq_zero.mpr fun hmem =>
      (h.recipients miner hmem).1 rfl
    have hdebited := h.debited
    rw [if_pos rfl, hcount]
    omega
  · have hcredited := h.credited a (Ne.symm ha)
    rw [if_neg ha]
    omega

/-- A successful call of the staking contract books what it says. -/
theorem StakingCall.booked {c : StakingCall} (h : c.run self msg s t = .ok (s', t')) :
    Booked (c.bookings s msg) s s' := by
  cases c with
  | mine minerAddr => exact booked_nil (DioneStaking.mine_spec h).2.2.1
  | mineAndStake minerAddr =>
      simp only [StakingCall.run, DioneStaking.mineAndStake, DioneStaking.nonReentrant_eq_ok,
        bind_eq_ok, require_eq_ok, exists_const, Checked.add_eq_ok, pure_eq_ok_iff,
        Prod.mk.injEq] at h
      obtain ⟨-, s₁, ⟨-, t₁, -, total', -, sum, hsum, rfl, -⟩, rfl⟩ := h
      exact booked_update (fun _ => rfl) (fun _ => rfl) (DioneStaking.minerStake_setInfo ..) hsum
  | stake amount =>
      simp only [StakingCall.run, DioneStaking.stake, DioneStaking.nonReentrant_eq_ok,
        bind_eq_ok, require_eq_ok, exists_const, Checked.add_eq_ok, pure_eq_ok_iff,
        Prod.mk.injEq] at h
      obtain ⟨-, s₁, ⟨-, -, erc20, -, total', -, sum, hsum, rfl, -⟩, rfl⟩ := h
      exact booked_update (fun _ => rfl) (fun _ => rfl) (DioneStaking.minerStake_setInfo ..) hsum
  | withdraw amount =>
      obtain ⟨-, -, total', rest, -, hrest, erc20, -, rfl, -⟩ := DioneStaking.withdraw_eq_ok.mp h
      intro a
      simp only [StakingCall.bookings, credits, debits, List.map_cons, List.map_nil, List.sum_cons,
        List.sum_nil, Booking.credit, Booking.debit, DioneStaking.minerStake_setAmount]
      by_cases ha : msg.sender = a
      · subst ha
        rw [Function.update_self, if_pos rfl]
        exact hrest
      · rw [Function.update_of_ne (Ne.symm ha), if_neg ha]
        rfl
  | slashMiner miner receipentMiners =>
      simp only [StakingCall.run, bind_eq_ok, pure_eq_ok_iff, Prod.mk.injEq] at h
      obtain ⟨s₁, hslash, rfl, -⟩ := h
      obtain ⟨-, -, -, -, share, hshare, hloop⟩ := DioneStaking.slashMiner_eq_ok.mp hslash
      have hword :
          BitVec.ofNat 256 ((s.minerStake miner).toNat / receipentMiners.length) = share := by
        rw [← hshare, BitVec.ofNat_toNat, BitVec.setWidth_eq]
      simp only [StakingCall.bookings, hword]
      exact booked_slashed (DioneStaking.slashLoop_spec hloop).1
  | setMinerReward | setMinimumStake | setOracleContractAddress | setDisputeContractAddress =>
      simp only [StakingCall.run, bind_eq_ok, pure_eq_ok_iff, Prod.mk.injEq] at h
      obtain ⟨s₁, hset, rfl, -⟩ := h
      obtain ⟨-, -, rfl⟩ := DioneStaking.setByOwner_eq_ok.mp hset
      exact booked_nil rfl
  | transferOwnership | renounceOwnership =>
      simp only [StakingCall.run, bind_eq_ok, pure_eq_ok_iff, Prod.mk.injEq] at h
      obtain ⟨owner, -, rfl, -⟩ := h
      exact booked_nil rfl

variable {D : Deployment} {w w' : World}

theorem World.Effect.booked {c : Call} (h : World.Effect D evm msg w w' c) :
    Booked (c.bookings w msg) w.staking w'.staking := by
  cases h with
  | none hbookings hstaking htoken hanswers =>
      rw [hbookings, hstaking]
      exact booked_nil rfl
  | token c hstaking hrun hanswers =>
      rw [hstaking]
      exact booked_nil rfl
  | staking c hrun hanswers => exact StakingCall.booked hrun
  | reward reqID data hanswers hrun => exact StakingCall.booked hrun
  | slash dhash hfinishable hwon hrun hanswers =>
      have hbooked := StakingCall.booked hrun
      simp only [Call.bookings, if_pos hwon]
      exact hbooked

end Stakes

/-! ## Parameters -/

/-- What the owner of the staking contract has power over. -/
structure DioneStaking.Parameters where
  owner : Address
  dioneOracleAddress : Address
  disputeContractAddr : Address
  minerReward : Uint256
  minimumStake : Uint256
  deriving DecidableEq

def DioneStaking.parameters (s : DioneStaking) : DioneStaking.Parameters :=
  ⟨s.owner, s.dioneOracleAddress, s.disputeContractAddr, s.minerReward, s.minimumStake⟩

/-- The functions with the modifier `onlyOwner`. -/
def StakingCall.onlyOwner : StakingCall → Bool
  | .setMinerReward _ | .setMinimumStake _ | .setOracleContractAddress _
  | .setDisputeContractAddress _ | .transferOwnership _ | .renounceOwnership => true
  | .mine _ | .mineAndStake _ | .stake _ | .withdraw _ | .slashMiner _ _ => false

section Parameters

variable {self : Address} {evm : Evm} {msg : Msg} {s s' : DioneStaking} {t t' : DioneToken}

theorem DioneStaking.parameters_slashMiner {miner : Address} {rs : List Address}
    (h : s.slashMiner msg miner rs = .ok s') : s'.parameters = s.parameters := by
  obtain ⟨-, -, -, -, share, -, hloop⟩ := DioneStaking.slashMiner_eq_ok.mp h
  rw [(DioneStaking.slashLoop_spec hloop).1.storage_eq]
  rfl

/-- Whoever is not the owner leaves the parameters alone, and so do the functions that are
    not for the owner. -/
theorem StakingCall.parameters_run {c : StakingCall} (h : c.run self msg s t = .ok (s', t')) :
    s'.parameters = s.parameters ∨ c.onlyOwner = true ∧ msg.sender = s.owner := by
  cases c with
  | mine minerAddr =>
      simp only [StakingCall.run, DioneStaking.mine, DioneStaking.nonReentrant_eq_ok, bind_eq_ok,
        require_eq_ok, exists_const, pure_eq_ok_iff, Prod.mk.injEq] at h
      obtain ⟨-, s₁, ⟨-, t₁, -, rfl, -⟩, rfl⟩ := h
      exact .inl rfl
  | mineAndStake minerAddr =>
      simp only [StakingCall.run, DioneStaking.mineAndStake, DioneStaking.nonReentrant_eq_ok,
        bind_eq_ok, require_eq_ok, exists_const, pure_eq_ok_iff, Prod.mk.injEq] at h
      obtain ⟨-, s₁, ⟨-, t₁, -, total', -, sum, -, rfl, -⟩, rfl⟩ := h
      exact .inl rfl
  | stake amount =>
      simp only [StakingCall.run, DioneStaking.stake, DioneStaking.nonReentrant_eq_ok,
        bind_eq_ok, require_eq_ok, exists_const, pure_eq_ok_iff, Prod.mk.injEq] at h
      obtain ⟨-, s₁, ⟨-, -, erc20, -, total', -, sum, -, rfl, -⟩, rfl⟩ := h
      exact .inl rfl
  | withdraw amount =>
      obtain ⟨-, -, total', rest, -, -, erc20, -, rfl, -⟩ := DioneStaking.withdraw_eq_ok.mp h
      exact .inl rfl
  | slashMiner miner receipentMiners =>
      simp only [StakingCall.run, bind_eq_ok, pure_eq_ok_iff, Prod.mk.injEq] at h
      obtain ⟨s₁, hslash, rfl, -⟩ := h
      exact .inl (DioneStaking.parameters_slashMiner hslash)
  | setMinerReward | setMinimumStake | setOracleContractAddress | setDisputeContractAddress =>
      simp only [StakingCall.run, bind_eq_ok, pure_eq_ok_iff, Prod.mk.injEq] at h
      obtain ⟨s₁, hset, -, -⟩ := h
      exact .inr ⟨rfl, (DioneStaking.setByOwner_eq_ok.mp hset).1.symm⟩
  | transferOwnership newOwner =>
      simp only [StakingCall.run, Contracts.transferOwnership, Contracts.onlyOwner, bind_eq_ok,
        require_eq_ok, exists_const, pure_eq_ok_iff, Prod.mk.injEq] at h
      obtain ⟨owner, ⟨howner, -⟩, -, -⟩ := h
      exact .inr ⟨rfl, howner.symm⟩
  | renounceOwnership =>
      simp only [StakingCall.run, Contracts.renounceOwnership, Contracts.onlyOwner, bind_eq_ok,
        require_eq_ok, exists_const, pure_eq_ok_iff, Prod.mk.injEq] at h
      obtain ⟨owner, ⟨howner, -⟩, -, -⟩ := h
      exact .inr ⟨rfl, howner.symm⟩

/-- The same for a call of any of the contracts. -/
theorem World.Effect.parameters {D : Deployment} {w w' : World} {c : Call}
    (h : World.Effect D evm msg w w' c) :
    w'.staking.parameters = w.staking.parameters ∨
      ∃ c', c = .staking c' ∧ c'.onlyOwner = true ∧ msg.sender = w.staking.owner := by
  cases h with
  | none hbookings hstaking htoken hanswers => exact .inl (by rw [hstaking])
  | token c hstaking hrun hanswers => exact .inl (by rw [hstaking])
  | staking c hrun hanswers =>
      rcases StakingCall.parameters_run hrun with hsame | ⟨howner, hsender⟩
      · exact .inl hsame
      · exact .inr ⟨c, rfl, howner, hsender⟩
  -- what the contracts call themselves is not for the owner
  | reward reqID data hanswers hrun =>
      rcases StakingCall.parameters_run hrun with hsame | ⟨howner, -⟩
      · exact .inl hsame
      · cases howner
  | slash dhash hfinishable hwon hrun hanswers =>
      rcases StakingCall.parameters_run hrun with hsame | ⟨howner, -⟩
      · exact .inl hsame
      · cases howner

end Parameters

end Dione.Contracts
