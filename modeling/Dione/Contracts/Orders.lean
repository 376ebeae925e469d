/-
  Dione.Contracts.Orders

  Who represents whom.  An account is represented by whoever it has named last, in a
  transaction of its own (`delegate`) or in an order that it has signed and anybody may
  bring to the token (`delegateBySig`).

  The signed orders of an account carry the nonces 0, 1, 2, … and are carried out in this
  order, so none of them is carried out twice.  Everything else that happens to the four
  contracts leaves the representatives and the nonces alone.
-/

import Dione.Contracts.Checkpoints
import Dione.Contracts.Requests

namespace Dione.Contracts

open Guard

/-! ## Orders -/

/-- `delegator` is to be represented by `delegatee`.  A signed order has a nonce and a time
    when it expires. -/
structure Order where
  delegator : Address
  delegatee : Address
  time : Uint256
  signed : Option (Uint256 × Uint256)
  deriving DecidableEq, Repr

/-- The order that a call gives. -/
def Call.order (D : Deployment) (evm : Evm) (msg : Msg) : Call → Option Order
  | .token (.delegate delegatee) => some ⟨msg.sender, delegatee, msg.timestamp, none⟩
  | .token (.delegateBySig delegatee nonce expiry v r s) =>
    some ⟨evm.ecrecover (DioneToken.delegationDigest evm D.token delegatee nonce expiry) v r s,
      delegatee, msg.timestamp, some (nonce, expiry)⟩
  | _ => none

/-- The orders that a run has carried out, the oldest first. -/
def orderLog (D : Deployment) (evm : Evm) : Config → List (Tx D) → List Order :=
  World.journal D evm fun _ msg call => (call.order D evm msg).toList

/-- The nonces of the orders that `a` has signed. -/
def noncesOf (a : Address) (log : List Order) : List Uint256 :=
  (log.filter fun o => o.delegator = a).filterMap fun o => o.signed.map Prod.fst

/-- Who represents `a` after the orders of the log. -/
def representative (a : Address) (log : List Order) : Address :=
  (((log.filter fun o => o.delegator = a).getLast?).map Order.delegatee).getD .zero

/-! ## One call -/

/-- What an order does to the votes. -/
structure Votes.Obeys (order : Option Order) (vs vs' : Votes) : Prop where
  delegates_eq : ∀ a, vs'.delegates a =
    (order.bind fun o => if o.delegator = a then some o.delegatee else none).getD (vs.delegates a)
  nonces_eq : ∀ a, (vs'.nonces a).toNat = (vs.nonces a).toNat + (noncesOf a order.toList).length
  accepted : ∀ o ∈ order, ∀ p ∈ o.signed,
    p.1 = vs.nonces o.delegator ∧ o.time ≤ p.2 ∧ o.delegator ≠ .zero

namespace Votes

variable {vs vs' : Votes} {msg : Msg} {a b : Address} {v : Uint256}

/-- Votes are counted apart from who represents whom. -/
structure Recounted (vs vs' : Votes) : Prop where
  delegates_eq : vs'.delegates = vs.delegates
  nonces_eq : vs'.nonces = vs.nonces

theorem Recounted.refl (vs : Votes) : Recounted vs vs := ⟨rfl, rfl⟩

theorem Recounted.trans {vs'' : Votes} (h : Recounted vs vs') (h' : Recounted vs' vs'') :
    Recounted vs vs'' :=
  ⟨h'.delegates_eq.trans h.delegates_eq, h'.nonces_eq.trans h.nonces_eq⟩

theorem recounted_writeCheckpoint {n : BitVec 32}
    (h : vs._writeCheckpoint msg a n v = .ok vs') : Recounted vs vs' := by
  simp only [_writeCheckpoint, bind_eq_ok] at h
  obtain ⟨number, -, h⟩ := h
  split at h
  · obtain rfl := pure_eq_ok_iff.mp h
    exact ⟨rfl, rfl⟩
  · simp only [bind_eq_ok, pure_eq_ok_iff] at h
    obtain ⟨count, -, rfl⟩ := h
    exact ⟨rfl, rfl⟩

theorem recounted_moveDelegates (h : vs._moveDelegates msg a b v = .ok vs') :
    Recounted vs vs' := by
  by_cases hmoves : a ≠ b ∧ 0 < v
  · obtain ⟨vs₁, hdecrease, hincrease⟩ := (moveDelegates_eq_ok hmoves).mp h
    have hfirst : Recounted vs vs₁ := by
      split at hdecrease
      · obtain ⟨x, -, hwrite⟩ := decrease_eq_ok.mp hdecrease
        exact recounted_writeCheckpoint hwrite
      · obtain rfl := hdecrease
        exact .refl _
    have hsecond : Recounted vs₁ vs' := by
      split at hincrease
      · obtain ⟨x, -, hwrite⟩ := increase_eq_ok.mp hincrease
        exact recounted_writeCheckpoint hwrite
      · obtain rfl := hincrease
        exact .refl _
    exact hfirst.trans hsecond
  · rw [_moveDelegates, if_neg hmoves] at h
    obtain rfl := pure_eq_ok_iff.mp h
    exact .refl _

theorem Recounted.obeys (h : Recounted vs vs') : Obeys none vs vs' where
  delegates_eq a := congrFun h.delegates_eq a
  nonces_eq a := by
    rw [h.nonces_eq]
    rfl
  accepted o ho := by cases ho

end Votes

section Calls

variable {D : Deployment} {evm : Evm} {self : Address} {msg : Msg} {t t' : DioneToken}
  {s s' : DioneStaking}

theorem recounted_mint {who : Address} {v : Uint256} (h : t.mint msg who v = .ok t') :
    t.votes.Recounted t'.votes := by
  simp only [DioneToken.mint, onlyOwner, bind_eq_ok, require_eq_ok, exists_const,
    pure_eq_ok_iff] at h
  obtain ⟨-, erc20, -, votes, hmove, rfl⟩ := h
  exact Votes.recounted_moveDelegates hmove

/-- The staking contract mints and moves tokens, and that is all. -/
theorem StakingCall.recounted {c : StakingCall} (h : c.run self msg s t = .ok (s', t')) :
    t.votes.Recounted t'.votes := by
  cases c with
  | mine minerAddr => exact recounted_mint (DioneStaking.mine_spec h).2.2.2
  | mineAndStake minerAddr => exact recounted_mint (DioneStaking.mineAndStake_spec h).2
  | stake amount =>
      simp only [StakingCall.run, DioneStaking.stake, DioneStaking.nonReentrant_eq_ok, bind_eq_ok,
        require_eq_ok, exists_const, pure_eq_ok_iff, Prod.mk.injEq] at h
      obtain ⟨-, s₁, ⟨-, -, erc20, -, total', -, sum, -, rfl, rfl⟩, -⟩ := h
      exact .refl _
  | withdraw amount =>
      obtain ⟨-, -, total', rest, -, -, e, -, -, rfl⟩ := DioneStaking.withdraw_eq_ok.mp h
      exact .refl _
  | slashMiner | setMinerReward | setMinimumStake | setOracleContractAddress
  | setDisputeContractAddress | transferOwnership | renounceOwnership =>
      simp only [StakingCall.run, bind_eq_ok, pure_eq_ok_iff, Prod.mk.injEq] at h
      obtain ⟨-, -, -, rfl⟩ := h
      exact .refl _

/-- `_delegate`, whatever nonces are stored first. -/
theorem obeys_delegate {delegator delegatee : Address} {time : Uint256}
    {nonces : Address → Uint256} {signed : Option (Uint256 × Uint256)}
    (h : { t with votes := { t.votes with nonces := nonces } }._delegate msg delegator delegatee
      = .ok t')
    (hnonces : ∀ a, (nonces a).toNat = (t.votes.nonces a).toNat
      + (noncesOf a [⟨delegator, delegatee, time, signed⟩]).length)
    (haccepted : ∀ p ∈ signed, p.1 = t.votes.nonces delegator ∧ time ≤ p.2 ∧ delegator ≠ .zero) :
    t.votes.Obeys (some ⟨delegator, delegatee, time, signed⟩) t'.votes := by
  simp only [DioneToken._delegate, bind_eq_ok, pure_eq_ok_iff] at h
  obtain ⟨votes, hmove, rfl⟩ := h
  have hkept := Votes.recounted_moveDelegates hmove
  refine ⟨?_, ?_, ?_⟩
  · intro a
    show votes.delegates a = _
    rw [hkept.delegates_eq, Option.bind_some]
    by_cases ha : delegator = a
    · subst ha
      simp
    · simp [ha, Function.update_of_ne (Ne.symm ha)]
  · intro a
    show (votes.nonces a).toNat = _
    rw [hkept.nonces_eq]
    exact hnonces a
  · rintro o ⟨⟩ p hp
    exact haccepted p hp

theorem noncesOf_singleton (a : Address) (o : Order) : noncesOf a [o]
    = if o.delegator = a then (o.signed.map Prod.fst).toList else [] := by
  unfold noncesOf
  by_cases ha : o.delegator = a
  · cases hs : o.signed with
    | none => simp [ha, hs]
    | some p => simp [ha, hs]
  · simp [ha]

theorem TokenCall.obeys {c : TokenCall} (h : c.run evm D.token msg t = .ok t') :
    t.votes.Obeys (Call.order D evm msg (.token c)) t'.votes := by
  cases c with
  | mint who amount => exact (recounted_mint h).obeys
  | transfer | approve | transferFrom | increaseAllowance | decreaseAllowance | transferOwnership
  | renounceOwnership =>
      simp only [TokenCall.run, bind_eq_ok, pure_eq_ok_iff] at h
      obtain ⟨-, -, rfl⟩ := h
      exact (Votes.Recounted.refl _).obeys
  | delegate delegatee =>
      -- the nonces that are stored first are the old ones
      have hdelegate : { t with votes := { t.votes with nonces := t.votes.nonces } }._delegate msg
          msg.sender delegatee = .ok t' := h
      apply obeys_delegate hdelegate
      · intro a
        rw [noncesOf_singleton]
        split
        · rfl
        · rfl
      · intro p hp
        cases hp
  | delegateBySig delegatee nonce expiry v r s =>
      simp only [TokenCall.run, DioneToken.delegateBySig, bind_eq_ok, require_eq_ok, exists_const,
        Checked.add_eq_ok] at h
      obtain ⟨hvalid, next, hnext, hnonce, hexpiry, h⟩ := h
      refine obeys_delegate h ?_ ?_
      · intro a
        rw [noncesOf_singleton]
        by_cases ha : evm.ecrecover
            (DioneToken.delegationDigest evm D.token delegatee nonce expiry) v r s = a
        · subst ha
          rw [Function.update_self, hnext]
          simp
        · simp [ha, Function.update_of_ne (Ne.symm ha)]
      · rintro p ⟨⟩
        exact ⟨hnonce, hexpiry, hvalid⟩

variable {w w' : World}

theorem Call.obeys {c : Call} (h : c.run D evm msg w = .ok w') :
    w.token.votes.Obeys (c.order D evm msg) w'.token.votes := by
  cases c with
  | token c =>
      simp only [Call.run, bind_eq_ok, pure_eq_ok_iff] at h
      obtain ⟨t, ht, rfl⟩ := h
      exact TokenCall.obeys ht
  | staking c =>
      simp only [Call.run, bind_eq_ok, pure_eq_ok_iff] at h
      obtain ⟨⟨s, t⟩, hst, rfl⟩ := h
      exact (StakingCall.recounted hst).obeys
  | dispute c =>
      cases c with
      | beginDispute | vote | finishDispute =>
          simp only [Call.run, DisputeCall.run, bind_eq_ok, pure_eq_ok_iff] at h
          obtain ⟨-, -, rfl⟩ := h
          exact (Votes.Recounted.refl _).obeys
  | oracle c =>
      cases c with
      | requestOracles | cancelOracleRequest =>
          simp only [Call.run, OracleCall.run, bind_eq_ok, pure_eq_ok_iff] at h
          obtain ⟨-, -, rfl⟩ := h
          exact (Votes.Recounted.refl _).obeys
      | submitOracleRequest reqID data =>
          obtain ⟨w₁, hanswer, rfl⟩ := submitOracleRequest_run.mp h
          obtain ⟨call, hanswer, -⟩ := answer_run hanswer
          obtain ⟨-, -, hpaid, -⟩ := DioneOracle.answer_eq_ok.mp hanswer
          exact (StakingCall.recounted (c := .mineAndStake msg.sender) hpaid).obeys

end Calls

/-! ## Every run -/

theorem noncesOf_append (a : Address) (log log' : List Order) :
    noncesOf a (log ++ log') = noncesOf a log ++ noncesOf a log' := by
  unfold noncesOf
  rw [List.filter_append, List.filterMap_append]

theorem mem_noncesOf {a : Address} {log : List Order} {nonce : Uint256} :
    nonce ∈ noncesOf a log
      ↔ ∃ o ∈ log, o.delegator = a ∧ ∃ expiry, o.signed = some (nonce, expiry) := by
  simp [noncesOf, and_assoc]

theorem representative_concat (a : Address) (log : List Order) (o : Order) :
    representative a (log ++ [o])
      = if o.delegator = a then o.delegatee else representative a log := by
  unfold representative
  rw [List.filter_append]
  by_cases ha : o.delegator = a
  · simp [ha]
  · simp [ha]

/-- The votes are what the orders of the log have made of them. -/
structure Votes.Recorded (log : List Order) (vs : Votes) : Prop where
  delegates_eq : ∀ a, vs.delegates a = representative a log
  nonces_eq : ∀ a, noncesOf a log = (List.range (vs.nonces a).toNat).map (BitVec.ofNat 256)
  timely : ∀ o ∈ log, ∀ p ∈ o.signed, o.time ≤ p.2 ∧ o.delegator ≠ .zero

namespace Votes.Recorded

variable {log : List Order} {vs vs' : Votes}

/-- An order that is obeyed is written down. -/
theorem concat {order : Option Order} (h : Recorded log vs) (hobeys : vs.Obeys order vs') :
    Recorded (log ++ order.toList) vs' := by
  cases order with
  | none =>
      rw [Option.toList_none, List.append_nil]
      refine ⟨?_, ?_, h.timely⟩
      · intro a
        rw [← h.delegates_eq]
        exact hobeys.delegates_eq a
      · intro a
        have hsame : (vs'.nonces a).toNat = (vs.nonces a).toNat := hobeys.nonces_eq a
        rw [hsame]
        exact h.nonces_eq a
  | some o =>
      rw [Option.toList_some]
      refine ⟨?_, ?_, ?_⟩
      · intro a
        rw [hobeys.delegates_eq, representative_concat, ← h.delegates_eq, Option.bind_some]
        split
        · rfl
        · rfl
      · intro a
        have hnext := hobeys.nonces_eq a
        rw [Option.toList_some, noncesOf_singleton] at hnext
        rw [noncesOf_append, h.nonces_eq, noncesOf_singleton, hnext]
        by_cases ha : o.delegator = a
        · cases hsigned : o.signed with
          | none => simp [ha]
          | some p =>
              -- the nonce of a signed order is the one that comes next
              have hnonce := (hobeys.accepted o rfl p hsigned).1
              rw [ha] at hnonce
              simp [ha, List.range_succ, hnonce]
        · simp [ha]
      · intro o' ho'
        rcases List.mem_append.mp ho' with hold | hnew
        · exact h.timely o' hold
        · obtain rfl := List.mem_singleton.mp hnew
          intro p hp
          exact (hobeys.accepted o' rfl p hp).2

theorem nodup_noncesOf (h : Recorded log vs) (a : Address) : (noncesOf a log).Nodup := by
  rw [h.nonces_eq]
  apply List.Nodup.map_on _ List.nodup_range
  intro i hi j hj hij
  have hlt := (vs.nonces a).isLt
  rw [List.mem_range] at hi hj
  have hmod := congrArg BitVec.toNat hij
  simp only [BitVec.toNat_ofNat] at hmod
  rwa [Nat.mod_eq_of_lt (by omega), Nat.mod_eq_of_lt (by omega)] at hmod

/-- The nonce that comes next has not been used. -/
theorem nonces_notMem (h : Recorded log vs) (a : Address) : vs.nonces a ∉ noncesOf a log := by
  rw [h.nonces_eq]
  intro hmem
  obtain ⟨i, hi, heq⟩ := List.mem_map.mp hmem
  rw [List.mem_range] at hi
  have hlt := (vs.nonces a).isLt
  have htoNat := congrArg BitVec.toNat heq
  rw [BitVec.toNat_ofNat, Nat.mod_eq_of_lt (by omega)] at htoNat
  omega

end Votes.Recorded

section Runs

variable (D : Deployment) (evm : Evm) (c : Config)

theorem recorded_orderLog (txs : List (Tx D)) :
    (World.after D evm c txs).token.votes.Recorded (orderLog D evm c txs) := by
  apply World.journal_invariant
    (I := fun (w : World) (log : List Order) => w.token.votes.Recorded log)
  · exact ⟨fun a => rfl, fun a => rfl, fun o ho => by cases ho⟩
  · intro w w' log tx hrecorded hrun
    exact hrecorded.concat (Call.obeys hrun)

/-- Every account is represented by whom it has named last.  Its signed orders have been carried
    out one after another, by the nonces 0, 1, 2, …, none of them late; and once one has been
    carried out, no order under its nonce is, whoever brings it, with whatever signature. -/
theorem representatives_follow_orders (txs : List (Tx D)) :
    (World.after D evm c txs).token.votes.Recorded (orderLog D evm c txs)
      ∧ (∀ a, (noncesOf a (orderLog D evm c txs)).Nodup)
      ∧ ∀ o ∈ orderLog D evm c txs, ∀ nonce expiry, o.signed = some (nonce, expiry) →
        ∀ msg delegatee expiry' v r s,
          evm.ecrecover (DioneToken.delegationDigest evm D.token delegatee nonce expiry') v r s
            = o.delegator →
          ∀ w', (Call.token (.delegateBySig delegatee nonce expiry' v r s)).run D evm msg
            (World.after D evm c txs) ≠ .ok w' := by
  have hrecorded := recorded_orderLog D evm c txs
  refine ⟨hrecorded, hrecorded.nodup_noncesOf, ?_⟩
  intro o ho nonce expiry hsigned msg delegatee expiry' v r s hsigner w' hrun
  have hused : nonce ∈ noncesOf o.delegator (orderLog D evm c txs) :=
    mem_noncesOf.mpr ⟨o, ho, rfl, expiry, hsigned⟩
  -- a second order under the nonce would need it to be the next one
  have hnext := ((Call.obeys hrun).accepted _ rfl _ rfl).1
  rw [hsigner] at hnext
  apply hrecorded.nonces_notMem o.delegator
  rw [← hnext]
  exact hused

end Runs

/-- The sample chain, where all signatures are of the account 14. -/
def signingEvm : Evm := { sampleEvm with ecrecover := fun _ _ _ _ => .ofNat 14 }

/-- The account 14 gets tokens, and the account 11 brings its signed order. -/
def broughtOrder : List (Tx sampleDeployment) :=
  sampleDeployment.txs [(.ofNat 10, 1, .token (.mint (.ofNat 14) 100)),
    (.ofNat 11, 2, .token (.delegateBySig (.ofNat 15) 0 9 27 0 0))]

theorem representatives_follow_orders_brought :
    (World.after sampleDeployment signingEvm sampleConfig broughtOrder).token.votes.delegates
        (.ofNat 14) = .ofNat 15
      ∧ ∀ w', (Call.token (.delegateBySig (.ofNat 16) 0 9 27 1 1)).run sampleDeployment signingEvm
        ⟨.ofNat 11, 3, 3⟩ (.after sampleDeployment signingEvm sampleConfig broughtOrder)
          ≠ .ok w' := by
  have hlog : orderLog sampleDeployment signingEvm sampleConfig broughtOrder
      = [⟨.ofNat 14, .ofNat 15, 2, some (0, 9)⟩] := by decide +kernel
  obtain ⟨hrecorded, -, hreplay⟩ :=
    representatives_follow_orders sampleDeployment signingEvm sampleConfig broughtOrder
  rw [hlog] at hrecorded hreplay
  refine ⟨?_, ?_⟩
  · rw [hrecorded.delegates_eq]
    decide
  · exact hreplay _ (List.mem_singleton_self _) 0 9 rfl _ _ 9 27 1 1 rfl

end Dione.Contracts
