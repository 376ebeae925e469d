/-
  Dione.Contracts.Accounts

  The books of the staking contract and of the token.

  Every stake is what was booked on it: deposits, rewards and shares of slashed
  stakes, less withdrawals and what was slashed.  With solvency that says what each
  account can withdraw, after any transactions.  Once the staking contract owns the
  token, tokens come into being by answers to requests only, one reward for each.
-/

import Dione.Contracts.Effects
import Dione.Contracts.Solvency

namespace Dione.Contracts

open Guard

/-! ## Stakes -/

/-- The bookings of a run, oldest first; a transaction that reverts books nothing. -/
def World.bookings (D : Deployment) (evm : Evm) (w : World) : List (Tx D) → List Booking
  | [] => []
  | tx :: txs =>
    (match tx.call.run D evm tx.msg w with
      | .ok _ => tx.call.bookings w tx.msg
      | .error _ => []) ++ World.bookings D evm (w.step D evm tx) txs

section Stakes

variable {D : Deployment} {evm : Evm} {w : World}

/-- The books of a run, from any state. -/
theorem booked_bookings (txs : List (Tx D)) :
    Booked (w.bookings D evm txs) w.staking (Run.exec (World.step D evm) w txs).staking := by
  induction txs generalizing w with
  | nil => exact booked_nil rfl
  | cons tx txs ih =>
      have hfirst : Booked (match tx.call.run D evm tx.msg w with
          | .ok _ => tx.call.bookings w tx.msg
          | .error _ => []) w.staking (w.step D evm tx).staking := by
        cases hrun : tx.call.run D evm tx.msg w with
        | ok w' =>
            simp only [World.step, hrun]
            exact (Call.effect hrun).booked
        | error e =>
            simp only [World.step, hrun]
            exact booked_nil rfl
      exact hfirst.append ih

end Stakes

/-- After any transactions, an account's stake is what was booked on it, and the account can
    withdraw up to exactly that much. -/
theorem withdraw_iff_booked {D : Deployment} {evm : Evm} (c : Config) (txs : List (Tx D))
    {msg : Msg} (hext : D.External msg.sender) (x : Uint256) :
    (∃ w', (Call.staking (.withdraw x)).run D evm msg (.after D evm c txs) = .ok w') ↔
      0 < x.toNat ∧
        x.toNat + debits msg.sender ((World.deployed c).bookings D evm txs) ≤
          credits msg.sender ((World.deployed c).bookings D evm txs) := by
  have hbooked : ((World.after D evm c txs).staking.minerStake msg.sender).toNat +
      debits msg.sender ((World.deployed c).bookings D evm txs) =
        0 + credits msg.sender ((World.deployed c).bookings D evm txs) :=
    booked_bookings txs msg.sender
  constructor
  · rintro ⟨w', hrun⟩
    simp only [Call.run, StakingCall.run, bind_eq_ok, pure_eq_ok_iff] at hrun
    obtain ⟨⟨s, t⟩, hwithdraw, -⟩ := hrun
    obtain ⟨-, hpos, total', rest, -, hrest, -⟩ := DioneStaking.withdraw_eq_ok.mp hwithdraw
    have hpos : 0 < x.toNat := hpos
    omega
  · rintro ⟨hpos, hle⟩
    have hreachable : (World.after D evm c txs).Reachable D evm c := ⟨txs, rfl⟩
    have hstake : x ≤ (World.after D evm c txs).staking.minerStake msg.sender := by
      rw [BitVec.le_def]
      omega
    obtain ⟨s, t, hwithdraw⟩ := hreachable.solvent.exists_withdraw hext hpos hstake
    refine ⟨{ World.after D evm c txs with staking := s, token := t }, ?_⟩
    simp only [Call.run, StakingCall.run, hwithdraw, ok_bind]
    rfl

theorem withdraw_iff_booked_sample :
    ∃ w', (Call.staking (.withdraw 100)).run sampleDeployment sampleEvm ⟨.ofNat 11, 2, 2⟩
      (.after sampleDeployment sampleEvm sampleConfig
        (sampleDeployment.txs (joins (.ofNat 11) 100))) = .ok w' :=
  (withdraw_iff_booked sampleConfig (sampleDeployment.txs (joins (.ofNat 11) 100)) (by decide)
    100).mpr (by decide +kernel)

/-! ## Supply -/

section Supply

variable {self : Address} {evm : Evm} {msg : Msg} {s s' : DioneStaking} {t t' : DioneToken}

/-- Only the owner of the token mints, or hands the token over. -/
theorem TokenCall.supply_run {c : TokenCall} (h : c.run evm self msg t = .ok t')
    (hne : msg.sender ≠ t.owner) :
    t'.erc20.totalSupply = t.erc20.totalSupply ∧ t'.owner = t.owner := by
  cases c with
  | mint _to amount => exact absurd (DioneToken.mint_spec h).1.symm hne
  | transfer recipient amount =>
      simp only [TokenCall.run, bind_eq_ok, pure_eq_ok_iff] at h
      obtain ⟨e, he, rfl⟩ := h
      exact ⟨(ERC20.transferred_of_transfer he).1.totalSupply_eq, rfl⟩
  | approve spender amount =>
      simp only [TokenCall.run, bind_eq_ok, pure_eq_ok_iff] at h
      obtain ⟨e, he, rfl⟩ := h
      exact ⟨(ERC20.approve_spec he).2.1, rfl⟩
  | transferFrom sender recipient amount =>
      simp only [TokenCall.run, bind_eq_ok, pure_eq_ok_iff] at h
      obtain ⟨e, he, rfl⟩ := h
      obtain ⟨e₁, he₁, x, -, happrove⟩ := ERC20.transferFrom_eq_ok.mp he
      refine ⟨?_, rfl⟩
      rw [(ERC20.approve_spec happrove).2.1, (ERC20.transferred_of_transfer he₁).1.totalSupply_eq]
  | increaseAllowance spender addedValue =>
      simp only [TokenCall.run, ERC20.increaseAllowance, bind_eq_ok, pure_eq_ok_iff] at h
      obtain ⟨e, ⟨sum, -, he⟩, rfl⟩ := h
      exact ⟨(ERC20.approve_spec he).2.1, rfl⟩
  | decreaseAllowance spender subtractedValue =>
      simp only [TokenCall.run, ERC20.decreaseAllowance, bind_eq_ok, pure_eq_ok_iff] at h
      obtain ⟨e, ⟨-, -, rest, -, he⟩, rfl⟩ := h
      exact ⟨(ERC20.approve_spec he).2.1, rfl⟩
  | transferOwnership newOwner =>
      simp only [TokenCall.run, Contracts.transferOwnership, Contracts.onlyOwner, bind_eq_ok,
        require_eq_ok, exists_const, pure_eq_ok_iff] at h
      obtain ⟨owner, ⟨howner, -⟩, -⟩ := h
      exact absurd howner.symm hne
  | renounceOwnership =>
      simp only [TokenCall.run, Contracts.renounceOwnership, Contracts.onlyOwner, bind_eq_ok,
        require_eq_ok, exists_const, pure_eq_ok_iff] at h
      obtain ⟨owner, ⟨howner, -⟩, -⟩ := h
      exact absurd howner.symm hne
  | delegate delegatee =>
      obtain ⟨herc20, howner⟩ := DioneToken._delegate_spec h
      exact ⟨by rw [herc20], howner⟩
  | delegateBySig delegatee nonce expiry v r s =>
      obtain ⟨herc20, howner⟩ := DioneToken.delegateBySig_spec h
      exact ⟨by rw [herc20], howner⟩

/-- The reward for an answer is new. -/
theorem supply_mineAndStake {who : Address} (h : s.mineAndStake self msg who t = .ok (s', t')) :
    t'.erc20.totalSupply.toNat = t.erc20.totalSupply.toNat + s.minerReward.toNat ∧
      t'.owner = t.owner := by
  obtain ⟨-, hmint⟩ := DioneStaking.mineAndStake_spec h
  obtain ⟨-, howner, herc20⟩ := DioneToken.mint_spec hmint
  exact ⟨(ERC20.minted_of_mint herc20).totalSupply_eq, howner⟩

/-- Whoever is not registered as the oracle contract mints nothing. -/
theorem StakingCall.supply_run {c : StakingCall} (h : c.run self msg s t = .ok (s', t'))
    (hne : msg.sender ≠ s.dioneOracleAddress) :
    t'.erc20.totalSupply = t.erc20.totalSupply ∧ t'.owner = t.owner := by
  cases c with
  | mine minerAddr =>
      simp only [StakingCall.run, DioneStaking.mine, DioneStaking.nonReentrant_eq_ok, bind_eq_ok,
        require_eq_ok, exists_const] at h
      obtain ⟨-, s₁, ⟨hsender, -⟩, -⟩ := h
      exact absurd hsender hne
  | mineAndStake minerAddr =>
      simp only [StakingCall.run, DioneStaking.mineAndStake, DioneStaking.nonReentrant_eq_ok,
        bind_eq_ok, require_eq_ok, exists_const] at h
      obtain ⟨-, s₁, ⟨hsender, -⟩, -⟩ := h
      exact absurd hsender hne
  | stake amount =>
      obtain ⟨-, howner, htransfer⟩ := DioneStaking.stake_spec h
      obtain ⟨e, he, x, -, happrove⟩ := ERC20.transferFrom_eq_ok.mp htransfer
      refine ⟨?_, howner⟩
      rw [(ERC20.approve_spec happrove).2.1, (ERC20.transferred_of_transfer he).1.totalSupply_eq]
  | withdraw amount =>
      obtain ⟨-, -, total', rest, -, -, e, he, -, rfl⟩ := DioneStaking.withdraw_eq_ok.mp h
      exact ⟨(ERC20.transferred_of_transfer he).1.totalSupply_eq, rfl⟩
  | slashMiner | setMinerReward | setMinimumStake | setOracleContractAddress
  | setDisputeContractAddress | transferOwnership | renounceOwnership =>
      simp only [StakingCall.run, bind_eq_ok, pure_eq_ok_iff, Prod.mk.injEq] at h
      obtain ⟨-, -, -, rfl⟩ := h
      exact ⟨rfl, rfl⟩

variable {D : Deployment} {w w' : World}

/-- `n` answers have been paid for, in tokens that the staking contract minted. -/
structure Emitted (D : Deployment) (w w' : World) : Prop where
  owner : w'.token.owner = D.staking
  supply : w'.token.erc20.totalSupply.toNat + w.staking.minerReward.toNat * w.answers =
    w.token.erc20.totalSupply.toNat + w.staking.minerReward.toNat * w'.answers

/-- One call while the staking contract owns the token and the oracle contract is registered. -/
theorem World.Effect.emitted {c : Call} (h : World.Effect D evm msg w w' c)
    (hext : D.External msg.sender) (htoken : w.token.owner = D.staking)
    (horacle : w.staking.dioneOracleAddress = D.oracle) : Emitted D w w' := by
  cases h with
  | none hbookings hstaking htoken' hanswers =>
      exact ⟨by rw [htoken', htoken], by rw [htoken', hanswers]⟩
  | token c hstaking hrun hanswers =>
      obtain ⟨hsupply, howner⟩ := TokenCall.supply_run hrun (by
        rw [htoken]
        exact hext.ne_staking.symm)
      exact ⟨howner.trans htoken, by rw [hsupply, hanswers]⟩
  | staking c hrun hanswers =>
      obtain ⟨hsupply, howner⟩ := StakingCall.supply_run hrun (by
        rw [horacle]
        exact hext.ne_oracle)
      exact ⟨howner.trans htoken, by rw [hsupply, hanswers]⟩
  | reward reqID data hanswers hrun =>
      obtain ⟨hsupply, howner⟩ := supply_mineAndStake hrun
      refine ⟨howner.trans htoken, ?_⟩
      rw [hsupply, hanswers, Nat.mul_add]
      omega
  | slash dhash hfinishable hwon hrun hanswers =>
      obtain ⟨hsupply, howner⟩ := StakingCall.supply_run hrun (by
        rw [horacle]
        exact D.dispute_ne_oracle)
      exact ⟨howner.trans htoken, by rw [hsupply, hanswers]⟩

end Supply

/-- Once the staking contract owns the token and the oracle contract is registered with it,
    the token keeps its owner, and as long as the parameters stay as they are the supply
    grows by one reward for each answer and not otherwise. -/
theorem supply_grows_with_answers {D : Deployment} {evm : Evm} {w : World}
    (htoken : w.token.owner = D.staking) (horacle : w.staking.dioneOracleAddress = D.oracle)
    (txs : List (Tx D)) (hfixed : Run.Always (World.step D evm) w txs fun w' =>
      w'.staking.parameters = w.staking.parameters) :
    (Run.exec (World.step D evm) w txs).token.owner = D.staking ∧
      (Run.exec (World.step D evm) w txs).token.erc20.totalSupply.toNat +
          w.staking.minerReward.toNat * w.answers =
        w.token.erc20.totalSupply.toNat +
          w.staking.minerReward.toNat * (Run.exec (World.step D evm) w txs).answers := by
  suffices hemitted : Emitted D w (Run.exec (World.step D evm) w txs) from
    ⟨hemitted.owner, hemitted.supply⟩
  induction txs using List.reverseRecOn with
  | nil => exact ⟨htoken, rfl⟩
  | append_singleton txs tx ih =>
      have hbefore := ih fun pre hpre => hfixed pre (hpre.trans (List.prefix_append txs [tx]))
      have hparameters := hfixed txs (List.prefix_append txs [tx])
      rw [Run.exec_concat]
      generalize Run.exec (World.step D evm) w txs = w₁ at hbefore hparameters ⊢
      cases hrun : tx.call.run D evm tx.msg w₁ with
      | error e =>
          simp only [World.step, hrun]
          exact hbefore
      | ok w₂ =>
          simp only [World.step, hrun]
          have horacle' := congrArg DioneStaking.Parameters.dioneOracleAddress hparameters
          have hreward : w₁.staking.minerReward = w.staking.minerReward :=
            congrArg DioneStaking.Parameters.minerReward hparameters
          have hstep := (Call.effect hrun).emitted tx.external hbefore.owner
            (horacle'.trans horacle)
          refine ⟨hstep.owner, ?_⟩
          have hsupply₁ := hbefore.supply
          have hsupply₂ := hstep.supply
          rw [hreward] at hsupply₂
          omega

/-- The sample contracts after their deployer has handed the token over. -/
def sampleHandedOver : World :=
  World.after sampleDeployment sampleEvm sampleConfig (sampleDeployment.txs
    [(.ofNat 10, 1, .staking (.setOracleContractAddress (.ofNat 4))),
      (.ofNat 10, 1, .token (.transferOwnership (.ofNat 2)))])

/-- A request and the answer to it. -/
def sampleAnswer : List (Tx sampleDeployment) :=
  sampleDeployment.txs [(.ofNat 11, 2, .oracle (.requestOracles 1 "type" "params" (.ofNat 20) 7)),
    (.ofNat 12, 3, .oracle (.submitOracleRequest 1 [1]))]

theorem supply_grows_with_answers_sample :
    (Run.exec (World.step sampleDeployment sampleEvm) sampleHandedOver sampleAnswer).answers = 1 ∧
      (Run.exec (World.step sampleDeployment sampleEvm) sampleHandedOver
        sampleAnswer).token.erc20.totalSupply.toNat = 100 := by
  have hfixed : Run.Always (World.step sampleDeployment sampleEvm) sampleHandedOver sampleAnswer
      fun w => w.staking.parameters = sampleHandedOver.staking.parameters := by
    intro pre hpre
    have htake : ∀ n < 3, (Run.exec (World.step sampleDeployment sampleEvm) sampleHandedOver
        (sampleAnswer.take n)).staking.parameters = sampleHandedOver.staking.parameters := by
      decide +kernel
    rw [List.prefix_iff_eq_take.mp hpre]
    exact htake _ (Nat.lt_succ_of_le hpre.length_le)
  have hanswers : (Run.exec (World.step sampleDeployment sampleEvm) sampleHandedOver
      sampleAnswer).answers = 1 := by
    decide +kernel
  have hsupply := (supply_grows_with_answers (by decide +kernel) (by decide +kernel) sampleAnswer
    hfixed).2
  rw [hanswers] at hsupply
  have hstart : sampleHandedOver.answers = 0 ∧ sampleHandedOver.staking.minerReward.toNat = 100 ∧
      sampleHandedOver.token.erc20.totalSupply.toNat = 0 := by
    decide +kernel
  rw [hstart.1, hstart.2.1, hstart.2.2] at hsupply
  exact ⟨hanswers, hsupply⟩

end Dione.Contracts
