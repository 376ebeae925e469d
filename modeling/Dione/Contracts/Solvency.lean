/-
  Dione.Contracts.Solvency

  The staking contract can pay out every stake.

  The token side of the argument is `ERC20.Backs`: the balances add up to the
  supply, the holder has at least a given amount, and nobody may spend it.
  Every function of the token keeps that for callers other than the holder,
  and the functions of the staking contract change the amount together with the
  stakes.
-/

import Dione.Contracts.System

namespace Dione.Contracts

open Guard Ledger

/-! ## The token keeps the holder's balance -/

/-- `holder` has at least `n` tokens and has allowed nobody to spend them. -/
structure ERC20.Backs (holder : Address) (n : Nat) (e : ERC20) : Prop where
  supply : total e.balances = e.totalSupply.toNat
  covered : n ≤ (e.balances holder).toNat
  noAllowance : ∀ a, e.allowances holder a = 0

namespace ERC20.Backs

variable {holder sender recipient caller : Address} {n : Nat} {v : Uint256} {e e' : ERC20}

theorem transfer (h : Backs holder n e) (hne : holder ≠ sender)
    (ht : e._transfer sender recipient v = .ok e') : Backs holder n e' := by
  obtain ⟨hmoved, hallow⟩ := transferred_of_transfer ht
  refine ⟨?_, h.covered.trans (hmoved.le_of_ne holder hne), ?_⟩
  · rw [hmoved.total_eq, hmoved.totalSupply_eq, h.supply]
  · rw [hallow]
    exact h.noAllowance

/-- What is transferred to the holder covers more. -/
theorem receive (h : Backs holder n e) (hne : sender ≠ holder)
    (ht : e._transfer sender holder v = .ok e') : Backs holder (n + v.toNat) e' := by
  obtain ⟨hmoved, -⟩ := transferred_of_transfer ht
  have hcovered := h.covered
  have hcredited := hmoved.credited hne
  exact ⟨(h.transfer hne.symm ht).supply, by omega, (h.transfer hne.symm ht).noAllowance⟩

/-- What the holder transfers covers less. -/
theorem pay (h : Backs holder (n + v.toNat) e) (hne : holder ≠ recipient)
    (ht : e._transfer holder recipient v = .ok e') : Backs holder n e' := by
  obtain ⟨hmoved, hallow⟩ := transferred_of_transfer ht
  have hcovered := h.covered
  have hdebited := hmoved.debited hne
  refine ⟨?_, by omega, ?_⟩
  · rw [hmoved.total_eq, hmoved.totalSupply_eq, h.supply]
  · rw [hallow]
    exact h.noAllowance

theorem approve (h : Backs holder n e) (hne : holder ≠ sender)
    (ha : e._approve sender recipient v = .ok e') : Backs holder n e' := by
  obtain ⟨hbalances, hsupply, hallow⟩ := approve_spec ha
  refine ⟨by rw [hbalances, hsupply, h.supply], by rw [hbalances]; exact h.covered, ?_⟩
  rw [hallow holder hne]
  exact h.noAllowance

/-- Without an allowance only nothing can be taken from the holder. -/
theorem transferFrom_self (h : Backs holder n e)
    (ht : e.transferFrom caller holder recipient v = .ok e') : Backs holder n e' := by
  obtain ⟨e₁, ht₁, x, hx, happ⟩ := transferFrom_eq_ok.mp ht
  obtain ⟨hmoved, hallow⟩ := transferred_of_transfer ht₁
  obtain ⟨hbalances, hsupply, -⟩ := approve_spec happ
  have hzero : (e.allowances holder caller).toNat = 0 := by
    rw [h.noAllowance caller]
    rfl
  -- the allowance left over is that of nothing minus nothing
  have hx0 : x = 0 := BitVec.eq_of_toNat_eq (show x.toNat = 0 by omega)
  refine ⟨?_, ?_, ?_⟩
  · rw [hbalances, hsupply, hmoved.total_eq, hmoved.totalSupply_eq, h.supply]
  · have hcovered := h.covered
    rw [hbalances]
    -- a transfer of the holder to itself changes no balance
    by_cases hself : holder = recipient
    · rw [hmoved.balances_eq hself]
      exact hcovered
    · have hdebited := hmoved.debited hself
      omega
  · intro a
    obtain ⟨-, -, rfl⟩ := _approve_eq_ok.mp happ
    show Function.update e₁.allowances holder _ holder a = 0
    rw [Function.update_self, hallow, hx0]
    by_cases ha : a = caller
    · rw [ha, Function.update_self]
    · rw [Function.update_of_ne ha]
      exact h.noAllowance a

theorem transferFrom (h : Backs holder n e)
    (ht : e.transferFrom caller sender recipient v = .ok e') : Backs holder n e' := by
  by_cases hne : holder = sender
  · subst hne
    exact h.transferFrom_self ht
  · obtain ⟨e₁, ht₁, x, -, happ⟩ := transferFrom_eq_ok.mp ht
    exact (h.transfer hne ht₁).approve hne happ

theorem mint {a : Address} (h : Backs holder n e) (hm : e._mint a v = .ok e') :
    Backs holder n e' := by
  have hminted := minted_of_mint hm
  have hsupply := h.supply
  have htotal := hminted.total_eq
  have hsupply' := hminted.totalSupply_eq
  refine ⟨by omega, h.covered.trans (hminted.le holder), ?_⟩
  rw [hminted.allowances_eq]
  exact h.noAllowance

/-- What is minted for the holder covers more. -/
theorem mint_self (h : Backs holder n e) (hm : e._mint holder v = .ok e') :
    Backs holder (n + v.toNat) e' := by
  have hcovered := h.covered
  have hcredited := (minted_of_mint hm).credited
  exact ⟨(h.mint hm).supply, by omega, (h.mint hm).noAllowance⟩

end ERC20.Backs

/-! ## One call -/

/-- The stakes add up to `_totalStake`, and the balance of the staking contract
    covers it. -/
structure Solvent (contract : Address) (s : DioneStaking) (t : DioneToken) : Prop where
  entered : s.entered = false
  stakes : total s.minerStake = s.totalStake.toNat
  backs : t.erc20.Backs contract s.totalStake.toNat

section Steps

variable {contract : Address} {evm : Evm} {msg : Msg} {s s' : DioneStaking} {t t' : DioneToken}

theorem Solvent.tokenCall {self : Address} {c : TokenCall} (h : Solvent contract s t)
    (hne : contract ≠ msg.sender) (hc : c.run evm self msg t = .ok t') : Solvent contract s t' := by
  refine ⟨h.entered, h.stakes, ?_⟩
  have hbacks := h.backs
  cases c with
  | mint _to amount => exact hbacks.mint (DioneToken.mint_spec hc).2.2
  | transfer recipient amount =>
      simp only [TokenCall.run, bind_eq_ok, pure_eq_ok_iff] at hc
      obtain ⟨e, he, rfl⟩ := hc
      exact hbacks.transfer hne he
  | approve spender amount =>
      simp only [TokenCall.run, bind_eq_ok, pure_eq_ok_iff] at hc
      obtain ⟨e, he, rfl⟩ := hc
      exact hbacks.approve hne he
  | transferFrom sender recipient amount =>
      simp only [TokenCall.run, bind_eq_ok, pure_eq_ok_iff] at hc
      obtain ⟨e, he, rfl⟩ := hc
      exact hbacks.transferFrom he
  | increaseAllowance spender addedValue =>
      simp only [TokenCall.run, ERC20.increaseAllowance, bind_eq_ok, pure_eq_ok_iff] at hc
      obtain ⟨e, ⟨sum, -, he⟩, rfl⟩ := hc
      exact hbacks.approve hne he
  | decreaseAllowance spender subtractedValue =>
      simp only [TokenCall.run, ERC20.decreaseAllowance, bind_eq_ok, pure_eq_ok_iff] at hc
      obtain ⟨e, ⟨-, -, rest, -, he⟩, rfl⟩ := hc
      exact hbacks.approve hne he
  | transferOwnership newOwner =>
      simp only [TokenCall.run, bind_eq_ok, pure_eq_ok_iff] at hc
      obtain ⟨owner, -, rfl⟩ := hc
      exact hbacks
  | renounceOwnership =>
      simp only [TokenCall.run, bind_eq_ok, pure_eq_ok_iff] at hc
      obtain ⟨owner, -, rfl⟩ := hc
      exact hbacks
  | delegate delegatee =>
      rw [(DioneToken._delegate_spec hc).1]
      exact hbacks
  | delegateBySig delegatee nonce expiry v r s =>
      rw [(DioneToken.delegateBySig_spec hc).1]
      exact hbacks

/-- A deposit that the contract's balance covers. -/
theorem Solvent.deposited {who : Address} {v : Uint256} (h : Solvent contract s t)
    (hdeposited : DioneStaking.Deposited who v s s')
    (hbacks : t'.erc20.Backs contract (s.totalStake.toNat + v.toNat)) : Solvent contract s' t' := by
  have hstakes := h.stakes
  have htotal := hdeposited.total_eq
  have htotalStake := hdeposited.totalStake_eq
  refine ⟨hdeposited.entered_eq, by omega, ?_⟩
  rw [htotalStake]
  exact hbacks

theorem Solvent.mineAndStake {who : Address} (h : Solvent contract s t)
    (hc : s.mineAndStake contract msg who t = .ok (s', t')) : Solvent contract s' t' := by
  obtain ⟨hdeposited, hmint⟩ := DioneStaking.mineAndStake_spec hc
  exact h.deposited hdeposited (h.backs.mint_self (DioneToken.mint_spec hmint).2.2)

theorem Solvent.stake {v : Uint256} (h : Solvent contract s t) (hne : msg.sender ≠ contract)
    (hc : s.stake contract msg v t = .ok (s', t')) : Solvent contract s' t' := by
  obtain ⟨hdeposited, -, htransfer⟩ := DioneStaking.stake_spec hc
  obtain ⟨e, he, x, -, happrove⟩ := ERC20.transferFrom_eq_ok.mp htransfer
  -- `transferFrom` lowers the allowance of the staker, not of the contract
  exact h.deposited hdeposited ((h.backs.receive hne he).approve hne.symm happrove)

theorem Solvent.withdraw {v : Uint256} (h : Solvent contract s t) (hne : contract ≠ msg.sender)
    (hc : s.withdraw contract msg v t = .ok (s', t')) : Solvent contract s' t' := by
  obtain ⟨hentered, -, total', rest, htotal, hrest, e, he, rfl, rfl⟩ :=
    DioneStaking.withdraw_eq_ok.mp hc
  refine ⟨hentered, ?_, ?_⟩
  · have hstakes := h.stakes
    have hupdate := total_update s.minerStake msg.sender rest
    rw [DioneStaking.minerStake_setAmount]
    show total (Function.update s.minerStake msg.sender rest) = total'.toNat
    omega
  · have hbacks := h.backs
    rw [← htotal] at hbacks
    exact hbacks.pay hne he

theorem Solvent.slashed {miner : Address} {share : Uint256} {rs : List Address}
    (h : Solvent contract s t) (hs : DioneStaking.Slashed miner share rs s s') :
    Solvent contract s' t := by
  have htotal : s'.totalStake = s.totalStake := by rw [hs.storage_eq]
  have hentered : s'.entered = s.entered := by rw [hs.storage_eq]
  refine ⟨hentered.trans h.entered, ?_, ?_⟩
  · rw [hs.total_eq, htotal]
    exact h.stakes
  · rw [htotal]
    exact h.backs

theorem Solvent.slashMiner {miner : Address} {rs : List Address} (h : Solvent contract s t)
    (hc : s.slashMiner msg miner rs = .ok s') : Solvent contract s' t := by
  obtain ⟨-, -, -, -, share, -, hloop⟩ := DioneStaking.slashMiner_eq_ok.mp hc
  exact h.slashed (DioneStaking.slashLoop_spec hloop).1

theorem Solvent.stakingCall {c : StakingCall} (h : Solvent contract s t)
    (hne : contract ≠ msg.sender) (hc : c.run contract msg s t = .ok (s', t')) :
    Solvent contract s' t' := by
  cases c with
  | mine minerAddr =>
      obtain ⟨hentered, htotal, hstakes, hmint⟩ := DioneStaking.mine_spec hc
      refine ⟨hentered, by rw [hstakes, htotal, h.stakes], ?_⟩
      rw [htotal]
      exact h.backs.mint (DioneToken.mint_spec hmint).2.2
  | mineAndStake minerAddr => exact h.mineAndStake hc
  | stake amount => exact h.stake hne.symm hc
  | withdraw amount => exact h.withdraw hne hc
  | slashMiner miner receipentMiners =>
      simp only [StakingCall.run, bind_eq_ok, pure_eq_ok_iff, Prod.mk.injEq] at hc
      obtain ⟨s₁, hslash, rfl, rfl⟩ := hc
      exact h.slashMiner hslash
  -- the other functions write neither stakes nor their sum
  | setMinerReward | setMinimumStake | setOracleContractAddress | setDisputeContractAddress =>
      simp only [StakingCall.run, bind_eq_ok, pure_eq_ok_iff, Prod.mk.injEq] at hc
      obtain ⟨s₁, hset, rfl, rfl⟩ := hc
      obtain ⟨-, -, rfl⟩ := DioneStaking.setByOwner_eq_ok.mp hset
      exact ⟨h.entered, h.stakes, h.backs⟩
  | transferOwnership | renounceOwnership =>
      simp only [StakingCall.run, bind_eq_ok, pure_eq_ok_iff, Prod.mk.injEq] at hc
      obtain ⟨owner, -, rfl, rfl⟩ := hc
      exact ⟨h.entered, h.stakes, h.backs⟩

variable {D : Deployment} {w w' : World}

theorem Solvent.disputeCall {c : DisputeCall} (h : Solvent contract w.staking w.token)
    (hc : c.run D evm msg w = .ok w') : Solvent contract w'.staking w'.token := by
  cases c with
  | beginDispute miner requestID =>
      simp only [DisputeCall.run, bind_eq_ok, pure_eq_ok_iff] at hc
      obtain ⟨⟨d, evs⟩, -, rfl⟩ := hc
      exact h
  | vote dhash voteStatus =>
      simp only [DisputeCall.run, bind_eq_ok, pure_eq_ok_iff] at hc
      obtain ⟨⟨d, evs⟩, -, rfl⟩ := hc
      exact h
  | finishDispute dhash =>
      simp only [DisputeCall.run, bind_eq_ok, pure_eq_ok_iff] at hc
      obtain ⟨⟨d, s, evs⟩, hfinish, rfl⟩ := hc
      obtain ⟨hstaking, -⟩ :=
        DioneDispute.settleDispute_eq_ok.mp (DioneDispute.finishDispute_eq_ok.mp hfinish).2
      show Solvent contract s w.token
      split at hstaking
      · rw [← hstaking]
        exact h
      · exact h.slashMiner hstaking

theorem Solvent.oracleCall {c : OracleCall} (h : Solvent D.staking w.staking w.token)
    (hc : c.run D msg w = .ok w') : Solvent D.staking w'.staking w'.token := by
  cases c with
  | requestOracles originChain requestType requestParams callbackAddress callbackMethodID =>
      simp only [OracleCall.run, bind_eq_ok, pure_eq_ok_iff] at hc
      obtain ⟨⟨o, evs⟩, -, rfl⟩ := hc
      exact h
  | cancelOracleRequest reqID =>
      simp only [OracleCall.run, bind_eq_ok, pure_eq_ok_iff] at hc
      obtain ⟨⟨o, evs⟩, -, rfl⟩ := hc
      exact h
  | submitOracleRequest reqID data =>
      simp only [OracleCall.run, bind_eq_ok, pure_eq_ok_iff] at hc
      obtain ⟨⟨o, ⟨s, t⟩, evs⟩, hsubmit, rfl⟩ := hc
      obtain ⟨call, hanswer, -⟩ := DioneOracle.submitOracleRequest_eq_ok.mp hsubmit
      obtain ⟨-, -, hpaid, -, -⟩ := DioneOracle.answer_eq_ok.mp hanswer
      exact h.mineAndStake hpaid

/-- Every call keeps the staking contract solvent. -/
theorem Solvent.call {c : Call} (h : Solvent D.staking w.staking w.token)
    (hext : D.External msg.sender) (hc : c.run D evm msg w = .ok w') :
    Solvent D.staking w'.staking w'.token := by
  cases c with
  | token c =>
      simp only [Call.run, bind_eq_ok, pure_eq_ok_iff] at hc
      obtain ⟨t, ht, rfl⟩ := hc
      exact h.tokenCall hext.ne_staking ht
  | staking c =>
      simp only [Call.run, bind_eq_ok, pure_eq_ok_iff] at hc
      obtain ⟨⟨s, t⟩, hst, rfl⟩ := hc
      exact h.stakingCall hext.ne_staking hst
  | dispute c => exact h.disputeCall hc
  | oracle c => exact h.oracleCall hc

end Steps

/-! ## Every run -/

theorem solvent_deployed (contract : Address) (c : Config) :
    Solvent contract (World.deployed c).staking (World.deployed c).token where
  entered := rfl
  stakes := total_zero
  backs := ⟨total_zero, Nat.zero_le _, fun _ => rfl⟩

theorem World.Reachable.solvent {D : Deployment} {evm : Evm} {c : Config} {w : World}
    (hw : w.Reachable D evm c) : Solvent D.staking w.staking w.token := by
  obtain ⟨txs, rfl⟩ := hw
  refine Run.exec_invariant (I := fun w : World => Solvent D.staking w.staking w.token) ?_
    (solvent_deployed D.staking c) txs
  intro w tx h
  unfold World.step
  split
  -- a reverted transaction changes nothing
  · next w' hrun => exact h.call tx.external hrun
  · exact h

/-- A miner can withdraw any part of its stake from a solvent contract. -/
theorem Solvent.exists_withdraw {D : Deployment} {msg : Msg} {s : DioneStaking} {t : DioneToken}
    {x : Uint256} (h : Solvent D.staking s t) (hext : D.External msg.sender) (hpos : 0 < x)
    (hle : x ≤ s.minerStake msg.sender) :
    ∃ s' t', s.withdraw D.staking msg x t = .ok (s', t') := by
  have hstake : x.toNat ≤ (s.minerStake msg.sender).toNat := hle
  have htotal := le_total s.minerStake msg.sender
  have hstakes := h.stakes
  have hcovered := h.backs.covered
  have hzero : D.staking ≠ .zero := by
    have hdistinct := D.distinct
    simp only [List.nodup_cons, List.mem_cons, not_or] at hdistinct
    exact Ne.symm hdistinct.1.2.1
  -- The token transfer and the two subtractions are all that could revert.
  obtain ⟨e, he⟩ := ERC20.exists_transfer (v := x) hzero hext.ne_zero hext.ne_staking
    (by omega) h.backs.supply
  obtain ⟨total', -, htotal'⟩ := Checked.exists_sub (e := Revert.overflow)
    (show x.toNat ≤ s.totalStake.toNat by omega)
  obtain ⟨rest, -, hrest⟩ := Checked.exists_sub (e := Revert.overflow) hstake
  exact ⟨_, _, DioneStaking.withdraw_eq_ok.mpr
    ⟨h.entered, hpos, total', rest, htotal', hrest, e, he, rfl, rfl⟩⟩

/-- In every state the contracts can get into the stakes add up to `_totalStake`,
    the staking contract has at least that many tokens, and no withdrawal within a
    miner's stake reverts. -/
theorem staking_conserved_and_solvent {D : Deployment} {evm : Evm} {c : Config} {w : World}
    (hw : w.Reachable D evm c) :
    (∑ a, (w.staking.minerInfo a).amount.toNat) = w.staking.totalStake.toNat ∧
      w.staking.totalStake.toNat ≤ (w.token.erc20.balances D.staking).toNat ∧
      ∀ (msg : Msg) (x : Uint256), D.External msg.sender → 0 < x →
        x ≤ (w.staking.minerInfo msg.sender).amount →
        ∃ w', (Call.staking (.withdraw x)).run D evm msg w = .ok w' := by
  refine ⟨hw.solvent.stakes, hw.solvent.backs.covered, ?_⟩
  intro msg x hext hpos hle
  obtain ⟨s, t, hwithdraw⟩ := hw.solvent.exists_withdraw hext hpos hle
  refine ⟨{ w with staking := s, token := t }, ?_⟩
  simp only [Call.run, StakingCall.run, hwithdraw, ok_bind]
  rfl

/-- A deployment at four addresses. -/
def sampleDeployment : Deployment where
  token := .ofNat 1
  staking := .ofNat 2
  dispute := .ofNat 3
  oracle := .ofNat 4
  distinct := by decide

/-- A chain with a hash that keeps short inputs apart, on which nobody signs. -/
def sampleEvm : Evm where
  keccak256 b := BitVec.ofNat 256 (b.foldl (fun n x => 257 * n + x.toNat + 1) 0)
  ecrecover _ _ _ _ := .zero
  chainid := 1

def sampleConfig : Config where
  deployer := .ofNat 10
  minerReward := 100
  startBlock := 0
  minimumStake := 50
  voteWindowTime := 20
  minStake := 50

/-- The calls of `cs` at the given times, as far as accounts make them. -/
def Deployment.txs (D : Deployment) (cs : List (Address × Uint256 × Call)) : List (Tx D) :=
  cs.filterMap fun (sender, time, call) =>
    if h : D.External sender then some ⟨⟨sender, time, time⟩, call, h⟩ else none

/-- An account gets tokens from the deployer and stakes them. -/
def joins (a : Address) (amount : Uint256) : List (Address × Uint256 × Call) :=
  [(.ofNat 10, 1, .token (.mint a amount)), (a, 1, .token (.approve (.ofNat 2) amount)),
    (a, 1, .staking (.stake amount))]

theorem staking_conserved_and_solvent_sample :
    ∃ w', (Call.staking (.withdraw 70)).run sampleDeployment sampleEvm ⟨.ofNat 11, 2, 2⟩
      (.after sampleDeployment sampleEvm sampleConfig
        (sampleDeployment.txs (joins (.ofNat 11) 100))) = .ok w' :=
  (staking_conserved_and_solvent ⟨sampleDeployment.txs (joins (.ofNat 11) 100), rfl⟩).2.2
    ⟨.ofNat 11, 2, 2⟩ 70 (by decide) (by decide) (by decide +kernel)

end Dione.Contracts
