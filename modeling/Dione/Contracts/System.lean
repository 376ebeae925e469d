/-
  Dione.Contracts.System

  The four contracts deployed together, and the calls accounts make to them.

  A transaction is a call by an account other than the contracts: what the
  contracts call on each other is part of their functions.  A call that reverts
  leaves the storages as they were.  No function hands control to an account's
  own code, so a run is a sequence of calls.
-/

import Dione.Contracts.Dispute
import Dione.Contracts.Oracle
import Dione.Lib.Run

namespace Dione.Contracts

open Guard

/-! ## Calls -/

/-- The entry points of `DioneToken`. -/
inductive TokenCall where
  | mint (_to : Address) (amount : Uint256)
  | transfer (recipient : Address) (amount : Uint256)
  | approve (spender : Address) (amount : Uint256)
  | transferFrom (sender recipient : Address) (amount : Uint256)
  | increaseAllowance (spender : Address) (addedValue : Uint256)
  | decreaseAllowance (spender : Address) (subtractedValue : Uint256)
  | transferOwnership (newOwner : Address)
  | renounceOwnership
  | delegate (delegatee : Address)
  | delegateBySig (delegatee : Address) (nonce expiry : Uint256) (v : UInt8) (r s : Bytes32)
  deriving DecidableEq, Repr

/-- The entry points of `DioneStaking`. -/
inductive StakingCall where
  | mine (minerAddr : Address)
  | mineAndStake (minerAddr : Address)
  | stake (amount : Uint256)
  | withdraw (amount : Uint256)
  | setMinerReward (minerReward : Uint256)
  | setMinimumStake (minimumStake : Uint256)
  | setOracleContractAddress (addr : Address)
  | setDisputeContractAddress (addr : Address)
  | slashMiner (miner : Address) (receipentMiners : List Address)
  | transferOwnership (newOwner : Address)
  | renounceOwnership
  deriving DecidableEq, Repr

/-- The entry points of `DioneDispute`. -/
inductive DisputeCall where
  | beginDispute (miner : Address) (requestID : Uint256)
  | vote (dhash : Bytes32) (voteStatus : Bool)
  | finishDispute (dhash : Bytes32)
  deriving DecidableEq, Repr

/-- The entry points of `DioneOracle`. -/
inductive OracleCall where
  | requestOracles (originChain : UInt8) (requestType requestParams : String)
      (callbackAddress : Address) (callbackMethodID : BitVec 32)
  | cancelOracleRequest (reqID : Uint256)
  | submitOracleRequest (reqID : Uint256) (data : Bytes)
  deriving DecidableEq, Repr

/-- A call of one of the contracts. -/
inductive Call where
  | token (c : TokenCall)
  | staking (c : StakingCall)
  | dispute (c : DisputeCall)
  | oracle (c : OracleCall)
  deriving DecidableEq, Repr

/-- Run a call of the token at address `self`. -/
def TokenCall.run (evm : Evm) (self : Address) (msg : Msg) (t : DioneToken) :
    TokenCall → Except Revert DioneToken
  | .mint _to amount => t.mint msg _to amount
  | .transfer recipient amount => do
    return { t with erc20 := ← t.erc20.transfer msg.sender recipient amount }
  | .approve spender amount => do
    return { t with erc20 := ← t.erc20.approve msg.sender spender amount }
  | .transferFrom sender recipient amount => do
    return { t with erc20 := ← t.erc20.transferFrom msg.sender sender recipient amount }
  | .increaseAllowance spender addedValue => do
    return { t with erc20 := ← t.erc20.increaseAllowance msg.sender spender addedValue }
  | .decreaseAllowance spender subtractedValue => do
    return { t with erc20 := ← t.erc20.decreaseAllowance msg.sender spender subtractedValue }
  | .transferOwnership newOwner => do
    return { t with owner := ← Contracts.transferOwnership t.owner msg.sender newOwner }
  | .renounceOwnership => do
    return { t with owner := ← Contracts.renounceOwnership t.owner msg.sender }
  | .delegate delegatee => t.delegate msg delegatee
  | .delegateBySig delegatee nonce expiry v r s =>
    t.delegateBySig evm self msg delegatee nonce expiry v r s

/-- Run a call of the staking contract at address `self`. -/
def StakingCall.run (self : Address) (msg : Msg) (s : DioneStaking) (t : DioneToken) :
    StakingCall → Except Revert (DioneStaking × DioneToken)
  | .mine minerAddr => s.mine self msg minerAddr t
  | .mineAndStake minerAddr => s.mineAndStake self msg minerAddr t
  | .stake amount => s.stake self msg amount t
  | .withdraw amount => s.withdraw self msg amount t
  | .setMinerReward minerReward => do return (← s.setMinerReward msg minerReward, t)
  | .setMinimumStake minimumStake => do return (← s.setMinimumStake msg minimumStake, t)
  | .setOracleContractAddress addr => do return (← s.setOracleContractAddress msg addr, t)
  | .setDisputeContractAddress addr => do return (← s.setDisputeContractAddress msg addr, t)
  -- anyone registered as the dispute contract can call this directly
  | .slashMiner miner receipentMiners => do return (← s.slashMiner msg miner receipentMiners, t)
  | .transferOwnership newOwner => do
    return ({ s with owner := ← Contracts.transferOwnership s.owner msg.sender newOwner }, t)
  | .renounceOwnership => do
    return ({ s with owner := ← Contracts.renounceOwnership s.owner msg.sender }, t)

/-! ## The deployment -/

/-- The addresses of the four contracts. -/
structure Deployment where
  token : Address
  staking : Address
  dispute : Address
  oracle : Address
  distinct : [Address.zero, token, staking, dispute, oracle].Nodup

/-- The arguments of the constructors; `deployer` calls them. -/
structure Config where
  deployer : Address
  minerReward : Uint256
  startBlock : Uint256
  minimumStake : Uint256
  voteWindowTime : Uint256
  minStake : Uint256

/-- The storages of the four contracts and the events emitted so far. -/
structure World where
  token : DioneToken
  staking : DioneStaking
  dispute : DioneDispute
  oracle : DioneOracle
  events : List Event

/-- The storages after the constructors. -/
def World.deployed (c : Config) : World where
  token := .deployed c.deployer
  staking := .deployed c.deployer c.minerReward c.startBlock c.minimumStake
  dispute := .deployed c.voteWindowTime c.minStake
  oracle := .deployed
  events := []

/-- An account that is none of the contracts and can send transactions. -/
def Deployment.External (D : Deployment) (a : Address) : Prop :=
  a ∉ [Address.zero, D.token, D.staking, D.dispute, D.oracle]

instance (D : Deployment) (a : Address) : Decidable (D.External a) :=
  inferInstanceAs (Decidable (a ∉ _))

theorem Deployment.External.ne_staking {D : Deployment} {a : Address} (h : D.External a) :
    D.staking ≠ a := by
  rintro rfl
  simp [Deployment.External] at h

theorem Deployment.External.ne_zero {D : Deployment} {a : Address} (h : D.External a) :
    a ≠ .zero := by
  rintro rfl
  simp [Deployment.External] at h

theorem Deployment.External.ne_oracle {D : Deployment} {a : Address} (h : D.External a) :
    a ≠ D.oracle := by
  rintro rfl
  simp [Deployment.External] at h

/-- No contract is at `address(0)`. -/
theorem Deployment.ne_zero (D : Deployment) :
    D.staking ≠ .zero ∧ D.dispute ≠ .zero ∧ D.oracle ≠ .zero := by
  have hdistinct := D.distinct
  simp only [List.nodup_cons, List.mem_cons, List.not_mem_nil, or_false, not_or] at hdistinct
  obtain ⟨⟨-, hstaking, hdispute, horacle⟩, -⟩ := hdistinct
  exact ⟨Ne.symm hstaking, Ne.symm hdispute, Ne.symm horacle⟩

theorem Deployment.dispute_ne_oracle (D : Deployment) : D.dispute ≠ D.oracle := by
  have hdistinct := D.distinct
  simp only [List.nodup_cons, List.mem_cons, List.not_mem_nil, or_false, not_or] at hdistinct
  exact hdistinct.2.2.2.1

/-- A transaction. -/
structure Tx (D : Deployment) where
  msg : Msg
  call : Call
  external : D.External msg.sender

section Steps

variable (D : Deployment) (evm : Evm)

/-- Run a call of the dispute contract. -/
def DisputeCall.run (msg : Msg) (w : World) : DisputeCall → Except Revert World
  | .beginDispute miner requestID => do
    let (dispute, events) ← w.dispute.beginDispute evm msg miner requestID w.staking
    return { w with dispute := dispute, events := w.events ++ events }
  | .vote dhash voteStatus => do
    let (dispute, events) ← w.dispute.vote msg dhash voteStatus w.staking
    return { w with dispute := dispute, events := w.events ++ events }
  | .finishDispute dhash => do
    let (dispute, staking, events) ← w.dispute.finishDispute D.dispute msg dhash w.staking
    return { w with dispute := dispute, staking := staking, events := w.events ++ events }

/-- Run a call of the oracle contract. -/
def OracleCall.run (msg : Msg) (w : World) : OracleCall → Except Revert World
  | .requestOracles originChain requestType requestParams callbackAddress callbackMethodID => do
    let (oracle, events) ← w.oracle.requestOracles msg originChain requestType requestParams
      callbackAddress callbackMethodID
    return { w with oracle := oracle, events := w.events ++ events }
  | .cancelOracleRequest reqID => do
    let (oracle, events) ← w.oracle.cancelOracleRequest msg reqID
    return { w with oracle := oracle, events := w.events ++ events }
  | .submitOracleRequest reqID data => do
    let (oracle, (staking, token), events) ← w.oracle.submitOracleRequest D.oracle D.staking msg
      reqID data w.staking w.token
    return { w with
      oracle := oracle, staking := staking, token := token, events := w.events ++ events }

/-- Run a call. -/
def Call.run (msg : Msg) (w : World) : Call → Except Revert World
  | .token c => do return { w with token := ← c.run evm D.token msg w.token }
  | .staking c => do
    let (s, t) ← c.run D.staking msg w.staking w.token
    return { w with staking := s, token := t }
  | .dispute c => c.run D evm msg w
  | .oracle c => c.run D msg w

/-- One transaction. -/
def World.step (w : World) (tx : Tx D) : World :=
  match tx.call.run D evm tx.msg w with
  | .ok w' => w'
  | .error _ => w

/-- The world after the transactions `txs`. -/
def World.after (c : Config) (txs : List (Tx D)) : World :=
  Run.exec (World.step D evm) (.deployed c) txs

/-- A state the contracts can get into. -/
def World.Reachable (c : Config) (w : World) : Prop := ∃ txs, World.after D evm c txs = w

variable {ω : Type} (note : World → Msg → Call → List ω)

/-- What is noted of a transaction; of one that reverts nothing is. -/
def World.noted (w : World) (tx : Tx D) : List ω :=
  match tx.call.run D evm tx.msg w with
  | .ok _ => note w tx.msg tx.call
  | .error _ => []

/-- What is noted of the transactions `txs`, the oldest first. -/
def World.journal (c : Config) (txs : List (Tx D)) : List ω :=
  Run.outputs (World.step D evm) (World.noted D evm note) (.deployed c) txs

variable {D evm note}

/-- What successful calls keep between the world and the journal holds after all
    transactions. -/
theorem World.journal_invariant {c : Config} {I : World → List ω → Prop}
    (h0 : I (.deployed c) [])
    (hcall : ∀ w w' log, ∀ tx : Tx D, I w log → tx.call.run D evm tx.msg w = .ok w' →
      I w' (log ++ note w tx.msg tx.call))
    (txs : List (Tx D)) : I (World.after D evm c txs) (World.journal D evm note c txs) := by
  apply Run.outputs_invariant _ h0
  intro w log tx hI
  unfold World.noted World.step
  cases hrun : tx.call.run D evm tx.msg w with
  | ok w' => exact hcall w w' log tx hI hrun
  | error e =>
      rw [List.append_nil]
      exact hI

end Steps

/-! ## What a call does to the disputes -/

section Disputes

variable {D : Deployment} {evm : Evm} {msg : Msg} {w w' : World}

theorem beginDispute_run {miner : Address} {requestID : Uint256}
    (h : (Call.dispute (.beginDispute miner requestID)).run D evm msg w = .ok w') :
    ∃ evs, w.dispute.beginDispute evm msg miner requestID w.staking = .ok (w'.dispute, evs) := by
  simp only [Call.run, DisputeCall.run, bind_eq_ok, pure_eq_ok_iff] at h
  obtain ⟨⟨d, evs⟩, hd, rfl⟩ := h
  exact ⟨evs, hd⟩

theorem vote_run {dhash : Bytes32} {voteStatus : Bool}
    (h : (Call.dispute (.vote dhash voteStatus)).run D evm msg w = .ok w') :
    ∃ evs, w.dispute.vote msg dhash voteStatus w.staking = .ok (w'.dispute, evs) := by
  simp only [Call.run, DisputeCall.run, bind_eq_ok, pure_eq_ok_iff] at h
  obtain ⟨⟨d, evs⟩, hd, rfl⟩ := h
  exact ⟨evs, hd⟩

theorem finishDispute_run {dhash : Bytes32}
    (h : (Call.dispute (.finishDispute dhash)).run D evm msg w = .ok w') :
    ∃ evs, w.dispute.finishDispute D.dispute msg dhash w.staking
      = .ok (w'.dispute, w'.staking, evs) := by
  simp only [Call.run, DisputeCall.run, bind_eq_ok, pure_eq_ok_iff] at h
  obtain ⟨⟨d, s, evs⟩, hd, rfl⟩ := h
  exact ⟨evs, hd⟩

theorem dispute_eq_of_token {c : TokenCall} (h : (Call.token c).run D evm msg w = .ok w') :
    w'.dispute = w.dispute := by
  simp only [Call.run, bind_eq_ok, pure_eq_ok_iff] at h
  obtain ⟨t, -, rfl⟩ := h
  rfl

theorem dispute_eq_of_staking {c : StakingCall} (h : (Call.staking c).run D evm msg w = .ok w') :
    w'.dispute = w.dispute := by
  simp only [Call.run, bind_eq_ok, pure_eq_ok_iff] at h
  obtain ⟨⟨s, t⟩, -, rfl⟩ := h
  rfl

theorem dispute_eq_of_oracle {c : OracleCall} (h : (Call.oracle c).run D evm msg w = .ok w') :
    w'.dispute = w.dispute := by
  unfold Call.run OracleCall.run at h
  cases c <;> simp only [bind_eq_ok, pure_eq_ok_iff] at h <;> obtain ⟨⟨o, evs⟩, -, rfl⟩ := h <;> rfl

end Disputes

end Dione.Contracts
