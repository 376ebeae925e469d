/-
  Dione.Contracts.Governance

  The staking contract with a time lock as its owner.

  The comment of `DioneStaking.sol` promises as much: "The ownership of the contract
  would be transfered to 24 hours Timelock".  The time lock's surroundings are now the
  four contracts.  Anybody may call them at any time, also from inside a call that the
  time lock makes; the time lock itself calls them by executing transactions only.
-/

import Dione.Contracts.Effects
import Dione.Contracts.Solvency
import Dione.Contracts.Timelock.Notice

namespace Dione.Contracts

open Guard Dione.Lists

/-- The address a call is sent to. -/
def Deployment.address (D : Deployment) : Call → Address
  | .token _ => D.token
  | .staking _ => D.staking
  | .dispute _ => D.dispute
  | .oracle _ => D.oracle

/-- The contracts and a time lock.  How call data is read is up to the compiler of the
    contracts: `decode` and `dispatch`. -/
structure Governance where
  deployment : Deployment
  evm : Evm
  timelock : Address
  external : deployment.External timelock
  decode : Address → Bytes → Option Call
  decode_address : ∀ {target data c}, decode target data = some c → deployment.address c = target
  dispatch : Bytes → Option Timelock.Call

namespace Governance

variable (G : Governance)

/-- A transaction of somebody other than the time lock. -/
abbrev Other : Type := { tx : Tx G.deployment // tx.msg.sender ≠ G.timelock }

/-- A call of the time lock arrives.  None of the contracts takes ether, or call data it
    does not know; at other addresses there may be code, but what it calls it calls in
    its own name. -/
def receive (msg : Msg) (target : Address) (value : Uint256) (callData : Bytes) (w : World) :
    Except Revert World :=
  let D := G.deployment
  if target ∈ [D.token, D.staking, D.dispute, D.oracle] then
    match G.decode target callData with
    | some c => do
      require (value = 0) (.reason "")
      c.run D G.evm msg w
    | none => .error (.reason "")
  else
    return w

def surroundings : Timelock.Surroundings World G.Other where
  self := G.timelock
  self_ne := G.external.ne_zero
  evm := G.evm
  move w tx := w.step G.deployment G.evm tx.1
  receive := G.receive
  dispatch := G.dispatch

/-- The session after the actions `acts`, from a time lock just deployed. -/
def after (l : Timelock) (w : World) (acts : List (Timelock.Action G.surroundings)) :
    Timelock.Session World :=
  Timelock.Session.after G.surroundings l w acts

/-- In the session `s` the next action is a call of `c` at the staking contract, by an
    execution that was announced a day or more before. -/
structure Ordered (s : Timelock.Session World) (a : Timelock.Action G.surroundings)
    (c : StakingCall) : Prop where
  enters : a = .enter
  onlyOwner : c.onlyOwner = true
  announced : ∃ x outer before e later q, s.executions = x :: outer ∧
    x.tx.target = G.deployment.staking ∧
    G.decode x.tx.target (x.tx.callData G.evm) = some (.staking c) ∧
    s.history = before ++ e :: later ∧ e.msg = x.msg ∧ e.call = .executeTransaction x.tx ∧
    Timelock.Announced before x.tx q ∧
    q.msg.timestamp.toNat + Timelock.minimumDelay.toNat ≤ x.msg.timestamp.toNat

/-- The calls that give the ownership away. -/
def releases : StakingCall → Bool
  | .transferOwnership _ | .renounceOwnership => true
  | _ => false

variable {G} {l : Timelock} {admin : Address} {delay : Uint256} {s : Timelock.Session World}
  {w w' : World}

theorem parameters_move (howner : w.staking.owner = G.timelock) (tx : G.Other) :
    (w.step G.deployment G.evm tx.1).staking.parameters = w.staking.parameters := by
  unfold World.step
  split
  · next w' hrun =>
      rcases (Call.effect hrun).parameters with hsame | ⟨c, -, -, hsender⟩
      · exact hsame
      · exact absurd (hsender.trans howner) tx.2
  · rfl

/-- What the time lock's own call does to the parameters. -/
theorem parameters_receive {msg : Msg} {target : Address} {value : Uint256} {callData : Bytes}
    (h : G.receive msg target value callData w = .ok w') :
    w'.staking.parameters = w.staking.parameters ∨ target = G.deployment.staking ∧
      ∃ c, c.onlyOwner = true ∧ G.decode target callData = some (.staking c) ∧
        (Call.staking c).run G.deployment G.evm msg w = .ok w' := by
  unfold receive at h
  dsimp only at h
  split at h
  · split at h
    · next c hdecode =>
        simp only [bind_eq_ok, require_eq_ok, exists_const] at h
        obtain ⟨-, hrun⟩ := h
        rcases (Call.effect hrun).parameters with hsame | ⟨c', rfl, honly, -⟩
        · exact .inl hsame
        · exact .inr ⟨(G.decode_address hdecode).symm, c', honly, hdecode, hrun⟩
    · cases h
  · obtain rfl := pure_eq_ok_iff.mp h
    exact .inl rfl

/-- Only a call that releases the ownership changes it. -/
theorem owner_run {c : StakingCall} {msg : Msg} (hc : releases c = false)
    (h : (Call.staking c).run G.deployment G.evm msg w = .ok w') :
    w'.staking.owner = w.staking.owner := by
  simp only [Call.run, bind_eq_ok, pure_eq_ok_iff] at h
  obtain ⟨⟨s, t⟩, hrun, rfl⟩ := h
  cases c with
  | transferOwnership newOwner => cases hc
  | renounceOwnership => cases hc
  | setMinerReward | setMinimumStake | setOracleContractAddress | setDisputeContractAddress =>
      simp only [StakingCall.run, bind_eq_ok, pure_eq_ok_iff, Prod.mk.injEq] at hrun
      obtain ⟨s₁, hset, rfl, -⟩ := hrun
      obtain ⟨-, -, rfl⟩ := DioneStaking.setByOwner_eq_ok.mp hset
      rfl
  | mine | mineAndStake | stake | withdraw | slashMiner =>
      rcases StakingCall.parameters_run hrun with hsame | ⟨honly, -⟩
      · exact congrArg DioneStaking.Parameters.owner hsame
      · cases honly

/-- One action while the time lock is the owner: a change of the parameters was ordered, and
    unless it releases the ownership the time lock stays the owner. -/
theorem ordered_of_step (hdeploy : Timelock.deploy admin delay = .ok l)
    (hexplained : s.Explained G.surroundings l)
    (hfree : Timelock.CollisionFree G.evm (Timelock.hashed s.history))
    (howner : s.outside.staking.owner = G.timelock) (a : Timelock.Action G.surroundings) :
    (s.step G.surroundings a).outside.staking.parameters = s.outside.staking.parameters ∨
      ∃ c, G.Ordered s a c ∧ (releases c = false →
        (s.step G.surroundings a).outside.staking.owner = G.timelock) := by
  rcases s.outside_step a with hsame | ⟨m, rfl, hmove⟩ | ⟨rfl, x, outer, hexecutions, hreceive⟩
  · exact .inl (by rw [hsame])
  · rw [hmove]
    exact .inl (parameters_move howner m)
  · rcases parameters_receive hreceive with hsame | ⟨htarget, c, honly, hdecode, hrun⟩
    · exact .inl hsame
    · -- the execution is open, so it is in the history, and what is there was announced
      have hopened : (x.msg, x.tx) ∈ s.opened := by
        simp only [Timelock.Session.opened, hexecutions, List.map_cons, List.mem_cons, true_or]
      obtain ⟨before, e, later, hsplit, hmsg, hcall⟩ := hexplained.opened _ hopened
      have hlawful := hexplained.lawful
      rw [hsplit] at hlawful hfree
      obtain ⟨-, q, hq, hday⟩ :=
        Timelock.announced_of_executed hdeploy hlawful hfree hcall
      rw [hmsg] at hday
      refine .inr ⟨c, ⟨rfl, honly, x, outer, before, e, later, q, hexecutions, htarget, hdecode,
        hsplit, hmsg, hcall, hq, hday⟩, ?_⟩
      intro hreleases
      exact (owner_run hreleases hrun).trans howner

/-- Ownership was given away, by a call that was ordered. -/
def Released (G : Governance) (l : Timelock) (w : World)
    (acts : List (Timelock.Action G.surroundings)) : Prop :=
  ∃ pre a c, pre ++ [a] <+: acts ∧ releases c = true ∧ G.Ordered (G.after l w pre) a c

/-- One action after `pre`, in a run without collisions. -/
theorem ordered_within (hdeploy : Timelock.deploy admin delay = .ok l)
    {pre acts : List (Timelock.Action G.surroundings)} (hpre : pre <+: acts)
    (hfree : Timelock.CollisionFree G.evm (Timelock.hashed (G.after l w acts).history))
    (howner : (G.after l w pre).outside.staking.owner = G.timelock)
    (a : Timelock.Action G.surroundings) :
    (G.after l w (pre ++ [a])).outside.staking.parameters =
        (G.after l w pre).outside.staking.parameters ∨
      ∃ c, G.Ordered (G.after l w pre) a c ∧ (releases c = false →
        (G.after l w (pre ++ [a])).outside.staking.owner = G.timelock) := by
  have hstep : G.after l w (pre ++ [a]) = (G.after l w pre).step G.surroundings a :=
    Run.exec_concat ..
  have hsub := Timelock.hashed_subset (Timelock.Session.history_grows (l := l) (w := w) hpre)
  rw [hstep]
  exact ordered_of_step hdeploy (Timelock.Session.explained_after w pre) (hfree.mono hsub) howner a

theorem owner_or_released (hdeploy : Timelock.deploy admin delay = .ok l)
    {pre acts : List (Timelock.Action G.surroundings)} (hpre : pre <+: acts)
    (hfree : Timelock.CollisionFree G.evm (Timelock.hashed (G.after l w acts).history))
    (howner : w.staking.owner = G.timelock) :
    (G.after l w pre).outside.staking.owner = G.timelock ∨ G.Released l w pre := by
  induction pre using List.reverseRecOn with
  | nil => exact .inl howner
  | append_singleton pre a ih =>
      have hpart : pre <+: acts := (List.prefix_append pre [a]).trans hpre
      rcases ih hpart with howned | ⟨pre', a', c, hearlier, hc, hordered⟩
      · rcases ordered_within hdeploy hpart hfree howned a with hsame | ⟨c, hordered, hstays⟩
        · have hsame := congrArg DioneStaking.Parameters.owner hsame
          exact .inl (hsame.trans howned)
        · cases hc : releases c with
          | false => exact .inl (hstays hc)
          | true => exact .inr ⟨pre, a, c, List.prefix_refl _, hc, hordered⟩
      · exact .inr ⟨pre', a', c, hearlier.trans (List.prefix_append pre [a]), hc, hordered⟩

end Governance

/-- The sample deployment with a time lock at address 5; the byte 1 stands for "set the
    miner reward to 7". -/
def sampleGovernance : Governance where
  deployment := sampleDeployment
  evm := Timelock.sampleSurroundings.evm
  timelock := .ofNat 5
  external := by decide
  decode target data :=
    if target = sampleDeployment.staking ∧ data = [1] then some (.staking (.setMinerReward 7))
    else none
  decode_address := by
    intro target data c h
    split at h
    · next hcall =>
        obtain rfl := Option.some.inj h
        exact hcall.1.symm
    · cases h
  dispatch _ := none

/-- The sample contracts after their deployer made the time lock the owner. -/
def sampleGoverned : World :=
  World.after sampleDeployment sampleEvm sampleConfig
    (sampleDeployment.txs [(.ofNat 10, 1, .staking (.transferOwnership (.ofNat 5)))])

def sampleOrder : Timelock.Transaction := { Timelock.sampleTransaction with target := .ofNat 2 }

def sampleNotice : List (Timelock.Action sampleGovernance.surroundings) :=
  [.call ⟨.ofNat 10, 1, 10⟩ (.queueTransaction sampleOrder) Timelock.sampleAdmin_ne_self
      Timelock.sampleAdmin_ne_zero,
    .call ⟨.ofNat 10, 2, 100000⟩ (.executeTransaction sampleOrder) Timelock.sampleAdmin_ne_self
      Timelock.sampleAdmin_ne_zero,
    .enter]

end Dione.Contracts
