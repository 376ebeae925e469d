/-
  Dione.Contracts.Finishing

  When a dispute can be finished.

  A dispute the votes have decided against is closed without touching the stakes.
  Closing one in favour of its initiator slashes the accused, and
  `slashMiner` has conditions of its own: whoever pays or is paid must still be a
  miner.  Each of them can stop being one, by withdrawing, between the vote and
  the end of the window.
-/

import Dione.Contracts.Voting

namespace Dione.Contracts

open Guard Ledger

/-- The conditions of `slashMiner` on closing `dispute` in favour of its
    initiator. -/
structure Slashable (s : DioneStaking) (dispute : Dispute) : Prop where
  accused_ne_zero : dispute.miner ≠ .zero
  accused_isMiner : s.isMiner dispute.miner = true
  initiator : dispute.disputeInitiator ≠ dispute.miner ∧ s.isMiner dispute.disputeInitiator = true
  voters : ∀ r ∈ dispute.voted, r ≠ dispute.miner ∧ s.isMiner r = true

section Settling

variable {self : Address} {msg : Msg} {dhash : Bytes32} {s : DioneStaking} {d : DioneDispute}

/-- Slashing goes through while the stakes fit and the `uint8` counter of the loop
    is enough for the voters and the initiator. -/
theorem exists_slash_iff (hself : self = s.disputeContractAddr)
    (htotal : total s.minerStake < 2 ^ 256)
    (hinit : (d.disputes dhash).disputeInitiator = msg.sender) :
    (∃ s', s.slashMiner { msg with sender := self } (d.disputes dhash).miner
        ((d.disputes dhash).voted ++ [msg.sender]) = .ok s') ↔
      Slashable s (d.disputes dhash) ∧ (d.disputes dhash).voted.length < 255 := by
  -- the recipients are the voters and, last, the initiator
  rw [DioneStaking.exists_slashMiner_iff htotal]
  constructor
  · rintro ⟨-, hzero, hminer, -, hrecipients, hlength⟩
    rw [List.length_append, List.length_singleton] at hlength
    refine ⟨⟨hzero, hminer, ?_, fun r hr => hrecipients r (List.mem_append_left _ hr)⟩, by omega⟩
    rw [hinit]
    exact hrecipients msg.sender (by simp)
  · rintro ⟨⟨hzero, hminer, hinitiator, hvoters⟩, hvotes⟩
    refine ⟨hself, hzero, hminer, by simp, ?_, ?_⟩
    · intro r hr
      rcases List.mem_append.mp hr with hr | hr
      · exact hvoters r hr
      · rw [List.mem_singleton.mp hr, ← hinit]
        exact hinitiator
    · rw [List.length_append, List.length_singleton]
      omega

theorem exists_settleDispute_iff (hself : self = s.disputeContractAddr)
    (htotal : total s.minerStake < 2 ^ 256)
    (hinit : (d.disputes dhash).disputeInitiator = msg.sender) :
    (∃ d' s' evs, d.settleDispute self msg dhash s = .ok (d', s', evs)) ↔
      ((d.disputes dhash).sum.toInt ≤ 0 ∨
        Slashable s (d.disputes dhash) ∧ (d.disputes dhash).voted.length < 255) := by
  simp only [DioneDispute.settleDispute_eq_ok]
  -- only a positive sum gets to `slashMiner`
  by_cases hsum : (d.disputes dhash).sum.toInt ≤ 0
  · simp [hsum]
  · rw [← exists_slash_iff hself htotal hinit]
    simp [hsum]

end Settling

/-- `finishDispute` by the initiator, in any state the contracts can get into with
    the dispute contract registered: it succeeds iff the dispute exists, is not finished
    and its window has passed, and the votes are against it or whoever is to be slashed
    or paid is still a miner and the voters are fewer than 255. -/
theorem finishDispute_succeeds_iff {D : Deployment} {evm : Evm} {c : Config} {w : World}
    (hw : w.Reachable D evm c) (hself : w.staking.disputeContractAddr = D.dispute)
    {dhash : Bytes32} {msg : Msg}
    (hinit : (w.dispute.disputes dhash).disputeInitiator = msg.sender) :
    (∃ w', (Call.dispute (.finishDispute dhash)).run D evm msg w = .ok w') ↔
      (w.dispute.disputes dhash).disputeInitiator ≠ .zero ∧
      (w.dispute.disputes dhash).finished = false ∧
      (w.dispute.disputes dhash).timestamp.toNat + w.dispute.voteWindowTime.toNat
        ≤ msg.timestamp.toNat ∧
      ((w.dispute.disputes dhash).sum.toInt ≤ 0 ∨
        Slashable w.staking (w.dispute.disputes dhash) ∧
          (w.dispute.disputes dhash).voted.length < 255) := by
  -- The stakes add up to `_totalStake`, so no addition in the loop can overflow.
  have htotal : total w.staking.minerStake < 2 ^ 256 := by
    rw [hw.solvent.stakes]
    exact w.staking.totalStake.isLt
  rw [← exists_settleDispute_iff hself.symm htotal hinit]
  constructor
  · rintro ⟨w', hrun⟩
    obtain ⟨evs, hfinish⟩ := finishDispute_run hrun
    obtain ⟨hfinishable, hsettle⟩ := DioneDispute.finishDispute_eq_ok.mp hfinish
    exact ⟨hfinishable.existing, hfinishable.unfinished, hfinishable.window, _, _, _, hsettle⟩
  · rintro ⟨hexisting, hunfinished, hwindow, d', s', evs, hsettle⟩
    have hfinish := DioneDispute.finishDispute_eq_ok.mpr
      ⟨⟨hexisting, hwindow, hunfinished, hinit⟩, hsettle⟩
    refine ⟨{ w with dispute := d', staking := s', events := w.events ++ evs }, ?_⟩
    simp only [Call.run, DisputeCall.run, hfinish, ok_bind]
    rfl

/-- `disputeOpened`, and a vote for the dispute. -/
def disputeVoted : List (Tx sampleDeployment) :=
  sampleDeployment.txs (disputeOpened ++ [(.ofNat 13, 3, .dispute (.vote openedHash true))])

theorem finishDispute_succeeds_sample :
    ∃ w', (Call.dispute (.finishDispute openedHash)).run sampleDeployment sampleEvm
      ⟨.ofNat 11, 30, 30⟩ (.after sampleDeployment sampleEvm sampleConfig disputeVoted)
        = .ok w' := by
  have hvoted : ((World.after sampleDeployment sampleEvm sampleConfig
      disputeVoted).dispute.disputes openedHash).voted = [.ofNat 13] := by decide +kernel
  have hslashable : Slashable (World.after sampleDeployment sampleEvm sampleConfig
      disputeVoted).staking ((World.after sampleDeployment sampleEvm sampleConfig
      disputeVoted).dispute.disputes openedHash) := by
    refine ⟨by decide +kernel, by decide +kernel, by decide +kernel, ?_⟩
    rw [hvoted, List.forall_mem_singleton]
    decide +kernel
  refine (finishDispute_succeeds_iff ⟨disputeVoted, rfl⟩ (by decide +kernel)
    (by decide +kernel)).mpr ⟨by decide +kernel, by decide +kernel, by decide +kernel,
      .inr ⟨hslashable, ?_⟩⟩
  rw [hvoted]
  decide

/-- How a call reverts, if it does. -/
def revertOf {α : Type} : Except Revert α → Option Revert
  | .ok _ => none
  | .error e => some e

/-- The accused, a miner when the dispute was begun and voted on, withdraws: the
    dispute stays open, its window has passed, and the initiator cannot finish it. -/
theorem finishDispute_blocked_by_withdrawal :
    let w := World.after sampleDeployment sampleEvm sampleConfig (disputeVoted ++
      sampleDeployment.txs [(.ofNat 12, 4, .staking (.withdraw 100))])
    (World.after sampleDeployment sampleEvm sampleConfig disputeVoted).staking.isMiner
        (w.dispute.disputes openedHash).miner = true ∧
      w.staking.disputeContractAddr = sampleDeployment.dispute ∧
      (w.dispute.disputes openedHash).disputeInitiator = .ofNat 11 ∧
      (w.dispute.disputes openedHash).finished = false ∧
      (w.dispute.disputes openedHash).timestamp.toNat + w.dispute.voteWindowTime.toNat ≤ 30 ∧
      revertOf ((Call.dispute (.finishDispute openedHash)).run sampleDeployment sampleEvm
        ⟨.ofNat 11, 30, 30⟩ w) = some (.reason "slashing address isn't dione miner") := by
  decide +kernel

end Dione.Contracts
