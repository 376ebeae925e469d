/-
  Dione.Node.Divisions

  What the election divides by: the total stake in `lambda`, the denominator of `expneg`,
  and the counter of the loop.

  The stakes are those that the staking contract reports.  In every state it can get into
  a miner's stake is part of the total, so a proposer that `ValidateBlock` has found
  eligible leaves no zero divisor.  `MineBlock` does not ask whether the miner is eligible,
  and when nobody has staked it divides by zero.
-/

import Dione.Contracts.Solvency
import Dione.Election.Sequence
import Dione.Node.Crash

namespace Dione

open Guard Contracts BlockChain

/-! ## The divisors of a call -/

namespace ElectionProof

/-- The divisors of the calls of `next`. -/
def loopDivisors (lhs : Int) : Nat → Poiss → List Int
  | 0, _ => []
  | left + 1, p =>
    if lhs < p.icdf then
      ((p.k + 1).toNat : Int) :: match p.next with
        | .error _ => []
        | .ok p' => loopDivisors lhs left p'
    else []

/-- The numbers `ComputeWinCount` divides by, in this order; it panics at the first
    that is zero. -/
def divisors (sum256 : Bytes → Bytes) (ep : ElectionProof) (power totalPower : Int) : List Int :=
  totalPower :: match lambda power totalPower with
    | .error _ => []
    | .ok lam => polyval expDenoCoef lam :: match newPoiss lam with
      | .error _ => []
      | .ok p => loopDivisors (setBytes (sum256 ep.vrfProof)) maxWinCount p

section Divisors

variable {sum256 : Bytes → Bytes} {ep : ElectionProof} {power totalPower : Int}

theorem bigDiv_eq_divisionByZero {x y : Int} : bigDiv x y = .error .divisionByZero ↔ y = 0 := by
  unfold bigDiv
  split
  · next h => simp [h]
  · next h => simp [h]

theorem next_eq_divisionByZero {p : Poiss} :
    p.next = .error .divisionByZero ↔ ((p.k + 1).toNat : Int) = 0 := by
  rw [Poiss.next, bind_eq_error, bigDiv_eq_divisionByZero]
  simp [pure, Except.pure]

theorem winLoop_eq_divisionByZero {lhs : Int} {left : Nat} {p : Poiss} {j : Int64} :
    winLoop lhs left p j = .error .divisionByZero ↔ 0 ∈ loopDivisors lhs left p := by
  induction left generalizing p j with
  | zero => simp [winLoop, loopDivisors]
  | succ left ih =>
      rw [winLoop, loopDivisors]
      split
      · rw [bind_eq_error, next_eq_divisionByZero, List.mem_cons, eq_comm (a := (0 : Int))]
        cases p.next with
        | error e => simp
        | ok p' => simp [ih]
      · simp

theorem newPoiss_eq_divisionByZero {lam : Int} :
    newPoiss lam = .error .divisionByZero ↔ polyval expDenoCoef lam = 0 := by
  rw [newPoiss, bind_eq_error, expneg, bigDiv_eq_divisionByZero]
  simp [pure, Except.pure]

/-- A call panics iff one of its divisors is zero. -/
theorem computeWinCount_eq_divisionByZero :
    ep.computeWinCount sum256 power totalPower = .error .divisionByZero ↔
      0 ∈ ep.divisors sum256 power totalPower := by
  rw [computeWinCount, bind_eq_error, divisors, List.mem_cons, lambda, bigDiv_eq_divisionByZero,
    eq_comm (a := (0 : Int))]
  refine or_congr_right ?_
  cases bigDiv (power * expectedLeadersPerEpoch * 2 ^ precision) totalPower with
  | error e => simp
  | ok lam =>
      simp only [Except.ok.injEq, exists_eq_left', bind_eq_error, newPoiss_eq_divisionByZero,
        List.mem_cons]
      rw [eq_comm (a := (0 : Int))]
      refine or_congr_right ?_
      cases newPoiss lam with
      | error e => simp
      | ok p => simp [winLoop_eq_divisionByZero]

end Divisors

section Positive

variable {lam : Int} {s : ℕ → Poiss}

theorem Produced.pos_of_mem_loopDivisors (h : Produced lam s) (hlam : 0 ≤ lam)
    (hlam2 : lam ≤ 2 * 2 ^ precision) (lhs : Int) {left k : ℕ} (hk : k + left < 2 ^ 64) :
    ∀ d ∈ loopDivisors lhs left (s k), 0 < d := by
  induction left generalizing k with
  | zero => simp [loopDivisors]
  | succ left ih =>
      rw [loopDivisors, h.next k (by omega)]
      split
      · have hcounter : ((s k).k + 1).toNat = k + 1 := by
          rw [UInt64.toNat_add, (h.sound hlam hlam2 (by omega : k < 2 ^ 64)).k]
          exact Nat.mod_eq_of_lt (show k + 1 < 2 ^ 64 by omega)
        refine List.forall_mem_cons.mpr ⟨?_, ih (by omega)⟩
        rw [hcounter]
        exact Int.natCast_pos.mpr (Nat.succ_pos k)
      · simp

/-- With a stake that is part of a positive total all divisors are positive. -/
theorem pos_of_mem_divisors (sum256 : Bytes → Bytes) (ep : ElectionProof) {power totalPower : Int}
    (hpower : 0 ≤ power) (hle : power ≤ totalPower) (htotal : 0 < totalPower) :
    ∀ d ∈ ep.divisors sum256 power totalPower, 0 < d := by
  obtain ⟨lam, hlambda, hlam, hlam2⟩ := exists_lambda hpower hle htotal
  obtain ⟨s, hs⟩ := exists_produced hlam hlam2
  rw [divisors, hlambda]
  refine List.forall_mem_cons.mpr ⟨htotal, ?_⟩
  dsimp only
  rw [hs.first]
  refine List.forall_mem_cons.mpr ⟨polyval_expDenoCoef_pos hlam, ?_⟩
  exact hs.pos_of_mem_loopDivisors hlam hlam2 _ (by decide)

end Positive

end ElectionProof

/-! ## The two callers -/

/-- `ValidateBlock` of a block comes to `ComputeWinCount`, with this election proof and
    these stakes. -/
structure ValidateBlockCalls {σ : Type} (db : Database σ) (o : Oracles) (s : σ) (block : Block)
    (ep : ElectionProof) (stakes : Int × Int) : Prop where
  reached : ∃ header proposer, block.header = some header ∧ header.proposer = some proposer ∧
    Linked db o s header proposer ∧ header.electionProof = some ep ∧ 1 ≤ ep.winCount ∧
    isMinerEligibleToProposeBlock o header.proposerEth = .ok () ∧
    (∃ buf res, o.marshalBinary proposer = .ok buf ∧ o.entry ep.randomnessRound = .ok res ∧
      verifyVRF o proposer (drawRandomness o.sum256 res.data randomnessTypeElectionProofProduction
        header.height buf) ep.vrfProof = .ok ()) ∧
    getStakeInfo o header.proposerEth = .ok stakes

/-- `MineBlock` comes to `ComputeWinCount` through `isRoundWinner`. -/
structure MineBlockCalls (o : Oracles) (signer : Signer) (latestBlockHeader : Option BlockHeader)
    (randomness : Bytes) (randomnessRound : UInt64) (ep : ElectionProof) (stakes : Int × Int) :
    Prop where
  reached : ∃ last buf vrfout, latestBlockHeader = some last ∧
    getStakeInfo o signer.ethAddress = .ok stakes ∧ o.marshalBinary signer.peerID = .ok buf ∧
    signer.sign (drawRandomness o.sum256 randomness randomnessTypeElectionProofProduction
      (last.height + 1) buf) = .ok vrfout ∧
    ep = ⟨0, vrfout, randomnessRound⟩

section Callers

variable {o : Oracles}

/-- A call in `ValidateBlock` is the only way in which it divides by zero. -/
theorem validateBlock_eq_divisionByZero {σ : Type} {db : Database σ} {s : σ} {block : Block}
    (ho : o.Total) (hdb : db.Readable s) :
    validateBlock db o block s = .error .divisionByZero ↔
      ∃ ep stakes, ValidateBlockCalls db o s block ep stakes ∧
        0 ∈ ep.divisors o.sum256 stakes.1 stakes.2 := by
  have hextract := fun p => (ho.extractPublicKey p).ne_divisionByZero
  have hverify := fun k d sig => (ho.verify k d sig).ne_divisionByZero
  have hmarshal := fun p => (ho.marshalBinary p).ne_divisionByZero
  have hproofs := fun d salt p r => (ho.verifyProofUsing d salt p r).ne_divisionByZero
  have hentry := fun r => (ho.entry r).ne_divisionByZero
  have hstakes := fun m => (ho.getStakeInfo m).ne_divisionByZero
  have heligible := fun m => (ho.isMinerEligibleToProposeBlock m).ne_divisionByZero
  have hvrf := fun w b p => (ho.verifyVRF w b p).ne_divisionByZero
  have hlatest := hdb.latest.ne_divisionByZero
  have hheader := fun h => (hdb.header h).ne_divisionByZero
  have htxs : ∀ header vs, validateTransactions o header vs ≠ .error .divisionByZero :=
    fun header vs h => by cases ho.eq_nilDeref_of_validateTransactions h rfl
  simp only [validateBlock, bind_eq_error, deref_eq_ok, deref_eq_error, wrapErr_eq_ok,
    wrapErr_eq_divisionByZero, require_eq_ok, require_eq_error, hextract, hverify, hmarshal,
    hproofs, hentry, hstakes, heligible, hvrf, hlatest, hheader, htxs,
    ElectionProof.computeWinCount_eq_divisionByZero, reduceCtorEq, and_false, false_or, or_false,
    exists_false]
  constructor
  · rintro ⟨header, hheader, proposer, hproposer, pubkey, hpubkey, _, hsigned, -, rfl, latest,
      hlatest, _, hfetch, head, rfl, -, hlast, proof, hproof, _, hverified, -, rfl, ep, hep, -,
      hpositive, _, heligible, buf, hbuf, res, hres, _, hvrf, stakes, hstakes, hzero⟩
    exact ⟨ep, stakes, ⟨header, proposer, hheader, hproposer, ⟨⟨pubkey, hpubkey, hsigned⟩, latest,
      head, proof, hlatest, hfetch, hlast, hproof, hverified⟩, hep, hpositive, heligible,
      ⟨buf, res, hbuf, hres, hvrf⟩, hstakes⟩, hzero⟩
  · rintro ⟨ep, stakes, ⟨header, proposer, hheader, hproposer, ⟨⟨pubkey, hpubkey, hsigned⟩, latest,
      head, proof, hlatest, hfetch, hlast, hproof, hverified⟩, hep, hpositive, heligible,
      ⟨buf, res, hbuf, hres, hvrf⟩, hstakes⟩, hzero⟩
    exact ⟨header, hheader, proposer, hproposer, pubkey, hpubkey, true, hsigned, (), rfl, latest,
      hlatest, some head, hfetch, head, rfl, (), hlast, proof, hproof, true, hverified, (), rfl, ep,
      hep, (), hpositive, (), heligible, buf, hbuf, res, hres, (), hvrf, stakes, hstakes, hzero⟩

theorem calm_generateProof (o : Oracles) (data : List Bytes) (item : Bytes) :
    Calm (generateProof o data item) := by
  unfold generateProof
  split
  · exact .error rfl
  · exact .ok _

theorem calm_proveTxs (o : Oracles) (data : List Bytes) (txs : List Transaction) :
    Calm (proveTxs o data txs) := by
  induction txs with
  | nil => exact .ok _
  | cons tx txs ih =>
      exact (calm_generateProof o data tx.hash).bind fun _ _ => ih.bind fun _ _ => .ok _

theorem calm_createBlock {signer : Signer} (hsign : ∀ data, Calm (signer.sign data))
    (timestamp : Int64) (last : BlockHeader) (txs : List Transaction) (eproof : ElectionProof) :
    Calm (createBlock o signer timestamp last txs eproof) :=
  (hsign _).bind fun _ _ => (calm_generateProof o _ _).bind fun _ _ =>
    (calm_proveTxs o _ txs).bind fun _ _ => .ok _

theorem isRoundWinner_eq_divisionByZero {signer : Signer} {round randomnessRound : UInt64}
    {randomness : Bytes} {minerStake networkStake : Int} (ho : o.Total)
    (hsign : ∀ data, Calm (signer.sign data)) :
    isRoundWinner o signer round randomness randomnessRound minerStake networkStake
        = .error .divisionByZero ↔
      ∃ buf vrfout, o.marshalBinary signer.peerID = .ok buf ∧
        signer.sign (drawRandomness o.sum256 randomness randomnessTypeElectionProofProduction
          round buf) = .ok vrfout ∧
        0 ∈ (ElectionProof.mk 0 vrfout randomnessRound).divisors o.sum256 minerStake
          networkStake := by
  have hmarshal := fun p => (ho.marshalBinary p).ne_divisionByZero
  have hsigned := fun data => (hsign data).ne_divisionByZero
  simp [isRoundWinner, bind_eq_error, wrapErr_eq_divisionByZero, hmarshal, hsigned,
    ElectionProof.computeWinCount_eq_divisionByZero, pure, Except.pure]

/-- The same of `MineBlock`. -/
theorem mineBlock_eq_divisionByZero {signer : Signer} {timestamp : Int64}
    {latest : Option BlockHeader} {txs : List Transaction} {randomness : Bytes}
    {randomnessRound : UInt64} (ho : o.Total) (hsign : ∀ data, Calm (signer.sign data)) :
    mineBlock o signer timestamp latest txs randomness randomnessRound = .error .divisionByZero ↔
      ∃ ep stakes, MineBlockCalls o signer latest randomness randomnessRound ep stakes ∧
        0 ∈ ep.divisors o.sum256 stakes.1 stakes.2 := by
  cases latest with
  | none =>
      refine iff_of_false (fun h => by cases h) ?_
      rintro ⟨ep, stakes, ⟨_, _, _, hnone, -⟩, -⟩
      cases hnone
  | some last =>
      constructor
      · intro h
        rcases bind_eq_error.mp h with herr | ⟨stakes, hstakes, h⟩
        · exact absurd (wrapErr_eq_divisionByZero.mp herr) (ho.getStakeInfo _).ne_divisionByZero
        rcases bind_eq_error.mp h with herr | ⟨winner, -, h⟩
        · obtain ⟨buf, vrfout, hbuf, hvrfout, hzero⟩ :=
            (isRoundWinner_eq_divisionByZero ho hsign).mp (wrapErr_eq_divisionByZero.mp herr)
          exact ⟨_, stakes, ⟨last, buf, vrfout, rfl, wrapErr_eq_ok.mp hstakes, hbuf, hvrfout, rfl⟩,
            hzero⟩
        -- a block is made, or there is none
        cases winner with
        | none => cases h
        | some eproof =>
            have hcalm : Calm (createBlock o signer timestamp last txs eproof) :=
              calm_createBlock hsign timestamp last txs eproof
            exact absurd h ((Calm.require.bind fun _ _ => (hcalm.wrapErr _).bind
              fun newBlock _ => .ok (some newBlock)).ne_divisionByZero)
      · rintro ⟨ep, stakes, ⟨_, buf, vrfout, ⟨⟩, hstakes, hbuf, hvrfout, rfl⟩, hzero⟩
        refine bind_eq_error.mpr (.inr ⟨stakes, wrapErr_eq_ok.mpr hstakes, ?_⟩)
        refine bind_eq_error.mpr (.inl (wrapErr_eq_divisionByZero.mpr ?_))
        exact (isRoundWinner_eq_divisionByZero ho hsign).mpr ⟨buf, vrfout, hbuf, hvrfout, hzero⟩

end Callers

/-! ## Stakes the contract reports -/

/-- `GetMinerStake` and `GetTotalStake` of the Ethereum side answer from this state. -/
structure Oracles.Reports (o : Oracles) (staking : DioneStaking) : Prop where
  minerStake : ∀ a, o.getMinerStake a = .ok ((staking.minerStake a).toNat : Int)
  totalStake : o.getTotalStake = .ok (staking.totalStake.toNat : Int)

section Reports

variable {o : Oracles} {staking : DioneStaking}

theorem Oracles.Reports.getStakeInfo_eq (ho : o.Reports staking) (a : Address) :
    getStakeInfo o a
      = .ok ((staking.minerStake a).toNat, (staking.totalStake.toNat : Int)) := by
  rw [getStakeInfo, ho.minerStake, ho.totalStake]
  rfl

theorem Oracles.Reports.stake_pos (ho : o.Reports staking) {a : Address}
    (h : isMinerEligibleToProposeBlock o a = .ok ()) : 0 < (staking.minerStake a).toNat := by
  rw [isMinerEligibleToProposeBlock, ho.minerStake, ok_bind, require_eq_ok] at h
  have hmin : minMinerStake = 1000 := rfl
  omega

end Reports

/-- With the stakes that a state the contracts can get into reports, `ValidateBlock`
    divides by positive numbers only, and `MineBlock` does iff somebody has staked. -/
theorem election_divisors_positive_iff {D : Deployment} {evm : Evm} {c : Config} {w : World}
    (hw : w.Reachable D evm c) {o : Oracles} (ho : o.Reports w.staking) :
    (∀ {σ : Type} (db : Database σ) (s : σ) (block : Block) (ep : ElectionProof)
      (stakes : Int × Int), ValidateBlockCalls db o s block ep stakes →
        ∀ d ∈ ep.divisors o.sum256 stakes.1 stakes.2, 0 < d) ∧
    ∀ (signer : Signer) (latest : Option BlockHeader) (randomness : Bytes)
      (randomnessRound : UInt64) (ep : ElectionProof) (stakes : Int × Int),
      MineBlockCalls o signer latest randomness randomnessRound ep stakes →
        ((∀ d ∈ ep.divisors o.sum256 stakes.1 stakes.2, 0 < d) ↔ w.staking.totalStake ≠ 0) := by
  have hpart : ∀ a, (w.staking.minerStake a).toNat ≤ w.staking.totalStake.toNat := by
    intro a
    rw [← hw.solvent.stakes]
    exact Ledger.le_total w.staking.minerStake a
  have hpositive : ∀ (ep : ElectionProof) (a : Address), 0 < w.staking.totalStake.toNat →
      ∀ d ∈ ep.divisors o.sum256 (w.staking.minerStake a).toNat w.staking.totalStake.toNat,
        0 < d := by
    intro ep a htotal
    exact ep.pos_of_mem_divisors o.sum256 (Int.natCast_nonneg _) (Int.ofNat_le.mpr (hpart a))
      (Int.natCast_pos.mpr htotal)
  constructor
  · rintro σ db s block ep stakes ⟨header, proposer, -, -, -, -, -, heligible, -, hstakes⟩
    rw [ho.getStakeInfo_eq] at hstakes
    obtain rfl := Except.ok.inj hstakes
    have hpos := ho.stake_pos heligible
    exact hpositive ep header.proposerEth (hpos.trans_le (hpart header.proposerEth))
  · rintro signer latest randomness randomnessRound ep stakes ⟨last, buf, vrfout, -, hstakes, -⟩
    rw [ho.getStakeInfo_eq] at hstakes
    obtain rfl := Except.ok.inj hstakes
    have hzero : w.staking.totalStake ≠ 0 ↔ 0 < w.staking.totalStake.toNat := by
      rw [Nat.pos_iff_ne_zero, ne_eq, ne_eq, ← BitVec.toNat_inj]
      rfl
    rw [hzero]
    constructor
    · intro h
      exact Int.natCast_pos.mp (h _ (List.mem_cons_self ..))
    · exact hpositive ep signer.ethAddress

/-- A node whose Ethereum side answers from `staking`. -/
def Oracles.reporting (staking : DioneStaking) : Oracles :=
  { Oracles.offline with
    marshalBinary := fun peer => .ok peer
    getMinerStake := fun a => .ok ((staking.minerStake a).toNat : Int)
    getTotalStake := .ok (staking.totalStake.toNat : Int) }

theorem Oracles.reports_reporting (staking : DioneStaking) : (reporting staking).Reports staking :=
  ⟨fun _ => rfl, rfl⟩

/-- The contracts with one account that has staked 100. -/
def oneStaked : World :=
  .after sampleDeployment sampleEvm sampleConfig (sampleDeployment.txs (joins (.ofNat 11) 100))

/-- Signs with the peer ID, for that account. -/
def stakedSigner : Signer := ⟨[1], fun _ => .ok [1], .ofNat 11⟩

theorem election_divisors_positive_oneStaked :
    oneStaked.staking.totalStake ≠ 0 ∧
      ∀ d ∈ (ElectionProof.mk 0 [1] 1).divisors id 100 100, 0 < d := by
  have hstaked : oneStaked.staking.totalStake ≠ 0 := by decide +kernel
  have hstakes : getStakeInfo (.reporting oneStaked.staking) stakedSigner.ethAddress
      = .ok (100, 100) := by decide +kernel
  refine ⟨hstaked, ?_⟩
  exact ((election_divisors_positive_iff ⟨_, rfl⟩ (Oracles.reports_reporting oneStaked.staking)).2
    stakedSigner (some genesisHeader) [] 1 _ (100, 100)
    ⟨genesisHeader, [1], [1], rfl, hstakes, rfl, rfl, rfl⟩).mpr hstaked

/-- In the state the contracts are deployed in nobody has staked, and whoever mines there
    divides by zero. -/
theorem mineBlock_nobodyStaked_divisionByZero :
    (World.deployed sampleConfig).Reachable sampleDeployment sampleEvm sampleConfig ∧
      (Oracles.reporting (World.deployed sampleConfig).staking).Reports
        (World.deployed sampleConfig).staking ∧
      mineBlock (.reporting (World.deployed sampleConfig).staking) stakedSigner 0
        (some genesisHeader) [] [] 1 = .error .divisionByZero :=
  ⟨⟨[], rfl⟩, Oracles.reports_reporting _, by decide +kernel⟩

end Dione
