/-
  Dione.Consensus.Selection

  Which of the committed blocks `commitAcceptedBlocks` selects
  (`consensus/consensus_handler.go`).

  The rounds come in the order of a Go map, which is any order, and are sorted by
  stake and then by timestamp.  Nothing decides between blocks that agree in both:
  which of them comes first depends on the order they came in.
-/

import Dione.Blockchain.Integrity
import Dione.Consensus.Handler
import Mathlib.Data.Prod.Lex
import Mathlib.Order.Lattice

namespace Dione.Consensus

open Guard

/-- A round with everything `commitAcceptedBlocks` reads of it. -/
structure CommittedRound where
  info : ConsensusInfo
  block : Block
  header : BlockHeader
  block_eq : info.block = some block
  header_eq : block.header = some header
  electionProof_ne : header.electionProof ≠ none
  proposer_ne : header.proposer ≠ none

/-- The key blocks are sorted by, larger ones first. -/
def BlockHeader.rank (stake : Address → Int) (hd : BlockHeader) : Int ×ₗ Int :=
  toLex (stake hd.proposerEth, hd.timestamp.toInt)

/-- No committed block has a proposer with more stake, and none with as much has a
    later timestamp. -/
def Maximal (stake : Address → Int) (rs : List CommittedRound) (hd : BlockHeader) : Prop :=
  ∀ r ∈ rs, stake r.header.proposerEth < stake hd.proposerEth ∨
    stake r.header.proposerEth = stake hd.proposerEth ∧ r.header.timestamp ≤ hd.timestamp

section Ranking

variable {o : Oracles} {stake : Address → Int} (hstake : ∀ a, o.getMinerStake a = .ok (stake a))

theorem rank_le_iff {a b : BlockHeader} :
    BlockHeader.rank stake a ≤ BlockHeader.rank stake b ↔
      stake a.proposerEth < stake b.proposerEth ∨
        stake a.proposerEth = stake b.proposerEth ∧ a.timestamp ≤ b.timestamp := by
  rw [BlockHeader.rank, BlockHeader.rank, Prod.Lex.toLex_le_toLex, Int64.le_iff_toInt_le]

theorem maximal_iff {rs : List CommittedRound} {hd : BlockHeader} :
    Maximal stake rs hd ↔
      ∀ r ∈ rs, BlockHeader.rank stake r.header ≤ BlockHeader.rank stake hd := by
  simp only [Maximal, rank_le_iff]

include hstake in
theorem ranksBefore_eq_false_iff {a b : BlockHeader} :
    ranksBefore o.getMinerStake a b = false ↔
      BlockHeader.rank stake a ≤ BlockHeader.rank stake b := by
  rw [rank_le_iff, ranksBefore, hstake, hstake]
  dsimp only
  split
  · next hlt => simp [hlt]
  · split
    · next hge hlt => simp; omega
    · next hge hle =>
        have heq : stake a.proposerEth = stake b.proposerEth := by omega
        simp [heq, Int64.not_lt]

/-- The rounds in the order of their ranks. -/
def sortRounds (stake : Address → Int) (rs : List CommittedRound) : List CommittedRound :=
  rs.insertionSort fun a b => BlockHeader.rank stake b.header ≤ BlockHeader.rank stake a.header

theorem mem_sortRounds (stake : Address → Int) {rs : List CommittedRound} {r : CommittedRound} :
    r ∈ sortRounds stake rs ↔ r ∈ rs :=
  List.mem_insertionSort _

/-- The first of the sorted rounds has a maximal block. -/
theorem maximal_of_head {rs rest : List CommittedRound} {r : CommittedRound}
    (h : sortRounds stake rs = r :: rest) : r ∈ rs ∧ Maximal stake rs r.header := by
  have hsorted : (sortRounds stake rs).Pairwise fun a b =>
      BlockHeader.rank stake b.header ≤ BlockHeader.rank stake a.header := by
    have : Std.Total fun a b : CommittedRound =>
        BlockHeader.rank stake b.header ≤ BlockHeader.rank stake a.header :=
      ⟨fun a b => le_total _ _⟩
    have : IsTrans CommittedRound fun a b =>
        BlockHeader.rank stake b.header ≤ BlockHeader.rank stake a.header :=
      ⟨fun a b c hab hbc => hbc.trans hab⟩
    exact List.pairwise_insertionSort _ rs
  have hmem : ∀ r', r' ∈ rs ↔ r' ∈ r :: rest := by
    intro r'
    rw [← h, mem_sortRounds]
  rw [h, List.pairwise_cons] at hsorted
  refine ⟨(hmem r).mpr (List.mem_cons_self ..), maximal_iff.mpr ?_⟩
  intro r' hr'
  rcases List.mem_cons.mp ((hmem r').mp hr') with rfl | hrest
  · exact le_refl _
  · exact hsorted.1 r' hrest

/-- A round with a maximal block that comes first stays first. -/
theorem sortRounds_cons {rs : List CommittedRound} {r : CommittedRound}
    (h : Maximal stake rs r.header) : sortRounds stake (r :: rs) = r :: sortRounds stake rs :=
  List.insertionSort_cons_of_forall_rel _ fun r' hr' => maximal_iff.mp h r' hr'

/-! ## The code sorts by rank -/

theorem candidates_map (rs : List CommittedRound) :
    candidates (rs.map CommittedRound.info) = .ok (rs.map fun r => (r.block, r.header)) := by
  induction rs with
  | nil => rfl
  | cons r rs ih =>
      rw [List.map_cons, candidates, r.block_eq, deref, ok_bind, r.header_eq, deref, ok_bind, ih]
      rfl

include hstake in
theorem sortCandidates_map (rs : List CommittedRound) :
    sortCandidates o.getMinerStake (rs.map fun r => (r.block, r.header))
      = (sortRounds stake rs).map fun r => (r.block, r.header) := by
  refine (List.map_insertionSort _ _ _ rs ?_).symm
  intro a _ b _
  exact (ranksBefore_eq_false_iff hstake).symm

include hstake in
/-- The block selected is the one of the first of the sorted rounds. -/
theorem selectBlock_map (rs : List CommittedRound) :
    selectBlock o (rs.map CommittedRound.info)
      = match sortRounds stake rs with
        | [] => .error .noAcceptedBlocks
        | r :: _ => .ok r.block := by
  rw [selectBlock, candidates_map, ok_bind, sortCandidates_map hstake]
  cases sortRounds stake rs with
  | nil => rfl
  | cons r rest =>
      obtain ⟨proof, hproof⟩ := Option.ne_none_iff_exists'.mp r.electionProof_ne
      obtain ⟨proposer, hproposer⟩ := Option.ne_none_iff_exists'.mp r.proposer_ne
      simp only [List.map_cons, hstake, ok_bind, hproof, hproposer, deref]
      rfl

include hstake in
theorem selectBlock_cons {rs : List CommittedRound} {r : CommittedRound}
    (h : Maximal stake rs r.header) :
    selectBlock o ((r :: rs).map CommittedRound.info) = .ok r.block := by
  rw [selectBlock_map hstake, sortRounds_cons h]

include hstake in
/-- A maximal round is selected when it is listed first. -/
theorem selectBlock_of_first {rs : List CommittedRound} {r : CommittedRound} (hr : r ∈ rs)
    (hmax : Maximal stake rs r.header) :
    ∃ rs' : List CommittedRound, rs'.Perm rs ∧
      selectBlock o (rs'.map CommittedRound.info) = .ok r.block := by
  obtain ⟨before, after, rfl⟩ := List.append_of_mem hr
  have hperm : (r :: (before ++ after)).Perm (before ++ r :: after) := List.perm_middle.symm
  refine ⟨r :: (before ++ after), hperm, selectBlock_cons hstake ?_⟩
  intro x hx
  exact hmax x (hperm.mem_iff.mp (List.mem_cons_of_mem _ hx))

include hstake in
/-- Whatever the order of the rounds, a maximal one is selected. -/
theorem exists_selectBlock {rs : List CommittedRound} (hne : rs ≠ []) :
    ∃ r ∈ rs, Maximal stake rs r.header ∧
      selectBlock o (rs.map CommittedRound.info) = .ok r.block := by
  cases hsort : sortRounds stake rs with
  | nil =>
      obtain ⟨r, hr⟩ := List.exists_mem_of_ne_nil rs hne
      rw [← mem_sortRounds stake, hsort] at hr
      cases hr
  | cons top rest =>
      obtain ⟨htop, hmax⟩ := maximal_of_head hsort
      refine ⟨top, htop, hmax, ?_⟩
      rw [selectBlock_map hstake, hsort]

end Ranking

theorem Maximal.perm {stake : Address → Int} {rs rs' : List CommittedRound} {hd : BlockHeader}
    (h : Maximal stake rs hd) (hperm : rs'.Perm rs) : Maximal stake rs' hd :=
  fun r hr => h r (hperm.mem_iff.mp hr)

theorem CommittedRound.header_eq_of_block {r r' : CommittedRound} (h : r.block = r'.block) :
    r.header = r'.header := by
  have hheader := r.header_eq
  rw [h, r'.header_eq] at hheader
  exact (Option.some.inj hheader).symm

/-- The block selected does not depend on the order of the rounds, and is maximal in
    stake and then in timestamp, iff no two blocks share both maxima. -/
theorem selectBlock_order_independent_iff {o : Oracles} {stake : Address → Int}
    (hstake : ∀ a, o.getMinerStake a = .ok (stake a)) {rs : List CommittedRound}
    (hdistinct : (rs.map fun r => r.header.hash).Nodup) :
    (rs ≠ [] → ∃ r ∈ rs, Maximal stake rs r.header ∧
        ∀ rs' : List CommittedRound, rs'.Perm rs →
          selectBlock o (rs'.map CommittedRound.info) = .ok r.block) ↔
      ∀ r ∈ rs, ∀ r' ∈ rs, Maximal stake rs r.header → Maximal stake rs r'.header →
        r.header.hash = r'.header.hash := by
  constructor
  · intro hselect r hr r' hr' hmax hmax'
    obtain ⟨top, -, -, hall⟩ := hselect (List.ne_nil_of_mem hr)
    have hfirst : ∀ x ∈ rs, Maximal stake rs x.header → x.header = top.header := by
      intro x hx hmaxx
      obtain ⟨rs', hperm, hsel⟩ := selectBlock_of_first hstake hx hmaxx
      rw [hall rs' hperm] at hsel
      exact (CommittedRound.header_eq_of_block (Except.ok.inj hsel)).symm
    rw [hfirst r hr hmax, hfirst r' hr' hmax']
  · intro hunique hne
    obtain ⟨top, htop, hmax, -⟩ := exists_selectBlock hstake hne
    refine ⟨top, htop, hmax, ?_⟩
    intro rs' hperm
    have hne' : rs' ≠ [] := by
      rintro rfl
      exact hne hperm.symm.eq_nil
    obtain ⟨top', htop', hmax', hsel⟩ := exists_selectBlock hstake hne'
    -- maximal among the same rounds, so of the same hash, so the same round
    have hmem := hperm.mem_iff.mp htop'
    have hhash := hunique top' hmem top htop (hmax'.perm hperm.symm) hmax
    rw [hsel, List.inj_on_of_nodup_map hdistinct hmem htop hhash]

/-- Services under which the stake of a miner is its address. -/
def addressStakes : Oracles := { Oracles.permissive with getMinerStake := fun a => .ok a.val }

/-- The committed round of an empty block on the genesis block. -/
def roundOf (hash : Bytes) (proposerEth : Nat) : CommittedRound where
  info := ⟨hash, some ⟨some { childHeader hash 1 with proposerEth := .ofNat proposerEth }, []⟩,
    .commited, []⟩
  block := ⟨some { childHeader hash 1 with proposerEth := .ofNat proposerEth }, []⟩
  header := { childHeader hash 1 with proposerEth := .ofNat proposerEth }
  block_eq := rfl
  header_eq := rfl
  electionProof_ne := by simp [childHeader]
  proposer_ne := by simp [childHeader]

theorem selectBlock_order_independent_of_stakes :
    ∃ r ∈ [roundOf [1] 1, roundOf [2] 2],
      Maximal (fun a => a.val) [roundOf [1] 1, roundOf [2] 2] r.header ∧
        ∀ rs' : List CommittedRound, rs'.Perm [roundOf [1] 1, roundOf [2] 2] →
          selectBlock addressStakes (rs'.map CommittedRound.info) = .ok r.block := by
  refine (selectBlock_order_independent_iff (fun _ => rfl) (by decide)).mpr ?_ (by simp)
  -- the first block has less stake than the second
  have hsecond : ∀ r ∈ [roundOf [1] 1, roundOf [2] 2],
      Maximal (fun a => a.val) [roundOf [1] 1, roundOf [2] 2] r.header → r.header.hash = [2] := by
    intro r hr hmax
    rcases List.mem_pair.mp hr with rfl | rfl
    · exact absurd (hmax (roundOf [2] 2) (by simp)) (by decide)
    · rfl
  intro r hr r' hr' hmax hmax'
  rw [hsecond r hr hmax, hsecond r' hr' hmax']

/-- Of two blocks with the same stake and timestamp the one listed first is
    selected. -/
theorem selectBlock_depends_on_order :
    selectBlock addressStakes ([roundOf [1] 1, roundOf [2] 1].map CommittedRound.info)
        = .ok (roundOf [1] 1).block ∧
      selectBlock addressStakes ([roundOf [2] 1, roundOf [1] 1].map CommittedRound.info)
        = .ok (roundOf [2] 1).block ∧
      (roundOf [1] 1).block ≠ (roundOf [2] 1).block := by
  refine ⟨?_, ?_, ?_⟩
  · rfl
  · rfl
  · decide

end Dione.Consensus
