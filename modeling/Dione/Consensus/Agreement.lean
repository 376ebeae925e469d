/-
  Dione.Consensus.Agreement

  Which blocks the nodes of a network commit on one head.

  A node commits, when its next beacon entry arrives, the best ranked of the
  blocks whose rounds are committed *at that node*.  Nodes that have committed
  different rounds by then choose different blocks.  They agree as long as one
  block is among the committed rounds, and ranks before the others, at every node
  that commits on that head.
-/

import Dione.Consensus.Progress

namespace Dione.Consensus

open Guard BlockChain ConsensusManager

/-! ## Selection -/

theorem ranksBefore_irrefl (stake : Address → Except Err Int) (a : BlockHeader) :
    ranksBefore stake a a = false := by
  unfold ranksBefore
  cases stake a.proposerEth with
  | error e => rfl
  | ok v => simp

theorem ranksBefore_asymm {stake : Address → Except Err Int} {a b : BlockHeader}
    (h : ranksBefore stake a b = true) : ranksBefore stake b a = false := by
  unfold ranksBefore at *
  cases ha : stake a.proposerEth with
  | error e => rw [ha] at h; cases h
  | ok va =>
      cases hb : stake b.proposerEth with
      | error e => rfl
      | ok vb =>
          simp only [ha, hb] at h ⊢
          -- the larger stake decides, and the timestamp between equal stakes
          split at h
          · cases h
          · split at h
            · next hlt => rw [if_pos hlt]
            · next hge hle =>
                rw [if_neg hle, if_neg hge]
                have hts : b.timestamp < a.timestamp := by simpa using h
                exact decide_eq_false fun hts' => absurd (Int64.lt_trans hts hts')
                  (Int64.lt_irrefl)

/-- The candidates are the blocks of the rounds with their headers. -/
theorem mem_candidates {blocks : List ConsensusInfo} {cs : List (Block × BlockHeader)}
    (h : candidates blocks = .ok cs) {b : Block} {hd : BlockHeader} :
    (b, hd) ∈ cs ↔ ∃ ci ∈ blocks, ci.block = some b ∧ b.header = some hd := by
  induction blocks generalizing cs with
  | nil =>
      obtain rfl : [] = cs := by simpa [candidates] using h
      simp
  | cons ci cis ih =>
      simp only [candidates, bind_eq_ok, deref_eq_ok, pure_eq_ok_iff] at h
      obtain ⟨block, hblock, header, hheader, rest, hrest, rfl⟩ := h
      rw [List.mem_cons, ih hrest]
      constructor
      · rintro (heq | ⟨ci', hmem, hci'⟩)
        · obtain ⟨rfl, rfl⟩ := Prod.mk.inj heq
          exact ⟨ci, List.mem_cons_self .., hblock, hheader⟩
        · exact ⟨ci', List.mem_cons_of_mem _ hmem, hci'⟩
      · rintro ⟨ci', hmem, hb, hhd⟩
        rcases List.mem_cons.mp hmem with rfl | hmem
        · left
          obtain rfl : block = b := Option.some.inj (hblock.symm.trans hb)
          obtain rfl : header = hd := Option.some.inj (hheader.symm.trans hhd)
          rfl
        · exact .inr ⟨ci', hmem, hb, hhd⟩

/-- One of the rounds is that of `top`, which ranks before the blocks of all the
    others. -/
structure Best (o : Oracles) (blocks : List ConsensusInfo) (top : Block) (topHd : BlockHeader) :
    Prop where
  header_eq : top.header = some topHd
  mem : ∃ ci ∈ blocks, ci.block = some top
  first : ∀ ci ∈ blocks, ∀ b hd, ci.block = some b → b.header = some hd → b ≠ top →
    ranksBefore o.getMinerStake topHd hd = true

theorem Best.perm {o : Oracles} {blocks blocks' : List ConsensusInfo} {top : Block}
    {topHd : BlockHeader} (h : Best o blocks top topHd) (hperm : blocks'.Perm blocks) :
    Best o blocks' top topHd where
  header_eq := h.header_eq
  mem := by
    obtain ⟨ci, hmem, hci⟩ := h.mem
    exact ⟨ci, hperm.mem_iff.mpr hmem, hci⟩
  first ci hmem := h.first ci (hperm.mem_iff.mp hmem)

/-- The block of the only round is the best one. -/
theorem best_of_map_block {o : Oracles} {blocks : List ConsensusInfo} {top : Block}
    {topHd : BlockHeader} (hheader : top.header = some topHd)
    (h : blocks.map ConsensusInfo.block = [some top]) : Best o blocks top topHd := by
  obtain ⟨ci, rfl, hblock⟩ := List.map_eq_singleton_iff.mp h
  refine ⟨hheader, ⟨ci, List.mem_singleton_self ci, hblock⟩, ?_⟩
  intro ci' hmem b hd hb _ hne
  obtain rfl := List.mem_singleton.mp hmem
  exact absurd (Option.some.inj (hb.symm.trans hblock)) hne

/-- The best block is the one selected, whatever the order of the rounds. -/
theorem selectBlock_of_best {o : Oracles} {blocks : List ConsensusInfo} {top : Block}
    {topHd : BlockHeader} (hbest : Best o blocks top topHd) {b : Block}
    (h : selectBlock o blocks = .ok b) : b = top := by
  rw [selectBlock, bind_eq_ok] at h
  obtain ⟨cs, hcs, h⟩ := h
  have hmem : (top, topHd) ∈ cs := by
    obtain ⟨ci, hci, hblock⟩ := hbest.mem
    exact (mem_candidates hcs).mpr ⟨ci, hci, hblock, hbest.header_eq⟩
  -- `ranksBefore` is no total order: only the block before all others is sure
  -- to come first, wherever it stands in the list.
  have hhead : (sortCandidates o.getMinerStake cs).head? = some (top, topHd) := by
    apply Lists.head?_insertionSort (ranksBefore_irrefl _ _) hmem
    rintro ⟨x, hx⟩ hxmem hne
    obtain ⟨ci, hci, hblock, hheader⟩ := (mem_candidates hcs).mp hxmem
    -- a candidate other than `(top, topHd)` is another block, since headers are unique
    have hxt : x ≠ top := by
      rintro rfl
      exact hne (by rw [Option.some.inj (hheader.symm.trans hbest.header_eq)])
    have hfirst := hbest.first ci hci x hx hblock hheader hxt
    exact ⟨ranksBefore_asymm hfirst, by simp [hfirst]⟩
  cases hs : sortCandidates o.getMinerStake cs with
  | nil => rw [hs] at hhead; cases hhead
  | cons c rest =>
      rw [hs] at h hhead
      obtain rfl : c = (top, topHd) := Option.some.inj hhead
      simp only [bind_eq_ok, pure_eq_ok_iff] at h
      obtain ⟨-, -, -, -, -, -, rfl⟩ := h
      rfl

/-! ## What the steps record -/

namespace Network

variable {σ : Type} {n : Nat} {db : Database σ} {o : Oracles} {w : Network σ n}

theorem committed_handleMessage (j : Fin n) (message : PubSubMessage) :
    (handleMessage db o w j message).committed = w.committed := by
  unfold handleMessage
  split
  · split <;> rfl
  · split <;> rfl

theorem committed_deliver (k : Nat) : (deliver db o w k).committed = w.committed := by
  unfold deliver
  split
  · rfl
  · exact committed_handleMessage ..

theorem committed_handleNewState (sign : Fin n → Bytes → Except Err Bytes) (k : Nat) :
    (handleNewState sign w k).committed = w.committed := by
  unfold handleNewState
  split
  · rfl
  · dsimp only
    split <;> rfl

theorem committed_proposeAt (i : Fin n) (blk : Block) :
    (w.proposeAt i blk).committed = w.committed := by
  unfold proposeAt
  split <;> rfl

theorem committed_proposeMined (i : Fin n) (mined : Option Block) :
    (w.proposeMined i mined).committed = w.committed := by
  cases mined with
  | none => rfl
  | some blk => exact committed_proposeAt i blk

theorem mem_commitRecord {i : Fin n} {block : Block} {c : Committed n}
    (h : c ∈ commitRecord db o w i block) :
    headOf db (w.nodes i).chain = .ok c.head ∧ c.block = block := by
  unfold commitRecord at h
  split at h
  · next head _ hhead _ =>
      obtain rfl : c = ⟨i, head, block⟩ := by simpa using h
      exact ⟨hhead, rfl⟩
  · cases h

/-- A commit adds at most the record of the selected block on the node's head. -/
theorem mem_committed_commitAt {i : Fin n} {blocks : List ConsensusInfo} {c : Committed n}
    (h : c ∈ (commitAt db o w i blocks).2.committed) :
    c ∈ w.committed ∨
      headOf db (w.nodes i).chain = .ok c.head ∧ selectBlock o blocks = .ok c.block := by
  unfold commitAt at h
  dsimp only at h
  split at h
  · next block hresult =>
      rcases List.mem_append.mp h with h | h
      · exact .inl h
      · right
        obtain ⟨hhead, rfl⟩ := mem_commitRecord h
        refine ⟨hhead, ?_⟩
        unfold commitAcceptedBlocks at hresult
        split at hresult
        · cases hresult
        · next selected hselect =>
            -- the block is only reported when it was stored
            split at hresult
            · cases hresult
            · cases hstore : (storeBlock db o selected (w.nodes i).chain).result with
              | error e => simp [hstore, Except.map] at hresult
              | ok u =>
                  obtain rfl : selected = c.block := by
                    simpa [hstore, Except.map] using hresult
                  exact hselect
  · exact .inl h

theorem committed_onNewBeaconEntry (i : Fin n) (blocks : List ConsensusInfo)
    (mined : Option Block) : (onNewBeaconEntry db o w i blocks mined).committed =
      (commitAt db o w i blocks).2.committed := by
  unfold onNewBeaconEntry
  split
  · next hcommit => rw [committed_proposeMined, hcommit]; rfl
  · next hcommit => rw [committed_proposeMined, hcommit]
  · next hcommit => rw [hcommit]

/-- A step adds no record but that of a beacon entry, and that one is of the
    selected block on the node's head. -/
theorem mem_committed_step {sign : Fin n → Bytes → Except Err Bytes} {e : NetEvent n}
    {c : Committed n} (h : c ∈ (step db o sign w e).committed) :
    c ∈ w.committed ∨ ∃ i blocks mined, e = .beacon i blocks mined ∧
      blocks.Perm (w.nodes i).consensus.getAllBlocksWithCommit ∧
      headOf db (w.nodes i).chain = .ok c.head ∧ selectBlock o blocks = .ok c.block := by
  unfold step at h
  cases e with
  | deliver k => exact .inl (by rwa [committed_deliver] at h)
  | newState k => exact .inl (by rwa [committed_handleNewState] at h)
  | propose i blk => exact .inl (by rwa [committed_proposeAt] at h)
  | beacon i blocks mined =>
      dsimp only at h
      split at h
      · next hperm =>
          rw [committed_onNewBeaconEntry] at h
          rcases mem_committed_commitAt h with h | ⟨hhead, hselect⟩
          · exact .inl h
          · exact .inr ⟨i, blocks, mined, rfl, hperm, hhead, hselect⟩
      · exact .inl h

end Network

/-! ## Agreement -/

section Agreement

variable {σ : Type} {n : Nat} (db : Database σ) (o : Oracles)

/-- Any two blocks committed on top of `head` are the same block. -/
def Agreement (head : BlockHeader) (w : Network σ n) : Prop :=
  ∀ c ∈ w.committed, ∀ c' ∈ w.committed, c.head = head → c'.head = head → c.block = c'.block

/-- A beacon entry that reaches a node on top of `head` finds `top` among the
    committed rounds of the node and ranked before the others, unless the node
    has no committed round. -/
def CommitsBest (head : BlockHeader) (top : Block) (topHd : BlockHeader) (w : Network σ n) :
    NetEvent n → Prop
  | .beacon i _ _ => headOf db (w.nodes i).chain = .ok head →
      (w.nodes i).consensus.getAllBlocksWithCommit ≠ [] →
      Best o (w.nodes i).consensus.getAllBlocksWithCommit top topHd
  | _ => True

variable {db o}

theorem selectBlock_nil : selectBlock o [] = .error .noAcceptedBlocks := rfl

/-- Nodes that all find one block best ranked among their committed rounds commit
    the same block, in every run of the network. -/
theorem agreement_of_commitsBest {sign : Fin n → Bytes → Except Err Bytes} {head : BlockHeader}
    {top : Block} {topHd : BlockHeader} {w : Network σ n} {evs : List (NetEvent n)}
    (hw : w.committed = [])
    (hevs : Run.StepsMeet (Network.step db o sign) w evs (CommitsBest db o head top topHd)) :
    Run.Always (Network.step db o sign) w evs (Agreement head) := by
  -- the records of commits on `head` are all of `top`
  have htop : Run.Always (Network.step db o sign) w evs
      fun w => ∀ c ∈ w.committed, c.head = head → c.block = top := by
    refine Run.always_of_stepsMeet ?_ (by simp [hw]) hevs
    intro w e hrecords hmeets c hc hhead
    rcases Network.mem_committed_step hc with hc | ⟨i, blocks, mined, rfl, hperm, hchain, hselect⟩
    · exact hrecords c hc hhead
    -- a beacon entry that selected a block found a committed round
    · have hne : (w.nodes i).consensus.getAllBlocksWithCommit ≠ [] := by
        intro hnil
        rw [hnil, List.perm_nil] at hperm
        rw [hperm, selectBlock_nil] at hselect
        cases hselect
      exact selectBlock_of_best ((hmeets (hhead ▸ hchain) hne).perm hperm) hselect
  intro pre hpre c hc c' hc' hhead hhead'
  rw [htop pre hpre c hc hhead, htop pre hpre c' hc' hhead']

end Agreement

/-- The beacon entry of a node that lists its committed rounds as they are stored. -/
def NetEvent.beaconAt {σ : Type} {n : Nat} (w : Network σ n) (i : Fin n) : NetEvent n :=
  .beacon i (w.nodes i).consensus.getAllBlocksWithCommit none

/-- The first of two nodes. -/
def firstNode : Fin 2 := ⟨0, Nat.zero_lt_two⟩

/-- The second of two nodes. -/
def secondNode : Fin 2 := .last 1

/-- The beacon entries of the next round at both nodes. -/
def twoNodesBeacons : List (NetEvent 2) :=
  [.beaconAt twoNodesQuiet firstNode, .beaconAt twoNodesQuiet secondNode]

theorem agreement_twoNodes :
    Agreement genesisHeader (Run.exec (Network.step Memory.database .permissive fun _ h => .ok h)
      twoNodesQuiet twoNodesBeacons) ∧
    (Run.exec (Network.step Memory.database .permissive fun _ h => .ok h)
      twoNodesQuiet twoNodesBeacons).committed.length = 2 := by
  have hmeets : Run.StepsMeet (Network.step Memory.database .permissive fun _ h => .ok h)
      twoNodesQuiet twoNodesBeacons
      (CommitsBest Memory.database .permissive genesisHeader twoNodes.blk twoNodes.hd) := by
    refine Run.stepsMeet_cons.mpr ⟨fun _ _ => ?_, Run.stepsMeet_cons.mpr ⟨fun _ _ => ?_,
      Run.stepsMeet_nil⟩⟩
    · exact best_of_map_block rfl (by decide +kernel)
    · exact best_of_map_block rfl (by decide +kernel)
  exact ⟨(agreement_of_commitsBest (by decide +kernel) hmeets).final, by decide +kernel⟩

/-- Two nodes with the genesis block that need one approval. -/
def genesisNetwork : Network Memory.Cache 2 where
  nodes i := ⟨[i.val.toUInt8 + 1], new 1, genesisChain Memory.backend⟩
  inFlight := []
  pending := []
  committed := []

/-- The block of the second node on top of the genesis block. -/
def rivalBlock : Block :=
  ⟨some { childHeader [2] 1 with proposer := some [2], proposerEth := .ofNat 2 }, []⟩

/-- Both nodes propose; each gets the other's block and commits to it; the first
    node gets the second one's Commit, and the second node the first one's. -/
def rivalRounds : List (NetEvent 2) :=
  [.propose firstNode (childOfGenesis [1] 1), .propose secondNode rivalBlock, .deliver 1,
    .deliver 1, .newState 5, .newState 6, .deliver 2, .deliver 4]

/-- `genesisNetwork` after `rivalRounds`. -/
def rivalNetwork : Network Memory.Cache 2 :=
  Run.exec (Network.step Memory.database .permissive fun _ h => .ok h) genesisNetwork rivalRounds

/-- The beacon entries of the next round at both nodes. -/
def rivalBeacons : List (NetEvent 2) :=
  [.beaconAt rivalNetwork firstNode, .beaconAt rivalNetwork secondNode]

/-- Each node has committed its own round only when the beacon entry arrives, and
    stores its own block on top of the genesis block. -/
theorem not_agreement_rivalRounds :
    ¬ Run.Always (Network.step Memory.database .permissive fun _ h => .ok h) genesisNetwork
        (rivalRounds ++ rivalBeacons) (Agreement genesisHeader) := by
  intro h
  have hrecords : (Run.exec (Network.step Memory.database .permissive fun _ h => .ok h)
      genesisNetwork (rivalRounds ++ rivalBeacons)).committed
      = [⟨firstNode, genesisHeader, childOfGenesis [1] 1⟩,
        ⟨secondNode, genesisHeader, rivalBlock⟩] := by
    decide +kernel
  have hagree := h.final
  rw [Agreement, hrecords] at hagree
  -- both records are on the genesis block
  have heq : childOfGenesis [1] 1 = rivalBlock :=
    hagree ⟨firstNode, genesisHeader, childOfGenesis [1] 1⟩ (by simp)
      ⟨secondNode, genesisHeader, rivalBlock⟩ (by simp) rfl rfl
  have hne : childOfGenesis [1] 1 ≠ rivalBlock := by decide
  exact hne heq

end Dione.Consensus
