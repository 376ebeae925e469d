/-
  Dione.Node.Head

  The head the miner builds on (`Miner.latestBlockHeader`).

  The miner keeps a header of its own.  `StoreBlock` announces a block on the bus if it
  is higher than all before, the bus delivers later, and `onNewBeaconEntry` commits and
  mines without waiting for it.  So the miner is behind while an announcement is on its
  way, and stays behind when a block takes the place of the head at the same height,
  which is never announced.

  Other events may come between the two halves of `onNewBeaconEntry`; here a beacon
  entry is two events.
-/

import Dione.Miner.Validity
import Dione.Node.Atomicity

namespace Dione

open Guard Text BlockChain Consensus

/-! ## A node that is interrupted between committing and mining -/

/-- A node with the beacon entries it has committed for and not yet mined for. -/
structure Interleaved (σ : Type) where
  node : NodeState σ
  due : List BeaconEntry

/-- What happens next. -/
inductive Turn where
  /-- An event; of a beacon entry the first half, up to the commit. -/
  | node (e : NodeEvent)
  /-- The second half of the `k`-th entry that is due. -/
  | mine (k : Nat) (keys : List Str) (timestamp : Int64)

namespace Turn

/-- Updates are delivered in the order of their publication. -/
def InOrder : Turn → Prop
  | node (.headerUpdated k) => k = 0
  | _ => True

end Turn

/-- The block `MineBlock` returns, if it does. -/
def NodeState.mined {σ : Type} (signer : Signer) (o : Oracles) (s : NodeState σ) (keys : List Str)
    (timestamp : Int64) (entry : BeaconEntry) : Option Block :=
  if keys.Perm s.pool.mempool.keys then
    match mineBlock o signer timestamp s.latestBlockHeader
        (s.pool.mempool.getTransactionsForNewBlock keys) entry.data entry.round with
    | .ok minedBlock => minedBlock
    | .error _ => none
  else none

namespace Interleaved

variable {σ : Type} (db : Database σ) (signer : Signer) (rpc : RpcServices)

/-- A node that has just started. -/
def new (B : Backend) (minApprovals : Int64) : Interleaved B.σ := ⟨.new B minApprovals, []⟩

def step (s : Interleaved σ) (oe : Oracles × Turn) : Interleaved σ :=
  match oe.2 with
  | .node (.beacon blocks _ _ entry) =>
    if blocks.Perm s.node.consensus.getAllBlocksWithCommit then
      let r := s.node.commit db oe.1 blocks
      ⟨r.2, if NodeState.goesOn r.1 then s.due ++ [entry] else s.due⟩
    else s
  | .node e => { s with node := s.node.step db signer rpc (oe.1, e) }
  | .mine k keys timestamp =>
    match s.due[k]? with
    | some entry => ⟨s.node.mine signer oe.1 keys timestamp entry, s.due.eraseIdx k⟩
    | none => s

/-- The block that is mined in a step. -/
def mined (s : Interleaved σ) (oe : Oracles × Turn) : Option Block :=
  match oe.2 with
  | .mine k keys timestamp =>
    s.due[k]?.bind fun entry => s.node.mined signer oe.1 keys timestamp entry
  | .node _ => none

/-! ### Without interruptions -/

/-- Every step of a node is one or two of these. -/
theorem exists_turns (s : NodeState σ) (oe : Oracles × NodeEvent) :
    ∃ turns, Run.exec (step db signer rpc) ⟨s, []⟩ turns = ⟨s.step db signer rpc oe, []⟩ := by
  obtain ⟨o, e⟩ := oe
  cases e with
  | beacon blocks keys timestamp entry =>
      by_cases hperm : blocks.Perm s.consensus.getAllBlocksWithCommit
      · cases hgo : NodeState.goesOn (s.commit db o blocks).1 with
        | true =>
            refine ⟨[(o, .node (.beacon blocks keys timestamp entry)), (o, .mine 0 keys timestamp)],
              ?_⟩
            simp [step, NodeState.step, hperm, NodeState.onNewBeaconEntry_eq, hgo]
        | false =>
            refine ⟨[(o, .node (.beacon blocks keys timestamp entry))], ?_⟩
            simp [step, NodeState.step, hperm, NodeState.onNewBeaconEntry_eq, hgo]
      · refine ⟨[], ?_⟩
        simp [NodeState.step, hperm]
  | pool e => exact ⟨[(o, .node (.pool e))], rfl⟩
  | newBlock payload => exact ⟨[(o, .node (.newBlock payload))], rfl⟩
  | synced block => exact ⟨[(o, .node (.synced block))], rfl⟩
  | consensus message => exact ⟨[(o, .node (.consensus message))], rfl⟩
  | headerUpdated k => exact ⟨[(o, .node (.headerUpdated k))], rfl⟩

/-- So every run of a node is one of these runs. -/
theorem exists_run (s : NodeState σ) (evs : List (Oracles × NodeEvent)) :
    ∃ turns, Run.exec (step db signer rpc) ⟨s, []⟩ turns
      = ⟨Run.exec (NodeState.step db signer rpc) s evs, []⟩ := by
  induction evs generalizing s with
  | nil => exact ⟨[], rfl⟩
  | cons oe evs ih =>
      obtain ⟨first, hfirst⟩ := exists_turns db signer rpc s oe
      obtain ⟨rest, hrest⟩ := ih (s.step db signer rpc oe)
      refine ⟨first ++ rest, ?_⟩
      rw [Run.exec_append, hfirst, hrest, Run.exec_cons]

end Interleaved

/-! ## What a step does to the chain and the announcements -/

section Announcements

variable {B : Backend} {o : Oracles} {block : Block} {hd : BlockHeader} {s : B.σ}

/-- A recorded block is announced iff it is higher than the latest height. -/
theorem heightUpdates_of_recorded (hwf : B.Wf s) {latest : UInt64}
    (hlatest : (B.view s).latest = some latest) (hrec : recorded B.db o block s = some hd) :
    heightUpdates (storeBlock B.db o block s).published
      = if latest < hd.height then [block] else [] := by
  have hstorable := storable_of_recorded B hwf hrec
  have hfresh := fresh_of_recorded B hwf hrec
  obtain ⟨hheader, hhas, hcheck, -⟩ := recorded_eq_some.mp hrec
  obtain ⟨s₁, hwrite, hwf₁, hview₁⟩ := B.storeBlock_spec hwf hheader hstorable hfresh
  obtain ⟨s₂, hset, -⟩ := B.setLatestBlockHeight_spec hd.height hwf₁
  have hlatest₁ : B.db.getLatestBlockHeight s₁ = .ok latest := by
    rw [B.getLatestBlockHeight_eq hwf₁, hview₁, Store.insert_latest, hlatest]
    rfl
  simp only [storeBlock, hheader, hhas, hcheck, hwrite, updateLatest, hlatest₁, hset, gt_iff_lt]
  split <;> rfl

theorem heightUpdates_of_not_recorded (hrec : recorded B.db o block s = none) :
    heightUpdates (storeBlock B.db o block s).published = [] := by
  unfold storeBlock
  split
  · rfl
  · next header hheader =>
      split
      · rfl
      · rfl
      · next hhas =>
          split
          · rfl
          · next hcheck =>
              split
              · rfl
              · next s' hwrite =>
                  rw [recorded_eq_some.mpr ⟨hheader, hhas, hcheck, by rw [hwrite]⟩] at hrec
                  cases hrec

end Announcements

/-- A step that is not a delivery calls `StoreBlock` at most once. -/
theorem Interleaved.stores_step {σ : Type} (db : Database σ) (signer : Signer) (rpc : RpcServices)
    (s : Interleaved σ) (o : Oracles) (t : Turn) (ht : ∀ k, t ≠ .node (.headerUpdated k)) :
    ∃ call, NodeState.Stores db call s.node (s.step db signer rpc (o, t)).node := by
  cases t with
  | mine k keys timestamp =>
      refine ⟨none, ?_⟩
      simp only [Interleaved.step]
      split
      · exact NodeState.stores_mine s.node keys timestamp _
      · exact NodeState.stores_none rfl rfl rfl
  | node e =>
      cases e with
      | beacon blocks keys timestamp entry =>
          simp only [Interleaved.step]
          split
          · next hblocks =>
              exact ⟨_, NodeState.stores_commit s.node blocks keys timestamp entry hblocks⟩
          · exact ⟨none, NodeState.stores_none rfl rfl rfl⟩
      | headerUpdated k => exact absurd rfl (ht k)
      | pool e => exact ⟨_, NodeState.stores_step db signer rpc s.node (o, .pool e) nofun⟩
      | consensus message =>
          exact ⟨_, NodeState.stores_step db signer rpc s.node (o, .consensus message) nofun⟩
      | newBlock payload =>
          exact ⟨_, NodeState.stores_step db signer rpc s.node (o, .newBlock payload) nofun⟩
      | synced block =>
          exact ⟨_, NodeState.stores_step db signer rpc s.node (o, .synced block) nofun⟩

/-! ## What the miner has heard of -/

/-- The header of the miner and those on their way to it. -/
def NodeState.announced {σ : Type} (s : NodeState σ) : List (Option BlockHeader) :=
  s.latestBlockHeader :: s.updates.map (·.header)

/-- The last header announced is as high as the chain, and all before are lower. -/
structure HeadAnnounced (B : Backend) (s : NodeState B.σ) (head last : BlockHeader)
    (older : List BlockHeader) : Prop where
  wf : B.Wf s.chain
  latest_eq : (B.view s.chain).latest = some head.height
  head_eq : ((B.view s.chain).byHeight head.height).map (·.header) = some (some head)
  announced_eq : s.announced = (older ++ [last]).map some
  last_height : last.height = head.height
  older_lt : ∀ hd ∈ older, hd.height < head.height

namespace HeadAnnounced

variable {B : Backend} {s s' : NodeState B.σ} {head last : BlockHeader} {older : List BlockHeader}

theorem genesis (B : Backend) (minApprovals : Int64) :
    HeadAnnounced B (NodeState.new B minApprovals) genesisHeader genesisHeader [] := by
  obtain ⟨hwf, hview⟩ := genesisChain_spec B
  have hchain : (NodeState.new B minApprovals).chain = genesisChain B := rfl
  refine ⟨hwf, ?_, ?_, rfl, rfl, by simp⟩
  · rw [hchain, hview]
    rfl
  · rw [hchain, hview]
    rfl

/-- Nothing is stored. -/
theorem unchanged (h : HeadAnnounced B s head last older) (hchain : s'.chain = s.chain)
    (hannounced : s'.announced = s.announced) : HeadAnnounced B s' head last older :=
  ⟨hchain ▸ h.wf, hchain ▸ h.latest_eq, hchain ▸ h.head_eq, hannounced.trans h.announced_eq,
    h.last_height, h.older_lt⟩

section Recorded

variable {block : Block} {hd : BlockHeader} (hwf : B.Wf s'.chain)
  (hview : B.view s'.chain = (B.view s.chain).commit hd block) (hblock : block.header = some hd)

include hwf hview hblock

/-- A higher block is the new head, and announced. -/
theorem raised (h : HeadAnnounced B s head last older) (hhigher : head.height < hd.height)
    (hannounced : s'.announced = s.announced ++ [some hd]) :
    HeadAnnounced B s' hd hd (older ++ [last]) := by
  refine ⟨hwf, ?_, ?_, ?_, rfl, ?_⟩
  · rw [hview, Store.commit_latest h.latest_eq, if_pos hhigher]
  · rw [hview, Store.commit_byHeight, if_pos rfl, Option.map_some, hblock]
  · rw [hannounced, h.announced_eq]
    simp
  · intro hd' hmem
    rcases List.mem_append.mp hmem with hmem | hmem
    · exact UInt64.lt_trans (h.older_lt hd' hmem) hhigher
    · rw [List.mem_singleton.mp hmem, h.last_height]
      exact hhigher

/-- A block of the height of the head takes its place, a lower one does not; neither is
    announced. -/
theorem not_raised (h : HeadAnnounced B s head last older) (hnot : ¬ head.height < hd.height)
    (hannounced : s'.announced = s.announced) : ∃ head', HeadAnnounced B s' head' last older := by
  have hlatest : (B.view s'.chain).latest = some head.height := by
    rw [hview, Store.commit_latest h.latest_eq, if_neg hnot]
  have hannounced' := hannounced.trans h.announced_eq
  by_cases hsame : head.height = hd.height
  · refine ⟨hd, hwf, hsame ▸ hlatest, ?_, hannounced', hsame ▸ h.last_height, hsame ▸ h.older_lt⟩
    rw [hview, Store.commit_byHeight, if_pos rfl, Option.map_some, hblock]
  · refine ⟨head, hwf, hlatest, ?_, hannounced', h.last_height, h.older_lt⟩
    rw [hview, Store.commit_byHeight, if_neg hsame]
    exact h.head_eq

end Recorded

/-- A call of `StoreBlock` keeps the invariant, with another head if it records a block. -/
theorem stores (h : HeadAnnounced B s head last older) {call : Option (Oracles × Block)}
    (hs : NodeState.Stores B.db call s s') :
    ∃ head' last' older', HeadAnnounced B s' head' last' older' := by
  obtain ⟨hchain, hupdates, hheader⟩ := hs
  have hannounced : ∀ blocks : List Block, s'.updates = s.updates ++ blocks →
      s'.announced = s.announced ++ blocks.map (·.header) := by
    intro blocks heq
    rw [NodeState.announced, hheader, heq, List.map_append]
    rfl
  cases call with
  | none => exact ⟨head, last, older, h.unchanged hchain (by simpa using hannounced [] hupdates)⟩
  | some c =>
      simp only [Option.map_some, Option.getD_some] at hchain hupdates
      cases hrec : recorded B.db c.1 c.2 s.chain with
      | none =>
          rw [heightUpdates_of_not_recorded hrec] at hupdates
          have hsame := hchain.trans (storeBlock_of_not_recorded B h.wf hrec)
          exact ⟨head, last, older, h.unchanged hsame (by simpa using hannounced [] hupdates)⟩
      | some hd =>
          obtain ⟨hwf, hview⟩ := storeStep_of_recorded B h.wf hrec
          rw [← hchain] at hwf hview
          have hblock := (recorded_eq_some.mp hrec).1
          rw [heightUpdates_of_recorded h.wf h.latest_eq hrec] at hupdates
          by_cases hhigher : head.height < hd.height
          · rw [if_pos hhigher] at hupdates
            have hlast := hannounced [c.2] hupdates
            rw [List.map_singleton, hblock] at hlast
            exact ⟨hd, hd, older ++ [last], h.raised hwf hview hblock hhigher hlast⟩
          · rw [if_neg hhigher] at hupdates
            obtain ⟨head', h'⟩ := h.not_raised hwf hview hblock hhigher
              (by simpa using hannounced [] hupdates)
            exact ⟨head', last, older, h'⟩

/-- The delivery of the first update keeps it. -/
theorem delivered (h : HeadAnnounced B s head last older) {block : Block} {rest : List Block}
    (hupdates : s.updates = block :: rest) :
    ∃ older', HeadAnnounced B { s with latestBlockHeader := block.header, updates := rest } head
      last older' := by
  have hannounced := h.announced_eq
  rw [NodeState.announced, hupdates] at hannounced
  cases older with
  | nil => simp at hannounced
  | cons first older =>
      rw [List.cons_append, List.map_cons] at hannounced
      refine ⟨older, h.wf, h.latest_eq, h.head_eq, (List.cons.inj hannounced).2, h.last_height, ?_⟩
      intro hd hmem
      exact h.older_lt hd (List.mem_cons_of_mem _ hmem)

theorem step (signer : Signer) (rpc : RpcServices) {s : Interleaved B.σ}
    (h : HeadAnnounced B s.node head last older) {oe : Oracles × Turn} (horder : oe.2.InOrder) :
    ∃ head' last' older', HeadAnnounced B (s.step B.db signer rpc oe).node head' last' older' := by
  obtain ⟨o, t⟩ := oe
  by_cases ht : ∃ k, t = .node (.headerUpdated k)
  · obtain ⟨k, rfl⟩ := ht
    obtain rfl : k = 0 := horder
    simp only [Interleaved.step, NodeState.step]
    cases hupdates : s.node.updates with
    | nil => exact ⟨head, last, older, h⟩
    | cons block rest =>
        obtain ⟨older', h'⟩ := h.delivered hupdates
        exact ⟨head, last, older', h'⟩
  · push Not at ht
    obtain ⟨call, hs⟩ := Interleaved.stores_step B.db signer rpc s o t ht
    exact h.stores hs

theorem isHead_iff (h : HeadAnnounced B s head last older) {hd : BlockHeader} :
    IsHead B.db s.chain hd ↔ hd = head := by
  simp only [IsHead, B.getLatestBlockHeight_eq h.wf, h.latest_eq,
    B.fetchBlockHeaderByHeight_eq _ h.wf, orErr_eq_ok]
  constructor
  · rintro ⟨latest, hlatest, hat⟩
    obtain rfl := Option.some.inj hlatest
    exact Option.some.inj (Option.some.inj (hat.symm.trans h.head_eq))
  · rintro rfl
    exact ⟨hd.height, rfl, h.head_eq⟩

/-- The miner is as high as the chain iff nothing is on its way to it. -/
theorem height_eq_iff (h : HeadAnnounced B s head last older) {hd : BlockHeader}
    (hheader : s.latestBlockHeader = some hd) : hd.height = head.height ↔ s.updates = [] := by
  have hannounced := h.announced_eq
  rw [NodeState.announced, hheader] at hannounced
  cases older with
  | nil =>
      have hlast : hd = last ∧ s.updates = [] := by simpa using hannounced
      rw [hlast.1, hlast.2]
      simpa using h.last_height
  | cons first older =>
      rw [List.cons_append, List.map_cons] at hannounced
      obtain ⟨hfirst, hrest⟩ := List.cons.inj hannounced
      obtain rfl := Option.some.inj hfirst
      have hlt := h.older_lt hd (List.mem_cons_self ..)
      constructor
      · intro heq
        rw [heq] at hlt
        exact absurd hlt (UInt64.lt_irrefl _)
      · intro hnil
        rw [hnil] at hrest
        simp at hrest

end HeadAnnounced

/-! ## The result -/

/-- The block links to the head of the chain and is one higher. -/
def BuildsOnHead {σ : Type} (db : Database σ) (s : σ) (block : Block) : Prop :=
  ∃ head header, IsHead db s head ∧ block.header = some header ∧ CreatedOn head header

/-- Every announcement has been delivered, and the head is the block the miner has heard
    of last, not one that took its place. -/
def HeadHeard {σ : Type} (db : Database σ) (s : NodeState σ) : Prop :=
  s.updates = [] ∧ ∃ head hd, IsHead db s.chain head ∧ s.latestBlockHeader = some hd ∧
    hd.hash = head.hash

theorem NodeState.createdOn_of_mined {σ : Type} {signer : Signer} {o : Oracles} {s : NodeState σ}
    {keys : List Str} {timestamp : Int64} {entry : BeaconEntry} {block : Block}
    (h : s.mined signer o keys timestamp entry = some block) :
    ∃ last header, s.latestBlockHeader = some last ∧ block.header = some header ∧
      CreatedOn last header := by
  unfold NodeState.mined at h
  split at h
  · split at h
    · next minedBlock hmine =>
        subst h
        exact createdOn_of_mineBlock hmine
    · cases h
  · cases h

theorem Interleaved.createdOn_of_mined {σ : Type} {signer : Signer} {s : Interleaved σ}
    {oe : Oracles × Turn} {block : Block} (h : s.mined signer oe = some block) :
    ∃ last header, s.node.latestBlockHeader = some last ∧ block.header = some header ∧
      CreatedOn last header := by
  obtain ⟨o, t⟩ := oe
  cases t with
  | node e => cases h
  | mine k keys timestamp =>
      obtain ⟨entry, -, hmined⟩ := Option.bind_eq_some_iff.mp h
      exact NodeState.createdOn_of_mined hmined

/-- In a state the miner knows of, what it mines is on the head iff it has heard of it. -/
theorem buildsOnHead_iff {B : Backend} {s : NodeState B.σ} {head last : BlockHeader}
    {older : List BlockHeader} (h : HeadAnnounced B s head last older) {hd header : BlockHeader}
    {block : Block} (hheader : s.latestBlockHeader = some hd) (hblock : block.header = some header)
    (hon : CreatedOn hd header) : BuildsOnHead B.db s.chain block ↔ HeadHeard B.db s := by
  constructor
  · rintro ⟨head', header', hhead, hblock', hon'⟩
    obtain rfl := h.isHead_iff.mp hhead
    obtain rfl := Option.some.inj (hblock.symm.trans hblock')
    have hheight : hd.height = head'.height :=
      (UInt64.add_left_inj 1).mp (hon.height_eq.symm.trans hon'.height_eq)
    exact ⟨(h.height_eq_iff hheader).mp hheight, head', hd, hhead, hheader,
      hon.lastHash_eq.symm.trans hon'.lastHash_eq⟩
  · rintro ⟨hupdates, head', hd', hhead, hheader', hhash⟩
    obtain rfl := h.isHead_iff.mp hhead
    obtain rfl := Option.some.inj (hheader.symm.trans hheader')
    have hheight := (h.height_eq_iff hheader).mpr hupdates
    refine ⟨head', header, hhead, hblock, ?_, ?_⟩
    · rw [hon.height_eq, hheight]
    · rw [hon.lastHash_eq, hhash]

/-- In a run with deliveries in the order of publication, every block the node mines is
    built on the head of its chain iff the miner has heard of the head whenever it mines
    one. -/
theorem minesOnHead_iff_headHeard (B : Backend) (signer : Signer) (rpc : RpcServices)
    (minApprovals : Int64) (turns : List (Oracles × Turn)) (horder : ∀ oe ∈ turns, oe.2.InOrder) :
    Run.StepsMeet (Interleaved.step B.db signer rpc) (Interleaved.new B minApprovals) turns
        (fun s oe => ∀ block, s.mined signer oe = some block →
          BuildsOnHead B.db s.node.chain block) ↔
      Run.StepsMeet (Interleaved.step B.db signer rpc) (Interleaved.new B minApprovals) turns
        (fun s oe => s.mined signer oe ≠ none → HeadHeard B.db s.node) := by
  have hinvariant : Run.Always (Interleaved.step B.db signer rpc) (Interleaved.new B minApprovals)
      turns (fun s => ∃ head last older, HeadAnnounced B s.node head last older) := by
    have hsteps : Run.StepsMeet (Interleaved.step B.db signer rpc)
        (Interleaved.new B minApprovals) turns (fun _ oe => oe.2.InOrder) :=
      fun pre oe hpre => horder oe (hpre.subset (by simp))
    refine Run.always_of_stepsMeet ?_ ⟨_, _, _, HeadAnnounced.genesis B minApprovals⟩ hsteps
    rintro s oe ⟨head, last, older, h⟩ hok
    exact h.step signer rpc hok
  refine Run.stepsMeet_congr hinvariant ?_
  rintro s oe ⟨head, last, older, h⟩
  cases hmined : s.mined signer oe with
  | none => simp
  | some block =>
      obtain ⟨hd, header, hheader, hblock, hon⟩ := Interleaved.createdOn_of_mined hmined
      simp only [Option.some.injEq, forall_eq', ne_eq, reduceCtorEq, not_false_eq_true,
        forall_const]
      exact buildsOnHead_iff h hheader hblock hon

/-! ### Mining right after a commit -/

/-- A transaction arrives at the sole miner, and the first beacon entry. -/
def firstTurns : List (Oracles × Turn) :=
  [(.salted, .node (.pool (.newTx (some pooledTx)))),
    (.salted, .node (.beacon [] [] 0 ⟨1, []⟩))]

/-- The miner makes a block of it. -/
def firstMining : Oracles × Turn := (.salted, .mine 0 [txKey pooledTx.hash] 0)

theorem firstMining_minesOnHead :
    Run.StepsMeet (Interleaved.step Memory.database soleSigner TxPool.noRpc)
        (Interleaved.new Memory.backend 1) (firstTurns ++ [firstMining])
        (fun s oe => ∀ block, s.mined soleSigner oe = some block →
          BuildsOnHead Memory.database s.node.chain block) ∧
      (Run.exec (Interleaved.step Memory.database soleSigner TxPool.noRpc)
        (Interleaved.new Memory.backend 1) firstTurns).mined soleSigner firstMining
          = some firstMined := by
  refine ⟨?_, by decide +kernel⟩
  refine (minesOnHead_iff_headHeard Memory.backend soleSigner TxPool.noRpc 1
    (firstTurns ++ [firstMining]) ?_).mpr ?_
  · simp [firstTurns, firstMining, Turn.InOrder]
  · refine Run.stepsMeet_cons.mpr ⟨fun hmined => absurd rfl hmined, ?_⟩
    refine Run.stepsMeet_cons.mpr ⟨fun hmined => absurd rfl hmined, ?_⟩
    refine Run.stepsMeet_cons.mpr ⟨fun _ => ?_, Run.stepsMeet_nil⟩
    exact ⟨rfl, genesisHeader, genesisHeader, genesis_isHead, rfl, rfl⟩

/-- The block is approved, another transaction arrives, and the next beacon entry commits
    the block. -/
def committedTurns : List (Oracles × Turn) :=
  let turns := firstTurns ++ [firstMining,
    (.salted, .node (.consensus ⟨[3], .commit ((firstMined.header.map (·.hash)).getD []) []⟩)),
    (.salted, .node (.pool (.newTx (some otherTx))))]
  let s := Run.exec (Interleaved.step Memory.database soleSigner TxPool.noRpc)
    (Interleaved.new Memory.backend 1) turns
  turns ++ [(.salted, .node (.beacon s.node.consensus.getAllBlocksWithCommit [] 0 ⟨2, []⟩))]

/-- What a miner that knows of the genesis block only makes of the other transaction. -/
def staleMined : Block :=
  match mineBlock .salted soleSigner 1 (some genesisHeader) [otherTx] [] 2 with
  | .ok (some block) => block
  | _ => genesisBlock

/-- The miner goes on before it has heard of the commit: its second block is built on the
    genesis block, at the height of the head. -/
theorem mined_before_update :
    ∃ s header head, Run.exec (Interleaved.step Memory.database soleSigner TxPool.noRpc)
        (Interleaved.new Memory.backend 1) committedTurns = s ∧
      s.mined soleSigner (.salted, .mine 0 [txKey otherTx.hash] 1) = some staleMined ∧
      staleMined.header = some header ∧ firstMined.header = some head ∧
      IsHead Memory.database s.node.chain head ∧
      header.lastHash = genesisHash ∧ head.hash ≠ genesisHash ∧
      header.height = 1 ∧ head.height = 1 := by
  refine ⟨_, staleMined.header.getD genesisHeader, firstMined.header.getD genesisHeader, rfl,
    by decide +kernel, by decide +kernel, by decide +kernel,
    ⟨1, by decide +kernel, by decide +kernel⟩, ?_⟩
  decide +kernel

end Dione
