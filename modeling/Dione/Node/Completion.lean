/-
  Dione.Node.Completion

  How a round of honest nodes ends.

  `no_stuck_round` takes a round to the point where every node has committed to the block.
  From there on it is beacon entries that matter: the first one that finds the round
  committed at its node makes the node store the block and send it to all others, who store
  it as well, whether they have committed to it or not.  Beacon entries that come too early
  change nothing.

  So in every order of deliveries and beacon entries, a network that has gone quiet is in
  one of two states: all nodes have the block on top of their chains, or none has, and the
  beacon entry of any node will bring it there.
-/

import Dione.Consensus.Agreement
import Dione.Node.Origin

namespace Dione.Consensus

open Guard Text BlockChain ConsensusManager

/-! ## Committing the only block -/

section Commit

variable {o : Oracles} {blocks : List ConsensusInfo} {b : Block} {hd : BlockHeader}

theorem candidates_of_forall (hblocks : ∀ ci ∈ blocks, ci.block = some b)
    (hheader : b.header = some hd) : candidates blocks = .ok (blocks.map fun _ => (b, hd)) := by
  induction blocks with
  | nil => rfl
  | cons ci cis ih =>
      obtain ⟨hci, hcis⟩ := List.forall_mem_cons.mp hblocks
      simp only [candidates, hci, deref_some, ok_bind, hheader, ih hcis]
      rfl

/-- If all rounds are of one block, it is selected. -/
theorem selectBlock_of_forall (hne : blocks ≠ []) (hblocks : ∀ ci ∈ blocks, ci.block = some b)
    (hheader : b.header = some hd) {stake : Int}
    (hstake : o.getMinerStake hd.proposerEth = .ok stake)
    (hproof : hd.electionProof ≠ none) (hproposer : hd.proposer ≠ none) :
    selectBlock o blocks = .ok b := by
  rw [selectBlock, candidates_of_forall hblocks hheader, ok_bind]
  cases hsort : sortCandidates o.getMinerStake (blocks.map fun _ => (b, hd)) with
  | nil =>
      have hlength := congrArg List.length hsort
      rw [sortCandidates, List.length_insertionSort, List.length_map] at hlength
      exact absurd (List.length_eq_zero_iff.mp hlength) hne
  | cons c rest =>
      have hmem : c ∈ sortCandidates o.getMinerStake (blocks.map fun _ => (b, hd)) := by
        rw [hsort]
        exact List.mem_cons_self ..
      obtain ⟨ci, -, rfl⟩ := List.mem_map.mp ((List.mem_insertionSort _).mp hmem)
      obtain ⟨proof, hproof⟩ := Option.ne_none_iff_exists'.mp hproof
      obtain ⟨proposer, hproposer⟩ := Option.ne_none_iff_exists'.mp hproposer
      simp only [hstake, hproof, hproposer, deref_some, ok_bind]
      rfl

theorem exists_txHashes {vs : List (Option Transaction)} (hvs : ∀ v ∈ vs, ∃ tx, v = some tx) :
    ∃ hashes, txHashes vs = .ok hashes := by
  induction vs with
  | nil => exact ⟨[], rfl⟩
  | cons v vs ih =>
      obtain ⟨⟨tx, rfl⟩, hrest⟩ := List.forall_mem_cons.mp hvs
      obtain ⟨hashes, hhashes⟩ := ih hrest
      refine ⟨tx.hash :: hashes, ?_⟩
      simp only [txHashes, deref_some, ok_bind, hhashes]
      rfl

end Commit

namespace HonestRound

variable {B : Backend} {o : Oracles} {n : Nat} {sign : Fin n → Bytes → Except Err Bytes}
  (R : HonestRound B.db o n sign)

/-- The nodes have no other rounds, and their chains can take the block on top. -/
structure Storable : Prop where
  idle : ∀ i, (R.manager i).consensusInfoMap = ∅
  wf : ∀ i, B.Wf (R.chain i)
  storable : B.storable R.hd.hash
  unseen : ∀ i, (B.view (R.chain i)).byHash R.hd.hash = none
  higher : ∀ i latest, (B.view (R.chain i)).latest = some latest → latest < R.hd.height

/-- The chain of node `i` with the block. -/
def stored (i : Fin n) : B.σ := (storeBlock B.db o R.blk (R.chain i)).state

/-- The block is the head of the chain of node `i`, and nothing else has been stored. -/
structure OnTop (i : Fin n) (s : B.σ) : Prop where
  head_eq : headOf B.db s = .ok R.hd
  view_eq : B.view s = (B.view (R.chain i)).commit R.hd R.blk

variable {R}

namespace Storable

variable (hS : R.Storable) (i : Fin n)
include hS

theorem recorded_blk : recorded B.db o R.blk (R.chain i) = some R.hd := by
  obtain ⟨s', hwrite, -⟩ :=
    B.storeBlock_spec (hS.wf i) R.header_eq hS.storable (hS.unseen i)
  refine recorded_eq_some.mpr ⟨R.header_eq, ?_, ?_, by rw [hwrite]⟩
  · rw [B.hasBlock_eq (hS.wf i) hS.storable, hS.unseen i]
    rfl
  · unfold checkBeforeStore
    rw [R.validates i]
    split
    · rfl
    · rfl

theorem storeBlock_chain : (∃ pub, storeBlock B.db o R.blk (R.chain i) = ⟨.ok (), R.stored i, pub⟩)
    ∧ B.Wf (R.stored i) ∧ B.view (R.stored i) = (B.view (R.chain i)).commit R.hd R.blk := by
  obtain ⟨s', pub, hstore, hwf, hview⟩ := storeBlock_of_recorded B (hS.wf i) (hS.recorded_blk i)
  have hstate : R.stored i = s' := by rw [stored, hstore]
  rw [hstate]
  exact ⟨⟨pub, hstore⟩, hwf, hview⟩

/-- The block is stored once. -/
theorem storeBlock_stored :
    storeBlock B.db o R.blk (R.stored i) = ⟨.ok (), R.stored i, []⟩ := by
  obtain ⟨-, hwf, hview⟩ := hS.storeBlock_chain i
  have hhas : B.db.hasBlock R.hd.hash (R.stored i) = .ok true := by
    rw [B.hasBlock_eq hwf hS.storable, hview, Store.commit_byHash, if_pos rfl]
    rfl
  simp only [storeBlock, R.header_eq, hhas]

theorem onTop_stored : R.OnTop i (R.stored i) := by
  obtain ⟨-, hwf, hview⟩ := hS.storeBlock_chain i
  refine ⟨?_, hview⟩
  obtain ⟨header, head, haccepted⟩ := validateBlock_accepted (R.validates i)
  obtain ⟨latest, hlatest, -⟩ := haccepted.head_eq
  rw [B.getLatestBlockHeight_eq (hS.wf i), orErr_eq_ok] at hlatest
  have hraised : (B.view (R.stored i)).latest = some R.hd.height := by
    rw [hview, Store.commit_latest hlatest, if_pos (hS.higher i latest hlatest)]
  have hblock : (B.view (R.stored i)).byHeight R.hd.height = some R.blk := by
    rw [hview, Store.commit_byHeight, if_pos rfl]
  simp only [headOf, B.getLatestBlockHeight_eq hwf, hraised, B.fetchBlockHeaderByHeight_eq _ hwf,
    hblock, orErr, ok_bind, Option.map_some, R.header_eq, deref_some]

/-- Whether it has been stored or not, it is afterwards. -/
theorem state_storeBlock {s : B.σ} (hs : s = R.chain i ∨ s = R.stored i) :
    (storeBlock B.db o R.blk s).state = R.stored i := by
  rcases hs with rfl | rfl
  · rfl
  · rw [hS.storeBlock_stored i]

/-- `commitAcceptedBlocks` of rounds that are all of the block. -/
theorem commitAcceptedBlocks_eq {blocks : List ConsensusInfo} (hne : blocks ≠ [])
    (hblocks : ∀ ci ∈ blocks, ci.block = some R.blk) (cm : ConsensusManager) {s : B.σ}
    (hs : s = R.chain i ∨ s = R.stored i) :
    (commitAcceptedBlocks B.db o blocks cm s).result = .ok R.blk
      ∧ (commitAcceptedBlocks B.db o blocks cm s).consensus = cm.prune
      ∧ (commitAcceptedBlocks B.db o blocks cm s).chain = R.stored i := by
  obtain ⟨hd, proposer, ep, hheader, hproposer, hep, -, heligible, -, htxs⟩ :=
    validateBlock_eq_ok.mp (R.validates i)
  obtain rfl : hd = R.hd := Option.some.inj (hheader.symm.trans R.header_eq)
  simp only [isMinerEligibleToProposeBlock, bind_eq_ok] at heligible
  obtain ⟨stake, hstake, -⟩ := heligible
  have hselect : selectBlock o blocks = .ok R.blk :=
    selectBlock_of_forall hne hblocks hheader hstake (by simp [hep]) (by simp [hproposer])
  obtain ⟨hashes, hhashes⟩ := exists_txHashes fun v hv =>
    (validateTransactions_accepted htxs v hv).imp fun _ h => h.1
  have hstate := hS.state_storeBlock i hs
  have hresult : (storeBlock B.db o R.blk s).result = .ok () := by
    rcases hs with rfl | rfl
    · obtain ⟨⟨pub, hstore⟩, -⟩ := hS.storeBlock_chain i
      rw [hstore]
    · rw [hS.storeBlock_stored i]
  simp [commitAcceptedBlocks, hselect, hhashes, hstate, hresult, Except.map]

end Storable

/-! ## What a network does without another proposal -/

variable (R) in
/-- Nothing is on its way but the round and its block. -/
structure Sound (w : Network B.σ n) : Prop where
  address : ∀ i, (w.nodes i).address = R.address i
  rounds : ∀ i, RoundsOk (w.nodes i).consensus
  logs : ∀ i, LogsHold (· = R.blk) (w.nodes i).consensus
  sends : ∀ x ∈ w.inFlight, (∃ i cmsg, R.Sends i x.2 cmsg) ∨ x.2.payload = .newBlock R.blk
  events : ∀ x ∈ w.pending, x.2.block = some R.blk
  chains : ∀ i, (w.nodes i).chain = R.chain i ∨ (w.nodes i).chain = R.stored i

variable (R) in
/-- Node `i` has committed the block: its rounds are gone, the block is stored and on its way
    to everyone. -/
def commitAt (w : Network B.σ n) (i : Fin n) (committed : List (Committed n)) : Network B.σ n :=
  Network.broadcast { (w.setConsensus i (w.nodes i).consensus.prune []).setChain i (R.stored i) with
    committed := committed } i (.newBlock R.blk)

variable (R) in
/-- Every node has the block, or it is on its way there. -/
def Spread (w : Network B.σ n) : Prop :=
  ∀ j, (w.nodes j).chain = R.stored j
    ∨ ∃ i, i ≠ j ∧ (j, ⟨R.address i, .newBlock R.blk⟩) ∈ w.inFlight

namespace Sound

variable {w : Network B.σ n} {i j : Fin n}

/-- One node goes on, and nothing is sent. -/
theorem update (hw : R.Sound w) {node : Node B.σ} (haddress : node.address = R.address j)
    (hrounds : RoundsOk node.consensus) (hlogs : LogsHold (· = R.blk) node.consensus)
    (hchain : node.chain = R.chain j ∨ node.chain = R.stored j) :
    R.Sound { w with nodes := Function.update w.nodes j node } where
  address := (Function.forall_update_iff w.nodes fun i node => node.address = R.address i).mpr
    ⟨haddress, fun i _ => hw.address i⟩
  rounds := (Function.forall_update_iff w.nodes fun _ node => RoundsOk node.consensus).mpr
    ⟨hrounds, fun i _ => hw.rounds i⟩
  logs := (Function.forall_update_iff w.nodes fun _ node =>
    LogsHold (· = R.blk) node.consensus).mpr ⟨hlogs, fun i _ => hw.logs i⟩
  sends := hw.sends
  events := hw.events
  chains := (Function.forall_update_iff w.nodes fun i node =>
    node.chain = R.chain i ∨ node.chain = R.stored i).mpr ⟨hchain, fun i _ => hw.chains i⟩

theorem setConsensus (hw : R.Sound w) {cm : ConsensusManager} {pubs : List NewState}
    (hrounds : RoundsOk cm) (hlogs : LogsHold (· = R.blk) cm)
    (hpubs : ∀ ev ∈ pubs, ev.block = some R.blk) : R.Sound (w.setConsensus j cm pubs) := by
  have hnode : R.Sound { w with
      nodes := Function.update w.nodes j { w.nodes j with consensus := cm } } :=
    hw.update (hw.address j) hrounds hlogs (hw.chains j)
  refine { hnode with events := ?_ }
  intro x hx
  rcases List.mem_append.mp hx with hold | hnew
  · exact hw.events x hold
  · obtain ⟨ev, hev, rfl⟩ := List.mem_map.mp hnew
    exact hpubs ev hev

theorem nodes_setChain (w : Network B.σ n) (j : Fin n) (s : B.σ) (i : Fin n) :
    (w.setChain j s).nodes i = if i = j then { w.nodes j with chain := s } else w.nodes i :=
  Function.update_apply ..

theorem setChain (hw : R.Sound w) : R.Sound (w.setChain j (R.stored j)) :=
  hw.update (hw.address j) (hw.rounds j) (hw.logs j) (.inr rfl)

theorem broadcast (hw : R.Sound w) {payload : Payload}
    (hpayload : (∃ i cmsg, R.Sends i ⟨R.address j, payload⟩ cmsg) ∨ payload = .newBlock R.blk) :
    R.Sound (w.broadcast j payload) := by
  refine ⟨hw.address, hw.rounds, hw.logs, ?_, hw.events, hw.chains⟩
  intro x hx
  rcases List.mem_append.mp hx with hold | hnew
  · exact hw.sends x hold
  · obtain ⟨k, -, rfl⟩ := List.mem_map.mp hnew
    rw [hw.address]
    exact hpayload

/-- Messages and events may get lost. -/
theorem drop (hw : R.Sound w) {inFlight : List (Fin n × PubSubMessage)}
    {pending : List (Fin n × NewState)} (hinFlight : inFlight ⊆ w.inFlight)
    (hpending : pending ⊆ w.pending) :
    R.Sound { w with inFlight := inFlight, pending := pending } :=
  ⟨hw.address, hw.rounds, hw.logs, fun x hx => hw.sends x (hinFlight hx),
    fun x hx => hw.events x (hpending hx), hw.chains⟩

/-- What a node does with a message of the round. -/
theorem consensusMessage (hw : R.Sound w) {message : PubSubMessage} {cm : ConsensusManager}
    {pubs : List NewState}
    (hmessage : ∀ b, message.payload = .prePrepare (some b) → b = R.blk)
    (h : handleConsensusMessage B.db o (w.nodes j).address (w.nodes j).chain message
      (w.nodes j).consensus = .ok (cm, pubs)) : R.Sound (w.setConsensus j cm pubs) := by
  simp only [handleConsensusMessage, bind_eq_ok] at h
  obtain ⟨admittedMsg, hadmitted, h⟩ := h
  cases admittedMsg with
  | none =>
      obtain ⟨rfl, rfl⟩ := Prod.mk.inj (Except.ok.inj h)
      exact hw.setConsensus (hw.rounds j) (hw.logs j) (by simp)
  | some cmsg =>
      have hbuilt := built_of_admitted hadmitted
      have hblock : ∀ b, cmsg.block = some b → b = R.blk := by
        intro b hb
        cases admits_of_admitted hadmitted with
        | prePrepare fromPeer b' hd hforeign hheader hproposer hvalid =>
            obtain rfl := Option.some.inj hb
            exact hmessage b' rfl
        | prepare fromPeer hash signature hforeign => cases hb
        | commit fromPeer hash signature hforeign => cases hb
      obtain ⟨hlogs, hpubs⟩ := (hw.logs j).insert ((hw.rounds j).round _) hbuilt hblock h
      apply hw.setConsensus ((hw.rounds j).insert hbuilt (proposable_of_admitted hadmitted) h) hlogs
      intro ev hev
      obtain ⟨b, hb, rfl⟩ := hpubs ev hev
      exact hb

theorem eq_blk_of_newBlock {message : PubSubMessage} {block : Block}
    (hmessage : (∃ i cmsg, R.Sends i message cmsg) ∨ message.payload = .newBlock R.blk)
    (hpayload : message.payload = .newBlock block) : block = R.blk := by
  rcases hmessage with ⟨i, cmsg, hsends⟩ | hnew
  · cases hsends <;> cases hpayload
  · exact Payload.newBlock.inj (hpayload.symm.trans hnew)

/-- A message of the round or of its block arrives. -/
theorem handleMessage (hS : R.Storable) (hw : R.Sound w) {message : PubSubMessage}
    (hmessage : (∃ i cmsg, R.Sends i message cmsg) ∨ message.payload = .newBlock R.blk) :
    R.Sound (w.handleMessage B.db o j message) := by
  unfold Network.handleMessage
  split
  · next block hpayload =>
      obtain rfl := eq_blk_of_newBlock hmessage hpayload
      split
      · exact hw
      · rw [hS.state_storeBlock j (hw.chains j)]
        exact hw.setChain
  · split
    · next cm pubs hhandled =>
        apply hw.consensusMessage _ hhandled
        intro b hpayload
        rcases hmessage with ⟨i, cmsg, hsends⟩ | hnew
        · cases hsends with
          | prePrepare =>
              exact (Option.some.inj (Payload.prePrepare.inj hpayload)).symm
          | prepare => cases hpayload
          | commit => cases hpayload
        · rw [hnew] at hpayload
          cases hpayload
    · exact hw

theorem deliver (hS : R.Storable) (hw : R.Sound w) (k : Nat) : R.Sound (w.deliver B.db o k) := by
  unfold Network.deliver
  split
  · exact hw
  · next j message hk =>
      have hdropped := hw.drop (List.eraseIdx_subset (k := k)) (List.Subset.refl w.pending)
      exact hdropped.handleMessage hS (hw.sends (j, message) (List.mem_of_getElem? hk))

theorem handleNewState (hw : R.Sound w) (k : Nat) : R.Sound (w.handleNewState sign k) := by
  unfold Network.handleNewState
  split
  · exact hw
  · next i ev hk =>
      have hdropped := hw.drop (List.Subset.refl w.inFlight) (List.eraseIdx_subset (k := k))
      dsimp only
      split
      · next payload hvote =>
          apply hdropped.broadcast
          left
          obtain ⟨b, hd, signature, hblock, hheader, hsign, hpayload⟩ := onNewState_eq_some hvote
          have hev := hw.events (i, ev) (List.mem_of_getElem? hk)
          obtain rfl : b = R.blk := Option.some.inj (hblock.symm.trans hev)
          obtain rfl : hd = R.hd := Option.some.inj (hheader.symm.trans R.header_eq)
          obtain rfl : signature = R.sig i := Except.ok.inj (hsign.symm.trans (R.signs i))
          rcases hpayload with ⟨-, rfl⟩ | ⟨-, rfl⟩
          · exact ⟨i, _, .prepare i⟩
          · exact ⟨i, _, .commit i⟩
      · exact hdropped
      · exact hdropped

/-- The blocks of committed rounds are the block of the round. -/
theorem block_eq_of_mem (hw : R.Sound w) {ci : ConsensusInfo}
    (hci : ci ∈ (w.nodes i).consensus.getAllBlocksWithCommit) : ci.block = some R.blk := by
  obtain ⟨hmem, hstate⟩ := List.mem_filter.mp hci
  obtain ⟨⟨key, ci'⟩, hentry, rfl⟩ := List.mem_map.mp hmem
  obtain ⟨r, hr, -⟩ := exists_committedRound (hw.rounds i) (AList.mem_lookup_iff.mpr hentry)
    (of_decide_eq_true hstate)
  have hblock := r.block_eq
  rw [hr] at hblock
  rw [hblock, (hw.logs i).of_round (hw.rounds i) hci hblock]

theorem proposeAt (hw : R.Sound w) : R.Sound (w.proposeAt R.proposer R.blk) := by
  unfold Network.proposeAt
  split
  · next cm pubs payload hpropose =>
      obtain ⟨hlogs, hpubs⟩ := (hw.logs _).propose (hw.rounds _) rfl hpropose
      have hproposable : R.blk.Proposable := proposable_of_validateBlock (R.validates R.proposer)
      have hrounds := (hw.rounds _).propose hproposable hpropose
      have hpayload : payload = .prePrepare (some R.blk) := by
        simp only [propose, bind_eq_ok, pure_eq_ok_iff, Prod.mk.injEq] at hpropose
        obtain ⟨-, -, -, -, -, -, rfl⟩ := hpropose
        rfl
      have hset : R.Sound (w.setConsensus R.proposer cm pubs) := by
        apply hw.setConsensus hrounds hlogs
        intro ev hev
        obtain ⟨b, hb, rfl⟩ := hpubs ev hev
        exact hb
      apply hset.broadcast
      rw [hpayload]
      exact .inl ⟨R.proposer, _, .prePrepare⟩
  · exact hw

/-- The block reaches a chain in a message of somebody else, and stays. -/
theorem chain_handleMessage (hS : R.Storable) (hw : R.Sound w) {message : PubSubMessage}
    (hmessage : (∃ i cmsg, R.Sends i message cmsg) ∨ message.payload = .newBlock R.blk)
    (i : Fin n) : ((w.handleMessage B.db o j message).nodes i).chain
      = if i = j ∧ message.payload = .newBlock R.blk ∧ message.fromPeer ≠ (w.nodes j).address
        then R.stored i else (w.nodes i).chain := by
  unfold Network.handleMessage
  split
  · next block hpayload =>
      obtain rfl := eq_blk_of_newBlock hmessage hpayload
      by_cases hown : message.fromPeer = (w.nodes j).address
      · rw [if_pos hown, if_neg (fun h => h.2.2 hown)]
      · rw [if_neg hown, nodes_setChain, hS.state_storeBlock j (hw.chains j)]
        by_cases hij : i = j
        · rw [if_pos hij, if_pos ⟨hij, hpayload, hown⟩, hij]
        · rw [if_neg hij, if_neg (fun h => hij h.1)]
  · next hother =>
      rw [if_neg (fun h => hother R.blk h.2.1)]
      split
      · rw [Network.nodes_setConsensus]
        split
        · next hij => rw [hij]
        · rfl
      · rfl

/-- A beacon entry finds no committed round, or the node stores the block and sends it out. -/
theorem onNewBeaconEntry_cases (hS : R.Storable) (hw : R.Sound w) {blocks : List ConsensusInfo}
    (hperm : blocks.Perm (w.nodes i).consensus.getAllBlocksWithCommit) :
    (blocks = [] ∧ w.onNewBeaconEntry B.db o i blocks none = w)
      ∨ ∃ committed, w.onNewBeaconEntry B.db o i blocks none = R.commitAt w i committed := by
  by_cases hne : blocks = []
  · left
    refine ⟨hne, ?_⟩
    subst hne
    simp [Network.onNewBeaconEntry, Network.commitAt, commitAcceptedBlocks, selectBlock_nil,
      Network.proposeMined, Network.setConsensus, Network.setChain]
  · right
    obtain ⟨hresult, hconsensus, hchain⟩ := hS.commitAcceptedBlocks_eq i hne
      (fun ci hci => hw.block_eq_of_mem (hperm.mem_iff.mp hci)) (w.nodes i).consensus (hw.chains i)
    refine ⟨w.committed ++ w.commitRecord B.db o i R.blk, ?_⟩
    simp only [Network.onNewBeaconEntry, Network.commitAt, hresult, hconsensus, hchain,
      Network.proposeMined, HonestRound.commitAt]

theorem commitAt (hw : R.Sound w) (i : Fin n) (committed : List (Committed n)) :
    R.Sound (R.commitAt w i committed) := by
  have hpruned : R.Sound (w.setConsensus i (w.nodes i).consensus.prune []) :=
    hw.setConsensus (roundsOk_of_empty rfl) (logsHold_of_empty rfl) (by simp)
  have hstored : R.Sound { (w.setConsensus i (w.nodes i).consensus.prune []).setChain i
      (R.stored i) with committed := committed } :=
    { hpruned.setChain with }
  exact hstored.broadcast (.inr rfl)

end Sound

/-! ## How the block spreads -/

namespace Spread

variable {w w' : Network B.σ n}

/-- What is stored stays, and what is on its way arrives or stays there. -/
theorem of_keeps (h : R.Spread w)
    (hstored : ∀ j, (w.nodes j).chain = R.stored j → (w'.nodes j).chain = R.stored j)
    (hflight : ∀ i j, i ≠ j → (j, ⟨R.address i, .newBlock R.blk⟩) ∈ w.inFlight →
      (w'.nodes j).chain = R.stored j ∨ (j, ⟨R.address i, .newBlock R.blk⟩) ∈ w'.inFlight) :
    R.Spread w' := by
  intro j
  rcases h j with hchain | ⟨i, hne, hmem⟩
  · exact .inl (hstored j hchain)
  · rcases hflight i j hne hmem with hchain | hmem'
    · exact .inl hchain
    · exact .inr ⟨i, hne, hmem'⟩

theorem inFlight_handleMessage (w : Network B.σ n) (j : Fin n) (message : PubSubMessage) :
    (w.handleMessage B.db o j message).inFlight = w.inFlight := by
  unfold Network.handleMessage
  split
  · split
    · rfl
    · rfl
  · split
    · rfl
    · rfl

theorem deliver (h : R.Spread w) (hS : R.Storable) (hw : R.Sound w) (k : Nat) :
    R.Spread (w.deliver B.db o k) := by
  unfold Network.deliver
  split
  · exact h
  · next j message hk =>
      have hdropped := hw.drop (List.eraseIdx_subset (k := k)) (List.Subset.refl w.pending)
      have hmessage := hw.sends (j, message) (List.mem_of_getElem? hk)
      have hchain := hdropped.chain_handleMessage (j := j) hS hmessage
      apply h.of_keeps
      · intro i hstored
        rw [hchain]
        split
        · rfl
        · exact hstored
      · intro i j' hne hmem
        rcases Lists.mem_eraseIdx_or_eq hmem hk with hthis | hmem
        · -- this is the message that has arrived
          obtain ⟨rfl, rfl⟩ := Prod.mk.inj hthis
          have hother : R.address i ≠ (w.nodes j').address := by
            rw [hw.address]
            exact fun heq => hne (R.address_inj heq)
          left
          rw [hchain, if_pos ⟨rfl, rfl, hother⟩]
        · right
          rw [inFlight_handleMessage]
          exact hmem

theorem handleNewState (h : R.Spread w) (k : Nat) : R.Spread (w.handleNewState sign k) := by
  unfold Network.handleNewState
  split
  · exact h
  · dsimp only
    split
    · apply h.of_keeps
      · exact fun j hchain => hchain
      · exact fun i j hne hmem => .inr (List.mem_append_left _ hmem)
    · exact h
    · exact h

/-- The node that stores the block sends it to all the others. -/
theorem commitAt (hw : R.Sound w) (i : Fin n) (committed : List (Committed n)) :
    R.Spread (R.commitAt w i committed) := by
  have hnode : (R.commitAt w i committed).nodes i
      = ⟨R.address i, (w.nodes i).consensus.prune, R.stored i⟩ := by
    show ((w.setConsensus i _ []).setChain i _).nodes i = _
    rw [Sound.nodes_setChain, if_pos rfl, Network.nodes_setConsensus, if_pos rfl, ← hw.address]
  intro j
  by_cases hij : j = i
  · left
    rw [hij, hnode]
  · right
    refine ⟨i, fun heq => hij heq.symm, List.mem_append_right _ ?_⟩
    refine List.mem_map.mpr ⟨j, List.mem_finRange j, ?_⟩
    show (j, (⟨((R.commitAt w i committed).nodes i).address, _⟩ : PubSubMessage)) = _
    rw [hnode]

theorem chain_of_empty (h : R.Spread w) (hf : w.inFlight = []) (j : Fin n) :
    (w.nodes j).chain = R.stored j := by
  rcases h j with hchain | ⟨i, -, hmem⟩
  · exact hchain
  · rw [hf] at hmem
    cases hmem

end Spread

end HonestRound

/-! ## Runs without another proposal -/

/-- Deliveries of messages and of events, and beacon entries after which nothing is mined. -/
def NetEvent.MinesNothing {n : Nat} : NetEvent n → Prop
  | .deliver _ | .newState _ | .beacon _ _ none => True
  | .propose .. | .beacon _ _ (some _) => False

/-- Deliveries of all messages in flight, the oldest first. -/
def Network.deliverAll {σ : Type} {n : Nat} (w : Network σ n) : List (NetEvent n) :=
  List.replicate w.inFlight.length (.deliver 0)

namespace HonestRound

variable {B : Backend} {o : Oracles} {n : Nat} {sign : Fin n → Bytes → Except Err Bytes}
  {R : HonestRound B.db o n sign} {w : Network B.σ n} {e : NetEvent n}

/-- What an event does to a network of the round. -/
theorem Sound.step_cases (hS : R.Storable) (hw : R.Sound w) (he : e.MinesNothing) :
    (∃ k, w.step B.db o sign e = w.deliver B.db o k)
      ∨ (∃ k, w.step B.db o sign e = w.handleNewState sign k)
      ∨ w.step B.db o sign e = w
      ∨ ∃ i committed, w.step B.db o sign e = R.commitAt w i committed := by
  match e, he with
  | .deliver k, _ => exact .inl ⟨k, rfl⟩
  | .newState k, _ => exact .inr (.inl ⟨k, rfl⟩)
  | .beacon i blocks none, _ =>
      by_cases hperm : blocks.Perm (w.nodes i).consensus.getAllBlocksWithCommit
      · rw [Network.step, if_pos hperm]
        rcases hw.onNewBeaconEntry_cases hS hperm with ⟨-, heq⟩ | ⟨committed, heq⟩
        · exact .inr (.inr (.inl heq))
        · exact .inr (.inr (.inr ⟨i, committed, heq⟩))
      · rw [Network.step, if_neg hperm]
        exact .inr (.inr (.inl rfl))

theorem Sound.step (hS : R.Storable) (hw : R.Sound w) (he : e.MinesNothing) :
    R.Sound (w.step B.db o sign e) := by
  rcases hw.step_cases hS he with ⟨k, heq⟩ | ⟨k, heq⟩ | heq | ⟨i, committed, heq⟩ <;> rw [heq]
  · exact hw.deliver hS k
  · exact hw.handleNewState k
  · exact hw
  · exact hw.commitAt i committed

theorem Spread.step (h : R.Spread w) (hS : R.Storable) (hw : R.Sound w) (he : e.MinesNothing) :
    R.Spread (w.step B.db o sign e) := by
  rcases hw.step_cases hS he with ⟨k, heq⟩ | ⟨k, heq⟩ | heq | ⟨i, committed, heq⟩ <;> rw [heq]
  · exact h.deliver hS hw k
  · exact h.handleNewState k
  · exact h
  · exact .commitAt hw i committed

/-- The round goes on as it did, or a beacon entry has found it committed. -/
theorem Live.step_or (hl : R.Live w) (hS : R.Storable) (hw : R.Sound w) (he : e.MinesNothing) :
    R.Live (w.step B.db o sign e) ∨ R.Spread (w.step B.db o sign e) := by
  rcases hw.step_cases hS he with ⟨k, heq⟩ | ⟨k, heq⟩ | heq | ⟨i, committed, heq⟩ <;> rw [heq]
  · exact .inl (hl.deliver k)
  · exact .inl (hl.handleNewState k)
  · exact .inl hl
  · exact .inr (.commitAt hw i committed)

theorem sound_proposed (hS : R.Storable) : R.Sound R.proposed := by
  have hstart : R.Sound R.start :=
    { address := fun _ => rfl
      rounds := fun i => roundsOk_of_empty (hS.idle i)
      logs := fun i => logsHold_of_empty (hS.idle i)
      sends := by simp [start]
      events := by simp [start]
      chains := fun _ => .inl rfl }
  exact hstart.proposeAt

/-- The invariant of a run: the round is under way, or its block is. -/
theorem ongoing_exec (hS : R.Storable) {evs : List (NetEvent n)}
    (hevs : ∀ e ∈ evs, e.MinesNothing) :
    R.Sound (Run.exec (Network.step B.db o sign) R.proposed evs)
      ∧ (R.Live (Run.exec (Network.step B.db o sign) R.proposed evs)
        ∨ R.Spread (Run.exec (Network.step B.db o sign) R.proposed evs)) := by
  refine (Run.always_of_stepsMeet (I := fun w => R.Sound w ∧ (R.Live w ∨ R.Spread w)) ?_
    ⟨sound_proposed hS, .inl R.live_proposed⟩ (Run.stepsMeet_of_forall hevs)).final
  rintro w e ⟨hw, hl | hspread⟩ he
  · exact ⟨hw.step hS he, hl.step_or hS hw he⟩
  · exact ⟨hw.step hS he, .inr (hspread.step hS hw he)⟩

theorem Spread.exec (h : R.Spread w) (hS : R.Storable) (hw : R.Sound w)
    {evs : List (NetEvent n)} (hevs : ∀ e ∈ evs, e.MinesNothing) :
    R.Spread (Run.exec (Network.step B.db o sign) w evs) := by
  refine (Run.always_of_stepsMeet (I := fun w => R.Sound w ∧ R.Spread w) ?_ ⟨hw, h⟩
    (Run.stepsMeet_of_forall hevs)).final.2
  rintro w e ⟨hw, h⟩ he
  exact ⟨hw.step hS he, h.step hS hw he⟩

theorem inFlight_deliverAll (w : Network B.σ n) :
    (Run.exec (Network.step B.db o sign) w w.deliverAll).inFlight = [] := by
  unfold Network.deliverAll
  induction hlength : w.inFlight.length generalizing w with
  | zero => exact List.length_eq_zero_iff.mp hlength
  | succ k ih =>
      obtain ⟨⟨j, message⟩, rest, hflight⟩ := List.exists_cons_of_length_eq_add_one hlength
      -- a delivery sends nothing itself: what it publishes waits in `pending`
      have hstep : (w.step B.db o sign (.deliver 0)).inFlight = rest := by
        simp only [Network.step, Network.deliver, hflight, List.getElem?_cons_zero,
          Spread.inFlight_handleMessage, List.eraseIdx_cons_zero]
      rw [List.replicate_succ, Run.exec_cons]
      apply ih
      rw [hstep]
      rw [hflight, List.length_cons] at hlength
      omega

theorem getAllBlocksWithCommit_ne_nil {cm : ConsensusManager} {hash : Bytes}
    (h : cm.stateOf hash = .commited) : cm.getAllBlocksWithCommit ≠ [] := by
  unfold stateOf at h
  split at h
  · next ci hci =>
      refine List.ne_nil_of_mem (a := ci) (List.mem_filter.mpr ⟨?_, decide_eq_true h⟩)
      exact List.mem_map.mpr ⟨⟨_, ci⟩, AList.mem_lookup_iff.mp hci, rfl⟩
  · cases h

/-- The beacon entry of a node where the round has been committed. -/
theorem spread_beaconAt (hS : R.Storable) (hw : R.Sound w) {i : Fin n}
    (hstate : R.state w i = .commited) :
    R.Sound (w.step B.db o sign (.beaconAt w i)) ∧
      R.Spread (w.step B.db o sign (.beaconAt w i)) := by
  refine ⟨hw.step hS trivial, ?_⟩
  rw [NetEvent.beaconAt, Network.step, if_pos (.refl _)]
  rcases hw.onNewBeaconEntry_cases hS (.refl _) with ⟨hnil, -⟩ | ⟨committed, heq⟩
  · exact absurd hnil (getAllBlocksWithCommit_ne_nil hstate)
  · rw [heq]
    exact .commitAt hw i committed

end HonestRound

/-- In every order of deliveries and beacon entries after the proposal, a network that has
    gone quiet either has the block on top at every node, or at none and committed at all.
    Then the next beacon entry of any node is enough: whatever is delivered after it, and
    whatever beacon entries arrive, the block is on top at every node once the messages in
    flight are delivered. -/
theorem round_completes {B : Backend} {o : Oracles} {n : Nat}
    {sign : Fin n → Bytes → Except Err Bytes} (R : HonestRound B.db o n sign) (hS : R.Storable)
    (hpos : 1 ≤ R.minApprovals.toInt) (hmax : R.minApprovals.toInt ≤ (n : Int) - 1)
    {evs : List (NetEvent n)} (hevs : ∀ e ∈ evs, e.MinesNothing) {w : Network B.σ n}
    (hw : Run.exec (Network.step B.db o sign) R.proposed evs = w) (hf : w.inFlight = [])
    (hp : w.pending = []) :
    (∀ j, R.OnTop j (w.nodes j).chain) ∨
    ((∀ j, (w.nodes j).chain = R.chain j ∧ (w.nodes j).consensus.stateOf R.hd.hash = .commited) ∧
      ∀ i evs', (∀ e ∈ evs', e.MinesNothing) → ∀ w',
        Run.exec (Network.step B.db o sign) w (.beaconAt w i :: evs') = w' →
        ∀ j, R.OnTop j
          ((Run.exec (Network.step B.db o sign) w' w'.deliverAll).nodes j).chain) := by
  obtain ⟨hsound, hlive | hspread⟩ := HonestRound.ongoing_exec hS hevs
  · -- no beacon entry has found the round committed so far
    rw [hw] at hsound hlive
    have hstate : ∀ j, R.state w j = .commited := hlive.commited_of_quiet hf hp hpos hmax
    right
    refine ⟨fun j => ⟨hlive.chain j, hstate j⟩, ?_⟩
    rintro i evs' hevs' w' rfl j
    obtain ⟨hsound', hspread'⟩ := HonestRound.spread_beaconAt hS hsound (hstate i)
    have hall : ∀ e ∈ evs' ++ (Run.exec (Network.step B.db o sign)
        (w.step B.db o sign (.beaconAt w i)) evs').deliverAll, e.MinesNothing := by
      intro e he
      rcases List.mem_append.mp he with he | he
      · exact hevs' e he
      · rw [List.eq_of_mem_replicate he]
        trivial
    have hend := hspread'.exec hS hsound' hall
    rw [Run.exec_append] at hend
    rw [Run.exec_cons, hend.chain_of_empty (HonestRound.inFlight_deliverAll _) j]
    exact hS.onTop_stored j
  · -- one has, and what it sent has arrived
    rw [hw] at hspread
    left
    intro j
    rw [hspread.chain_of_empty hf j]
    exact hS.onTop_stored j

/-- The round of `twoNodes`, over the backend. -/
def memoryRound : HonestRound Memory.backend.db .permissive 2 fun _ h => .ok h := twoNodes

theorem storable_memoryRound : memoryRound.Storable where
  idle _ := rfl
  wf _ := (genesisChain_spec Memory.backend).1
  storable := trivial
  unseen i := by
    show (Memory.backend.view (genesisChain Memory.backend)).byHash _ = none
    rw [(genesisChain_spec Memory.backend).2]
    decide
  higher i latest hlatest := by
    have hview : (Memory.backend.view (genesisChain Memory.backend)).latest = some latest := hlatest
    rw [(genesisChain_spec Memory.backend).2] at hview
    cases hview
    decide

/-- `memoryRound` after `twoNodesRun`. -/
def memoryQuiet : Network Memory.backend.σ 2 :=
  Run.exec (Network.step Memory.backend.db .permissive fun _ h => .ok h) memoryRound.proposed
    twoNodesRun

/-- `memoryQuiet` after the beacon entry of the first node. -/
def memorySpread : Network Memory.backend.σ 2 :=
  Run.exec (Network.step Memory.backend.db .permissive fun _ h => .ok h) memoryQuiet
    [.beaconAt memoryQuiet firstNode]

/-- The beacon entry of the first node brings the block to the second one. -/
theorem round_completes_memoryRound :
    ¬ memoryRound.OnTop secondNode (memoryQuiet.nodes secondNode).chain ∧
      memoryRound.OnTop secondNode
        ((Run.exec (Network.step Memory.backend.db .permissive fun _ h => .ok h)
          memorySpread memorySpread.deliverAll).nodes secondNode).chain := by
  have hhead : headOf Memory.backend.db (memoryQuiet.nodes secondNode).chain
      ≠ .ok memoryRound.hd := by decide +kernel
  refine ⟨fun hontop => hhead hontop.head_eq, ?_⟩
  rcases round_completes memoryRound storable_memoryRound (by decide) (by decide)
    (by simp [twoNodesRun, NetEvent.MinesNothing]) (w := memoryQuiet) rfl (by decide +kernel)
    (by decide +kernel) with hontop | ⟨-, hcompletes⟩
  · exact absurd (hontop secondNode).head_eq hhead
  · exact hcompletes firstNode [] (by simp) memorySpread rfl secondNode

end Dione.Consensus
