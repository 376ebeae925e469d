/-
  Dione.Consensus.Progress

  No stuck round: when the messages and events of one honest round have all been
  delivered, every node has committed the block.

  The invariant `Live` says that nothing gets lost: the PrePrepare is in flight
  to a node or in its log; the vote a node owes for a phase it has entered is
  announced by a pending event, or it is in flight to each other node or in that
  node's log.  With nothing in flight and nothing pending, every log holds the
  PrePrepare and the votes of all the others, and that is enough for the quorums:
  the proposer sees `n - 1` Prepares, the other nodes `n - 2`, and everyone sees
  `n - 1` Commits.
-/

import Dione.Blockchain.Integrity
import Dione.Consensus.Network
import Dione.Lib.Lists
import Mathlib.Data.Fintype.Card

namespace Dione.Consensus

open Guard BlockChain ConsensusManager

/-! ## An honest round -/

/-- A round among `n` honest nodes: one node proposes a block that every node
    validates, and every node's signature on its hash verifies. -/
structure HonestRound {σ : Type} (db : Database σ) (o : Oracles) (n : Nat)
    (sign : Fin n → Bytes → Except Err Bytes) where
  address : Fin n → PeerID
  manager : Fin n → ConsensusManager
  chain : Fin n → σ
  proposer : Fin n
  blk : Block
  hd : BlockHeader
  sig : Fin n → Bytes
  minApprovals : Int64
  address_inj : Function.Injective address
  header_eq : blk.header = some hd
  proposer_eq : hd.proposer = some (address proposer)
  manager_fresh : ∀ i, (manager i).info hd.hash = none
  manager_minApprovals : ∀ i, (manager i).minApprovals = minApprovals
  validates : ∀ i, validateBlock db o blk (chain i) = .ok ()
  signs : ∀ i, sign i hd.hash = .ok (sig i)
  verifies : ∀ i, ∃ pk, o.extractPublicKey (address i) = .ok pk ∧
    o.verify pk hd.hash (sig i) = .ok true

namespace HonestRound

variable {σ : Type} {db : Database σ} {o : Oracles} {n : Nat}
  {sign : Fin n → Bytes → Except Err Bytes} (R : HonestRound db o n sign)

/-- The network before the round. -/
def start : Network σ n := ⟨fun i => ⟨R.address i, R.manager i, R.chain i⟩, [], [], []⟩

/-- The network right after the proposal. -/
def proposed : Network σ n := R.start.step db o sign (.propose R.proposer R.blk)

/-- The proposer's entry in the logs. -/
def prePrepareMsg : ConsensusMessage :=
  ⟨.prePrepare, R.hd.hash, [], some R.blk, R.address R.proposer⟩

/-- Node `i`'s vote in the logs. -/
def voteMsg (typ : MessageType) (i : Fin n) : ConsensusMessage :=
  ⟨typ, R.hd.hash, R.sig i, none, R.address i⟩

/-- The messages of the round: node `i` sends `message`, which the others log as
    `cmsg`. -/
inductive Sends : Fin n → PubSubMessage → ConsensusMessage → Prop
  | prePrepare : Sends R.proposer ⟨R.address R.proposer, .prePrepare (some R.blk)⟩
      R.prePrepareMsg
  | prepare (i : Fin n) : Sends i ⟨R.address i, .prepare R.hd.hash (R.sig i)⟩
      (R.voteMsg .prepare i)
  | commit (i : Fin n) : Sends i ⟨R.address i, .commit R.hd.hash (R.sig i)⟩
      (R.voteMsg .commit i)

variable {R} {i j : Fin n} {message : PubSubMessage} {cmsg : ConsensusMessage}

theorem Sends.fromPeer (h : R.Sends i message cmsg) : message.fromPeer = R.address i := by
  cases h <;> rfl

theorem Sends.built (h : R.Sends i message cmsg) : Built R.hd.hash cmsg := by
  cases h with
  | prePrepare => exact ⟨rfl, R.blk, R.hd, rfl, R.header_eq, rfl⟩
  | prepare => exact ⟨rfl, rfl⟩
  | commit => exact ⟨rfl, rfl⟩

theorem Sends.block_eq (h : R.Sends i message cmsg) (htyp : cmsg.type = .prePrepare) :
    cmsg.block = some R.blk := by
  cases h with
  | prePrepare => rfl
  | prepare => cases htyp
  | commit => cases htyp

/-- A node drops its own messages. -/
theorem Sends.admitted_self (h : R.Sends i message cmsg) :
    admitted db o (R.address i) (R.chain i) message = .ok none := by
  rw [admitted, if_pos h.fromPeer]

theorem checkSignature_voteMsg (typ : MessageType) (i : Fin n) :
    checkSignatureForBlockhash o (R.voteMsg typ i) = true := by
  obtain ⟨pk, hpk, hver⟩ := R.verifies i
  simp [checkSignatureForBlockhash, voteMsg, hpk, hver]

/-- Every other node logs them. -/
theorem Sends.admitted_other (h : R.Sends i message cmsg) (hne : j ≠ i) :
    admitted db o (R.address j) (R.chain j) message = .ok (some cmsg) := by
  have haddr : R.address i ≠ R.address j := fun heq => hne (R.address_inj heq).symm
  rw [admitted, if_neg (h.fromPeer ▸ haddr)]
  cases h with
  | prePrepare =>
      simp [handlePrePrepare, R.header_eq, R.proposer_eq, haddr, valid, R.validates j,
        prePrepareMsg, pure, Except.pure]
  | prepare =>
      have hsig := checkSignature_voteMsg (R := R) .prepare i
      simp only [voteMsg] at hsig
      simp [handlePrepare, handleVote, valid, voteMsg, hsig, pure, Except.pure]
  | commit =>
      have hsig := checkSignature_voteMsg (R := R) .commit i
      simp only [voteMsg] at hsig
      simp [handleCommit, handleVote, valid, voteMsg, hsig, pure, Except.pure]

/-! ## Nothing gets lost -/

/-- The log of node `j` for the hash of the round. -/
def log (R : HonestRound db o n sign) (w : Network σ n) (j : Fin n) : MessageLog :=
  (w.nodes j).consensus.logOf R.hd.hash

/-- The state of the round at node `j`. -/
def state (R : HonestRound db o n sign) (w : Network σ n) (j : Fin n) : State :=
  (w.nodes j).consensus.stateOf R.hd.hash

/-- A message is in flight to node `j` or in its log. -/
def Reaches (R : HonestRound db o n sign) (w : Network σ n) (j : Fin n) (message : PubSubMessage)
    (cmsg : ConsensusMessage) : Prop :=
  (j, message) ∈ w.inFlight ∨ cmsg ∈ R.log w j

/-- The event of a phase is pending at node `i`, or the vote it calls for reaches
    every other node. -/
def Owes (R : HonestRound db o n sign) (w : Network σ n) (i : Fin n) (phase : State)
    (message : PubSubMessage) (cmsg : ConsensusMessage) : Prop :=
  (i, ⟨some R.blk, phase⟩) ∈ w.pending ∨ ∀ j, j ≠ i → R.Reaches w j message cmsg

/-- What does not depend on how far the round is. -/
structure Steady (R : HonestRound db o n sign) (w : Network σ n) : Prop where
  address : ∀ i, (w.nodes i).address = R.address i
  chain : ∀ i, (w.nodes i).chain = R.chain i
  minApprovals : ∀ i, (w.nodes i).consensus.minApprovals = R.minApprovals
  round : ∀ i, (w.nodes i).consensus.RoundOk R.hd.hash
  sends : ∀ x ∈ w.inFlight, ∃ i cmsg, R.Sends i x.2 cmsg
  blocks : ∀ i, ∀ x ∈ R.log w i, x.type = .prePrepare → x.block = some R.blk
  events : ∀ x ∈ w.pending, x.2.block = some R.blk

/-- The invariant of the round. -/
structure Live (R : HonestRound db o n sign) (w : Network σ n) : Prop extends R.Steady w where
  proposal : ∀ j, (j ≠ R.proposer → R.Reaches w j
      ⟨R.address R.proposer, .prePrepare (some R.blk)⟩ R.prePrepareMsg) ∧
    (j = R.proposer → R.prePrepareMsg ∈ R.log w j)
  prepares : ∀ i, i ≠ R.proposer → 1 ≤ (R.state w i).rank →
    R.Owes w i .prePrepared ⟨R.address i, .prepare R.hd.hash (R.sig i)⟩ (R.voteMsg .prepare i)
  commits : ∀ i, 2 ≤ (R.state w i).rank →
    R.Owes w i .prepared ⟨R.address i, .commit R.hd.hash (R.sig i)⟩ (R.voteMsg .commit i)

/-- One step loses nothing. -/
structure Keeps (R : HonestRound db o n sign) (w w' : Network σ n) : Prop where
  logs : ∀ j, ∀ x ∈ R.log w j, x ∈ R.log w' j
  flight : ∀ {i message cmsg}, R.Sends i message cmsg → ∀ j, j ≠ i → (j, message) ∈ w.inFlight →
    R.Reaches w' j message cmsg
  entered : ∀ i, ∀ st ∈ phasesBetween (R.state w i) (R.state w' i),
    (i, ⟨some R.blk, st⟩) ∈ w'.pending
  prepares : ∀ i, i ≠ R.proposer → (i, ⟨some R.blk, .prePrepared⟩) ∈ w.pending →
    R.Owes w' i .prePrepared ⟨R.address i, .prepare R.hd.hash (R.sig i)⟩ (R.voteMsg .prepare i)
  commits : ∀ i, (i, ⟨some R.blk, .prepared⟩) ∈ w.pending →
    R.Owes w' i .prepared ⟨R.address i, .commit R.hd.hash (R.sig i)⟩ (R.voteMsg .commit i)

variable {w w' : Network σ n}

theorem Keeps.reaches (hk : R.Keeps w w') (hs : R.Sends i message cmsg) (hne : j ≠ i)
    (h : R.Reaches w j message cmsg) : R.Reaches w' j message cmsg := by
  rcases h with h | h
  · exact hk.flight hs j hne h
  · exact .inr (hk.logs j _ h)

/-- A vote that is owed stays owed until it is sent to everyone. -/
theorem Keeps.owes (hk : R.Keeps w w') {phase : State} (hs : R.Sends i message cmsg)
    (hpend : (i, ⟨some R.blk, phase⟩) ∈ w.pending → R.Owes w' i phase message cmsg)
    (h : R.Owes w i phase message cmsg) : R.Owes w' i phase message cmsg := by
  rcases h with h | hall
  · exact hpend h
  · exact .inr fun j hj => hk.reaches hs hj (hall j hj)

theorem Live.of_keeps (hl : R.Live w) (hsteady : R.Steady w') (hk : R.Keeps w w') :
    R.Live w' where
  toSteady := hsteady
  proposal j := by
    refine ⟨fun hne => ?_, fun heq => hk.logs j _ ((hl.proposal j).2 heq)⟩
    exact hk.reaches .prePrepare hne ((hl.proposal j).1 hne)
  prepares i hne hrank := by
    by_cases hwas : 1 ≤ (R.state w i).rank
    · exact hk.owes (.prepare i) (hk.prepares i hne) (hl.prepares i hne hwas)
    · -- the step entered the phase, so its event is pending now
      exact .inl (hk.entered i _ (mem_phasesBetween (by decide) (not_le.mp hwas) hrank))
  commits i hrank := by
    by_cases hwas : 2 ≤ (R.state w i).rank
    · exact hk.owes (.commit i) (hk.commits i) (hl.commits i hwas)
    · exact .inl (hk.entered i _ (mem_phasesBetween (by decide) (not_le.mp hwas) hrank))

/-! ## Deliveries -/

theorem Sends.unique {i' : Fin n} {cmsg' : ConsensusMessage} (h : R.Sends i message cmsg)
    (h' : R.Sends i' message cmsg') : i = i' ∧ cmsg = cmsg' := by
  have hi : i = i' := R.address_inj (h.fromPeer.symm.trans h'.fromPeer)
  subst hi
  cases h <;> cases h' <;> exact ⟨rfl, rfl⟩

/-- What a delivery may do to the manager of a node. -/
structure Grows (R : HonestRound db o n sign) (cm cm' : ConsensusManager)
    (pubs : List NewState) : Prop where
  minApprovals_eq : cm'.minApprovals = cm.minApprovals
  round : cm'.RoundOk R.hd.hash
  log : ∀ x ∈ cm.logOf R.hd.hash, x ∈ cm'.logOf R.hd.hash
  states : pubs.map NewState.state
    = phasesBetween (cm.stateOf R.hd.hash) (cm'.stateOf R.hd.hash)
  logBlocks : ∀ x ∈ cm'.logOf R.hd.hash, x.type = .prePrepare → x.block = some R.blk
  blocks : ∀ ev ∈ pubs, ev.block = some R.blk

/-- Only node `j` changes, and its manager grows. -/
theorem Steady.setConsensus (hs : R.Steady w) {cm : ConsensusManager} {pubs : List NewState}
    (hg : R.Grows (w.nodes j).consensus cm pubs) : R.Steady (w.setConsensus j cm pubs) := by
  have hnode := w.nodes_setConsensus j cm pubs
  refine ⟨?_, ?_, ?_, ?_, hs.sends, ?_, ?_⟩
  · intro i
    rw [hnode]
    split
    · next heq => exact heq ▸ hs.address j
    · exact hs.address i
  · intro i
    rw [hnode]
    split
    · next heq => exact heq ▸ hs.chain j
    · exact hs.chain i
  · intro i
    rw [hnode]
    split
    · exact hg.minApprovals_eq.trans (hs.minApprovals j)
    · exact hs.minApprovals i
  · intro i
    rw [hnode]
    split
    · exact hg.round
    · exact hs.round i
  · intro i
    rw [log, hnode]
    split
    · exact hg.logBlocks
    · exact hs.blocks i
  · intro x hx
    rcases List.mem_append.mp hx with hx | hx
    · exact hs.events x hx
    · obtain ⟨ev, hev, rfl⟩ := List.mem_map.mp hx
      exact hg.blocks ev hev

/-- The phases a node enters are announced on its bus. -/
theorem Grows.pending {cm : ConsensusManager} {pubs : List NewState}
    (hg : R.Grows (w.nodes j).consensus cm pubs) {st : State}
    (hst : st ∈ phasesBetween (R.state w j) (cm.stateOf R.hd.hash)) :
    (j, ⟨some R.blk, st⟩) ∈ (w.setConsensus j cm pubs).pending := by
  have hmem : st ∈ pubs.map NewState.state := by
    rw [hg.states]
    exact hst
  obtain ⟨⟨block, st'⟩, hev, rfl⟩ := List.mem_map.mp hmem
  have hblock : block = some R.blk := hg.blocks _ hev
  subst hblock
  exact List.mem_append_right _ (List.mem_map.mpr ⟨_, hev, rfl⟩)

/-- A message arrives: a node drops its own and logs the others'. -/
theorem deliver_eq (hs : R.Steady w) {k : Nat} (hk : w.inFlight[k]? = some (j, message))
    (hsend : R.Sends i message cmsg) :
    ∃ cm pubs, w.deliver db o k
        = Network.setConsensus { w with inFlight := w.inFlight.eraseIdx k } j cm pubs ∧
      R.Grows (w.nodes j).consensus cm pubs ∧ (j ≠ i → cmsg ∈ cm.logOf R.hd.hash) := by
  have hdel : ∀ cm pubs, handleConsensusMessage db o (R.address j) (R.chain j) message
      (w.nodes j).consensus = .ok (cm, pubs) → w.deliver db o k
        = Network.setConsensus { w with inFlight := w.inFlight.eraseIdx k } j cm pubs := by
    intro cm pubs hhandle
    rw [← hs.address, ← hs.chain] at hhandle
    rw [Network.deliver, hk]
    cases hsend <;> simp only [Network.handleMessage, hhandle]
  by_cases hji : j = i
  · subst hji
    -- an echo of the node's own broadcast
    refine ⟨(w.nodes j).consensus, [], hdel _ _ ?_, ⟨rfl, hs.round j, fun x hx => hx, ?_,
      hs.blocks j, by simp⟩, fun hne => absurd rfl hne⟩
    · rw [handleConsensusMessage, hsend.admitted_self]
      rfl
    · rw [phasesBetween_self]
      rfl
  · obtain ⟨cm, pubs, hins, hspec⟩ := insertOrWarn_spec (hs.round j) hsend.built
    have hlogs : ∀ x ∈ cm.logOf R.hd.hash, x.type = .prePrepare → x.block = some R.blk := by
      -- the only PrePrepare of the round carries its block
      intro x hx htyp
      rcases (hspec.mem_log x).mp hx with rfl | hx
      · exact hsend.block_eq htyp
      · exact hs.blocks j x hx htyp
    refine ⟨cm, pubs, hdel _ _ ?_, ⟨hspec.minApprovals_eq, hspec.round,
      fun x hx => (hspec.mem_log x).mpr (.inr hx), hspec.states, hlogs, ?_⟩,
      fun _ => (hspec.mem_log cmsg).mpr (.inl rfl)⟩
    · rw [handleConsensusMessage, hsend.admitted_other hji]
      simp [hins]
    · intro ev hev
      obtain ⟨x, hx, htyp, hblock⟩ := hspec.blocks ev hev
      exact hblock ▸ hlogs x hx htyp

theorem Steady.eraseInFlight (hs : R.Steady w) (k : Nat) :
    R.Steady { w with inFlight := w.inFlight.eraseIdx k } :=
  { hs with sends := fun x hx => hs.sends x (List.mem_of_mem_eraseIdx hx) }

theorem Live.deliver (hl : R.Live w) (k : Nat) : R.Live (w.deliver db o k) := by
  cases hk : w.inFlight[k]? with
  | none =>
      have heq : w.deliver db o k = w := by rw [Network.deliver, hk]
      rw [heq]
      exact hl
  | some x =>
      obtain ⟨j, message⟩ := x
      obtain ⟨i, cmsg, hsend⟩ := hl.sends _ (List.mem_of_getElem? hk)
      obtain ⟨cm, pubs, heq, hg, hlogged⟩ := deliver_eq hl.toSteady hk hsend
      rw [heq]
      have hnode :=
        Network.nodes_setConsensus { w with inFlight := w.inFlight.eraseIdx k } j cm pubs
      have hpend : ∀ x ∈ w.pending, x ∈ (Network.setConsensus
          { w with inFlight := w.inFlight.eraseIdx k } j cm pubs).pending := fun x hx =>
        List.mem_append_left _ hx
      refine hl.of_keeps ((hl.toSteady.eraseInFlight k).setConsensus hg)
        ⟨?_, ?_, ?_, fun i _ hp => .inl (hpend _ hp), fun i hp => .inl (hpend _ hp)⟩
      · intro j' x hx
        rw [log, hnode]
        split
        · next hj => exact hg.log x (hj ▸ hx)
        · exact hx
      · intro i' message' cmsg' hsend' j' hne hin
        rcases Lists.mem_eraseIdx_or_eq hin hk with hthis | hin
        · -- This is the message that arrived, so its addressee logs it.
          obtain ⟨rfl, rfl⟩ := Prod.mk.inj hthis
          obtain ⟨rfl, rfl⟩ := hsend.unique hsend'
          right
          rw [log, hnode, if_pos rfl]
          exact hlogged hne
        · exact .inl hin
      · intro i' st hst
        rw [state, state, hnode] at hst
        split at hst
        · next hj =>
            subst hj
            have hpending : (i', ⟨some R.blk, st⟩) ∈ (w.setConsensus i' cm pubs).pending :=
              hg.pending hst
            exact hpending
        · -- the other nodes stay where they are
          rw [phasesBetween_self] at hst
          cases hst

/-! ## Events -/

/-- What the `consensus:newState` handler broadcasts in this round. -/
def voteFor (R : HonestRound db o n sign) (i : Fin n) : State → Option Payload
  | .prePrepared => if i = R.proposer then none else some (.prepare R.hd.hash (R.sig i))
  | .prepared => some (.commit R.hd.hash (R.sig i))
  | .unknown | .commited => none

theorem onNewState_eq (i : Fin n) (st : State) :
    onNewState (R.address i) (sign i) ⟨some R.blk, st⟩ = .ok (R.voteFor i st) := by
  cases st with
  | unknown => rfl
  | prePrepared =>
      by_cases hi : i = R.proposer
      · simp [onNewState, R.header_eq, R.proposer_eq, voteFor, hi, pure, Except.pure]
      · have haddr : R.address R.proposer ≠ R.address i := fun h => hi (R.address_inj h).symm
        simp [onNewState, R.header_eq, R.proposer_eq, voteFor, hi, haddr, signedVote, R.signs i,
          pure, Except.pure]
  | prepared => simp [onNewState, R.header_eq, voteFor, signedVote, R.signs i, pure, Except.pure]
  | commited => simp [onNewState, R.header_eq, voteFor, pure, Except.pure]

/-- The messages a handled event puts in flight. -/
def announced (R : HonestRound db o n sign) (i : Fin n) (st : State) :
    List (Fin n × PubSubMessage) :=
  match R.voteFor i st with
  | none => []
  | some payload => (List.finRange n).map fun j => (j, ⟨R.address i, payload⟩)

theorem handleNewState_eq (hs : R.Steady w) {k : Nat} {st : State}
    (hk : w.pending[k]? = some (i, ⟨some R.blk, st⟩)) :
    w.handleNewState sign k = { w with
      pending := w.pending.eraseIdx k, inFlight := w.inFlight ++ R.announced i st } := by
  rw [Network.handleNewState, hk]
  dsimp only
  rw [hs.address, onNewState_eq, announced]
  cases R.voteFor i st with
  | none => simp
  | some payload => simp [Network.broadcast, hs.address]

theorem sends_of_mem_announced {i : Fin n} {st : State} {x : Fin n × PubSubMessage}
    (hx : x ∈ R.announced i st) : ∃ cmsg, R.Sends i x.2 cmsg := by
  unfold announced voteFor at hx
  cases st with
  | unknown => simp at hx
  | commited => simp at hx
  | prePrepared =>
      by_cases hi : i = R.proposer
      · simp [hi] at hx
      · simp only [if_neg hi, List.mem_map] at hx
        obtain ⟨j, -, rfl⟩ := hx
        exact ⟨_, .prepare i⟩
  | prepared =>
      obtain ⟨j, -, rfl⟩ := List.mem_map.mp hx
      exact ⟨_, .commit i⟩

theorem Live.handleNewState (hl : R.Live w) (k : Nat) : R.Live (w.handleNewState sign k) := by
  cases hk : w.pending[k]? with
  | none =>
      have heq : w.handleNewState sign k = w := by rw [Network.handleNewState, hk]
      rw [heq]
      exact hl
  | some x =>
      obtain ⟨i, block, st⟩ := x
      have hblock : block = some R.blk := hl.events _ (List.mem_of_getElem? hk)
      subst hblock
      rw [handleNewState_eq hl.toSteady hk]
      have hsteady : R.Steady { w with
          pending := w.pending.eraseIdx k, inFlight := w.inFlight ++ R.announced i st } :=
        { hl.toSteady with
          sends := fun x hx => (List.mem_append.mp hx).elim (hl.sends x) fun hx =>
            ⟨i, sends_of_mem_announced hx⟩
          events := fun x hx => hl.events x (List.mem_of_mem_eraseIdx hx) }
      refine hl.of_keeps hsteady ⟨fun j x hx => hx,
        fun _ j _ hin => .inl (List.mem_append_left _ hin), ?_, ?_, ?_⟩
      · intro i' st' hst'
        -- a handled event enters no phase
        have hnone : st' ∈ phasesBetween (R.state w i') (R.state w i') := hst'
        rw [phasesBetween_self] at hnone
        cases hnone
      · intro i' hne hp
        rcases Lists.mem_eraseIdx_or_eq hp hk with hthis | hp
        · -- The event that was handled: its vote is now in flight to everyone.
          obtain ⟨rfl, hev⟩ := Prod.mk.inj hthis
          obtain ⟨-, rfl⟩ := NewState.mk.inj hev
          refine .inr fun j _ => .inl (List.mem_append_right _ ?_)
          simp [announced, voteFor, hne]
        · exact .inl hp
      · intro i' hp
        rcases Lists.mem_eraseIdx_or_eq hp hk with hthis | hp
        · obtain ⟨rfl, hev⟩ := Prod.mk.inj hthis
          obtain ⟨-, rfl⟩ := NewState.mk.inj hev
          refine .inr fun j _ => .inl (List.mem_append_right _ ?_)
          simp [announced, voteFor]
        · exact .inl hp

/-! ## The proposal -/

theorem steady_start : R.Steady R.start where
  address _ := rfl
  chain _ := rfl
  minApprovals := R.manager_minApprovals
  round i := roundOk_of_none (R.manager_fresh i)
  sends := by simp [start]
  blocks i := by simp [log, start, logOf, R.manager_fresh i]
  events := by simp [start]

theorem state_start (i : Fin n) : R.state R.start i = .unknown := by
  simp [state, start, stateOf, R.manager_fresh i]

theorem built_prePrepareMsg : Built R.hd.hash R.prePrepareMsg := Sends.prePrepare.built

/-- `propose` logs the block at the proposer and sends it to everyone. -/
theorem proposed_eq : ∃ cm pubs, R.proposed
      = (R.start.setConsensus R.proposer cm pubs).broadcast R.proposer (.prePrepare (some R.blk)) ∧
    R.Grows (R.manager R.proposer) cm pubs ∧ R.prePrepareMsg ∈ cm.logOf R.hd.hash := by
  have hlog0 : (R.manager R.proposer).logOf R.hd.hash = [] := by
    rw [logOf, R.manager_fresh]
  have hround := roundOk_of_none (R.manager_fresh R.proposer)
  obtain ⟨ci, hins, -⟩ := insertMessageIntoLog_of_not_mem hround built_prePrepareMsg
    (by rw [hlog0]; exact List.not_mem_nil)
  obtain ⟨cm, pubs, hwarn, hspec⟩ := insertOrWarn_spec hround built_prePrepareMsg
  obtain ⟨rfl, rfl⟩ := Prod.mk.inj (Except.ok.inj ((insertOrWarn_of_ok hins).symm.trans hwarn))
  have hlogs : ∀ x ∈ ((R.manager R.proposer).setInfo R.hd.hash ci).logOf R.hd.hash,
      x.type = .prePrepare → x.block = some R.blk := by
    intro x hx _
    rcases (hspec.mem_log x).mp hx with rfl | hx
    · rfl
    · rw [hlog0] at hx
      cases hx
  refine ⟨_, _, ?_, ⟨hspec.minApprovals_eq, hspec.round,
    fun x hx => (hspec.mem_log x).mpr (.inr hx), hspec.states, hlogs, ?_⟩,
    (hspec.mem_log _).mpr (.inl rfl)⟩
  · have hins' : (R.manager R.proposer).insertMessageIntoLog
        ⟨.prePrepare, R.hd.hash, [], some R.blk, R.address R.proposer⟩ = _ := hins
    simp only [proposed, Network.step, Network.proposeAt, propose, start, R.header_eq, deref_some,
      ok_bind, hins']
    rfl
  · intro ev hev
    obtain ⟨x, hx, htyp, hblock⟩ := hspec.blocks ev hev
    exact hblock ▸ hlogs x hx htyp

/-- Only the proposer has entered a phase so far. -/
theorem state_proposed_of_ne {cm : ConsensusManager} {pubs : List NewState}
    (hne : i ≠ R.proposer) : R.state ((R.start.setConsensus R.proposer cm pubs).broadcast R.proposer
      (.prePrepare (some R.blk))) i = .unknown := by
  show ((R.start.setConsensus R.proposer cm pubs).nodes i).consensus.stateOf R.hd.hash = .unknown
  rw [Network.nodes_setConsensus, if_neg hne]
  exact state_start i

theorem live_proposed : R.Live R.proposed := by
  obtain ⟨cm, pubs, heq, hg, hlogged⟩ := proposed_eq (R := R)
  have hsteady : R.Steady (R.start.setConsensus R.proposer cm pubs) :=
    steady_start.setConsensus hg
  have hself : ((R.start.setConsensus R.proposer cm pubs).nodes R.proposer).consensus = cm := by
    rw [Network.nodes_setConsensus, if_pos rfl]
  have hflight : ((R.start.setConsensus R.proposer cm pubs).broadcast R.proposer
      (.prePrepare (some R.blk))).inFlight = (List.finRange n).map fun j =>
        (j, ⟨R.address R.proposer, .prePrepare (some R.blk)⟩) := by
    simp [Network.broadcast, Network.setConsensus, start]
  rw [heq]
  refine ⟨{ hsteady with sends := ?_ }, ?_, ?_, ?_⟩
  · -- what is in flight is the PrePrepare
    intro x hx
    rw [hflight] at hx
    obtain ⟨j, -, rfl⟩ := List.mem_map.mp hx
    exact ⟨_, _, .prePrepare⟩
  · intro j
    refine ⟨fun _ => .inl ?_, ?_⟩
    · rw [hflight]
      exact List.mem_map.mpr ⟨j, List.mem_finRange j, rfl⟩
    · rintro rfl
      show R.prePrepareMsg ∈ ((R.start.setConsensus R.proposer cm pubs).nodes
        R.proposer).consensus.logOf R.hd.hash
      rw [hself]
      exact hlogged
  · intro i hne hrank
    rw [state_proposed_of_ne hne] at hrank
    exact absurd hrank (by decide)
  · intro i hrank
    by_cases hi : i = R.proposer
    · -- with one approval needed, the proposer is Prepared at once
      subst hi
      have hrank' : 2 ≤ (cm.stateOf R.hd.hash).rank := by
        rw [← hself]
        exact hrank
      have hunk : R.state R.start R.proposer = .unknown := state_start R.proposer
      refine .inl (hg.pending (w := R.start) (mem_phasesBetween (by decide) ?_ hrank'))
      rw [hunk]
      decide
    · rw [state_proposed_of_ne hi] at hrank
      exact absurd hrank (by decide)

/-! ## Quiet networks -/

theorem voteMsg_injective (R : HonestRound db o n sign) (typ : MessageType) :
    Function.Injective (R.voteMsg typ) := by
  intro i i' h
  exact R.address_inj (congrArg ConsensusMessage.fromPeer h)

/-- Votes of different nodes are different messages. -/
theorem card_le_approvals (R : HonestRound db o n sign) {typ : MessageType} {l : MessageLog}
    {S : Finset (Fin n)} (h : ∀ i ∈ S, R.voteMsg typ i ∈ l) :
    S.card ≤ approvals typ l.toFinset := by
  apply Finset.card_le_card_of_injOn (R.voteMsg typ)
  · intro i hi
    have hmem : R.voteMsg typ i ∈ l.toFinset := List.mem_toFinset.mpr (h i hi)
    exact Finset.mem_filter.mpr ⟨hmem, rfl⟩
  · exact (R.voteMsg_injective typ).injOn

/-- With nothing under way, what is owed has arrived. -/
theorem Owes.logged {phase : State} (h : R.Owes w i phase message cmsg) (hf : w.inFlight = [])
    (hp : w.pending = []) : ∀ j, j ≠ i → cmsg ∈ R.log w j := by
  rcases h with h | h
  · rw [hp] at h
    cases h
  · intro j hj
    rcases h j hj with h | h
    · rw [hf] at h
      cases h
    · exact h

theorem Live.state_eq (hl : R.Live w) (j : Fin n) :
    R.state w j = roundState R.minApprovals (R.log w j).toFinset := by
  rw [state, (hl.round j).stateOf_eq, hl.minApprovals]
  rfl

section Quiet

variable (hl : R.Live w) (hf : w.inFlight = []) (hp : w.pending = [])
include hl hf

/-- In a quiet network every node has the PrePrepare. -/
theorem Live.prePrepare_logged (j : Fin n) :
    0 < approvals .prePrepare (R.log w j).toFinset := by
  have hmem : R.prePrepareMsg ∈ R.log w j := by
    by_cases hj : j = R.proposer
    · exact (hl.proposal j).2 hj
    · rcases (hl.proposal j).1 hj with h | h
      · rw [hf] at h
        cases h
      · exact h
  exact Finset.card_pos.mpr ⟨R.prePrepareMsg,
    Finset.mem_filter.mpr ⟨List.mem_toFinset.mpr hmem, rfl⟩⟩

include hp

/-- Every node but the proposer and `j` itself has sent its Prepare to `j`. -/
theorem Live.prepares_logged (hpos : 1 ≤ R.minApprovals.toInt)
    (hmax : R.minApprovals.toInt ≤ (n : Int) - 1) (j : Fin n) :
    prepareQuorum R.minApprovals ≤ approvals .prepare (R.log w j).toFinset := by
  have hall : ∀ i ∈ (Finset.univ.erase R.proposer).erase j, R.voteMsg .prepare i ∈ R.log w j := by
    intro i hi
    have hij : i ≠ j := Finset.ne_of_mem_erase hi
    have hip : i ≠ R.proposer := Finset.ne_of_mem_erase (Finset.mem_of_mem_erase hi)
    have hrank : 1 ≤ (R.state w i).rank := by
      rw [hl.state_eq]
      exact one_le_rank_roundState (hl.prePrepare_logged hf i)
    exact (hl.prepares i hip hrank).logged hf hp j hij.symm
  have hcard := R.card_le_approvals hall
  -- `j` may be the proposer itself, so at least `n - 2` others are left
  have hle : n - 1 - 1 ≤ ((Finset.univ.erase R.proposer).erase j).card := by
    calc n - 1 - 1 = (Finset.univ.erase R.proposer).card - 1 := by
          rw [Finset.card_erase_of_mem (Finset.mem_univ _), Finset.card_univ, Fintype.card_fin]
      _ ≤ _ := Finset.pred_card_le_card_erase
  rw [prepareQuorum_eq hpos]
  omega

/-- Every node but `j` itself has sent its Commit to `j`. -/
theorem Live.commits_logged (hpos : 1 ≤ R.minApprovals.toInt)
    (hmax : R.minApprovals.toInt ≤ (n : Int) - 1) (j : Fin n) :
    commitQuorum R.minApprovals ≤ approvals .commit (R.log w j).toFinset := by
  have hall : ∀ i ∈ Finset.univ.erase j, R.voteMsg .commit i ∈ R.log w j := by
    intro i hi
    have hrank : 2 ≤ (R.state w i).rank := by
      rw [hl.state_eq]
      exact two_le_rank_roundState (hl.prePrepare_logged hf i)
        (hl.prepares_logged hf hp hpos hmax i)
    exact (hl.commits i hrank).logged hf hp j (Finset.ne_of_mem_erase hi).symm
  have hcard := R.card_le_approvals hall
  rw [Finset.card_erase_of_mem (Finset.mem_univ _), Finset.card_univ, Fintype.card_fin] at hcard
  rw [commitQuorum]
  omega

/-- In a quiet network the block is committed at every node. -/
theorem Live.commited_of_quiet (hpos : 1 ≤ R.minApprovals.toInt)
    (hmax : R.minApprovals.toInt ≤ (n : Int) - 1) (j : Fin n) : R.state w j = .commited := by
  rw [hl.state_eq]
  exact roundState_eq_commited (hl.prePrepare_logged hf j) (hl.prepares_logged hf hp hpos hmax j)
    (hl.commits_logged hf hp hpos hmax j)

end Quiet

end HonestRound

/-- Deliveries of messages and of events. -/
def NetEvent.IsDelivery {n : Nat} : NetEvent n → Prop
  | .deliver _ | .newState _ => True
  | .propose .. | .beacon .. => False

/-- In every order of deliveries after the proposal, a state with no message in
    flight and no event pending has the block committed at every node. -/
theorem no_stuck_round {σ : Type} {db : Database σ} {o : Oracles} {n : Nat}
    {sign : Fin n → Bytes → Except Err Bytes} (R : HonestRound db o n sign)
    (hpos : 1 ≤ R.minApprovals.toInt) (hmax : R.minApprovals.toInt ≤ (n : Int) - 1)
    (evs : List (NetEvent n)) (hevs : ∀ e ∈ evs, e.IsDelivery)
    (hf : (Run.exec (Network.step db o sign) R.proposed evs).inFlight = [])
    (hp : (Run.exec (Network.step db o sign) R.proposed evs).pending = []) (j : Fin n) :
    ((Run.exec (Network.step db o sign) R.proposed evs).nodes j).consensus.stateOf R.hd.hash
      = .commited := by
  have hsteps : Run.StepsMeet (Network.step db o sign) R.proposed evs fun _ e => e.IsDelivery :=
    fun pre e hpre => hevs e (hpre.mem (by simp))
  have hlive : Run.Always (Network.step db o sign) R.proposed evs R.Live := by
    refine Run.always_of_stepsMeet ?_ R.live_proposed hsteps
    intro w e hl hdel
    cases e with
    | deliver k => exact hl.deliver k
    | newState k => exact hl.handleNewState k
    | propose i blk => exact hdel.elim
    | beacon i blocks mined => exact hdel.elim
  exact hlive.final.commited_of_quiet hf hp hpos hmax j

/-- Two nodes, one approval, and a block the first node proposes. -/
def twoNodes : HonestRound Memory.database .permissive 2 fun _ h => .ok h where
  address i := [i.val.toUInt8 + 1]
  manager _ := new 1
  chain _ := genesisChain Memory.backend
  proposer := 0
  blk := childOfGenesis [1] 1
  hd := childHeader [1] 1
  sig _ := [1]
  minApprovals := 1
  address_inj := by decide
  header_eq := rfl
  proposer_eq := by decide
  manager_fresh _ := info_new 1 _
  manager_minApprovals _ := rfl
  validates _ := by decide +kernel
  signs _ := rfl
  verifies _ := ⟨[], rfl, rfl⟩

/-- Events and messages of `twoNodes`, each time the oldest first. -/
def twoNodesRun : List (NetEvent 2) :=
  (List.replicate 8 [.newState 0, .deliver 0, .deliver 0]).flatten

/-- `twoNodes` after `twoNodesRun`. -/
def twoNodesQuiet : Network Memory.Cache 2 :=
  Run.exec (Network.step Memory.database .permissive fun _ h => .ok h) twoNodes.proposed
    twoNodesRun

theorem no_stuck_round_twoNodes :
    (twoNodesQuiet.nodes 0).consensus.stateOf [1] = .commited ∧
      (twoNodesQuiet.nodes 1).consensus.stateOf [1] = .commited := by
  unfold twoNodesQuiet
  have hall : ∀ j, ((Run.exec (Network.step Memory.database .permissive fun _ h => .ok h)
      twoNodes.proposed twoNodesRun).nodes j).consensus.stateOf [1] = .commited :=
    no_stuck_round twoNodes (by decide) (by decide) twoNodesRun
      (by simp [twoNodesRun, NetEvent.IsDelivery]) (by decide +kernel) (by decide +kernel)
  exact ⟨hall 0, hall 1⟩

end Dione.Consensus
