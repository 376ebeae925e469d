/-
  Dione.Consensus.Certificates

  What a committed round rests on when not all peers are honest.

  The network is open: peers outside it may send its nodes any message at any time.  They
  cannot speak for a node, since `handleMessage` takes the sender of a message from the
  envelope that libp2p has checked.

  A vote of a node then rests on what the node has done.  It sends a Prepare for a block
  hash after it has found a block with that hash valid on its own chain, or mined it; and a
  Commit after that, once its log holds enough Prepares.  So a committed round is backed by
  two layers of evidence, wherever no outsiders have voted.
-/

import Dione.Consensus.Agreement
import Dione.Consensus.Quorum
import Mathlib.Data.Fintype.Basic

namespace Dione.Consensus

open Guard BlockChain ConsensusManager

/-! ## The open network -/

/-- What happens next in a network that others can reach. -/
inductive OpenEvent (n : Nat) where
  | node (e : NetEvent n)
  /-- Somebody else sends node `j` a message. -/
  | foreign (j : Fin n) (message : PubSubMessage)

namespace Network

variable {σ : Type} {n : Nat} (db : Database σ) (sign : Fin n → Bytes → Except Err Bytes)

/-- One step of the open network, with what the node is told from outside at that time. -/
def openStep (w : Network σ n) (oe : Oracles × OpenEvent n) : Network σ n :=
  match oe.2 with
  | .node e => w.step db oe.1 sign e
  | .foreign j message =>
    -- nobody else sends in the name of a node
    if ∃ i, (w.nodes i).address = message.fromPeer then w
    else { w with inFlight := w.inFlight ++ [(j, message)] }

/-- A call of `propose` with `b` at node `i` gets as far as the broadcast. -/
def Proposes (i : Fin n) (b : Block) (w : Network σ n) : Prop :=
  ∃ r, propose (w.nodes i).address b (w.nodes i).consensus = .ok r

/-- In this step node `i` finds a block with the hash `h` valid on its chain, or proposes one of
    its own. -/
def Checks (i : Fin n) (h : Bytes) (w : Network σ n) (oe : Oracles × OpenEvent n) : Prop :=
  ∃ b hd, b.header = some hd ∧ hd.hash = h ∧
    match oe.2 with
    | .node (.deliver k) =>
      -- a block of its own, or from itself, is not looked at
      (∃ fromPeer, fromPeer ≠ (w.nodes i).address
          ∧ w.inFlight[k]? = some (i, ⟨fromPeer, .prePrepare (some b)⟩))
        ∧ hd.proposer ≠ some (w.nodes i).address
        ∧ validateBlock db oe.1 b (w.nodes i).chain = .ok ()
    | .node (.propose i' blk) => i' = i ∧ blk = b ∧ w.Proposes i b
    | .node (.beacon i' blocks mined) =>
      i' = i ∧ mined = some b ∧ blocks.Perm (w.nodes i).consensus.getAllBlocksWithCommit
        -- any other error of the commit ends `onNewBeaconEntry`
        ∧ (∀ e, (w.commitAt db oe.1 i blocks).1 = .error e → e = .noAcceptedBlocks)
        ∧ (w.commitAt db oe.1 i blocks).2.Proposes i b
    | _ => False

end Network

/-! ## What the handlers let in and send out -/

section Handlers

variable {σ : Type} {db : Database σ} {o : Oracles} {address : PeerID} {s : σ}

/-- A pubsub message that is handled, and the consensus message that it is handled as. -/
inductive Admits (db : Database σ) (o : Oracles) (address : PeerID) (s : σ) :
    PubSubMessage → ConsensusMessage → Prop where
  | prePrepare (fromPeer : PeerID) (b : Block) (hd : BlockHeader) (hforeign : fromPeer ≠ address)
      (hheader : b.header = some hd) (hproposer : hd.proposer ≠ some address)
      (hvalid : validateBlock db o b s = .ok ()) :
      Admits db o address s ⟨fromPeer, .prePrepare (some b)⟩
        ⟨.prePrepare, hd.hash, [], some b, fromPeer⟩
  | prepare (fromPeer : PeerID) (h signature : Bytes) (hforeign : fromPeer ≠ address) :
      Admits db o address s ⟨fromPeer, .prepare h signature⟩
        ⟨.prepare, h, signature, none, fromPeer⟩
  | commit (fromPeer : PeerID) (h signature : Bytes) (hforeign : fromPeer ≠ address) :
      Admits db o address s ⟨fromPeer, .commit h signature⟩
        ⟨.commit, h, signature, none, fromPeer⟩

theorem eq_of_handleVote {typ : MessageType} {fromPeer : PeerID} {h signature : Bytes}
    {cmsg : ConsensusMessage}
    (hvote : handleVote db o s typ fromPeer h signature = .ok (some cmsg)) :
    cmsg = ⟨typ, h, signature, none, fromPeer⟩ := by
  simp only [handleVote, bind_eq_ok, pure_eq_ok_iff] at hvote
  obtain ⟨ok, -, hvote⟩ := hvote
  obtain ⟨-, ⟨⟩⟩ := Option.ite_none_right_eq_some.mp hvote
  rfl

theorem admits_of_admitted {message : PubSubMessage} {cmsg : ConsensusMessage}
    (h : admitted db o address s message = .ok (some cmsg)) :
    Admits db o address s message cmsg := by
  obtain ⟨fromPeer, payload⟩ := message
  unfold admitted at h
  split at h
  · cases h
  · next hforeign =>
      cases payload with
      | prePrepare block =>
          simp only [handlePrePrepare, bind_eq_ok, deref_eq_ok] at h
          obtain ⟨b, rfl, hd, hheader, proposer, hproposer, h⟩ := h
          split at h
          · cases h
          · next hother =>
              simp only [bind_eq_ok, pure_eq_ok_iff] at h
              obtain ⟨ok, hok, h⟩ := h
              obtain ⟨rfl, ⟨⟩⟩ := Option.ite_none_right_eq_some.mp h
              refine .prePrepare fromPeer b hd hforeign hheader ?_ ?_
              · rw [hproposer]
                exact fun heq => hother (Option.some.inj heq)
              · simp only [valid, deref_some, ok_bind] at hok
                split at hok
                · assumption
                · split at hok
                  · cases hok
                  · cases hok
      | prepare hash signature =>
          obtain rfl := eq_of_handleVote h
          exact .prepare fromPeer hash signature hforeign
      | commit hash signature =>
          obtain rfl := eq_of_handleVote h
          exact .commit fromPeer hash signature hforeign
      | newBlock | undecodable => cases h

theorem signedVote_eq_some {vote : Bytes → Bytes → Payload} {sign : Bytes → Except Err Bytes}
    {h : Bytes} {payload : Payload} (hsigned : signedVote vote sign h = some payload) :
    ∃ signature, sign h = .ok signature ∧ payload = vote h signature := by
  unfold signedVote at hsigned
  split at hsigned
  · next signature hsign => exact ⟨signature, hsign, (Option.some.inj hsigned).symm⟩
  · cases hsigned

/-- What a handled event broadcasts is a vote for the block of the event. -/
theorem onNewState_eq_some {sign : Bytes → Except Err Bytes} {ev : NewState} {payload : Payload}
    (h : onNewState address sign ev = .ok (some payload)) :
    ∃ b hd signature, ev.block = some b ∧ b.header = some hd ∧ sign hd.hash = .ok signature ∧
      (ev.state = .prePrepared ∧ payload = .prepare hd.hash signature
        ∨ ev.state = .prepared ∧ payload = .commit hd.hash signature) := by
  unfold onNewState at h
  cases hstate : ev.state with
  | unknown =>
      rw [hstate] at h
      cases h
  | prePrepared =>
      simp only [hstate, bind_eq_ok, deref_eq_ok] at h
      obtain ⟨b, hblock, hd, hheader, proposer, -, h⟩ := h
      split at h
      · cases h
      · obtain ⟨signature, hsign, hpayload⟩ := signedVote_eq_some (Except.ok.inj h)
        exact ⟨b, hd, signature, hblock, hheader, hsign, .inl ⟨rfl, hpayload⟩⟩
  | prepared =>
      simp only [hstate, bind_eq_ok, deref_eq_ok] at h
      obtain ⟨b, hblock, hd, hheader, h⟩ := h
      obtain ⟨signature, hsign, hpayload⟩ := signedVote_eq_some (Except.ok.inj h)
      exact ⟨b, hd, signature, hblock, hheader, hsign, .inr ⟨rfl, hpayload⟩⟩
  | commited =>
      simp only [hstate, bind_eq_ok, deref_eq_ok] at h
      obtain ⟨b, -, hd, -, h⟩ := h
      cases h

end Handlers

/-- The log holds as many Prepares as the round needs. -/
def ConsensusManager.HoldsPrepares (cm : ConsensusManager) (h : Bytes) : Prop :=
  prepareQuorum cm.minApprovals ≤ approvals .prepare (cm.logOf h).toFinset

/-! ## Evidence -/

/-- What nodes are known to have done: checked a block with this hash, held enough Prepares
    for it. -/
structure Evidence (n : Nat) where
  checked : Fin n → Bytes → Prop
  prepared : Fin n → Bytes → Prop

namespace Evidence

variable {n : Nat} (E : Evidence n)

/-- What a message of node `i` for `h` needs. -/
def Backs (i : Fin n) (h : Bytes) : MessageType → Prop
  | .prepare => E.checked i h
  | .commit => E.checked i h ∧ E.prepared i h
  | .unknown | .prePrepare => True

def BacksPayload (i : Fin n) : Payload → Prop
  | .prepare h _ => E.Backs i h .prepare
  | .commit h _ => E.Backs i h .commit
  | .prePrepare _ | .newBlock _ | .undecodable => True

/-- What an event on the bus of node `i` needs. -/
def BacksEvent (i : Fin n) (ev : NewState) : Prop :=
  ∀ b hd, ev.block = some b → b.header = some hd →
    E.checked i hd.hash ∧ (ev.state = .prepared → E.prepared i hd.hash)

/-- The manager of node `j`: its block proposals were checked, and its votes are backed and not
    its own. -/
structure BacksManager (address : Fin n → PeerID) (j : Fin n) (cm : ConsensusManager) : Prop where
  rounds : ∀ h, cm.RoundOk h
  proposals : ∀ h, ∀ msg ∈ cm.logOf h, msg.type = .prePrepare → E.checked j h
  votes : ∀ h, ∀ msg ∈ cm.logOf h, ∀ i, msg.fromPeer = address i → E.Backs i h msg.type
  own : ∀ h, ∀ msg ∈ cm.logOf h, msg.type ≠ .prePrepare → msg.fromPeer ≠ address j

/-- There is evidence for all that the network is about to do. -/
structure BacksNetwork {σ : Type} (w : Network σ n) : Prop where
  distinct : Function.Injective fun i => (w.nodes i).address
  managers : ∀ j, E.BacksManager (fun i => (w.nodes i).address) j (w.nodes j).consensus
  inFlight : ∀ x ∈ w.inFlight, ∀ i, x.2.fromPeer = (w.nodes i).address →
    E.BacksPayload i x.2.payload
  pending : ∀ x ∈ w.pending, E.BacksEvent x.1 x.2

/-- `E'` has all the evidence of `E`. -/
structure Le (E E' : Evidence n) : Prop where
  checked : ∀ i h, E.checked i h → E'.checked i h
  prepared : ∀ i h, E.prepared i h → E'.prepared i h

variable {E} {E' : Evidence n}

theorem Backs.mono {i : Fin n} {h : Bytes} {typ : MessageType} (hb : E.Backs i h typ)
    (hle : E.Le E') : E'.Backs i h typ := by
  cases typ with
  | unknown => trivial
  | prePrepare => trivial
  | prepare => exact hle.checked i h hb
  | commit => exact ⟨hle.checked i h hb.1, hle.prepared i h hb.2⟩

theorem BacksPayload.mono {i : Fin n} {payload : Payload} (hb : E.BacksPayload i payload)
    (hle : E.Le E') : E'.BacksPayload i payload := by
  cases payload with
  | prepare h signature =>
      have hvote : E.Backs i h .prepare := hb
      exact hvote.mono hle
  | commit h signature =>
      have hvote : E.Backs i h .commit := hb
      exact hvote.mono hle
  | prePrepare | newBlock | undecodable => trivial

theorem BacksNetwork.mono {σ : Type} {w : Network σ n} (hb : E.BacksNetwork w) (hle : E.Le E') :
    E'.BacksNetwork w where
  distinct := hb.distinct
  managers j :=
    { rounds := (hb.managers j).rounds
      proposals := fun h msg hmsg htype =>
        hle.checked j h ((hb.managers j).proposals h msg hmsg htype)
      votes := fun h msg hmsg i hi => ((hb.managers j).votes h msg hmsg i hi).mono hle
      own := (hb.managers j).own }
  inFlight x hx i hi := (hb.inFlight x hx i hi).mono hle
  pending x hx b hd hblock hheader := by
    obtain ⟨hchecked, hprepared⟩ := hb.pending x hx b hd hblock hheader
    exact ⟨hle.checked _ _ hchecked, fun hstate => hle.prepared _ _ (hprepared hstate)⟩

/-! ## One manager -/

section Manager

variable {address : Fin n → PeerID} {j : Fin n} {cm cm' : ConsensusManager}

theorem backsManager_of_info_eq_none (hnone : ∀ h, cm.info h = none) :
    E.BacksManager address j cm := by
  have hempty : ∀ h, cm.logOf h = [] := by
    intro h
    rw [logOf, hnone]
  refine ⟨fun h => roundOk_of_none (hnone h), ?_, ?_, ?_⟩
  all_goals
    intro h msg hmsg
    rw [hempty] at hmsg
    cases hmsg

/-- A round that is prepared has the Prepares in its log. -/
theorem holdsPrepares_of_rank {h : Bytes} (hround : cm.RoundOk h)
    (hrank : 2 ≤ (cm.stateOf h).rank) : cm.HoldsPrepares h := by
  rw [hround.stateOf_eq] at hrank
  unfold roundState at hrank
  unfold ConsensusManager.HoldsPrepares
  split at hrank
  · simp [State.rank] at hrank
  · split at hrank
    · simp [State.rank] at hrank
    · omega

/-- A message goes into the log: the events it causes are backed. -/
theorem BacksManager.insert {h : Bytes} {msg : ConsensusMessage} {pubs : List NewState}
    (hb : E.BacksManager address j cm) (hm : Built h msg)
    (hins : cm.insertOrWarn msg = .ok (cm', pubs))
    (hchecked : msg.type = .prePrepare → E.checked j h)
    (hvote : ∀ i, msg.fromPeer = address i → E.Backs i h msg.type)
    (hown : msg.type ≠ .prePrepare → msg.fromPeer ≠ address j)
    (hprepared : cm'.HoldsPrepares h → E.prepared j h) :
    E.BacksManager address j cm' ∧ ∀ ev ∈ pubs, E.BacksEvent j ev := by
  obtain ⟨cm₁, pubs₁, hins₁, hspec⟩ := insertOrWarn_spec (hb.rounds h) hm
  obtain ⟨rfl, rfl⟩ := Prod.mk.inj (Except.ok.inj (hins.symm.trans hins₁))
  have hlog : ∀ h', ∀ x ∈ cm'.logOf h', (h' = h ∧ x = msg) ∨ x ∈ cm.logOf h' := by
    intro h' x hx
    by_cases hh : h' = h
    · subst hh
      exact ((hspec.mem_log x).mp hx).imp (fun heq => ⟨rfl, heq⟩) id
    · rw [logOf_congr (hspec.other h' hh)] at hx
      exact .inr hx
  have hmanager : E.BacksManager address j cm' := by
    refine ⟨?_, ?_, ?_, ?_⟩
    · intro h'
      by_cases hh : h' = h
      · subst hh
        exact hspec.round
      · have hround := hb.rounds h'
        unfold RoundOk at hround ⊢
        rwa [hspec.other h' hh, hspec.minApprovals_eq]
    · intro h' x hx htype
      rcases hlog h' x hx with ⟨rfl, rfl⟩ | hold
      · exact hchecked htype
      · exact hb.proposals h' x hold htype
    · intro h' x hx i hi
      rcases hlog h' x hx with ⟨rfl, rfl⟩ | hold
      · exact hvote i hi
      · exact hb.votes h' x hold i hi
    · intro h' x hx htype
      rcases hlog h' x hx with ⟨rfl, rfl⟩ | hold
      · exact hown htype
      · exact hb.own h' x hold htype
  refine ⟨hmanager, ?_⟩
  intro ev hev b hd hblock hheader
  -- the block of the event is that of a PrePrepare in the log, and has the hash of the round
  obtain ⟨x, hx, htype, hxblock⟩ := hspec.blocks ev hev
  have hshape := (hspec.round.built_of_mem hx).2
  rw [htype] at hshape
  obtain ⟨b', hd', hb', hhd', hhash⟩ := hshape
  obtain rfl : b' = b := Option.some.inj ((hb'.symm.trans hxblock).trans hblock)
  obtain rfl : hd' = hd := Option.some.inj (hhd'.symm.trans hheader)
  rw [hhash]
  refine ⟨hmanager.proposals h x hx htype, ?_⟩
  intro hstate
  have hmem : State.prepared ∈ phasesBetween (cm.stateOf h) (cm'.stateOf h) := by
    rw [← hspec.states, ← hstate]
    exact List.mem_map_of_mem hev
  apply hprepared
  apply holdsPrepares_of_rank hspec.round
  have htake := List.mem_of_mem_drop hmem
  generalize cm'.stateOf h = s at htake ⊢
  cases s with
  | unknown => simp [State.rank] at htake
  | prePrepared => simp [phases, State.rank] at htake
  | prepared => exact le_refl 2
  | commited => simp [State.rank]

end Manager

/-! ## One step of the network -/

section Steps

variable {σ : Type} {w : Network σ n} {db : Database σ} {o : Oracles}
  {sign : Fin n → Bytes → Except Err Bytes}

theorem address_setConsensus (j : Fin n) (cm : ConsensusManager) (pubs : List NewState)
    (i : Fin n) : ((w.setConsensus j cm pubs).nodes i).address = (w.nodes i).address := by
  rw [Network.nodes_setConsensus]
  split
  · next heq => rw [heq]
  · rfl

theorem BacksNetwork.setConsensus (hb : E.BacksNetwork w) {j : Fin n} {cm : ConsensusManager}
    {pubs : List NewState} (hcm : E.BacksManager (fun i => (w.nodes i).address) j cm)
    (hpubs : ∀ ev ∈ pubs, E.BacksEvent j ev) : E.BacksNetwork (w.setConsensus j cm pubs) := by
  refine ⟨?_, ?_, ?_, ?_⟩
  · simp only [address_setConsensus]
    exact hb.distinct
  · intro i
    simp only [address_setConsensus]
    rw [Network.nodes_setConsensus]
    split
    · next heq =>
        rw [heq]
        exact hcm
    · exact hb.managers i
  · intro x hx i hi
    rw [address_setConsensus] at hi
    exact hb.inFlight x hx i hi
  · intro x hx
    rcases List.mem_append.mp hx with hold | hnew
    · exact hb.pending x hold
    · obtain ⟨ev, hev, rfl⟩ := List.mem_map.mp hnew
      exact hpubs ev hev

theorem BacksNetwork.setChain (hb : E.BacksNetwork w) (j : Fin n) (s : σ) :
    E.BacksNetwork (w.setChain j s) := by
  have hnode : ∀ i, ((w.setChain j s).nodes i).address = (w.nodes i).address
      ∧ ((w.setChain j s).nodes i).consensus = (w.nodes i).consensus := by
    intro i
    by_cases hij : i = j
    · subst hij
      simp [Network.setChain]
    · simp [Network.setChain, hij]
  refine ⟨?_, ?_, ?_, hb.pending⟩
  · simp only [hnode]
    exact hb.distinct
  · intro i
    simp only [hnode]
    exact hb.managers i
  · intro x hx i hi
    rw [(hnode i).1] at hi
    exact hb.inFlight x hx i hi

/-- Messages are sent, backed where they are from nodes. -/
theorem BacksNetwork.send (hb : E.BacksNetwork w) {messages : List (Fin n × PubSubMessage)}
    (hmessages : ∀ x ∈ messages, ∀ i, x.2.fromPeer = (w.nodes i).address →
      E.BacksPayload i x.2.payload) :
    E.BacksNetwork { w with inFlight := w.inFlight ++ messages } := by
  refine ⟨hb.distinct, hb.managers, ?_, hb.pending⟩
  intro x hx i hi
  rcases List.mem_append.mp hx with hold | hnew
  · exact hb.inFlight x hold i hi
  · exact hmessages x hnew i hi

theorem BacksNetwork.broadcast (hb : E.BacksNetwork w) {j : Fin n} {payload : Payload}
    (hpayload : E.BacksPayload j payload) : E.BacksNetwork (w.broadcast j payload) := by
  apply hb.send
  intro x hx i hi
  obtain ⟨k, -, rfl⟩ := List.mem_map.mp hx
  obtain rfl : j = i := hb.distinct hi
  exact hpayload

/-- A message that arrives. -/
theorem BacksNetwork.handleMessage {j : Fin n} {message : PubSubMessage} (hb : E.BacksNetwork w)
    (hmessage : ∀ i, message.fromPeer = (w.nodes i).address → E.BacksPayload i message.payload)
    (hchecked : ∀ b hd, b.header = some hd → message.payload = .prePrepare (some b) →
      message.fromPeer ≠ (w.nodes j).address → hd.proposer ≠ some (w.nodes j).address →
        validateBlock db o b (w.nodes j).chain = .ok () → E.checked j hd.hash)
    (hprepared : ∀ h, ((w.handleMessage db o j message).nodes j).consensus.HoldsPrepares h →
      E.prepared j h) :
    E.BacksNetwork (w.handleMessage db o j message) := by
  unfold Network.handleMessage at hprepared ⊢
  split at hprepared
  · split
    · exact hb
    · exact hb.setChain j _
  · unfold handleConsensusMessage at hprepared ⊢
    cases hadmitted : admitted db o (w.nodes j).address (w.nodes j).chain message with
    | error e => exact hb
    | ok r =>
        cases r with
        | none => exact hb.setConsensus (hb.managers j) (fun ev hev => by cases hev)
        | some cmsg =>
            simp only [hadmitted, ok_bind] at hprepared ⊢
            cases hins : (w.nodes j).consensus.insertOrWarn cmsg with
            | error e => exact hb
            | ok r =>
                obtain ⟨cm, pubs⟩ := r
                simp only [hins, Network.nodes_setConsensus, if_true] at hprepared ⊢
                have hinserted := (hb.managers j).insert (built_of_admitted hadmitted) hins
                obtain ⟨hcm, hpubs⟩ : E.BacksManager (fun i => (w.nodes i).address) j cm
                    ∧ ∀ ev ∈ pubs, E.BacksEvent j ev := by
                  cases admits_of_admitted hadmitted with
                  | prePrepare fromPeer b hd hforeign hheader hproposer hvalid =>
                      have hfound := hchecked b hd hheader rfl hforeign hproposer hvalid
                      exact hinserted (fun _ => hfound) (fun i hi => trivial)
                        (fun hne => absurd rfl hne) (hprepared hd.hash)
                  | prepare fromPeer h signature hforeign =>
                      exact hinserted (fun heq => by cases heq) hmessage (fun _ => hforeign)
                        (hprepared h)
                  | commit fromPeer h signature hforeign =>
                      exact hinserted (fun heq => by cases heq) hmessage (fun _ => hforeign)
                        (hprepared h)
                exact hb.setConsensus hcm hpubs

/-- Messages and events may get lost. -/
theorem BacksNetwork.drop (hb : E.BacksNetwork w) {inFlight : List (Fin n × PubSubMessage)}
    {pending : List (Fin n × NewState)} (hinFlight : inFlight ⊆ w.inFlight)
    (hpending : pending ⊆ w.pending) :
    E.BacksNetwork { w with inFlight := inFlight, pending := pending } :=
  ⟨hb.distinct, hb.managers, fun x hx => hb.inFlight x (hinFlight hx),
    fun x hx => hb.pending x (hpending hx)⟩

theorem BacksNetwork.deliver (hb : E.BacksNetwork w) (k : Nat)
    (hchecked : ∀ i h, Network.Checks db i h w (o, .node (.deliver k)) → E.checked i h)
    (hprepared : ∀ i h, ((w.deliver db o k).nodes i).consensus.HoldsPrepares h → E.prepared i h) :
    E.BacksNetwork (w.deliver db o k) := by
  unfold Network.deliver at hprepared ⊢
  cases hk : w.inFlight[k]? with
  | none => exact hb
  | some x =>
      obtain ⟨j, message⟩ := x
      rw [hk] at hprepared
      have hdropped := hb.drop (List.eraseIdx_subset (k := k)) (List.Subset.refl w.pending)
      apply hdropped.handleMessage
      · exact hb.inFlight (j, message) (List.mem_of_getElem? hk)
      · intro b hd hheader hpayload hforeign hproposer hvalid
        apply hchecked
        refine ⟨b, hd, hheader, rfl, ⟨message.fromPeer, hforeign, ?_⟩, hproposer, hvalid⟩
        rw [hk, ← hpayload]
      · exact hprepared j

/-- A node votes as the event on its bus says. -/
theorem BacksNetwork.handleNewState (hb : E.BacksNetwork w) (k : Nat) :
    E.BacksNetwork (w.handleNewState sign k) := by
  unfold Network.handleNewState
  cases hk : w.pending[k]? with
  | none => exact hb
  | some x =>
      obtain ⟨i, ev⟩ := x
      have hdropped := hb.drop (List.Subset.refl w.inFlight) (List.eraseIdx_subset (k := k))
      dsimp only
      split
      · next payload hsends =>
          apply hdropped.broadcast
          have hev := hb.pending (i, ev) (List.mem_of_getElem? hk)
          obtain ⟨b, hd, signature, hblock, hheader, -, hvote⟩ := onNewState_eq_some hsends
          obtain ⟨hchecked, hprepared⟩ := hev b hd hblock hheader
          rcases hvote with ⟨-, rfl⟩ | ⟨hstate, rfl⟩
          · exact hchecked
          · exact ⟨hchecked, hprepared hstate⟩
      · exact hdropped
      · exact hdropped

theorem BacksNetwork.proposeAt (hb : E.BacksNetwork w) {i : Fin n} {blk : Block}
    (hchecked : ∀ hd, blk.header = some hd → w.Proposes i blk → E.checked i hd.hash)
    (hprepared : ∀ h, ((w.proposeAt i blk).nodes i).consensus.HoldsPrepares h → E.prepared i h) :
    E.BacksNetwork (w.proposeAt i blk) := by
  unfold Network.proposeAt at hprepared ⊢
  cases hpropose : propose (w.nodes i).address blk (w.nodes i).consensus with
  | error e => exact hb
  | ok r =>
      obtain ⟨cm, pubs, payload⟩ := r
      rw [hpropose] at hprepared
      have hproposes : w.Proposes i blk := ⟨_, hpropose⟩
      simp only [propose, bind_eq_ok, deref_eq_ok, pure_eq_ok_iff, Prod.mk.injEq] at hpropose
      obtain ⟨hd, hheader, ⟨cm₁, pubs₁⟩, hins, rfl, rfl, rfl⟩ := hpropose
      have hnode : ((w.setConsensus i cm₁ pubs₁).nodes i).consensus = cm₁ := by
        rw [Network.nodes_setConsensus, if_pos rfl]
      have hholds : cm₁.HoldsPrepares hd.hash → E.prepared i hd.hash := by
        intro h
        apply hprepared
        show ((w.setConsensus i cm₁ pubs₁).nodes i).consensus.HoldsPrepares hd.hash
        rwa [hnode]
      have hbuilt : Built hd.hash ⟨.prePrepare, hd.hash, [], some blk, (w.nodes i).address⟩ :=
        ⟨rfl, blk, hd, rfl, hheader, rfl⟩
      obtain ⟨hcm, hpubs⟩ := (hb.managers i).insert hbuilt (insertOrWarn_of_ok hins)
        (fun _ => hchecked hd hheader hproposes) (fun _ _ => trivial)
        (fun hne => absurd rfl hne) hholds
      exact (hb.setConsensus hcm hpubs).broadcast trivial

theorem BacksNetwork.proposeMined (hb : E.BacksNetwork w) {i : Fin n} {mined : Option Block}
    (hchecked : ∀ b hd, mined = some b → b.header = some hd → w.Proposes i b →
      E.checked i hd.hash)
    (hprepared : ∀ h, ((w.proposeMined i mined).nodes i).consensus.HoldsPrepares h →
      E.prepared i h) :
    E.BacksNetwork (w.proposeMined i mined) := by
  cases mined with
  | none => exact hb
  | some blk => exact hb.proposeAt (fun hd hheader => hchecked blk hd rfl hheader) hprepared

theorem consensus_commitAcceptedBlocks (db : Database σ) (o : Oracles) (blocks : List ConsensusInfo)
    (cm : ConsensusManager) (s : σ) : (commitAcceptedBlocks db o blocks cm s).consensus = cm
      ∨ (commitAcceptedBlocks db o blocks cm s).consensus = cm.prune := by
  unfold commitAcceptedBlocks
  split
  · exact .inl rfl
  · split
    · exact .inr rfl
    · exact .inr rfl

theorem BacksNetwork.commitAt (hb : E.BacksNetwork w) (db : Database σ) (o : Oracles) (i : Fin n)
    (blocks : List ConsensusInfo) :
    E.BacksNetwork (w.commitAt db o i blocks).2 := by
  have hcommitted : E.BacksNetwork ((w.setConsensus i
      (commitAcceptedBlocks db o blocks (w.nodes i).consensus (w.nodes i).chain).consensus
      []).setChain i
      (commitAcceptedBlocks db o blocks (w.nodes i).consensus (w.nodes i).chain).chain) := by
    apply BacksNetwork.setChain
    apply hb.setConsensus
    · rcases consensus_commitAcceptedBlocks db o blocks (w.nodes i).consensus (w.nodes i).chain
        with hsame | hpruned
      · rw [hsame]
        exact hb.managers i
      · rw [hpruned]
        exact backsManager_of_info_eq_none fun h => info_prune _ h
    · intro ev hev
      cases hev
  unfold Network.commitAt
  dsimp only
  split
  · exact ⟨hcommitted.distinct, hcommitted.managers, hcommitted.inFlight, hcommitted.pending⟩
  · exact hcommitted

theorem BacksNetwork.onNewBeaconEntry (hb : E.BacksNetwork w) {i : Fin n}
    {blocks : List ConsensusInfo} {mined : Option Block}
    (hchecked : ∀ b hd, mined = some b → b.header = some hd →
      (∀ e, (w.commitAt db o i blocks).1 = .error e → e = .noAcceptedBlocks) →
        (w.commitAt db o i blocks).2.Proposes i b → E.checked i hd.hash)
    (hprepared : ∀ h, ((w.onNewBeaconEntry db o i blocks mined).nodes i).consensus.HoldsPrepares h →
      E.prepared i h) :
    E.BacksNetwork (w.onNewBeaconEntry db o i blocks mined) := by
  have hcommitted := hb.commitAt db o i blocks
  unfold Network.onNewBeaconEntry at hprepared ⊢
  split at hprepared
  · next block w' hcommit =>
      rw [hcommit] at hcommitted hchecked
      have hbroadcast : E.BacksNetwork (w'.broadcast i (.newBlock block)) :=
        hcommitted.broadcast trivial
      refine hbroadcast.proposeMined (fun b hd hmined hheader hproposes => ?_) hprepared
      exact hchecked b hd hmined hheader (fun e he => by cases he) hproposes
  · next w' hcommit =>
      rw [hcommit] at hcommitted hchecked
      refine hcommitted.proposeMined (fun b hd hmined hheader hproposes => ?_) hprepared
      exact hchecked b hd hmined hheader (fun e he => (Except.error.inj he).symm) hproposes
  · next w' hne hcommit =>
      rw [hcommit] at hcommitted
      exact hcommitted

/-- One step, with the evidence that it adds. -/
theorem BacksNetwork.openStep (hb : E.BacksNetwork w) (oe : Oracles × OpenEvent n)
    (hchecked : ∀ i h, w.Checks db i h oe → E.checked i h)
    (hprepared : ∀ i h, ((w.openStep db sign oe).nodes i).consensus.HoldsPrepares h →
      E.prepared i h) :
    E.BacksNetwork (w.openStep db sign oe) := by
  obtain ⟨o, e⟩ := oe
  cases e with
  | node e =>
      cases e with
      | deliver k => exact hb.deliver k hchecked hprepared
      | newState k => exact hb.handleNewState k
      | propose i blk =>
          apply hb.proposeAt
          · intro hd hheader hproposes
            exact hchecked i hd.hash ⟨blk, hd, hheader, rfl, rfl, rfl, hproposes⟩
          · exact hprepared i
      | beacon i blocks mined =>
          unfold Network.openStep Network.step at hprepared ⊢
          dsimp only at hprepared ⊢
          by_cases hperm : blocks.Perm (w.nodes i).consensus.getAllBlocksWithCommit
          · rw [if_pos hperm] at hprepared ⊢
            apply hb.onNewBeaconEntry
            · intro b hd hmined hheader hgoes hproposes
              exact hchecked i hd.hash ⟨b, hd, hheader, rfl, rfl, hmined, hperm, hgoes, hproposes⟩
            · exact hprepared i
          · rw [if_neg hperm]
            exact hb
  | foreign j message =>
      unfold Network.openStep
      dsimp only
      split
      · exact hb
      · next hforeign =>
          apply hb.send
          intro x hx i hi
          obtain rfl := List.mem_singleton.mp hx
          exact absurd ⟨i, hi.symm⟩ hforeign

end Steps

end Evidence

/-! ## Every run -/

section Runs

variable {σ : Type} {n : Nat} (db : Database σ) (sign : Fin n → Bytes → Except Err Bytes)
  (w : Network σ n)

/-- A network in which nothing has been said yet. -/
structure Network.Fresh (w : Network σ n) : Prop where
  distinct : Function.Injective fun i => (w.nodes i).address
  managers : ∀ i h, (w.nodes i).consensus.info h = none
  inFlight : w.inFlight = []
  pending : w.pending = []

/-- The network after `evs`. -/
def Network.openRun (evs : List (Oracles × OpenEvent n)) : Network σ n :=
  Run.exec (Network.openStep db sign) w evs

/-- The log of node `i` for `h` after `evs`. -/
def Network.logAfter (evs : List (Oracles × OpenEvent n)) (i : Fin n) (h : Bytes) : MessageLog :=
  ((w.openRun db sign evs).nodes i).consensus.logOf h

/-- Node `i` has checked a block with the hash `h`. -/
def Checked (evs : List (Oracles × OpenEvent n)) (i : Fin n) (h : Bytes) : Prop :=
  Run.SomeStep (Network.openStep db sign) w evs (Network.Checks db i h)

/-- Node `i` has checked a block with the hash `h` and has had enough Prepares for it in its log,
    from outsiders or from nodes that had checked such a block as well. -/
def Entitled (evs : List (Oracles × OpenEvent n)) (i : Fin n) (h : Bytes) : Prop :=
  Checked db sign w evs i h ∧ ∃ pre, pre <+: evs
    ∧ ((w.openRun db sign pre).nodes i).consensus.HoldsPrepares h
    ∧ ∀ msg ∈ w.logAfter db sign pre i h, msg.type = .prepare → ∀ k,
      msg.fromPeer = ((w.openRun db sign pre).nodes k).address → Checked db sign w pre k h

/-- What the nodes have done in the run. -/
def evidence (evs : List (Oracles × OpenEvent n)) : Evidence n where
  checked := Checked db sign w evs
  prepared i h := ∃ pre, pre <+: evs
    ∧ ((w.openRun db sign pre).nodes i).consensus.HoldsPrepares h

variable {db sign w}

theorem evidence_le_concat (evs : List (Oracles × OpenEvent n)) (oe : Oracles × OpenEvent n) :
    (evidence db sign w evs).Le (evidence db sign w (evs ++ [oe])) where
  checked _ _ hchecked := hchecked.concat oe
  prepared _ _ := by
    rintro ⟨pre, hpre, hholds⟩
    exact ⟨pre, hpre.trans (List.prefix_append evs [oe]), hholds⟩

theorem backsNetwork_openRun (hfresh : w.Fresh) (evs : List (Oracles × OpenEvent n)) :
    (evidence db sign w evs).BacksNetwork (w.openRun db sign evs) := by
  induction evs using List.reverseRecOn with
  | nil =>
      refine ⟨hfresh.distinct, ?_, ?_, ?_⟩
      · intro j
        exact Evidence.backsManager_of_info_eq_none (hfresh.managers j)
      · intro x hx
        rw [Network.openRun, Run.exec_nil, hfresh.inFlight] at hx
        cases hx
      · intro x hx
        rw [Network.openRun, Run.exec_nil, hfresh.pending] at hx
        cases hx
  | append_singleton evs oe ih =>
      have hstep : w.openRun db sign (evs ++ [oe]) = (w.openRun db sign evs).openStep db sign oe :=
        Run.exec_concat ..
      rw [hstep]
      apply (ih.mono (evidence_le_concat evs oe)).openStep
      · intro i h hchecks
        exact Run.someStep_last hchecks
      · intro i h hholds
        exact ⟨evs ++ [oe], List.prefix_refl _, hstep ▸ hholds⟩

/-- The Commit of a node is an entitled one. -/
theorem entitled_of_commit (hfresh : w.Fresh) {evs : List (Oracles × OpenEvent n)} {j i : Fin n}
    {h : Bytes} {msg : ConsensusMessage} (hmsg : msg ∈ w.logAfter db sign evs j h)
    (htype : msg.type = .commit)
    (hfrom : msg.fromPeer = ((w.openRun db sign evs).nodes i).address) :
    Entitled db sign w evs i h := by
  have hvote := ((backsNetwork_openRun hfresh evs).managers j).votes h msg hmsg i hfrom
  rw [htype] at hvote
  obtain ⟨hchecked, pre, hpre, hholds⟩ := hvote
  refine ⟨hchecked, pre, hpre, hholds, ?_⟩
  -- the Prepares were backed at that time
  intro msg' hmsg' htype' k hk
  have hvote' := ((backsNetwork_openRun hfresh pre).managers i).votes h msg' hmsg' k hk
  rw [htype'] at hvote'
  exact hvote'

end Runs

/-- An outsider sends a Prepare before the first of two nodes proposes its block. -/
def disturbedRound : List (Oracles × OpenEvent 2) :=
  (.permissive, .foreign firstNode ⟨[9], .prepare [1] [7]⟩)
    :: (.permissive, .node (.propose firstNode twoNodes.blk))
    :: twoNodesRun.map fun e => (.permissive, .node e)

theorem fresh_twoNodes : twoNodes.start.Fresh :=
  ⟨by decide, fun i h => info_new 1 h, rfl, rfl⟩

end Dione.Consensus
