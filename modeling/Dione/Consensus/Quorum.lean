/-
  Dione.Consensus.Quorum

  Whose approvals a committed round rests on.

  The thresholds of `maybeUpdateConsensusState` count messages, and two messages
  that differ in their signature only are two messages.  So a committed round
  has a quorum of distinct peers behind it as long as no peer gets a second,
  different vote of the same type for the same hash into the log.
-/

import Dione.Blockchain.Integrity
import Dione.Consensus.Handler
import Dione.Consensus.Round

namespace Dione.Consensus

open Guard BlockChain ConsensusManager

/-! ## Runs of a manager -/

/-- What can happen to a node's consensus manager. -/
inductive ManagerEvent (σ : Type) where
  /-- A pubsub message from any peer reaches the handlers. -/
  | received (o : Oracles) (address : PeerID) (s : σ) (message : PubSubMessage)
  /-- The node proposes a block of its own. -/
  | proposed (address : PeerID) (blk : Block)
  | pruned

/-- One event.  A panic leaves no manager behind; the model keeps the old one. -/
def managerStep {σ : Type} (db : Database σ) (cm : ConsensusManager) :
    ManagerEvent σ → ConsensusManager
  | .received o address s message =>
    match handleConsensusMessage db o address s message cm with
    | .ok r => r.1
    | .error _ => cm
  | .proposed address blk =>
    match propose address blk cm with
    | .ok r => r.1
    | .error _ => cm
  | .pruned => cm.prune

/-- The message an event puts to the log, if any. -/
def ManagerEvent.puts {σ : Type} (db : Database σ) : ManagerEvent σ → Option ConsensusMessage
  | .received o address s message => (admitted db o address s message).toOption.join
  | .proposed address blk =>
    blk.header.map fun header => ⟨.prePrepare, header.hash, [], some blk, address⟩
  | .pruned => none

section Built

variable {σ : Type} {db : Database σ} {o : Oracles} {address : PeerID} {s : σ}
  {cmsg : ConsensusMessage}

theorem built_of_handlePrePrepare {fromPeer : PeerID} {block : Option Block}
    (h : handlePrePrepare db o address s fromPeer block = .ok (some cmsg)) :
    Built cmsg.blockhash cmsg := by
  simp only [handlePrePrepare, bind_eq_ok, deref_eq_ok] at h
  obtain ⟨blk, -, header, hheader, proposer, -, h⟩ := h
  split at h
  · cases h
  · simp only [bind_eq_ok, pure_eq_ok_iff] at h
    obtain ⟨ok, -, h⟩ := h
    obtain ⟨-, ⟨⟩⟩ := Option.ite_none_right_eq_some.mp h
    exact ⟨rfl, blk, header, rfl, hheader, rfl⟩

theorem built_of_handleVote {typ : MessageType} (htyp : typ = .prepare ∨ typ = .commit)
    {fromPeer : PeerID} {blockhash signature : Bytes}
    (h : handleVote db o s typ fromPeer blockhash signature = .ok (some cmsg)) :
    Built cmsg.blockhash cmsg := by
  simp only [handleVote, bind_eq_ok, pure_eq_ok_iff] at h
  obtain ⟨ok, -, h⟩ := h
  obtain ⟨-, ⟨⟩⟩ := Option.ite_none_right_eq_some.mp h
  rcases htyp with rfl | rfl <;> exact ⟨rfl, rfl⟩

/-- Handlers build their messages. -/
theorem built_of_admitted {message : PubSubMessage}
    (h : admitted db o address s message = .ok (some cmsg)) : Built cmsg.blockhash cmsg := by
  unfold admitted at h
  split at h
  · cases h
  · split at h
    · exact built_of_handlePrePrepare h
    -- Prepare and Commit are checked alike; the other types are dropped.
    · exact built_of_handleVote (.inl rfl) h
    · exact built_of_handleVote (.inr rfl) h
    · cases h
    · cases h

end Built

theorem built_of_puts {σ : Type} {db : Database σ} {e : ManagerEvent σ} {cmsg : ConsensusMessage}
    (h : e.puts db = some cmsg) : Built cmsg.blockhash cmsg := by
  cases e with
  | received o address s message =>
      have hadm : admitted db o address s message = .ok (some cmsg) := by
        simp only [ManagerEvent.puts, Option.join_eq_some_iff] at h
        cases ha : admitted db o address s message with
        | error e => simp [ha, Except.toOption] at h
        | ok m => simpa [ha, Except.toOption] using h
      exact built_of_admitted hadm
  | proposed address blk =>
      obtain ⟨header, hheader, rfl⟩ := Option.map_eq_some_iff.mp h
      exact ⟨rfl, blk, header, rfl, hheader, rfl⟩
  | pruned => cases h

/-- A received message is put to the log if it is admitted. -/
theorem managerStep_received {σ : Type} (db : Database σ) (cm : ConsensusManager) (o : Oracles)
    (address : PeerID) (s : σ) (message : PubSubMessage) (hok : ∀ h, cm.RoundOk h) :
    managerStep db cm (.received o address s message) = cm ∨
      ∃ cmsg pubs, (ManagerEvent.received o address s message).puts db = some cmsg ∧
        cm.insertOrWarn cmsg = .ok (managerStep db cm (.received o address s message), pubs) := by
  cases ha : admitted db o address s message with
  | error err =>
      left
      simp [managerStep, handleConsensusMessage, ha]
  | ok m =>
      cases m with
      | none =>
          left
          simp [managerStep, handleConsensusMessage, ha, pure, Except.pure]
      | some cmsg =>
          obtain ⟨cm', pubs, hins, -⟩ :=
            insertOrWarn_spec (hok cmsg.blockhash) (built_of_admitted ha)
          right
          refine ⟨cmsg, pubs, by simp [ManagerEvent.puts, ha, Except.toOption], ?_⟩
          simp [managerStep, handleConsensusMessage, ha, hins]

/-- A block with a header is proposed unless it has been before.  A refused proposal is an
    error to `propose`, and only a warning to the handlers. -/
theorem managerStep_proposed {σ : Type} (db : Database σ) (cm : ConsensusManager)
    (address : PeerID) (blk : Block) (hok : ∀ h, cm.RoundOk h) :
    managerStep db cm (.proposed address blk) = cm ∨
      ∃ cmsg pubs, (ManagerEvent.proposed address blk : ManagerEvent σ).puts db = some cmsg ∧
        cm.insertOrWarn cmsg = .ok (managerStep db cm (.proposed address blk), pubs) := by
  cases hh : blk.header with
  | none =>
      left
      simp [managerStep, propose, hh, deref]
  | some header =>
      have hputs : (ManagerEvent.proposed address blk : ManagerEvent σ).puts db
          = some ⟨.prePrepare, header.hash, [], some blk, address⟩ := by
        simp [ManagerEvent.puts, hh]
      by_cases hmem : (⟨.prePrepare, header.hash, [], some blk, address⟩ : ConsensusMessage)
          ∈ cm.logOf header.hash
      · left
        have href : cm.insertMessageIntoLog ⟨.prePrepare, header.hash, [], some blk, address⟩
            = .error alreadyExists := insertMessageIntoLog_of_mem rfl hmem
        simp [managerStep, propose, hh, href]
      · obtain ⟨ci, hins, -⟩ := insertMessageIntoLog_of_not_mem (hok header.hash)
          (built_of_puts hputs) hmem
        have hstep : managerStep db cm (.proposed address blk) = cm.setInfo header.hash ci := by
          simp [managerStep, propose, hh, hins, pure, Except.pure]
        have hwarn := insertOrWarn_of_ok hins
        right
        exact ⟨_, _, hputs, hstep ▸ hwarn⟩

/-- Every event prunes, puts one built message to the log, or does nothing. -/
theorem managerStep_cases {σ : Type} (db : Database σ) (cm : ConsensusManager)
    (e : ManagerEvent σ) (hok : ∀ h, cm.RoundOk h) :
    managerStep db cm e = cm ∨ managerStep db cm e = cm.prune ∨
      ∃ cmsg pubs, e.puts db = some cmsg ∧
        cm.insertOrWarn cmsg = .ok (managerStep db cm e, pubs) := by
  cases e with
  | pruned => exact .inr (.inl rfl)
  | received o address s message =>
      exact (managerStep_received db cm o address s message hok).imp_right .inr
  | proposed address blk => exact (managerStep_proposed db cm address blk hok).imp_right .inr

/-! ## Quorums of distinct peers -/

/-- The peers whose messages of a type a log holds for a block hash. -/
def peers (typ : MessageType) (log : MessageLog) (blockhash : Bytes) : Finset PeerID :=
  ((log.filter fun msg => msg.type = typ ∧ msg.blockhash = blockhash).map
    ConsensusMessage.fromPeer).toFinset

/-- Every committed round has its quorums from pairwise distinct peers. -/
def QuorumsDistinct (cm : ConsensusManager) : Prop :=
  ∀ h ci, cm.info h = some ci → ci.state = .commited →
    commitQuorum cm.minApprovals ≤ (peers .commit ci.messageLog ci.blockhash).card ∧
      prepareQuorum cm.minApprovals ≤ (peers .prepare ci.messageLog ci.blockhash).card

/-- No peer has two different votes of one type in the log of `h`. -/
def NoDoubleVotes (cm : ConsensusManager) (h : Bytes) : Prop :=
  ∀ x ∈ cm.logOf h, ∀ y ∈ cm.logOf h, x.type = y.type → x.type ≠ .prePrepare →
    x.fromPeer = y.fromPeer → x = y

/-- The vote an event puts to the log is the only one of its peer there. -/
def PutsNoDoubleVote {σ : Type} (db : Database σ) (cm : ConsensusManager) (e : ManagerEvent σ) :
    Prop :=
  ∀ cmsg, e.puts db = some cmsg → cmsg.type ≠ .prePrepare →
    ∀ x ∈ cm.logOf cmsg.blockhash, x.type = cmsg.type → x.fromPeer = cmsg.fromPeer → x = cmsg

/-- Without double votes, peers and messages are equally many. -/
theorem card_peers {cm : ConsensusManager} {h : Bytes} {ci : ConsensusInfo}
    (hci : cm.info h = some ci) (hok : EntryOk cm.minApprovals h ci)
    (hone : NoDoubleVotes cm h) {typ : MessageType} (htyp : typ ≠ .prePrepare) :
    (peers typ ci.messageLog ci.blockhash).card = approvals typ ci.messageLog.toFinset := by
  have hlog : cm.logOf h = ci.messageLog := by rw [logOf, hci]
  -- all messages of a round are for its hash, so the hash filters nothing out
  have hset : peers typ ci.messageLog ci.blockhash =
      (ci.messageLog.toFinset.filter fun msg => msg.type = typ).image
        ConsensusMessage.fromPeer := by
    ext p
    simp only [peers, List.mem_toFinset, List.mem_map, List.mem_filter, Finset.mem_image,
      Finset.mem_filter, decide_eq_true_eq]
    constructor
    · rintro ⟨msg, ⟨hmem, ht, -⟩, hp⟩
      exact ⟨msg, ⟨hmem, ht⟩, hp⟩
    · rintro ⟨msg, ⟨hmem, ht⟩, hp⟩
      exact ⟨msg, ⟨hmem, ht, (hok.built msg hmem).1.trans hok.blockhash_eq.symm⟩, hp⟩
  rw [hset, approvals]
  -- what is left is that peers determine their messages
  apply Finset.card_image_of_injOn
  intro x hx y hy hxy
  simp only [Finset.coe_filter, List.mem_toFinset, Set.mem_ofPred_eq] at hx hy
  exact hone x (hlog ▸ hx.1) y (hlog ▸ hy.1) (hx.2.trans hy.2.symm) (hx.2 ▸ htyp) hxy

theorem quorumsDistinct_of_noDoubleVotes {cm : ConsensusManager} (hok : ∀ h, cm.RoundOk h)
    (hone : ∀ h, NoDoubleVotes cm h) : QuorumsDistinct cm := by
  intro h ci hci hstate
  have hentry := hok h ci hci
  rw [card_peers hci hentry (hone h) (by decide), card_peers hci hentry (hone h) (by decide)]
  exact quorums_of_roundState_eq_commited (hentry.state_eq.symm.trans hstate)

/-! ## Runs without double votes -/

/-- What a run without double votes keeps. -/
structure VotesOk (cm : ConsensusManager) : Prop where
  round : ∀ h, cm.RoundOk h
  single : ∀ h, NoDoubleVotes cm h

theorem votesOk_of_empty {cm : ConsensusManager} (hnone : ∀ h, cm.info h = none) :
    VotesOk cm where
  round h := roundOk_of_none (hnone h)
  single h := by simp [NoDoubleVotes, logOf, hnone h]

theorem logOf_congr {cm cm' : ConsensusManager} {h : Bytes} (heq : cm'.info h = cm.info h) :
    cm'.logOf h = cm.logOf h := by
  rw [logOf, logOf, heq]

theorem VotesOk.step {σ : Type} {db : Database σ} {cm : ConsensusManager} {e : ManagerEvent σ}
    (hv : VotesOk cm) (hput : PutsNoDoubleVote db cm e) : VotesOk (managerStep db cm e) := by
  rcases managerStep_cases db cm e hv.round with heq | heq | ⟨cmsg, pubs, hputs, hins⟩
  · rw [heq]
    exact hv
  -- pruning empties the manager
  · rw [heq]
    exact votesOk_of_empty fun h => info_prune cm h
  · obtain ⟨cm', pubs', hins', hspec⟩ :=
      insertOrWarn_spec (hv.round cmsg.blockhash) (built_of_puts hputs)
    -- the insertion of `managerStep_cases` is the one the spec speaks of
    obtain ⟨rfl, -⟩ : managerStep db cm e = cm' ∧ pubs = pubs' := by
      simpa using Except.ok.inj (hins.symm.trans hins')
    constructor
    · intro h
      by_cases hh : h = cmsg.blockhash
      · exact hh ▸ hspec.round
      · intro ci hci
        rw [hspec.other h hh] at hci
        rw [hspec.minApprovals_eq]
        exact hv.round h ci hci
    · intro h
      by_cases hh : h = cmsg.blockhash
      · subst hh
        intro x hx y hy htype hvote hpeer
        -- each of the two votes is the new one or an old one
        rcases (hspec.mem_log x).mp hx with rfl | hx <;>
          rcases (hspec.mem_log y).mp hy with rfl | hy
        · rfl
        · exact (hput x hputs hvote y hy htype.symm hpeer.symm).symm
        · exact hput y hputs (htype ▸ hvote) x hx htype hpeer
        · exact hv.single _ x hx y hy htype hvote hpeer
      · unfold NoDoubleVotes
        rw [logOf_congr (hspec.other h hh)]
        exact hv.single h

/-- In every run in which no peer's second, different vote of one type for one
    hash reaches the log, every committed round has quorums of distinct peers,
    in every state of the run. -/
theorem quorumsDistinct_of_putsNoDoubleVote {σ : Type} (db : Database σ) (minApprovals : Int64)
    (evs : List (ManagerEvent σ))
    (hput : Run.StepsMeet (managerStep db) (new minApprovals) evs (PutsNoDoubleVote db)) :
    Run.Always (managerStep db) (new minApprovals) evs QuorumsDistinct := by
  have hinv : Run.Always (managerStep db) (new minApprovals) evs VotesOk :=
    Run.always_of_stepsMeet (fun cm e hv hok => hv.step hok)
      (votesOk_of_empty fun h => info_new minApprovals h) hput
  -- every state of the run has its rounds in order and no double votes
  intro pre hpre
  exact quorumsDistinct_of_noDoubleVotes (hinv pre hpre).round (hinv pre hpre).single

/-! ### Two runs -/

instance {σ : Type} (db : Database σ) (cm : ConsensusManager) (e : ManagerEvent σ) :
    Decidable (PutsNoDoubleVote db cm e) :=
  decidable_of_iff (∀ cmsg ∈ e.puts db, cmsg.type ≠ .prePrepare →
    ∀ x ∈ cm.logOf cmsg.blockhash, x.type = cmsg.type → x.fromPeer = cmsg.fromPeer → x = cmsg)
    Iff.rfl

/-- A message to a node with the genesis chain that accepts every signature. -/
def receivedFrom (fromPeer : PeerID) (payload : Payload) : ManagerEvent Memory.Cache :=
  .received .permissive [5] (genesisChain Memory.backend) ⟨fromPeer, payload⟩

/-- A block is proposed by one peer, prepared by another and committed by two. -/
def distinctVotes : List (ManagerEvent Memory.Cache) :=
  [receivedFrom [1] (.prePrepare (some (childOfGenesis [1] 1))),
    receivedFrom [2] (.prepare [1] []), receivedFrom [2] (.commit [1] []),
    receivedFrom [3] (.commit [1] [])]

theorem quorumsDistinct_distinctVotes :
    Run.Always (managerStep Memory.database) (new 2) distinctVotes QuorumsDistinct := by
  apply quorumsDistinct_of_putsNoDoubleVote
  simp only [distinctVotes, Run.stepsMeet_cons]
  exact ⟨by decide +kernel, by decide +kernel, by decide +kernel, by decide +kernel,
    Run.stepsMeet_nil⟩

/-- One peer proposes and prepares a block and commits it twice, with two
    signatures. -/
def doubleVotes : List (ManagerEvent Memory.Cache) :=
  [receivedFrom [9] (.prePrepare (some (childOfGenesis [1] 1))),
    receivedFrom [9] (.prepare [1] [0]), receivedFrom [9] (.commit [1] [1]),
    receivedFrom [9] (.commit [1] [2])]

/-- With `minApprovals = 2` that one peer gets the block committed. -/
theorem not_quorumsDistinct_doubleVotes :
    ¬ Run.Always (managerStep Memory.database) (new 2) doubleVotes QuorumsDistinct := by
  intro h
  have hfinal : ((Run.exec (managerStep Memory.database) (new 2) doubleVotes).info [1]).map
      (fun ci => (ci.state, (peers .commit ci.messageLog ci.blockhash).card))
        = some (.commited, 1) := by decide +kernel
  have hmin : commitQuorum (Run.exec (managerStep Memory.database) (new 2)
      doubleVotes).minApprovals = 2 := by decide +kernel
  obtain ⟨ci, hci, hpair⟩ := Option.map_eq_some_iff.mp hfinal
  obtain ⟨hstate, hcard⟩ := Prod.mk.inj hpair
  have hquorum := (h.final [1] ci hci hstate).1
  rw [hmin, hcard] at hquorum
  omega

end Dione.Consensus
