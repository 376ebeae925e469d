/-
  Dione.Node.Rounds

  The consensus rounds of a node over whole runs.

  Every message in a log has been built by a handler or by `propose`, and every block in
  one has passed `ValidateBlock` or been mined here.  So `commitAcceptedBlocks` finds
  everything it reads in the committed rounds, whose blocks have distinct hashes.
-/

import Dione.Blockchain.Ticket
import Dione.Consensus.Quorum
import Dione.Consensus.Selection
import Dione.Node
import Mathlib.Data.Set.List

namespace Dione

open Guard Text Dione.Lists BlockChain Consensus ConsensusManager

/-- A block with what the selection of `commitAcceptedBlocks` reads. -/
def Block.Proposable (b : Block) : Prop :=
  ∃ header, b.header = some header ∧ header.electionProof ≠ none ∧ header.proposer ≠ none

/-- The invariant of a node's rounds. -/
structure RoundsOk (cm : ConsensusManager) : Prop where
  round : ∀ h, cm.RoundOk h
  keyed : ∀ key ci, cm.consensusInfoMap.lookup key = some ci → key = hexEncode ci.blockhash
  proposable : ∀ h, ∀ msg ∈ cm.logOf h, ∀ b, msg.block = some b → b.Proposable

/-! ## What is proposed -/

theorem proposable_of_validateBlock {σ : Type} {db : Database σ} {o : Oracles} {block : Block}
    {s : σ} (h : validateBlock db o block s = .ok ()) : block.Proposable := by
  obtain ⟨header, proposer, ep, hheader, hproposer, hep, -⟩ := validateBlock_eq_ok.mp h
  exact ⟨header, hheader, by simp [hep], by simp [hproposer]⟩

theorem proposable_of_mineBlock {o : Oracles} {signer : Signer} {timestamp : Int64}
    {latest : Option BlockHeader} {txs : List Transaction} {randomness : Bytes}
    {randomnessRound : UInt64} {block : Block}
    (h : mineBlock o signer timestamp latest txs randomness randomnessRound = .ok (some block)) :
    block.Proposable := by
  obtain ⟨last, stakes, eproof, -, -, -, -, hcreate⟩ := mineBlock_eq_ok.mp h
  simp only [createBlock, bind_eq_ok, pure_eq_ok_iff] at hcreate
  obtain ⟨s, -, proof, -, txs', -, rfl⟩ := hcreate
  exact ⟨_, rfl, Option.some_ne_none _, Option.some_ne_none _⟩

/-- Votes carry no block. -/
theorem block_of_handleVote {σ : Type} {db : Database σ} {o : Oracles} {s : σ} {typ : MessageType}
    {fromPeer : PeerID} {blockhash signature : Bytes} {cmsg : ConsensusMessage}
    (h : handleVote db o s typ fromPeer blockhash signature = .ok (some cmsg)) :
    cmsg.block = none := by
  simp only [handleVote, bind_eq_ok, pure_eq_ok_iff] at h
  obtain ⟨ok, -, h⟩ := h
  obtain ⟨-, ⟨⟩⟩ := Option.ite_none_right_eq_some.mp h
  rfl

/-- A message a handler lets through has a block that can be proposed, or none. -/
theorem proposable_of_admitted {σ : Type} {db : Database σ} {o : Oracles} {address : PeerID}
    {s : σ} {message : PubSubMessage} {cmsg : ConsensusMessage}
    (h : admitted db o address s message = .ok (some cmsg)) :
    ∀ b, cmsg.block = some b → b.Proposable := by
  intro b hb
  unfold admitted at h
  split at h
  · cases h
  · split at h
    · simp only [handlePrePrepare, bind_eq_ok, deref_eq_ok] at h
      obtain ⟨blk, -, header, -, proposer, -, h⟩ := h
      split at h
      · cases h
      · simp only [bind_eq_ok, pure_eq_ok_iff] at h
        obtain ⟨ok, hvalid, h⟩ := h
        obtain ⟨rfl, ⟨⟩⟩ := Option.ite_none_right_eq_some.mp h
        obtain rfl := Option.some.inj hb
        simp only [valid, deref_some, ok_bind] at hvalid
        split at hvalid
        · next hok => exact proposable_of_validateBlock hok
        · split at hvalid
          · cases hvalid
          · cases hvalid
    · rw [block_of_handleVote h] at hb
      cases hb
    · rw [block_of_handleVote h] at hb
      cases hb
    · cases h
    · cases h

/-! ## One step -/

theorem roundsOk_of_empty {cm : ConsensusManager} (h : cm.consensusInfoMap = ∅) : RoundsOk cm where
  round _ := roundOk_of_none (by simp [info, h])
  keyed key ci hci := by simp [h] at hci
  proposable := by simp [logOf, info, h]

/-- Logging a built message keeps the invariant. -/
theorem RoundsOk.insert {cm cm' : ConsensusManager} {cmsg : ConsensusMessage}
    {pubs : List NewState} (hok : RoundsOk cm) (hm : Built cmsg.blockhash cmsg)
    (hprop : ∀ b, cmsg.block = some b → b.Proposable)
    (hins : cm.insertOrWarn cmsg = .ok (cm', pubs)) : RoundsOk cm' := by
  by_cases hmem : cmsg ∈ cm.logOf cmsg.blockhash
  · rw [insertOrWarn, insertMessageIntoLog_of_mem rfl hmem] at hins
    obtain ⟨rfl, -⟩ := Prod.mk.inj (Except.ok.inj hins)
    exact hok
  · obtain ⟨ci, hnew, hentry, hlog, -⟩ :=
      insertMessageIntoLog_of_not_mem (hok.round cmsg.blockhash) hm hmem
    rw [insertOrWarn_of_ok hnew] at hins
    obtain ⟨rfl, -⟩ := Prod.mk.inj (Except.ok.inj hins)
    refine ⟨?_, ?_, ?_⟩
    · intro h
      by_cases hh : h = cmsg.blockhash
      · rw [hh]
        exact roundOk_setInfo hentry
      · intro ci' hci'
        rw [info_setInfo, if_neg hh] at hci'
        exact hok.round h ci' hci'
    · intro key ci' hci'
      have hlookup : (cm.consensusInfoMap.insert (hexEncode cmsg.blockhash) ci).lookup key
          = some ci' := hci'
      rw [lookup_insert_ite] at hlookup
      split at hlookup
      · next hkey =>
          obtain rfl := Option.some.inj hlookup
          rw [hkey, hentry.blockhash_eq]
      · exact hok.keyed key ci' hlookup
    · intro h msg hmsg b hb
      by_cases hh : h = cmsg.blockhash
      · rw [hh, logOf_setInfo, hlog] at hmsg
        rcases List.mem_cons.mp hmsg with rfl | hold
        · exact hprop b hb
        · exact hok.proposable _ msg hold b hb
      · have hsame : (cm.setInfo cmsg.blockhash ci).logOf h = cm.logOf h :=
          logOf_congr (by rw [info_setInfo, if_neg hh])
        rw [hsame] at hmsg
        exact hok.proposable h msg hmsg b hb

section Step

variable {σ : Type} {db : Database σ} {signer : Signer} {rpc : RpcServices} {o : Oracles}

theorem RoundsOk.propose {cm cm' : ConsensusManager} {address : PeerID} {blk : Block}
    {pubs : List NewState} {payload : Payload} (hok : RoundsOk cm) (hprop : blk.Proposable)
    (h : propose address blk cm = .ok (cm', pubs, payload)) : RoundsOk cm' := by
  simp only [Consensus.propose, bind_eq_ok, deref_eq_ok, pure_eq_ok_iff, Prod.mk.injEq] at h
  obtain ⟨header, hheader, ⟨cm₁, pubs₁⟩, hins, rfl, rfl, -⟩ := h
  have hbuilt : Built header.hash ⟨.prePrepare, header.hash, [], some blk, address⟩ :=
    ⟨rfl, blk, header, rfl, hheader, rfl⟩
  refine hok.insert hbuilt ?_ (insertOrWarn_of_ok hins)
  intro b hb
  obtain rfl := Option.some.inj hb
  exact hprop

theorem RoundsOk.mine {s : NodeState σ} (hok : RoundsOk s.consensus) (keys : List Str)
    (timestamp : Int64) (entry : BeaconEntry) :
    RoundsOk (s.mine signer o keys timestamp entry).consensus := by
  unfold NodeState.mine
  split
  · split
    · next minedBlock hmine =>
        split
        · next hpropose => exact hok.propose (proposable_of_mineBlock hmine) hpropose
        · exact hok
    · exact hok
  · exact hok

theorem RoundsOk.commit {s : NodeState σ} (hok : RoundsOk s.consensus)
    (blocks : List ConsensusInfo) : RoundsOk (s.commit db o blocks).2.consensus := by
  simp only [NodeState.commit, commitAcceptedBlocks]
  split
  · exact hok
  · split
    · exact roundsOk_of_empty rfl
    · exact roundsOk_of_empty rfl

theorem RoundsOk.step {s : NodeState σ} (hok : RoundsOk s.consensus) (oe : Oracles × NodeEvent) :
    RoundsOk (s.step db signer rpc oe).consensus := by
  obtain ⟨o, e⟩ := oe
  cases e with
  | pool e => exact hok
  | newBlock payload => exact hok
  | synced block => exact hok
  | headerUpdated k =>
      simp only [NodeState.step]
      split
      · exact hok
      · exact hok
  | consensus message =>
      simp only [NodeState.step]
      split
      · next cm pubs hhandled =>
          simp only [handleConsensusMessage, bind_eq_ok] at hhandled
          obtain ⟨m, hm, hhandled⟩ := hhandled
          cases m with
          | none =>
              obtain ⟨rfl, -⟩ := Prod.mk.inj (Except.ok.inj hhandled)
              exact hok
          | some cmsg =>
              exact hok.insert (built_of_admitted hm) (proposable_of_admitted hm) hhandled
      · exact hok
  | beacon blocks keys timestamp entry =>
      simp only [NodeState.step]
      split
      · have hcommit : RoundsOk (s.commit db o blocks).2.consensus := hok.commit blocks
        rw [NodeState.onNewBeaconEntry_eq]
        split
        · exact hcommit.mine keys timestamp entry
        · exact hcommit
      · exact hok

end Step

/-! ## Whole runs -/

/-- The rounds of a node are in order in every state it can get into. -/
theorem roundsOk_run (B : Backend) (signer : Signer) (rpc : RpcServices) (minApprovals : Int64)
    (evs : List (Oracles × NodeEvent)) :
    RoundsOk (Run.exec (NodeState.step B.db signer rpc) (NodeState.new B minApprovals)
      evs).consensus :=
  Run.exec_invariant (I := fun s : NodeState B.σ => RoundsOk s.consensus)
    (fun _ oe hok => hok.step oe) (roundsOk_of_empty rfl) evs

theorem exists_committedRound {cm : ConsensusManager} (hok : RoundsOk cm) {key : Str}
    {ci : ConsensusInfo} (hci : cm.consensusInfoMap.lookup key = some ci)
    (hstate : ci.state = .commited) :
    ∃ r : CommittedRound, r.info = ci ∧ key = hexEncode r.header.hash := by
  have hkey := hok.keyed key ci hci
  have hinfo : cm.info ci.blockhash = some ci := by rw [info, ← hkey, hci]
  have hentry := hok.round _ ci hinfo
  have hknown : ci.state ≠ .unknown := by simp [hstate]
  obtain ⟨b, hd, hblock, hheader, hhash⟩ := hentry.block_ok hknown
  obtain ⟨msg, hmsg, -, hmsgBlock⟩ := hentry.block_eq hknown
  have hlog : msg ∈ cm.logOf ci.blockhash := by rwa [logOf, hinfo]
  obtain ⟨hd', hheader', hproof, hproposer⟩ :=
    hok.proposable _ msg hlog b (hmsgBlock.trans hblock)
  obtain rfl := Option.some.inj (hheader.symm.trans hheader')
  exact ⟨⟨ci, b, hd, hblock, hheader, hproof, hproposer⟩, rfl, hkey.trans (by rw [hhash])⟩

/-- What `GetAllBlocksWithCommit` returns are committed rounds with distinct hashes. -/
theorem exists_committedRounds {cm : ConsensusManager} (hok : RoundsOk cm) :
    ∃ rs : List CommittedRound, rs.map CommittedRound.info = cm.getAllBlocksWithCommit ∧
      (rs.map fun r => r.header.hash).Nodup := by
  -- along the entries of the map, whose keys are distinct
  suffices h : ∀ entries : List (Sigma fun _ : Str => ConsensusInfo),
      (∀ e ∈ entries, e ∈ cm.consensusInfoMap.entries) → (entries.map Sigma.fst).Nodup →
      ∃ rs : List CommittedRound,
        rs.map CommittedRound.info
            = (entries.map Sigma.snd).filter (fun ci => ci.state = .commited) ∧
          (rs.map fun r => r.header.hash).Nodup ∧
          ∀ r ∈ rs, hexEncode r.header.hash ∈ entries.map Sigma.fst by
    obtain ⟨rs, hrs, hnodup, -⟩ := h cm.consensusInfoMap.entries (fun _ he => he)
      cm.consensusInfoMap.nodupKeys
    exact ⟨rs, hrs, hnodup⟩
  intro entries hsub hkeys
  induction entries with
  | nil => exact ⟨[], rfl, List.nodup_nil, by simp⟩
  | cons e entries ih =>
      obtain ⟨hfirst, hrest⟩ := List.forall_mem_cons.mp hsub
      rw [List.map_cons, List.nodup_cons] at hkeys
      obtain ⟨rs, hrs, hnodup, hmem⟩ := ih hrest hkeys.2
      by_cases hstate : e.2.state = .commited
      · have hlookup : cm.consensusInfoMap.lookup e.1 = some e.2 := AList.mem_lookup_iff.mpr hfirst
        obtain ⟨r, hinfo, hkey⟩ := exists_committedRound hok hlookup hstate
        refine ⟨r :: rs, ?_, ?_, ?_⟩
        · simp [hinfo, hrs, hstate]
        · rw [List.map_cons, List.nodup_cons]
          refine ⟨?_, hnodup⟩
          intro hin
          obtain ⟨r', hr', hsame⟩ := List.mem_map.mp hin
          have hdup := hmem r' hr'
          rw [hsame, ← hkey] at hdup
          exact hkeys.1 hdup
        · intro r' hr'
          rcases List.mem_cons.mp hr' with rfl | hr'
          · exact hkey ▸ List.mem_cons_self ..
          · exact List.mem_cons_of_mem _ (hmem r' hr')
      · refine ⟨rs, ?_, hnodup, ?_⟩
        · simp [hrs, hstate]
        · intro r' hr'
          exact List.mem_cons_of_mem _ (hmem r' hr')

/-- In every state a node can get into, whatever the order its map is listed in, the
    selection of `commitAcceptedBlocks` reads no nil pointer: with the stakes at hand it
    selects a block if there is a committed round. -/
theorem selectBlock_run (B : Backend) (signer : Signer) (rpc : RpcServices) (minApprovals : Int64)
    (evs : List (Oracles × NodeEvent)) {o : Oracles} {stake : Address → Int}
    (hstake : ∀ a, o.getMinerStake a = .ok (stake a)) {blocks : List ConsensusInfo}
    (hblocks : blocks.Perm (Run.exec (NodeState.step B.db signer rpc)
      (NodeState.new B minApprovals) evs).consensus.getAllBlocksWithCommit) (hne : blocks ≠ []) :
    ∃ block, selectBlock o blocks = .ok block := by
  obtain ⟨rs, hrs, -⟩ := exists_committedRounds (roundsOk_run B signer rpc minApprovals evs)
  obtain ⟨rs', rfl⟩ : blocks ∈ Set.range (List.map CommittedRound.info) := by
    rw [Set.range_list_map]
    intro ci hci
    rw [hblocks.mem_iff, ← hrs] at hci
    obtain ⟨r, -, hr⟩ := List.mem_map.mp hci
    exact ⟨r, hr⟩
  rw [selectBlock_map hstake]
  cases hsort : sortRounds stake rs' with
  | nil =>
      refine absurd (List.eq_nil_iff_forall_not_mem.mpr fun r hr => ?_)
        (fun hnil : rs' = [] => hne (by rw [hnil]; rfl))
      rw [← mem_sortRounds stake, hsort] at hr
      cases hr
  | cons r rest => exact ⟨r.block, rfl⟩

end Dione
