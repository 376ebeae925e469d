/-
  Dione.Node.Origin

  Where the blocks come from that a node votes for, and the answers that it submits to
  the Ethereum side (`submitTasksFromBlock` of `consensus/consensus_handler.go`).

  Peers may send what they like.  A block gets into a log of the node in two ways: in a
  PrePrepare that has passed `ValidateBlock` on the chain of that moment, or by `propose`.
  The first way is closed to blocks that name the node as their proposer.  So the node
  votes for what it has checked or mined, and the answers it submits, which are those of
  its own committed blocks, are from its own mempool: each stems from an oracle event the
  node has seen itself or from a transaction some peer has sent it.
-/

import Dione.Consensus.Certificates
import Dione.Node.Head
import Dione.Node.Rounds

namespace Dione

open Guard Text BlockChain Consensus ConsensusManager

/-- The `consensus:newState` events of a step. -/
def Interleaved.publishes {σ : Type} (db : Database σ) (signer : Signer) (s : Interleaved σ)
    (oe : Oracles × Turn) : List NewState :=
  match oe.2 with
  | .node (.consensus message) =>
    match handleConsensusMessage db oe.1 signer.peerID s.node.chain message s.node.consensus with
    | .ok (_, pubs) => pubs
    | .error _ => []
  | .mine _ _ _ =>
    match s.mined signer oe with
    | some block =>
      match propose signer.peerID block s.node.consensus with
      | .ok (_, pubs, _) => pubs
      | .error _ => []
    | none => []
  | .node _ => []

/-! ## Logged blocks -/

/-- Every block in a log of the manager is `Q`. -/
def LogsHold (Q : Block → Prop) (cm : ConsensusManager) : Prop :=
  ∀ h, ∀ msg ∈ cm.logOf h, ∀ b, msg.block = some b → Q b

section Logs

variable {Q : Block → Prop} {cm cm' : ConsensusManager}

theorem logsHold_of_empty (h : cm.consensusInfoMap = ∅) : LogsHold Q cm := by
  simp [LogsHold, logOf, info, h]

theorem LogsHold.mono {Q' : Block → Prop} (h : LogsHold Q cm) (hQ : ∀ b, Q b → Q' b) :
    LogsHold Q' cm :=
  fun hash msg hmsg b hb => hQ b (h hash msg hmsg b hb)

/-- A message whose block is `Q` keeps it so, and what is published is about such blocks. -/
theorem LogsHold.insert {cmsg : ConsensusMessage} {pubs : List NewState} (h : LogsHold Q cm)
    (hround : cm.RoundOk cmsg.blockhash) (hm : Built cmsg.blockhash cmsg)
    (hQ : ∀ b, cmsg.block = some b → Q b) (hins : cm.insertOrWarn cmsg = .ok (cm', pubs)) :
    LogsHold Q cm' ∧ ∀ ev ∈ pubs, ∃ b, ev.block = some b ∧ Q b := by
  obtain ⟨cm₁, pubs₁, hins₁, hspec⟩ := insertOrWarn_spec hround hm
  obtain ⟨rfl, rfl⟩ := Prod.mk.inj (Except.ok.inj (hins.symm.trans hins₁))
  have hlog : ∀ msg ∈ cm'.logOf cmsg.blockhash, ∀ b, msg.block = some b → Q b := by
    intro msg hmsg b hb
    rcases (hspec.mem_log msg).mp hmsg with rfl | hold
    · exact hQ b hb
    · exact h _ msg hold b hb
  refine ⟨?_, ?_⟩
  · intro hash msg hmsg b hb
    by_cases hhash : hash = cmsg.blockhash
    · rw [hhash] at hmsg
      exact hlog msg hmsg b hb
    · rw [logOf_congr (hspec.other hash hhash)] at hmsg
      exact h hash msg hmsg b hb
  · intro ev hev
    obtain ⟨msg, hmsg, htype, hblock⟩ := hspec.blocks ev hev
    -- a PrePrepare of the log has a block
    have hshape := (hspec.round.built_of_mem hmsg).2
    rw [htype] at hshape
    obtain ⟨b, hd, hb, -, -⟩ := hshape
    exact ⟨b, hblock.symm.trans hb, hlog msg hmsg b hb⟩

/-- The block of a round that has got anywhere is in its log. -/
theorem LogsHold.of_round (h : LogsHold Q cm) (hok : RoundsOk cm) {ci : ConsensusInfo}
    (hci : ci ∈ cm.getAllBlocksWithCommit) {b : Block} (hb : ci.block = some b) : Q b := by
  obtain ⟨hmem, hstate⟩ := List.mem_filter.mp hci
  obtain ⟨⟨key, ci'⟩, hentry, rfl⟩ := List.mem_map.mp hmem
  have hlookup : cm.consensusInfoMap.lookup key = some ci' := AList.mem_lookup_iff.mpr hentry
  have hinfo : cm.info ci'.blockhash = some ci' := by
    rw [info, ← hok.keyed key ci' hlookup, hlookup]
  have hknown : ci'.state ≠ .unknown := by
    rw [of_decide_eq_true hstate]
    decide
  obtain ⟨msg, hmsg, -, hblock⟩ := (hok.round _ ci' hinfo).block_eq hknown
  refine h ci'.blockhash msg ?_ b (hblock.trans hb)
  rwa [logOf, hinfo]

end Logs

theorem mem_of_selectBlock {o : Oracles} {blocks : List ConsensusInfo} {block : Block}
    (h : selectBlock o blocks = .ok block) : ∃ ci ∈ blocks, ci.block = some block := by
  rw [selectBlock, bind_eq_ok] at h
  obtain ⟨cs, hcs, h⟩ := h
  split at h
  · cases h
  · next selectedBlock header rest hsort =>
      simp only [bind_eq_ok, pure_eq_ok_iff] at h
      obtain ⟨-, -, -, -, -, -, rfl⟩ := h
      have hmem : (selectedBlock, header) ∈ sortCandidates o.getMinerStake cs := by
        rw [hsort]
        exact List.mem_cons_self ..
      obtain ⟨ci, hci, hblock, -⟩ := (mem_candidates hcs).mp ((List.mem_insertionSort _).mp hmem)
      exact ⟨ci, hci, hblock⟩

/-! ## One step -/

section Step

variable {σ : Type} {db : Database σ} {signer : Signer} {rpc : RpcServices} {Q : Block → Prop}

/-- The PrePrepare that arrives passes `ValidateBlock`; the node is not its proposer. -/
structure Interleaved.Validates (db : Database σ) (signer : Signer) (s : Interleaved σ)
    (oe : Oracles × Turn) (block : Block) : Prop where
  received : ∃ fromPeer, oe.2 = .node (.consensus ⟨fromPeer, .prePrepare (some block)⟩)
  valid : validateBlock db oe.1 block s.node.chain = .ok ()
  foreign : ∀ header, block.header = some header → header.proposer ≠ some signer.peerID

theorem validates_of_admitted {s : Interleaved σ} {o : Oracles} {message : PubSubMessage}
    {cmsg : ConsensusMessage} {b : Block}
    (h : admitted db o signer.peerID s.node.chain message = .ok (some cmsg))
    (hb : cmsg.block = some b) : s.Validates db signer (o, .node (.consensus message)) b := by
  cases admits_of_admitted h with
  | prePrepare fromPeer block hd hforeign hheader hproposer hvalid =>
      obtain rfl := Option.some.inj hb
      refine ⟨⟨fromPeer, rfl⟩, hvalid, ?_⟩
      intro header hheader'
      obtain rfl := Option.some.inj (hheader.symm.trans hheader')
      exact hproposer
  | prepare fromPeer hash signature hforeign => cases hb
  | commit fromPeer hash signature hforeign => cases hb

theorem NodeState.mine_eq (s : NodeState σ) (o : Oracles) (keys : List Str) (timestamp : Int64)
    (entry : BeaconEntry) : s.mine signer o keys timestamp entry
      = match s.mined signer o keys timestamp entry with
        | none => s
        | some block =>
          match propose signer.peerID block s.consensus with
          | .ok (cm, _, _) => { s with consensus := cm }
          | .error _ => s := by
  unfold NodeState.mine NodeState.mined
  by_cases hkeys : keys.Perm s.pool.mempool.keys
  · rw [if_pos hkeys, if_pos hkeys]
    rcases mineBlock o signer timestamp s.latestBlockHeader
      (s.pool.mempool.getTransactionsForNewBlock keys) entry.data entry.round with e | _ | block
    · rfl
    · rfl
    · rfl
  · rw [if_neg hkeys, if_neg hkeys]

/-- `propose` logs its block. -/
theorem LogsHold.propose {cm cm' : ConsensusManager} {address : PeerID} {blk : Block}
    {pubs : List NewState} {payload : Payload} (h : LogsHold Q cm) (hok : RoundsOk cm) (hQ : Q blk)
    (hpropose : Consensus.propose address blk cm = .ok (cm', pubs, payload)) :
    LogsHold Q cm' ∧ ∀ ev ∈ pubs, ∃ b, ev.block = some b ∧ Q b := by
  simp only [Consensus.propose, bind_eq_ok, deref_eq_ok, pure_eq_ok_iff, Prod.mk.injEq] at hpropose
  obtain ⟨header, hheader, ⟨cm₁, pubs₁⟩, hins, rfl, rfl, -⟩ := hpropose
  have hbuilt : Built header.hash ⟨.prePrepare, header.hash, [], some blk, address⟩ :=
    ⟨rfl, blk, header, rfl, hheader, rfl⟩
  refine h.insert (hok.round _) hbuilt ?_ (insertOrWarn_of_ok hins)
  intro b hb
  obtain rfl := Option.some.inj hb
  exact hQ

theorem LogsHold.commit {s : NodeState σ} (h : LogsHold Q s.consensus) (o : Oracles)
    (blocks : List ConsensusInfo) : LogsHold Q (s.commit db o blocks).2.consensus := by
  simp only [NodeState.commit, commitAcceptedBlocks]
  split
  · exact h
  · split
    · exact logsHold_of_empty rfl
    · exact logsHold_of_empty rfl

/-- A step logs blocks it validates or mines, and no others. -/
theorem LogsHold.step {s : Interleaved σ} (h : LogsHold Q s.node.consensus)
    (hok : RoundsOk s.node.consensus) (oe : Oracles × Turn)
    (hvalidates : ∀ b, s.Validates db signer oe b → Q b)
    (hmines : ∀ b, s.mined signer oe = some b → Q b) :
    LogsHold Q (s.step db signer rpc oe).node.consensus ∧
      ∀ ev ∈ s.publishes db signer oe, ∃ b, ev.block = some b ∧ Q b := by
  obtain ⟨o, turn⟩ := oe
  cases turn with
  | mine k keys timestamp =>
      simp only [Interleaved.step, Interleaved.publishes, Interleaved.mined] at hmines ⊢
      cases hdue : s.due[k]? with
      | none => exact ⟨h, by simp⟩
      | some entry =>
          rw [hdue, Option.bind_some] at hmines
          simp only [NodeState.mine_eq, Option.bind_some]
          cases hmined : s.node.mined signer o keys timestamp entry with
          | none => exact ⟨h, by simp⟩
          | some block =>
              dsimp only
              cases hpropose : Consensus.propose signer.peerID block s.node.consensus with
              | error e => exact ⟨h, by simp⟩
              | ok r => exact h.propose hok (hmines block hmined) hpropose
  | node e =>
      cases e with
      | pool e => exact ⟨h, by simp [Interleaved.publishes]⟩
      | newBlock payload => exact ⟨h, by simp [Interleaved.publishes]⟩
      | synced block => exact ⟨h, by simp [Interleaved.publishes]⟩
      | headerUpdated k =>
          simp only [Interleaved.step, NodeState.step, Interleaved.publishes]
          split
          · exact ⟨h, by simp⟩
          · exact ⟨h, by simp⟩
      | consensus message =>
          simp only [Interleaved.step, NodeState.step, Interleaved.publishes]
          cases hhandled : handleConsensusMessage db o signer.peerID s.node.chain message
              s.node.consensus with
          | error e => exact ⟨h, by simp⟩
          | ok r =>
              simp only [handleConsensusMessage, bind_eq_ok] at hhandled
              obtain ⟨m, hm, hhandled⟩ := hhandled
              cases m with
              | none =>
                  obtain rfl := Except.ok.inj hhandled
                  exact ⟨h, by simp⟩
              | some cmsg =>
                  exact h.insert (hok.round _) (built_of_admitted hm)
                    (fun b hb => hvalidates b (validates_of_admitted hm hb)) hhandled
      | beacon blocks keys timestamp entry =>
          simp only [Interleaved.step, Interleaved.publishes]
          split
          · exact ⟨h.commit o blocks, by simp⟩
          · exact ⟨h, by simp⟩

theorem RoundsOk.turn {s : Interleaved σ} (h : RoundsOk s.node.consensus) (oe : Oracles × Turn) :
    RoundsOk (s.step db signer rpc oe).node.consensus := by
  obtain ⟨o, turn⟩ := oe
  cases turn with
  | mine k keys timestamp =>
      simp only [Interleaved.step]
      split
      · next entry _ => exact h.mine keys timestamp entry
      · exact h
  | node e =>
      cases e with
      | beacon blocks keys timestamp entry =>
          simp only [Interleaved.step]
          split
          · exact h.commit blocks
          · exact h
      | pool e => exact h
      | newBlock payload => exact h
      | synced block => exact h
      | consensus message =>
          show RoundsOk (s.node.step db signer rpc (o, .consensus message)).consensus
          exact h.step _
      | headerUpdated k =>
          show RoundsOk (s.node.step db signer rpc (o, .headerUpdated k)).consensus
          exact h.step _

end Step

/-! ## Votes -/

section Runs

variable (B : Backend) (signer : Signer) (rpc : RpcServices) (minApprovals : Int64)

/-- A node after the turns `evs`. -/
def Interleaved.after (evs : List (Oracles × Turn)) : Interleaved B.σ :=
  Run.exec (Interleaved.step B.db signer rpc) (Interleaved.new B minApprovals) evs

/-- The node has mined the block itself. -/
def Proposed (evs : List (Oracles × Turn)) (block : Block) : Prop :=
  Run.SomeStep (Interleaved.step B.db signer rpc) (Interleaved.new B minApprovals) evs fun s oe =>
    s.mined signer oe = some block

/-- The block has come from somebody else and was valid when it came. -/
def Validated (evs : List (Oracles × Turn)) (block : Block) : Prop :=
  Run.SomeStep (Interleaved.step B.db signer rpc) (Interleaved.new B minApprovals) evs fun s oe =>
    s.Validates B.db signer oe block

/-- Where the block comes from, one way or the other. -/
def HasOrigin (evs : List (Oracles × Turn)) (block : Block) : Prop :=
  Proposed B signer rpc minApprovals evs block ∨ Validated B signer rpc minApprovals evs block

variable {B signer rpc minApprovals}

theorem roundsOk_after (evs : List (Oracles × Turn)) :
    RoundsOk (Interleaved.after B signer rpc minApprovals evs).node.consensus :=
  Run.exec_invariant (I := fun s : Interleaved B.σ => RoundsOk s.node.consensus)
    (fun _ oe hok => hok.turn oe) (roundsOk_of_empty rfl) evs

theorem logsHold_concat {evs : List (Oracles × Turn)} (oe : Oracles × Turn)
    (h : LogsHold (HasOrigin B signer rpc minApprovals evs)
      (Interleaved.after B signer rpc minApprovals evs).node.consensus) :
    LogsHold (HasOrigin B signer rpc minApprovals (evs ++ [oe]))
        (Interleaved.after B signer rpc minApprovals (evs ++ [oe])).node.consensus ∧
      ∀ ev ∈ (Interleaved.after B signer rpc minApprovals evs).publishes B.db signer oe,
        ∃ b, ev.block = some b ∧ HasOrigin B signer rpc minApprovals (evs ++ [oe]) b := by
  rw [Interleaved.after, Run.exec_concat]
  refine LogsHold.step (h.mono ?_) (roundsOk_after evs) oe ?_ ?_
  · rintro b (hproposed | hvalidated)
    · exact .inl (hproposed.concat oe)
    · exact .inr (hvalidated.concat oe)
  · intro b hb
    exact .inr (Run.someStep_last hb)
  · intro b hb
    exact .inl (Run.someStep_last hb)

/-- Every logged block has been mined here or was valid when it came. -/
theorem logsHold_after (evs : List (Oracles × Turn)) :
    LogsHold (HasOrigin B signer rpc minApprovals evs)
      (Interleaved.after B signer rpc minApprovals evs).node.consensus := by
  induction evs using List.reverseRecOn with
  | nil => exact logsHold_of_empty rfl
  | append_singleton evs oe ih => exact (logsHold_concat oe ih).1

end Runs

/-- Whatever a node is sent, in whatever order, the votes it broadcasts are for blocks
    that it has mined itself or that were valid on its own chain when they came. -/
theorem votes_for_checked_blocks (B : Backend) (signer : Signer) (rpc : RpcServices)
    (minApprovals : Int64) (evs : List (Oracles × Turn)) (oe : Oracles × Turn) (ev : NewState)
    (hev : ev ∈ (Interleaved.after B signer rpc minApprovals evs).publishes B.db signer oe)
    (payload : Payload) (hvote : onNewState signer.peerID signer.sign ev = .ok (some payload)) :
    ∃ block header signature, block.header = some header ∧
      (payload = .prepare header.hash signature ∨ payload = .commit header.hash signature) ∧
      HasOrigin B signer rpc minApprovals (evs ++ [oe]) block := by
  obtain ⟨block, header, signature, hblock, hheader, -, hpayload⟩ := onNewState_eq_some hvote
  have hpayload := hpayload.imp And.right And.right
  obtain ⟨b, hb, horigin⟩ := (logsHold_concat oe (logsHold_after evs)).2 ev hev
  obtain rfl := Option.some.inj (hblock.symm.trans hb)
  exact ⟨block, header, signature, hheader, hpayload, horigin⟩

/-! ### A PrePrepare -/

/-- A node other than the proposer. -/
def voter : Signer := ⟨[5], fun hash => .ok hash, .ofNat 5⟩

/-- The PrePrepare of a valid block on the genesis block. -/
def childProposed : Oracles × Turn :=
  (.permissive, .node (.consensus ⟨[1], .prePrepare (some (childOfGenesis [1] 1))⟩))

/-- The node votes for the block, and has checked it. -/
theorem votes_for_checked_blocks_childProposed :
    ∃ block header signature, block.header = some header ∧
      (Payload.prepare [1] [1] = .prepare header.hash signature ∨
        Payload.prepare [1] [1] = .commit header.hash signature) ∧
      HasOrigin Memory.backend voter TxPool.noRpc 2 ([] ++ [childProposed]) block :=
  votes_for_checked_blocks Memory.backend voter TxPool.noRpc 2 [] childProposed
    ⟨some (childOfGenesis [1] 1), .prePrepared⟩ (by decide +kernel) (.prepare [1] [1])
    (by decide +kernel)

end Dione
