/-
  Dione.Node.Atomicity

  What a failed `commitAcceptedBlocks` leaves behind.

  It selects a block, prunes the consensus rounds, deletes the transactions of the
  block from the mempool and stores the block last.  `StoreBlock` validates the block
  once more, on the head of that moment, and nothing undoes the first two steps when it
  fails.  A block that is stored already counts as stored, whatever transactions were
  stored with it.
-/

import Dione.Node.Spending

namespace Dione

open Guard Text BlockChain Consensus

/-! ## The mempool -/

theorem Mempool.read_deleteTx (mp : Mempool) (hash : Bytes) (key : Str) :
    (mp.deleteTx hash).2.read key = if key = txKey hash then none else mp.read key := by
  unfold deleteTx
  split
  · next hnone =>
      split
      · next heq => rw [heq, hnone]
      · rfl
  · exact read_remove (txKey hash) key

/-- Deleting transactions takes their entries out and no other. -/
theorem Mempool.read_deleteAll (mp : Mempool) (hashes : List Bytes) (key : Str) :
    (mp.deleteAll hashes).read key
      = if ∃ hash ∈ hashes, key = txKey hash then none else mp.read key := by
  induction hashes generalizing mp with
  | nil => simp [deleteAll]
  | cons hash hashes ih =>
      have hcons : mp.deleteAll (hash :: hashes) = (mp.deleteTx hash).2.deleteAll hashes := rfl
      rw [hcons, ih, read_deleteTx]
      simp only [List.mem_cons, exists_eq_or_imp]
      by_cases hrest : ∃ hash ∈ hashes, key = txKey hash
      · rw [if_pos hrest, if_pos (.inr hrest)]
      · rw [if_neg hrest]
        by_cases hkey : key = txKey hash
        · rw [if_pos hkey, if_pos (.inl hkey)]
        · rw [if_neg hkey, if_neg (not_or.mpr ⟨hkey, hrest⟩)]

/-! ## What the code asks of the selected block -/

theorem txHashes_eq_hashes {vs : List (Option Transaction)} {hashes : List Bytes}
    (h : txHashes vs = .ok hashes) : hashes = vs.filterMap fun v => v.map (·.hash) := by
  induction vs generalizing hashes with
  | nil =>
      obtain rfl := Except.ok.inj h
      rfl
  | cons v vs ih =>
      simp only [txHashes, bind_eq_ok, deref_eq_ok, pure_eq_ok_iff] at h
      obtain ⟨tx, rfl, rest, hrest, rfl⟩ := h
      rw [ih hrest]
      rfl

theorem isPanic_of_txHashes {vs : List (Option Transaction)} {e : Err}
    (h : txHashes vs = .error e) : e.isPanic = true := by
  induction vs with
  | nil => cases h
  | cons v vs ih =>
      cases v with
      | none =>
          obtain rfl := Except.error.inj h
          rfl
      | some tx =>
          cases hrest : txHashes vs with
          | error e' =>
              simp only [txHashes, deref, ok_bind, hrest, error_bind, Except.error.injEq] at h
              exact ih (h ▸ hrest)
          | ok rest =>
              simp only [txHashes, deref, ok_bind, hrest] at h
              cases h

/-- Nothing is selected if there is no committed round. -/
theorem ne_nil_of_selectBlock {o : Oracles} {blocks : List ConsensusInfo} {block : Block}
    (h : selectBlock o blocks = .ok block) : blocks ≠ [] := by
  rintro rfl
  cases h

/-- Pruning a map with a committed round changes it. -/
theorem prune_ne {cm : ConsensusManager} (h : cm.getAllBlocksWithCommit ≠ []) : cm.prune ≠ cm := by
  intro heq
  rw [← heq] at h
  exact h rfl

/-- `StoreBlock` returns no error iff it records the block or finds it stored. -/
theorem storeBlock_result_eq_ok {B : Backend} {o : Oracles} {block : Block} {s : B.σ}
    (hwf : B.Wf s) : (storeBlock B.db o block s).result = .ok () ↔
      recorded B.db o block s ≠ none ∨
        ∃ header, block.header = some header ∧ B.db.hasBlock header.hash s = .ok true := by
  constructor
  · intro h
    by_contra hnot
    push Not at hnot
    obtain ⟨hrec, hstored⟩ := hnot
    cases hheader : block.header with
    | none =>
        rw [storeBlock, hheader] at h
        cases h
    | some header =>
        cases hhas : B.db.hasBlock header.hash s with
        | error e =>
            simp only [storeBlock, hheader, hhas] at h
            cases h
        | ok found =>
            cases found with
            | true => exact hstored header hheader hhas
            | false =>
                cases hcheck : checkBeforeStore B.db o header block s with
                | error e =>
                    simp only [storeBlock, hheader, hhas, hcheck] at h
                    cases h
                | ok _ =>
                    -- the write is left, and a block it takes would be recorded
                    cases hwrite : B.db.storeBlock block s with
                    | mk written s' =>
                        cases written with
                        | error e =>
                            simp only [storeBlock, hheader, hhas, hcheck, hwrite] at h
                            cases h
                        | ok _ =>
                            rw [recorded_eq_some.mpr
                              ⟨hheader, hhas, hcheck, by rw [hwrite]⟩] at hrec
                            cases hrec
  · rintro (hrec | ⟨header, hheader, hhas⟩)
    · obtain ⟨hd, hrec⟩ := Option.ne_none_iff_exists'.mp hrec
      obtain ⟨s', pub, hst, -⟩ := storeBlock_of_recorded B hwf hrec
      rw [hst]
    · simp only [storeBlock, hheader, hhas]

/-! ## Losing nothing -/

/-- A block of the chain has a transaction with this hash. -/
def InChain {σ : Type} (db : Database σ) (s : σ) (hash : Bytes) : Prop :=
  ∃ h b, db.fetchBlockByHeight h s = .ok b ∧ hash ∈ b.hashes

/-- A call with this result that leads from `s` to `s'` loses nothing: if it fails, the
    mempool and the rounds are as before, and if it does not, the transactions that have
    left the mempool are in the chain. -/
structure LosesNothing {σ : Type} (db : Database σ) (s : NodeState σ) (result : Except Err Block)
    (s' : NodeState σ) : Prop where
  failed : ∀ e, result = .error e →
    (∀ key, s'.pool.mempool.read key = s.pool.mempool.read key) ∧ s'.consensus = s.consensus
  committed : ∀ key tx, s.pool.mempool.read key = some tx → s'.pool.mempool.read key = none →
    ∃ hash, key = txKey hash ∧ InChain db s'.chain hash

/-- The chain takes the block, or has it with its transactions: those that are in the
    mempool are in the chain. -/
def StillCommits {σ : Type} (db : Database σ) (o : Oracles) (s : NodeState σ) (block : Block) :
    Prop :=
  recorded db o block s.chain ≠ none ∨
    (∃ header, block.header = some header ∧ db.hasBlock header.hash s.chain = .ok true) ∧
      ∀ hash ∈ block.hashes, s.pool.mempool.read (txKey hash) ≠ none → InChain db s.chain hash

section Commit

variable {B : Backend} {o : Oracles} {s : NodeState B.σ} {blocks : List ConsensusInfo}

theorem losesNothing_of_selectBlock_error {e : Err} (h : selectBlock o blocks = .error e) :
    LosesNothing B.db s (s.commit B.db o blocks).1 (s.commit B.db o blocks).2 := by
  have hout : commitAcceptedBlocks B.db o blocks s.consensus s.chain
      = ⟨.error e, s.consensus, s.chain, [], []⟩ := by
    rw [commitAcceptedBlocks, h]
  simp only [NodeState.commit, hout]
  refine ⟨fun _ _ => ⟨fun _ => rfl, rfl⟩, ?_⟩
  intro key tx hbefore hafter
  exact absurd (hbefore.symm.trans hafter) (Option.some_ne_none tx)

/-- What the call does once a block is selected. -/
structure Commits (B : Backend) (o : Oracles) (s : NodeState B.σ) (block : Block)
    (result : Except Err Block) (s' : NodeState B.σ) : Prop where
  result_eq : result = (storeBlock B.db o block s.chain).result.map fun _ => block
  chain_eq : s'.chain = (storeBlock B.db o block s.chain).state
  consensus_eq : s'.consensus = s.consensus.prune
  read_eq : ∀ key, s'.pool.mempool.read key
    = if ∃ hash ∈ block.hashes, key = txKey hash then none else s.pool.mempool.read key

theorem commits_of_selectBlock {block : Block} (hselect : selectBlock o blocks = .ok block)
    (hreturns : ∀ e, (s.commit B.db o blocks).1 = .error e → e.isPanic = false) :
    Commits B o s block (s.commit B.db o blocks).1 (s.commit B.db o blocks).2 := by
  cases htxs : txHashes block.data with
  | error e =>
      have hresult : (s.commit B.db o blocks).1 = .error e := by
        simp only [NodeState.commit, commitAcceptedBlocks, hselect, htxs]
      exact absurd (hreturns e hresult) (by rw [isPanic_of_txHashes htxs]; decide)
  | ok hashes =>
      obtain rfl : hashes = block.hashes := txHashes_eq_hashes htxs
      have hout : commitAcceptedBlocks B.db o blocks s.consensus s.chain
          = ⟨(storeBlock B.db o block s.chain).result.map fun _ => block, s.consensus.prune,
            (storeBlock B.db o block s.chain).state, block.hashes,
            (storeBlock B.db o block s.chain).published⟩ := by
        simp only [commitAcceptedBlocks, hselect, htxs]
      simp only [NodeState.commit, hout]
      exact ⟨rfl, rfl, rfl, fun key => Mempool.read_deleteAll _ _ key⟩

/-- A hash of a recorded block is in the chain. -/
theorem inChain_of_recorded (hwf : B.Wf s.chain) {block : Block} {hd : BlockHeader} {hash : Bytes}
    (hrec : recorded B.db o block s.chain = some hd) (hmem : hash ∈ block.hashes) :
    InChain B.db (storeBlock B.db o block s.chain).state hash := by
  obtain ⟨s', pub, hst, hwf', hview⟩ := storeBlock_of_recorded B hwf hrec
  refine ⟨hd.height, block, ?_, hmem⟩
  rw [hst, B.fetchBlockByHeight_eq _ hwf', hview, Store.commit_byHeight, if_pos rfl]
  rfl

section Selected

variable {block : Block} {result : Except Err Block} {s' : NodeState B.σ}

/-- What leaves the mempool are transactions of the block. -/
theorem Commits.exists_hash (h : Commits B o s block result s') {key : Str}
    (hbefore : s.pool.mempool.read key ≠ none) (hafter : s'.pool.mempool.read key = none) :
    ∃ hash ∈ block.hashes, key = txKey hash := by
  rw [h.read_eq] at hafter
  by_contra hnot
  rw [if_neg hnot] at hafter
  exact hbefore hafter

theorem Commits.ne_error (h : Commits B o s block result s')
    (hstored : (storeBlock B.db o block s.chain).result = .ok ()) (e : Err) :
    result ≠ .error e := by
  intro he
  rw [h.result_eq, hstored] at he
  cases he

theorem Commits.losesNothing_of_recorded (h : Commits B o s block result s')
    (hwf : B.Wf s.chain) (hrec : recorded B.db o block s.chain ≠ none) :
    LosesNothing B.db s result s' := by
  have hstored := (storeBlock_result_eq_ok hwf).mpr (.inl hrec)
  refine ⟨fun e he => absurd he (h.ne_error hstored e), ?_⟩
  intro key tx hbefore hafter
  obtain ⟨hd, hrec⟩ := Option.ne_none_iff_exists'.mp hrec
  obtain ⟨hash, hmem, hkey⟩ := h.exists_hash (hbefore ▸ Option.some_ne_none tx) hafter
  refine ⟨hash, hkey, ?_⟩
  rw [h.chain_eq]
  exact inChain_of_recorded hwf hrec hmem

/-- A call that fails prunes the rounds, so one that loses nothing does not fail. -/
theorem Commits.stored_of_losesNothing (h : Commits B o s block result s')
    (hrounds : s.consensus.getAllBlocksWithCommit ≠ []) (hloses : LosesNothing B.db s result s') :
    (storeBlock B.db o block s.chain).result = .ok () := by
  cases hresult : (storeBlock B.db o block s.chain).result with
  | ok _ => rfl
  | error e =>
      have hsame := (hloses.failed e (by rw [h.result_eq, hresult]; rfl)).2
      exact absurd (h.consensus_eq.symm.trans hsame) (prune_ne hrounds)

/-- A call that selects a block loses nothing iff the chain takes the block or has it. -/
theorem Commits.losesNothing_iff (h : Commits B o s block result s') (hwf : B.Wf s.chain)
    (hrounds : s.consensus.getAllBlocksWithCommit ≠ []) :
    LosesNothing B.db s result s' ↔ StillCommits B.db o s block := by
  by_cases hrec : recorded B.db o block s.chain = none
  · have hchain : s'.chain = s.chain := by
      rw [h.chain_eq]
      exact storeBlock_of_not_recorded B hwf hrec
    rw [StillCommits, or_iff_right (not_not.mpr hrec)]
    constructor
    · intro hloses
      have hstored := h.stored_of_losesNothing hrounds hloses
      refine ⟨((storeBlock_result_eq_ok hwf).mp hstored).resolve_left (not_not.mpr hrec), ?_⟩
      intro hash hmem hpooled
      obtain ⟨tx, htx⟩ := Option.ne_none_iff_exists'.mp hpooled
      have hgone : s'.pool.mempool.read (txKey hash) = none := by
        rw [h.read_eq, if_pos ⟨hash, hmem, rfl⟩]
      obtain ⟨hash', hkey, hin⟩ := hloses.committed _ tx htx hgone
      rw [txKey_injective hkey, ← hchain]
      exact hin
    · rintro ⟨hstored, hpooled⟩
      refine ⟨fun e he => absurd he (h.ne_error ((storeBlock_result_eq_ok hwf).mpr
        (.inr hstored)) e), ?_⟩
      intro key tx hbefore hafter
      have hsome : s.pool.mempool.read key ≠ none := hbefore ▸ Option.some_ne_none tx
      obtain ⟨hash, hmem, rfl⟩ := h.exists_hash hsome hafter
      rw [hchain]
      exact ⟨hash, rfl, hpooled hash hmem hsome⟩
  · exact iff_of_true (h.losesNothing_of_recorded hwf hrec) (.inl hrec)

end Selected

end Commit

/-- A call of `commitAcceptedBlocks` that returns loses nothing iff the chain, as it is
    before the call, takes the selected block or has it with its transactions. -/
theorem commit_losesNothing_iff (B : Backend) (o : Oracles) (s : NodeState B.σ)
    (hwf : B.Wf s.chain) (blocks : List ConsensusInfo)
    (hblocks : blocks.Perm s.consensus.getAllBlocksWithCommit)
    (hreturns : ∀ e, (s.commit B.db o blocks).1 = .error e → e.isPanic = false) :
    LosesNothing B.db s (s.commit B.db o blocks).1 (s.commit B.db o blocks).2 ↔
      ∀ block, selectBlock o blocks = .ok block → StillCommits B.db o s block := by
  cases hselect : selectBlock o blocks with
  | error e =>
      refine ⟨fun _ block hblock => ?_, fun _ => losesNothing_of_selectBlock_error hselect⟩
      cases hblock
  | ok block =>
      have hrounds : s.consensus.getAllBlocksWithCommit ≠ [] := fun hnil =>
        ne_nil_of_selectBlock hselect (hnil ▸ hblocks).eq_nil
      rw [(commits_of_selectBlock hselect hreturns).losesNothing_iff hwf hrounds]
      simp only [Except.ok.injEq, forall_eq']

/-! ### A block that lost its head -/

/-- A third node and a transaction of its own. -/
def thirdSigner : Signer := ⟨[3], fun _ => .ok [], .ofNat 3⟩

def otherTx : Transaction := ⟨textBytes (hexEncode [8]), ⟨none, 0⟩, 0, [8]⟩

/-- What the third node mines on the genesis block. -/
def rivalMined : Block :=
  match mineBlock .salted thirdSigner 5 (some genesisHeader) [otherTx] [] 1 with
  | .ok (some block) => block
  | _ => genesisBlock

/-- The transaction arrives, and the block with it is proposed and approved. -/
def firstApproved : List (Oracles × NodeEvent) :=
  [(.salted, .pool (.newTx (some pooledTx))),
    (.salted, .consensus ⟨[1], .prePrepare (some firstMined)⟩),
    (.salted, .consensus ⟨[3], .commit ((firstMined.header.map (·.hash)).getD []) []⟩)]

/-- A node after these events. -/
def approvedNode : NodeState Memory.Cache :=
  Run.exec (NodeState.step Memory.database otherSigner TxPool.noRpc)
    (NodeState.new Memory.backend 1) firstApproved

/-- The same node when a NewBlock message with the rival block has come in before the
    next beacon entry. -/
def overtakenNode : NodeState Memory.Cache :=
  approvedNode.step Memory.database otherSigner TxPool.noRpc
    ({ Oracles.salted with unmarshalBlock := fun _ => .ok rivalMined }, .newBlock [])

theorem commit_approvedNode_losesNothing :
    LosesNothing Memory.database approvedNode
      (approvedNode.commit Memory.database .salted
        approvedNode.consensus.getAllBlocksWithCommit).1
      (approvedNode.commit Memory.database .salted
        approvedNode.consensus.getAllBlocksWithCommit).2 := by
  have hwf : Memory.backend.Wf approvedNode.chain := (genesisChain_spec Memory.backend).1
  have hselect : selectBlock .salted approvedNode.consensus.getAllBlocksWithCommit
      = .ok firstMined := by decide +kernel
  have hresult : (approvedNode.commit Memory.database .salted
      approvedNode.consensus.getAllBlocksWithCommit).1 = .ok firstMined := by decide +kernel
  refine (commit_losesNothing_iff Memory.backend .salted approvedNode hwf _ (.refl _) ?_).mpr ?_
  · intro e he
    cases hresult.symm.trans he
  · intro block hblock
    obtain rfl := Except.ok.inj (hselect.symm.trans hblock)
    exact .inl (by decide +kernel)

/-- The commit fails on the new head.  The transaction is neither in the mempool then nor
    in the block of that height, and the round that could bring it back is gone. -/
theorem commit_overtakenNode_loses :
    ∃ result s', overtakenNode.commit Memory.database .salted
        overtakenNode.consensus.getAllBlocksWithCommit = (result, s') ∧
      result = .error (.wrap "failed to store block"
        (.msg ("block header has invalid last block hash (expected: "
          ++ hexString ((rivalMined.header.map (·.hash)).getD []) ++ ", actual "
          ++ hexString genesisHash ++ ")"))) ∧
      overtakenNode.pool.mempool.read (txKey pooledTx.hash) = some pooledTx ∧
      s'.pool.mempool.read (txKey pooledTx.hash) = none ∧
      (overtakenNode.consensus.getAllBlocksWithCommit.length,
        s'.consensus.getAllBlocksWithCommit.length) = (1, 0) ∧
      Memory.getLatestBlockHeight s'.chain = .ok 1 ∧
      Memory.fetchBlockByHeight 1 s'.chain = .ok rivalMined ∧
      pooledTx.hash ∉ rivalMined.hashes := by
  refine ⟨_, _, rfl, ?_⟩
  decide +kernel

end Dione
