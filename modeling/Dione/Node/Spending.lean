/-
  Dione.Node.Spending

  How often a transaction is committed.

  Three paths lead a block into the chain: commits, NewBlock messages and initial
  sync.  `ValidateBlock` looks at each transaction of a block alone, and the
  transactions of a stored block are deleted from the mempool on the first path
  only.  So a chain holds every transaction once exactly if every block that is
  recorded brings new ones.
-/

import Dione.Node
import Dione.Sync.Mirror

namespace Dione

open BlockChain

/-- The hashes of the transactions of a block. -/
def Block.hashes (b : Block) : List Bytes := b.data.filterMap fun v => v.map (·.hash)

/-- No hash occurs twice in a block or in two blocks of the chain. -/
def TxsOnce {σ : Type} (db : Database σ) (s : σ) : Prop :=
  ∀ h b, db.fetchBlockByHeight h s = .ok b → b.hashes.Nodup ∧
    ∀ h' b', db.fetchBlockByHeight h' s = .ok b' → h' ≠ h → b.hashes.Disjoint b'.hashes

/-- The transactions of `block` are distinct, and none is in a block of the chain at
    a height other than `height`. -/
def BringsNewTxs {σ : Type} (db : Database σ) (s : σ) (height : UInt64) (block : Block) : Prop :=
  block.hashes.Nodup ∧ ∀ h b, db.fetchBlockByHeight h s = .ok b → h ≠ height →
    block.hashes.Disjoint b.hashes

/-- The same of the abstract store. -/
def Store.TxsOnce (st : Store) : Prop :=
  ∀ h b, st.byHeight h = some b → b.hashes.Nodup ∧
    ∀ h' b', st.byHeight h' = some b' → h' ≠ h → b.hashes.Disjoint b'.hashes

theorem txsOnce_iff {B : Backend} {s : B.σ} (hwf : B.Wf s) :
    TxsOnce B.db s ↔ (B.view s).TxsOnce := by
  simp only [TxsOnce, Store.TxsOnce, B.fetchBlockByHeight_eq _ hwf, orErr_eq_ok]

theorem bringsNewTxs_iff {B : Backend} {s : B.σ} (hwf : B.Wf s) {height : UInt64} {block : Block} :
    BringsNewTxs B.db s height block ↔ block.hashes.Nodup ∧
      ∀ h b, (B.view s).byHeight h = some b → h ≠ height → block.hashes.Disjoint b.hashes := by
  simp only [BringsNewTxs, B.fetchBlockByHeight_eq _ hwf, orErr_eq_ok]

/-- A commit keeps every transaction single iff its own are new. -/
theorem Store.txsOnce_commit_iff {st : Store} (honce : st.TxsOnce) (hd : BlockHeader) (b : Block) :
    (st.commit hd b).TxsOnce ↔ b.hashes.Nodup ∧
      ∀ h b', st.byHeight h = some b' → h ≠ hd.height → b.hashes.Disjoint b'.hashes := by
  have hself : (st.commit hd b).byHeight hd.height = some b := by
    rw [commit_byHeight, if_pos rfl]
  have hother : ∀ h, h ≠ hd.height → (st.commit hd b).byHeight h = st.byHeight h := by
    intro h hne
    rw [commit_byHeight, if_neg hne]
  constructor
  · intro h
    obtain ⟨hnodup, hdisjoint⟩ := h hd.height b hself
    refine ⟨hnodup, ?_⟩
    intro h' b' hb' hne
    exact hdisjoint h' b' ((hother h' hne).trans hb') hne
  · rintro ⟨hnodup, hdisjoint⟩ h x hx
    -- a pair of blocks is old, or one of the two is the new block
    by_cases heq : h = hd.height
    · subst heq
      obtain rfl := Option.some.inj (hself.symm.trans hx)
      refine ⟨hnodup, ?_⟩
      intro h' b' hb' hne
      rw [hother h' hne] at hb'
      exact hdisjoint h' b' hb' hne
    · rw [hother h heq] at hx
      refine ⟨(honce h x hx).1, ?_⟩
      intro h' b' hb' hne
      by_cases heq' : h' = hd.height
      · subst heq'
        obtain rfl := Option.some.inj (hself.symm.trans hb')
        exact fun a hax hab => hdisjoint h x hx heq hab hax
      · rw [hother h' heq'] at hb'
        exact (honce h x hx).2 h' b' hb' hne

theorem genesisChain_txsOnce (B : Backend) : TxsOnce B.db (genesisChain B) := by
  rw [txsOnce_iff (genesisChain_spec B).1, (genesisChain_spec B).2]
  refine (Store.txsOnce_commit_iff (fun h b hb => ?_) _ _).mpr ⟨List.nodup_nil, ?_⟩
  · cases hb
  · intro h b hb
    cases hb

section Step

variable {B : Backend} (signer : Signer) (rpc : RpcServices) {s : NodeState B.σ}
  {oe : Oracles × NodeEvent}

/-- A step that records no block leaves the chain alone. -/
theorem chain_of_not_recorded (hwf : B.Wf s.chain)
    (h : ∀ o block hd, s.storeCall B.db oe = some (o, block) →
      recorded B.db o block s.chain ≠ some hd) :
    (s.step B.db signer rpc oe).chain = s.chain := by
  rw [NodeState.chain_step]
  refine getD_storeStep_of_not_recorded B hwf ?_
  intro c hcall
  exact Option.eq_none_iff_forall_ne_some.mpr fun hd => h c.1 c.2 hd hcall

/-- A step that records a block commits it to the store. -/
theorem chain_of_recorded (hwf : B.Wf s.chain) {o : Oracles} {block : Block} {hd : BlockHeader}
    (hcall : s.storeCall B.db oe = some (o, block))
    (hrec : recorded B.db o block s.chain = some hd) :
    B.Wf (s.step B.db signer rpc oe).chain ∧
      B.view (s.step B.db signer rpc oe).chain = (B.view s.chain).commit hd block := by
  have hchain : (s.step B.db signer rpc oe).chain = storeStep B.db s.chain (o, block) := by
    rw [NodeState.chain_step, hcall]
    rfl
  rw [hchain]
  exact storeStep_of_recorded B hwf hrec

/-- A step leaves the chain alone or commits the one block it records. -/
theorem chain_step_cases (hwf : B.Wf s.chain) :
    (s.step B.db signer rpc oe).chain = s.chain ∨
      ∃ o block hd, s.storeCall B.db oe = some (o, block) ∧
        recorded B.db o block s.chain = some hd ∧ B.Wf (s.step B.db signer rpc oe).chain ∧
        B.view (s.step B.db signer rpc oe).chain = (B.view s.chain).commit hd block := by
  by_cases hrec : ∃ o block hd, s.storeCall B.db oe = some (o, block) ∧
      recorded B.db o block s.chain = some hd
  · obtain ⟨o, block, hd, hcall, hrec⟩ := hrec
    exact .inr ⟨o, block, hd, hcall, hrec, chain_of_recorded signer rpc hwf hcall hrec⟩
  · push Not at hrec
    exact .inl (chain_of_not_recorded signer rpc hwf hrec)

end Step

/-- Every transaction is in the chain at most once throughout a run of a node iff
    every block the run records brings transactions that are new to the chain. -/
theorem txsOnce_iff_bringsNewTxs (B : Backend) (signer : Signer) (rpc : RpcServices)
    (minApprovals : Int64) (evs : List (Oracles × NodeEvent)) :
    Run.Always (NodeState.step B.db signer rpc) (NodeState.new B minApprovals) evs
        (fun s => TxsOnce B.db s.chain) ↔
      Run.StepsMeet (NodeState.step B.db signer rpc) (NodeState.new B minApprovals) evs
        fun s oe => ∀ o block hd, s.storeCall B.db oe = some (o, block) →
          recorded B.db o block s.chain = some hd → BringsNewTxs B.db s.chain hd.height block := by
  refine Run.always_iff_stepsMeet
    (I := fun s : NodeState B.σ => B.Wf s.chain ∧ TxsOnce B.db s.chain) (fun s h => h.2) ?_ ?_
    ⟨(genesisChain_spec B).1, genesisChain_txsOnce B⟩ evs
  · rintro s oe ⟨hwf, honce⟩ hok
    rcases chain_step_cases signer rpc hwf with hchain | ⟨o, block, hd, hcall, hrec, hwf', hview⟩
    · rw [hchain]
      exact ⟨hwf, honce⟩
    · refine ⟨hwf', ?_⟩
      rw [txsOnce_iff hwf', hview, Store.txsOnce_commit_iff ((txsOnce_iff hwf).mp honce)]
      exact (bringsNewTxs_iff hwf).mp (hok o block hd hcall hrec)
  -- the block that repeats a transaction is in the chain after the step
  · rintro s oe ⟨hwf, honce⟩ hbad hgood
    push Not at hbad
    obtain ⟨o, block, hd, hcall, hrec, hnot⟩ := hbad
    obtain ⟨hwf', hview⟩ := chain_of_recorded signer rpc hwf hcall hrec
    rw [txsOnce_iff hwf', hview, Store.txsOnce_commit_iff ((txsOnce_iff hwf).mp honce)] at hgood
    exact hnot ((bringsNewTxs_iff hwf).mpr hgood)

/-! ### A transaction mined again -/

/-- A node other than the sole miner. -/
def otherSigner : Signer := ⟨[2], fun _ => .ok [], .ofNat 2⟩

/-- What that node mines on the first block from the same transaction. -/
def secondMined : Block :=
  match mineBlock .salted otherSigner 1 firstMined.header [pooledTx] [] 1 with
  | .ok (some block) => block
  | _ => genesisBlock

/-- The transaction arrives, then a NewBlock message with a block that contains it.
    The miner hears of the block, and the next beacon entry finds the transaction
    still in the mempool; the block mined from it gets its approval. -/
def proposedAgain : List (Oracles × NodeEvent) :=
  [(.salted, .pool (.newTx (some pooledTx))),
    ({ Oracles.salted with unmarshalBlock := fun _ => .ok firstMined }, .newBlock []),
    (.salted, .headerUpdated 0),
    (.salted, .beacon [] [txKey pooledTx.hash] 1 ⟨1, []⟩),
    (.salted, .consensus ⟨[3], .commit ((secondMined.header.map (·.hash)).getD []) []⟩)]

/-- The accepted block of that round is committed with the next beacon entry. -/
def committedAgain : List (Oracles × NodeEvent) :=
  let s := Run.exec (NodeState.step Memory.database otherSigner TxPool.noRpc)
    (NodeState.new Memory.backend 1) proposedAgain
  proposedAgain ++ [(.salted, .beacon s.consensus.getAllBlocksWithCommit [] 2 ⟨2, []⟩)]

theorem not_txsOnce_committedAgain :
    ¬ Run.Always (NodeState.step Memory.database otherSigner TxPool.noRpc)
        (NodeState.new Memory.backend 1) committedAgain
        (fun s => TxsOnce Memory.database s.chain) := by
  intro h
  have hfirst : Memory.fetchBlockByHeight 1 (Run.exec (NodeState.step Memory.database otherSigner
      TxPool.noRpc) (NodeState.new Memory.backend 1) committedAgain).chain = .ok firstMined := by
    decide +kernel
  have hsecond : Memory.fetchBlockByHeight 2 (Run.exec (NodeState.step Memory.database otherSigner
      TxPool.noRpc) (NodeState.new Memory.backend 1) committedAgain).chain = .ok secondMined := by
    decide +kernel
  have hdisjoint := (h.final 1 firstMined hfirst).2 2 secondMined hsecond (by decide)
  have hmem : pooledTx.hash ∈ firstMined.hashes ∧ pooledTx.hash ∈ secondMined.hashes := by
    decide +kernel
  exact hdisjoint hmem.1 hmem.2

end Dione
