/-
  Dione.Node.Answers

  The answers a node submits to the oracle contract (`submitTasksFromBlock` of
  `consensus/consensus_handler.go`, `SubmitRequestAnswer` of `ethclient/ethereum.go`).

  A node submits the tasks of a committed block that names it as the proposer.  Such a
  block is its own, made from its own mempool, and the mempool holds what the node has
  made of oracle events and what peers have sent.  An answer of the first kind is what
  the RPC method of the request returned, under the number of the request.  An answer of
  the second kind is whatever the peer has put into the transaction.
-/

import Dione.Node.Atomicity
import Dione.Node.Origin

namespace Dione

open Guard Text BlockChain Consensus ConsensusManager

/-! ## Submission -/

/-- `big.Int.SetString(s, 10)`: digits behind an optional sign. -/
def setString : Str → Option Int
  | '-' :: digits => (parseDecimal digits).map fun n => -(n : Int)
  | '+' :: digits => (parseDecimal digits).map fun n => (n : Int)
  | digits => (parseDecimal digits).map fun n => (n : Int)

/-- The text of a number is read back as the number. -/
theorem setString_decimal (n : Nat) : setString (decimal n) = some (n : Int) := by
  have hdigit : ∀ c ∈ decimal n, c.isDigit = true := fun _ hc => isDigit_of_mem_decimal hc
  unfold setString
  split
  · next digits heq =>
      rw [heq] at hdigit
      exact absurd (hdigit '-' (List.mem_cons_self ..)) (by decide)
  · next digits heq =>
      rw [heq] at hdigit
      exact absurd (hdigit '+' (List.mem_cons_self ..)) (by decide)
  · rw [parseDecimal_decimal]
    rfl

/-- The arguments of a call of `SubmitRequestAnswer`. -/
structure Answer where
  reqID : Int
  data : Bytes
  deriving DecidableEq, Repr

/-- `submitTasksFromBlock`: the calls it makes, and whether it returns.  What the calls
    return is only logged. -/
def submitTasksFromBlock (o : Oracles) : List (Option Transaction) → List Answer × Except Err Unit
  | [] => ([], .ok ())
  -- `tx.Data` of a nil pointer
  | none :: _ => ([], .error .nilDeref)
  | some tx :: txs =>
    let rest := submitTasksFromBlock o txs
    match o.unmarshalTask tx.data with
    | .error _ => rest
    | .ok task =>
      match setString task.requestID with
      | none => rest
      | some reqIDNumber => (⟨reqIDNumber, task.payload⟩ :: rest.1, rest.2)

/-- The calls a step makes. -/
def Interleaved.submits {σ : Type} (db : Database σ) (signer : Signer) (s : Interleaved σ)
    (oe : Oracles × Turn) : List Answer :=
  match oe.2 with
  | .node (.beacon blocks _ _ _) =>
    if blocks.Perm s.node.consensus.getAllBlocksWithCommit then
      match (s.node.commit db oe.1 blocks).1 with
      | .ok block =>
        -- only the proposer of a block submits its tasks
        if (block.header.bind (·.proposer)) = some signer.peerID then
          (submitTasksFromBlock oe.1 block.data).1
        else []
      | .error _ => []
    else []
  | _ => []

/-- The data of a transaction is a task with this answer. -/
def Answer.Of (o : Oracles) (data : Bytes) (a : Answer) : Prop :=
  ∃ task, o.unmarshalTask data = .ok task ∧ setString task.requestID = some a.reqID ∧
    task.payload = a.data

theorem mem_submitTasksFromBlock {o : Oracles} {vs : List (Option Transaction)} {a : Answer}
    (h : a ∈ (submitTasksFromBlock o vs).1) : ∃ tx, some tx ∈ vs ∧ a.Of o tx.data := by
  induction vs with
  | nil => cases h
  | cons v vs ih =>
      have hrest : a ∈ (submitTasksFromBlock o vs).1 →
          ∃ tx, some tx ∈ v :: vs ∧ a.Of o tx.data := by
        intro hmem
        obtain ⟨tx, htx, hof⟩ := ih hmem
        exact ⟨tx, List.mem_cons_of_mem _ htx, hof⟩
      cases v with
      | none => cases h
      | some tx =>
          unfold submitTasksFromBlock at h
          split at h
          · exact hrest h
          · next task htask =>
              split at h
              · exact hrest h
              · next reqID hreqID =>
                  rcases List.mem_cons.mp h with rfl | hmem
                  · exact ⟨tx, List.mem_cons_self .., task, htask, hreqID, rfl⟩
                  · exact hrest hmem

/-! ## What comes into the mempool -/

/-- The task the node makes of an oracle event, if the RPC method answers. -/
def OracleEvent.task (rpc : RpcServices) (event : OracleEvent) : Option DioneTask :=
  match rpc.getRPCMethod event.originChain event.requestType with
  | none => none
  | some rpcMethod =>
    match rpcMethod event.requestParams with
    | .error _ => none
    | .ok res => some ⟨event.originChain, event.requestType, event.requestParams, res,
        decimal event.reqID⟩

theorem OracleEvent.requestID_task {rpc : RpcServices} {event : OracleEvent} {task : DioneTask}
    (h : event.task rpc = some task) : task.requestID = decimal event.reqID := by
  unfold OracleEvent.task at h
  split at h
  · cases h
  · split at h
    · cases h
    · obtain rfl := Option.some.inj h
      rfl

/-- The node's own way: the event is answered, and `data` is the task. -/
def OracleEvent.Makes (rpc : RpcServices) (event : OracleEvent) (data : Bytes) : Prop :=
  ∃ task, event.task rpc = some task ∧ rpc.marshalTask task = .ok data

/-- The transactions an event brings from peers. -/
def PoolEvent.received : PoolEvent → List Transaction
  | .newTx (some tx) => [tx]
  | .getMempoolTxs (.ok txs) => txs
  | _ => []

/-- What `data` may come in with. -/
def PoolEvent.Brings (rpc : RpcServices) (e : PoolEvent) (data : Bytes) : Prop :=
  (∃ event now, e = .oracleEvent event now ∧ event.Makes rpc data) ∨
    ∃ tx ∈ e.received, tx.data = data

theorem Mempool.heap_deleteAll (mp : Mempool) (hashes : List Bytes) :
    (mp.deleteAll hashes).heap = mp.heap := by
  induction hashes generalizing mp with
  | nil => rfl
  | cons hash hashes ih =>
      have hone : (mp.deleteTx hash).2.heap = mp.heap := by
        unfold Mempool.deleteTx
        split <;> rfl
      exact (ih (mp.deleteTx hash).2).trans hone

namespace TxPool

/-- All there is in the mempool, or about to be, is `P`. -/
structure Holds (P : Bytes → Prop) (p : TxPool) : Prop where
  entries : ∀ key tx, p.mempool.read key = some tx → P tx.data
  reply : ∀ txsToRetrieve reply loopVar, p.sync = .retrieving txsToRetrieve reply loopVar →
    ∀ tx ∈ reply, P tx.data
  loopVar : p.LoopVarAllocated

variable {P : Bytes → Prop} {p : TxPool}

theorem holds_new : new.Holds P where
  entries key tx hread := by simp [new, Mempool.new, Mempool.read] at hread
  reply _ _ _ hsync := by cases hsync
  loopVar v hv := by cases hv

theorem Holds.mono {P' : Bytes → Prop} (h : p.Holds P) (hP : ∀ data, P data → P' data) :
    p.Holds P' where
  entries key tx hread := hP _ (h.entries key tx hread)
  reply txsToRetrieve reply loopVar hsync tx htx :=
    hP _ (h.reply txsToRetrieve reply loopVar hsync tx htx)
  loopVar := h.loopVar

/-- The mempool changes and the sync does not. -/
theorem Holds.withMempool (h : p.Holds P) {mp : Mempool}
    (hheap : p.mempool.heap.length ≤ mp.heap.length)
    (hentries : ∀ key tx, mp.read key = some tx → P tx.data) :
    Holds P { p with mempool := mp } where
  entries := hentries
  reply := h.reply
  loopVar v hv := Nat.lt_of_lt_of_le (h.loopVar v hv) hheap

theorem Holds.submit (h : p.Holds P) {tx : Transaction} (htx : P tx.data) :
    ∀ key tx', (p.mempool.submit tx).read key = some tx' → P tx'.data :=
  Mempool.forall_read_submit h.entries htx

theorem Holds.onNewTransaction (h : p.Holds P) {o : Oracles} {payload : Option Transaction}
    (hin : ∀ tx, payload = some tx → P tx.data) :
    ∀ key tx, (p.mempool.onNewTransaction o payload).read key = some tx → P tx.data := by
  unfold Mempool.onNewTransaction
  split
  · exact h.entries
  · next tx =>
      split
      · exact h.submit (hin tx rfl)
      · exact h.entries

theorem Holds.onOracleEvent (h : p.Holds P) {o : Oracles} {rpc : RpcServices} {event : OracleEvent}
    {now : Int} (hin : ∀ data, event.Makes rpc data → P data) :
    ∀ key tx, (p.mempool.onOracleEvent o rpc event now).read key = some tx → P tx.data := by
  unfold Mempool.onOracleEvent
  split
  · exact h.entries
  · next rpcMethod hmethod =>
      split
      · exact h.entries
      · next res hres =>
          dsimp only
          split
          · exact h.entries
          · next data hdata =>
              apply h.submit
              apply hin
              refine ⟨_, ?_, hdata⟩
              simp only [OracleEvent.task, hmethod, hres]

/-- What is left after deletions was there before. -/
theorem Holds.deleteAll (h : p.Holds P) (hashes : List Bytes) :
    Holds P { p with mempool := p.mempool.deleteAll hashes } := by
  apply h.withMempool
  · rw [Mempool.heap_deleteAll]
  · intro key tx hread
    rw [Mempool.read_deleteAll] at hread
    split at hread
    · cases hread
    · exact h.entries key tx hread

theorem Holds.onInventory (h : p.Holds P) (reply : Except Err (List Bytes)) :
    (p.onInventory reply).Holds P := by
  unfold TxPool.onInventory
  split
  · split
    · exact ⟨h.entries, fun _ _ _ hsync => (nomatch hsync), fun v hv => (nomatch hv)⟩
    · refine ⟨h.entries, ?_, fun v hv => (nomatch hv)⟩
      rintro _ _ _ ⟨⟩ tx htx
      cases htx
  · exact h

theorem Holds.onGetMempoolTxs (h : p.Holds P) {reply : Except Err (List Transaction)}
    (hin : ∀ txs, reply = .ok txs → ∀ tx ∈ txs, P tx.data) : (p.onGetMempoolTxs reply).Holds P := by
  unfold TxPool.onGetMempoolTxs
  split
  · split
    · exact h
    · split
      · exact ⟨h.entries, fun _ _ _ hsync => (nomatch hsync), fun v hv => (nomatch hv)⟩
      · next txs =>
          refine ⟨h.entries, ?_, fun v hv => (nomatch hv)⟩
          rintro _ _ _ ⟨⟩
          exact hin txs rfl
  · exact h

/-- An iteration stores one of the transactions of the reply; the rest stays. -/
theorem Holds.onNextTx (h : p.Holds P) : p.onNextTx.Holds P := by
  cases hin : p.incoming with
  | none =>
      obtain ⟨hloop, hmempool⟩ := onNextTx_of_not_incoming h.loopVar hin
      refine ⟨by rw [hmempool]; exact h.entries, ?_, hloop⟩
      obtain ⟨mp, sync⟩ := p
      match sync, h, hin with
      | .waiting, h, _ => exact h.reply
      | .finished, h, _ => exact h.reply
      | .retrieving (_ :: _) [] _, h, _ => exact h.reply
      | .retrieving [] [] _, h, _ => exact fun _ _ _ hsync => (nomatch hsync)
  | some tx =>
      obtain ⟨hloop, -, hothers⟩ := onNextTx_of_incoming h.loopVar hin
      obtain ⟨mp, sync⟩ := p
      match sync, h, hin with
      | .retrieving txsToRetrieve (tx' :: reply) loopVar, h, hin =>
          obtain rfl := Option.some.inj hin
          obtain ⟨hfirst, hrest⟩ := List.forall_mem_cons.mp (h.reply _ _ _ rfl)
          refine ⟨?_, ?_, hloop⟩
          · intro key tx hread
            rcases hothers key tx hread with rfl | hold
            · exact hfirst
            · exact h.entries key tx hold
          · intro toRetrieve reply' loopVar' hsync
            cases loopVar with
            | none =>
                cases hsync
                exact hrest
            | some v =>
                cases hsync
                exact hrest

/-- A step of the mempool brings in what its event brings. -/
theorem Holds.step (h : p.Holds P) (o : Oracles) (rpc : RpcServices) (e : PoolEvent)
    (hin : ∀ data, e.Brings rpc data → P data) : (p.step o rpc e).Holds P := by
  cases e with
  | newTx payload =>
      apply h.withMempool (Mempool.change_onNewTransaction payload).length_heap
      apply h.onNewTransaction
      rintro tx rfl
      exact hin tx.data (.inr ⟨tx, List.mem_singleton_self tx, rfl⟩)
  | oracleEvent event now =>
      apply h.withMempool (Mempool.change_onOracleEvent rpc event now).length_heap
      apply h.onOracleEvent
      intro data hdata
      exact hin data (.inl ⟨event, now, rfl, hdata⟩)
  | inventory reply => exact h.onInventory reply
  | getMempoolTxs reply =>
      apply h.onGetMempoolTxs
      rintro txs rfl tx htx
      exact hin tx.data (.inr ⟨tx, htx, rfl⟩)
  | nextTx => exact h.onNextTx
  | delete txHash => exact h.deleteAll [txHash]
  | expire key => exact h.withMempool (Nat.le_refl _) (Mempool.forall_read_remove h.entries key)

end TxPool

/-! ## Whole runs -/

section Node

variable {σ : Type} {db : Database σ} {signer : Signer} {rpc : RpcServices} {P : Bytes → Prop}
  {s : NodeState σ}

theorem pool_commit (h : s.pool.Holds P) (o : Oracles) (blocks : List ConsensusInfo) :
    (s.commit db o blocks).2.pool.Holds P :=
  h.deleteAll _

theorem pool_mine (o : Oracles) (keys : List Str) (timestamp : Int64) (entry : BeaconEntry) :
    (s.mine signer o keys timestamp entry).pool = s.pool := by
  rw [NodeState.mine_eq]
  split
  · rfl
  · split
    · rfl
    · rfl

/-- The other parts of a node bring nothing into its mempool. -/
theorem pool_step {s : Interleaved σ} (h : s.node.pool.Holds P) (oe : Oracles × Turn)
    (hin : ∀ e data, oe.2 = .node (.pool e) → e.Brings rpc data → P data) :
    (s.step db signer rpc oe).node.pool.Holds P := by
  obtain ⟨o, turn⟩ := oe
  cases turn with
  | mine k keys timestamp =>
      simp only [Interleaved.step]
      split
      · rw [pool_mine]
        exact h
      · exact h
  | node e =>
      cases e with
      | pool e => exact h.step o rpc e fun data hdata => hin e data rfl hdata
      | newBlock payload => exact h
      | synced block => exact h
      | consensus message =>
          simp only [Interleaved.step, NodeState.step]
          split
          · exact h
          · exact h
      | headerUpdated k =>
          simp only [Interleaved.step, NodeState.step]
          split
          · exact h
          · exact h
      | beacon blocks keys timestamp entry =>
          simp only [Interleaved.step]
          split
          · exact pool_commit h o blocks
          · exact h

/-- The transactions of a mined block are from the mempool. -/
theorem data_of_mined {s : Interleaved σ} {oe : Oracles × Turn} {block : Block}
    (h : s.node.pool.Holds P) (hmined : s.mined signer oe = some block) :
    ∀ tx, some tx ∈ block.data → P tx.data := by
  obtain ⟨o, turn⟩ := oe
  cases turn with
  | node e => cases hmined
  | mine k keys timestamp =>
      obtain ⟨entry, -, hmined⟩ := Option.bind_eq_some_iff.mp hmined
      obtain ⟨hkeys, hmined⟩ := Option.ite_none_right_eq_some.mp hmined
      split at hmined
      · next r hmine =>
          subst hmined
          obtain ⟨last, stakes, eproof, -, -, -, -, hcreate⟩ := mineBlock_eq_ok.mp hmine
          simp only [createBlock, bind_eq_ok, pure_eq_ok_iff] at hcreate
          obtain ⟨sig, -, proof, -, txs, htxs, rfl⟩ := hcreate
          intro tx htx
          obtain ⟨tx', htx', heq⟩ := List.mem_map.mp htx
          obtain rfl := Option.some.inj heq
          -- the proof is all that `CreateBlock` changes
          obtain ⟨tx₀, htx₀, txProof, rfl⟩ := mem_of_proveTxs htxs tx' htx'
          obtain ⟨key, hread⟩ := (Mempool.mem_getAllTransactions hkeys).mp
            (Mempool.mem_of_mem_getTransactionsForNewBlock htx₀)
          exact h.entries key tx₀ hread
      · cases hmined

end Node

/-- The oracle events a node has seen. -/
def seen (evs : List (Oracles × Turn)) : List OracleEvent :=
  evs.filterMap fun oe =>
    match oe.2 with
    | .node (.pool (.oracleEvent event _)) => some event
    | _ => none

/-- The transactions a node has been sent. -/
def received (evs : List (Oracles × Turn)) : List Transaction :=
  evs.flatMap fun oe =>
    match oe.2 with
    | .node (.pool e) => e.received
    | _ => []

/-- What has come in during the run. -/
def Brought (rpc : RpcServices) (evs : List (Oracles × Turn)) (data : Bytes) : Prop :=
  (∃ event ∈ seen evs, event.Makes rpc data) ∨ ∃ tx ∈ received evs, tx.data = data

theorem Brought.mono {rpc : RpcServices} {evs evs' : List (Oracles × Turn)} {data : Bytes}
    (h : Brought rpc evs data) (hsub : evs ⊆ evs') : Brought rpc evs' data := by
  rcases h with ⟨event, hseen, hmakes⟩ | ⟨tx, htx, hdata⟩
  · obtain ⟨oe, hoe, hevent⟩ := List.mem_filterMap.mp hseen
    exact .inl ⟨event, List.mem_filterMap.mpr ⟨oe, hsub hoe, hevent⟩, hmakes⟩
  · obtain ⟨oe, hoe, htx⟩ := List.mem_flatMap.mp htx
    exact .inr ⟨tx, List.mem_flatMap.mpr ⟨oe, hsub hoe, htx⟩, hdata⟩

theorem brought_of_brings {rpc : RpcServices} {evs : List (Oracles × Turn)} {oe : Oracles × Turn}
    {e : PoolEvent} {data : Bytes} (hmem : oe ∈ evs) (he : oe.2 = .node (.pool e))
    (h : e.Brings rpc data) : Brought rpc evs data := by
  rcases h with ⟨event, now, rfl, hmakes⟩ | ⟨tx, htx, hdata⟩
  · exact .inl ⟨event, List.mem_filterMap.mpr ⟨oe, hmem, by rw [he]⟩, hmakes⟩
  · exact .inr ⟨tx, List.mem_flatMap.mpr ⟨oe, hmem, by rw [he]; exact htx⟩, hdata⟩

section Runs

variable {B : Backend} {signer : Signer} {rpc : RpcServices} {minApprovals : Int64}

/-- The mempool of a node holds what has come in. -/
theorem holds_after (evs : List (Oracles × Turn)) :
    (Interleaved.after B signer rpc minApprovals evs).node.pool.Holds (Brought rpc evs) := by
  induction evs using List.reverseRecOn with
  | nil => exact TxPool.holds_new
  | append_singleton evs oe ih =>
      rw [Interleaved.after, Run.exec_concat]
      have hbefore : (Interleaved.after B signer rpc minApprovals evs).node.pool.Holds
          (Brought rpc (evs ++ [oe])) :=
        ih.mono fun data hdata => hdata.mono (List.subset_append_left evs [oe])
      apply pool_step hbefore
      intro e data he hdata
      exact brought_of_brings (List.mem_append_right evs (List.mem_singleton_self oe)) he hdata

theorem brought_of_proposed {evs : List (Oracles × Turn)} {block : Block}
    (h : Proposed B signer rpc minApprovals evs block) :
    ∀ tx, some tx ∈ block.data → Brought rpc evs tx.data := by
  obtain ⟨pre, oe, hpart, hmined⟩ := h
  intro tx htx
  have hbrought : Brought rpc pre tx.data := data_of_mined (holds_after pre) hmined tx htx
  exact hbrought.mono ((List.prefix_append pre [oe]).trans hpart).subset

theorem selectBlock_of_commit {σ : Type} {db : Database σ} {s : NodeState σ} {o : Oracles}
    {blocks : List ConsensusInfo} {block : Block} (h : (s.commit db o blocks).1 = .ok block) :
    selectBlock o blocks = .ok block := by
  simp only [NodeState.commit, commitAcceptedBlocks] at h
  split at h
  · cases h
  · next selectedBlock hselect =>
      split at h
      · cases h
      · dsimp only at h
        cases hstore : (storeBlock db o selectedBlock s.chain).result with
        | error e =>
            rw [hstore] at h
            cases h
        | ok u =>
            rw [hstore] at h
            obtain rfl := Except.ok.inj h
            exact hselect

/-- A committed block that names the node as its proposer was made by the node. -/
theorem proposed_of_commit {evs : List (Oracles × Turn)} {o : Oracles}
    {blocks : List ConsensusInfo} {block : Block}
    (hblocks : blocks.Perm
      (Interleaved.after B signer rpc minApprovals evs).node.consensus.getAllBlocksWithCommit)
    (hcommit : ((Interleaved.after B signer rpc minApprovals evs).node.commit B.db o blocks).1
      = .ok block)
    (hown : block.header.bind (·.proposer) = some signer.peerID) :
    Proposed B signer rpc minApprovals evs block := by
  obtain ⟨ci, hci, hblock⟩ := mem_of_selectBlock (selectBlock_of_commit hcommit)
  have horigin : HasOrigin B signer rpc minApprovals evs block :=
    (logsHold_after evs).of_round (roundsOk_after evs) (hblocks.mem_iff.mp hci) hblock
  rcases horigin with hproposed | ⟨pre, oe, -, hvalidates⟩
  · exact hproposed
  · obtain ⟨header, hheader, hproposer⟩ := Option.bind_eq_some_iff.mp hown
    exact absurd hproposer (hvalidates.foreign header hheader)

end Runs

/-- Whatever a node is sent, in whatever order: an answer it submits is the task of a
    transaction in a block it has made itself, and either the node has seen the request with
    this number and the data is what the RPC method returned for it, or the transaction is one
    some peer has sent.  CBOR has to decode what it has encoded. -/
theorem answers_traced (B : Backend) (signer : Signer) (rpc : RpcServices) (minApprovals : Int64)
    (evs : List (Oracles × Turn)) (oe : Oracles × Turn)
    (hdecode : ∀ task data, rpc.marshalTask task = .ok data → oe.1.unmarshalTask data = .ok task)
    (a : Answer)
    (ha : a ∈ (Interleaved.after B signer rpc minApprovals evs).submits B.db signer oe) :
    ∃ block, Proposed B signer rpc minApprovals evs block ∧ ∃ tx, some tx ∈ block.data ∧
      a.Of oe.1 tx.data ∧
      ((∃ event ∈ seen evs, event.Makes rpc tx.data ∧ ∃ task, event.task rpc = some task ∧
          a = ⟨(event.reqID : Int), task.payload⟩) ∨
        ∃ tx' ∈ received evs, tx'.data = tx.data) := by
  obtain ⟨o, turn⟩ := oe
  unfold Interleaved.submits at ha
  split at ha
  · split at ha
    · next hblocks =>
        split at ha
        · next block hcommit =>
            split at ha
            · next hown =>
                have hproposed := proposed_of_commit hblocks hcommit hown
                obtain ⟨tx, htx, task, htask, hreqID, hpayload⟩ := mem_submitTasksFromBlock ha
                refine ⟨block, hproposed, tx, htx, ⟨task, htask, hreqID, hpayload⟩, ?_⟩
                rcases brought_of_proposed hproposed tx htx with
                  ⟨event, hseen, made, hmade, hmarshal⟩ | hreceived
                · left
                  -- the task is decoded as it was encoded
                  obtain rfl : task = made :=
                    Except.ok.inj (htask.symm.trans (hdecode made tx.data hmarshal))
                  refine ⟨event, hseen, ⟨task, hmade, hmarshal⟩, task, hmade, ?_⟩
                  rw [OracleEvent.requestID_task hmade, setString_decimal] at hreqID
                  rw [Option.some.inj hreqID, hpayload]
                · exact .inr hreceived
            · cases ha
        · cases ha
    · cases ha
  · cases ha

/-! ### One request -/

/-- Request 7, and what the node makes of it. -/
def sampleEvent : OracleEvent := ⟨1, [], [], 7⟩

def sampleTask : DioneTask := ⟨1, [], [], [42], decimal 7⟩

/-- An RPC method that answers 42. -/
def sampleRpc : RpcServices where
  getRPCMethod _ _ := some fun _ => .ok [42]
  marshalTask task := if task = sampleTask then .ok [1] else .error (.msg "unexpected task")

def sampleServices : Oracles :=
  { Oracles.salted with
    unmarshalTask := fun data =>
      if data = [1] then .ok sampleTask else .error (.msg "no task") }

theorem sampleServices_decode (task : DioneTask) (data : Bytes)
    (h : sampleRpc.marshalTask task = .ok data) : sampleServices.unmarshalTask data = .ok task := by
  simp only [sampleRpc] at h
  split at h
  · next htask =>
      obtain rfl := Except.ok.inj h
      rw [htask]
      rfl
  · cases h

/-- The node with one approval needed, after some turns. -/
def sampleNode (evs : List (Oracles × Turn)) : NodeState Memory.Cache :=
  (Interleaved.after Memory.backend soleSigner sampleRpc 1 evs).node

/-- A beacon entry, as the node of that moment lists its maps. -/
def beaconAt (s : NodeState Memory.Cache) (round : UInt64) : Oracles × Turn :=
  (sampleServices, .node (.beacon s.consensus.getAllBlocksWithCommit s.pool.mempool.keys 0
    ⟨round, []⟩))

/-- The request is seen. -/
def sampleSeen : List (Oracles × Turn) :=
  [(sampleServices, .node (.pool (.oracleEvent sampleEvent 0)))]

/-- A block is mined. -/
def sampleMined : List (Oracles × Turn) :=
  sampleSeen ++ [beaconAt (sampleNode sampleSeen) 1,
    (sampleServices, .mine 0 (sampleNode sampleSeen).pool.mempool.keys 0)]

/-- A peer commits to it. -/
def sampleRun : List (Oracles × Turn) :=
  sampleMined ++ ((sampleNode sampleMined).consensus.consensusInfoMap.entries.map fun e =>
    (sampleServices, .node (.consensus ⟨[9], .commit e.2.blockhash []⟩)))

/-- The next entry makes the node submit 42 as the answer to request 7. -/
theorem answers_traced_sampleRun :
    ∃ block, Proposed Memory.backend soleSigner sampleRpc 1 sampleRun block ∧
      ∃ tx, some tx ∈ block.data ∧ (⟨7, [42]⟩ : Answer).Of sampleServices tx.data ∧
        ((∃ event ∈ seen sampleRun, event.Makes sampleRpc tx.data ∧
            ∃ task, event.task sampleRpc = some task ∧
              (⟨7, [42]⟩ : Answer) = ⟨(event.reqID : Int), task.payload⟩) ∨
          ∃ tx' ∈ received sampleRun, tx'.data = tx.data) :=
  answers_traced Memory.backend soleSigner sampleRpc 1 sampleRun (beaconAt (sampleNode sampleRun) 2)
    sampleServices_decode ⟨7, [42]⟩ (by decide +kernel)

end Dione
