/-
  Dione.Sync.Pool

  What enters the mempool: NewTx pubsub messages and the initial mempool sync
  (`blockchain/sync/sync_mgr.go`), and the oracle requests of the Ethereum side
  (`subscribeOnEthContractsAsync` of `node/node.go`).

  The three run side by side.  A message and a request are handled in one step.  The
  sync is a loop over the transactions of each reply of the bootstrap peer, and the
  others may come between any two of its iterations, so it is a machine with a step
  for each iteration.  The variable of that loop is one for all its iterations:
  every entry a reply has stored points to it.
-/

import Dione.Mempool
import Dione.Lib.Run

namespace Dione

open Guard Text

/-! ## Messages and requests -/

/-- `DioneOracleNewOracleRequest`, the fields the node reads. -/
structure OracleEvent where
  originChain : UInt8
  requestType : Str
  requestParams : Str
  reqID : Nat
  deriving DecidableEq, Repr

/-- What the node calls to answer a request: the registry of `rpc.GetRPCMethod`,
    and `cbor.Marshal` of a task. -/
structure RpcServices where
  getRPCMethod : UInt8 → Str → Option (Str → Except Err Bytes)
  marshalTask : DioneTask → Except Err Bytes

namespace Mempool

variable (o : Oracles)

/-- Store a transaction of which nobody else has the pointer. -/
def submit (mp : Mempool) (tx : Transaction) : Mempool :=
  let allocated := mp.alloc tx
  allocated.2.storeTx allocated.1

/-- `onNewTransaction`; `payload` is what CBOR decoding gives. -/
def onNewTransaction (payload : Option Transaction) (mp : Mempool) : Mempool :=
  match payload with
  | none => mp
  | some tx => if tx.validateHash o then mp.submit tx else mp

/-- What the event loop of `subscribeOnEthContractsAsync` does with an event at the
    time `now`; all errors are only logged. -/
def onOracleEvent (rpc : RpcServices) (event : OracleEvent) (now : Int) (mp : Mempool) : Mempool :=
  match rpc.getRPCMethod event.originChain event.requestType with
  | none => mp
  | some rpcMethod =>
    match rpcMethod event.requestParams with
    | .error _ => mp
    | .ok res =>
      let task : DioneTask := ⟨event.originChain, event.requestType, event.requestParams, res,
        decimal event.reqID⟩
      match rpc.marshalTask task with
      | .error _ => mp
      | .ok data => mp.submit (createTransaction o now data)

end Mempool

/-! ## Mempool sync -/

/-- `policy.MaxTransactionCountForRetrieving`. -/
def maxTransactionCountForRetrieving : Nat := 50000

/-- Where `doInitialMempoolSync` is. -/
inductive MempoolSync where
  /-- Before the bootstrap peer has sent its inventory. -/
  | waiting
  /-- In the request loop: the hashes not asked for yet, what is left of the last
      reply, and the variable of the loop over it, once there is one. -/
  | retrieving (txsToRetrieve : List Bytes) (reply : List Transaction) (loopVar : Option Nat)
  | finished
  deriving DecidableEq

/-- The variable of the loop over a reply. -/
def MempoolSync.loopVar? : MempoolSync → Option Nat
  | .retrieving _ _ loopVar => loopVar
  | _ => none

/-- A mempool and the sync that fills it. -/
structure TxPool where
  mempool : Mempool
  sync : MempoolSync

/-- What happens to a mempool. -/
inductive PoolEvent where
  /-- A NewTx message arrives. -/
  | newTx (payload : Option Transaction)
  /-- An oracle request is seen on the Ethereum side. -/
  | oracleEvent (event : OracleEvent) (now : Int)
  /-- The bootstrap peer answers the `Mempool` request. -/
  | inventory (reply : Except Err (List Bytes))
  /-- The bootstrap peer answers a `GetMempoolTxs` request. -/
  | getMempoolTxs (reply : Except Err (List Transaction))
  /-- The next iteration of the loop over a reply. -/
  | nextTx
  /-- `DeleteTx` is called. -/
  | delete (txHash : Bytes)
  /-- The time to live of an entry is over. -/
  | expire (key : Str)

namespace TxPool

/-- An empty mempool, before any sync. -/
def new : TxPool := ⟨.new, .waiting⟩

/-- The inventory: ask for what the mempool does not have. -/
def onInventory (p : TxPool) (reply : Except Err (List Bytes)) : TxPool :=
  match p.sync with
  | .waiting =>
    match reply with
    | .error _ => { p with sync := .finished }
    | .ok inventory =>
      let missing := inventory.filter fun hash =>
        decide (p.mempool.getTransaction hash = .error Mempool.errTxNotFound)
      { p with sync := .retrieving missing [] none }
  | _ => p

/-- A reply: there is one if something was asked for and the last reply is used up.
    At most `MaxTransactionCountForRetrieving` hashes are asked for at a time. -/
def onGetMempoolTxs (p : TxPool) (reply : Except Err (List Transaction)) : TxPool :=
  match p.sync with
  | .retrieving txsToRetrieve [] _ =>
    if txsToRetrieve = [] then p
    else match reply with
      | .error _ => { p with sync := .finished }
      | .ok txs =>
        { p with
          sync := .retrieving (txsToRetrieve.drop maxTransactionCountForRetrieving) txs none }
  | _ => p

/-- One iteration of `for _, v := range getMempoolTxReply.Transactions`, or the end
    of the sync if there is nothing left to ask for. -/
def onNextTx (p : TxPool) : TxPool :=
  match p.sync with
  | .retrieving txsToRetrieve (tx :: reply) none =>
    let allocated := p.mempool.alloc tx
    ⟨allocated.2.storeTx allocated.1, .retrieving txsToRetrieve reply (some allocated.1)⟩
  | .retrieving txsToRetrieve (tx :: reply) (some v) =>
    -- `StoreTx(&v)`: the entries stored before now show this transaction as well
    ⟨(p.mempool.assign v tx).storeTx v, .retrieving txsToRetrieve reply (some v)⟩
  | .retrieving [] [] _ => { p with sync := .finished }
  | _ => p

/-- One step. -/
def step (o : Oracles) (rpc : RpcServices) (p : TxPool) : PoolEvent → TxPool
  | .newTx payload => { p with mempool := p.mempool.onNewTransaction o payload }
  | .oracleEvent event now => { p with mempool := p.mempool.onOracleEvent o rpc event now }
  | .inventory reply => p.onInventory reply
  | .getMempoolTxs reply => p.onGetMempoolTxs reply
  | .nextTx => p.onNextTx
  | .delete txHash => { p with mempool := (p.mempool.deleteTx txHash).2 }
  | .expire key => { p with mempool := p.mempool.remove key }

/-- The transaction the next iteration of the sync stores. -/
def incoming (p : TxPool) : Option Transaction :=
  match p.sync with
  | .retrieving _ (tx :: _) _ => some tx
  | _ => none

end TxPool

/-! ## What a step stores -/

namespace Mempool

variable {mp : Mempool}

theorem read_submit (tx : Transaction) (key : Str) :
    (mp.submit tx).read key = if key = txKey tx.hash then some tx else mp.read key := by
  have hptr : (mp.alloc tx).2.heap[(mp.alloc tx).1]? = some tx :=
    List.getElem?_concat_length
  rw [submit, read_storeTx hptr, read_alloc]

theorem length_heap_submit (tx : Transaction) :
    (mp.submit tx).heap.length = mp.heap.length + 1 := by
  simp [submit]

/-- An iteration that reuses its variable: the new transaction is stored, and other
    entries show it or what they showed before. -/
theorem read_assign_storeTx {v : Nat} (hv : v < mp.heap.length) (tx : Transaction) :
    ((mp.assign v tx).storeTx v).read (txKey tx.hash) = some tx ∧
      ∀ key tx', ((mp.assign v tx).storeTx v).read key = some tx' →
        tx' = tx ∨ mp.read key = some tx' := by
  have hptr : (mp.assign v tx).heap[v]? = some tx := List.getElem?_set_self hv
  constructor
  · rw [read_storeTx hptr, if_pos rfl]
  · intro key tx' hread
    rw [read_storeTx hptr] at hread
    split at hread
    · exact .inl (Option.some.inj hread).symm
    · rw [read_assign hv] at hread
      split at hread
      · exact .inl (Option.some.inj hread).symm
      · exact .inr hread

section Entries

variable {P : Str → Transaction → Prop}

/-- What holds of every entry and of a transaction under its key holds of every entry once
    that transaction is stored. -/
theorem forall_read_submit (h : ∀ key tx, mp.read key = some tx → P key tx) {tx : Transaction}
    (htx : P (txKey tx.hash) tx) : ∀ key tx', (mp.submit tx).read key = some tx' → P key tx' := by
  intro key tx' hread
  rw [read_submit] at hread
  split at hread
  · next hkey =>
      obtain rfl := Option.some.inj hread
      rw [hkey]
      exact htx
  · exact h key tx' hread

theorem forall_read_remove (h : ∀ key tx, mp.read key = some tx → P key tx) (key : Str) :
    ∀ key' tx, (mp.remove key).read key' = some tx → P key' tx := by
  intro key' tx hread
  rw [read_remove] at hread
  split at hread
  · cases hread
  · exact h key' tx hread

end Entries

/-- Whatever `GetAllTransactions` returns has the hash of its data. -/
def WellFormed (o : Oracles) (mp : Mempool) : Prop :=
  ∀ keys, keys.Perm mp.keys → ∀ tx ∈ mp.getAllTransactions keys, tx.validateHash o = true

theorem wellFormed_iff {o : Oracles} :
    mp.WellFormed o ↔ ∀ key tx, mp.read key = some tx → tx.validateHash o = true := by
  constructor
  · intro h key tx hread
    exact h mp.keys (List.Perm.refl _) tx
      ((mem_getAllTransactions (List.Perm.refl _)).mpr ⟨key, hread⟩)
  · intro h keys hkeys tx htx
    obtain ⟨key, hread⟩ := (mem_getAllTransactions hkeys).mp htx
    exact h key tx hread

variable {o : Oracles}

theorem WellFormed.submit (h : mp.WellFormed o) {tx : Transaction}
    (htx : tx.validateHash o = true) : (mp.submit tx).WellFormed o := by
  rw [wellFormed_iff] at h ⊢
  exact forall_read_submit h htx

theorem WellFormed.remove (h : mp.WellFormed o) (key : Str) : (mp.remove key).WellFormed o := by
  rw [wellFormed_iff] at h ⊢
  exact forall_read_remove h key

/-- What every step but an iteration of the sync does to the mempool. -/
inductive Change (o : Oracles) (mp : Mempool) : Mempool → Prop where
  | same : Change o mp mp
  | submitted (tx : Transaction) (valid : tx.validateHash o = true) : Change o mp (mp.submit tx)
  | removed (key : Str) : Change o mp (mp.remove key)

theorem change_onNewTransaction (payload : Option Transaction) :
    Change o mp (mp.onNewTransaction o payload) := by
  unfold onNewTransaction
  split
  · exact .same
  · split
    · next tx hvalid => exact .submitted tx hvalid
    · exact .same

theorem change_onOracleEvent (rpc : RpcServices) (event : OracleEvent) (now : Int) :
    Change o mp (mp.onOracleEvent o rpc event now) := by
  unfold onOracleEvent
  split
  · exact .same
  · split
    · exact .same
    · dsimp only
      split
      · exact .same
      · next data _ => exact .submitted _ (validateHash_createTransaction o now data)

theorem change_deleteTx (txHash : Bytes) : Change o mp (mp.deleteTx txHash).2 := by
  unfold deleteTx
  split
  · exact .same
  · exact .removed _

variable {mp' : Mempool}

theorem Change.wellFormed (h : Change o mp mp') (hmp : mp.WellFormed o) : mp'.WellFormed o := by
  cases h with
  | same => exact hmp
  | submitted tx valid => exact hmp.submit valid
  | removed key => exact hmp.remove key

theorem Change.length_heap (h : Change o mp mp') : mp.heap.length ≤ mp'.heap.length := by
  cases h with
  | same => exact Nat.le_refl _
  | submitted tx valid =>
      rw [length_heap_submit]
      omega
  | removed key => exact Nat.le_refl _

end Mempool

/-! ## Runs -/

namespace TxPool

variable {o : Oracles} {p : TxPool}

/-- The variable of the sync loop exists. -/
def LoopVarAllocated (p : TxPool) : Prop :=
  ∀ v, p.sync.loopVar? = some v → v < p.mempool.heap.length

/-- What an iteration stores. -/
theorem onNextTx_of_incoming (hloop : p.LoopVarAllocated) {tx : Transaction}
    (h : p.incoming = some tx) : p.onNextTx.LoopVarAllocated ∧
      p.onNextTx.mempool.read (txKey tx.hash) = some tx ∧
      ∀ key tx', p.onNextTx.mempool.read key = some tx' →
        tx' = tx ∨ p.mempool.read key = some tx' := by
  obtain ⟨mp, sync⟩ := p
  match sync, hloop, h with
  | .retrieving txsToRetrieve (tx' :: reply) none, hloop, h =>
      obtain rfl := Option.some.inj h
      refine ⟨?_, ?_, ?_⟩
      · intro v hv
        obtain rfl := Option.some.inj hv
        show mp.heap.length < ((mp.alloc tx').2.storeTx mp.heap.length).heap.length
        simp
      · exact (Mempool.read_submit tx' (txKey tx'.hash)).trans (if_pos rfl)
      · intro key tx hread
        have hread' : (mp.submit tx').read key = some tx := hread
        rw [Mempool.read_submit] at hread'
        split at hread'
        · exact .inl (Option.some.inj hread').symm
        · exact .inr hread'
  | .retrieving txsToRetrieve (tx' :: reply) (some v), hloop, h =>
      obtain rfl := Option.some.inj h
      have hv : v < mp.heap.length := hloop v rfl
      obtain ⟨hself, hothers⟩ := Mempool.read_assign_storeTx hv tx'
      refine ⟨?_, hself, hothers⟩
      intro v' hv'
      obtain rfl := Option.some.inj hv'
      show v < ((mp.assign v tx').storeTx v).heap.length
      simpa using hv

/-- Without a transaction left the sync goes on or ends. -/
theorem onNextTx_of_not_incoming (hloop : p.LoopVarAllocated) (h : p.incoming = none) :
    p.onNextTx.LoopVarAllocated ∧ p.onNextTx.mempool = p.mempool := by
  obtain ⟨mp, sync⟩ := p
  match sync, hloop, h with
  | .waiting, hloop, _ => exact ⟨hloop, rfl⟩
  | .finished, hloop, _ => exact ⟨hloop, rfl⟩
  | .retrieving (hash :: hashes) [] loopVar, hloop, _ => exact ⟨hloop, rfl⟩
  | .retrieving [] [] loopVar, hloop, _ =>
      refine ⟨?_, rfl⟩
      intro v hv
      cases hv

/-- A step that is not an iteration of the sync. -/
theorem step_of_ne_nextTx (rpc : RpcServices) (hloop : p.LoopVarAllocated) {e : PoolEvent}
    (he : e ≠ .nextTx) :
    Mempool.Change o p.mempool (p.step o rpc e).mempool ∧ (p.step o rpc e).LoopVarAllocated := by
  -- variables are never freed, so what only touches the mempool keeps the loop's
  have hframe : ∀ {mp'}, Mempool.Change o p.mempool mp' →
      Mempool.Change o p.mempool mp' ∧ LoopVarAllocated ⟨mp', p.sync⟩ := fun h =>
    ⟨h, fun v hv => Nat.lt_of_lt_of_le (hloop v hv) h.length_heap⟩
  cases e with
  | newTx payload => exact hframe (Mempool.change_onNewTransaction payload)
  | oracleEvent event now => exact hframe (Mempool.change_onOracleEvent rpc event now)
  | delete txHash => exact hframe (Mempool.change_deleteTx txHash)
  | expire key => exact hframe (.removed key)
  | nextTx => exact absurd rfl he
  | inventory reply =>
      show Mempool.Change o p.mempool (p.onInventory reply).mempool ∧ _
      unfold step onInventory
      split
      · split
        · exact ⟨.same, fun v hv => by cases hv⟩
        · exact ⟨.same, fun v hv => by cases hv⟩
      · exact ⟨.same, hloop⟩
  | getMempoolTxs reply =>
      show Mempool.Change o p.mempool (p.onGetMempoolTxs reply).mempool ∧ _
      unfold step onGetMempoolTxs
      split
      · split
        · exact ⟨.same, hloop⟩
        · split
          · exact ⟨.same, fun v hv => by cases hv⟩
          · exact ⟨.same, fun v hv => by cases hv⟩
      · exact ⟨.same, hloop⟩

/-- The mempool holds only transactions with the hash of their data, throughout every
    run of messages, oracle requests, sync replies and removals, iff every transaction
    the sync takes from a reply is one. -/
theorem wellFormed_iff_incoming_valid (o : Oracles) (rpc : RpcServices) (evs : List PoolEvent) :
    Run.Always (step o rpc) new evs (fun p => p.mempool.WellFormed o) ↔
      Run.StepsMeet (step o rpc) new evs fun p e =>
        e = .nextTx → ∀ tx, p.incoming = some tx → tx.validateHash o = true := by
  have hnew : new.mempool.WellFormed o ∧ new.LoopVarAllocated := by
    refine ⟨Mempool.wellFormed_iff.mpr fun key tx hread => ?_, fun v hv => by cases hv⟩
    simp [new, Mempool.new, Mempool.read] at hread
  -- the sync assigns to the variable of its loop, so the invariant has to keep it
  refine Run.always_iff_stepsMeet
    (I := fun p : TxPool => p.mempool.WellFormed o ∧ p.LoopVarAllocated)
    (fun p h => h.1) ?_ ?_ hnew evs
  · rintro p e ⟨hwell, hloop⟩ hok
    by_cases he : e = .nextTx
    · subst he
      show p.onNextTx.mempool.WellFormed o ∧ p.onNextTx.LoopVarAllocated
      cases hin : p.incoming with
      | none =>
          obtain ⟨hloop', hsame⟩ := onNextTx_of_not_incoming hloop hin
          rw [hsame]
          exact ⟨hwell, hloop'⟩
      | some tx =>
          obtain ⟨hloop', -, hothers⟩ := onNextTx_of_incoming hloop hin
          refine ⟨Mempool.wellFormed_iff.mpr ?_, hloop'⟩
          intro key tx' hread
          rcases hothers key tx' hread with rfl | hold
          · exact hok rfl tx' hin
          · exact Mempool.wellFormed_iff.mp hwell key tx' hold
    · obtain ⟨hchange, hloop'⟩ := step_of_ne_nextTx rpc hloop he
      exact ⟨hchange.wellFormed hwell, hloop'⟩
  · rintro p e ⟨-, hloop⟩ hbad hgood
    push Not at hbad
    obtain ⟨rfl, tx, hin, hinvalid⟩ := hbad
    -- what was just stored is in the mempool, whatever its hash
    obtain ⟨-, hself, -⟩ := onNextTx_of_incoming hloop hin
    exact hinvalid (Mempool.wellFormed_iff.mp hgood _ tx hself)

/-! ### A bootstrap peer that lies -/

/-- A transaction whose hash is not that of its data. -/
def forgedTx : Transaction := ⟨[1], ⟨none, 0⟩, 0, [7]⟩

/-- The peer offers the forged transaction and sends it when asked. -/
def forgedReply : List PoolEvent :=
  [.inventory (.ok [[1]]), .getMempoolTxs (.ok [forgedTx]), .nextTx]

/-- No RPC method is registered. -/
def noRpc : RpcServices := ⟨fun _ _ => none, fun _ => .ok []⟩

theorem not_wellFormed_forgedReply :
    ¬ Run.Always (step .offline noRpc) new forgedReply
      (fun p => p.mempool.WellFormed .offline) := by
  intro h
  have hread : (Run.exec (step .offline noRpc) new forgedReply).mempool.read (txKey [1])
      = some forgedTx := by decide +kernel
  have hvalid := Mempool.wellFormed_iff.mp h.final _ forgedTx hread
  exact absurd hvalid (by decide +kernel)

end TxPool

end Dione
