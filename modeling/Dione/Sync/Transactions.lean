/-
  Dione.Sync.Transactions

  Mempool sync: the requests a node answers about its mempool (`Mempool` and
  `GetMempoolTxs` of `node/network_service.go`), and the node that asks for the
  transactions it does not have (`doInitialMempoolSync` of
  `blockchain/sync/sync_mgr.go`).

    * A hash that the peer does not have is noted as not found, and then its nil
      pointer is read all the same.
    * The loop over a reply stores the pointer of its variable, which is one for all
      iterations.  After the loop every entry the reply has stored shows the last
      transaction of the reply.
-/

import Dione.Sync.Pool

namespace Dione

open Guard Text

/-- `wire.GetMempoolTxsReply`. -/
structure GetMempoolTxsReply where
  transactions : List Transaction
  notFoundTxs : List Bytes
  deriving DecidableEq, Repr

/-- What a peer answers to the two requests of a mempool sync. -/
structure MempoolPeer where
  mempool : Except Err (List Bytes)
  getMempoolTxs : List Bytes → Except Err GetMempoolTxsReply

/-! ## The peer -/

namespace NetworkService

/-- `Mempool`: the hashes of all transactions, for the order of the keys. -/
def mempool (mp : Mempool) (keys : List Str) : List Bytes :=
  (mp.getAllTransactions keys).map Transaction.hash

/-- One iteration of the loop of `GetMempoolTxs`.  A transaction that is not found is a
    nil pointer. -/
def retrieveTx (getTransaction : Bytes → Except Err Transaction) (reply : GetMempoolTxsReply)
    (v : Bytes) : Except Err GetMempoolTxsReply := do
  let (reply, tx) ← match getTransaction v with
    | .ok tx => .ok (reply, some tx)
    | .error e =>
      if e = Mempool.errTxNotFound then
        .ok ({ reply with notFoundTxs := reply.notFoundTxs ++ [v] }, none)
      else .error e
  -- the branches join here: what is not found is not skipped
  let tx ← deref tx
  return { reply with transactions := reply.transactions ++ [tx] }

/-- `GetMempoolTxs`, over `Mempool.GetTransaction`. -/
def getMempoolTxs (getTransaction : Bytes → Except Err Transaction) (items : List Bytes) :
    Except Err GetMempoolTxsReply :=
  if items.length > maxTransactionCountForRetrieving then
    .error (.msg "max tx count limit exceeded")
  else items.foldlM (retrieveTx getTransaction) ⟨[], []⟩

/-- A peer that serves its mempool. -/
def serveMempool (mp : Mempool) (keys : List Str) : MempoolPeer where
  mempool := .ok (mempool mp keys)
  getMempoolTxs := getMempoolTxs mp.getTransaction

section Requests

variable {mp : Mempool} {items : List Bytes}

theorem retrieveTx_found {v : Bytes} {tx : Transaction} (h : mp.read (txKey v) = some tx)
    (reply : GetMempoolTxsReply) : retrieveTx mp.getTransaction reply v
      = .ok { reply with transactions := reply.transactions ++ [tx] } := by
  have hget : mp.getTransaction v = .ok tx := by rw [Mempool.getTransaction, h]
  rw [retrieveTx, hget]
  rfl

theorem retrieveTx_absent {v : Bytes} (h : mp.read (txKey v) = none)
    (reply : GetMempoolTxsReply) : retrieveTx mp.getTransaction reply v = .error .nilDeref := by
  have hget : mp.getTransaction v = .error Mempool.errTxNotFound := by
    rw [Mempool.getTransaction, h]
  rw [retrieveTx, hget]
  rfl

/-- The loop stops at the first hash that is absent. -/
theorem foldlM_retrieveTx (mp : Mempool) (items : List Bytes) (reply : GetMempoolTxsReply) :
    items.foldlM (retrieveTx mp.getTransaction) reply
      = if ∀ v ∈ items, mp.read (txKey v) ≠ none then
          .ok { reply with transactions :=
            reply.transactions ++ items.filterMap fun v => mp.read (txKey v) }
        else .error .nilDeref := by
  induction items generalizing reply with
  | nil => simp [pure, Except.pure]
  | cons v items ih =>
      rw [List.foldlM_cons]
      cases h : mp.read (txKey v) with
      | none =>
          rw [retrieveTx_absent h, error_bind, if_neg]
          intro hall
          exact hall v (List.mem_cons_self ..) h
      | some tx =>
          rw [retrieveTx_found h, ok_bind, ih]
          simp [h]

theorem getMempoolTxs_eq (hlength : items.length ≤ maxTransactionCountForRetrieving) :
    getMempoolTxs mp.getTransaction items
      = if ∀ v ∈ items, mp.read (txKey v) ≠ none then
          .ok ⟨items.filterMap fun v => mp.read (txKey v), []⟩
        else .error .nilDeref := by
  rw [getMempoolTxs, if_neg (by omega), foldlM_retrieveTx]
  simp

end Requests

/-- Of at most `MaxTransactionCountForRetrieving` hashes, `GetMempoolTxs` returns the
    transactions of those that are present and the others as not found, each in the order
    asked for, iff all are present. -/
theorem getMempoolTxs_partitions_iff (mp : Mempool) {items : List Bytes}
    (hlength : items.length ≤ maxTransactionCountForRetrieving) :
    getMempoolTxs mp.getTransaction items
        = .ok ⟨items.filterMap fun v => mp.read (txKey v),
          items.filter fun v => (mp.read (txKey v)).isNone⟩ ↔
      ∀ v ∈ items, mp.read (txKey v) ≠ none := by
  rw [getMempoolTxs_eq hlength]
  constructor
  · intro h
    by_contra hno
    rw [if_neg hno] at h
    cases h
  · intro hall
    have hnone : items.filter (fun v => (mp.read (txKey v)).isNone) = [] := by
      refine List.filter_eq_nil_iff.mpr ?_
      intro v hv
      simpa using hall v hv
    rw [if_pos hall, hnone]

/-- A mempool with one transaction. -/
def oneTxPool : Mempool := Mempool.new.submit ⟨[1], ⟨none, 0⟩, 0, [7]⟩

theorem getMempoolTxs_partitions_present :
    getMempoolTxs oneTxPool.getTransaction [[1], [1]]
      = .ok ⟨[[1], [1]].filterMap fun v => oneTxPool.read (txKey v),
        [[1], [1]].filter fun v => (oneTxPool.read (txKey v)).isNone⟩ :=
  (getMempoolTxs_partitions_iff oneTxPool (by decide)).mpr (by decide +kernel)

/-- A request for a hash that is not there ends in a nil dereference. -/
theorem getMempoolTxs_absent_nilDeref :
    getMempoolTxs oneTxPool.getTransaction [[1], [2]] = .error .nilDeref := by
  decide +kernel

end NetworkService

/-! ## The node -/

namespace Mempool

/-- The loop `for _, v := range getMempoolTxReply.Transactions`: the variable is made by
    the first iteration and assigned to by the others. -/
def storeTxs (mp : Mempool) : List Transaction → Mempool
  | [] => mp
  | tx :: txs =>
    let v := mp.heap.length
    txs.foldl (fun mp' tx => (mp'.assign v tx).storeTx v) (mp.submit tx)

end Mempool

namespace Sync

/-- The request loop of `doInitialMempoolSync`.  Transactions that were not found are
    not looked at. -/
def retrieveTxs (peer : MempoolPeer) : Nat → List Bytes → Mempool →
    Option (Except Err Unit × Mempool)
  | 0, _, _ => none
  | fuel + 1, txsToRetrieve, mp =>
    if txsToRetrieve = [] then some (.ok (), mp)
    else
      match peer.getMempoolTxs (txsToRetrieve.take maxTransactionCountForRetrieving) with
      | .error e => some (.error e, mp)
      | .ok reply =>
        retrieveTxs peer fuel (txsToRetrieve.drop maxTransactionCountForRetrieving)
          (mp.storeTxs reply.transactions)

/-- The hashes of the inventory that the mempool does not have. -/
def missing (mp : Mempool) (inventory : List Bytes) : List Bytes :=
  inventory.filter fun hash => decide (mp.getTransaction hash = .error Mempool.errTxNotFound)

/-- `doInitialMempoolSync`. -/
def doInitialMempoolSync (bootstrapPeer : Option MempoolPeer) (mp : Mempool) :
    Option (Except Err Unit × Mempool) :=
  match bootstrapPeer with
  | none => some (.ok (), mp)
  | some peer =>
    match peer.mempool with
    | .error e => some (.error e, mp)
    | .ok inventory =>
      let txsToRetrieve := missing mp inventory
      retrieveTxs peer (txsToRetrieve.length + 1) txsToRetrieve mp

end Sync

/-! ### What a reply stores -/

namespace Mempool

variable {mp mp' : Mempool} {stored : List Transaction} {last : Transaction}

/-- The mempool after some iterations over a reply that started from `mp`: the entries of
    the transactions stored so far point to the variable of the loop, which holds the
    last of them. -/
structure InLoop (mp : Mempool) (stored : List Transaction) (last : Transaction)
    (mp' : Mempool) : Prop where
  loopVar : mp'.heap[mp.heap.length]? = some last
  lookup_iff : ∀ key, mp'.cache.lookup key = some mp.heap.length ↔
    ∃ tx ∈ stored, key = txKey tx.hash
  others : ∀ key, mp'.cache.lookup key ≠ some mp.heap.length → mp'.read key = mp.read key

namespace InLoop

theorem first (mp : Mempool) (tx : Transaction) : InLoop mp [tx] tx (mp.submit tx) := by
  have hptr : (mp.alloc tx).2.heap[mp.heap.length]? = some tx := List.getElem?_concat_length
  have hcache : (mp.submit tx).cache = mp.cache.insert (txKey tx.hash) mp.heap.length :=
    cache_storeTx hptr
  have hlookup : ∀ key, (mp.submit tx).cache.lookup key = some mp.heap.length ↔
      key = txKey tx.hash := by
    intro key
    rw [hcache, Lists.lookup_insert_ite]
    split
    · next heq => simp [heq]
    · next hne =>
        refine iff_of_false (fun hold => ?_) hne
        exact absurd (mp.inHeap key _ hold) (Nat.lt_irrefl _)
  refine ⟨?_, ?_, ?_⟩
  · rw [submit, heap_storeTx]
    exact hptr
  · simpa using hlookup
  · intro key hother
    rw [read_submit, if_neg ((hlookup key).not.mp hother)]

/-- One more iteration. -/
theorem next (h : InLoop mp stored last mp') (tx : Transaction) :
    InLoop mp (stored ++ [tx]) tx ((mp'.assign mp.heap.length tx).storeTx mp.heap.length) := by
  have hv : mp.heap.length < mp'.heap.length := (List.getElem?_eq_some_iff.mp h.loopVar).1
  have hptr : (mp'.assign mp.heap.length tx).heap[mp.heap.length]? = some tx :=
    List.getElem?_set_self hv
  have hcache : ((mp'.assign mp.heap.length tx).storeTx mp.heap.length).cache
      = mp'.cache.insert (txKey tx.hash) mp.heap.length := cache_storeTx hptr
  have hlookup : ∀ key, ((mp'.assign mp.heap.length tx).storeTx mp.heap.length).cache.lookup key
      = some mp.heap.length ↔ key = txKey tx.hash ∨ mp'.cache.lookup key = some mp.heap.length := by
    intro key
    rw [hcache, Lists.lookup_insert_ite]
    split
    · next heq => simp [heq]
    · next hne => simp [hne]
  refine ⟨?_, ?_, ?_⟩
  · rw [heap_storeTx]
    exact hptr
  · intro key
    rw [hlookup, h.lookup_iff]
    simp only [List.mem_append, List.mem_singleton]
    constructor
    · rintro (heq | ⟨tx', hmem, heq⟩)
      · exact ⟨tx, .inr rfl, heq⟩
      · exact ⟨tx', .inl hmem, heq⟩
    · rintro ⟨tx', hmem | rfl, heq⟩
      · exact .inr ⟨tx', hmem, heq⟩
      · exact .inl heq
  · intro key hother
    rw [ne_eq, hlookup, not_or] at hother
    rw [read_storeTx hptr, if_neg hother.1, read_assign hv, if_neg hother.2, h.others key hother.2]

theorem foldl (h : InLoop mp stored last mp') (txs : List Transaction) :
    InLoop mp (stored ++ txs) (txs.getLastD last) (txs.foldl
      (fun mp' tx => (mp'.assign mp.heap.length tx).storeTx mp.heap.length) mp') := by
  induction txs generalizing stored last mp' with
  | nil => simpa using h
  | cons tx txs ih =>
      have hrest := ih (h.next tx)
      rw [List.append_assoc, List.singleton_append] at hrest
      rw [List.getLastD_cons]
      exact hrest

theorem read_eq (h : InLoop mp stored last mp') (key : Str) :
    mp'.read key = if ∃ tx ∈ stored, key = txKey tx.hash then some last else mp.read key := by
  split
  · next hin => rw [read, (h.lookup_iff key).mpr hin, Option.bind_some, h.loopVar]
  · next hout => exact h.others key ((h.lookup_iff key).not.mpr hout)

end InLoop

/-- After the loop the entries it has stored show the last transaction of the reply. -/
theorem read_storeTxs (mp : Mempool) (txs : List Transaction) (key : Str) :
    (mp.storeTxs txs).read key
      = if ∃ tx ∈ txs, key = txKey tx.hash then txs.getLast? else mp.read key := by
  cases txs with
  | nil => simp [storeTxs]
  | cons tx txs =>
      rw [storeTxs, ((InLoop.first mp tx).foldl txs).read_eq, List.singleton_append,
        List.getLast?_cons, List.getLastD_eq_getLast?]

end Mempool

/-! ### What the sync leaves -/

/-- `GetTransaction` of the hash of `t` gives a transaction with that hash and its data. -/
def Mempool.Has (mp : Mempool) (t : Transaction) : Prop :=
  ∃ tx, mp.getTransaction t.hash = .ok tx ∧ tx.hash = t.hash ∧ tx.data = t.data

theorem Mempool.getTransaction_eq_ok {mp : Mempool} {hash : Bytes} {tx : Transaction} :
    mp.getTransaction hash = .ok tx ↔ mp.read (txKey hash) = some tx := by
  unfold getTransaction
  split
  · next hnone => simp [hnone]
  · next tx' hsome => simp [hsome]

/-- Every entry is filed under the hash of its transaction. -/
def Mempool.Filed (mp : Mempool) : Prop := ∀ key tx, mp.read key = some tx → key = txKey tx.hash

section Filed

variable {mp : Mempool}

theorem Mempool.Filed.new : Mempool.new.Filed := by
  intro key tx hread
  simp [Mempool.new, Mempool.read] at hread

theorem Mempool.Filed.submit (h : mp.Filed) (tx : Transaction) : (mp.submit tx).Filed :=
  forall_read_submit h rfl

end Filed

namespace Sync

/-- The requests of the loop, for `fuel` iterations. -/
def txRequests : Nat → List Bytes → List (List Bytes)
  | 0, _ => []
  | fuel + 1, hashes =>
    if hashes = [] then []
    else hashes.take maxTransactionCountForRetrieving ::
      txRequests fuel (hashes.drop maxTransactionCountForRetrieving)

/-- What a peer with the mempool `remote` replies to the requests for `hashes`. -/
def txReplies (remote : Mempool) (fuel : Nat) (hashes : List Bytes) : List (List Transaction) :=
  (txRequests fuel hashes).map fun batch => batch.filterMap fun v => remote.read (txKey v)

/-- What an entry that showed `before` shows once the replies have been stored: the last
    transaction of the last reply that has one with the key of the entry. -/
def shown (key : Str) (before : Option Transaction) (replies : List (List Transaction)) :
    Option Transaction :=
  replies.foldl
    (fun entry reply => if ∃ tx ∈ reply, key = txKey tx.hash then reply.getLast? else entry) before

section Retrieve

variable {remote mp after : Mempool} {keys : List Str} {fuel : Nat} {hashes : List Bytes}

/-- A loop in which no request fails. -/
theorem read_retrieveTxs
    (h : retrieveTxs (NetworkService.serveMempool remote keys) fuel hashes mp
      = some (.ok (), after)) (key : Str) :
    after.read key = shown key (mp.read key) (txReplies remote fuel hashes) := by
  induction fuel generalizing hashes mp with
  | zero => cases h
  | succ fuel ih =>
      rw [retrieveTxs] at h
      rw [txReplies, txRequests]
      split at h
      · next hempty =>
          obtain rfl : mp = after := congrArg Prod.snd (Option.some.inj h)
          rw [if_pos hempty]
          rfl
      · next hne =>
          have hlength : (hashes.take maxTransactionCountForRetrieving).length
              ≤ maxTransactionCountForRetrieving := List.length_take_le ..
          simp only [NetworkService.serveMempool, NetworkService.getMempoolTxs_eq hlength] at h
          rw [if_neg hne, List.map_cons, shown, List.foldl_cons]
          split at h
          · next heq =>
              cases h
          · next reply heq =>
              split at heq
              · obtain rfl := Except.ok.inj heq
                rw [ih h, Mempool.read_storeTxs]
                rfl
              · cases heq

/-- The loop comes to its end: every request takes a hash off. -/
theorem exists_retrieveTxs (peer : MempoolPeer) (hfuel : hashes.length < fuel) (mp : Mempool) :
    ∃ outcome, retrieveTxs peer fuel hashes mp = some outcome := by
  induction fuel generalizing hashes mp with
  | zero => omega
  | succ fuel ih =>
      rw [retrieveTxs]
      split
      · exact ⟨_, rfl⟩
      · next hne =>
          split
          · exact ⟨_, rfl⟩
          · refine ih ?_ _
            have hpos : 0 < hashes.length := List.length_pos_iff.mpr hne
            have hmax : maxTransactionCountForRetrieving = 50000 := rfl
            rw [List.length_drop]
            omega

end Retrieve

/-! ### Pools whose entries have the hashes they are filed under -/

section Filed

variable {remote mp : Mempool} {fuel : Nat} {hashes : List Bytes} {hash : Bytes}

theorem mem_of_mem_txRequests {batch : List Bytes} (hbatch : batch ∈ txRequests fuel hashes)
    (hmem : hash ∈ batch) : hash ∈ hashes := by
  induction fuel generalizing hashes with
  | zero => cases hbatch
  | succ fuel ih =>
      rw [txRequests] at hbatch
      split at hbatch
      · cases hbatch
      · rcases List.mem_cons.mp hbatch with rfl | hlater
        · exact List.mem_of_mem_take hmem
        · exact List.mem_of_mem_drop (ih hlater)

/-- A reply has a transaction with a hash iff it was asked for it. -/
theorem mem_reply_iff (hfiled : remote.Filed) (batch : List Bytes) :
    (∃ tx ∈ batch.filterMap fun v => remote.read (txKey v), txKey hash = txKey tx.hash) ↔
      hash ∈ batch ∧ remote.read (txKey hash) ≠ none := by
  constructor
  · rintro ⟨tx, htx, hkey⟩
    obtain ⟨v, hv, hread⟩ := List.mem_filterMap.mp htx
    obtain rfl : v = hash := txKey_injective ((hfiled _ tx hread).trans hkey.symm)
    exact ⟨hv, by simp [hread]⟩
  · rintro ⟨hmem, hne⟩
    obtain ⟨tx, hread⟩ := Option.ne_none_iff_exists'.mp hne
    exact ⟨tx, List.mem_filterMap.mpr ⟨hash, hmem, hread⟩, hfiled _ tx hread⟩

/-- What is not asked for is not touched. -/
theorem shown_of_not_mem (hfiled : remote.Filed) (hnot : hash ∉ hashes)
    (before : Option Transaction) :
    shown (txKey hash) before (txReplies remote fuel hashes) = before := by
  have hbatches : ∀ batch ∈ txRequests fuel hashes, hash ∉ batch := fun batch hbatch hmem =>
    hnot (mem_of_mem_txRequests hbatch hmem)
  rw [txReplies]
  generalize txRequests fuel hashes = batches at hbatches
  induction batches with
  | nil => rfl
  | cons batch batches ih =>
      obtain ⟨hbatch, hrest⟩ := List.forall_mem_cons.mp hbatches
      rw [List.map_cons, shown, List.foldl_cons, if_neg]
      · exact ih hrest
      · rw [mem_reply_iff hfiled]
        exact fun hin => hbatch hin.1

/-- The transactions asked for first all show the last of them. -/
theorem shown_of_first (hfiled : remote.Filed) (hnodup : hashes.Nodup)
    (hfirst : hash ∈ hashes.take maxTransactionCountForRetrieving)
    (hread : remote.read (txKey hash) ≠ none) (before : Option Transaction) :
    shown (txKey hash) before (txReplies remote (fuel + 1) hashes)
      = ((hashes.take maxTransactionCountForRetrieving).filterMap
          fun v => remote.read (txKey v)).getLast? := by
  have hne : hashes ≠ [] := List.ne_nil_of_mem (List.mem_of_mem_take hfirst)
  have hlater : hash ∉ hashes.drop maxTransactionCountForRetrieving := fun hin =>
    List.disjoint_take_drop hnodup (Nat.le_refl _) hfirst hin
  rw [txReplies, txRequests, if_neg hne, List.map_cons, shown, List.foldl_cons,
    if_pos ((mem_reply_iff hfiled _).mpr ⟨hfirst, hread⟩)]
  exact shown_of_not_mem hfiled hlater _

theorem read_of_mem_getAllTransactions (hfiled : remote.Filed) {keys : List Str}
    (hkeys : keys.Perm remote.keys) {t : Transaction} (ht : t ∈ remote.getAllTransactions keys) :
    remote.read (txKey t.hash) = some t := by
  obtain ⟨key, hread⟩ := (Mempool.mem_getAllTransactions hkeys).mp ht
  rw [← hfiled key t hread]
  exact hread

/-- The hashes of the inventory, as keys, are those keys that have an entry. -/
theorem map_txKey_mempool (hfiled : remote.Filed) (keys : List Str) :
    (NetworkService.mempool remote keys).map txKey
      = keys.filter fun key => (remote.read key).isSome := by
  induction keys with
  | nil => rfl
  | cons key keys ih =>
      rw [NetworkService.mempool, Mempool.getAllTransactions] at ih ⊢
      cases hread : remote.read key with
      | none => rw [List.filterMap_cons_none hread, List.filter_cons_of_neg (by simp [hread]), ih]
      | some tx =>
          rw [List.filterMap_cons_some hread, List.filter_cons_of_pos (by simp [hread]),
            List.map_cons, List.map_cons, ih, ← hfiled key tx hread]

theorem nodup_missing (hfiled : remote.Filed) {keys : List Str} (hkeys : keys.Perm remote.keys)
    (mp : Mempool) : (missing mp (NetworkService.mempool remote keys)).Nodup := by
  have hnodup : ((NetworkService.mempool remote keys).map txKey).Nodup := by
    rw [map_txKey_mempool hfiled]
    exact (hkeys.nodup_iff.mpr remote.cache.keys_nodup).filter _
  exact hnodup.of_map.filter _

/-- Two hashes of the first request show the same transaction, so if each shows one with
    that hash, there is at most one. -/
theorem length_le_one_of_shown (hfiled : remote.Filed) (hnodup : hashes.Nodup)
    (hpresent : ∀ hash ∈ hashes, remote.read (txKey hash) ≠ none)
    (hshown : ∀ hash ∈ hashes, ∃ tx, shown (txKey hash) (mp.read (txKey hash))
      (txReplies remote (fuel + 1) hashes) = some tx ∧ tx.hash = hash) :
    hashes.length ≤ 1 := by
  match hshape : hashes with
  | [] => exact Nat.zero_le _
  | [_] => exact Nat.le_refl _
  | h₁ :: h₂ :: rest =>
      have hfirst : h₁ ∈ (h₁ :: h₂ :: rest).take maxTransactionCountForRetrieving ∧
          h₂ ∈ (h₁ :: h₂ :: rest).take maxTransactionCountForRetrieving := by
        simp [maxTransactionCountForRetrieving]
      have hmem₂ : h₂ ∈ h₁ :: h₂ :: rest := by simp
      obtain ⟨tx₁, hshown₁, hhash₁⟩ := hshown h₁ (List.mem_cons_self ..)
      obtain ⟨tx₂, hshown₂, hhash₂⟩ := hshown h₂ hmem₂
      rw [shown_of_first hfiled hnodup hfirst.1 (hpresent h₁ (List.mem_cons_self ..))] at hshown₁
      rw [shown_of_first hfiled hnodup hfirst.2 (hpresent h₂ hmem₂)] at hshown₂
      have hsame : tx₁ = tx₂ := Option.some.inj (hshown₁.symm.trans hshown₂)
      have heq : h₁ = h₂ := by rw [← hhash₁, ← hhash₂, hsame]
      exact absurd hnodup (by simp [heq])

theorem shown_singleton (hfiled : remote.Filed) {t : Transaction}
    (hread : remote.read (txKey hash) = some t) (before : Option Transaction) :
    shown (txKey hash) before (txReplies remote (fuel + 1) [hash]) = some t := by
  have htake : [hash].take maxTransactionCountForRetrieving = [hash] := rfl
  rw [shown_of_first hfiled (List.nodup_singleton _) (by simp [htake]) (by simp [hread]), htake]
  simp [hread]

end Filed

/-- The announced transactions the node lacks. -/
def asked (mp remote : Mempool) (keys : List Str) : List Bytes :=
  missing mp (NetworkService.mempool remote keys)

/-- What the peer sends for them. -/
def askedReplies (mp remote : Mempool) (keys : List Str) : List (List Transaction) :=
  txReplies remote ((asked mp remote keys).length + 1) (asked mp remote keys)

section Asked

variable {mp remote after : Mempool} {keys : List Str}

theorem exists_announced {hash : Bytes} (hmem : hash ∈ asked mp remote keys) :
    ∃ t ∈ remote.getAllTransactions keys, t.hash = hash :=
  List.mem_map.mp (List.mem_filter.mp hmem).1

/-- The node has what the entry shows in the end. -/
theorem has_iff_shown
    (hsync : doInitialMempoolSync (some (NetworkService.serveMempool remote keys)) mp
      = some (.ok (), after)) (t : Transaction) :
    after.Has t ↔ ∃ tx, shown (txKey t.hash) (mp.read (txKey t.hash))
      (askedReplies mp remote keys) = some tx ∧ tx.hash = t.hash ∧ tx.data = t.data := by
  have hread : after.read (txKey t.hash) = shown (txKey t.hash) (mp.read (txKey t.hash))
      (askedReplies mp remote keys) := read_retrieveTxs hsync (txKey t.hash)
  simp only [Mempool.Has, Mempool.getTransaction_eq_ok, hread]

theorem has_iff_of_not_asked (hfiled : remote.Filed)
    (hsync : doInitialMempoolSync (some (NetworkService.serveMempool remote keys)) mp
      = some (.ok (), after)) {t : Transaction} (hnot : t.hash ∉ asked mp remote keys) :
    after.Has t ↔ mp.Has t := by
  rw [has_iff_shown hsync, askedReplies, shown_of_not_mem hfiled hnot]
  simp only [Mempool.Has, Mempool.getTransaction_eq_ok]

theorem length_asked_le_one (hfiled : remote.Filed) (hkeys : keys.Perm remote.keys)
    (hsync : doInitialMempoolSync (some (NetworkService.serveMempool remote keys)) mp
      = some (.ok (), after)) (hall : ∀ t ∈ remote.getAllTransactions keys, after.Has t) :
    (asked mp remote keys).length ≤ 1 := by
  have hpresent : ∀ hash ∈ asked mp remote keys, remote.read (txKey hash) ≠ none := by
    intro hash hmem
    obtain ⟨t, ht, rfl⟩ := exists_announced hmem
    simp [read_of_mem_getAllTransactions hfiled hkeys ht]
  have hshown : ∀ hash ∈ asked mp remote keys, ∃ tx, shown (txKey hash) (mp.read (txKey hash))
      (askedReplies mp remote keys) = some tx ∧ tx.hash = hash := by
    intro hash hmem
    obtain ⟨t, ht, rfl⟩ := exists_announced hmem
    obtain ⟨tx, hshown, hhash, -⟩ := (has_iff_shown hsync t).mp (hall t ht)
    exact ⟨tx, hshown, hhash⟩
  exact length_le_one_of_shown hfiled (nodup_missing hfiled hkeys mp) hpresent hshown

/-- A transaction that is asked for alone arrives. -/
theorem has_of_asked_alone (hfiled : remote.Filed) (hkeys : keys.Perm remote.keys)
    (hsync : doInitialMempoolSync (some (NetworkService.serveMempool remote keys)) mp
      = some (.ok (), after)) (hfew : (asked mp remote keys).length ≤ 1) {t : Transaction}
    (ht : t ∈ remote.getAllTransactions keys) (hmem : t.hash ∈ asked mp remote keys) :
    after.Has t := by
  have hsingle : asked mp remote keys = [t.hash] := by
    obtain ⟨hash, hasked⟩ := List.length_eq_one_iff.mp
      (Nat.le_antisymm hfew (List.length_pos_of_mem hmem))
    rw [hasked, List.mem_singleton] at hmem
    rw [hasked, hmem]
  refine (has_iff_shown hsync t).mpr ⟨t, ?_, rfl, rfl⟩
  rw [askedReplies, hsingle]
  exact shown_singleton hfiled (read_of_mem_getAllTransactions hfiled hkeys ht) _

end Asked

/-- When no request fails and the peer's mempool stays as it is, the node has every
    transaction the peer announced iff each of them is what its entry shows in the end:
    the last transaction of the last reply that has its hash, or the entry the node had
    if no reply has it.  For a peer whose entries are filed under their hashes: iff the
    node lacks at most one of the announced transactions and has the others right. -/
theorem mempoolSync_losesNothing_iff {mp remote after : Mempool} {keys : List Str}
    (hkeys : keys.Perm remote.keys)
    (hsync : doInitialMempoolSync (some (NetworkService.serveMempool remote keys)) mp
      = some (.ok (), after)) :
    ((∀ t ∈ remote.getAllTransactions keys, after.Has t) ↔
      ∀ t ∈ remote.getAllTransactions keys, ∃ tx,
        shown (txKey t.hash) (mp.read (txKey t.hash)) (askedReplies mp remote keys) = some tx ∧
          tx.hash = t.hash ∧ tx.data = t.data) ∧
    (remote.Filed →
      ((∀ t ∈ remote.getAllTransactions keys, after.Has t) ↔
        (asked mp remote keys).length ≤ 1 ∧
          ∀ t ∈ remote.getAllTransactions keys, t.hash ∉ asked mp remote keys → mp.Has t)) := by
  refine ⟨forall₂_congr fun t _ => has_iff_shown hsync t, ?_⟩
  intro hfiled
  constructor
  · intro hall
    refine ⟨length_asked_le_one hfiled hkeys hsync hall, ?_⟩
    intro t ht hnot
    exact (has_iff_of_not_asked hfiled hsync hnot).mp (hall t ht)
  · rintro ⟨hfew, hothers⟩ t ht
    by_cases hmem : t.hash ∈ asked mp remote keys
    · exact has_of_asked_alone hfiled hkeys hsync hfew ht hmem
    · exact (has_iff_of_not_asked hfiled hsync hmem).mpr (hothers t ht hmem)

/-- A peer with two transactions. -/
def twoTxPool : Mempool := NetworkService.oneTxPool.submit ⟨[2], ⟨none, 0⟩, 0, [8]⟩

/-- A peer with two transactions, one of which the node has. -/
theorem mempoolSync_losesNothing_oneLacking :
    ∃ after, doInitialMempoolSync (some (NetworkService.serveMempool twoTxPool twoTxPool.keys))
        NetworkService.oneTxPool = some (.ok (), after) ∧
      (twoTxPool.getAllTransactions twoTxPool.keys).length = 2 ∧
      ∀ t ∈ twoTxPool.getAllTransactions twoTxPool.keys, after.Has t := by
  obtain ⟨after, hsync⟩ : ∃ after, doInitialMempoolSync
      (some (NetworkService.serveMempool twoTxPool twoTxPool.keys))
        NetworkService.oneTxPool = some (.ok (), after) := ⟨_, rfl⟩
  have hfiled : twoTxPool.Filed := (Mempool.Filed.new.submit _).submit _
  have hknown : ∀ t ∈ twoTxPool.getAllTransactions twoTxPool.keys,
      t.hash ∉ asked NetworkService.oneTxPool twoTxPool twoTxPool.keys →
        NetworkService.oneTxPool.getTransaction t.hash = .ok t := by
    decide +kernel
  refine ⟨after, hsync, rfl,
    ((mempoolSync_losesNothing_iff (List.Perm.refl _) hsync).2 hfiled).mpr ⟨?_, ?_⟩⟩
  · decide +kernel
  · intro t ht hnot
    exact ⟨t, hknown t ht hnot, rfl, rfl⟩

/-- A node without transactions that syncs with this peer finds one of the two under
    both hashes. -/
theorem mempoolSync_twoTxs_shows_one :
    ((doInitialMempoolSync (some (NetworkService.serveMempool twoTxPool twoTxPool.keys))
      Mempool.new).map fun outcome => (outcome.1,
        [[1], [2]].map fun hash => (outcome.2.getTransaction hash).map Transaction.hash))
      = some (.ok (), [.ok [1], .ok [1]]) := by
  decide +kernel

/-! ### The sync as a run -/

section Run

variable (o : Oracles) (rpc : RpcServices)

/-- The iterations over a reply, after the first. -/
theorem exec_nextTx_loop (txsToRetrieve : List Bytes) (txs : List Transaction) (mp : Mempool)
    (v : Nat) :
    Run.exec (TxPool.step o rpc) ⟨mp, .retrieving txsToRetrieve txs (some v)⟩
        (List.replicate txs.length .nextTx)
      = ⟨txs.foldl (fun mp' tx => (mp'.assign v tx).storeTx v) mp,
        .retrieving txsToRetrieve [] (some v)⟩ := by
  induction txs generalizing mp with
  | nil => rfl
  | cons tx txs ih =>
      rw [List.length_cons, List.replicate_succ, Run.exec_cons, List.foldl_cons]
      exact ih _

theorem exec_nextTx (txsToRetrieve : List Bytes) (txs : List Transaction) (mp : Mempool) :
    ∃ loopVar, Run.exec (TxPool.step o rpc) ⟨mp, .retrieving txsToRetrieve txs none⟩
        (List.replicate txs.length .nextTx)
      = ⟨mp.storeTxs txs, .retrieving txsToRetrieve [] loopVar⟩ := by
  cases txs with
  | nil => exact ⟨none, rfl⟩
  | cons tx txs =>
      refine ⟨some mp.heap.length, ?_⟩
      rw [List.length_cons, List.replicate_succ, Run.exec_cons]
      exact exec_nextTx_loop o rpc txsToRetrieve txs (mp.submit tx) mp.heap.length

/-- The request loop, from any point between two replies. -/
theorem exists_run_retrieveTxs {peer : MempoolPeer} {fuel : Nat} {hashes : List Bytes}
    {mp after : Mempool} {outcome : Except Err Unit}
    (h : retrieveTxs peer fuel hashes mp = some (outcome, after)) (loopVar : Option Nat) :
    ∃ events, Run.exec (TxPool.step o rpc) ⟨mp, .retrieving hashes [] loopVar⟩ events
      = ⟨after, .finished⟩ := by
  induction fuel generalizing hashes mp loopVar with
  | zero => cases h
  | succ fuel ih =>
      rw [retrieveTxs] at h
      split at h
      · next hempty =>
          obtain rfl : mp = after := congrArg Prod.snd (Option.some.inj h)
          subst hempty
          exact ⟨[.nextTx], rfl⟩
      · next hne =>
          split at h
          · next e _ =>
              obtain rfl : mp = after := congrArg Prod.snd (Option.some.inj h)
              refine ⟨[.getMempoolTxs (.error e)], ?_⟩
              rw [Run.exec_cons, Run.exec_nil, TxPool.step, TxPool.onGetMempoolTxs]
              simp [hne]
          · next reply _ =>
              obtain ⟨loopVar', hloop⟩ := exec_nextTx o rpc
                (hashes.drop maxTransactionCountForRetrieving) reply.transactions mp
              obtain ⟨events, hrest⟩ := ih h loopVar'
              refine ⟨.getMempoolTxs (.ok reply.transactions) ::
                (List.replicate reply.transactions.length .nextTx ++ events), ?_⟩
              have hreply : TxPool.step o rpc ⟨mp, .retrieving hashes [] loopVar⟩
                  (.getMempoolTxs (.ok reply.transactions))
                    = ⟨mp, .retrieving (hashes.drop maxTransactionCountForRetrieving)
                      reply.transactions none⟩ := by
                rw [TxPool.step, TxPool.onGetMempoolTxs]
                simp [hne]
              rw [Run.exec_cons, hreply, Run.exec_append, hloop, hrest]

/-- A sync is a run of the machine of the mempool, in which nothing comes between. -/
theorem exists_run_doInitialMempoolSync {peer : MempoolPeer} {mp after : Mempool}
    {outcome : Except Err Unit} (h : doInitialMempoolSync (some peer) mp = some (outcome, after)) :
    ∃ events, Run.exec (TxPool.step o rpc) ⟨mp, .waiting⟩ events = ⟨after, .finished⟩ := by
  rw [doInitialMempoolSync] at h
  split at h
  · next e _ =>
      obtain rfl : mp = after := congrArg Prod.snd (Option.some.inj h)
      exact ⟨[.inventory (.error e)], rfl⟩
  · next inventory _ =>
      obtain ⟨events, hrun⟩ := exists_run_retrieveTxs o rpc h none
      exact ⟨.inventory (.ok inventory) :: events, hrun⟩

end Run

end Sync

end Dione
