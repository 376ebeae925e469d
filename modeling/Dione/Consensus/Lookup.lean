/-
  Dione.Consensus.Lookup

  What `findTaskAndBlockWithRequestID` finds.  Its loop has no bound of its own: it
  walks down from the latest height, through 0 to `2 ^ 64 - 1`, and ends where it finds
  the task or where the store has no block.

  On a chain without gaps it ends at the highest block with the task, or else with
  `ErrBlockNotFound` at the wrapped height.  Undecodable transactions are skipped; a nil
  one is read through, and the scan panics if it comes to it.
-/

import Dione.Consensus.Disputes

namespace Dione.Consensus

open Text BlockChain

/-! ## The scan of a block -/

section Scan

variable (o : Oracles) (requestID : Str)

/-- The task in a transaction, if it decodes to one with the request id. -/
def matchingTask : Option Transaction → Option DioneTask
  | none => none
  | some tx =>
    match o.unmarshalTask tx.data with
    | .error _ => none
    | .ok task => if task.requestID = requestID then some task else none

/-- The first task with the request id. -/
def firstTask (data : List (Option Transaction)) : Option DioneTask :=
  data.findSome? (matchingTask o requestID)

/-- A nil transaction stands before the first task with the request id, or anywhere if
    there is no such task. -/
def ReachesNil (data : List (Option Transaction)) : Prop :=
  none ∈ data.takeWhile fun v => (matchingTask o requestID v).isNone

instance (data : List (Option Transaction)) : Decidable (ReachesNil o requestID data) :=
  inferInstanceAs (Decidable (_ ∈ _))

/-- One step of the scan: a transaction that is not nil either has the task or is
    skipped. -/
theorem findTask_cons (tx : Transaction) (vs : List (Option Transaction)) :
    findTask o requestID (some tx :: vs)
      = match matchingTask o requestID (some tx) with
        | some task => .ok (some task)
        | none => findTask o requestID vs := by
  simp only [findTask, matchingTask, deref_some, bind, Except.bind]
  cases o.unmarshalTask tx.data with
  | error e => rfl
  | ok task =>
      by_cases hid : task.requestID = requestID
      · simp only [if_pos hid]
        rfl
      · simp only [if_neg hid]

/-- The scan panics at a nil transaction that it reaches, and otherwise returns the first
    task with the request id. -/
theorem findTask_eq (data : List (Option Transaction)) :
    findTask o requestID data
      = if ReachesNil o requestID data then .error .nilDeref
        else .ok (firstTask o requestID data) := by
  induction data with
  | nil => rfl
  | cons v vs ih =>
      cases v with
      | none =>
          have hnil : ReachesNil o requestID (none :: vs) := by
            simp [ReachesNil, matchingTask]
          rw [if_pos hnil]
          rfl
      | some tx =>
          rw [findTask_cons]
          cases hm : matchingTask o requestID (some tx) with
          | some task =>
              have hnil : ¬ ReachesNil o requestID (some tx :: vs) := by
                simp [ReachesNil, hm]
              rw [if_neg hnil, firstTask, List.findSome?_cons, hm]
          | none =>
              have hnil : ReachesNil o requestID (some tx :: vs) ↔ ReachesNil o requestID vs := by
                simp [ReachesNil, hm]
              rw [ih, firstTask, firstTask, List.findSome?_cons, hm]
              simp only [hnil]

variable {o requestID}

/-- The loop goes on below a block exactly if its scan comes to the end. -/
theorem findTask_eq_none {data : List (Option Transaction)} :
    findTask o requestID data = .ok none
      ↔ ¬ ReachesNil o requestID data ∧ firstTask o requestID data = none := by
  rw [findTask_eq]
  by_cases hnil : ReachesNil o requestID data
  · simp [hnil]
  · simp [hnil]

end Scan

/-! ## The way down -/

section Descent

variable {σ : Type} {db : Database σ} {o : Oracles} {requestID : Str}

/-- The loop walks down from `h` to `k` over blocks without the task. -/
theorem findLoop_descend {s : σ} {k h : UInt64} (hkh : k ≤ h)
    (habove : ∀ h', k < h' → h' ≤ h → ∃ block, db.fetchBlockByHeight h' s = .ok block
      ∧ findTask o requestID block.data = .ok none) (fuel : Nat) :
    findLoop db o requestID s (h.toNat - k.toNat + fuel) h
      = findLoop db o requestID s fuel k := by
  -- induction on the number of blocks between the two
  generalize hn : h.toNat - k.toNat = n
  induction n generalizing h with
  | zero =>
      have heq : h = k := UInt64.toNat_inj.1 (by rw [UInt64.le_iff_toNat_le] at hkh; omega)
      rw [heq, Nat.zero_add]
  | succ n ih =>
      have hlt : k < h := UInt64.lt_iff_toNat_lt.2 (by omega)
      have hpred : (h - 1).toNat = h.toNat - 1 :=
        UInt64.toNat_sub_of_le h 1 (UInt64.le_iff_toNat_le.2 (show 1 ≤ h.toNat by omega))
      have hnext : k ≤ h - 1 := UInt64.le_iff_toNat_le.2 (by omega)
      have hbelow : ∀ h', k < h' → h' ≤ h - 1 → ∃ block, db.fetchBlockByHeight h' s = .ok block
          ∧ findTask o requestID block.data = .ok none := by
        intro h' hk' hle
        rw [UInt64.le_iff_toNat_le] at hle
        exact habove h' hk' (UInt64.le_iff_toNat_le.2 (by omega))
      obtain ⟨block, hfetch, hscan⟩ := habove h hlt (UInt64.le_iff_toNat_le.2 (Nat.le_refl _))
      rw [Nat.succ_add, findLoop]
      simp only [hfetch, hscan]
      exact ih hnext hbelow (by omega)

/-- Of the heights up to `l` with a property there is a highest one. -/
theorem exists_highest {p : UInt64 → Prop} {l : UInt64} (k : UInt64) (hk : k ≤ l) (hp : p k) :
    ∃ k, k ≤ l ∧ p k ∧ ∀ h, k < h → h ≤ l → ¬ p h := by
  by_cases hmore : ∃ h, k < h ∧ h ≤ l ∧ p h
  · obtain ⟨h, hlt, hle, hph⟩ := hmore
    exact exists_highest h hle hph
  · refine ⟨k, hk, hp, ?_⟩
    intro h hlt hle hph
    exact hmore ⟨h, hlt, hle, hph⟩
termination_by l.toNat - k.toNat
decreasing_by
  rw [UInt64.lt_iff_toNat_lt] at hlt
  rw [UInt64.le_iff_toNat_le] at hle
  omega

end Descent

/-! ## The lookup on a chain without gaps -/

/-- A chain up to `l` without gaps, and without a block at the height that 0 wraps
    around to. -/
structure Gapless (st : Store) (l : UInt64) : Prop where
  latest : st.latest = some l
  present : ∀ h ≤ l, ∃ block, st.byHeight h = some block
  wrapped : st.byHeight (UInt64.ofNat (2 ^ 64 - 1)) = none

/-- The latest height is not the last one there is. -/
theorem Gapless.lt_last {st : Store} {l : UInt64} (h : Gapless st l) : l.toNat < 2 ^ 64 - 1 := by
  by_contra hge
  have hlt := l.toNat_lt
  have hl : l = UInt64.ofNat (2 ^ 64 - 1) := by
    rw [← UInt64.toNat_inj, UInt64.toNat_ofNat_of_lt' (by decide)]
    omega
  obtain ⟨block, hblock⟩ := h.present l (UInt64.le_iff_toNat_le.2 (Nat.le_refl _))
  rw [hl, h.wrapped] at hblock
  cases hblock

section Lookup

variable (o : Oracles) (requestID : Str) (st : Store) (l : UInt64)

/-- No block between `h` and the latest one has a task with the request id. -/
def NoTaskAbove (h : UInt64) : Prop :=
  ∀ h' block, h < h' → h' ≤ l → st.byHeight h' = some block →
    firstTask o requestID block.data = none

/-- The lookup ends, with the first task of the highest block that has one, and that
    block, or with `ErrBlockNotFound` if no block has one. -/
structure LooksUp (result : Option (Except Err (DioneTask × Block))) : Prop where
  ends : result ≠ none
  found : ∀ h block task, h ≤ l → st.byHeight h = some block → NoTaskAbove o requestID st l h →
    firstTask o requestID block.data = some task → result = some (.ok (task, block))
  missing : (∀ h block, h ≤ l → st.byHeight h = some block →
    firstTask o requestID block.data = none) → result = some (.error .blockNotFound)

/-- No block that the lookup comes to has a nil transaction that its scan comes to. -/
def NilNotReached : Prop :=
  ∀ h block, h ≤ l → st.byHeight h = some block → NoTaskAbove o requestID st l h →
    ¬ ReachesNil o requestID block.data

variable {o requestID st l}

/-- Either a highest block has the task or no block has it, so the lookup does not end
    in a panic. -/
theorem LooksUp.ne_nilDeref {result : Option (Except Err (DioneTask × Block))}
    (h : LooksUp o requestID st l result) : result ≠ some (.error .nilDeref) := by
  by_cases hmatch : ∃ h ≤ l, ∃ block, st.byHeight h = some block
      ∧ firstTask o requestID block.data ≠ none
  · obtain ⟨k, hk, hp⟩ := hmatch
    obtain ⟨k, hk, ⟨block, hblock, hsome⟩, hhighest⟩ := exists_highest (p := fun h =>
      ∃ block, st.byHeight h = some block ∧ firstTask o requestID block.data ≠ none) k hk hp
    obtain ⟨task, htask⟩ := Option.ne_none_iff_exists'.1 hsome
    have hnone : NoTaskAbove o requestID st l k := by
      intro h' block' hlt hle hblock'
      by_contra hne
      exact hhighest h' hlt hle ⟨block', hblock', hne⟩
    rw [h.found k block task hk hblock hnone htask]
    simp
  · have hnone : ∀ h block, h ≤ l → st.byHeight h = some block →
        firstTask o requestID block.data = none := by
      intro h block hle hblock
      by_contra hne
      exact hmatch ⟨h, hle, block, hblock, hne⟩
    rw [h.missing hnone]
    simp

/-- The first task of the highest block that has one is what the lookup should
    return. -/
theorem looksUp_found {k : UInt64} {block : Block} {task : DioneTask} (hk : k ≤ l)
    (hblock : st.byHeight k = some block) (htask : firstTask o requestID block.data = some task)
    (hnone : NoTaskAbove o requestID st l k) :
    LooksUp o requestID st l (some (.ok (task, block))) where
  ends := Option.some_ne_none _
  found h block' task' hle hblock' habove htask' := by
    -- two blocks with nothing above them are the same
    have hh : ¬ h < k := fun hlt => by
      rw [habove k block hlt hk hblock] at htask
      cases htask
    have hk' : ¬ k < h := fun hlt => by
      rw [hnone h block' hlt hle hblock'] at htask'
      cases htask'
    have heq : h = k := UInt64.toNat_inj.1 (by
      rw [UInt64.lt_iff_toNat_lt] at hh hk'
      omega)
    rw [heq, hblock] at hblock'
    cases hblock'
    rw [htask] at htask'
    cases htask'
    rfl
  missing hall := by
    rw [hall k block hk hblock] at htask
    cases htask

end Lookup

section Search

variable {B : Backend} {s : B.σ} {o : Oracles} {requestID : Str} {l : UInt64}

theorem fetch_of_byHeight (hs : B.Wf s) {h : UInt64} {block : Block}
    (hblock : (B.view s).byHeight h = some block) : B.db.fetchBlockByHeight h s = .ok block := by
  rw [B.fetchBlockByHeight_eq h hs, hblock]
  rfl

/-- The search starts at the latest height. -/
theorem findTaskAndBlockWithRequestID_eq (hs : B.Wf s) (hl : Gapless (B.view s) l) :
    findTaskAndBlockWithRequestID B.db o requestID s
      = findLoop B.db o requestID s (2 ^ 64) l := by
  have hlatest : B.db.getLatestBlockHeight s = .ok l := by
    rw [B.getLatestBlockHeight_eq hs, hl.latest]
    rfl
  simp only [findTaskAndBlockWithRequestID, hlatest]

/-- The search comes to height `k` if all scans above come to their end. -/
theorem find_eq_findLoop (hs : B.Wf s) (hl : Gapless (B.view s) l) {k : UInt64} (hk : k ≤ l)
    (habove : ∀ h block, k < h → h ≤ l → (B.view s).byHeight h = some block →
      findTask o requestID block.data = .ok none) :
    ∃ fuel, findTaskAndBlockWithRequestID B.db o requestID s
      = findLoop B.db o requestID s (fuel + 2) k := by
  have hlt := hl.lt_last
  obtain ⟨fuel, hsplit⟩ : ∃ fuel, 2 ^ 64 = l.toNat - k.toNat + (fuel + 2) :=
    ⟨2 ^ 64 - 2 - (l.toNat - k.toNat), by omega⟩
  refine ⟨fuel, ?_⟩
  rw [findTaskAndBlockWithRequestID_eq hs hl, hsplit]
  refine findLoop_descend hk ?_ _
  intro h hkh hle
  obtain ⟨block, hblock⟩ := hl.present h hle
  exact ⟨block, fetch_of_byHeight hs hblock, habove h block hkh hle hblock⟩

/-- The search ends at the highest block whose scan does not come to its end. -/
theorem find_eq_scan (hs : B.Wf s) (hl : Gapless (B.view s) l) {k : UInt64} (hk : k ≤ l)
    {block : Block} (hblock : (B.view s).byHeight k = some block)
    (habove : ∀ h block, k < h → h ≤ l → (B.view s).byHeight h = some block →
      findTask o requestID block.data = .ok none) :
    (ReachesNil o requestID block.data →
      findTaskAndBlockWithRequestID B.db o requestID s = some (.error .nilDeref))
    ∧ ∀ task, ¬ ReachesNil o requestID block.data → firstTask o requestID block.data = some task →
      findTaskAndBlockWithRequestID B.db o requestID s = some (.ok (task, block)) := by
  obtain ⟨fuel, hfind⟩ := find_eq_findLoop hs hl hk habove
  have hfetch := fetch_of_byHeight hs hblock
  rw [hfind, findLoop]
  constructor
  · intro hnil
    simp only [hfetch, findTask_eq, if_pos hnil]
  · intro task hnil htask
    simp only [hfetch, findTask_eq, if_neg hnil, htask]

/-- If all scans come to their end the search ends at the wrapped height. -/
theorem find_eq_blockNotFound (hs : B.Wf s) (hl : Gapless (B.view s) l)
    (hall : ∀ h block, h ≤ l → (B.view s).byHeight h = some block →
      findTask o requestID block.data = .ok none) :
    findTaskAndBlockWithRequestID B.db o requestID s = some (.error .blockNotFound) := by
  have hzero : (0 : UInt64) ≤ l := UInt64.le_iff_toNat_le.2 (Nat.zero_le _)
  have habove : ∀ h block, 0 < h → h ≤ l → (B.view s).byHeight h = some block →
      findTask o requestID block.data = .ok none :=
    fun h block _ hle hblock => hall h block hle hblock
  obtain ⟨fuel, hfind⟩ := find_eq_findLoop hs hl hzero habove
  obtain ⟨block, hblock⟩ := hl.present 0 hzero
  have hfetch := fetch_of_byHeight hs hblock
  have hwrap : B.db.fetchBlockByHeight (0 - 1) s = .error .blockNotFound := by
    rw [B.fetchBlockByHeight_eq _ hs]
    exact congrArg (orErr .blockNotFound) hl.wrapped
  rw [hfind, findLoop]
  simp only [hfetch, hall 0 block hzero hblock]
  rw [findLoop]
  simp only [hwrap]

/-- There is a highest block whose scan does not come to its end, or all do. -/
theorem exists_stop_or_all (st : Store) (l : UInt64) :
    (∃ k ≤ l, ∃ block, st.byHeight k = some block ∧ findTask o requestID block.data ≠ .ok none
      ∧ ∀ h block, k < h → h ≤ l → st.byHeight h = some block →
        findTask o requestID block.data = .ok none)
    ∨ ∀ h block, h ≤ l → st.byHeight h = some block →
        findTask o requestID block.data = .ok none := by
  by_cases hstop : ∃ h ≤ l, ∃ block, st.byHeight h = some block
      ∧ findTask o requestID block.data ≠ .ok none
  · obtain ⟨k, hk, hp⟩ := hstop
    obtain ⟨k, hk, ⟨block, hblock, hscan⟩, hhighest⟩ := exists_highest (p := fun h =>
      ∃ block, st.byHeight h = some block ∧ findTask o requestID block.data ≠ .ok none) k hk hp
    refine Or.inl ⟨k, hk, block, hblock, hscan, ?_⟩
    intro h block' hlt hle hblock'
    by_contra hne
    exact hhighest h hlt hle ⟨block', hblock', hne⟩
  · refine Or.inr ?_
    intro h block hle hblock
    by_contra hne
    exact hstop ⟨h, hle, block, hblock, hne⟩

/-- The lookup comes to no block below the one with the task, and those above have no nil
    transaction. -/
theorem nilNotReached_of_found {st : Store} {k : UInt64} {block : Block} {task : DioneTask}
    (hk : k ≤ l) (hblock : st.byHeight k = some block)
    (htask : firstTask o requestID block.data = some task)
    (hnil : ¬ ReachesNil o requestID block.data)
    (habove : ∀ h block, k < h → h ≤ l → st.byHeight h = some block →
      findTask o requestID block.data = .ok none) :
    NilNotReached o requestID st l := by
  intro h block' hle hblock' habove'
  rcases Nat.lt_trichotomy h.toNat k.toNat with hlt | heq | hgt
  · rw [habove' k block (UInt64.lt_iff_toNat_lt.2 hlt) hk hblock] at htask
    cases htask
  · rw [UInt64.toNat_inj.1 heq, hblock] at hblock'
    cases hblock'
    exact hnil
  · exact (findTask_eq_none.1 (habove h block' (UInt64.lt_iff_toNat_lt.2 hgt) hle hblock')).1

/-- On a chain without gaps the lookup ends with what it should return exactly if no
    nil transaction is in its way. -/
theorem lookup_complete_iff (hs : B.Wf s) (hl : Gapless (B.view s) l) :
    LooksUp o requestID (B.view s) l (findTaskAndBlockWithRequestID B.db o requestID s)
      ↔ NilNotReached o requestID (B.view s) l := by
  rcases exists_stop_or_all (o := o) (B.view s) l with
    ⟨k, hk, block, hblock, hscan, habove⟩ | hall
  · have hnone : NoTaskAbove o requestID (B.view s) l k := by
      intro h block' hlt hle hblock'
      exact (findTask_eq_none.1 (habove h block' hlt hle hblock')).2
    obtain ⟨hpanic, hfound⟩ := find_eq_scan hs hl hk hblock habove
    by_cases hnil : ReachesNil o requestID block.data
    · refine iff_of_false (fun hlook => hlook.ne_nilDeref (hpanic hnil)) ?_
      intro hcond
      exact hcond k block hk hblock hnone hnil
    · have hsome : firstTask o requestID block.data ≠ none := fun h =>
        hscan (findTask_eq_none.2 ⟨hnil, h⟩)
      obtain ⟨task, htask⟩ := Option.ne_none_iff_exists'.1 hsome
      rw [hfound task hnil htask]
      exact iff_of_true (looksUp_found hk hblock htask hnone)
        (nilNotReached_of_found hk hblock htask hnil habove)
  · rw [find_eq_blockNotFound hs hl hall]
    refine iff_of_true ⟨Option.some_ne_none _, ?_, fun _ => rfl⟩ ?_
    · intro h block task hle hblock _ htask
      rw [(findTask_eq_none.1 (hall h block hle hblock)).2] at htask
      cases htask
    · intro h block hle hblock _
      exact (findTask_eq_none.1 (hall h block hle hblock)).1

end Search

/-! ### Two chains -/

/-- The chain with one block on the genesis block is well formed. -/
theorem wf_stored {o : Oracles} {block : Block} {header : BlockHeader}
    (h : recorded Memory.database o block (genesisChain Memory.backend) = some header) :
    Memory.Wf (storeBlock Memory.database o block (genesisChain Memory.backend)).state :=
  (storeStep_of_recorded Memory.backend (genesisChain_spec Memory.backend).1
    (c := (o, block)) h).1

/-- The lookup finds the task of request 1 in the block that has it. -/
theorem lookup_complete_taskChain :
    Memory.Wf taskChain ∧ Gapless (Memory.view taskChain) 1
      ∧ LooksUp taskOracles (decimal 1) (Memory.view taskChain) 1
          (findTaskAndBlockWithRequestID Memory.database taskOracles (decimal 1) taskChain) := by
  have hrec : recorded Memory.database taskOracles taskBlock (genesisChain Memory.backend)
      = some (childHeader [1] 1) := by decide +kernel
  have hwf : Memory.Wf taskChain := wf_stored hrec
  have hgenesis : (Memory.view taskChain).byHeight 0 = some genesisBlock := by decide +kernel
  have htask : (Memory.view taskChain).byHeight 1 = some taskBlock := by decide +kernel
  have hheights : ∀ h : UInt64, h ≤ 1 → h = 0 ∨ h = 1 := by
    intro h hle
    rw [UInt64.le_iff_toNat_le] at hle
    rw [← UInt64.toNat_inj, ← UInt64.toNat_inj]
    exact Nat.le_one_iff_eq_zero_or_eq_one.1 hle
  have hgapless : Gapless (Memory.view taskChain) 1 := by
    refine ⟨by decide +kernel, ?_, by decide +kernel⟩
    intro h hle
    rcases hheights h hle with rfl | rfl
    · exact ⟨genesisBlock, hgenesis⟩
    · exact ⟨taskBlock, htask⟩
  refine ⟨hwf, hgapless, (lookup_complete_iff (B := Memory.backend) hwf hgapless).2 ?_⟩
  intro h block hle hblock _
  rcases hheights h hle with rfl | rfl
  · cases hgenesis.symm.trans hblock
    decide
  · cases htask.symm.trans hblock
    decide

/-- A block of height 0 with a nil transaction, as a message can bring it. -/
def nilBlock : Block := ⟨some (childHeader [9] 0), [none]⟩

/-- The chain that has stored it.  A block of height 0 is not validated, and takes the
    place of the genesis block. -/
def nilChain : Memory.Cache :=
  (storeBlock Memory.database .permissive nilBlock (genesisChain Memory.backend)).state

/-- The lookup of any request on that chain panics. -/
theorem lookup_nilChain_panics :
    recorded Memory.database .permissive nilBlock (genesisChain Memory.backend)
        = some (childHeader [9] 0)
      ∧ Memory.Wf nilChain ∧ Gapless (Memory.view nilChain) 0
      ∧ findTaskAndBlockWithRequestID Memory.database .permissive (decimal 1) nilChain
          = some (.error .nilDeref)
      ∧ ¬ LooksUp .permissive (decimal 1) (Memory.view nilChain) 0
          (findTaskAndBlockWithRequestID Memory.database .permissive (decimal 1) nilChain) := by
  have hrec : recorded Memory.database .permissive nilBlock (genesisChain Memory.backend)
      = some (childHeader [9] 0) := by decide +kernel
  have hpanic : findTaskAndBlockWithRequestID Memory.database .permissive (decimal 1) nilChain
      = some (.error .nilDeref) := by decide +kernel
  have hblock : (Memory.view nilChain).byHeight 0 = some nilBlock := by decide +kernel
  refine ⟨hrec, wf_stored hrec, ⟨by decide +kernel, ?_, by decide +kernel⟩, hpanic,
    fun hlook => hlook.ne_nilDeref hpanic⟩
  intro h hle
  have hzero : h = 0 := UInt64.toNat_inj.1 (Nat.le_zero.1 (UInt64.le_iff_toNat_le.1 hle))
  exact ⟨nilBlock, hzero ▸ hblock⟩

end Dione.Consensus
