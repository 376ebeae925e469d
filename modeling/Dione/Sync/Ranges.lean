/-
  Dione.Sync.Ranges

  The two loops of a block sync over heights, both with `uint64` counters:

    * `GetRangeOfBlocks` of the peer walks over the heights it is asked for, with
      `i <= arg.To` as its condition, and answers each of them once.  No height is
      above the last one, so a range that ends there is walked for ever.
    * `doInitialBlockPoolSync` of the node cuts the heights it lacks into requests.
      They follow one another without gap or overlap, and none is refused.
-/

import Dione.Sync.Serving

namespace Dione

open Guard BlockChain

/-! ## Heights in order -/

/-- `n` heights from `first` on. -/
def heightsFrom (first : UInt64) : Nat → List UInt64
  | 0 => []
  | n + 1 => first :: heightsFrom (first + 1) n

theorem toNat_add_one {h : UInt64} (hlt : h.toNat + 1 < 2 ^ 64) : (h + 1).toNat = h.toNat + 1 := by
  rw [UInt64.toNat_add]
  exact Nat.mod_eq_of_lt hlt

/-- As far as the heights do not run out. -/
theorem map_toNat_heightsFrom {first : UInt64} {n : Nat} (h : first.toNat + n ≤ 2 ^ 64) :
    (heightsFrom first n).map UInt64.toNat = List.range' first.toNat n := by
  induction n generalizing first with
  | zero => rfl
  | succ n ih =>
      rw [heightsFrom, List.map_cons, List.range'_succ]
      cases n with
      | zero => rfl
      | succ n =>
          have hnext := toNat_add_one (h := first) (by omega)
          rw [ih (by omega), hnext]

theorem pairwise_heightsFrom {first : UInt64} {n : Nat} (h : first.toNat + n ≤ 2 ^ 64) :
    (heightsFrom first n).Pairwise (· < ·) := by
  have hnat : ((heightsFrom first n).map UInt64.toNat).Pairwise (· < ·) := by
    rw [map_toNat_heightsFrom h]
    exact List.pairwise_lt_range'
  exact (List.pairwise_map.mp hnat).imp fun hlt => UInt64.lt_iff_toNat_lt.mpr hlt

theorem mem_heightsFrom {first i : UInt64} {n : Nat} (h : first.toNat + n ≤ 2 ^ 64) :
    i ∈ heightsFrom first n ↔ first.toNat ≤ i.toNat ∧ i.toNat < first.toNat + n := by
  rw [← List.mem_range'_1, ← map_toNat_heightsFrom h]
  exact (List.mem_map_of_injective fun _ _ heq => UInt64.toNat_inj.mp heq).symm

/-! ## The peer -/

namespace NetworkService

variable {σ : Type} (db : Database σ) (s : σ)

/-- Each of the heights answered, by its block or as failed. -/
def answers (heights : List UInt64) : GetRangeOfBlocksReply where
  blocks := heights.filterMap fun h => (db.fetchBlockByHeight h s).toOption
  failedBlockHeights := heights.filter fun h => !(db.fetchBlockByHeight h s).toBool

/-- The argument checks of `GetRangeOfBlocks`. -/
def PassesChecks (argFrom argTo : UInt64) : Prop :=
  argFrom ≤ argTo ∧ argTo - argFrom ≤ maxBlockCountForRetrieving

instance (argFrom argTo : UInt64) : Decidable (PassesChecks argFrom argTo) :=
  inferInstanceAs (Decidable (_ ∧ _))

variable {db s}

theorem retrieve_answers (i : UInt64) (heights : List UInt64) (reply : GetRangeOfBlocksReply) :
    (⟨(retrieve db s i reply).blocks ++ (answers db s heights).blocks,
      (retrieve db s i reply).failedBlockHeights ++ (answers db s heights).failedBlockHeights⟩ :
      GetRangeOfBlocksReply)
      = ⟨reply.blocks ++ (answers db s (i :: heights)).blocks,
        reply.failedBlockHeights ++ (answers db s (i :: heights)).failedBlockHeights⟩ := by
  unfold retrieve answers
  cases hfetch : db.fetchBlockByHeight i s with
  | error e => simp [hfetch, Except.toOption, Except.toBool]
  | ok block => simp [hfetch, Except.toOption, Except.toBool]

/-- The loop over `n` heights up to `argTo` takes `n` iterations and one to stop. -/
theorem rangeLoop_eq {argTo : UInt64} (hlast : argTo ≠ lastHeight) {fuel n : Nat} {i : UInt64}
    (hn : i.toNat + n = argTo.toNat + 1) (reply : GetRangeOfBlocksReply) :
    rangeLoop db s argTo fuel i reply
      = if n < fuel then
          some ⟨reply.blocks ++ (answers db s (heightsFrom i n)).blocks,
            reply.failedBlockHeights ++ (answers db s (heightsFrom i n)).failedBlockHeights⟩
        else none := by
  have hbound : argTo.toNat < 2 ^ 64 - 1 := by
    have hne : argTo.toNat ≠ lastHeight.toNat := fun heq => hlast (UInt64.toNat_inj.mp heq)
    have hlt := argTo.toNat_lt
    have hval : lastHeight.toNat = 2 ^ 64 - 1 := rfl
    omega
  induction fuel generalizing n i reply with
  | zero => rfl
  | succ fuel ih =>
      cases n with
      | zero =>
          have hstop : ¬ i ≤ argTo := by
            rw [UInt64.le_iff_toNat_le]
            omega
          rw [rangeLoop, if_neg hstop, if_pos (Nat.succ_pos fuel)]
          simp [heightsFrom, answers]
      | succ n =>
          have hgo : i ≤ argTo := by
            rw [UInt64.le_iff_toNat_le]
            omega
          have hnext : (i + 1).toNat = i.toNat + 1 := toNat_add_one (by omega)
          rw [rangeLoop, if_pos hgo, ih (n := n) (by omega), heightsFrom, ← retrieve_answers]
          simp only [Nat.add_lt_add_iff_right]

theorem getRangeOfBlocks_of_passesChecks {argFrom argTo : UInt64}
    (h : PassesChecks argFrom argTo) : getRangeOfBlocks db s argFrom argTo
      = (rangeLoop db s argTo ((argTo - argFrom).toNat + 2) argFrom ⟨[], []⟩).map .ok := by
  rw [getRangeOfBlocks, if_neg (UInt64.not_lt.mpr h.1), if_neg (UInt64.not_lt.mpr h.2)]

/-- For arguments that pass the checks: the loop ends after as many iterations as there
    are heights in the range, and the reply answers each height of it once, in increasing
    order, iff the range does not end at the last height there is. -/
theorem getRangeOfBlocks_answers_iff (db : Database σ) (s : σ) {argFrom argTo : UInt64}
    (h : PassesChecks argFrom argTo) :
    ((∀ fuel, (rangeLoop db s argTo fuel argFrom ⟨[], []⟩).isSome ↔
          (argTo - argFrom).toNat + 1 < fuel) ∧
      ∃ heights : List UInt64, heights.Pairwise (· < ·) ∧
        (∀ i, i ∈ heights ↔ argFrom ≤ i ∧ i ≤ argTo) ∧
        getRangeOfBlocks db s argFrom argTo = some (.ok (answers db s heights))) ↔
      argTo ≠ lastHeight := by
  have hle := UInt64.le_iff_toNat_le.mp h.1
  have hcount : (argTo - argFrom).toNat = argTo.toNat - argFrom.toNat :=
    UInt64.toNat_sub_of_le _ _ h.1
  have hn : argFrom.toNat + ((argTo - argFrom).toNat + 1) = argTo.toNat + 1 := by omega
  constructor
  · rintro ⟨hends, -⟩ rfl
    have hsome := (hends ((lastHeight - argFrom).toNat + 2)).mpr (by omega)
    rw [rangeLoop_last] at hsome
    cases hsome
  · intro hlast
    have hend : argFrom.toNat + ((argTo - argFrom).toNat + 1) ≤ 2 ^ 64 := by
      have hlt := argTo.toNat_lt
      omega
    refine ⟨?_, heightsFrom argFrom ((argTo - argFrom).toNat + 1), pairwise_heightsFrom hend,
      ?_, ?_⟩
    · intro fuel
      rw [rangeLoop_eq hlast hn]
      split <;> simp_all
    · intro i
      rw [mem_heightsFrom hend, hn, Nat.lt_succ_iff, UInt64.le_iff_toNat_le,
        UInt64.le_iff_toNat_le]
    · rw [getRangeOfBlocks_of_passesChecks h, rangeLoop_eq hlast hn, if_pos (by omega)]
      simp

theorem getRangeOfBlocks_answers_genesis :
    ∃ heights : List UInt64, heights.Pairwise (· < ·) ∧
      (∀ i, i ∈ heights ↔ 0 ≤ i ∧ i ≤ 1) ∧
      getRangeOfBlocks Memory.backend.db (genesisChain Memory.backend) 0 1
        = some (.ok (answers Memory.backend.db (genesisChain Memory.backend) heights)) :=
  ((getRangeOfBlocks_answers_iff Memory.backend.db (genesisChain Memory.backend)
    (show PassesChecks 0 1 by decide)).mpr (by decide)).2

/-- A request for the block at the last height passes the checks and is never answered. -/
theorem rangeLoop_lastHeight_never_ends :
    PassesChecks lastHeight lastHeight ∧
      ¬ ∃ fuel reply, rangeLoop Memory.backend.db (genesisChain Memory.backend) lastHeight fuel
        lastHeight ⟨[], []⟩ = some reply := by
  refine ⟨by decide, ?_⟩
  rintro ⟨fuel, reply, hreply⟩
  rw [rangeLoop_last] at hreply
  cases hreply

end NetworkService

/-! ## The node -/

namespace Sync

/-- An iteration of the request loop of `doInitialBlockPoolSync`, by the values of
    `heightCount` and `to` it starts with. -/
structure Iteration where
  heightCount : UInt64
  lastTo : UInt64
  deriving DecidableEq, Repr

namespace Iteration

def addedVal (it : Iteration) : UInt64 :=
  if it.heightCount < maxBlockCountForRetrieving then it.heightCount
  else maxBlockCountForRetrieving

def argFrom (it : Iteration) : UInt64 := it.lastTo + 1

def argTo (it : Iteration) : UInt64 := it.lastTo + it.addedVal

/-- No `uint64` operation of the iteration wraps around. -/
structure NoWrap (it : Iteration) : Prop where
  argFrom_lt : it.lastTo.toNat + 1 < 2 ^ 64
  argTo_lt : it.lastTo.toNat + it.addedVal.toNat < 2 ^ 64
  addedVal_le : it.addedVal ≤ it.heightCount

theorem toNat_addedVal (it : Iteration) : it.addedVal.toNat = min it.heightCount.toNat 500 := by
  have h500 : maxBlockCountForRetrieving.toNat = 500 := rfl
  unfold addedVal
  split
  · next hlt =>
      rw [UInt64.lt_iff_toNat_lt, h500] at hlt
      omega
  · next hge =>
      rw [UInt64.lt_iff_toNat_lt, h500] at hge
      omega

/-- The heights the iteration asks for. -/
def heights (it : Iteration) : List Nat :=
  List.range' it.argFrom.toNat (it.argTo.toNat + 1 - it.argFrom.toNat)

end Iteration

/-- The iterations of the request loop, for `fuel` of them. -/
def iterations : Nat → UInt64 → UInt64 → List Iteration
  | 0, _, _ => []
  | fuel + 1, heightCount, lastTo =>
    if heightCount > 0 then
      let it : Iteration := ⟨heightCount, lastTo⟩
      it :: iterations fuel (heightCount - it.addedVal) it.argTo
    else []

/-- Make the requests one after the other and collect the blocks, up to the first that
    fails or is never answered. -/
def collect (peer : SyncPeer) : List Iteration → List Block → Option (Except Err (List Block))
  | [], receivedBlocks => some (.ok receivedBlocks)
  | it :: its, receivedBlocks =>
    match peer.getRangeOfBlocks it.argFrom it.argTo with
    | none => none
    | some (.error e) => some (.error e)
    | some (.ok reply) => collect peer its (receivedBlocks ++ reply.blocks)

section Loop

variable {heightCount lastTo : UInt64} {fuel : Nat}

/-- What an iteration does: it asks for some heights after the last one, takes them off,
    and none of its operations wraps around. -/
theorem Iteration.spec (it : Iteration) (hpos : it.heightCount > 0)
    (hend : it.lastTo.toNat + it.heightCount.toNat < 2 ^ 64) :
    it.NoWrap ∧ NetworkService.PassesChecks it.argFrom it.argTo ∧
      it.argFrom.toNat = it.lastTo.toNat + 1 ∧ it.lastTo.toNat < it.argTo.toNat ∧
      it.argTo.toNat + (it.heightCount - it.addedVal).toNat
        = it.lastTo.toNat + it.heightCount.toNat := by
  have hadded := it.toNat_addedVal
  have hcount : 0 < it.heightCount.toNat := UInt64.lt_iff_toNat_lt.mp hpos
  have hfrom : it.argFrom.toNat = it.lastTo.toNat + 1 := toNat_add_one (by omega)
  have hto : it.argTo.toNat = it.lastTo.toNat + it.addedVal.toNat := by
    rw [argTo, UInt64.toNat_add]
    exact Nat.mod_eq_of_lt (by omega)
  have hle : it.addedVal ≤ it.heightCount := by
    rw [UInt64.le_iff_toNat_le]
    omega
  have hsub : (it.heightCount - it.addedVal).toNat = it.heightCount.toNat - it.addedVal.toNat :=
    UInt64.toNat_sub_of_le _ _ hle
  have hrange : it.argFrom ≤ it.argTo := by
    rw [UInt64.le_iff_toNat_le]
    omega
  have hlimit : it.argTo - it.argFrom ≤ maxBlockCountForRetrieving := by
    have h500 : maxBlockCountForRetrieving.toNat = 500 := rfl
    rw [UInt64.le_iff_toNat_le, UInt64.toNat_sub_of_le _ _ hrange, h500]
    omega
  exact ⟨⟨by omega, by omega, hle⟩, ⟨hrange, hlimit⟩, hfrom, by omega, by omega⟩

theorem retrieveBlocks_of_pos (peer : SyncPeer) (hpos : heightCount > 0)
    (receivedBlocks : List Block) :
    let it : Iteration := ⟨heightCount, lastTo⟩
    retrieveBlocks peer (fuel + 1) heightCount lastTo receivedBlocks
      = match peer.getRangeOfBlocks it.argFrom it.argTo with
        | none => none
        | some (.error e) => some (.error e)
        | some (.ok reply) => retrieveBlocks peer fuel (heightCount - it.addedVal) it.argTo
            (receivedBlocks ++ reply.blocks) := by
  rw [retrieveBlocks, if_pos hpos]
  rfl

/-- The loop ends and makes the requests of its iterations. -/
theorem retrieveBlocks_eq_collect (peer : SyncPeer)
    (hend : lastTo.toNat + heightCount.toNat < 2 ^ 64) (hfuel : heightCount.toNat < fuel)
    (receivedBlocks : List Block) :
    retrieveBlocks peer fuel heightCount lastTo receivedBlocks
      = collect peer (iterations fuel heightCount lastTo) receivedBlocks := by
  induction fuel generalizing heightCount lastTo receivedBlocks with
  | zero => omega
  | succ fuel ih =>
      by_cases hpos : heightCount > 0
      · obtain ⟨-, -, -, hprogress, hrest⟩ := Iteration.spec ⟨heightCount, lastTo⟩ hpos hend
        rw [retrieveBlocks_of_pos peer hpos, iterations, if_pos hpos, collect]
        dsimp only at hprogress hrest ⊢
        split
        · rfl
        · rfl
        · exact ih (by omega) (by omega) _
      · rw [retrieveBlocks, iterations, if_neg hpos, if_neg hpos]
        rfl

/-- The requests follow one another. -/
theorem flatMap_heights (hend : lastTo.toNat + heightCount.toNat < 2 ^ 64)
    (hfuel : heightCount.toNat < fuel) :
    (iterations fuel heightCount lastTo).flatMap Iteration.heights
      = List.range' (lastTo.toNat + 1) heightCount.toNat := by
  induction fuel generalizing heightCount lastTo with
  | zero => omega
  | succ fuel ih =>
      by_cases hpos : heightCount > 0
      · obtain ⟨-, -, hfrom, hprogress, hrest⟩ :=
          Iteration.spec ⟨heightCount, lastTo⟩ hpos hend
        dsimp only at hfrom hprogress hrest
        have hcount : heightCount.toNat = (Iteration.argTo ⟨heightCount, lastTo⟩).toNat + 1
            - (lastTo.toNat + 1)
              + (heightCount - Iteration.addedVal ⟨heightCount, lastTo⟩).toNat := by
          omega
        rw [iterations, if_pos hpos, List.flatMap_cons, ih (by omega) (by omega), Iteration.heights,
          hfrom, hcount, ← List.range'_append_1]
        congr 2
        omega
      · have hzero : heightCount.toNat = 0 := by
          have hle := UInt64.le_iff_toNat_le.mp (UInt64.not_lt.mp hpos)
          simpa using hle
        rw [iterations, if_neg hpos, hzero]
        rfl

/-- More fuel than heights changes nothing. -/
theorem iterations_congr {fuel' : Nat} (hend : lastTo.toNat + heightCount.toNat < 2 ^ 64)
    (hfuel : heightCount.toNat < fuel) (hfuel' : heightCount.toNat < fuel') :
    iterations fuel heightCount lastTo = iterations fuel' heightCount lastTo := by
  induction fuel generalizing fuel' heightCount lastTo with
  | zero => omega
  | succ fuel ih =>
      cases fuel' with
      | zero => omega
      | succ fuel' =>
          rw [iterations, iterations]
          split
          · next hpos =>
              obtain ⟨-, -, -, hprogress, hrest⟩ :=
                Iteration.spec ⟨heightCount, lastTo⟩ hpos hend
              dsimp only at hprogress hrest ⊢
              exact congrArg _ (ih (by omega) (by omega) (by omega))
          · rfl

theorem mem_iterations (hend : lastTo.toNat + heightCount.toNat < 2 ^ 64)
    {it : Iteration} (hit : it ∈ iterations fuel heightCount lastTo) :
    it.heightCount > 0 ∧ it.lastTo.toNat + it.heightCount.toNat < 2 ^ 64 := by
  induction fuel generalizing heightCount lastTo with
  | zero => cases hit
  | succ fuel ih =>
      rw [iterations] at hit
      split at hit
      · next hpos =>
          rcases List.mem_cons.mp hit with rfl | hlater
          · exact ⟨hpos, hend⟩
          · obtain ⟨-, -, -, -, hrest⟩ := Iteration.spec ⟨heightCount, lastTo⟩ hpos hend
            dsimp only at hrest
            exact ih (by omega) hlater
      · cases hit

end Loop

/-- The requests of a node at the height `ourLastHeight` to a peer at `height`. -/
def syncIterations (ourLastHeight height : UInt64) : List Iteration :=
  iterations ((height - ourLastHeight).toNat + 1) (height - ourLastHeight) ourLastHeight

/-- For a node at the height `ourLastHeight` and a peer above it: the request loop ends
    and makes the requests of `syncIterations`; these ask for the heights the node lacks, one
    after the other and each once; no operation wraps around, and the peer refuses none
    of the requests. -/
theorem syncRequests_exact {ourLastHeight height : UInt64} (h : ourLastHeight < height) :
    (∀ peer fuel, (height - ourLastHeight).toNat < fuel →
      retrieveBlocks peer fuel (height - ourLastHeight) ourLastHeight []
        = collect peer (syncIterations ourLastHeight height) []) ∧
      (syncIterations ourLastHeight height).flatMap Iteration.heights
        = List.range' (ourLastHeight.toNat + 1) (height.toNat - ourLastHeight.toNat) ∧
      ∀ it ∈ syncIterations ourLastHeight height,
        it.NoWrap ∧ NetworkService.PassesChecks it.argFrom it.argTo := by
  have hcount : (height - ourLastHeight).toNat = height.toNat - ourLastHeight.toNat :=
    UInt64.toNat_sub_of_le _ _ (UInt64.le_of_lt h)
  have hlt := UInt64.lt_iff_toNat_lt.mp h
  have hheight := height.toNat_lt
  have hend : ourLastHeight.toNat + (height - ourLastHeight).toNat < 2 ^ 64 := by omega
  refine ⟨?_, ?_, ?_⟩
  · intro peer fuel hfuel
    rw [retrieveBlocks_eq_collect peer hend hfuel, iterations_congr hend hfuel (Nat.lt_succ_self _),
      syncIterations]
  · rw [syncIterations, flatMap_heights hend (Nat.lt_succ_self _), hcount]
  · intro it hit
    obtain ⟨hpos, hbound⟩ := mem_iterations hend hit
    obtain ⟨hnowrap, hchecks, -⟩ := Iteration.spec it hpos hbound
    exact ⟨hnowrap, hchecks⟩

/-- Two requests bring a node from genesis to a peer at height 700. -/
theorem syncRequests_exact_twoRequests :
    (syncIterations 0 700).map (fun it => (it.argFrom, it.argTo)) = [(1, 500), (501, 700)] ∧
      (syncIterations 0 700).flatMap Iteration.heights = List.range' 1 700 :=
  ⟨by decide +kernel, (syncRequests_exact (show (0 : UInt64) < 700 by decide)).2.1⟩

end Sync

end Dione
