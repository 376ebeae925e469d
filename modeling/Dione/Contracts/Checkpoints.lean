/-
  Dione.Contracts.Checkpoints

  The checkpoints of `DioneToken` are the timeline of an account's votes: what
  `getCurrentVotes` and `getPriorVotes` return are its values now and at an
  earlier block.
-/

import Dione.Contracts.Solvency
import Dione.Lib.Timeline

namespace Dione.Contracts

open Guard Timeline

namespace Votes

/-- A checkpoint as an entry of a timeline. -/
def entry (vs : Votes) (a : Address) (i : BitVec 32) : Nat × Uint256 :=
  ((vs.checkpoints a i).fromBlock.toNat, (vs.checkpoints a i).votes)

/-- The checkpoints of an account that are in use. -/
def trail (vs : Votes) (a : Address) : List (Nat × Uint256) :=
  (List.range (vs.numCheckpoints a).toNat).map fun i => vs.entry a (BitVec.ofNat 32 i)

/-- The votes of an account. -/
def currentVotes (vs : Votes) (a : Address) : Uint256 := current 0 (vs.trail a)

/-- The timelines are in order, and none goes on after block `n`. -/
def InOrder (n : Nat) (vs : Votes) : Prop := ∀ a, Ordered (vs.trail a) ∧ UpTo n (vs.trail a)

/-- There are no checkpoints before block `n`. -/
def StartsFrom (n : Nat) (vs : Votes) : Prop := ∀ a, ∀ x ∈ vs.trail a, n ≤ x.1

/-- Nothing before block `n` differs. -/
def SameBefore (n : Nat) (vs vs' : Votes) : Prop :=
  ∀ a b, b < n → valueAt 0 (vs'.trail a) b = valueAt 0 (vs.trail a) b

variable {vs vs' : Votes} {msg : Msg} {a delegatee : Address} {v : Uint256} {n m : Nat}

theorem InOrder.mono (h : vs.InOrder n) (hle : n ≤ m) : vs.InOrder m := fun a =>
  ⟨(h a).1, fun x hx => ((h a).2 x hx).trans hle⟩

theorem SameBefore.refl (vs : Votes) : SameBefore n vs vs := fun _ _ _ => rfl

theorem SameBefore.trans {vs₁ : Votes} (h : SameBefore n vs vs₁) (h' : SameBefore n vs₁ vs') :
    SameBefore n vs vs' := fun a b hb => (h' a b hb).trans (h a b hb)

/-! ## The trail -/

/-- A trail that is not empty ends with the checkpoint before `numCheckpoints`. -/
theorem trail_eq_concat (h : 0 < vs.numCheckpoints a) :
    vs.trail a = ((List.range ((vs.numCheckpoints a).toNat - 1)).map fun i =>
        vs.entry a (BitVec.ofNat 32 i)) ++ [vs.entry a (vs.numCheckpoints a - 1)] := by
  have hpos : 0 < (vs.numCheckpoints a).toNat := by simpa [BitVec.lt_def] using h
  have hlast : BitVec.ofNat 32 ((vs.numCheckpoints a).toNat - 1) = vs.numCheckpoints a - 1 := by
    bv_omega
  unfold trail
  nth_rewrite 1 [← Nat.sub_add_cancel hpos]
  rw [List.range_succ, List.map_append, List.map_singleton, hlast]

theorem trail_eq_nil (h : vs.numCheckpoints a = 0) : vs.trail a = [] := by
  unfold trail
  rw [h]
  rfl

theorem trail_getElem? {i : BitVec 32} (h : i < vs.numCheckpoints a) :
    (vs.trail a)[i.toNat]? = some (vs.entry a i) := by
  unfold trail
  rw [List.getElem?_map, List.getElem?_range (BitVec.lt_def.mp h)]
  simp

theorem lastVotes_eq : vs.lastVotes a = .ok (vs.currentVotes a) := by
  unfold lastVotes currentVotes
  by_cases h : 0 < vs.numCheckpoints a
  · have hsub : Checked.sub Revert.overflow (vs.numCheckpoints a) 1
        = .ok (vs.numCheckpoints a - 1) := by
      rw [Checked.sub_eq_ok]
      bv_omega
    rw [trail_eq_concat h, current_concat]
    simp only [if_pos h, hsub, ok_bind]
    rfl
  · have hzero : vs.numCheckpoints a = 0 := by bv_omega
    rw [trail_eq_nil hzero]
    simp only [if_neg h]
    rfl

/-! ## One checkpoint -/

theorem safe32_eq_ok {x : Uint256} {text : String} {y : BitVec 32} :
    safe32 x text = .ok y ↔ x.toNat < 2 ^ 32 ∧ x.setWidth 32 = y := by
  simp only [safe32, bind_eq_ok, require_eq_ok, exists_const, pure_eq_ok_iff]

/-- The storage with the last checkpoint of an account overwritten. -/
def overwritten (vs : Votes) (delegatee : Address) (v : Uint256) : Votes :=
  { vs with
    checkpoints := Function.update vs.checkpoints delegatee
      (Function.update (vs.checkpoints delegatee) (vs.numCheckpoints delegatee - 1)
        { vs.checkpoints delegatee (vs.numCheckpoints delegatee - 1) with votes := v }) }

/-- The storage with a checkpoint added. -/
def appended (vs : Votes) (delegatee : Address) (count fromBlock : BitVec 32) (v : Uint256) :
    Votes :=
  { vs with
    checkpoints := Function.update vs.checkpoints delegatee
      (Function.update (vs.checkpoints delegatee) (vs.numCheckpoints delegatee) ⟨fromBlock, v⟩)
    numCheckpoints := Function.update vs.numCheckpoints delegatee count }

/-- The block of the last checkpoint is the current one. -/
def LastIsNow (vs : Votes) (msg : Msg) (delegatee : Address) : Prop :=
  0 < vs.numCheckpoints delegatee ∧
    (vs.checkpoints delegatee (vs.numCheckpoints delegatee - 1)).fromBlock = msg.number.setWidth 32

theorem writeCheckpoint_eq_ok :
    vs._writeCheckpoint msg delegatee (vs.numCheckpoints delegatee) v = .ok vs' ↔
      msg.number.toNat < 2 ^ 32 ∧
        (vs.LastIsNow msg delegatee ∧ vs.overwritten delegatee v = vs' ∨
          ¬ vs.LastIsNow msg delegatee ∧ ∃ count : BitVec 32,
            count.toNat = (vs.numCheckpoints delegatee).toNat + 1 ∧
            vs.appended delegatee count (msg.number.setWidth 32) v = vs') := by
  unfold _writeCheckpoint
  simp only [bind_eq_ok, safe32_eq_ok]
  constructor
  · rintro ⟨blockNumber, ⟨hnumber, rfl⟩, h⟩
    refine ⟨hnumber, ?_⟩
    split at h
    · next hnow => exact .inl ⟨hnow, pure_eq_ok_iff.mp h⟩
    · next hnow =>
        simp only [bind_eq_ok, Checked.add_eq_ok, pure_eq_ok_iff] at h
        obtain ⟨count, hcount, rfl⟩ := h
        exact .inr ⟨hnow, count, hcount, rfl⟩
  · rintro ⟨hnumber, h⟩
    refine ⟨_, ⟨hnumber, rfl⟩, ?_⟩
    unfold LastIsNow at h
    rcases h with ⟨hnow, rfl⟩ | ⟨hnow, count, hcount, rfl⟩
    · rw [if_pos hnow]
      rfl
    · rw [if_neg hnow]
      simp only [bind_eq_ok, Checked.add_eq_ok, pure_eq_ok_iff]
      exact ⟨count, hcount, rfl⟩

theorem trail_overwritten_of_ne (hne : a ≠ delegatee) :
    (vs.overwritten delegatee v).trail a = vs.trail a := by
  unfold trail entry overwritten
  simp only [Function.update_of_ne hne]

theorem trail_appended_of_ne {count fromBlock : BitVec 32} (hne : a ≠ delegatee) :
    (vs.appended delegatee count fromBlock v).trail a = vs.trail a := by
  unfold trail entry appended
  simp only [Function.update_of_ne hne]

/-- Indices below `numCheckpoints` differ from it, as `uint32` too. -/
theorem ofNat_ne_of_lt {i : Nat} {k : BitVec 32} (h : i < k.toNat) : BitVec.ofNat 32 i ≠ k := by
  have hk := k.isLt
  intro heq
  have hnat := congrArg BitVec.toNat heq
  rw [BitVec.toNat_ofNat, Nat.mod_eq_of_lt (by omega)] at hnat
  omega

theorem trail_overwritten (hord : Ordered (vs.trail delegatee))
    (hnow : vs.LastIsNow msg delegatee) (hnumber : msg.number.toNat < 2 ^ 32) :
    (vs.overwritten delegatee v).trail delegatee
      = record (vs.trail delegatee) msg.number.toNat v := by
  obtain ⟨hpos, hlast⟩ := hnow
  have htime : (vs.checkpoints delegatee (vs.numCheckpoints delegatee - 1)).fromBlock.toNat
      = msg.number.toNat := by
    rw [hlast, BitVec.toNat_setWidth, Nat.mod_eq_of_lt hnumber]
  have hentry : vs.entry delegatee (vs.numCheckpoints delegatee - 1) = (msg.number.toNat,
      (vs.checkpoints delegatee (vs.numCheckpoints delegatee - 1)).votes) := by
    rw [entry, htime]
  have hposition : (vs.numCheckpoints delegatee - 1).toNat
      = (vs.numCheckpoints delegatee).toNat - 1 := by
    bv_omega
  have hpos' : 0 < (vs.overwritten delegatee v).numCheckpoints delegatee := hpos
  rw [trail_eq_concat hpos, hentry] at hord
  rw [trail_eq_concat hpos', trail_eq_concat hpos, hentry, record_of_last hord]
  congr 1
  · -- below the last checkpoint nothing is written
    refine List.map_congr_left ?_
    intro i hi
    have hne : BitVec.ofNat 32 i ≠ vs.numCheckpoints delegatee - 1 :=
      ofNat_ne_of_lt (by rw [hposition]; exact List.mem_range.mp hi)
    simp only [entry, overwritten, Function.update_self, Function.update_of_ne hne]
  · simp only [entry, overwritten, Function.update_self, htime]

/-- A checkpoint is added where no entry is of the current block yet. -/
theorem forall_lt_of_not_lastIsNow (hord : Ordered (vs.trail delegatee))
    (hupTo : UpTo msg.number.toNat (vs.trail delegatee)) (hnow : ¬ vs.LastIsNow msg delegatee) :
    ∀ x ∈ vs.trail delegatee, x.1 < msg.number.toNat := by
  intro x hx
  by_cases hpos : 0 < vs.numCheckpoints delegatee
  · have hconcat := trail_eq_concat hpos
    rw [hconcat] at hord hupTo hx
    have hlast : (vs.entry delegatee (vs.numCheckpoints delegatee - 1)).1 < msg.number.toNat := by
      refine lt_of_le_of_ne (hupTo _ (by simp)) ?_
      intro heq
      refine hnow ⟨hpos, BitVec.eq_of_toNat_eq ?_⟩
      have hlt := (vs.checkpoints delegatee (vs.numCheckpoints delegatee - 1)).fromBlock.isLt
      rw [BitVec.toNat_setWidth, ← heq]
      exact (Nat.mod_eq_of_lt hlt).symm
    rcases List.mem_append.mp hx with hx | hx
    · exact ((List.pairwise_append.mp hord).2.2 x hx _ (List.mem_singleton_self _)).trans hlast
    · rw [List.mem_singleton.mp hx]
      exact hlast
  · have hzero : vs.numCheckpoints delegatee = 0 := by bv_omega
    rw [trail_eq_nil hzero] at hx
    cases hx

theorem trail_appended {count : BitVec 32}
    (hcount : count.toNat = (vs.numCheckpoints delegatee).toNat + 1)
    (hnumber : msg.number.toNat < 2 ^ 32)
    (hbefore : ∀ x ∈ vs.trail delegatee, x.1 < msg.number.toNat) :
    (vs.appended delegatee count (msg.number.setWidth 32) v).trail delegatee
      = record (vs.trail delegatee) msg.number.toNat v := by
  rw [record_of_forall_ne fun x hx => (hbefore x hx).ne]
  unfold trail
  simp only [appended, Function.update_self]
  rw [hcount, List.range_succ, List.map_append, List.map_singleton, BitVec.ofNat_toNat,
    BitVec.setWidth_eq]
  congr 1
  · refine List.map_congr_left ?_
    intro i hi
    have hne := ofNat_ne_of_lt (List.mem_range.mp hi)
    simp only [entry, Function.update_self, Function.update_of_ne hne]
  · simp only [entry, Function.update_self, BitVec.toNat_setWidth, Nat.mod_eq_of_lt hnumber]

/-- `v` is the new number of votes of `delegatee` from block `n` on, and nothing
    else has changed. -/
structure Wrote (n : Nat) (delegatee : Address) (v : Uint256) (vs vs' : Votes) : Prop where
  delegates_eq : vs'.delegates = vs.delegates
  trail_self : vs'.trail delegatee = record (vs.trail delegatee) n v
  trail_of_ne : ∀ a, a ≠ delegatee → vs'.trail a = vs.trail a

theorem wrote_of_writeCheckpoint (h : vs.InOrder msg.number.toNat)
    (hw : vs._writeCheckpoint msg delegatee (vs.numCheckpoints delegatee) v = .ok vs') :
    Wrote msg.number.toNat delegatee v vs vs' := by
  obtain ⟨hord, hupTo⟩ := h delegatee
  obtain ⟨hnumber, ⟨hnow, rfl⟩ | ⟨hnow, count, hcount, rfl⟩⟩ := writeCheckpoint_eq_ok.mp hw
  · exact ⟨rfl, trail_overwritten hord hnow hnumber, fun a hne => trail_overwritten_of_ne hne⟩
  · have hbefore := forall_lt_of_not_lastIsNow hord hupTo hnow
    exact ⟨rfl, trail_appended hcount hnumber hbefore, fun a hne => trail_appended_of_ne hne⟩

namespace Wrote

theorem inOrder (hw : Wrote n delegatee v vs vs') (h : vs.InOrder n) : vs'.InOrder n := by
  intro a
  obtain ⟨hord, hupTo⟩ := h a
  by_cases ha : a = delegatee
  · subst ha
    rw [hw.trail_self]
    exact ⟨ordered_record hord hupTo, upTo_record hupTo⟩
  · rw [hw.trail_of_ne a ha]
    exact ⟨hord, hupTo⟩

theorem sameBefore (hw : Wrote n delegatee v vs vs') : SameBefore n vs vs' := by
  intro a b hb
  by_cases ha : a = delegatee
  · subst ha
    rw [hw.trail_self, valueAt_record_of_lt hb]
  · rw [hw.trail_of_ne a ha]

theorem startsFrom (hw : Wrote n delegatee v vs vs') (hm : m ≤ n) (h : vs.StartsFrom m) :
    vs'.StartsFrom m := by
  intro a x hx
  by_cases ha : a = delegatee
  · subst ha
    rw [hw.trail_self] at hx
    rcases List.mem_append.mp hx with hx | hx
    · exact h a x (List.mem_of_mem_filter hx)
    · rw [List.mem_singleton.mp hx]
      exact hm
  · rw [hw.trail_of_ne a ha] at hx
    exact h a x hx

theorem currentVotes_self (hw : Wrote n delegatee v vs vs') : vs'.currentVotes delegatee = v := by
  rw [currentVotes, hw.trail_self, current_record]

theorem currentVotes_of_ne (hw : Wrote n delegatee v vs vs') (hne : a ≠ delegatee) :
    vs'.currentVotes a = vs.currentVotes a := by
  rw [currentVotes, hw.trail_of_ne a hne, currentVotes]

end Wrote

/-! ## Moving votes -/

variable {srcRep dstRep : Address}

theorem decrease_eq_ok : vs.decrease msg srcRep v = .ok vs' ↔
    ∃ x : Uint256, x.toNat + v.toNat = (vs.currentVotes srcRep).toNat ∧
      vs._writeCheckpoint msg srcRep (vs.numCheckpoints srcRep) x = .ok vs' := by
  simp only [decrease, lastVotes_eq, ok_bind, bind_eq_ok, Checked.sub_eq_ok]

theorem increase_eq_ok : vs.increase msg dstRep v = .ok vs' ↔
    ∃ x : Uint256, x.toNat = (vs.currentVotes dstRep).toNat + v.toNat ∧
      vs._writeCheckpoint msg dstRep (vs.numCheckpoints dstRep) x = .ok vs' := by
  simp only [increase, lastVotes_eq, ok_bind, bind_eq_ok, Checked.add_eq_ok]

theorem moveDelegates_eq_ok (hmoves : srcRep ≠ dstRep ∧ 0 < v) :
    vs._moveDelegates msg srcRep dstRep v = .ok vs' ↔
      ∃ vs₁, (if srcRep ≠ .zero then vs.decrease msg srcRep v = .ok vs₁ else vs = vs₁) ∧
        (if dstRep ≠ .zero then vs₁.increase msg dstRep v = .ok vs' else vs₁ = vs') := by
  unfold _moveDelegates
  rw [if_pos hmoves]
  by_cases hsrc : srcRep ≠ .zero <;> by_cases hdst : dstRep ≠ .zero <;>
    simp only [hsrc, hdst, bind_eq_ok, pure_eq_ok_iff, if_true, if_false, ne_eq,
      not_false_eq_true]

/-- `v` votes went from `srcRep` to `dstRep` in block `n`; `address(0)` has none. -/
structure Moved (n : Nat) (srcRep dstRep : Address) (v : Uint256) (vs vs' : Votes) : Prop where
  delegates_eq : vs'.delegates = vs.delegates
  inOrder : vs'.InOrder n
  startsFrom : ∀ m, m ≤ n → vs.StartsFrom m → vs'.StartsFrom m
  sameBefore : SameBefore n vs vs'
  votes : ∀ a, a ≠ .zero → (vs'.currentVotes a).toNat + (if srcRep = a then v.toNat else 0)
    = (vs.currentVotes a).toNat + (if dstRep = a then v.toNat else 0)

/-- Nothing went anywhere. -/
theorem moved_refl (h : vs.InOrder n) (hsame : srcRep = dstRep ∨ v = 0) :
    Moved n srcRep dstRep v vs vs := by
  refine ⟨rfl, h, fun _ _ hm => hm, .refl vs, ?_⟩
  intro a _
  rcases hsame with rfl | rfl
  · rfl
  · simp

/-- What `decrease` does, if it is called at all. -/
theorem moved_of_decrease (h : vs.InOrder msg.number.toNat)
    (hd : if srcRep ≠ .zero then vs.decrease msg srcRep v = .ok vs' else vs = vs') :
    Moved msg.number.toNat srcRep .zero v vs vs' := by
  split at hd
  · obtain ⟨x, hx, hwrite⟩ := decrease_eq_ok.mp hd
    have hw := wrote_of_writeCheckpoint h hwrite
    refine ⟨hw.delegates_eq, hw.inOrder h, fun _ => hw.startsFrom, hw.sameBefore, ?_⟩
    intro a ha
    rw [if_neg ha.symm]
    by_cases hsrc : srcRep = a
    · subst hsrc
      rw [if_pos rfl, hw.currentVotes_self]
      omega
    · rw [if_neg hsrc, hw.currentVotes_of_ne (Ne.symm hsrc)]
  · next hsrc =>
      subst hd
      exact moved_refl h (.inl (not_not.mp hsrc))

/-- What `increase` does, if it is called at all. -/
theorem moved_of_increase (h : vs.InOrder msg.number.toNat)
    (hi : if dstRep ≠ .zero then vs.increase msg dstRep v = .ok vs' else vs = vs') :
    Moved msg.number.toNat .zero dstRep v vs vs' := by
  split at hi
  · obtain ⟨x, hx, hwrite⟩ := increase_eq_ok.mp hi
    have hw := wrote_of_writeCheckpoint h hwrite
    refine ⟨hw.delegates_eq, hw.inOrder h, fun _ => hw.startsFrom, hw.sameBefore, ?_⟩
    intro a ha
    rw [if_neg ha.symm]
    by_cases hdst : dstRep = a
    · subst hdst
      rw [if_pos rfl, hw.currentVotes_self]
      omega
    · rw [if_neg hdst, hw.currentVotes_of_ne (Ne.symm hdst)]
  · next hdst =>
      subst hi
      exact moved_refl h (.inl (not_not.mp hdst).symm)

theorem moved_of_moveDelegates (h : vs.InOrder msg.number.toNat)
    (hm : vs._moveDelegates msg srcRep dstRep v = .ok vs') :
    Moved msg.number.toNat srcRep dstRep v vs vs' := by
  by_cases hmoves : srcRep ≠ dstRep ∧ 0 < v
  · obtain ⟨vs₁, hdec, hinc⟩ := (moveDelegates_eq_ok hmoves).mp hm
    have hout := moved_of_decrease h hdec
    have hin := moved_of_increase hout.inOrder hinc
    refine ⟨hin.delegates_eq.trans hout.delegates_eq, hin.inOrder, ?_,
      hout.sameBefore.trans hin.sameBefore, ?_⟩
    · intro m hm h
      exact hin.startsFrom m hm (hout.startsFrom m hm h)
    intro a ha
    have houtVotes := hout.votes a ha
    have hinVotes := hin.votes a ha
    rw [if_neg ha.symm] at houtVotes hinVotes
    omega
  · have hsame : srcRep = dstRep ∨ v = 0 := by
      by_cases heq : srcRep = dstRep
      · exact .inl heq
      · right
        have hnot : ¬ 0 < v := fun hpos => hmoves ⟨heq, hpos⟩
        bv_omega
    unfold _moveDelegates at hm
    rw [if_neg hmoves, pure_eq_ok_iff] at hm
    subst hm
    exact moved_refl h hsame

/-! ## Searching -/

variable {blockNumber : Uint256}

/-- A block number of a checkpoint as it is compared with one of the caller. -/
theorem toNat_fromBlock (c : Checkpoint) :
    (c.fromBlock.setWidth 256).toNat = c.fromBlock.toNat :=
  BitVec.toNat_setWidth_of_le (by decide)

/-- A checkpoint not after the block whose successor is. -/
theorem valueAt_of_entry {i : BitVec 32} (hord : Ordered (vs.trail a))
    (hi : i < vs.numCheckpoints a)
    (hle : (vs.checkpoints a i).fromBlock.toNat ≤ blockNumber.toNat)
    (hnext : ∀ y, (vs.trail a)[i.toNat + 1]? = some y → blockNumber.toNat < y.1) :
    valueAt 0 (vs.trail a) blockNumber.toNat = (vs.checkpoints a i).votes :=
  valueAt_of_getElem? hord (trail_getElem? hi) hle hnext

/-- The entry behind a checkpoint is later. -/
theorem lt_of_next {i : BitVec 32} {y : Nat × Uint256} (hord : Ordered (vs.trail a))
    (hi : i < vs.numCheckpoints a) (hy : (vs.trail a)[i.toNat + 1]? = some y) :
    (vs.checkpoints a i).fromBlock.toNat < y.1 := by
  obtain ⟨hlt, hgetY⟩ := List.getElem?_eq_some_iff.mp hy
  obtain ⟨hlt', hgetX⟩ := List.getElem?_eq_some_iff.mp (trail_getElem? hi)
  have hpair := List.pairwise_iff_getElem.mp hord i.toNat (i.toNat + 1) hlt' hlt
    (Nat.lt_succ_self _)
  rw [hgetX, hgetY] at hpair
  exact hpair

/-- Behind the last checkpoint there is none. -/
theorem lt_of_last (hpos : 0 < vs.numCheckpoints a) {y : Nat × Uint256}
    (hy : (vs.trail a)[(vs.numCheckpoints a - 1).toNat + 1]? = some y) :
    blockNumber.toNat < y.1 := by
  have hlength : (vs.trail a).length = (vs.numCheckpoints a).toNat := by simp [trail]
  have hindex := (List.getElem?_eq_some_iff.mp hy).1
  have hcount := BitVec.lt_def.mp hpos
  bv_omega

/-- If the first checkpoint is after the block, so are all. -/
theorem valueAt_of_first_after (hord : Ordered (vs.trail a)) (hpos : 0 < vs.numCheckpoints a)
    (hearly : blockNumber.toNat < (vs.checkpoints a 0).fromBlock.toNat) :
    valueAt 0 (vs.trail a) blockNumber.toNat = 0 := by
  refine valueAt_of_forall_lt ?_
  intro x hx
  obtain ⟨i, hi, rfl⟩ := List.getElem_of_mem hx
  obtain ⟨hlt, hget⟩ := List.getElem?_eq_some_iff.mp (trail_getElem? hpos)
  rcases Nat.eq_zero_or_pos i with rfl | hipos
  · show blockNumber.toNat < ((vs.trail a)[(0 : BitVec 32).toNat]).1
    rw [hget]
    exact hearly
  · have hpair := List.pairwise_iff_getElem.mp hord _ i hlt hi hipos
    rw [hget] at hpair
    exact hearly.trans hpair

theorem center_eq_ok {lower upper : BitVec 32} (h : lower < upper) :
    ∃ width half center : BitVec 32, Checked.sub Revert.overflow upper lower = .ok width ∧
      Checked.div Revert.divisionByZero width 2 = .ok half ∧
      Checked.sub Revert.overflow upper half = .ok center ∧
      lower.toNat < center.toNat ∧ center.toNat ≤ upper.toNat := by
  have hlt := BitVec.lt_def.mp h
  obtain ⟨width, hwidth, hwidthNat⟩ := Checked.exists_sub (e := Revert.overflow)
    (a := upper) (b := lower) hlt.le
  have hhalf : (width / 2).toNat = width.toNat / 2 := BitVec.toNat_udiv
  obtain ⟨center, hcenter, hcenterNat⟩ := Checked.exists_sub (e := Revert.overflow)
    (a := upper) (b := width / 2) (by omega)
  have hdiv : Checked.div Revert.divisionByZero width 2 = .ok (width / 2) :=
    Checked.div_eq_ok.mpr ⟨by decide, hhalf⟩
  exact ⟨width, width / 2, center, hwidth, hdiv, hcenter, by omega, by omega⟩

/-- Where the bounds of the search meet, the checkpoint there is the one. -/
theorem valueAt_of_met {lower upper : BitVec 32} (hord : Ordered (vs.trail a))
    (hmet : lower.toNat = upper.toNat) (hupper : upper < vs.numCheckpoints a)
    (hlow : (vs.checkpoints a lower).fromBlock.toNat ≤ blockNumber.toNat)
    (hhigh : ∀ y, (vs.trail a)[upper.toNat + 1]? = some y → blockNumber.toNat < y.1) :
    valueAt 0 (vs.trail a) blockNumber.toNat = (vs.checkpoints a lower).votes := by
  obtain rfl : lower = upper := BitVec.eq_of_toNat_eq hmet
  exact valueAt_of_entry hord hupper hlow hhigh

/-- The search returns the votes at the block.  It keeps: the checkpoint at
    `lower` is not after the block, the one behind `upper` is. -/
theorem searchCheckpoints_eq (hord : Ordered (vs.trail a)) {fuel : Nat} {lower upper : BitVec 32}
    (hfuel : upper.toNat ≤ lower.toNat + fuel) (hle : lower.toNat ≤ upper.toNat)
    (hupper : upper < vs.numCheckpoints a)
    (hlow : (vs.checkpoints a lower).fromBlock.toNat ≤ blockNumber.toNat)
    (hhigh : ∀ y, (vs.trail a)[upper.toNat + 1]? = some y → blockNumber.toNat < y.1) :
    searchCheckpoints (vs.checkpoints a) blockNumber fuel lower upper
      = .ok (valueAt 0 (vs.trail a) blockNumber.toNat) := by
  induction fuel generalizing lower upper with
  | zero =>
      rw [valueAt_of_met hord (by omega) hupper hlow hhigh]
      rfl
  | succ fuel ih =>
      rw [searchCheckpoints]
      by_cases hlt : lower < upper
      · obtain ⟨width, half, center, hwidth, hhalf, hcenter, hgt, hcu⟩ := center_eq_ok hlt
        have hin : center < vs.numCheckpoints a := by
          rw [BitVec.lt_def] at hupper ⊢
          omega
        have htime := toNat_fromBlock (vs.checkpoints a center)
        simp only [if_pos hlt, hwidth, hhalf, hcenter, ok_bind]
        split
        · -- the block itself has a checkpoint
          next heq =>
            rw [heq] at htime
            refine congrArg Except.ok (valueAt_of_entry hord hin htime.ge ?_).symm
            intro y hy
            rw [htime]
            exact lt_of_next hord hin hy
        · split
          · next hbelow =>
              rw [BitVec.lt_def, htime] at hbelow
              exact ih (by omega) hcu hupper hbelow.le hhigh
          · next hne hnot =>
              have hneNat : ((vs.checkpoints a center).fromBlock.setWidth 256).toNat
                  ≠ blockNumber.toNat := fun h => hne (BitVec.eq_of_toNat_eq h)
              rw [BitVec.lt_def] at hnot
              have hone : (1 : BitVec 32).toNat = 1 := rfl
              obtain ⟨below, hbelow, hbelowNat⟩ := Checked.exists_sub (e := Revert.overflow)
                (a := center) (b := 1) (by omega)
              have hbelowIn : below < vs.numCheckpoints a := by
                rw [BitVec.lt_def] at hin ⊢
                omega
              simp only [hbelow, ok_bind]
              refine ih (by omega) (by omega) hbelowIn hlow ?_
              -- the checkpoint behind the new `upper` is the one at `center`
              intro y hy
              have hposition : below.toNat + 1 = center.toNat := by omega
              rw [hposition, trail_getElem? hin, Option.some.injEq] at hy
              rw [← hy]
              show blockNumber.toNat < (vs.checkpoints a center).fromBlock.toNat
              omega
      · rw [BitVec.lt_def] at hlt
        rw [if_neg (by rwa [BitVec.lt_def]), valueAt_of_met hord (by omega) hupper hlow hhigh]
        rfl

/-- A block gone by: the votes of the account then. -/
theorem getPriorVotes_eq (hord : Ordered (vs.trail a)) (hb : blockNumber < msg.number) :
    vs.getPriorVotes msg a blockNumber = .ok (valueAt 0 (vs.trail a) blockNumber.toNat) := by
  have hguard : require (blockNumber < msg.number)
      (Revert.reason "DIONE::getPriorVotes: not yet determined") = .ok () :=
    require_eq_ok.mpr hb
  unfold getPriorVotes
  rw [hguard, ok_bind]
  by_cases hzero : vs.numCheckpoints a = 0
  · rw [trail_eq_nil hzero]
    simp only [if_pos hzero]
    rfl
  · have hpos : 0 < vs.numCheckpoints a := by bv_omega
    have hlast : vs.numCheckpoints a - 1 < vs.numCheckpoints a := by bv_omega
    have hsub : Checked.sub Revert.overflow (vs.numCheckpoints a) 1
        = .ok (vs.numCheckpoints a - 1) := by
      rw [Checked.sub_eq_ok]
      bv_omega
    simp only [if_neg hzero, hsub, ok_bind]
    split
    · next hrecent =>
        rw [BitVec.le_def, toNat_fromBlock] at hrecent
        exact congrArg Except.ok
          (valueAt_of_entry hord hlast hrecent fun _ hy => lt_of_last hpos hy).symm
    · split
      · next hearly =>
          rw [BitVec.lt_def, toNat_fromBlock] at hearly
          exact congrArg Except.ok (valueAt_of_first_after hord hpos hearly).symm
      · next hrecent hearly =>
          rw [BitVec.lt_def, toNat_fromBlock] at hearly
          refine searchCheckpoints_eq hord ?_ (Nat.zero_le _) hlast (by omega) fun _ hy =>
            lt_of_last hpos hy
          bv_omega

end Votes

/-! ## Runs -/

namespace DioneToken

section Steps

variable {evm : Evm} {self : Address} {msg : Msg} {c : TokenCall} {t t' : DioneToken}

/-- A call moves votes, after it has perhaps set a delegate or a nonce, or leaves
    the votes alone. -/
theorem votes_of_run (h : c.run evm self msg t = .ok t') : t'.votes = t.votes ∨
    ∃ (vs : Votes) (srcRep dstRep : Address) (v : Uint256), vs.checkpoints = t.votes.checkpoints ∧
      vs.numCheckpoints = t.votes.numCheckpoints ∧
      vs._moveDelegates msg srcRep dstRep v = .ok t'.votes := by
  cases c with
  | mint _to amount =>
      simp only [TokenCall.run, mint, bind_eq_ok, pure_eq_ok_iff] at h
      obtain ⟨-, -, e, -, vs, hmove, rfl⟩ := h
      exact .inr ⟨t.votes, _, _, _, rfl, rfl, hmove⟩
  | delegate delegatee =>
      simp only [TokenCall.run, delegate, _delegate, bind_eq_ok, pure_eq_ok_iff] at h
      obtain ⟨vs, hmove, rfl⟩ := h
      refine .inr ⟨_, _, _, _, ?_, ?_, hmove⟩ <;> rfl
  | delegateBySig delegatee nonce expiry v r s =>
      simp only [TokenCall.run, delegateBySig, _delegate, bind_eq_ok, require_eq_ok, exists_const,
        pure_eq_ok_iff] at h
      obtain ⟨-, next, -, -, -, vs, hmove, rfl⟩ := h
      refine .inr ⟨_, _, _, _, ?_, ?_, hmove⟩ <;> rfl
  | _ =>
      simp only [TokenCall.run, bind_eq_ok, pure_eq_ok_iff] at h
      obtain ⟨x, -, rfl⟩ := h
      exact .inl rfl

theorem trail_congr {vs vs' : Votes} (hcheckpoints : vs'.checkpoints = vs.checkpoints)
    (hnum : vs'.numCheckpoints = vs.numCheckpoints) (a : Address) : vs'.trail a = vs.trail a := by
  unfold Votes.trail Votes.entry
  rw [hcheckpoints, hnum]

/-- A call in block `n` keeps the timelines in order and what they say of earlier
    blocks. -/
theorem inOrder_of_run (hord : t.votes.InOrder msg.number.toNat)
    (h : c.run evm self msg t = .ok t') : t'.votes.InOrder msg.number.toNat ∧
      t.votes.SameBefore msg.number.toNat t'.votes := by
  rcases votes_of_run h with hsame | ⟨vs, srcRep, dstRep, v, hcheckpoints, hnum, hmove⟩
  · rw [hsame]
    exact ⟨hord, .refl _⟩
  · have htrail := trail_congr hcheckpoints hnum
    have hord' : vs.InOrder msg.number.toNat := by
      intro a
      rw [htrail a]
      exact hord a
    have hmoved := Votes.moved_of_moveDelegates hord' hmove
    refine ⟨hmoved.inOrder, ?_⟩
    intro a b hb
    rw [hmoved.sameBefore a b hb, htrail a]

end Steps

/-- One call of the token; one that reverts changes nothing. -/
def step (evm : Evm) (self : Address) (t : DioneToken) (tx : Msg × TokenCall) : DioneToken :=
  match tx.2.run evm self tx.1 t with
  | .ok t' => t'
  | .error _ => t

/-- The token at address `self` after the calls `txs`. -/
def after (evm : Evm) (self deployer : Address) (txs : List (Msg × TokenCall)) : DioneToken :=
  Run.exec (step evm self) (deployed deployer) txs

/-- The calls are made in the order of their blocks. -/
def Chronological (txs : List (Msg × TokenCall)) : Prop :=
  txs.Pairwise fun x y => x.1.number.toNat ≤ y.1.number.toNat

/-- The calls made in blocks up to `b`. -/
def callsUpTo (b : Uint256) (txs : List (Msg × TokenCall)) : List (Msg × TokenCall) :=
  txs.filter (·.1.number ≤ b)

theorem inOrder_step (evm : Evm) (self : Address) {t : DioneToken} {tx : Msg × TokenCall}
    (h : t.votes.InOrder tx.1.number.toNat) :
    (t.step evm self tx).votes.InOrder tx.1.number.toNat ∧
      t.votes.SameBefore tx.1.number.toNat (t.step evm self tx).votes := by
  unfold step
  split
  · next t' hrun => exact inOrder_of_run h hrun
  · exact ⟨h, .refl _⟩

theorem inOrder_deployed (deployer : Address) (n : Nat) : (deployed deployer).votes.InOrder n := by
  intro a
  rw [Votes.trail_eq_nil rfl]
  exact ⟨List.Pairwise.nil, by simp [UpTo]⟩

/-- The timeline of every account has its votes after each block. -/
theorem valueAt_after (evm : Evm) (self deployer : Address) {txs : List (Msg × TokenCall)}
    (hchron : Chronological txs) {n : Nat} (hn : ∀ tx ∈ txs, tx.1.number.toNat ≤ n) :
    (after evm self deployer txs).votes.InOrder n ∧
      ∀ a (b : Uint256), valueAt 0 ((after evm self deployer txs).votes.trail a) b.toNat
        = (after evm self deployer (callsUpTo b txs)).votes.currentVotes a := by
  -- Induction on the run, last call first.
  induction txs using List.reverseRecOn generalizing n with
  | nil =>
      refine ⟨inOrder_deployed deployer n, ?_⟩
      intro a b
      exact valueAt_of_upTo ((inOrder_deployed deployer b.toNat a).2)
  | append_singleton txs tx ih =>
      obtain ⟨hbefore, -, hlast⟩ := List.pairwise_append.mp hchron
      have hle : ∀ x ∈ txs, x.1.number.toNat ≤ tx.1.number.toNat := fun x hx =>
        hlast x hx tx (List.mem_singleton_self _)
      obtain ⟨hord, hvalue⟩ := ih hbefore hle
      obtain ⟨hord', hsame⟩ := inOrder_step evm self hord
      have hstep : after evm self deployer (txs ++ [tx])
          = (after evm self deployer txs).step evm self tx := Run.exec_concat ..
      rw [hstep]
      refine ⟨hord'.mono (hn tx (by simp)), ?_⟩
      intro a b
      by_cases hb : tx.1.number ≤ b
      · -- the block is not over before this call: everything counts
        have hall : callsUpTo b (txs ++ [tx]) = txs ++ [tx] := by
          rw [callsUpTo, List.filter_eq_self]
          intro x hx
          have hx' : x.1.number.toNat ≤ b.toNat := by
            rcases List.mem_append.mp hx with hx | hx
            · exact (hle x hx).trans hb
            · rw [List.mem_singleton.mp hx]
              exact hb
          exact decide_eq_true hx'
        rw [hall, hstep]
        exact valueAt_of_upTo ((hord'.mono hb a).2)
      · have hprev : callsUpTo b (txs ++ [tx]) = callsUpTo b txs := by
          rw [callsUpTo, List.filter_append]
          simp [callsUpTo, hb]
        rw [hprev, hsame a b.toNat (by rw [BitVec.le_def] at hb; omega), hvalue a b]

/-- For calls made in the order of their blocks: at a block that is over,
    `getPriorVotes` returns the votes after the last call up to it, and so it does
    after whatever is called from then on. -/
theorem getPriorVotes_exact (evm : Evm) (self deployer : Address)
    (txs later : List (Msg × TokenCall)) (hchron : Chronological (txs ++ later)) {now next : Msg}
    (hnow : ∀ tx ∈ txs, tx.1.number.toNat ≤ now.number.toNat)
    (hlater : ∀ tx ∈ later, now.number.toNat ≤ tx.1.number.toNat)
    (hnext : now.number.toNat ≤ next.number.toNat)
    (a : Address) {b : Uint256} (hb : b < now.number) :
    ∃ v, (after evm self deployer (callsUpTo b txs)).votes.getCurrentVotes a = .ok v ∧
      (after evm self deployer txs).votes.getPriorVotes now a b = .ok v ∧
      (after evm self deployer (txs ++ later)).votes.getPriorVotes next a b = .ok v := by
  have hb' : b < next.number := by
    rw [BitVec.lt_def] at hb ⊢
    omega
  -- later calls are made in later blocks
  have hsame : callsUpTo b (txs ++ later) = callsUpTo b txs := by
    have hnone : later.filter (fun tx => decide (tx.1.number ≤ b)) = [] := by
      rw [List.filter_eq_nil_iff]
      intro tx htx
      have hge := hlater tx htx
      simp only [decide_eq_true_eq, BitVec.le_def]
      rw [BitVec.lt_def] at hb
      omega
    rw [callsUpTo, List.filter_append, hnone, List.append_nil, callsUpTo]
  obtain ⟨hord, hvalue⟩ := valueAt_after evm self deployer
    (List.pairwise_append.mp hchron).1 hnow
  have hend : ∀ tx ∈ txs ++ later, tx.1.number.toNat ≤ 2 ^ 256 := fun tx _ =>
    tx.1.number.isLt.le
  obtain ⟨hord', hvalue'⟩ := valueAt_after evm self deployer hchron hend
  refine ⟨(after evm self deployer (callsUpTo b txs)).votes.currentVotes a, Votes.lastVotes_eq,
    ?_, ?_⟩
  · rw [Votes.getPriorVotes_eq (hord a).1 hb, hvalue a b]
  · rw [Votes.getPriorVotes_eq (hord' a).1 hb', hvalue' a b, hsame]

/-- A call by `sender` in a block whose number is its time. -/
def callAt (sender : Address) (block : Uint256) (c : TokenCall) : Msg × TokenCall :=
  (⟨sender, block, block⟩, c)

/-- 11 gets 100 tokens and makes 12 its delegate. -/
def delegated : List (Msg × TokenCall) :=
  [callAt (.ofNat 10) 1 (.mint (.ofNat 11) 100), callAt (.ofNat 11) 2 (.delegate (.ofNat 12))]

theorem getPriorVotes_exact_delegated :
    ∃ v, (after sampleEvm (.ofNat 1) (.ofNat 10) (callsUpTo 3 delegated)).votes.getCurrentVotes
        (.ofNat 12) = .ok v ∧
      (after sampleEvm (.ofNat 1) (.ofNat 10) delegated).votes.getPriorVotes ⟨.ofNat 13, 4, 4⟩
        (.ofNat 12) 3 = .ok v ∧
      (after sampleEvm (.ofNat 1) (.ofNat 10) (delegated ++
        [callAt (.ofNat 10) 5 (.mint (.ofNat 11) 50)])).votes.getPriorVotes ⟨.ofNat 13, 6, 6⟩
        (.ofNat 12) 3 = .ok v :=
  getPriorVotes_exact sampleEvm (.ofNat 1) (.ofNat 10) delegated _
    (by unfold Chronological; decide) (by decide) (by decide) (by decide) (.ofNat 12) (by decide)

end DioneToken

end Dione.Contracts
