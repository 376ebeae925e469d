/-
  Dione.Sync.Serving

  Chains that a peer has mined from the genesis block, and what the peer makes of
  requests for their blocks.

    * `MinedChain`: the chains, built by storing what `MineBlock` returns;
    * `Store.Holds`: such a chain has its blocks at the heights 1, 2, 3, …;
    * `retrieveBlocks_holds`: so the requests of a sync return them in order, in
      whatever batches;
    * `retrieveBlocks_last`: unless the chain has reached the last height there is,
      where a request is never answered.
-/

import Dione.Sync.Initial

namespace Dione

open Guard BlockChain

/-! ## Mined chains -/

/-- `MinedChain B o bs s`: in the state `s` a peer has stored the blocks `bs` on the
    genesis block, each mined on the head it found and accepted by `ValidateBlock`.
    The miners may differ; the services answer all of them alike. -/
inductive MinedChain (B : Backend) (o : Oracles) : List Block → B.σ → Prop where
  | genesis : MinedChain B o [] (genesisChain B)
  | mine {bs : List Block} {s : B.σ} {latest : UInt64} {head : Option BlockHeader} {block : Block}
      {header : BlockHeader} (signer : Signer) (timestamp : Int64) (txs : List Transaction)
      (randomness : Bytes) (randomnessRound : UInt64) (chain : MinedChain B o bs s)
      (latest_eq : B.db.getLatestBlockHeight s = .ok latest)
      (head_eq : B.db.fetchBlockHeaderByHeight latest s = .ok head)
      (mined : mineBlock o signer timestamp head txs randomness randomnessRound = .ok (some block))
      (valid : validateBlock B.db o block s = .ok ())
      (isRecorded : recorded B.db o block s = some header) :
      MinedChain B o (bs ++ [block]) (storeBlock B.db o block s).state

/-- The highest height there is. -/
def lastHeight : UInt64 := 18446744073709551615

theorem le_lastHeight (h : UInt64) : h ≤ lastHeight := by
  have hlt := h.toNat_lt
  have hlast : lastHeight.toNat = 18446744073709551615 := rfl
  rw [UInt64.le_iff_toNat_le, hlast]
  omega

theorem toNat_ofNat_height {n : Nat} (h : n < 2 ^ 64) : (UInt64.ofNat n).toNat = n := by
  rw [UInt64.toNat_ofNat', Nat.mod_eq_of_lt h]

/-- The genesis block, and the blocks `bs` at the heights from 1 on. -/
structure Store.Holds (st : Store) (bs : List Block) : Prop where
  linked : st.Linked (UInt64.ofNat bs.length)
  byHeight_zero : st.byHeight 0 = some genesisBlock
  byHeight_eq : ∀ i b, bs[i]? = some b → st.byHeight (UInt64.ofNat (i + 1)) = some b

theorem Store.Holds.commit {st : Store} {bs : List Block} {last hd : BlockHeader} {b : Block}
    (hholds : st.Holds bs) (hlength : bs.length + 1 < 2 ^ 64) (hb : b.header = some hd)
    (hfresh : st.byHash hd.hash = none)
    (hlast : st.headerAt (UInt64.ofNat bs.length) = some last) (hcreated : CreatedOn last hd) :
    (st.commit hd b).Holds (bs ++ [b]) := by
  obtain ⟨last', hlast', hheight⟩ := hholds.linked.occupied _ UInt64.le_rfl
  obtain rfl : last = last' := Option.some.inj (hlast.symm.trans hlast')
  have hat : hd.height = UInt64.ofNat (bs.length + 1) := by
    rw [hcreated.height_eq, hheight, UInt64.ofNat_add]
    rfl
  -- the height has not wrapped around
  have hne : hd.height ≠ 0 := by
    intro h0
    have hzero := congrArg UInt64.toNat (hat.symm.trans h0)
    rw [toNat_ofNat_height hlength] at hzero
    simp at hzero
  have hsucc : hd.height = UInt64.ofNat bs.length + 1 := by
    rw [hcreated.height_eq, hheight]
  constructor
  · rw [List.length_append, List.length_singleton, ← hat]
    refine hholds.linked.commit hb hfresh (.inl ⟨hne, hsucc⟩) ?_
    intro _ head hhead
    obtain rfl : last = head := Option.some.inj (hlast.symm.trans hhead)
    exact hcreated.lastHash_eq
  · rw [commit_byHeight, if_neg hne.symm]
    exact hholds.byHeight_zero
  · intro i b' hi
    rw [commit_byHeight]
    rcases Nat.lt_trichotomy i bs.length with hlt | rfl | hgt
    · rw [List.getElem?_append_left hlt] at hi
      have hother : UInt64.ofNat (i + 1) ≠ hd.height := by
        intro heq
        have hnat := congrArg UInt64.toNat (heq.trans hat)
        rw [toNat_ofNat_height (by omega), toNat_ofNat_height hlength] at hnat
        omega
      rw [if_neg hother]
      exact hholds.byHeight_eq i b' hi
    · rw [if_pos hat.symm]
      simpa using hi
    · have hout : (bs ++ [b]).length ≤ i := by
        rw [List.length_append, List.length_singleton]
        omega
      rw [List.getElem?_eq_none hout] at hi
      cases hi

section Mined

variable {B : Backend} {o : Oracles} {bs : List Block} {s : B.σ}

/-- A block mined in the state `s`, on the header `last`. -/
structure MinedOn (B : Backend) (o : Oracles) (s : B.σ) (block : Block) (latest : UInt64)
    (last header : BlockHeader) : Prop where
  latest_eq : (B.view s).latest = some latest
  last_eq : (B.view s).headerAt latest = some last
  created : CreatedOn last header
  valid : validateBlock B.db o block s = .ok ()
  isRecorded : recorded B.db o block s = some header

theorem minedOn_of_mineBlock (hwf : B.Wf s) {latest : UInt64} {head : Option BlockHeader}
    {block : Block} {header : BlockHeader} {signer : Signer} {timestamp : Int64}
    {txs : List Transaction} {randomness : Bytes} {randomnessRound : UInt64}
    (hlatest : B.db.getLatestBlockHeight s = .ok latest)
    (hhead : B.db.fetchBlockHeaderByHeight latest s = .ok head)
    (hmine : mineBlock o signer timestamp head txs randomness randomnessRound = .ok (some block))
    (hvalid : validateBlock B.db o block s = .ok ())
    (hrec : recorded B.db o block s = some header) :
    ∃ last, MinedOn B o s block latest last header := by
  obtain ⟨last, header', rfl, hheader', hcreated⟩ := createdOn_of_mineBlock hmine
  obtain rfl : header = header' :=
    Option.some.inj ((recorded_eq_some.mp hrec).1.symm.trans hheader')
  rw [B.getLatestBlockHeight_eq hwf, orErr_eq_ok] at hlatest
  rw [B.fetchBlockHeaderByHeight_eq latest hwf, orErr_eq_ok, Option.map_eq_some_iff] at hhead
  exact ⟨last, hlatest, Store.headerAt_eq_some.mpr hhead, hcreated, hvalid, hrec⟩

/-- A mined chain holds its blocks, unless the heights have run out. -/
theorem MinedChain.holds (h : MinedChain B o bs s) : B.Wf s ∧
    (bs.length < 2 ^ 64 → (B.view s).Holds bs) ∧
    (2 ^ 64 ≤ bs.length + 1 → (B.view s).latest = some lastHeight) := by
  induction h with
  | genesis =>
      refine ⟨(genesisChain_spec B).1, fun _ => ⟨genesisChain_linked B, ?_, ?_⟩, ?_⟩
      · rw [(genesisChain_spec B).2]
        rfl
      · intro i b hi
        simp at hi
      · intro hlength
        simp at hlength
  | mine signer timestamp txs randomness randomnessRound chain hlatest hhead hmine hvalid hrec ih =>
      rename_i bs s latest head block header
      obtain ⟨hwf, hholds, htop⟩ := ih
      obtain ⟨last, hmined⟩ := minedOn_of_mineBlock hwf hlatest hhead hmine hvalid hrec
      obtain ⟨s', pub, hst, hwf', hview⟩ := storeBlock_of_recorded B hwf hrec
      rw [hst]
      show B.Wf s' ∧ (_ → (B.view s').Holds _) ∧ (_ → (B.view s').latest = _)
      have hafter : bs.length + 1 < 2 ^ 64 → (B.view s').Holds (bs ++ [block]) := by
        intro hlength
        have hbefore := hholds (by omega)
        obtain rfl : UInt64.ofNat bs.length = latest :=
          Option.some.inj (hbefore.linked.latest_eq.symm.trans hmined.latest_eq)
        rw [hview]
        exact hbefore.commit hlength (recorded_eq_some.mp hrec).1 (fresh_of_recorded B hwf hrec)
          hmined.last_eq hmined.created
      rw [List.length_append, List.length_singleton]
      refine ⟨hwf', hafter, ?_⟩
      intro hlength
      by_cases hbefore : 2 ^ 64 ≤ bs.length + 1
      · -- the last height is taken already, and nothing is higher
        obtain rfl : lastHeight = latest :=
          Option.some.inj ((htop hbefore).symm.trans hmined.latest_eq)
        rw [hview, Store.commit_latest hmined.latest_eq,
          if_neg (UInt64.not_lt.mpr (le_lastHeight _))]
      · have hcount : (bs ++ [block]).length = 18446744073709551615 := by
          rw [List.length_append, List.length_singleton]
          omega
        rw [(hafter (by omega)).linked.latest_eq, hcount]
        rfl

end Mined

/-! ## What the peer serves -/

section Serve

variable {B : Backend} {s : B.σ} {bs : List Block}

theorem retrieve_holds (hwf : B.Wf s) (hholds : (B.view s).Holds bs) {k : Nat} {b : Block}
    (hb : bs[k]? = some b) (reply : GetRangeOfBlocksReply) :
    NetworkService.retrieve B.db s (UInt64.ofNat (k + 1)) reply
      = { reply with blocks := reply.blocks ++ [b] } := by
  rw [NetworkService.retrieve, B.fetchBlockByHeight_eq _ hwf, hholds.byHeight_eq k b hb]
  rfl

/-- The loop over the heights `k + 1` to `k + m` collects the blocks there. -/
theorem rangeLoop_holds (hwf : B.Wf s) (hholds : (B.view s).Holds bs)
    (hlength : bs.length + 1 < 2 ^ 64) {m k : Nat} (hend : k + m ≤ bs.length)
    (reply : GetRangeOfBlocksReply) :
    NetworkService.rangeLoop B.db s (UInt64.ofNat (k + m)) (m + 1) (UInt64.ofNat (k + 1)) reply
      = some { reply with blocks := reply.blocks ++ (bs.drop k).take m } := by
  have hle : UInt64.ofNat (k + 1) ≤ UInt64.ofNat (k + m) ↔ k + 1 ≤ k + m := by
    rw [UInt64.le_iff_toNat_le, toNat_ofNat_height (by omega), toNat_ofNat_height (by omega)]
  -- on the number of heights left; the loop is one height further each time
  induction m generalizing k reply with
  | zero =>
      rw [NetworkService.rangeLoop, if_neg (by rw [hle]; omega)]
      simp
  | succ m ih =>
      have hlt : k < bs.length := by omega
      have hb : bs[k]? = some bs[k] := List.getElem?_eq_getElem hlt
      have hnext : UInt64.ofNat (k + 1) + 1 = UInt64.ofNat (k + 1 + 1) := by
        rw [UInt64.ofNat_add (k + 1)]
        rfl
      have hsame : k + (m + 1) = k + 1 + m := by omega
      rw [NetworkService.rangeLoop, if_pos (hle.mpr (by omega)), retrieve_holds hwf hholds hb,
        hnext, hsame, ih (by omega), List.drop_eq_getElem_cons hlt, List.take_succ_cons]
      · simp
      · rw [UInt64.le_iff_toNat_le, toNat_ofNat_height (by omega), toNat_ofNat_height (by omega)]

theorem getRangeOfBlocks_holds (hwf : B.Wf s) (hholds : (B.view s).Holds bs)
    (hlength : bs.length + 1 < 2 ^ 64) {m k : Nat} (hpos : 0 < m) (hmax : m ≤ 500)
    (hend : k + m ≤ bs.length) :
    NetworkService.getRangeOfBlocks B.db s (UInt64.ofNat (k + 1)) (UInt64.ofNat (k + m))
      = some (.ok ⟨(bs.drop k).take m, []⟩) := by
  have hfrom := toNat_ofNat_height (n := k + 1) (by omega)
  have hto := toNat_ofNat_height (n := k + m) (by omega)
  have hle : UInt64.ofNat (k + 1) ≤ UInt64.ofNat (k + m) := by
    rw [UInt64.le_iff_toNat_le, hfrom, hto]
    omega
  have hcount : (UInt64.ofNat (k + m) - UInt64.ofNat (k + 1)).toNat = m - 1 := by
    rw [UInt64.toNat_sub_of_le _ _ hle, hfrom, hto]
    omega
  have hlimit : ¬ UInt64.ofNat (k + m) - UInt64.ofNat (k + 1) > maxBlockCountForRetrieving := by
    have h500 : maxBlockCountForRetrieving.toNat = 500 := rfl
    rw [gt_iff_lt, UInt64.lt_iff_toNat_lt, hcount, h500]
    omega
  have hfuel : m - 1 + 2 = m + 1 := by omega
  rw [NetworkService.getRangeOfBlocks, if_neg (UInt64.not_lt.mpr hle), if_neg hlimit, hcount, hfuel,
    rangeLoop_holds hwf hholds hlength hend]
  rfl

/-- The batches together are all blocks after the height `k`. -/
theorem retrieveBlocks_holds (hwf : B.Wf s) (hholds : (B.view s).Holds bs)
    (hlength : bs.length + 1 < 2 ^ 64) {fuel n k : Nat} (hfuel : n < fuel)
    (hend : k + n = bs.length) (received : List Block) :
    Sync.retrieveBlocks (NetworkService.serve B.db s) fuel (UInt64.ofNat n) (UInt64.ofNat k)
        received
      = some (.ok (received ++ bs.drop k)) := by
  -- a batch takes at least one block, so the fuel lasts
  induction fuel generalizing n k received with
  | zero => omega
  | succ fuel ih =>
      have hn := toNat_ofNat_height (n := n) (by omega)
      have h500 : maxBlockCountForRetrieving.toNat = 500 := rfl
      by_cases hzero : n = 0
      · subst hzero
        have hdrop : bs.drop k = [] := List.drop_eq_nil_iff.mpr (by omega)
        rw [Sync.retrieveBlocks, if_neg (by decide), hdrop, List.append_nil]
      · have hpos : UInt64.ofNat n > 0 := by
          have h0 : (0 : UInt64).toNat = 0 := rfl
          rw [gt_iff_lt, UInt64.lt_iff_toNat_lt, hn, h0]
          omega
        have hadded : (if UInt64.ofNat n < maxBlockCountForRetrieving then UInt64.ofNat n
            else maxBlockCountForRetrieving) = UInt64.ofNat (min n 500) := by
          have hiff : UInt64.ofNat n < maxBlockCountForRetrieving ↔ n < 500 := by
            rw [UInt64.lt_iff_toNat_lt, hn, h500]
          by_cases hsmall : n < 500
          · rw [if_pos (hiff.mpr hsmall), Nat.min_eq_left (by omega)]
          · rw [if_neg (hiff.not.mpr hsmall), Nat.min_eq_right (by omega)]
            rfl
        have hreply : (NetworkService.serve B.db s).getRangeOfBlocks (UInt64.ofNat k + 1)
            (UInt64.ofNat k + UInt64.ofNat (min n 500))
            = some (.ok ⟨(bs.drop k).take (min n 500), []⟩) := by
          have hbatch := getRangeOfBlocks_holds (m := min n 500) (k := k) hwf hholds hlength
            (by omega) (by omega) (by omega)
          rwa [UInt64.ofNat_add k 1, UInt64.ofNat_add] at hbatch
        have hrest : (bs.drop k).take (min n 500) ++ bs.drop (k + min n 500) = bs.drop k := by
          rw [← List.drop_drop, List.take_append_drop]
        rw [Sync.retrieveBlocks, if_pos hpos]
        simp only [hadded, hreply]
        rw [← UInt64.ofNat_add, ← UInt64.ofNat_sub (Nat.min_le_left n 500),
          ih (n := n - min n 500) (k := k + min n 500) (by omega) (by omega),
          List.append_assoc, hrest]

/-- The loop up to the last height never stops: its counter wraps around. -/
theorem rangeLoop_last {σ : Type} (db : Database σ) (s : σ) (fuel : Nat) (i : UInt64)
    (reply : GetRangeOfBlocksReply) :
    NetworkService.rangeLoop db s lastHeight fuel i reply = none := by
  induction fuel generalizing i reply with
  | zero => rfl
  | succ fuel ih =>
      rw [NetworkService.rangeLoop, if_pos (le_lastHeight i)]
      exact ih _ _

theorem getRangeOfBlocks_last {σ : Type} (db : Database σ) (s : σ) (i : UInt64)
    (reply : GetRangeOfBlocksReply) :
    NetworkService.getRangeOfBlocks db s i lastHeight ≠ some (.ok reply) := by
  unfold NetworkService.getRangeOfBlocks
  split
  · simp
  · split
    · simp
    · rw [rangeLoop_last]
      simp

/-- A node never gets the blocks of a peer whose heights have run out. -/
theorem retrieveBlocks_last {σ : Type} (db : Database σ) (s : σ) {fuel : Nat}
    {heightCount lastTo : UInt64} (hpos : heightCount > 0)
    (hend : lastTo + heightCount = lastHeight) (received blocks : List Block) :
    Sync.retrieveBlocks (NetworkService.serve db s) fuel heightCount lastTo received
      ≠ some (.ok blocks) := by
  induction fuel generalizing heightCount lastTo received with
  | zero => simp [Sync.retrieveBlocks]
  | succ fuel ih =>
      rw [Sync.retrieveBlocks, if_pos hpos]
      by_cases hle : heightCount ≤ maxBlockCountForRetrieving
      · -- the last batch
        have hadded : (if heightCount < maxBlockCountForRetrieving then heightCount
            else maxBlockCountForRetrieving) = heightCount := by
          split
          · rfl
          · next hnlt => exact UInt64.le_antisymm (UInt64.not_lt.mp hnlt) hle
        simp only [hadded, hend]
        have hreply : ∀ reply, (NetworkService.serve db s).getRangeOfBlocks (lastTo + 1) lastHeight
            ≠ some (.ok reply) := getRangeOfBlocks_last db s (lastTo + 1)
        split
        · simp
        · simp
        · next reply heq => exact absurd heq (hreply reply)
      · have hgt : maxBlockCountForRetrieving < heightCount := UInt64.not_le.mp hle
        have hadded : (if heightCount < maxBlockCountForRetrieving then heightCount
            else maxBlockCountForRetrieving) = maxBlockCountForRetrieving := by
          rw [if_neg (UInt64.not_lt.mpr (UInt64.le_of_lt hgt))]
        simp only [hadded]
        split
        · simp
        · simp
        · refine ih ?_ ?_ _
          · rw [gt_iff_lt, UInt64.lt_iff_toNat_lt, UInt64.toNat_sub_of_le _ _ (UInt64.le_of_lt hgt)]
            rw [UInt64.lt_iff_toNat_lt] at hgt
            have h0 : (0 : UInt64).toNat = 0 := rfl
            omega
          · rw [UInt64.add_assoc, UInt64.add_comm maxBlockCountForRetrieving, UInt64.sub_add_cancel,
              hend]

end Serve

end Dione
