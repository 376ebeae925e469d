/-
  Dione.Blockchain.Integrity

  Chain integrity: up to the latest height every height holds a block that
  says so and that links to the block below.

  `ValidateBlock` ties the block's last hash to the current head but takes its
  height from the block, and `StoreBlock` skips it for height 0.  So a history
  keeps the chain intact exactly when every block it records claims the height
  right above the head (or replaces a genesis block nothing is built on).  The
  invariant behind that, `Linked`, ties the three parts of the store together:
  heights up to the latest are occupied and linked, those above are empty, and
  the hash index knows every block of the height index.
-/

import Dione.Blockchain.Commit
import Dione.Database.Memory

namespace Dione

open BlockChain

/-! ## Heights as numbers -/

theorem toNat_pred {h : UInt64} (h0 : 0 < h) : (h - 1).toNat + 1 = h.toNat := by
  have hpos : 0 < h.toNat := UInt64.lt_iff_toNat_lt.mp h0
  have hlt : h.toNat < 2 ^ 64 := h.toNat_lt
  have hone : (1 : UInt64).toNat = 1 := rfl
  rw [UInt64.toNat_sub, hone]
  omega

theorem toNat_succ {h l : UInt64} (hlt : h < l) : (h + 1).toNat = h.toNat + 1 := by
  have hlt' : h.toNat < l.toNat := UInt64.lt_iff_toNat_lt.mp hlt
  have hl : l.toNat < 2 ^ 64 := l.toNat_lt
  have hone : (1 : UInt64).toNat = 1 := rfl
  rw [UInt64.toNat_add, hone]
  omega

theorem pred_lt {h : UInt64} (h0 : 0 < h) : h - 1 < h := by
  have hpred := toNat_pred h0
  rw [UInt64.lt_iff_toNat_lt]
  omega

theorem lt_succ {h l : UInt64} (hlt : h < l) : h < h + 1 := by
  have hsucc := toNat_succ hlt
  rw [UInt64.lt_iff_toNat_lt]
  omega

theorem succ_le {h l : UInt64} (hlt : h < l) : h + 1 ≤ l := by
  have hsucc := toNat_succ hlt
  rw [UInt64.lt_iff_toNat_lt] at hlt
  rw [UInt64.le_iff_toNat_le]
  omega

/-! ## Linked stores -/

/-- The header of the block at a height. -/
def Store.headerAt (st : Store) (h : UInt64) : Option BlockHeader :=
  (st.byHeight h).bind Block.header

theorem Store.commit_headerAt (st : Store) {hd : BlockHeader} {b : Block}
    (hb : b.header = some hd) (h : UInt64) :
    (st.commit hd b).headerAt h = if h = hd.height then some hd else st.headerAt h := by
  rw [headerAt, commit_byHeight]
  split
  · exact hb
  · rfl

/-- Integrity of the chain below the latest height. -/
def Store.Intact (st : Store) : Prop :=
  ∀ latest, st.latest = some latest → ∀ h, 0 < h → h ≤ latest →
    ∃ hd prev, st.headerAt h = some hd ∧ hd.height = h ∧
      st.headerAt (h - 1) = some prev ∧ hd.lastHash = prev.hash

/-- The invariant of a history that keeps the chain intact. -/
structure Store.Linked (st : Store) (latest : UInt64) : Prop where
  latest_eq : st.latest = some latest
  occupied : ∀ h, h ≤ latest → ∃ hd, st.headerAt h = some hd ∧ hd.height = h
  links : ∀ h hd prev, 0 < h → h ≤ latest → st.headerAt h = some hd →
    st.headerAt (h - 1) = some prev → hd.lastHash = prev.hash
  beyond : ∀ h, latest < h → st.headerAt h = none
  indexed : ∀ h hd, st.headerAt h = some hd → st.byHash hd.hash ≠ none
  distinct : ∀ h h' hd hd', st.headerAt h = some hd → st.headerAt h' = some hd' →
    hd.hash = hd'.hash → h = h'

/-- A block of height `height` goes right on top of `latest`, or replaces a
    genesis block that is still the head. -/
def OnTop (height latest : UInt64) : Prop :=
  height ≠ 0 ∧ height = latest + 1 ∨ height = 0 ∧ latest = 0

instance (height latest : UInt64) : Decidable (OnTop height latest) :=
  inferInstanceAs (Decidable (_ ∨ _))

namespace OnTop

variable {height latest h : UInt64}

theorem toNat (htop : OnTop height latest) :
    height.toNat = latest.toNat + 1 ∨ height.toNat = 0 ∧ latest.toNat = 0 := by
  rcases htop with ⟨hne, rfl⟩ | ⟨rfl, rfl⟩
  · left
    -- a successor that is not 0 has not wrapped around
    have hne' : (latest + 1).toNat ≠ 0 := fun h0 => hne (UInt64.toNat_inj.mp h0)
    have hlt : latest.toNat < 2 ^ 64 := latest.toNat_lt
    have hone : (1 : UInt64).toNat = 1 := rfl
    rw [UInt64.toNat_add, hone] at hne' ⊢
    omega
  · exact .inr ⟨rfl, rfl⟩

theorem le (htop : OnTop height latest) : latest ≤ height := by
  have hnat := htop.toNat
  rw [UInt64.le_iff_toNat_le]
  omega

theorem le_of_ne (htop : OnTop height latest) (hle : h ≤ height) (hne : h ≠ height) :
    h ≤ latest := by
  have hnat := htop.toNat
  have hne' : h.toNat ≠ height.toNat := fun heq => hne (UInt64.toNat_inj.mp heq)
  rw [UInt64.le_iff_toNat_le] at hle ⊢
  omega

theorem pred_eq (htop : OnTop height latest) (h0 : 0 < height) : height - 1 = latest := by
  have hnat := htop.toNat
  have hpred := toNat_pred h0
  apply UInt64.toNat_inj.mp
  omega

end OnTop

namespace Store

variable {st : Store} {latest : UInt64} {hd : BlockHeader} {b : Block}

theorem Linked.intact (hl : st.Linked latest) : st.Intact := by
  intro l hlat h h0 hle
  obtain rfl : latest = l := by simpa [hl.latest_eq] using hlat
  obtain ⟨hd, hhd, hheight⟩ := hl.occupied h hle
  have hle' : h - 1 ≤ latest := UInt64.le_of_lt (UInt64.lt_of_lt_of_le (pred_lt h0) hle)
  obtain ⟨prev, hprev, -⟩ := hl.occupied (h - 1) hle'
  exact ⟨hd, prev, hhd, hheight, hprev, hl.links h hd prev h0 hle hhd hprev⟩

/-- A fresh block has another hash than every block at some height. -/
theorem Linked.hash_ne (hl : st.Linked latest) (hfresh : st.byHash hd.hash = none) {h : UInt64}
    {old : BlockHeader} (hold : st.headerAt h = some old) : old.hash ≠ hd.hash := by
  intro heq
  exact hl.indexed h old hold (heq ▸ hfresh)

theorem Linked.commit_indexed (hl : st.Linked latest) (hb : b.header = some hd) :
    ∀ h hd', (st.commit hd b).headerAt h = some hd' → (st.commit hd b).byHash hd'.hash ≠ none := by
  intro h hd' hat
  rw [commit_headerAt st hb] at hat
  rw [commit_byHash]
  split at hat
  · obtain rfl : hd = hd' := by simpa using hat
    simp
  · split
    · simp
    · exact hl.indexed h hd' hat

theorem Linked.commit_distinct (hl : st.Linked latest) (hb : b.header = some hd)
    (hfresh : st.byHash hd.hash = none) :
    ∀ h h' x x', (st.commit hd b).headerAt h = some x → (st.commit hd b).headerAt h' = some x' →
      x.hash = x'.hash → h = h' := by
  intro h h' x x' hx hx' heq
  rw [commit_headerAt st hb] at hx hx'
  split at hx <;> split at hx'
  · simp_all
  · obtain rfl : hd = x := by simpa using hx
    exact absurd heq.symm (hl.hash_ne hfresh hx')
  · obtain rfl : hd = x' := by simpa using hx'
    exact absurd heq (hl.hash_ne hfresh hx)
  · exact hl.distinct h h' x x' hx hx' heq

/-- A block on top of the head, linked to it, keeps the store linked. -/
theorem Linked.commit (hl : st.Linked latest) (hb : b.header = some hd)
    (hfresh : st.byHash hd.hash = none) (htop : OnTop hd.height latest)
    (hlink : hd.height ≠ 0 → ∀ head, st.headerAt latest = some head → hd.lastHash = head.hash) :
    (st.commit hd b).Linked hd.height := by
  have hat := commit_headerAt st hb
  refine ⟨?_, ?_, ?_, ?_, hl.commit_indexed hb, hl.commit_distinct hb hfresh⟩
  · rw [commit_latest hl.latest_eq]
    split
    · rfl
    · next hnlt =>
        rw [UInt64.le_antisymm htop.le (UInt64.not_lt.mp hnlt)]
  · intro h hle
    rw [hat]
    split
    · next heq => exact ⟨hd, rfl, heq.symm⟩
    · next hne => exact hl.occupied h (htop.le_of_ne hle hne)
  · intro h x prev h0 hle hx hprev
    rw [hat] at hx hprev
    -- what is below `h` was there before
    have hbelow : h - 1 ≠ hd.height := UInt64.ne_of_lt (UInt64.lt_of_lt_of_le (pred_lt h0) hle)
    rw [if_neg hbelow] at hprev
    split at hx
    · next heq =>
        obtain rfl : hd = x := by simpa using hx
        subst heq
        rw [htop.pred_eq h0] at hprev
        exact hlink (UInt64.pos_iff_ne_zero.mp h0) prev hprev
    · next hne => exact hl.links h x prev h0 (htop.le_of_ne hle hne) hx hprev
  · intro h hlt
    rw [hat, if_neg (UInt64.ne_of_lt hlt).symm]
    exact hl.beyond h (UInt64.lt_of_le_of_lt htop.le hlt)

/-- A block below the head breaks the link of the block above it. -/
theorem Linked.not_intact_of_lt (hl : st.Linked latest) (hb : b.header = some hd)
    (hfresh : st.byHash hd.hash = none) (hlt : hd.height < latest) :
    ¬ (st.commit hd b).Intact := by
  intro hint
  have hle : hd.height ≤ latest := UInt64.le_of_lt hlt
  have habove : hd.height < hd.height + 1 := lt_succ hlt
  have hpos : 0 < hd.height + 1 := UInt64.lt_of_le_of_lt UInt64.zero_le habove
  have hpred : hd.height + 1 - 1 = hd.height := UInt64.add_sub_cancel ..
  have hlat : (st.commit hd b).latest = some latest := by
    rw [commit_latest hl.latest_eq, if_neg (UInt64.not_lt.mpr hle)]
  -- the block above is the old one, and links to what is below it now
  obtain ⟨x, prev, hx, -, hprev, hlink⟩ := hint latest hlat (hd.height + 1) hpos (succ_le hlt)
  rw [commit_headerAt st hb, if_neg (UInt64.ne_of_lt habove).symm] at hx
  rw [commit_headerAt st hb, if_pos hpred] at hprev
  obtain rfl : hd = prev := by simpa using hprev
  obtain ⟨old, hold, -⟩ := hl.occupied hd.height hle
  have hwas : x.lastHash = old.hash :=
    hl.links (hd.height + 1) x old hpos (succ_le hlt) hx (by rwa [hpred])
  exact hl.hash_ne hfresh hold (hwas ▸ hlink)

/-- A block that replaces the head of a chain and links to it no longer links
    to the block below. -/
theorem Linked.not_intact_of_eq (hl : st.Linked latest) (hb : b.header = some hd)
    (heq : hd.height = latest) (h0 : latest ≠ 0)
    (hlink : ∀ head, st.headerAt latest = some head → hd.lastHash = head.hash) :
    ¬ (st.commit hd b).Intact := by
  intro hint
  have hpos : 0 < latest := UInt64.pos_iff_ne_zero.mpr h0
  have hne : latest - 1 ≠ latest := UInt64.ne_of_lt (pred_lt hpos)
  have hlat : (st.commit hd b).latest = some latest := by
    rw [commit_latest hl.latest_eq, heq, if_neg (UInt64.lt_irrefl latest)]
  obtain ⟨x, prev, hx, -, hprev, hxp⟩ := hint latest hlat latest hpos UInt64.le_rfl
  rw [commit_headerAt st hb, if_pos heq.symm] at hx
  rw [commit_headerAt st hb, heq, if_neg hne] at hprev
  obtain rfl : hd = x := by simpa using hx
  -- the old head and the block below it would have one hash
  obtain ⟨head, hhead, -⟩ := hl.occupied latest UInt64.le_rfl
  have hsame : latest = latest - 1 :=
    hl.distinct _ _ _ _ hhead hprev (by rw [← hlink head hhead, hxp])
  exact hne hsame.symm

/-- A block further up leaves a hole. -/
theorem Linked.not_intact_of_gt (hl : st.Linked latest) (hb : b.header = some hd)
    (hgt : latest < hd.height) (hne : hd.height ≠ latest + 1) :
    ¬ (st.commit hd b).Intact := by
  intro hint
  have habove : latest < latest + 1 := lt_succ hgt
  have hpos : 0 < latest + 1 := UInt64.lt_of_le_of_lt UInt64.zero_le habove
  have hlat : (st.commit hd b).latest = some hd.height := by
    rw [commit_latest hl.latest_eq, if_pos hgt]
  obtain ⟨x, -, hx, -⟩ := hint hd.height hlat (latest + 1) hpos (succ_le hgt)
  rw [commit_headerAt st hb, if_neg hne.symm, hl.beyond _ habove] at hx
  cases hx

theorem Linked.not_intact (hl : st.Linked latest) (hb : b.header = some hd)
    (hfresh : st.byHash hd.hash = none) (htop : ¬ OnTop hd.height latest)
    (hlink : hd.height ≠ 0 → ∀ head, st.headerAt latest = some head → hd.lastHash = head.hash) :
    ¬ (st.commit hd b).Intact := by
  by_cases heq : hd.height = latest
  · have h0 : latest ≠ 0 := fun h0 => htop (.inr ⟨heq.trans h0, h0⟩)
    exact hl.not_intact_of_eq hb heq h0 (hlink (heq ▸ h0))
  · rcases UInt64.lt_or_lt_of_ne heq with hlt | hgt
    · exact hl.not_intact_of_lt hb hfresh hlt
    · refine hl.not_intact_of_gt hb hgt fun hsucc => htop (.inl ⟨?_, hsucc⟩)
      exact UInt64.pos_iff_ne_zero.mp (UInt64.lt_of_le_of_lt UInt64.zero_le hgt)

end Store

theorem genesisChain_linked (B : Backend) : (B.view (genesisChain B)).Linked 0 := by
  rw [(genesisChain_spec B).2]
  have hat : ∀ h, (Store.empty.commit genesisHeader genesisBlock).headerAt h
      = if h = 0 then some genesisHeader else none :=
    Store.commit_headerAt Store.empty (b := genesisBlock) rfl
  refine ⟨rfl, ?_, ?_, ?_, ?_, ?_⟩
  · intro h hle
    obtain rfl : h = 0 := UInt64.le_zero_iff.mp hle
    exact ⟨genesisHeader, by simp [hat], rfl⟩
  · intro h hd prev h0 hle
    exact absurd (UInt64.lt_of_lt_of_le h0 hle) (UInt64.lt_irrefl 0)
  · intro h hlt
    rw [hat, if_neg (UInt64.ne_of_lt hlt).symm]
  · intro h hd hhd
    rw [hat] at hhd
    split at hhd
    · obtain rfl : genesisHeader = hd := by simpa using hhd
      simp [Store.commit_byHash]
    · cases hhd
  · intro h h' hd hd' hhd hhd' _
    rw [hat] at hhd hhd'
    split at hhd <;> split at hhd' <;> simp_all

/-! ## Histories -/

/-- Chain integrity as the node can observe it. -/
def ChainIntact {σ : Type} (db : Database σ) (s : σ) : Prop :=
  ∀ latest, db.getLatestBlockHeight s = .ok latest → ∀ h, 0 < h → h ≤ latest →
    ∃ b hd p prev, db.fetchBlockByHeight h s = .ok b ∧ b.header = some hd ∧ hd.height = h ∧
      db.fetchBlockByHeight (h - 1) s = .ok p ∧ p.header = some prev ∧ hd.lastHash = prev.hash

theorem Store.headerAt_eq_some {st : Store} {h : UInt64} {hd : BlockHeader} :
    st.headerAt h = some hd ↔ ∃ b, st.byHeight h = some b ∧ b.header = some hd := by
  simp [headerAt, Option.bind_eq_some_iff]

theorem chainIntact_iff {B : Backend} {s : B.σ} (hwf : B.Wf s) :
    ChainIntact B.db s ↔ (B.view s).Intact := by
  simp only [ChainIntact, Store.Intact, B.getLatestBlockHeight_eq hwf, orErr_eq_ok,
    B.fetchBlockByHeight_eq _ hwf, Store.headerAt_eq_some]
  constructor
  · intro h l hl k h0 hk
    obtain ⟨b, hd, p, prev, hb, hhd, hh, hp, hprev, hlink⟩ := h l hl k h0 hk
    exact ⟨hd, prev, ⟨b, hb, hhd⟩, hh, ⟨p, hp, hprev⟩, hlink⟩
  · intro h l hl k h0 hk
    obtain ⟨hd, prev, ⟨b, hb, hhd⟩, hh, ⟨p, hp, hprev⟩, hlink⟩ := h l hl k h0 hk
    exact ⟨b, hd, p, prev, hb, hhd, hh, hp, hprev, hlink⟩

/-- A recorded block that is not of height 0 links to the head. -/
theorem lastHash_of_recorded {B : Backend} {o : Oracles} {block : Block} {s : B.σ}
    {hd : BlockHeader} (hwf : B.Wf s) (hrec : recorded B.db o block s = some hd)
    (h0 : hd.height ≠ 0) {latest : UInt64} (hlat : (B.view s).latest = some latest)
    {head : BlockHeader} (hhead : (B.view s).headerAt latest = some head) :
    hd.lastHash = head.hash := by
  obtain ⟨hheader, -, hcheck, -⟩ := recorded_eq_some.mp hrec
  rw [checkBeforeStore, if_pos h0, wrapErr_eq_ok] at hcheck
  obtain ⟨hd', head', hacc⟩ := validateBlock_accepted hcheck
  obtain rfl : hd = hd' := by simpa [hheader] using hacc.header_eq
  obtain ⟨l, hl, hfetch⟩ := hacc.head_eq
  rw [B.getLatestBlockHeight_eq hwf, orErr_eq_ok, hlat] at hl
  obtain rfl : latest = l := by simpa using hl
  obtain ⟨b, hb, hbh⟩ := Store.headerAt_eq_some.mp hhead
  rw [B.fetchBlockHeaderByHeight_eq latest hwf, hb] at hfetch
  obtain rfl : head = head' := by simpa [orErr, hbh] using hfetch
  exact hacc.lastHash_eq

/-- The chain stays intact throughout a history of `StoreBlock` calls iff every
    block the history records goes on top of the head it finds. -/
theorem chainIntact_iff_recorded_onTop (B : Backend) (calls : List (Oracles × Block)) :
    Run.Always (storeStep B.db) (genesisChain B) calls (ChainIntact B.db) ↔
      Run.StepsMeet (storeStep B.db) (genesisChain B) calls fun s c =>
        ∀ hd latest, recorded B.db c.1 c.2 s = some hd →
          B.db.getLatestBlockHeight s = .ok latest → OnTop hd.height latest := by
  refine Run.always_iff_stepsMeet (I := fun s => B.Wf s ∧ ∃ l, (B.view s).Linked l)
    ?_ ?_ ?_ ⟨(genesisChain_spec B).1, 0, genesisChain_linked B⟩ calls
  · rintro s ⟨hwf, l, hl⟩
    exact (chainIntact_iff hwf).mpr hl.intact
  · rintro s ⟨o, block⟩ ⟨hwf, l, hl⟩ hok
    cases hrec : recorded B.db o block s with
    | none =>
        rw [storeStep, storeBlock_of_not_recorded B hwf hrec]
        exact ⟨hwf, l, hl⟩
    | some hd =>
        obtain ⟨hwf', hview⟩ := storeStep_of_recorded B (c := (o, block)) hwf hrec
        have htop : OnTop hd.height l :=
          hok hd l hrec (by rw [B.getLatestBlockHeight_eq hwf, hl.latest_eq]; rfl)
        rw [hview]
        exact ⟨hwf', hd.height, hl.commit (recorded_eq_some.mp hrec).1
          (fresh_of_recorded B hwf hrec) htop
          fun h0 head hhead => lastHash_of_recorded hwf hrec h0 hl.latest_eq hhead⟩
  · rintro s ⟨o, block⟩ ⟨hwf, l, hl⟩ hbad
    push Not at hbad
    obtain ⟨hd, l', hrec, hl', htop⟩ := hbad
    rw [B.getLatestBlockHeight_eq hwf, hl.latest_eq] at hl'
    obtain rfl : l = l' := by simpa [orErr] using hl'
    obtain ⟨hwf', hview⟩ := storeStep_of_recorded B (c := (o, block)) hwf hrec
    rw [chainIntact_iff hwf', hview]
    exact hl.not_intact (recorded_eq_some.mp hrec).1 (fresh_of_recorded B hwf hrec) htop
      fun h0 head hhead => lastHash_of_recorded hwf hrec h0 hl.latest_eq hhead

/-! ### A history that loses the chain -/

/-- Services that accept everything, with one miner holding the whole stake. -/
def Oracles.permissive : Oracles where
  extractPublicKey _ := .ok []
  verify _ _ _ := .ok true
  marshalBinary peer := .ok peer
  peerString _ := ""
  verifyProofUsing _ _ _ _ := .ok true
  keccak256 b := b
  sum256 _ := []
  getMinerStake _ := .ok 1000
  getTotalStake := .ok 1000
  entry round := .ok ⟨round, []⟩
  unmarshalTask _ := .error (.msg "no task")
  unmarshalBlock _ := .error (.msg "no block")
  validations _ := none

/-- A header on the genesis block that claims `height`. -/
def childHeader (hash : Bytes) (height : UInt64) : BlockHeader where
  timestamp := 1620845071
  height := height
  hash := hash
  lastHash := genesisHash
  lastHashProof := some ⟨some [], 0⟩
  proposer := some [1]
  proposerEth := .ofNat 1
  signature := []
  beaconEntry := ⟨1, []⟩
  electionProof := some ⟨20, [], 1⟩

/-- An empty block on the genesis block that claims `height`. -/
def childOfGenesis (hash : Bytes) (height : UInt64) : Block := ⟨some (childHeader hash height), []⟩

/-- A valid block that claims height 5 on top of the genesis block is stored:
    the latest height is then 5, and nothing is stored at height 1. -/
theorem not_chainIntact_of_height_five :
    ¬ Run.Always (storeStep Memory.database) (genesisChain Memory.backend)
        [(.permissive, childOfGenesis [1] 5)] (ChainIntact Memory.database) := by
  intro h
  have hlatest : Memory.getLatestBlockHeight (storeStep Memory.database
      (genesisChain Memory.backend) (.permissive, childOfGenesis [1] 5)) = .ok 5 := by
    decide +kernel
  obtain ⟨b, -, -, -, hb, -⟩ := h.final 5 hlatest 1 (by decide) (by decide)
  have hnone : Memory.fetchBlockByHeight 1 (storeStep Memory.database
      (genesisChain Memory.backend) (.permissive, childOfGenesis [1] 5))
        = .error .blockNotFound := by
    decide +kernel
  cases hnone.symm.trans hb

end Dione
