/-
  Dione.Miner.History

  What the hash of a block says about the blocks before it.

  `CreateBlock` puts the hashes of the transactions, the hash of the last block and the
  time under the block hash.  So for chains of mined blocks the hash of the newest block
  determines all of them: how many there are, their heights and times, and their
  transactions in order.  Who made them is not determined, and neither is anything about
  blocks that `ValidateBlock` accepts from somebody who does not use `CreateBlock`.

  Of the hash it takes that among the strings hashed for the two chains no two have the
  same digest, and that none has the digest the trees are filled up with.
-/

import Dione.Blockchain.Identity
import Dione.Sync.Serving
import Mathlib.Data.List.Forall2

namespace Dione

open Guard Text BlockChain

/-! ## Sealed blocks -/

/-- The block hash is the root over the transactions, the hash of `last` and the time. -/
structure Sealed (o : Oracles) (last : BlockHeader) (block : Block) (header : BlockHeader)
    (txs : List Transaction) : Prop where
  header_eq : block.header = some header
  data_eq : block.data = txs.map some
  created : CreatedOn last header
  hash_eq : header.hash = merkleRoot o (merkleHashes last.hash txs header.timestamp)
  valid : ∀ tx ∈ txs, o.keccak256 (textBytes (hexEncode tx.data)) = tx.hash

/-- Blocks, the oldest first, sealed one on the other from the genesis block on; the newest
    has the header `tip`. -/
inductive SealedChain (o : Oracles) : List Block → BlockHeader → Prop where
  | genesis : SealedChain o [] genesisHeader
  | extend {bs : List Block} {last header : BlockHeader} {block : Block} {txs : List Transaction}
      (chain : SealedChain o bs last) (isSealed : Sealed o last block header txs) :
      SealedChain o (bs ++ [block]) header

/-- The strings hashed for a block. -/
def Block.hashed (o : Oracles) (b : Block) : List Bytes :=
  match b.header with
  | none => []
  | some header =>
    let txs := b.data.filterMap id
    let data := merkleHashes header.lastHash txs header.timestamp
    Merkle.leafInputs true data
      ++ Merkle.pairsAbove o.keccak256 (Merkle.depth data) (merkleLeaves o data)
      ++ txs.map fun tx => textBytes (hexEncode tx.data)

/-- What two blocks with the same hash have in common. -/
structure Block.SameRecord (b b' : Block) : Prop where
  header : ∃ header header', b.header = some header ∧ b'.header = some header' ∧
    header.height = header'.height ∧ header.hash = header'.hash ∧
    header.lastHash = header'.lastHash ∧ header.timestamp = header'.timestamp
  data : b.data.map (Option.map fun tx => (tx.hash, tx.data))
    = b'.data.map (Option.map fun tx => (tx.hash, tx.data))

section Encoding

theorem toNat_toUInt8_shiftRight (n : UInt64) {s : UInt64} (hs : s.toNat < 64) :
    (n >>> s).toUInt8.toNat = n.toNat / 2 ^ s.toNat % 256 := by
  rw [UInt64.toNat_toUInt8, UInt64.toNat_shiftRight, Nat.mod_eq_of_lt hs,
    Nat.shiftRight_eq_div_pow]

theorem bigEndian64_injective : Function.Injective bigEndian64 := by
  intro m n h
  have hbyte : ∀ s ∈ ([56, 48, 40, 32, 24, 16, 8, 0] : List UInt64),
      m.toNat / 2 ^ s.toNat % 256 = n.toNat / 2 ^ s.toNat % 256 := by
    intro s hs
    have hlt : s.toNat < 64 := by
      simp only [List.mem_cons, List.not_mem_nil, or_false] at hs
      rcases hs with rfl | rfl | rfl | rfl | rfl | rfl | rfl | rfl <;> decide
    rw [← toNat_toUInt8_shiftRight m hlt, ← toNat_toUInt8_shiftRight n hlt]
    exact congrArg UInt8.toNat (List.map_inj_left.mp h s hs)
  -- one byte more from the lowest up
  have hstep : ∀ s, m.toNat % 2 ^ s = n.toNat % 2 ^ s →
      m.toNat / 2 ^ s % 256 = n.toNat / 2 ^ s % 256 →
      m.toNat % 2 ^ (s + 8) = n.toNat % 2 ^ (s + 8) := by
    intro s hlow hhigh
    rw [Nat.pow_add, Nat.mod_mul, Nat.mod_mul, hlow]
    exact congrArg (n.toNat % 2 ^ s + 2 ^ s * ·) hhigh
  simp only [List.forall_mem_cons, UInt64.reduceToNat] at hbyte
  obtain ⟨h56, h48, h40, h32, h24, h16, h8, h0, -⟩ := hbyte
  have hall : m.toNat % 2 ^ 64 = n.toNat % 2 ^ 64 :=
    hstep 56 (hstep 48 (hstep 40 (hstep 32 (hstep 24 (hstep 16 (hstep 8 (hstep 0
      (by rw [Nat.pow_zero, Nat.mod_one, Nat.mod_one]) h0) h8) h16) h24) h32) h40) h48) h56
  rw [Nat.mod_eq_of_lt m.toNat_lt, Nat.mod_eq_of_lt n.toNat_lt] at hall
  exact UInt64.toNat_inj.mp hall

theorem littleEndian64_injective : Function.Injective littleEndian64 := by
  intro m n h
  exact congrArg Int64.ofUInt64 (bigEndian64_injective (List.reverse_injective h))

/-- None of the data of a block is as long as two nodes less an index. -/
theorem length_merkleHashes {last : Bytes} {txs : List Transaction} {timestamp : Int64}
    (hlast : last.length ≤ 32) (htxs : ∀ tx ∈ txs, tx.hash.length = 32) :
    ∀ b ∈ Merkle.leafInputs true (merkleHashes last txs timestamp), b.length ≠ 2 * 32 := by
  intro b hb
  obtain ⟨i, hi, rfl⟩ := List.mem_mapIdx.mp hb
  have hmem := List.getElem_mem hi
  have hle : (merkleHashes last txs timestamp)[i].length ≤ 32 := by
    rcases List.mem_append.mp hmem with htx | hrest
    · obtain ⟨tx, htx, heq⟩ := List.mem_map.mp htx
      rw [← heq, htxs tx htx]
    · simp only [List.mem_cons, List.not_mem_nil, or_false] at hrest
      rcases hrest with heq | heq
      · rw [heq]
        exact hlast
      · rw [heq]
        simp [littleEndian64, bigEndian64]
  simp only [Merkle.leafInput, if_true, List.length_append, Merkle.indexBytes, List.length_cons,
    List.length_nil]
  omega

end Encoding

/-! ## One hash, one history -/

section Chains

variable {o : Oracles} {S : Set Bytes} {last header : BlockHeader} {block : Block}
  {txs : List Transaction}

theorem Sealed.hashed_eq (h : Sealed o last block header txs) : block.hashed o
    = Merkle.leafInputs true (merkleHashes last.hash txs header.timestamp)
      ++ Merkle.pairsAbove o.keccak256
        (Merkle.depth (merkleHashes last.hash txs header.timestamp))
        (merkleLeaves o (merkleHashes last.hash txs header.timestamp))
      ++ txs.map fun tx => textBytes (hexEncode tx.data) := by
  have htxs : block.data.filterMap id = txs := by
    rw [h.data_eq, List.filterMap_map]
    exact List.filterMap_some
  simp only [Block.hashed, h.header_eq, htxs, h.created.lastHash_eq]

theorem Sealed.hashedIn (h : Sealed o last block header txs)
    (hS : Merkle.Binding o.keccak256 32 emptyHash S) (hlast : last.hash.length ≤ 32)
    (hin : ∀ b ∈ block.hashed o, b ∈ S) : Merkle.HashedIn o.keccak256 32 emptyHash true S
      (merkleHashes last.hash txs header.timestamp) := by
  rw [h.hashed_eq] at hin
  obtain ⟨htree, -⟩ := List.forall_mem_append.mp hin
  obtain ⟨hleaf, habove⟩ := List.forall_mem_append.mp htree
  refine ⟨?_, hleaf, ?_, habove⟩
  · simp [merkleHashes]
  · apply length_merkleHashes hlast
    intro tx htx
    rw [← h.valid tx htx]
    exact hS.length _

theorem Sealed.length_hash (h : Sealed o last block header txs)
    (hS : Merkle.Binding o.keccak256 32 emptyHash S) : header.hash.length = 32 := by
  rw [h.hash_eq]
  exact hS.length_root (fun x hx => hS.length_of_mem_leaves hx) (Merkle.length_leaves _ _)

/-- The transactions of a sealed block are determined by their payloads. -/
theorem Sealed.records_eq (h : Sealed o last block header txs) :
    block.data.map (Option.map fun tx => (tx.hash, tx.data)) = (txs.map (·.data)).map fun data =>
      some (o.keccak256 (textBytes (hexEncode data)), data) := by
  rw [h.data_eq, List.map_map, List.map_map]
  apply List.map_congr_left
  intro tx htx
  simp only [Function.comp_apply, Option.map_some, h.valid tx htx]

theorem Sealed.hashes_eq (h : Sealed o last block header txs) :
    (txs.map fun tx => textBytes (hexEncode tx.data)).map o.keccak256 = txs.map (·.hash) := by
  rw [List.map_map]
  exact List.map_congr_left h.valid

/-- Two blocks with one hash are sealed on one hash, with the same data. -/
theorem Sealed.same {last' header' : BlockHeader} {block' : Block} {txs' : List Transaction}
    (h : Sealed o last block header txs) (h' : Sealed o last' block' header' txs')
    (hS : Merkle.Binding o.keccak256 32 emptyHash S) (hlast : last.hash.length ≤ 32)
    (hlast' : last'.hash.length ≤ 32) (hin : ∀ b ∈ block.hashed o, b ∈ S)
    (hin' : ∀ b ∈ block'.hashed o, b ∈ S) (hhash : header.hash = header'.hash) :
    last.hash = last'.hash ∧ header.timestamp = header'.timestamp ∧
      block.data.map (Option.map fun tx => (tx.hash, tx.data))
        = block'.data.map (Option.map fun tx => (tx.hash, tx.data)) := by
  rw [h.hash_eq, h'.hash_eq] at hhash
  have hdata := hS.data_eq_of_root_eq (h.hashedIn hS hlast hin) (h'.hashedIn hS hlast' hin') hhash
  obtain ⟨hhashes, hrest⟩ := List.append_inj' hdata rfl
  simp only [List.cons.injEq, and_true] at hrest
  refine ⟨hrest.1, littleEndian64_injective hrest.2, ?_⟩
  -- a transaction hash is the hash of the payload
  have hpayloads : txs.map (fun tx => textBytes (hexEncode tx.data))
      = txs'.map fun tx => textBytes (hexEncode tx.data) := by
    rw [h.hashed_eq] at hin
    rw [h'.hashed_eq] at hin'
    apply Merkle.eq_of_map_eq hS.injOn (List.forall_mem_append.mp hin).2
      (List.forall_mem_append.mp hin').2
    rw [h.hashes_eq, h'.hashes_eq, hhashes]
  have hdata : txs.map (·.data) = txs'.map (·.data) := by
    apply List.map_injective_iff.mpr textBytes_hexEncode_injective
    rw [List.map_map, List.map_map]
    exact hpayloads
  rw [h.records_eq, h'.records_eq, hdata]

theorem SealedChain.length_hash {bs : List Block} {tip : BlockHeader} (h : SealedChain o bs tip)
    (hS : Merkle.Binding o.keccak256 32 emptyHash S) : tip.hash.length ≤ 32 := by
  cases h with
  | genesis => decide
  | extend _ isSealed => exact (isSealed.length_hash hS).le

/-- The hash of the newest block determines the chain. -/
theorem SealedChain.same {bs bs' : List Block} {tip tip' : BlockHeader} (h : SealedChain o bs tip)
    (h' : SealedChain o bs' tip') (hS : Merkle.Binding o.keccak256 32 emptyHash S)
    (hin : ∀ b ∈ bs, ∀ x ∈ b.hashed o, x ∈ S) (hin' : ∀ b ∈ bs', ∀ x ∈ b.hashed o, x ∈ S)
    (hhash : tip.hash = tip'.hash) :
    tip.height = tip'.height ∧ List.Forall₂ Block.SameRecord bs bs' := by
  induction h generalizing bs' tip' with
  | genesis =>
      cases h' with
      | genesis => exact ⟨rfl, .nil⟩
      | extend _ isSealed' =>
          -- a block hash is longer than that of the genesis block
          have hlength := isSealed'.length_hash hS
          rw [← hhash] at hlength
          exact absurd hlength (by decide)
  | extend chain isSealed ih =>
      cases h' with
      | genesis =>
          have hlength := isSealed.length_hash hS
          rw [hhash] at hlength
          exact absurd hlength (by decide)
      | extend chain' isSealed' =>
          obtain ⟨hbefore, hhere⟩ := List.forall_mem_append.mp hin
          obtain ⟨hbefore', hhere'⟩ := List.forall_mem_append.mp hin'
          obtain ⟨hlast, htime, hdata⟩ := isSealed.same isSealed' hS (chain.length_hash hS)
            (chain'.length_hash hS) (hhere _ (List.mem_singleton_self _))
            (hhere' _ (List.mem_singleton_self _)) hhash
          obtain ⟨hheight, hblocks⟩ := ih chain' hbefore hbefore' hlast
          have hheight' := isSealed.created.height_eq
          rw [hheight, ← isSealed'.created.height_eq] at hheight'
          refine ⟨hheight', List.rel_append hblocks (.cons ⟨⟨_, _, isSealed.header_eq,
            isSealed'.header_eq, hheight', hhash, ?_, htime⟩, hdata⟩ .nil)⟩
          rw [isSealed.created.lastHash_eq, isSealed'.created.lastHash_eq, hlast]

end Chains

/-! ## Mined chains -/

section Mined

variable {B : Backend} {o : Oracles} {bs : List Block} {s : B.σ}

theorem map_proveTxs {α : Type} {data : List Bytes} {txs txs' : List Transaction}
    (f : Transaction → α) (hf : ∀ tx proof, f { tx with merkleProof := proof } = f tx)
    (h : proveTxs o data txs = .ok txs') : txs'.map f = txs.map f := by
  induction txs generalizing txs' with
  | nil =>
      obtain rfl := Except.ok.inj h
      rfl
  | cons tx txs ih =>
      simp only [proveTxs, bind_eq_ok, pure_eq_ok_iff] at h
      obtain ⟨proof, -, rest, hrest, rfl⟩ := h
      rw [List.map_cons, List.map_cons, hf, ih hrest]

theorem merkleHashes_congr {txs txs' : List Transaction}
    (h : txs'.map (·.hash) = txs.map (·.hash)) (lastHash : Bytes) (timestamp : Int64) :
    merkleHashes lastHash txs' timestamp = merkleHashes lastHash txs timestamp := by
  rw [merkleHashes, merkleHashes, h]

/-- A block that `CreateBlock` has made and `ValidateBlock` accepts is sealed. -/
theorem sealed_of_createBlock {σ : Type} {db : Database σ} {state : σ} {signer : Signer}
    {timestamp : Int64} {last : BlockHeader} {txs : List Transaction} {eproof : ElectionProof}
    {block : Block} (hcreate : createBlock o signer timestamp last txs eproof = .ok block)
    (hvalid : validateBlock db o block state = .ok ()) :
    ∃ header txs', Sealed o last block header txs' := by
  obtain ⟨_, _, hacc⟩ := validateBlock_accepted hvalid
  have haccepted := hacc.txs
  simp only [createBlock, bind_eq_ok, pure_eq_ok_iff] at hcreate
  obtain ⟨sig, -, proof, -, txs', htxs', rfl⟩ := hcreate
  refine ⟨_, txs', rfl, rfl, ⟨rfl, rfl⟩, ?_, ?_⟩
  · -- the proofs are not under the hash
    have hhashes := map_proveTxs (·.hash) (fun _ _ => rfl) htxs'
    rw [merkleHashes_congr hhashes]
  · intro tx htx
    obtain ⟨tx₁, heq, hok⟩ := haccepted (some tx) (List.mem_map_of_mem htx)
    obtain rfl := Option.some.inj heq
    exact hok.hashValid

theorem Sealed.congr {o' : Oracles} {last header : BlockHeader} {block : Block}
    {txs : List Transaction} (hkeccak : o'.keccak256 = o.keccak256)
    (h : Sealed o' last block header txs) : Sealed o last block header txs where
  header_eq := h.header_eq
  data_eq := h.data_eq
  created := h.created
  hash_eq := by
    rw [h.hash_eq, merkleRoot, merkleRoot, merkleLeaves, merkleLeaves, hkeccak]
  valid := by
    rw [← hkeccak]
    exact h.valid

/-- A mined chain is sealed, and its newest block is the head. -/
theorem MinedChain.sealed {o' : Oracles} (h : MinedChain B o' bs s)
    (hkeccak : o'.keccak256 = o.keccak256) (hlength : bs.length < 2 ^ 64) :
    ∃ tip, SealedChain o bs tip ∧ (B.view s).headerAt (UInt64.ofNat bs.length) = some tip := by
  induction h with
  | genesis =>
      refine ⟨genesisHeader, .genesis, ?_⟩
      rw [(genesisChain_spec B).2]
      exact Store.headerAt_eq_some.mpr ⟨genesisBlock, rfl, rfl⟩
  | mine signer timestamp txs randomness randomnessRound chain hlatest hhead hmine hvalid hrec ih =>
      rename_i bs s latest head block header
      rw [List.length_append, List.length_singleton] at hlength ⊢
      obtain ⟨tip, hsealed, htip⟩ := ih (by omega)
      obtain ⟨hwf, hholds, -⟩ := chain.holds
      -- the head it was mined on is the newest block before
      have hat : latest = UInt64.ofNat bs.length := by
        rw [B.getLatestBlockHeight_eq hwf, orErr_eq_ok] at hlatest
        exact Option.some.inj (hlatest.symm.trans (hholds (by omega)).linked.latest_eq)
      obtain ⟨last, stakes, eproof, rfl, -, -, -, hcreate⟩ := mineBlock_eq_ok.mp hmine
      obtain rfl : last = tip := by
        rw [B.fetchBlockHeaderByHeight_eq latest hwf, orErr_eq_ok, Option.map_eq_some_iff] at hhead
        rw [hat] at hhead
        exact Option.some.inj ((Store.headerAt_eq_some.mpr hhead).symm.trans htip)
      obtain ⟨header', txs', hseal⟩ := sealed_of_createBlock hcreate hvalid
      have hall := (MinedChain.mine signer timestamp txs randomness randomnessRound chain hlatest
        hhead hmine hvalid hrec).holds.2.1 (by rw [List.length_append]; exact hlength)
      refine ⟨header', .extend hsealed (hseal.congr hkeccak), ?_⟩
      exact Store.headerAt_eq_some.mpr ⟨block, hall.byHeight_eq bs.length block (by simp),
        hseal.header_eq⟩

/-- The head of a mined chain, as the database gives it. -/
theorem MinedChain.head {o' : Oracles} (h : MinedChain B o' bs s)
    (hkeccak : o'.keccak256 = o.keccak256) (hlength : bs.length < 2 ^ 64) {latest : UInt64}
    {head : BlockHeader} (hlatest : B.db.getLatestBlockHeight s = .ok latest)
    (hhead : B.db.fetchBlockHeaderByHeight latest s = .ok (some head)) :
    latest = UInt64.ofNat bs.length ∧ SealedChain o bs head := by
  obtain ⟨hwf, hholds, -⟩ := h.holds
  obtain ⟨tip, hsealed, htip⟩ := h.sealed hkeccak hlength
  rw [B.getLatestBlockHeight_eq hwf, orErr_eq_ok] at hlatest
  obtain rfl : latest = UInt64.ofNat bs.length :=
    Option.some.inj (hlatest.symm.trans (hholds hlength).linked.latest_eq)
  rw [B.fetchBlockHeaderByHeight_eq _ hwf, orErr_eq_ok, Option.map_eq_some_iff] at hhead
  obtain rfl : head = tip :=
    Option.some.inj ((Store.headerAt_eq_some.mpr hhead).symm.trans htip)
  exact ⟨rfl, hsealed⟩

theorem MinedChain.fetchBlockByHeight {b : Block} (h : MinedChain B o bs s)
    (hlength : bs.length < 2 ^ 64) {k : Nat} (hb : (genesisBlock :: bs)[k]? = some b) :
    B.db.fetchBlockByHeight (UInt64.ofNat k) s = .ok b := by
  obtain ⟨hwf, hholds, -⟩ := h.holds
  have hat : (B.view s).byHeight (UInt64.ofNat k) = some b := by
    cases k with
    | zero => exact (hholds hlength).byHeight_zero.trans hb
    | succ k => exact (hholds hlength).byHeight_eq k b hb
  rw [B.fetchBlockByHeight_eq _ hwf, hat]
  rfl

end Mined

def Oracles.digesting : Oracles :=
  { Oracles.permissive with
    keccak256 := digest32
    unmarshalTask := fun data => .ok ⟨0, [], [], data, []⟩ }

/-- One of two miners. -/
def eitherSigner (second : Bool) : Signer :=
  ⟨if second then [2] else [1], fun _ => .ok [], .ofNat 1⟩

/-- What the miner makes of one transaction on the genesis block. -/
def minedByEither (second : Bool) : Block :=
  match mineBlock .digesting (eitherSigner second) 0 (some genesisHeader)
      [⟨digest32 (textBytes (hexEncode [7])), ⟨none, 0⟩, 0, [7]⟩] [] 1 with
  | .ok (some block) => block
  | _ => genesisBlock

def chainOfEither (second : Bool) : Memory.Cache :=
  (storeBlock Memory.database .digesting (minedByEither second) (genesisChain Memory.backend)).state

theorem minedChain_either (second : Bool) :
    MinedChain Memory.backend .digesting [minedByEither second] (chainOfEither second) := by
  have hmined : ∀ second, mineBlock .digesting (eitherSigner second) 0 (some genesisHeader)
      [⟨digest32 (textBytes (hexEncode [7])), ⟨none, 0⟩, 0, [7]⟩] [] 1
      = .ok (some (minedByEither second)) := by decide +kernel
  have hrecorded : ∀ second, recorded Memory.database .digesting (minedByEither second)
      (genesisChain Memory.backend)
      = some ((minedByEither second).header.getD genesisHeader) := by decide +kernel
  have hvalid : ∀ second, validateBlock Memory.database .digesting (minedByEither second)
      (genesisChain Memory.backend) = .ok () := by decide +kernel
  have hgenesis : Memory.getLatestBlockHeight (genesisChain Memory.backend) = .ok 0 ∧
      Memory.fetchBlockHeaderByHeight 0 (genesisChain Memory.backend)
        = .ok (some genesisHeader) := by decide +kernel
  exact .mine (eitherSigner second) 0 _ [] 1 .genesis hgenesis.1 hgenesis.2 (hmined second)
    (hvalid second) (hrecorded second)

def eitherHashed : List Bytes :=
  (minedByEither false).hashed .digesting ++ (minedByEither true).hashed .digesting

theorem digest32_binding : Merkle.Binding digest32 32 emptyHash { x | x ∈ eitherHashed } where
  length b := Cbor.length_beBytes ..
  length_pad := by decide
  injOn := by
    have hdistinct : ∀ x ∈ eitherHashed, ∀ y ∈ eitherHashed, digest32 x = digest32 y → x = y := by
      decide +kernel
    exact fun x hx y hy => hdistinct x hx y hy
  ne_pad := by
    have hne : ∀ x ∈ eitherHashed, digest32 x ≠ emptyHash := by decide +kernel
    exact fun x hx => hne x hx

end Dione
