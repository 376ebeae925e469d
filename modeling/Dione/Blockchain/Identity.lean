/-
  Dione.Blockchain.Identity

  What a block hash identifies.

  The hash of a block is the root of a Merkle tree over the last hash, the
  transaction hashes and the timestamp.  `ValidateBlock` checks the Merkle proof
  of the last hash and of each transaction the block lists, and nothing else of
  the header goes into the tree.  So two accepted blocks with one hash link to the
  same head, and what they prove at one position of the tree is the same leaf with
  the same path, and the same transaction payload.  They may list different leaves
  of it, and the height, the timestamp and the proposer's address are free.

  A position is an index and the length of the path: the proofs do not say how deep
  the tree is.  Of the hash it takes digests of 32 bytes and no collision among the
  strings that are hashed to check the two blocks.
-/

import Dione.Blockchain.Finality
import Dione.Lib.Cbor
import Dione.Miner

namespace Dione

open BlockChain Text

/-! ## The proofs of a block -/

/-- The proofs that `ValidateBlock` checks, each with the data it is for: that of the last
    hash and those of the transactions. -/
def Block.proved (b : Block) : List (Bytes × Proof) :=
  match b.header with
  | none => []
  | some header =>
    header.lastHashProof.toList.map (fun proof => (header.lastHash, proof))
      ++ (b.data.filterMap id).map fun tx => (tx.hash, tx.merkleProof)

/-- The strings hashed to check a block. -/
def Block.checked (o : Oracles) (b : Block) : List Bytes :=
  (b.proved.flatMap fun p =>
      Merkle.verifyInputs o.keccak256 p.1 true (p.2.hashes.getD []) p.2.index.toNat)
    ++ (b.data.filterMap id).map fun tx => textBytes (hexEncode tx.data)

/-- The two proofs are for one position: one index, and paths of one length. -/
def Proof.SamePosition (p q : Proof) : Prop :=
  p.index = q.index ∧ (p.hashes.getD []).length = (q.hashes.getD []).length

section Accepted

variable {σ : Type} {db : Database σ} {o : Oracles} {s : σ}

/-- The head a block is accepted on is a function of the state. -/
theorem BlockChain.Accepted.head_unique {b₁ b₂ : Block} {h₁ h₂ p₁ p₂ : BlockHeader}
    (a₁ : Accepted db o b₁ s h₁ p₁) (a₂ : Accepted db o b₂ s h₂ p₂) : p₁ = p₂ := by
  obtain ⟨l₁, hl₁, hp₁⟩ := a₁.head_eq
  obtain ⟨l₂, hl₂, hp₂⟩ := a₂.head_eq
  obtain rfl : l₁ = l₂ := Except.ok.inj (hl₁.symm.trans hl₂)
  exact Option.some.inj (Except.ok.inj (hp₁.symm.trans hp₂))

variable {b : Block} {header head : BlockHeader}

theorem BlockChain.Accepted.tx (a : Accepted db o b s header head) {tx : Transaction}
    (hmem : some tx ∈ b.data) : TxAccepted o header tx := by
  obtain ⟨tx', heq, hacc⟩ := a.txs _ hmem
  obtain rfl : tx = tx' := Option.some.inj heq
  exact hacc

theorem BlockChain.Accepted.tx_mem_proved (a : Accepted db o b s header head) {tx : Transaction}
    (hmem : some tx ∈ b.data) : (tx.hash, tx.merkleProof) ∈ b.proved := by
  rw [Block.proved, a.header_eq]
  refine List.mem_append_right _ (List.mem_map.mpr ⟨tx, ?_, rfl⟩)
  exact List.mem_filterMap.mpr ⟨some tx, hmem, rfl⟩

/-- Every proof of an accepted block leads to its hash. -/
theorem BlockChain.Accepted.verify_proved (a : Accepted db o b s header head)
    (hlib : o.RecomputesRoots) {p : Bytes × Proof} (hp : p ∈ b.proved) :
    Merkle.verify o.keccak256 p.1 true (p.2.hashes.getD []) p.2.index.toNat [header.hash]
      = true := by
  have hverified : o.verifyProofUsing p.1 true p.2 [header.hash] = .ok true := by
    rw [Block.proved, a.header_eq] at hp
    rcases List.mem_append.mp hp with hlast | htx
    · obtain ⟨proof, hproof, rfl⟩ := List.mem_map.mp hlast
      obtain ⟨proof', hproof', hin⟩ := a.lastHash_inTree
      obtain rfl : proof = proof' :=
        Option.some.inj ((Option.mem_toList.mp hproof).symm.trans hproof')
      rw [a.lastHash_eq]
      exact hin
    · obtain ⟨tx, hmem, rfl⟩ := List.mem_map.mp htx
      obtain ⟨v, hv, rfl⟩ := List.mem_filterMap.mp hmem
      exact (a.tx hv).inTree
  rw [hlib.verify_eq] at hverified
  exact Except.ok.inj hverified

end Accepted

/-- What is hashed for a proof is hashed to check the block. -/
theorem Block.verifyInputs_subset_checked (o : Oracles) {b : Block} {p : Bytes × Proof}
    (hp : p ∈ b.proved) :
    Merkle.verifyInputs o.keccak256 p.1 true (p.2.hashes.getD []) p.2.index.toNat
      ⊆ b.checked o := by
  intro x hx
  exact List.mem_append_left _ (List.mem_flatMap.mpr ⟨p, hp, hx⟩)

theorem Block.payload_mem_checked (o : Oracles) {b : Block} {tx : Transaction}
    (hmem : some tx ∈ b.data) : textBytes (hexEncode tx.data) ∈ b.checked o := by
  refine List.mem_append_right _ (List.mem_map.mpr ⟨tx, ?_, rfl⟩)
  exact List.mem_filterMap.mpr ⟨some tx, hmem, rfl⟩

section OneHash

variable {σ : Type} {db : Database σ} {o : Oracles} {s : σ} {b₁ b₂ : Block}
  {h₁ h₂ p₁ p₂ : BlockHeader} (a₁ : Accepted db o b₁ s h₁ p₁) (a₂ : Accepted db o b₂ s h₂ p₂)
  (hinj : Set.InjOn o.keccak256 { x | x ∈ b₁.checked o ++ b₂.checked o })
include a₁ a₂

/-- The proofs of both blocks lead to their one hash. -/
theorem verify_proved_of_hash_eq (hlib : o.RecomputesRoots) (hhash : h₁.hash = h₂.hash) :
    ∀ p ∈ b₁.proved ++ b₂.proved,
      Merkle.verify o.keccak256 p.1 true (p.2.hashes.getD []) p.2.index.toNat [h₁.hash]
        = true := by
  intro p hp
  rcases List.mem_append.mp hp with hp | hp
  · exact a₁.verify_proved hlib hp
  · rw [hhash]
    exact a₂.verify_proved hlib hp

include hinj

/-- So at one position they prove one leaf with one path. -/
theorem leaf_eq_of_samePosition (hlib : o.RecomputesRoots)
    (hdigest : ∀ b, (o.keccak256 b).length = 32) (hhash : h₁.hash = h₂.hash) :
    ∀ p ∈ b₁.proved ++ b₂.proved, ∀ q ∈ b₁.proved ++ b₂.proved, p.2.SamePosition q.2 →
      p.1 = q.1 ∧ p.2.hashes.getD [] = q.2.hashes.getD [] := by
  have hverify := verify_proved_of_hash_eq a₁ a₂ hlib hhash
  have hhashed : ∀ p ∈ b₁.proved ++ b₂.proved,
      ∀ x ∈ Merkle.verifyInputs o.keccak256 p.1 true (p.2.hashes.getD []) p.2.index.toNat,
        x ∈ { x | x ∈ b₁.checked o ++ b₂.checked o } := by
    intro p hp x hx
    rcases List.mem_append.mp hp with hp | hp
    · exact List.mem_append_left _ (Block.verifyInputs_subset_checked o hp hx)
    · exact List.mem_append_right _ (Block.verifyInputs_subset_checked o hp hx)
  rintro p hp q hq ⟨hindex, hlength⟩
  have hin := hhashed p hp
  have hroot := hverify p hp
  rw [hindex] at hin hroot
  exact Merkle.verify_inj hdigest hinj hlength hin (hhashed q hq) hroot (hverify q hq)

/-- The hash of a transaction is that of its payload. -/
theorem data_eq_of_hash_eq {tx₁ tx₂ : Transaction} (hm₁ : some tx₁ ∈ b₁.data)
    (hm₂ : some tx₂ ∈ b₂.data) (htx : tx₁.hash = tx₂.hash) : tx₁.data = tx₂.data := by
  rw [← (a₁.tx hm₁).hashValid, ← (a₂.tx hm₂).hashValid] at htx
  exact textBytes_hexEncode_injective
    (hinj (List.mem_append_left _ (Block.payload_mem_checked o hm₁))
      (List.mem_append_right _ (Block.payload_mem_checked o hm₂)) htx)

end OneHash

/-- A hash with 32 bytes that keeps short strings apart. -/
def digest32 (b : Bytes) : Bytes :=
  Cbor.beBytes 32 (b.foldl (fun n x => 257 * n + x.toNat + 1) 0 % 2 ^ 256)

/-- Services with this hash, the Merkle verifier of `Lib.Merkle` over it, and signatures that
    are the signed data. -/
def Oracles.recomputing : Oracles :=
  { Oracles.permissive with
    verify := fun _ data signature => .ok (decide (data = signature))
    keccak256 := digest32
    verifyProofUsing := fun data salt proof pollard =>
      .ok (Merkle.verify digest32 data salt (proof.hashes.getD []) proof.index.toNat pollard)
    unmarshalTask := fun data => .ok ⟨0, [], [], data, []⟩ }

theorem recomputing_recomputesRoots : Oracles.recomputing.RecomputesRoots :=
  ⟨fun _ _ _ _ => rfl⟩

theorem length_digest32 (b : Bytes) : (digest32 b).length = 32 := Cbor.length_beBytes ..

/-- A transaction that has not been put into a block yet. -/
def sampleTx (payload : UInt8) : Transaction :=
  ⟨digest32 (textBytes (hexEncode [payload])), ⟨none, 0⟩, 0, [payload]⟩

/-- What a miner makes of two transactions on the genesis block. -/
def minedPair : Block :=
  match mineBlock .recomputing ⟨[1], fun data => .ok data, .ofNat 1⟩ 10 (some genesisHeader)
      [sampleTx 7, sampleTx 8] [] 1 with
  | .ok (some block) => block
  | _ => genesisBlock

/-- The same block, signature included, without its second transaction, and for another
    height, time and account. -/
def forgedPair : Block where
  header := minedPair.header.map fun header =>
    { header with height := 7, timestamp := 20, proposerEth := .ofNat 2 }
  data := minedPair.data.take 1

theorem validateBlock_minedPair : validateBlock Memory.database .recomputing minedPair
    (genesisChain Memory.backend) = .ok () := by
  decide +kernel

theorem validateBlock_forgedPair : validateBlock Memory.database .recomputing forgedPair
    (genesisChain Memory.backend) = .ok () := by
  decide +kernel

theorem injOn_minedPair_forgedPair : Set.InjOn Oracles.recomputing.keccak256
    { x | x ∈ minedPair.checked .recomputing ++ forgedPair.checked .recomputing } := by
  have hdistinct : ∀ x ∈ minedPair.checked .recomputing ++ forgedPair.checked .recomputing,
      ∀ y ∈ minedPair.checked .recomputing ++ forgedPair.checked .recomputing,
        digest32 x = digest32 y → x = y := by decide +kernel
  exact fun x hx y hy => hdistinct x hx y hy

end Dione
