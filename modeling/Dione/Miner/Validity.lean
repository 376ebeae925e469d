/-
  Dione.Miner.Validity

  What `MineBlock` makes, as `ValidateBlock` sees it on a node with the same head,
  stakes and beacon.

  The two compute the same things by separate code: the link to the head, the draw,
  the win count, the Merkle proofs.  They agree on all of them.  One check has no
  counterpart on the miner's side: `IsMinerEligibleToProposeBlock`.  A miner whose
  stake is below `MinMinerStake` can win a draw, and no node accepts its block.
-/

import Dione.Mempool
import Dione.Sync.Mirror

namespace Dione

open Guard Text BlockChain

/-! ## What is assumed of the libraries -/

/-- `Sign` and `Verify` are inverse: what the signer signs verifies under the key in
    its peer ID. -/
def Signer.Verifies (o : Oracles) (signer : Signer) : Prop :=
  ∃ pubkey, o.extractPublicKey signer.peerID = .ok pubkey ∧
    ∀ data s, signer.sign data = .ok s → o.verify pubkey data s = .ok true

/-- The proofs that a salted tree generates verify with salt. -/
def Oracles.ProvesSalted (o : Oracles) : Prop :=
  ∀ data item proof, data.length ≤ 2 ^ 64 → generateProof o data item = .ok proof →
    o.verifyProofUsing item true proof [merkleRoot o data] = .ok true

theorem Oracles.MerkleLibrary.provesSalted {o : Oracles} (hlib : o.MerkleLibrary) :
    o.ProvesSalted :=
  fun _ _ _ hcount h => hlib.verify_generateProof hcount h

/-- A transaction with a valid hash and a valid payload. -/
structure Transaction.Sound (o : Oracles) (tx : Transaction) : Prop where
  hash_valid : tx.validateHash o = true
  payload_valid : ∃ task, o.unmarshalTask tx.data = .ok task ∧
    ∀ validate, getValidationMethod o task.originChain task.requestType = some validate →
      validate task = .ok ()

/-- The header at the latest height. -/
def IsHead {σ : Type} (db : Database σ) (s : σ) (head : BlockHeader) : Prop :=
  ∃ latest, db.getLatestBlockHeight s = .ok latest ∧
    db.fetchBlockHeaderByHeight latest s = .ok (some head)

/-! ## The transactions -/

/-- No more than `BlockMaxTransactionCount` transactions go into a block. -/
theorem Mempool.length_getTransactionsForNewBlock (mp : Mempool) (keys : List Str) :
    (mp.getTransactionsForNewBlock keys).length ≤ blockMaxTransactionCount :=
  List.length_take_le _ _

theorem Mempool.mem_of_mem_getTransactionsForNewBlock {mp : Mempool} {keys : List Str}
    {tx : Transaction} (h : tx ∈ mp.getTransactionsForNewBlock keys) :
    tx ∈ mp.getAllTransactions keys :=
  (List.mem_insertionSort _).mp (List.mem_of_mem_take h)

section Transactions

variable {o : Oracles} {data : List Bytes}

theorem hashes_of_generateProof {item : Bytes} {proof : Proof}
    (h : generateProof o data item = .ok proof) : proof.hashes ≠ none := by
  unfold generateProof at h
  split at h
  · cases h
  · obtain rfl := Except.ok.inj h
    exact Option.some_ne_none _

/-- `CreateBlock` changes nothing of a transaction but its Merkle proof. -/
theorem mem_of_proveTxs {txs txs' : List Transaction} (h : proveTxs o data txs = .ok txs') :
    ∀ tx' ∈ txs', ∃ tx ∈ txs, ∃ proof, tx' = { tx with merkleProof := proof } := by
  induction txs generalizing txs' with
  | nil =>
      obtain rfl := Except.ok.inj h
      simp
  | cons tx txs ih =>
      simp only [proveTxs, bind_eq_ok, pure_eq_ok_iff] at h
      obtain ⟨proof, -, rest, hrest, rfl⟩ := h
      intro tx' hmem
      rcases List.mem_cons.mp hmem with rfl | hmem
      · exact ⟨tx, List.mem_cons_self .., proof, rfl⟩
      · obtain ⟨tx₀, hmem₀, hproof⟩ := ih hrest tx' hmem
        exact ⟨tx₀, List.mem_cons_of_mem _ hmem₀, hproof⟩

/-- A sound transaction with its proof in the tree passes. -/
theorem validateTransaction_of_sound {header : BlockHeader} {tx : Transaction} (hsound : tx.Sound o)
    (hhashes : tx.merkleProof.hashes ≠ none)
    (hverified : o.verifyProofUsing tx.hash true tx.merkleProof [header.hash] = .ok true) :
    validateTransaction o header (some tx) = .ok () := by
  obtain ⟨task, htask, hpayload⟩ := hsound.payload_valid
  have htx : verifyTx o header (some tx) = .ok () := by
    simp only [verifyTx, bind_eq_ok, deref_eq_ok, require_eq_ok]
    exact ⟨tx, rfl, (), hhashes, true, by rw [hverified]; rfl, (), rfl, hsound.hash_valid⟩
  simp only [validateTransaction, bind_eq_ok, deref_eq_ok, wrapErr_eq_ok]
  refine ⟨(), htx, tx, rfl, task, htask, ?_⟩
  split
  · next validate hmethod => exact wrapErr_eq_ok.mpr (hpayload validate hmethod)
  · rfl

end Transactions

/-! ## The stages of `ValidateBlock` -/

section Stages

variable {o : Oracles} {signer : Signer} {last : BlockHeader} {txs : List Transaction}

/-- What `CreateBlock` puts into a block. -/
structure Created (o : Oracles) (signer : Signer) (last : BlockHeader) (txs : List Transaction)
    (eproof : ElectionProof) (block : Block) (header : BlockHeader) : Prop where
  header_eq : block.header = some header
  on : CreatedOn last header
  proposer_eq : header.proposer = some signer.peerID
  proposerEth_eq : header.proposerEth = signer.ethAddress
  electionProof_eq : header.electionProof = some eproof
  signed : signer.sign header.hash = .ok header.signature
  lastHash_inTree : ∃ proof, header.lastHashProof = some proof ∧
    o.verifyProofUsing last.hash true proof [header.hash] = .ok true
  txs_inTree : ∀ v ∈ block.data, ∃ tx ∈ txs, ∃ proof, v = some { tx with merkleProof := proof } ∧
    proof.hashes ≠ none ∧ o.verifyProofUsing tx.hash true proof [header.hash] = .ok true

theorem created_of_createBlock (hproofs : o.ProvesSalted) {timestamp : Int64}
    {eproof : ElectionProof} {block : Block} (hcount : txs.length + 2 ≤ 2 ^ 64)
    (h : createBlock o signer timestamp last txs eproof = .ok block) :
    ∃ header, Created o signer last txs eproof block header := by
  have hdata : (merkleHashes last.hash txs timestamp).length ≤ 2 ^ 64 := by
    simpa [merkleHashes] using hcount
  simp only [createBlock, bind_eq_ok, pure_eq_ok_iff] at h
  obtain ⟨s, hs, proof, hproof, txs', htxs, rfl⟩ := h
  refine ⟨_, rfl, ⟨rfl, rfl⟩, rfl, rfl, rfl, hs, ⟨proof, rfl, hproofs _ _ _ hdata hproof⟩, ?_⟩
  intro v hv
  obtain ⟨tx', htx', rfl⟩ := List.mem_map.mp hv
  have hgenerated := generateProof_of_proveTxs htxs tx' htx'
  obtain ⟨tx, htx, txProof, rfl⟩ := mem_of_proveTxs htxs tx' htx'
  exact ⟨tx, htx, txProof, rfl, hashes_of_generateProof hgenerated,
    hproofs _ _ _ hdata hgenerated⟩

/-- A block made on the head is linked to it. -/
theorem Created.linked {σ : Type} {db : Database σ} {s : σ} {eproof : ElectionProof} {block : Block}
    {header : BlockHeader} (h : Created o signer last txs eproof block header)
    (hsigner : signer.Verifies o) (hhead : IsHead db s last) :
    Linked db o s header signer.peerID := by
  obtain ⟨pubkey, hpubkey, hverify⟩ := hsigner
  obtain ⟨latest, hlatest, hfetch⟩ := hhead
  obtain ⟨proof, hproof, hverified⟩ := h.lastHash_inTree
  exact ⟨⟨pubkey, hpubkey, hverify _ _ h.signed⟩, latest, last, proof, hlatest, hfetch,
    h.on.lastHash_eq, hproof, hverified⟩

theorem Created.validateTransactions {eproof : ElectionProof} {block : Block} {header : BlockHeader}
    (h : Created o signer last txs eproof block header) (hsound : ∀ tx ∈ txs, tx.Sound o) :
    validateTransactions o header block.data = .ok () := by
  refine validateTransactions_eq_ok.mpr fun v hv => ?_
  obtain ⟨tx, htx, proof, rfl, hhashes, hverified⟩ := h.txs_inTree v hv
  -- neither the hash nor the payload covers the proof
  obtain ⟨hhash, hpayload⟩ := hsound tx htx
  exact validateTransaction_of_sound ⟨hhash, hpayload⟩ hhashes hverified

/-- The draw that elects the miner is the one the validator repeats. -/
theorem wins_of_isRoundWinner (hsigner : signer.Verifies o) {height round : UInt64}
    {entry : BeaconEntry} {stakes : Int × Int} {eproof : ElectionProof}
    (hentry : o.entry round = .ok entry) (hstakes : getStakeInfo o signer.ethAddress = .ok stakes)
    (h : isRoundWinner o signer height entry.data round stakes.1 stakes.2 = .ok (some eproof)) :
    Wins o signer.peerID signer.ethAddress ⟨eproof.randomnessRound, height, eproof.vrfProof⟩
      eproof.winCount := by
  obtain ⟨pubkey, hpubkey, hverify⟩ := hsigner
  simp only [isRoundWinner, bind_eq_ok, wrapErr_eq_ok, pure_eq_ok_iff] at h
  obtain ⟨buf, hbuf, vrfout, hvrf, j, hj, hwinner⟩ := h
  split at hwinner
  · cases hwinner
  · next hpositive =>
      obtain rfl := Option.some.inj hwinner
      refine ⟨?_, ⟨buf, entry, hbuf, hentry, ?_⟩, stakes, hstakes, hj⟩
      · exact Int64.not_lt.mp hpositive
      · simp only [verifyVRF, bind_eq_ok, require_eq_ok]
        exact ⟨pubkey, hpubkey, true, hverify _ _ hvrf, rfl⟩

/-- Of a mined block, only the stake of its miner is left to check. -/
theorem validateBlock_created {σ : Type} {db : Database σ} {s : σ} {eproof : ElectionProof}
    {block : Block} {header : BlockHeader} (h : Created o signer last txs eproof block header)
    (hsigner : signer.Verifies o) (hhead : IsHead db s last) (hsound : ∀ tx ∈ txs, tx.Sound o)
    (hwins : Wins o signer.peerID signer.ethAddress
      ⟨eproof.randomnessRound, last.height + 1, eproof.vrfProof⟩ eproof.winCount) :
    validateBlock db o block s = .ok () ↔
      isMinerEligibleToProposeBlock o signer.ethAddress = .ok () := by
  rw [validateBlock_eq_ok]
  constructor
  · rintro ⟨header', -, -, hheader', -, -, -, heligible, -⟩
    obtain rfl : header = header' := Option.some.inj (h.header_eq.symm.trans hheader')
    rwa [h.proposerEth_eq] at heligible
  · intro heligible
    refine ⟨header, signer.peerID, eproof, h.header_eq, h.proposer_eq, h.electionProof_eq,
      h.linked hsigner hhead, ?_, ?_, h.validateTransactions hsound⟩
    · rw [h.proposerEth_eq]
      exact heligible
    · rw [h.proposerEth_eq, h.on.height_eq]
      exact hwins

end Stages

theorem isMinerEligibleToProposeBlock_eq_ok {o : Oracles} {ethAddress : Address} :
    isMinerEligibleToProposeBlock o ethAddress = .ok () ↔
      ∃ stake, o.getMinerStake ethAddress = .ok stake ∧ minMinerStake ≤ stake := by
  simp only [isMinerEligibleToProposeBlock, bind_eq_ok, require_eq_ok]

/-- A block that `MineBlock` makes on the head of a node, for an entry of the node's
    beacon and sound transactions, is valid there iff its miner has a stake of at
    least `MinMinerStake`. -/
theorem mined_valid_iff_eligible {σ : Type} (db : Database σ) (o : Oracles) (signer : Signer)
    (hsigner : signer.Verifies o) (hproofs : o.ProvesSalted) (s : σ) (last : BlockHeader)
    (hhead : IsHead db s last) (round : UInt64) (entry : BeaconEntry)
    (hentry : o.entry round = .ok entry) (mp : Mempool) (keys : List Str)
    (hpool : ∀ tx ∈ mp.getAllTransactions keys, tx.Sound o) (timestamp : Int64) (block : Block)
    (hmined : mineBlock o signer timestamp (some last) (mp.getTransactionsForNewBlock keys)
      entry.data round = .ok (some block)) :
    validateBlock db o block s = .ok () ↔
      ∃ stake, o.getMinerStake signer.ethAddress = .ok stake ∧ minMinerStake ≤ stake := by
  have hsound : ∀ tx ∈ mp.getTransactionsForNewBlock keys, tx.Sound o := fun tx htx =>
    hpool tx (Mempool.mem_of_mem_getTransactionsForNewBlock htx)
  have hcount : (mp.getTransactionsForNewBlock keys).length + 2 ≤ 2 ^ 64 := by
    have hmax := mp.length_getTransactionsForNewBlock keys
    rw [Mempool.blockMaxTransactionCount] at hmax
    omega
  obtain ⟨_, stakes, eproof, ⟨⟩, hstakes, hwinner, -, hcreate⟩ := mineBlock_eq_ok.mp hmined
  obtain ⟨header, hcreated⟩ := created_of_createBlock hproofs hcount hcreate
  have hwins := wins_of_isRoundWinner hsigner hentry hstakes hwinner
  rw [validateBlock_created hcreated hsigner hhead hsound hwins,
    isMinerEligibleToProposeBlock_eq_ok]

/-! ### A mempool with one transaction -/

theorem soleSigner_verifies : soleSigner.Verifies .salted :=
  ⟨[], rfl, fun _ _ _ => rfl⟩

theorem genesis_isHead : IsHead Memory.database (genesisChain Memory.backend) genesisHeader :=
  ⟨0, by decide +kernel, by decide +kernel⟩

/-- The mempool after the transaction has come in. -/
def pooled : Mempool := (Mempool.new.alloc pooledTx).2.storeTx 0

theorem pooled_sound : ∀ tx ∈ pooled.getAllTransactions pooled.keys, tx.Sound .salted := by
  have hpooled : pooled.getAllTransactions pooled.keys = [pooledTx] := by decide +kernel
  intro tx htx
  obtain rfl := List.mem_singleton.mp (hpooled ▸ htx)
  refine ⟨by decide +kernel, ⟨0, [], [], [7], []⟩, rfl, ?_⟩
  intro validate hmethod
  cases hmethod

/-- With 1000 tokens staked, what is mined on the genesis block is valid. -/
theorem mined_valid_on_genesis :
    ∃ block, mineBlock .salted soleSigner 0 (some genesisHeader)
        (pooled.getTransactionsForNewBlock pooled.keys) [] 1 = .ok (some block) ∧
      validateBlock Memory.database .salted block (genesisChain Memory.backend) = .ok () := by
  have hmined : mineBlock .salted soleSigner 0 (some genesisHeader)
      (pooled.getTransactionsForNewBlock pooled.keys) [] 1 = .ok (some firstMined) := by
    decide +kernel
  refine ⟨firstMined, hmined, ?_⟩
  exact (mined_valid_iff_eligible Memory.database .salted soleSigner soleSigner_verifies
    salted_merkleLibrary.provesSalted _ genesisHeader genesis_isHead 1 ⟨1, []⟩ rfl pooled
    pooled.keys pooled_sound 0 firstMined hmined).mpr ⟨1000, rfl, by decide⟩

/-- The same services, with 999 tokens staked, all of them by the miner. -/
def Oracles.lowStake : Oracles :=
  { Oracles.salted with
    getMinerStake := fun _ => .ok 999
    getTotalStake := .ok 999 }

/-- A miner with 999 tokens wins the draw on the genesis block, and the block is
    refused there. -/
theorem mined_by_ineligible_miner :
    soleSigner.Verifies .lowStake ∧ Oracles.lowStake.ProvesSalted ∧
      (∀ tx ∈ pooled.getAllTransactions pooled.keys, tx.Sound .lowStake) ∧
      ∃ block, mineBlock .lowStake soleSigner 0 (some genesisHeader)
          (pooled.getTransactionsForNewBlock pooled.keys) [] 1 = .ok (some block) ∧
        validateBlock Memory.database .lowStake block (genesisChain Memory.backend)
          = wrapErr "block proposer is not eligible to propose block"
              (.error (.msg "miner doesn't have enough staked tokens")) := by
  refine ⟨⟨[], rfl, fun _ _ _ => rfl⟩,
    (⟨⟨fun _ _ _ _ => rfl⟩, fun _ _ h => h⟩ : Oracles.lowStake.MerkleLibrary).provesSalted, ?_,
    firstMined, by decide +kernel, by decide +kernel⟩
  intro tx htx
  obtain ⟨hhash, hpayload⟩ := pooled_sound tx htx
  exact ⟨hhash, hpayload⟩

end Dione
