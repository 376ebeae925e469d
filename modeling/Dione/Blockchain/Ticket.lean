/-
  Dione.Blockchain.Ticket

  The election ticket of a block: the beacon round, the height and the VRF proof
  that its proposer's draw is made of.

  `ValidateBlock` takes all three from the header and compares none of them with
  the chain.  The other checks do not look at them, so whoever can propose one
  block can propose it with every ticket that wins.
-/

import Dione.Blockchain.Integrity

namespace Dione

open Guard BlockChain

/-- What the draw of a proposer depends on, besides its key. -/
structure Ticket where
  randomnessRound : UInt64
  height : UInt64
  vrfProof : Bytes
  deriving DecidableEq, Repr

namespace BlockHeader

/-- The ticket of a header. -/
def ticket? (header : BlockHeader) : Option Ticket :=
  header.electionProof.map fun ep => ⟨ep.randomnessRound, header.height, ep.vrfProof⟩

/-- The same header with another ticket. -/
def withTicket (header : BlockHeader) (t : Ticket) (winCount : Int64) : BlockHeader :=
  { header with
    height := t.height
    electionProof := some ⟨winCount, t.vrfProof, t.randomnessRound⟩ }

end BlockHeader

/-- The election checks of `ValidateBlock`: the ticket is drawn by the proposer
    and wins `winCount` times with its stake. -/
structure Wins (o : Oracles) (proposer : PeerID) (proposerEth : Address) (t : Ticket)
    (winCount : Int64) : Prop where
  positive : 1 ≤ winCount
  drawn : ∃ proposerBuf res, o.marshalBinary proposer = .ok proposerBuf ∧
    o.entry t.randomnessRound = .ok res ∧
    verifyVRF o proposer (drawRandomness o.sum256 res.data randomnessTypeElectionProofProduction
      t.height proposerBuf) t.vrfProof = .ok ()
  counted : ∃ stakes, getStakeInfo o proposerEth = .ok stakes ∧
    (ElectionProof.mk winCount t.vrfProof t.randomnessRound).computeWinCount o.sum256 stakes.1
      stakes.2 = .ok winCount

/-- The checks that come before: the signature and the link to the head of the
    chain. -/
structure Linked {σ : Type} (db : Database σ) (o : Oracles) (s : σ) (header : BlockHeader)
    (proposer : PeerID) : Prop where
  signed : ∃ pubkey, o.extractPublicKey proposer = .ok pubkey ∧
    o.verify pubkey header.hash header.signature = .ok true
  onHead : ∃ latest head proof, db.getLatestBlockHeight s = .ok latest ∧
    db.fetchBlockHeaderByHeight latest s = .ok (some head) ∧ header.lastHash = head.hash ∧
    header.lastHashProof = some proof ∧
    o.verifyProofUsing head.hash true proof [header.hash] = .ok true

section Validation

variable {σ : Type} {db : Database σ} {o : Oracles} {block : Block} {s : σ}

/-- What `ValidateBlock` asks of a block. -/
theorem validateBlock_eq_ok : validateBlock db o block s = .ok () ↔
    ∃ header proposer ep, block.header = some header ∧ header.proposer = some proposer ∧
      header.electionProof = some ep ∧ Linked db o s header proposer ∧
      isMinerEligibleToProposeBlock o header.proposerEth = .ok () ∧
      Wins o proposer header.proposerEth ⟨ep.randomnessRound, header.height, ep.vrfProof⟩
        ep.winCount ∧
      validateTransactions o header block.data = .ok () := by
  simp only [validateBlock, bind_eq_ok, deref_eq_ok, wrapErr_eq_ok, require_eq_ok]
  constructor
  · rintro ⟨header, hheader, proposer, hproposer, pubkey, hpubkey, _, hsigned, _, rfl, latest,
      hlatest, _, hhead, head, rfl, _, hlast, proof, hproof, _, hverified, _, rfl, ep, hep, _,
      hpositive, _, heligible, buf, hbuf, res, hres, _, hvrf, stakes, hstakes, winCount, hcount,
      _, rfl, htxs⟩
    exact ⟨header, proposer, ep, hheader, hproposer, hep,
      ⟨⟨pubkey, hpubkey, hsigned⟩, latest, head, proof, hlatest, hhead, hlast, hproof, hverified⟩,
      heligible, ⟨hpositive, ⟨buf, res, hbuf, hres, hvrf⟩, stakes, hstakes, hcount⟩, htxs⟩
  · rintro ⟨header, proposer, ep, hheader, hproposer, hep,
      ⟨⟨pubkey, hpubkey, hsigned⟩, latest, head, proof, hlatest, hhead, hlast, hproof, hverified⟩,
      heligible, ⟨hpositive, ⟨buf, res, hbuf, hres, hvrf⟩, stakes, hstakes, hcount⟩, htxs⟩
    exact ⟨header, hheader, proposer, hproposer, pubkey, hpubkey, true, hsigned, (), rfl, latest,
      hlatest, some head, hhead, head, rfl, (), hlast, proof, hproof, true, hverified, (), rfl, ep,
      hep, (), hpositive, (), heligible, buf, hbuf, res, hres, (), hvrf, stakes, hstakes,
      ep.winCount, hcount, (), rfl, htxs⟩

/-- Of the header, only its hash matters to the transactions. -/
theorem validateTransactions_congr {header header' : BlockHeader}
    (hhash : header'.hash = header.hash) (vs : List (Option Transaction)) :
    validateTransactions o header' vs = validateTransactions o header vs := by
  induction vs with
  | nil => rfl
  | cons v vs ih =>
      have hverify : verifyTx o header' v = verifyTx o header v := by
        unfold verifyTx
        rw [hhash]
      unfold validateTransactions validateTransaction
      rw [hverify, ih]

end Validation

/-- A block of the proposer that is valid in the state `s`. -/
structure ValidFrom {σ : Type} (db : Database σ) (o : Oracles) (s : σ) (proposer : PeerID)
    (proposerEth : Address) (block : Block) (header : BlockHeader) : Prop where
  valid : validateBlock db o block s = .ok ()
  header_eq : block.header = some header
  proposer_eq : header.proposer = some proposer
  proposerEth_eq : header.proposerEth = proposerEth

/-- A block of the proposer that passes the checks in which its ticket is not read: the
    signature, the link to the head, the minimum stake and the transactions. -/
structure Proposable {σ : Type} (db : Database σ) (o : Oracles) (s : σ) (proposer : PeerID)
    (proposerEth : Address) (block : Block) (header : BlockHeader) : Prop where
  header_eq : block.header = some header
  proposer_eq : header.proposer = some proposer
  proposerEth_eq : header.proposerEth = proposerEth
  linked : Linked db o s header proposer
  eligible : isMinerEligibleToProposeBlock o proposerEth = .ok ()
  txs : validateTransactions o header block.data = .ok ()

section Grinding

variable {σ : Type} {db : Database σ} {o : Oracles} {s : σ} {proposer : PeerID}
  {proposerEth : Address} {block : Block} {header : BlockHeader}

/-- A valid block passes the checks that do not read its ticket, and its ticket wins. -/
theorem ValidFrom.proposable (h : ValidFrom db o s proposer proposerEth block header) :
    Proposable db o s proposer proposerEth block header ∧
      ∃ t winCount, header.ticket? = some t ∧ Wins o proposer proposerEth t winCount := by
  obtain ⟨header', proposer', ep, hheader, hproposer, hep, hlinked, heligible, hwins, htxs⟩ :=
    validateBlock_eq_ok.mp h.valid
  obtain rfl : header = header' := Option.some.inj (h.header_eq.symm.trans hheader)
  obtain rfl : proposer = proposer' := Option.some.inj (h.proposer_eq.symm.trans hproposer)
  rw [h.proposerEth_eq] at hwins heligible
  refine ⟨⟨hheader, hproposer, h.proposerEth_eq, hlinked, heligible, htxs⟩, _, ep.winCount, ?_,
    hwins⟩
  rw [BlockHeader.ticket?, hep]
  rfl

/-- With any ticket that wins such a block is valid. -/
theorem Proposable.withTicket {t : Ticket} {winCount : Int64}
    (h : Proposable db o s proposer proposerEth block header)
    (hwins : Wins o proposer proposerEth t winCount) :
    ValidFrom db o s proposer proposerEth ⟨some (header.withTicket t winCount), block.data⟩
      (header.withTicket t winCount) := by
  -- the hash does not cover the ticket, so the signature and the proofs still fit
  have hsame : (header.withTicket t winCount).hash = header.hash := rfl
  have htxs : validateTransactions o (header.withTicket t winCount) block.data = .ok () :=
    (validateTransactions_congr hsame block.data).trans h.txs
  have heth : (header.withTicket t winCount).proposerEth = proposerEth := h.proposerEth_eq
  refine ⟨?_, rfl, h.proposer_eq, heth⟩
  exact validateBlock_eq_ok.mpr ⟨_, proposer, ⟨winCount, t.vrfProof, t.randomnessRound⟩, rfl,
    h.proposer_eq, rfl, ⟨h.linked.signed, h.linked.onHead⟩, heth.symm ▸ h.eligible,
    heth.symm ▸ hwins, htxs⟩

end Grinding

/-- All valid blocks of a proposer have the same ticket iff it has no block that passes the
    other checks, or no more than a single ticket that wins. -/
theorem ticket_unique_iff {σ : Type} (db : Database σ) (o : Oracles) (s : σ) (proposer : PeerID)
    (proposerEth : Address) :
    (∀ b b' header header', ValidFrom db o s proposer proposerEth b header →
        ValidFrom db o s proposer proposerEth b' header' → header.ticket? = header'.ticket?) ↔
      (∀ b header, ¬ Proposable db o s proposer proposerEth b header) ∨
        ∀ t t' winCount winCount', Wins o proposer proposerEth t winCount →
          Wins o proposer proposerEth t' winCount' → t = t' := by
  constructor
  · intro h
    by_cases hnone : ∀ b header, ¬ Proposable db o s proposer proposerEth b header
    · exact .inl hnone
    · push Not at hnone
      obtain ⟨b, header, hproposable⟩ := hnone
      right
      intro t t' winCount winCount' hwins hwins'
      -- the block can be had with both tickets
      exact Option.some.inj
        (h _ _ _ _ (hproposable.withTicket hwins) (hproposable.withTicket hwins'))
  · rintro (hnone | hunique) b b' header header' hvalid hvalid'
    · exact absurd hvalid.proposable.1 (hnone b header)
    · obtain ⟨-, t, winCount, ht, hwins⟩ := hvalid.proposable
      obtain ⟨-, t', winCount', ht', hwins'⟩ := hvalid'.proposable
      rw [ht, ht', hunique t t' winCount winCount' hwins hwins']

/-- The header of a block on the genesis block with the given ticket. -/
def drawnHeader (t : Ticket) : BlockHeader := (childHeader [1] 1).withTicket t 20

/-- Two valid blocks of one proposer on the genesis block that differ in the round,
    the height and the proof. -/
theorem two_tickets_on_genesis :
    ∃ b b' header header',
      ValidFrom Memory.database .permissive (genesisChain Memory.backend) [1] (.ofNat 1) b header ∧
      ValidFrom Memory.database .permissive (genesisChain Memory.backend) [1] (.ofNat 1) b'
        header' ∧
      header.ticket? = some ⟨1, 1, [1]⟩ ∧ header'.ticket? = some ⟨2, 5, [2]⟩ := by
  refine ⟨⟨some (drawnHeader ⟨1, 1, [1]⟩), []⟩, ⟨some (drawnHeader ⟨2, 5, [2]⟩), []⟩, _, _,
    ⟨?_, rfl, rfl, rfl⟩, ⟨?_, rfl, rfl, rfl⟩, rfl, rfl⟩
  · decide +kernel
  · decide +kernel

end Dione
