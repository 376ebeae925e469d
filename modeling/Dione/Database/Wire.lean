/-
  Dione.Database.Wire

  A `Codec` to run the LMDB database with: headers and transaction lists field by
  field, in the order of the Go structs.  It is not CBOR; all the database asks of
  CBOR is that reading inverts writing.
-/

import Dione.Database.Lmdb
import Dione.Lib.Wire

namespace Dione.Lmdb

open Wire

namespace Format

def byte : Code UInt8 := Code.nat.via UInt8.toNat UInt8.ofNat fun _ => UInt8.ofNat_toNat

def bytes : Code Bytes := byte.list

def uint64 : Code UInt64 := Code.nat.via UInt64.toNat UInt64.ofNat fun _ => UInt64.ofNat_toNat

/-- The positive and the negative part. -/
def int : Code Int :=
  (Code.nat.pair Code.nat).via (fun i => (i.toNat, (-i).toNat)) (fun p => p.1 - p.2) fun i => by
    dsimp only
    omega

def int64 : Code Int64 := int.via Int64.toInt Int64.ofInt Int64.ofInt_toInt

def address : Code Address :=
  Code.nat.via Fin.val Address.ofNat fun a => Fin.ext (Nat.mod_eq_of_lt a.isLt)

def proof : Code Proof :=
  (bytes.list.option.pair uint64).via (fun p => (p.hashes, p.index)) (fun p => ⟨p.1, p.2⟩)
    fun _ => rfl

def transaction : Code Transaction :=
  (bytes.pair (proof.pair (int.pair bytes))).via
    (fun t => (t.hash, t.merkleProof, t.timestamp, t.data))
    (fun p => ⟨p.1, p.2.1, p.2.2.1, p.2.2.2⟩) fun _ => rfl

def electionProof : Code ElectionProof :=
  (int64.pair (bytes.pair uint64)).via (fun p => (p.winCount, p.vrfProof, p.randomnessRound))
    (fun p => ⟨p.1, p.2.1, p.2.2⟩) fun _ => rfl

def beaconEntry : Code BeaconEntry :=
  (uint64.pair bytes).via (fun e => (e.round, e.data)) (fun p => ⟨p.1, p.2⟩) fun _ => rfl

def header : Code BlockHeader :=
  (int64.pair (uint64.pair (bytes.pair (bytes.pair (proof.option.pair (bytes.option.pair
    (address.pair (bytes.pair (beaconEntry.pair electionProof.option))))))))).via
    (fun h => (h.timestamp, h.height, h.hash, h.lastHash, h.lastHashProof, h.proposer,
      h.proposerEth, h.signature, h.beaconEntry, h.electionProof))
    (fun (timestamp, height, hash, lastHash, lastHashProof, proposer, proposerEth, signature,
        beaconEntry, electionProof) =>
      ⟨timestamp, height, hash, lastHash, lastHashProof, proposer, proposerEth, signature,
        beaconEntry, electionProof⟩)
    fun _ => rfl

def data : Code (List (Option Transaction)) := transaction.option.list

end Format

/-- The error of bytes that cannot be read. -/
def malformed : Err := .msg "unexpected EOF"

/-- Headers and transaction lists in the formats above. -/
def wireCodec : Codec where
  encodeHeader := Format.header.put
  decodeHeader bs := orErr malformed (Format.header.decode bs)
  encodeData := Format.data.put
  decodeData bs := orErr malformed (Format.data.decode bs)
  decode_encodeHeader h := by rw [Format.header.decode_put, orErr]
  decode_encodeData d := by rw [Format.data.decode_put, orErr]

end Dione.Lmdb
