/-
  Dione.Signature

  `types/signature.go`: signatures with their type, and the two formats they are stored
  in.  The binary format is the type byte followed by the data; the CBOR format is a
  byte string that holds the same bytes.

  cbor-gen's header writer and reader are a parameter, `Cbor.HeaderCodec`.  A decoder
  works on a receiver: it returns the bytes it leaves unread, or an error, together with
  the receiver as it is then.
-/

import Dione.Lib.Cbor
import Dione.Types

namespace Dione

open Cbor (HeaderCodec)

/-- `type SigType byte`. -/
abbrev SigType := UInt8

def sigTypeUnknown : SigType := 255

def sigTypeSecp256k1 : SigType := 1

def sigTypeBLS : SigType := 2

def sigTypeEd25519 : SigType := 3

/-- The types that the `switch` of both decoders names. -/
def SigType.Known (t : SigType) : Prop :=
  t = sigTypeEd25519 ∨ t = sigTypeSecp256k1 ∨ t = sigTypeBLS

instance (t : SigType) : Decidable (SigType.Known t) :=
  inferInstanceAs (Decidable (_ ∨ _ ∨ _))

/-- `SignatureMaxLength`; it counts the type byte. -/
def signatureMaxLength : Nat := 200

structure Signature where
  type : SigType
  data : Bytes
  deriving DecidableEq, Repr

/-! ## cbor-gen and `io` -/

/-- `cbg.MajByteString`. -/
def majByteString : Fin 8 := 2

/-- `cbg.MajArray`. -/
def majArray : Fin 8 := 4

/-- `cbg.CborNull`. -/
def cborNull : Bytes := [0xf6]

/-- `io.ReadFull` into a buffer of `n` bytes: the bytes read and those left. -/
def readFull (n : Nat) (br : Bytes) : Except Err (Bytes × Bytes) :=
  if n ≤ br.length then .ok (br.take n, br.drop n)
  else if br = [] then .error (.msg "EOF")
  else .error (.msg "unexpected EOF")

theorem readFull_eq_ok {n : Nat} {br buf rest : Bytes} :
    readFull n br = .ok (buf, rest) ↔ buf.length = n ∧ br = buf ++ rest := by
  constructor
  · intro h
    unfold readFull at h
    split_ifs at h with hn
    cases h
    exact ⟨List.length_take_of_le hn, (List.take_append_drop n br).symm⟩
  · rintro ⟨rfl, rfl⟩
    simp [readFull]

namespace Signature

/-! ## The CBOR format -/

/-- `MarshalCBOR`; a nil pointer is written as null. -/
def marshalCBOR (c : HeaderCodec Err) : Option Signature → Bytes
  | none => cborNull
  | some s => c.write majByteString (UInt64.ofNat (s.data.length + 1)) ++ [s.type] ++ s.data

/-- `UnmarshalCBOR`. -/
def unmarshalCBOR (c : HeaderCodec Err) (s : Signature) (br : Bytes) :
    Except Err Bytes × Signature :=
  match c.read br with
  | .error e => (.error e, s)
  | .ok (maj, l, br) =>
    if maj ≠ majByteString then (.error (.msg "not a byte string"), s)
    else if l.toNat > signatureMaxLength then (.error (.msg "string too long"), s)
    else if l.toNat = 0 then (.error (.msg "string empty"), s)
    else match readFull l.toNat br with
      | .error e => (.error e, s)
      | .ok ([], _) => (.error .indexOutOfRange, s)
      | .ok (t :: data, br) =>
        if SigType.Known t then (.ok br, { type := t, data := data })
        else (.error (.msg ("invalid signature type in cbor input: " ++ toString t.toNat)), s)

/-- What the CBOR decoder accepts: one of the three types, and data that fits the limit
    beside the type byte. -/
def Admissible (s : Signature) : Prop :=
  SigType.Known s.type ∧ s.data.length ≤ signatureMaxLength - 1

instance (s : Signature) : Decidable s.Admissible :=
  inferInstanceAs (Decidable (_ ∧ _))

theorem marshalCBOR_append (c : HeaderCodec Err) (s : Signature) (rest : Bytes) :
    marshalCBOR c (some s) ++ rest
      = c.write majByteString (UInt64.ofNat (s.data.length + 1))
        ++ (s.type :: (s.data ++ rest)) := by
  simp [marshalCBOR]

/-- How the decoder continues once it has read the header of an encoded signature. -/
theorem unmarshalCBOR_write (c : HeaderCodec Err) (r : Signature) (t : SigType)
    (data rest : Bytes) {l : UInt64} (hl : l.toNat = data.length + 1) :
    unmarshalCBOR c r (c.write majByteString l ++ (t :: (data ++ rest)))
      = if signatureMaxLength < data.length + 1 then (.error (.msg "string too long"), r)
        else if SigType.Known t then (.ok rest, ⟨t, data⟩)
        else (.error (.msg ("invalid signature type in cbor input: " ++ toString t.toNat)), r) := by
  have hfull : readFull l.toNat (t :: (data ++ rest)) = .ok (t :: data, rest) :=
    readFull_eq_ok.2 ⟨hl.symm, rfl⟩
  rw [hl] at hfull
  simp only [unmarshalCBOR, c.read_write, hl, hfull, ne_eq, not_true_eq_false, if_false,
    Nat.succ_ne_zero, gt_iff_lt]

/-- The number in the header counts the type byte. -/
theorem toNat_length_succ {data : Bytes} (h : data.length + 1 < 2 ^ 64) :
    (UInt64.ofNat (data.length + 1)).toNat = data.length + 1 :=
  UInt64.toNat_ofNat_of_lt' h

/-- What the decoder accepts is the encoding of an admissible signature. -/
theorem eq_marshalCBOR_of_unmarshalCBOR {c : HeaderCodec Err} {r s : Signature}
    {input rest : Bytes} (h : unmarshalCBOR c r input = (.ok rest, s)) :
    s.Admissible ∧ input = marshalCBOR c (some s) ++ rest := by
  unfold unmarshalCBOR at h
  split at h
  · cases h
  next maj l br hread =>
    split_ifs at h with hmaj hlong hempty
    · cases h
    · cases h
    · cases h
    split at h
    · cases h
    · cases h
    next t data br' hfull =>
      have hknown : SigType.Known t := by
        by_contra hunknown
        rw [if_neg hunknown] at h
        cases h
      rw [if_pos hknown] at h
      cases h
      obtain ⟨hlen, rfl⟩ := readFull_eq_ok.1 hfull
      rw [List.length_cons] at hlen
      rw [not_not] at hmaj
      subst hmaj
      -- the number in the header is the length of what was read
      have hl : UInt64.ofNat (data.length + 1) = l := by
        rw [hlen, UInt64.ofNat_toNat]
      refine ⟨⟨hknown, ?_⟩, ?_⟩
      · show data.length ≤ signatureMaxLength - 1
        omega
      · rw [c.read_eq_ok.1 hread, marshalCBOR, hl]
        simp

/-- The decoder accepts exactly the encodings of admissible signatures, whatever
    follows. -/
theorem unmarshalCBOR_eq_ok {c : HeaderCodec Err} {r s : Signature} {input rest : Bytes} :
    unmarshalCBOR c r input = (.ok rest, s)
      ↔ s.Admissible ∧ input = marshalCBOR c (some s) ++ rest := by
  refine ⟨eq_marshalCBOR_of_unmarshalCBOR, ?_⟩
  rintro ⟨⟨hknown, hlen⟩, rfl⟩
  have hlen' : s.data.length + 1 ≤ signatureMaxLength := Nat.add_le_of_le_sub (by decide) hlen
  have h64 : s.data.length + 1 < 2 ^ 64 := Nat.lt_of_le_of_lt hlen' (by decide)
  have h := unmarshalCBOR_write c r s.type s.data rest (toNat_length_succ h64)
  rw [if_neg (Nat.not_lt.2 hlen'), if_pos hknown] at h
  rw [marshalCBOR_append]
  exact h

/-- A signature that is not admissible is written all the same, and no decoder reads it
    back: its length or its type is refused. -/
theorem unmarshalCBOR_of_not_admissible {c : HeaderCodec Err} (r : Signature) {s : Signature}
    (hs : ¬ s.Admissible) (h64 : s.data.length + 1 < 2 ^ 64) (rest : Bytes) :
    ∃ e, unmarshalCBOR c r (marshalCBOR c (some s) ++ rest) = (.error e, r) := by
  rw [marshalCBOR_append, unmarshalCBOR_write c r s.type s.data rest (toNat_length_succ h64)]
  by_cases hlong : signatureMaxLength < s.data.length + 1
  · rw [if_pos hlong]
    exact ⟨_, rfl⟩
  · have hknown : ¬ SigType.Known s.type := fun hknown => hs ⟨hknown, by omega⟩
    rw [if_neg hlong, if_neg hknown]
    exact ⟨_, rfl⟩

/-- The receiver is assigned only after the last check. -/
theorem unmarshalCBOR_error {c : HeaderCodec Err} {r s : Signature} {input : Bytes} {e : Err}
    (h : unmarshalCBOR c r input = (.error e, s)) : s = r := by
  unfold unmarshalCBOR at h
  grind

/-! ## The binary format -/

/-- `MarshalBinary`. -/
def marshalBinary (s : Signature) : Bytes := s.type :: s.data

/-- `UnmarshalBinary`: a type it does not know becomes `SigTypeUnknown`. -/
def unmarshalBinary (s : Signature) : Bytes → Except Err Unit × Signature
  | [] => (.error (.msg "invalid signature bytes of length 0"), s)
  | t :: data =>
    if data.length + 1 > signatureMaxLength then
      (.error (.msg ("invalid signature bytes, too long (" ++ toString (data.length + 1)
        ++ ")")), s)
    else (.ok (), { type := if SigType.Known t then t else sigTypeUnknown, data := data })

theorem unmarshalBinary_marshalBinary {s : Signature} (hs : s.Admissible) (r : Signature) :
    unmarshalBinary r (marshalBinary s) = (.ok (), s) := by
  obtain ⟨hknown, hlen⟩ := hs
  have hlen' : s.data.length + 1 ≤ signatureMaxLength := Nat.add_le_of_le_sub (by decide) hlen
  rw [marshalBinary, unmarshalBinary, if_neg (Nat.not_lt.2 hlen'), if_pos hknown]

/-! ## Both formats can be read back -/

/-- Both formats give back every admissible signature, the CBOR one with any bytes after
    it; what the CBOR decoder accepts is what the encoder writes for its result; and
    what it rejects leaves the receiver alone. -/
theorem signature_codecs_round_trip (c : HeaderCodec Err) :
    (∀ s : Signature, s.Admissible → ∀ (receiver : Signature) (trailing : Bytes),
      unmarshalCBOR c receiver (marshalCBOR c (some s) ++ trailing) = (.ok trailing, s)
        ∧ unmarshalBinary receiver (marshalBinary s) = (.ok (), s))
    ∧ (∀ (receiver s : Signature) (input rest : Bytes),
      unmarshalCBOR c receiver input = (.ok rest, s) → input = marshalCBOR c (some s) ++ rest)
    ∧ ∀ (receiver s : Signature) (input : Bytes) (e : Err),
      unmarshalCBOR c receiver input = (.error e, s) → s = receiver := by
  refine ⟨?_, ?_, ?_⟩
  · intro s hs receiver trailing
    exact ⟨unmarshalCBOR_eq_ok.2 ⟨hs, rfl⟩, unmarshalBinary_marshalBinary hs receiver⟩
  · intro receiver s input rest h
    exact (unmarshalCBOR_eq_ok.1 h).2
  · intro receiver s input e h
    exact unmarshalCBOR_error h

end Signature

/-- Canonical headers, with the texts of cbor-gen's reader. -/
def cborHeaders : HeaderCodec Err :=
  Cbor.canonical (.msg "EOF") (.msg "unexpected EOF")
    (.msg "invalid header") (.msg "cbor input was not canonical")

namespace Signature

/-- An Ed25519 signature of 64 bytes, whose header takes two bytes, read back in front of
    three others. -/
theorem signature_codecs_ed25519 :
    unmarshalCBOR cborHeaders ⟨0, []⟩
        (marshalCBOR cborHeaders (some ⟨sigTypeEd25519, List.replicate 64 7⟩) ++ [1, 2, 3])
      = (.ok [1, 2, 3], ⟨sigTypeEd25519, List.replicate 64 7⟩) :=
  ((signature_codecs_round_trip cborHeaders).1 ⟨sigTypeEd25519, List.replicate 64 7⟩
    (by decide) ⟨0, []⟩ [1, 2, 3]).1

end Signature

end Dione
