/-
  Dione.Lib.Cbor

  The headers of CBOR items: a major type between 0 and 7 and a 64-bit argument,
  which is a number, a length or a count of elements.

  `HeaderCodec` is a writer and a reader of headers that agree: the reader accepts
  exactly what the writer produces, whatever follows.  `canonical` is such a pair: an
  argument below 24 stands in the first byte, any other in the fewest of 1, 2, 4 or 8
  bytes that hold it, the highest first.
-/

import Mathlib.Tactic.IntervalCases

namespace Dione.Cbor

/-- A writer and a reader of headers that agree. -/
structure HeaderCodec (ε : Type) where
  write : Fin 8 → UInt64 → List UInt8
  read : List UInt8 → Except ε (Fin 8 × UInt64 × List UInt8)
  /-- The reader accepts exactly the headers that the writer produces. -/
  read_eq_ok : ∀ {bs major arg rest},
    read bs = .ok (major, arg, rest) ↔ bs = write major arg ++ rest
  /-- A short argument stands in the first byte, beside the major type. -/
  write_short : ∀ (major : Fin 8) {arg : UInt64}, arg.toNat < 24 →
    write major arg = [UInt8.ofNat (32 * major + arg.toNat)]

namespace HeaderCodec

variable {ε : Type} (c : HeaderCodec ε)

@[simp] theorem read_write (major : Fin 8) (arg : UInt64) (rest : List UInt8) :
    c.read (c.write major arg ++ rest) = .ok (major, arg, rest) :=
  c.read_eq_ok.2 rfl

end HeaderCodec

/-! ## Numbers in a fixed number of bytes -/

/-- The number `n` in `w` bytes, the highest first. -/
def beBytes : Nat → Nat → List UInt8
  | 0, _ => []
  | w + 1, n => UInt8.ofNat (n / 256 ^ w) :: beBytes w (n % 256 ^ w)

/-- The number that a byte string stands for. -/
def beValue : List UInt8 → Nat
  | [] => 0
  | b :: bs => b.toNat * 256 ^ bs.length + beValue bs

@[simp] theorem length_beBytes (w n : Nat) : (beBytes w n).length = w := by
  induction w generalizing n with
  | zero => rfl
  | succ w ih => rw [beBytes, List.length_cons, ih]

theorem beValue_lt (bs : List UInt8) : beValue bs < 256 ^ bs.length := by
  induction bs with
  | nil => exact Nat.one_pos
  | cons b bs ih =>
      have hb : b.toNat + 1 ≤ 256 := b.toNat_lt
      calc beValue (b :: bs) < b.toNat * 256 ^ bs.length + 256 ^ bs.length :=
            Nat.add_lt_add_left ih _
        _ = (b.toNat + 1) * 256 ^ bs.length := (Nat.succ_mul _ _).symm
        _ ≤ 256 * 256 ^ bs.length := Nat.mul_le_mul_right _ hb
        _ = 256 ^ (b :: bs).length := by rw [List.length_cons, Nat.pow_succ, Nat.mul_comm]

theorem beValue_beBytes {w n : Nat} (h : n < 256 ^ w) : beValue (beBytes w n) = n := by
  induction w generalizing n with
  | zero =>
      have hn : n = 0 := Nat.lt_one_iff.1 h
      rw [hn]
      rfl
  | succ w ih =>
      have hpos : 0 < 256 ^ w := Nat.pow_pos (by decide)
      have hdigit : n / 256 ^ w < 256 := by
        rw [Nat.div_lt_iff_lt_mul hpos, Nat.mul_comm, ← Nat.pow_succ]
        exact h
      rw [beBytes, beValue, length_beBytes, ih (Nat.mod_lt n hpos),
        UInt8.toNat_ofNat_of_lt' hdigit]
      exact Nat.div_add_mod' n (256 ^ w)

theorem beBytes_beValue (bs : List UInt8) : beBytes bs.length (beValue bs) = bs := by
  induction bs with
  | nil => rfl
  | cons b bs ih =>
      have hpos : 0 < 256 ^ bs.length := Nat.pow_pos (by decide)
      have hlt := beValue_lt bs
      rw [List.length_cons, beBytes, beValue, Nat.mul_comm, Nat.mul_add_div hpos,
        Nat.div_eq_of_lt hlt, Nat.add_zero, UInt8.ofNat_toNat, Nat.mul_add_mod,
        Nat.mod_eq_of_lt hlt, ih]

/-! ## The first byte -/

/-- The first byte of a header: the major type in its three high bits, the low five
    bits as given. -/
def initial (major : Fin 8) (low : Nat) : UInt8 := UInt8.ofNat (32 * major + low)

def majorOf (b : UInt8) : Fin 8 :=
  ⟨b.toNat / 32, by have := b.toNat_lt; omega⟩

def lowOf (b : UInt8) : Nat := b.toNat % 32

theorem toNat_initial (major : Fin 8) {low : Nat} (h : low < 32) :
    (initial major low).toNat = 32 * major + low :=
  UInt8.toNat_ofNat_of_lt' (show 32 * major.val + low < 256 by omega)

@[simp] theorem majorOf_initial (major : Fin 8) {low : Nat} (h : low < 32) :
    majorOf (initial major low) = major := by
  apply Fin.ext
  show (initial major low).toNat / 32 = major
  rw [toNat_initial major h]
  omega

@[simp] theorem lowOf_initial (major : Fin 8) {low : Nat} (h : low < 32) :
    lowOf (initial major low) = low := by
  rw [lowOf, toNat_initial major h]
  omega

theorem initial_majorOf_lowOf (b : UInt8) : initial (majorOf b) (lowOf b) = b := by
  have hsum : 32 * (b.toNat / 32) + b.toNat % 32 = b.toNat := Nat.div_add_mod _ _
  show UInt8.ofNat (32 * (b.toNat / 32) + b.toNat % 32) = b
  rw [hsum, UInt8.ofNat_toNat]

/-! ## Canonical headers -/

/-- The low five bits for the argument `n`. -/
def lowFor (n : Nat) : Nat :=
  if n < 24 then n
  else if n < 2 ^ 8 then 24
  else if n < 2 ^ 16 then 25
  else if n < 2 ^ 32 then 26
  else 27

/-- How many bytes follow the low bits 24, 25, 26 and 27. -/
def width (low : Nat) : Nat := 2 ^ (low - 24)

/-- The least argument that needs so many. -/
def least (low : Nat) : Nat := if low = 24 then 24 else 256 ^ 2 ^ (low - 25)

def writeCanonical (major : Fin 8) (arg : UInt64) : List UInt8 :=
  initial major (lowFor arg.toNat) ::
    if arg.toNat < 24 then [] else beBytes (width (lowFor arg.toNat)) arg.toNat

/-- Read a header, with an error for each way to fail: no byte at all, fewer bytes than
    announced, low bits that announce no argument, an argument written longer than it
    needs. -/
def readCanonical {ε : Type} (eof cut invalid longer : ε) :
    List UInt8 → Except ε (Fin 8 × UInt64 × List UInt8)
  | [] => .error eof
  | b :: bs =>
    if lowOf b < 24 then .ok (majorOf b, UInt64.ofNat (lowOf b), bs)
    else if 27 < lowOf b then .error invalid
    else if bs.length < width (lowOf b) then .error cut
    else if beValue (bs.take (width (lowOf b))) < least (lowOf b) then .error longer
    else .ok (majorOf b, UInt64.ofNat (beValue (bs.take (width (lowOf b)))),
      bs.drop (width (lowOf b)))

/-- An argument that does not fit beside the major type is in the range of its width. -/
theorem lowFor_range {n : Nat} (h24 : 24 ≤ n) (h : n < 2 ^ 64) :
    24 ≤ lowFor n ∧ lowFor n ≤ 27 ∧ least (lowFor n) ≤ n ∧ n < 256 ^ width (lowFor n) := by
  unfold lowFor
  split_ifs <;> simp only [least, width] <;> norm_num <;> omega

/-- The ranges of the four widths are disjoint. -/
theorem lowFor_eq {low n : Nat} (h24 : 24 ≤ low) (h27 : low ≤ 27) (hleast : least low ≤ n)
    (hlt : n < 256 ^ width low) : 24 ≤ n ∧ n < 2 ^ 64 ∧ lowFor n = low := by
  interval_cases low <;> simp only [least, width] at hleast hlt <;>
    norm_num at hleast hlt <;> unfold lowFor <;> split_ifs <;> omega

section Canonical

variable {ε : Type} {eof cut invalid longer : ε}

theorem readCanonical_writeCanonical (major : Fin 8) (arg : UInt64) (rest : List UInt8) :
    readCanonical eof cut invalid longer (writeCanonical major arg ++ rest)
      = .ok (major, arg, rest) := by
  by_cases h24 : arg.toNat < 24
  · have hlow : lowFor arg.toNat = arg.toNat := if_pos h24
    have hlt : arg.toNat < 32 := by omega
    simp [writeCanonical, readCanonical, hlow, h24, hlt]
  · obtain ⟨hge, hle, hleast, hlt⟩ := lowFor_range (Nat.le_of_not_lt h24) arg.toNat_lt
    have h32 : lowFor arg.toNat < 32 := by omega
    simp [writeCanonical, readCanonical, h24, h32, Nat.not_lt.2 hge, Nat.not_lt.2 hle,
      Nat.not_lt.2 hleast, beValue_beBytes hlt]

theorem eq_writeCanonical {bs rest : List UInt8} {major : Fin 8} {arg : UInt64}
    (h : readCanonical eof cut invalid longer bs = .ok (major, arg, rest)) :
    bs = writeCanonical major arg ++ rest := by
  cases bs with
  | nil => cases h
  | cons b bs =>
      rw [readCanonical] at h
      split_ifs at h with h24 h27 hcut hlonger
      · -- the argument is the low bits themselves
        cases h
        have harg : (UInt64.ofNat (lowOf b)).toNat = lowOf b :=
          UInt64.toNat_ofNat_of_lt' (show lowOf b < 2 ^ 64 by omega)
        have hlow : lowFor (lowOf b) = lowOf b := if_pos h24
        simp [writeCanonical, harg, hlow, h24, initial_majorOf_lowOf]
      · cases h
        have hlen : (bs.take (width (lowOf b))).length = width (lowOf b) :=
          List.length_take_of_le (Nat.le_of_not_lt hcut)
        have hlt := beValue_lt (bs.take (width (lowOf b)))
        rw [hlen] at hlt
        obtain ⟨hge, h64, hlow⟩ := lowFor_eq (Nat.le_of_not_lt h24) (Nat.le_of_not_lt h27)
          (Nat.le_of_not_lt hlonger) hlt
        have hback := beBytes_beValue (bs.take (width (lowOf b)))
        rw [hlen] at hback
        simp [writeCanonical, UInt64.toNat_ofNat_of_lt' h64, hlow, Nat.not_lt.2 hge,
          initial_majorOf_lowOf, hback]

/-- The canonical headers. -/
def canonical (eof cut invalid longer : ε) : HeaderCodec ε where
  write := writeCanonical
  read := readCanonical eof cut invalid longer
  read_eq_ok := by
    intro bs major arg rest
    refine ⟨eq_writeCanonical, ?_⟩
    rintro rfl
    exact readCanonical_writeCanonical major arg rest
  write_short := by
    intro major arg h
    have hlow : lowFor arg.toNat = arg.toNat := if_pos h
    rw [writeCanonical, hlow, if_pos h, initial]

end Canonical

end Dione.Cbor
