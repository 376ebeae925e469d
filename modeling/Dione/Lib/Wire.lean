/-
  Dione.Lib.Wire

  Byte formats that can be read back.  A `Code` writes values as bytes and reads
  the first value of a byte string, whatever follows it; the law `get_put` is a
  field, so that every combination of codes is a code again.

  Numbers are written seven bits at a time, the lowest first, with the high bit set
  on every byte but the last.  Lists are preceded by their length.
-/

import Mathlib.Logic.Basic

namespace Dione.Wire

/-- A format for the values of `α`. -/
structure Code (α : Type) where
  put : α → List UInt8
  get : List UInt8 → Option (α × List UInt8)
  get_put : ∀ a rest, get (put a ++ rest) = some (a, rest)

namespace Code

variable {α β : Type}

/-- Read a byte string that holds one value and nothing else. -/
def decode (c : Code α) (bs : List UInt8) : Option α :=
  match c.get bs with
  | some (a, []) => some a
  | _ => none

theorem decode_put (c : Code α) (a : α) : c.decode (c.put a) = some a := by
  have h := c.get_put a []
  rw [List.append_nil] at h
  rw [decode, h]

/-! ## Numbers -/

/-- The digits of `n` to the base 128, at most `fuel + 1` of them. -/
def putNat : Nat → Nat → List UInt8
  | 0, n => [UInt8.ofNat n]
  | fuel + 1, n =>
    if n < 128 then [UInt8.ofNat n] else UInt8.ofNat (n % 128 + 128) :: putNat fuel (n / 128)

def getNat : List UInt8 → Option (Nat × List UInt8)
  | [] => none
  | b :: bs =>
    if b.toNat < 128 then some (b.toNat, bs)
    else (getNat bs).map fun r => (b.toNat - 128 + 128 * r.1, r.2)

theorem getNat_putNat {fuel n : Nat} (h : n ≤ fuel) (rest : List UInt8) :
    getNat (putNat fuel n ++ rest) = some (n, rest) := by
  have hlast : ∀ m, m < 128 → getNat ([UInt8.ofNat m] ++ rest) = some (m, rest) := by
    intro m hm
    have hb : (UInt8.ofNat m).toNat = m := UInt8.toNat_ofNat_of_lt' (show m < 256 by omega)
    rw [List.singleton_append, getNat, hb, if_pos hm]
  induction fuel generalizing n with
  | zero => exact hlast n (by omega)
  | succ fuel ih =>
      rw [putNat]
      split
      · next hsmall => exact hlast n hsmall
      · next hlarge =>
          have hb : (UInt8.ofNat (n % 128 + 128)).toNat = n % 128 + 128 :=
            UInt8.toNat_ofNat_of_lt' (show n % 128 + 128 < 256 by omega)
          have hlow : n % 128 + 128 - 128 + 128 * (n / 128) = n := by omega
          rw [List.cons_append, getNat, hb, if_neg (by omega), ih (by omega), Option.map_some, hlow]

/-- Natural numbers; `n` has at most `n` digits. -/
def nat : Code Nat where
  put n := putNat n n
  get := getNat
  get_put n rest := getNat_putNat (Nat.le_refl n) rest

/-! ## Combinations -/

/-- Write the values of `β` as values of `α`. -/
def via (c : Code α) (f : β → α) (g : α → β) (h : ∀ b, g (f b) = b) : Code β where
  put b := c.put (f b)
  get bs := (c.get bs).map fun r => (g r.1, r.2)
  get_put b rest := by rw [c.get_put, Option.map_some, h]

/-- One value after the other. -/
def pair (c : Code α) (d : Code β) : Code (α × β) where
  put p := c.put p.1 ++ d.put p.2
  get bs := (c.get bs).bind fun r => (d.get r.2).map fun r' => ((r.1, r'.1), r'.2)
  get_put p rest := by
    rw [List.append_assoc, c.get_put, Option.bind_some, d.get_put, Option.map_some]

def putOption (c : Code α) : Option α → List UInt8
  | none => [0]
  | some a => 1 :: c.put a

def getOption (c : Code α) : List UInt8 → Option (Option α × List UInt8)
  | [] => none
  | b :: bs => if b = 0 then some (none, bs) else (c.get bs).map fun r => (some r.1, r.2)

/-- A byte that tells whether a value follows. -/
def option (c : Code α) : Code (Option α) where
  put := c.putOption
  get := c.getOption
  get_put a rest := by
    cases a with
    | none => rfl
    | some a =>
        show (c.get (c.put a ++ rest)).map _ = _
        rw [c.get_put, Option.map_some]

/-- Read `n` values. -/
def getMany (c : Code α) : Nat → List UInt8 → Option (List α × List UInt8)
  | 0, bs => some ([], bs)
  | n + 1, bs => (c.get bs).bind fun r => (c.getMany n r.2).map fun r' => (r.1 :: r'.1, r'.2)

theorem getMany_flatMap (c : Code α) (l : List α) (rest : List UInt8) :
    c.getMany l.length (l.flatMap c.put ++ rest) = some (l, rest) := by
  induction l with
  | nil => rfl
  | cons a l ih =>
      rw [List.length_cons, getMany, List.flatMap_cons, List.append_assoc, c.get_put,
        Option.bind_some, ih, Option.map_some]

/-- The length and the values. -/
def list (c : Code α) : Code (List α) where
  put l := nat.put l.length ++ l.flatMap c.put
  get bs := (nat.get bs).bind fun r => c.getMany r.1 r.2
  get_put l rest := by
    rw [List.append_assoc, nat.get_put, Option.bind_some, c.getMany_flatMap]

end Code

end Dione.Wire
