/-
  Dione.Lib.Text

  Hexadecimal and decimal text as lists of characters, and the facts that make
  such texts usable as map keys: both encodings are injective, and neither
  produces a character outside its own alphabet, so keys with different
  prefixes cannot be confused.
-/

import Mathlib.Data.List.Basic

namespace Dione.Text

/-- A text, as the list of its characters. -/
abbrev Str := List Char

/-! ## Hexadecimal -/

/-- Lower-case hexadecimal, two digits per byte, most significant first. -/
def hexEncode : List UInt8 → Str
  | [] => []
  | b :: bs => Nat.digitChar (b.toNat / 16) :: Nat.digitChar (b.toNat % 16) :: hexEncode bs

theorem digitChar_inj {m n : Nat} (hm : m < 16) (hn : n < 16)
    (h : Nat.digitChar m = Nat.digitChar n) : m = n := by
  have key : ∀ i : Fin 16, ∀ j : Fin 16,
      Nat.digitChar i.val = Nat.digitChar j.val → i = j := by decide
  exact congrArg Fin.val (key ⟨m, hm⟩ ⟨n, hn⟩ h)

theorem hexEncode_injective : Function.Injective hexEncode := by
  intro xs
  induction xs with
  | nil =>
      intro ys h
      cases ys with
      | nil => rfl
      | cons y ys => simp [hexEncode] at h
  | cons x xs ih =>
      intro ys h
      cases ys with
      | nil => simp [hexEncode] at h
      | cons y ys =>
          simp only [hexEncode, List.cons.injEq] at h
          obtain ⟨hhi, hlo, htl⟩ := h
          have hx := x.toNat_lt
          have hy := y.toNat_lt
          have h1 := digitChar_inj (by omega) (by omega) hhi
          have h2 := digitChar_inj (by omega) (by omega) hlo
          have hxy : x.toNat = y.toNat := by omega
          rw [UInt8.toNat_inj.mp hxy, ih htl]

/-- The characters a hexadecimal text is made of. -/
def IsHexChar (c : Char) : Prop := c ∈ "0123456789abcdef".toList

instance (c : Char) : Decidable (IsHexChar c) :=
  inferInstanceAs (Decidable (c ∈ "0123456789abcdef".toList))

theorem isHexChar_digitChar {n : Nat} (hn : n < 16) : IsHexChar (Nat.digitChar n) := by
  have key : ∀ i : Fin 16, IsHexChar (Nat.digitChar i.val) := by decide
  exact key ⟨n, hn⟩

theorem isHexChar_of_mem_hexEncode {bs : List UInt8} {c : Char}
    (h : c ∈ hexEncode bs) : IsHexChar c := by
  induction bs with
  | nil => simp [hexEncode] at h
  | cons b bs ih =>
      have hb := b.toNat_lt
      simp only [hexEncode, List.mem_cons] at h
      rcases h with rfl | rfl | h
      · exact isHexChar_digitChar (by omega)
      · exact isHexChar_digitChar (by omega)
      · exact ih h

/-- A text that starts with a character outside `[0-9a-f]` encodes no bytes. -/
theorem hexEncode_ne_cons {bs : List UInt8} {c : Char} {cs : Str}
    (hc : ¬ IsHexChar c) : hexEncode bs ≠ c :: cs := by
  intro h
  exact hc (isHexChar_of_mem_hexEncode (h ▸ List.mem_cons_self ..))

/-- The bytes of a text whose characters are all below 256. -/
def textBytes (t : Str) : List UInt8 := t.map fun c => c.toNat.toUInt8

theorem map_ofNat_textBytes_hexEncode (bs : List UInt8) :
    ((textBytes (hexEncode bs)).map fun b => Char.ofNat b.toNat) = hexEncode bs := by
  have hall : ("0123456789abcdef".toList.all fun c =>
      decide (Char.ofNat c.toNat.toUInt8.toNat = c)) = true := by decide
  have hchar : ∀ c, IsHexChar c → Char.ofNat c.toNat.toUInt8.toNat = c := fun c hc =>
    of_decide_eq_true (List.all_eq_true.mp hall c hc)
  rw [textBytes, List.map_map]
  calc List.map ((fun b => Char.ofNat b.toNat) ∘ fun c => c.toNat.toUInt8) (hexEncode bs)
      = List.map id (hexEncode bs) :=
        List.map_congr_left fun c hc => hchar c (isHexChar_of_mem_hexEncode hc)
    _ = hexEncode bs := List.map_id _

theorem textBytes_hexEncode_injective :
    Function.Injective fun bs => textBytes (hexEncode bs) := by
  intro a b h
  apply hexEncode_injective
  rw [← map_ofNat_textBytes_hexEncode a, ← map_ofNat_textBytes_hexEncode b]
  exact congrArg _ h

/-! ## Decimal -/

/-- The decimal digits of a natural number. -/
def decimal (n : Nat) : Str := Nat.toDigits 10 n

theorem decimal_injective : Function.Injective decimal := by
  intro m n h
  have hm := @Nat.ofDigitChars_ten_toDigits m
  rw [show Nat.toDigits 10 m = Nat.toDigits 10 n from h, Nat.ofDigitChars_ten_toDigits] at hm
  exact hm.symm

/-- The number that decimal digits denote; there has to be a digit. -/
def parseDecimal (t : Str) : Option Nat :=
  if t ≠ [] ∧ t.all Char.isDigit then some (Nat.ofDigitChars 10 t 0) else none

theorem decimal_ne_nil (n : Nat) : decimal n ≠ [] := Nat.toDigits_ne_nil

theorem isDigit_of_mem_decimal {n : Nat} {c : Char} (h : c ∈ decimal n) : c.isDigit = true :=
  Nat.isDigit_of_mem_toDigits (by decide) (by decide) h

theorem parseDecimal_decimal (n : Nat) : parseDecimal (decimal n) = some n := by
  have hdigits : (decimal n).all Char.isDigit = true :=
    List.all_eq_true.mpr fun _ hc => isDigit_of_mem_decimal hc
  rw [parseDecimal, if_pos ⟨decimal_ne_nil n, hdigits⟩]
  exact congrArg some Nat.ofDigitChars_ten_toDigits

end Dione.Text
