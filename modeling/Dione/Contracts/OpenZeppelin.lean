/-
  Dione.Contracts.OpenZeppelin

  The OpenZeppelin contracts the repository's own inherit from, at the version
  its lock file names (4.0.0): `Ownable` and `ERC20`.
-/

import Dione.Contracts.Evm
import Dione.Lib.Ledger
import Mathlib.Data.Fintype.Card

namespace Dione.Contracts

open Guard Ledger

/-! ## Ownable -/

/-- The modifier `onlyOwner`. -/
def onlyOwner (owner sender : Address) : Except Revert Unit :=
  require (owner = sender) (.reason "Ownable: caller is not the owner")

/-- `transferOwnership`: the owner afterwards. -/
def transferOwnership (owner sender newOwner : Address) : Except Revert Address := do
  onlyOwner owner sender
  require (newOwner ≠ .zero) (.reason "Ownable: new owner is the zero address")
  return newOwner

/-- `renounceOwnership`: the owner afterwards. -/
def renounceOwnership (owner sender : Address) : Except Revert Address := do
  onlyOwner owner sender
  return .zero

/-! ## ERC20 -/

/-- The storage of `ERC20`. -/
structure ERC20 where
  balances : Address → Uint256
  allowances : Address → Address → Uint256
  totalSupply : Uint256

namespace ERC20

/-- The storage after the constructor. -/
def deployed : ERC20 := ⟨fun _ => 0, fun _ _ => 0, 0⟩

def _transfer (sender recipient : Address) (amount : Uint256) (t : ERC20) :
    Except Revert ERC20 := do
  require (sender ≠ .zero) (.reason "ERC20: transfer from the zero address")
  require (recipient ≠ .zero) (.reason "ERC20: transfer to the zero address")
  let senderBalance := t.balances sender
  require (amount ≤ senderBalance) (.reason "ERC20: transfer amount exceeds balance")
  let rest ← Checked.sub .overflow senderBalance amount
  let balances := Function.update t.balances sender rest
  -- read after the debit: `recipient` may be `sender`
  let sum ← Checked.add .overflow (balances recipient) amount
  return { t with balances := Function.update balances recipient sum }

def _mint (account : Address) (amount : Uint256) (t : ERC20) : Except Revert ERC20 := do
  require (account ≠ .zero) (.reason "ERC20: mint to the zero address")
  let totalSupply ← Checked.add .overflow t.totalSupply amount
  let sum ← Checked.add .overflow (t.balances account) amount
  return { t with
    totalSupply := totalSupply
    balances := Function.update t.balances account sum }

def _approve (owner spender : Address) (amount : Uint256) (t : ERC20) : Except Revert ERC20 := do
  require (owner ≠ .zero) (.reason "ERC20: approve from the zero address")
  require (spender ≠ .zero) (.reason "ERC20: approve to the zero address")
  return { t with
    allowances := Function.update t.allowances owner
      (Function.update (t.allowances owner) spender amount) }

def transfer (sender recipient : Address) (amount : Uint256) (t : ERC20) : Except Revert ERC20 :=
  t._transfer sender recipient amount

def approve (sender spender : Address) (amount : Uint256) (t : ERC20) : Except Revert ERC20 :=
  t._approve sender spender amount

/-- `transferFrom`, called by `caller`. -/
def transferFrom (caller sender recipient : Address) (amount : Uint256) (t : ERC20) :
    Except Revert ERC20 := do
  let t ← t._transfer sender recipient amount
  -- the allowance is checked after the tokens have moved
  let currentAllowance := t.allowances sender caller
  require (amount ≤ currentAllowance) (.reason "ERC20: transfer amount exceeds allowance")
  let rest ← Checked.sub .overflow currentAllowance amount
  t._approve sender caller rest

def increaseAllowance (sender spender : Address) (addedValue : Uint256) (t : ERC20) :
    Except Revert ERC20 := do
  let sum ← Checked.add .overflow (t.allowances sender spender) addedValue
  t._approve sender spender sum

def decreaseAllowance (sender spender : Address) (subtractedValue : Uint256) (t : ERC20) :
    Except Revert ERC20 := do
  let currentAllowance := t.allowances sender spender
  require (subtractedValue ≤ currentAllowance) (.reason "ERC20: decreased allowance below zero")
  let rest ← Checked.sub .overflow currentAllowance subtractedValue
  t._approve sender spender rest

/-! ### What the functions do to balances -/

/-- `v` went from the balance of `s` to that of `r`. -/
structure Transferred (s r : Address) (v : Uint256) (t t' : ERC20) : Prop where
  totalSupply_eq : t'.totalSupply = t.totalSupply
  total_eq : total t'.balances = total t.balances
  /-- Only the balance of `s` can go down. -/
  le_of_ne : ∀ a, a ≠ s → (t.balances a).toNat ≤ (t'.balances a).toNat
  debited : s ≠ r → (t'.balances s).toNat + v.toNat = (t.balances s).toNat
  credited : s ≠ r → (t'.balances r).toNat = (t.balances r).toNat + v.toNat
  /-- A transfer to oneself changes nothing. -/
  balances_eq : s = r → t'.balances = t.balances

variable {t t' : ERC20} {s r a caller : Address} {v : Uint256}

theorem _transfer_eq_ok : t._transfer s r v = .ok t' ↔ s ≠ .zero ∧ r ≠ .zero ∧
    ∃ x y : Uint256, x.toNat + v.toNat = (t.balances s).toNat ∧
      y.toNat = (Function.update t.balances s x r).toNat + v.toNat ∧
      t' = { t with balances := Function.update (Function.update t.balances s x) r y } := by
  simp only [_transfer, bind_eq_ok, require_eq_ok, exists_const, Checked.sub_eq_ok,
    Checked.add_eq_ok, pure_eq_ok_iff, BitVec.le_def]
  constructor
  · rintro ⟨hs, hr, -, x, hx, y, hy, rfl⟩
    exact ⟨hs, hr, x, y, hx, hy, rfl⟩
  · rintro ⟨hs, hr, x, y, hx, hy, rfl⟩
    exact ⟨hs, hr, by omega, x, hx, y, hy, rfl⟩

theorem transferred_of_transfer (h : t._transfer s r v = .ok t') :
    Transferred s r v t t' ∧ t'.allowances = t.allowances := by
  obtain ⟨-, -, x, y, hx, hy, rfl⟩ := _transfer_eq_ok.mp h
  refine ⟨⟨rfl, total_move t.balances s r hx hy, ?_, ?_, ?_, ?_⟩, rfl⟩
  · intro a ha
    by_cases har : a = r
    · subst har
      rw [Function.update_of_ne ha] at hy
      simp only [Function.update_self]
      omega
    · simp only [Function.update_of_ne har, Function.update_of_ne ha, le_refl]
  · intro hne
    simpa only [Function.update_of_ne hne, Function.update_self] using hx
  · intro hne
    rw [Function.update_of_ne hne.symm] at hy
    simpa only [Function.update_self] using hy
  · rintro rfl
    rw [Function.update_self] at hy
    have hback : y = t.balances s := BitVec.eq_of_toNat_eq (by omega)
    show Function.update (Function.update t.balances s x) s y = t.balances
    rw [Function.update_idem, hback, Function.update_eq_self]

/-- A transfer of what the sender has goes through while the balances add up to
    the supply. -/
theorem exists_transfer (hs : s ≠ .zero) (hr : r ≠ .zero) (hne : s ≠ r)
    (hle : v.toNat ≤ (t.balances s).toNat)
    (htotal : total t.balances = t.totalSupply.toNat) : ∃ t', t._transfer s r v = .ok t' := by
  obtain ⟨x, -, hx⟩ := Checked.exists_sub (e := Revert.overflow) hle
  -- sender and recipient together have no more than the supply, so nothing overflows
  have htwo := add_le_total t.balances hne
  have hsupply : t.totalSupply.toNat < 2 ^ 256 := t.totalSupply.isLt
  have hfits : (Function.update t.balances s x r).toNat + v.toNat < 2 ^ 256 := by
    rw [Function.update_of_ne hne.symm]
    omega
  obtain ⟨y, -, hy⟩ := Checked.exists_add (e := Revert.overflow) hfits
  exact ⟨_, _transfer_eq_ok.mpr ⟨hs, hr, x, y, hx, hy, rfl⟩⟩

theorem _approve_eq_ok : t._approve s r v = .ok t' ↔ s ≠ .zero ∧ r ≠ .zero ∧
    { t with
      allowances := Function.update t.allowances s (Function.update (t.allowances s) r v) }
        = t' := by
  simp only [_approve, bind_eq_ok, require_eq_ok, exists_const, pure_eq_ok_iff]

/-- An approval changes the allowances its owner gives and nothing else. -/
theorem approve_spec (h : t._approve s r v = .ok t') : t'.balances = t.balances ∧
    t'.totalSupply = t.totalSupply ∧ ∀ a, a ≠ s → t'.allowances a = t.allowances a := by
  obtain ⟨-, -, rfl⟩ := _approve_eq_ok.mp h
  exact ⟨rfl, rfl, fun a ha => Function.update_of_ne ha ..⟩

theorem transferFrom_eq_ok : t.transferFrom caller s r v = .ok t' ↔
    ∃ t₁, t._transfer s r v = .ok t₁ ∧ ∃ x : Uint256,
      x.toNat + v.toNat = (t.allowances s caller).toNat ∧ t₁._approve s caller x = .ok t' := by
  simp only [transferFrom, bind_eq_ok, require_eq_ok, exists_const, Checked.sub_eq_ok,
    BitVec.le_def]
  constructor
  · rintro ⟨t₁, ht₁, -, x, hx, happ⟩
    rw [(transferred_of_transfer ht₁).2] at hx
    exact ⟨t₁, ht₁, x, hx, happ⟩
  · rintro ⟨t₁, ht₁, x, hx, happ⟩
    rw [← (transferred_of_transfer ht₁).2] at hx
    exact ⟨t₁, ht₁, by omega, x, hx, happ⟩

/-- `v` was created in the balance of `a`. -/
structure Minted (a : Address) (v : Uint256) (t t' : ERC20) : Prop where
  allowances_eq : t'.allowances = t.allowances
  totalSupply_eq : t'.totalSupply.toNat = t.totalSupply.toNat + v.toNat
  total_eq : total t'.balances = total t.balances + v.toNat
  le : ∀ b, (t.balances b).toNat ≤ (t'.balances b).toNat
  credited : (t'.balances a).toNat = (t.balances a).toNat + v.toNat

theorem minted_of_mint (h : t._mint a v = .ok t') : Minted a v t t' := by
  simp only [_mint, bind_eq_ok, require_eq_ok, exists_const, Checked.add_eq_ok, pure_eq_ok_iff] at h
  obtain ⟨-, supply, hsupply, sum, hsum, rfl⟩ := h
  refine ⟨rfl, hsupply, ?_, ?_, by simpa only [Function.update_self] using hsum⟩
  · have hupdate := total_update t.balances a sum
    show total (Function.update t.balances a sum) = total t.balances + v.toNat
    omega
  · intro b
    by_cases hb : b = a
    · subst hb
      simp only [Function.update_self]
      omega
    · simp only [Function.update_of_ne hb, le_refl]

end ERC20

end Dione.Contracts
