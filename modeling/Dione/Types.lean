/-
  Dione.Types

  The data the node works on: blocks, transactions, election proofs and tasks
  (`blockchain/types`, `types`), with the errors its functions return.

  A Go pointer that may be nil is an `Option`; reading through it is `deref`,
  which fails with the run-time panic `Err.nilDeref`.  A Go string used as a
  map key is the list of its characters.
-/

import Dione.Lib.Guard
import Dione.Lib.Text
import Mathlib.Algebra.Ring.Int.Defs
import Mathlib.Algebra.Ring.Nat

namespace Dione

open Text (Str hexEncode)

/-- `[]byte`. -/
abbrev Bytes := List UInt8

/-- `peer.ID`, a byte string. -/
abbrev PeerID := Bytes

/-- An Ethereum address, `common.Address` in Go and `address` in Solidity. -/
abbrev Address := Fin (2 ^ 160)

/-- The address with number `n`. -/
def Address.ofNat (n : Nat) : Address := Fin.ofNat (2 ^ 160) n

/-- `address(0)`. -/
def Address.zero : Address := Address.ofNat 0

/-! ## Errors -/

/-- What a Go function of the node can end with other than a result.  The
    sentinels are compared by identity in the source; `wrap` is
    `fmt.Errorf("text: %w", inner)`; the last three are run-time panics. -/
inductive Err where
  | blockNotFound
  | latestHeightNil
  | noAcceptedBlocks
  | msg (text : String)
  | wrap (text : String) (inner : Err)
  | nilDeref
  | indexOutOfRange
  | divisionByZero
  deriving DecidableEq, Repr

/-- Run-time panics are not errors a caller gets to see. -/
def Err.isPanic : Err → Bool
  | .nilDeref | .indexOutOfRange | .divisionByZero => true
  | _ => false

/-- `error.Error()`. -/
def Err.text : Err → String
  | .blockNotFound => "block isn't found"
  | .latestHeightNil => "latest block height is nil"
  | .noAcceptedBlocks => "there is no accepted blocks"
  | .msg t => t
  | .wrap t inner => t ++ ": " ++ inner.text
  | .nilDeref => "invalid memory address or nil pointer dereference"
  | .indexOutOfRange => "index out of range"
  | .divisionByZero => "division by zero"

/-- Attach a context to the error of `x`, as `fmt.Errorf("text: %w", err)`; a
    panic passes through. -/
def wrapErr {α : Type} (text : String) (x : Except Err α) : Except Err α :=
  x.mapError fun e => if e.isPanic then e else .wrap text e

/-- The same with `%s`: the inner error is flattened to its text. -/
def flattenErr {α : Type} (text : String) (x : Except Err α) : Except Err α :=
  x.mapError fun e => if e.isPanic then e else .msg (text ++ ": " ++ e.text)

@[simp] theorem wrapErr_eq_ok {α : Type} {text : String} {x : Except Err α} {a : α} :
    wrapErr text x = .ok a ↔ x = .ok a := by
  cases x <;> simp [wrapErr, Except.mapError]

@[simp] theorem flattenErr_eq_ok {α : Type} {text : String} {x : Except Err α} {a : α} :
    flattenErr text x = .ok a ↔ x = .ok a := by
  cases x <;> simp [flattenErr, Except.mapError]

/-- Wrapping adds no panic and hides none. -/
theorem wrapErr_eq_panic {α : Type} {text : String} {x : Except Err α} {p : Err}
    (hp : p.isPanic = true) : wrapErr text x = .error p ↔ x = .error p := by
  cases x with
  | ok a => simp [wrapErr, Except.mapError]
  | error e =>
      by_cases he : e.isPanic = true
      · simp [wrapErr, Except.mapError, he]
      · have hne : e ≠ p := fun heq => he (heq ▸ hp)
        have hwrap : Err.wrap text e ≠ p := fun heq => by
          rw [← heq] at hp
          cases hp
        simp [wrapErr, Except.mapError, he, hne, hwrap]

theorem wrapErr_eq_nilDeref {α : Type} {text : String} {x : Except Err α} :
    wrapErr text x = .error .nilDeref ↔ x = .error .nilDeref :=
  wrapErr_eq_panic rfl

theorem wrapErr_eq_divisionByZero {α : Type} {text : String} {x : Except Err α} :
    wrapErr text x = .error .divisionByZero ↔ x = .error .divisionByZero :=
  wrapErr_eq_panic rfl

/-- Read through a pointer. -/
def deref {α : Type} : Option α → Except Err α
  | some a => .ok a
  | none => .error .nilDeref

@[simp] theorem deref_some {α : Type} (a : α) : deref (some a) = .ok a := rfl

@[simp] theorem deref_eq_ok {α : Type} {o : Option α} {a : α} :
    deref o = .ok a ↔ o = some a := by
  cases o <;> simp [deref]

theorem deref_eq_error {α : Type} {o : Option α} {e : Err} :
    deref o = .error e ↔ o = none ∧ e = .nilDeref := by
  cases o <;> simp [deref, eq_comm]

/-- `%x` of a byte string. -/
def hexString (b : Bytes) : String := String.ofList (hexEncode b)

/-! ## Blocks and transactions -/

/-- `merkletree.Proof`; `hashes` is nil until a proof has been generated. -/
structure Proof where
  hashes : Option (List Bytes)
  index : UInt64
  deriving DecidableEq, Repr

/-- `types.Transaction`.  The timestamp counts nanoseconds. -/
structure Transaction where
  hash : Bytes
  merkleProof : Proof
  timestamp : Int
  data : Bytes
  deriving DecidableEq, Repr

/-- `types.ElectionProof`. -/
structure ElectionProof where
  winCount : Int64
  vrfProof : Bytes
  randomnessRound : UInt64
  deriving DecidableEq, Repr

/-- `types.BeaconEntry`. -/
structure BeaconEntry where
  round : UInt64
  data : Bytes
  deriving DecidableEq, Repr

/-- `types.BlockHeader`. -/
structure BlockHeader where
  timestamp : Int64
  height : UInt64
  hash : Bytes
  lastHash : Bytes
  lastHashProof : Option Proof
  proposer : Option PeerID
  proposerEth : Address
  signature : Bytes
  beaconEntry : BeaconEntry
  electionProof : Option ElectionProof
  deriving DecidableEq, Repr

/-- `types.Block`. -/
structure Block where
  header : Option BlockHeader
  data : List (Option Transaction)
  deriving DecidableEq, Repr

/-- The hash the genesis block carries, the bytes of `DIMICANDUM`. -/
def genesisHash : Bytes := [68, 73, 77, 73, 67, 65, 78, 68, 85, 77]

/-- The header of `types.GenesisBlock`: fields the source leaves out are zero
    values, pointers among them nil. -/
def genesisHeader : BlockHeader where
  timestamp := 1620845070
  height := 0
  hash := genesisHash
  lastHash := []
  lastHashProof := none
  proposer := none
  proposerEth := .zero
  signature := []
  beaconEntry := ⟨0, []⟩
  electionProof := none

/-- `types.GenesisBlock`. -/
def genesisBlock : Block := ⟨some genesisHeader, []⟩

/-- `types.DioneTask`. -/
structure DioneTask where
  originChain : UInt8
  requestType : Str
  requestParams : Str
  payload : Bytes
  requestID : Str
  deriving DecidableEq, Repr

end Dione
