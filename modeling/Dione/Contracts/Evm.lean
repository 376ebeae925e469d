/-
  Dione.Contracts.Evm

  What the Solidity contracts of `eth-contracts` are written in: the value types,
  the ways a call reverts, the globals a call reads and the ABI encodings that
  are hashed.

  A mapping is a function; storage that was never written is zero.  A contract
  function takes the storage it works on to the storage it leaves, or reverts;
  what a reverted call has done so far is undone by the one who runs it.
-/

import Dione.Lib.Checked
import Dione.Types

namespace Dione.Contracts

open Guard

/-- `uint256`. -/
abbrev Uint256 := BitVec 256

/-- `int256` in two's complement: a cast from `uint256` keeps the bits. -/
abbrev Int256 := BitVec 256

/-- `bytes32`. -/
abbrev Bytes32 := BitVec 256

/-- How a call reverts: a failed `require`, checked arithmetic (`Panic(0x11)`) or
    a division by zero (`Panic(0x12)`). -/
inductive Revert where
  | reason (text : String)
  | overflow
  | divisionByZero
  deriving DecidableEq, Repr

/-- The globals of a call: `msg.sender`, `block.number` and `block.timestamp`. -/
structure Msg where
  sender : Address
  number : Uint256
  timestamp : Uint256
  deriving DecidableEq, Repr

/-- The `k` bytes of `n`, most significant first. -/
def bigEndian (k n : Nat) : Bytes :=
  (List.range k).reverse.map fun i => UInt8.ofNat (n / 256 ^ i)

/-- `abi.encodePacked` of an address. -/
def packedAddress (a : Address) : Bytes := bigEndian 20 a.val

/-- `abi.encode` of values that take one word each, and `abi.encodePacked` of
    `uint256` and `bytes32` values. -/
def abiWords (ws : List Uint256) : Bytes := ws.flatMap fun x => bigEndian 32 x.toNat

/-- An address as a word of `abi.encode`. -/
def addressWord (a : Address) : Uint256 := BitVec.ofNat 256 a.val

/-- The functions the EVM provides, and the chain it runs. -/
structure Evm where
  keccak256 : Bytes → Bytes32
  ecrecover : Bytes32 → UInt8 → Bytes32 → Bytes32 → Address
  chainid : Uint256

/-- The events that are listened to outside the contracts, and the low-level
    calls. -/
inductive Event where
  | newDispute (dhash : Bytes32) (requestID : Uint256) (miner disputeInitiator : Address)
  | newVote (dhash : Bytes32) (votedMiner : Address)
  | disputeFinished (dhash : Bytes32) (status : Bool)
  | newOracleRequest (originChain : UInt8) (requestType requestParams : String)
      (reqID deadline : Uint256)
  | cancelOracleRequest (reqID : Uint256)
  | submittedOracleRequest (reqID : Uint256) (data : Bytes)
  | callback (target : Address) (methodID : BitVec 32) (reqID : Uint256) (data : Bytes)
  deriving DecidableEq, Repr

end Dione.Contracts
