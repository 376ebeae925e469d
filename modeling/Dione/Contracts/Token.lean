/-
  Dione.Contracts.Token

  `DioneToken.sol`: an `ERC20` with an owner who can mint, and the votes of
  delegates with their history of checkpoints.

  `transfer` and `transferFrom` are those of `ERC20`; they do not touch the votes.
-/

import Dione.Contracts.OpenZeppelin

namespace Dione.Contracts

open Guard
open Text (textBytes)

structure Checkpoint where
  fromBlock : BitVec 32
  votes : Uint256
  deriving DecidableEq, Repr

/-- The storage of the governance part: `_delegates`, `checkpoints`,
    `numCheckpoints` and `nonces`. -/
structure Votes where
  delegates : Address → Address
  checkpoints : Address → BitVec 32 → Checkpoint
  numCheckpoints : Address → BitVec 32
  nonces : Address → Uint256

/-- The storage of `DioneToken`. -/
structure DioneToken where
  owner : Address
  erc20 : ERC20
  votes : Votes

namespace Votes

/-- The storage after the constructor. -/
def deployed : Votes := ⟨fun _ => .zero, fun _ _ => ⟨0, 0⟩, fun _ => 0, fun _ => 0⟩

def safe32 (n : Uint256) (errorMessage : String) : Except Revert (BitVec 32) := do
  require (n.toNat < 2 ^ 32) (.reason errorMessage)
  return n.setWidth 32

/-- The votes of the last checkpoint, as `_moveDelegates` and `getCurrentVotes`
    read them. -/
def lastVotes (account : Address) (vs : Votes) : Except Revert Uint256 :=
  let nCheckpoints := vs.numCheckpoints account
  if 0 < nCheckpoints then do
    let last ← Checked.sub .overflow nCheckpoints 1
    return (vs.checkpoints account last).votes
  else
    return 0

def _writeCheckpoint (msg : Msg) (delegatee : Address) (nCheckpoints : BitVec 32)
    (newVotes : Uint256) (vs : Votes) : Except Revert Votes := do
  let blockNumber ← safe32 msg.number "DIONE::_writeCheckpoint: block number exceeds 32 bits"
  let own := vs.checkpoints delegatee
  -- `nCheckpoints - 1` is read behind the guard only
  if 0 < nCheckpoints ∧ (own (nCheckpoints - 1)).fromBlock = blockNumber then
    return { vs with
      checkpoints := Function.update vs.checkpoints delegatee
        (Function.update own (nCheckpoints - 1)
          { own (nCheckpoints - 1) with votes := newVotes }) }
  else
    let count ← Checked.add .overflow nCheckpoints 1
    return { vs with
      checkpoints := Function.update vs.checkpoints delegatee
        (Function.update own nCheckpoints ⟨blockNumber, newVotes⟩)
      numCheckpoints := Function.update vs.numCheckpoints delegatee count }

/-- The decrease of the old representative in `_moveDelegates`. -/
def decrease (msg : Msg) (srcRep : Address) (amount : Uint256) (vs : Votes) :
    Except Revert Votes := do
  let srcRepNum := vs.numCheckpoints srcRep
  let srcRepOld ← vs.lastVotes srcRep
  let srcRepNew ← Checked.sub .overflow srcRepOld amount
  vs._writeCheckpoint msg srcRep srcRepNum srcRepNew

/-- The increase of the new representative in `_moveDelegates`. -/
def increase (msg : Msg) (dstRep : Address) (amount : Uint256) (vs : Votes) :
    Except Revert Votes := do
  let dstRepNum := vs.numCheckpoints dstRep
  let dstRepOld ← vs.lastVotes dstRep
  let dstRepNew ← Checked.add .overflow dstRepOld amount
  vs._writeCheckpoint msg dstRep dstRepNum dstRepNew

def _moveDelegates (msg : Msg) (srcRep dstRep : Address) (amount : Uint256) (vs : Votes) :
    Except Revert Votes :=
  if srcRep ≠ dstRep ∧ 0 < amount then do
    -- `address(0)` stands for no delegate and keeps no checkpoints
    let vs ← if srcRep ≠ .zero then vs.decrease msg srcRep amount else pure vs
    if dstRep ≠ .zero then vs.increase msg dstRep amount else pure vs
  else
    return vs

/-- The loop of `getPriorVotes`.  `fuel` is no less than the distance of `lower`
    and `upper`: where it is used up the two have met, and the loop is over. -/
def searchCheckpoints (own : BitVec 32 → Checkpoint) (blockNumber : Uint256) :
    Nat → BitVec 32 → BitVec 32 → Except Revert Uint256
  | 0, lower, _ => return (own lower).votes
  | fuel + 1, lower, upper =>
    if lower < upper then do
      let width ← Checked.sub .overflow upper lower
      let half ← Checked.div .divisionByZero width 2
      -- ceil
      let center ← Checked.sub .overflow upper half
      let cp := own center
      if cp.fromBlock.setWidth 256 = blockNumber then
        return cp.votes
      else if cp.fromBlock.setWidth 256 < blockNumber then
        searchCheckpoints own blockNumber fuel center upper
      else do
        let upper ← Checked.sub .overflow center 1
        searchCheckpoints own blockNumber fuel lower upper
    else
      return (own lower).votes

def getCurrentVotes (account : Address) (vs : Votes) : Except Revert Uint256 :=
  vs.lastVotes account

def getPriorVotes (msg : Msg) (account : Address) (blockNumber : Uint256) (vs : Votes) :
    Except Revert Uint256 := do
  require (blockNumber < msg.number) (.reason "DIONE::getPriorVotes: not yet determined")
  let nCheckpoints := vs.numCheckpoints account
  let own := vs.checkpoints account
  if nCheckpoints = 0 then
    return 0
  else do
    let last ← Checked.sub .overflow nCheckpoints 1
    -- first the most recent balance, then the implicit zero balance
    if (own last).fromBlock.setWidth 256 ≤ blockNumber then
      return (own last).votes
    else if blockNumber < (own 0).fromBlock.setWidth 256 then
      return 0
    else
      searchCheckpoints own blockNumber nCheckpoints.toNat 0 last

end Votes

namespace DioneToken

/-- The storage after the constructor, which makes its caller the owner. -/
def deployed (deployer : Address) : DioneToken := ⟨deployer, .deployed, .deployed⟩

/-- `mint`, called by `msg.sender`. -/
def mint (msg : Msg) (_to : Address) (amount : Uint256) (t : DioneToken) :
    Except Revert DioneToken := do
  onlyOwner t.owner msg.sender
  let erc20 ← t.erc20._mint _to amount
  -- the delegate of the recipient gains the minted votes
  let votes ← t.votes._moveDelegates msg .zero (t.votes.delegates _to) amount
  return { t with erc20 := erc20, votes := votes }

def _delegate (msg : Msg) (delegator delegatee : Address) (t : DioneToken) :
    Except Revert DioneToken := do
  let currentDelegate := t.votes.delegates delegator
  let delegatorBalance := t.erc20.balances delegator
  let votes := { t.votes with delegates := Function.update t.votes.delegates delegator delegatee }
  let votes ← votes._moveDelegates msg currentDelegate delegatee delegatorBalance
  return { t with votes := votes }

def delegate (msg : Msg) (delegatee : Address) (t : DioneToken) : Except Revert DioneToken :=
  t._delegate msg msg.sender delegatee

/-- The digest that is signed for `delegateBySig`, with `self` the address of the
    token. -/
def delegationDigest (evm : Evm) (self delegatee : Address) (nonce expiry : Uint256) : Bytes32 :=
  let domainTypehash := evm.keccak256
    (textBytes "EIP712Domain(string name,uint256 chainId,address verifyingContract)".toList)
  let delegationTypehash := evm.keccak256
    (textBytes "Delegation(address delegatee,uint256 nonce,uint256 expiry)".toList)
  let domainSeparator := evm.keccak256 (abiWords
    [domainTypehash, evm.keccak256 (textBytes "DioneToken".toList), evm.chainid, addressWord self])
  let structHash := evm.keccak256 (abiWords
    [delegationTypehash, addressWord delegatee, nonce, expiry])
  evm.keccak256 ([0x19, 0x01] ++ abiWords [domainSeparator, structHash])

def delegateBySig (evm : Evm) (self : Address) (msg : Msg) (delegatee : Address)
    (nonce expiry : Uint256) (v : UInt8) (r s : Bytes32) (t : DioneToken) :
    Except Revert DioneToken := do
  let signatory := evm.ecrecover (delegationDigest evm self delegatee nonce expiry) v r s
  require (signatory ≠ .zero) (.reason "DIONE::delegateBySig: invalid signature")
  -- `nonces[signatory]++` is evaluated before the comparison
  let next ← Checked.add .overflow (t.votes.nonces signatory) 1
  require (nonce = t.votes.nonces signatory) (.reason "DIONE::delegateBySig: invalid nonce")
  require (msg.timestamp ≤ expiry) (.reason "DIONE::delegateBySig: signature expired")
  let votes := { t.votes with nonces := Function.update t.votes.nonces signatory next }
  { t with votes := votes }._delegate msg signatory delegatee

variable {t t' : DioneToken} {msg : Msg} {a : Address} {v : Uint256}

theorem mint_spec (h : t.mint msg a v = .ok t') :
    t.owner = msg.sender ∧ t'.owner = t.owner ∧ t.erc20._mint a v = .ok t'.erc20 := by
  simp only [mint, onlyOwner, bind_eq_ok, require_eq_ok, exists_const, pure_eq_ok_iff] at h
  obtain ⟨howner, erc20, herc20, votes, -, rfl⟩ := h
  exact ⟨howner, rfl, herc20⟩

theorem _delegate_spec {delegatee : Address} (h : t._delegate msg a delegatee = .ok t') :
    t'.erc20 = t.erc20 ∧ t'.owner = t.owner := by
  simp only [_delegate, bind_eq_ok, pure_eq_ok_iff] at h
  obtain ⟨votes, -, rfl⟩ := h
  exact ⟨rfl, rfl⟩

theorem delegateBySig_spec {evm : Evm} {self delegatee : Address} {nonce expiry : Uint256}
    {b : UInt8} {r s : Bytes32}
    (h : t.delegateBySig evm self msg delegatee nonce expiry b r s = .ok t') :
    t'.erc20 = t.erc20 ∧ t'.owner = t.owner := by
  simp only [delegateBySig, bind_eq_ok, require_eq_ok, exists_const] at h
  obtain ⟨-, next, -, -, -, h⟩ := h
  -- the token `_delegate` starts from differs from `t` in a nonce
  have hspec := _delegate_spec h
  exact hspec

end DioneToken

end Dione.Contracts
