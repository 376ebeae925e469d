/-
  Dione.Contracts.Delegation

  The votes of a delegate against the balances of those who chose it.

  `mint` and the two ways to delegate move votes along with the balances.
  `transfer` and `transferFrom` are inherited and move the balances alone, so
  the two stay equal as long as tokens only go between accounts with the same
  delegate.  Where they do not, a later `delegate` can have more to take away
  than there is.
-/

import Dione.Contracts.Checkpoints

namespace Dione.Contracts

open Guard Ledger Timeline

/-! ## What the token does to the shares -/

namespace ERC20

variable {t t' : ERC20} {s r a : Address} {v : Uint256}

/-- A transfer takes from the share of the sender's group and adds to that of the
    recipient's. -/
theorem share_transfer (h : t._transfer s r v = .ok t') (group : Address → Address)
    (g : Address) : share group t'.balances g + (if group s = g then v.toNat else 0)
      = share group t.balances g + (if group r = g then v.toNat else 0) := by
  obtain ⟨-, -, x, y, hx, hy, rfl⟩ := _transfer_eq_ok.mp h
  exact share_move group t.balances s r hx hy g

theorem share_mint (h : t._mint a v = .ok t') (group : Address → Address) (g : Address) :
    share group t'.balances g
      = share group t.balances g + (if group a = g then v.toNat else 0) := by
  simp only [_mint, bind_eq_ok, require_eq_ok, exists_const, Checked.add_eq_ok, pure_eq_ok_iff] at h
  obtain ⟨-, supply, hsupply, sum, hsum, rfl⟩ := h
  exact share_credit group t.balances a hsum g

end ERC20

/-! ## When votes can be moved -/

namespace Votes

variable {vs : Votes} {msg : Msg} {srcRep dstRep : Address} {v : Uint256}

/-- From block 1 on there is always room for another checkpoint. -/
theorem exists_writeCheckpoint (delegatee : Address) (hord : vs.InOrder msg.number.toNat)
    (hstart : vs.StartsFrom 1) (hpos : 0 < msg.number.toNat)
    (hnumber : msg.number.toNat < 2 ^ 32) (v : Uint256) :
    ∃ vs', vs._writeCheckpoint msg delegatee (vs.numCheckpoints delegatee) v = .ok vs' := by
  by_cases hnow : vs.LastIsNow msg delegatee
  · exact ⟨_, writeCheckpoint_eq_ok.mpr ⟨hnumber, .inl ⟨hnow, rfl⟩⟩⟩
  · obtain ⟨hordered, hupTo⟩ := hord delegatee
    have hbefore := forall_lt_of_not_lastIsNow hordered hupTo hnow
    -- at most one checkpoint per block gone by
    have hlength : (vs.trail delegatee).length ≤ msg.number.toNat - 1 :=
      length_le_of_upTo hordered (fun x hx => Nat.le_sub_one_of_lt (hbefore x hx))
        (hstart delegatee)
    have hcount : (vs.trail delegatee).length = (vs.numCheckpoints delegatee).toNat := by
      simp [trail]
    have hone : (1 : BitVec 32).toNat = 1 := rfl
    obtain ⟨count, -, hcountNat⟩ := Checked.exists_add (e := Revert.overflow)
      (a := vs.numCheckpoints delegatee) (b := 1) (by omega)
    exact ⟨_, writeCheckpoint_eq_ok.mpr ⟨hnumber, .inr ⟨hnow, count, hcountNat, rfl⟩⟩⟩

/-- Votes can be moved if the source has them and the destination has room. -/
theorem exists_moveDelegates (hord : vs.InOrder msg.number.toNat) (hstart : vs.StartsFrom 1)
    (hpos : 0 < msg.number.toNat) (hnumber : msg.number.toNat < 2 ^ 32)
    (hsrc : srcRep ≠ .zero → v.toNat ≤ (vs.currentVotes srcRep).toNat)
    (hdst : srcRep ≠ dstRep → dstRep ≠ .zero →
      (vs.currentVotes dstRep).toNat + v.toNat < 2 ^ 256) :
    ∃ vs', vs._moveDelegates msg srcRep dstRep v = .ok vs' := by
  by_cases hmoves : srcRep ≠ dstRep ∧ 0 < v
  · have hdecrease : ∃ vs₁, if srcRep ≠ .zero then vs.decrease msg srcRep v = .ok vs₁
        else vs = vs₁ := by
      split
      · next hne =>
          obtain ⟨x, -, hx⟩ := Checked.exists_sub (e := Revert.overflow) (hsrc hne)
          obtain ⟨vs₁, hwrite⟩ := exists_writeCheckpoint srcRep hord hstart hpos hnumber x
          exact ⟨vs₁, decrease_eq_ok.mpr ⟨x, hx, hwrite⟩⟩
      · exact ⟨vs, rfl⟩
    obtain ⟨vs₁, hdecrease⟩ := hdecrease
    have hout := moved_of_decrease hord hdecrease
    have hincrease : ∃ vs', if dstRep ≠ .zero then vs₁.increase msg dstRep v = .ok vs'
        else vs₁ = vs' := by
      split
      · next hne =>
          have hvotes := hout.votes dstRep hne
          rw [if_neg hmoves.1, if_neg (Ne.symm hne)] at hvotes
          have hroom := hdst hmoves.1 hne
          obtain ⟨y, -, hy⟩ := Checked.exists_add (e := Revert.overflow)
            (a := vs₁.currentVotes dstRep) (b := v) (by omega)
          obtain ⟨vs', hwrite⟩ := exists_writeCheckpoint dstRep hout.inOrder
            (hout.startsFrom 1 hpos hstart) hpos hnumber y
          exact ⟨vs', increase_eq_ok.mpr ⟨y, hy, hwrite⟩⟩
      · exact ⟨vs₁, rfl⟩
    obtain ⟨vs', hincrease⟩ := hincrease
    exact ⟨vs', (moveDelegates_eq_ok hmoves).mpr ⟨vs₁, hdecrease, hincrease⟩⟩
  · refine ⟨vs, ?_⟩
    unfold _moveDelegates
    rw [if_neg hmoves]
    rfl

end Votes

/-! ## One call -/

namespace DioneToken

/-- The balances of all accounts whose delegate is `d`. -/
def delegatedBalance (t : DioneToken) (d : Address) : Nat :=
  share t.votes.delegates t.erc20.balances d

/-- The invariant up to block `n`: the balances add up, the checkpoints are in
    order, and each delegate has the votes of the balances behind it. -/
structure Backed (n : Nat) (t : DioneToken) : Prop where
  supply : total t.erc20.balances = t.erc20.totalSupply.toNat
  inOrder : t.votes.InOrder n
  startsFrom : t.votes.StartsFrom 1
  votes : ∀ d, d ≠ .zero → (t.votes.currentVotes d).toNat = t.delegatedBalance d

variable {evm : Evm} {self : Address} {msg : Msg} {t t' : DioneToken} {n m : Nat}

theorem Backed.mono (h : Backed n t) (hle : n ≤ m) : Backed m t :=
  ⟨h.supply, h.inOrder.mono hle, h.startsFrom, h.votes⟩

theorem backed_deployed (deployer : Address) : Backed 0 (deployed deployer) where
  supply := total_zero
  inOrder := inOrder_deployed deployer 0
  startsFrom := by
    intro a x hx
    rw [Votes.trail_eq_nil rfl] at hx
    cases hx
  votes := by
    intro d _
    have hshare : (deployed deployer).delegatedBalance d = 0 := by
      have hle :=
        share_le_total (deployed deployer).votes.delegates (deployed deployer).erc20.balances d
      rw [show total (deployed deployer).erc20.balances = 0 from total_zero] at hle
      exact Nat.le_zero.mp hle
    rw [hshare, Votes.currentVotes, Votes.trail_eq_nil rfl]
    rfl

theorem Backed.congr (h : Backed n t) (hvotes : t'.votes = t.votes)
    (hbalances : t'.erc20.balances = t.erc20.balances)
    (hsupply : t'.erc20.totalSupply = t.erc20.totalSupply) : Backed n t' := by
  refine ⟨?_, ?_, ?_, ?_⟩
  · rw [hbalances, hsupply, h.supply]
  · rw [hvotes]
    exact h.inOrder
  · rw [hvotes]
    exact h.startsFrom
  · unfold delegatedBalance
    rw [hvotes, hbalances]
    exact h.votes

/-- An approval changes neither votes nor balances. -/
theorem Backed.approve (h : Backed n t) {owner spender : Address} {v : Uint256} {e : ERC20}
    (he : t.erc20._approve owner spender v = .ok e) : Backed n { t with erc20 := e } := by
  obtain ⟨hbalances, hsupply, -⟩ := ERC20.approve_spec he
  exact h.congr rfl hbalances hsupply

/-- Votes and balances that changed alike are still equal. -/
theorem Backed.of_moved {srcRep dstRep : Address} {v : Uint256} {vs : Votes}
    (h : Backed msg.number.toNat t) (hpos : 0 < msg.number.toNat)
    (hcheckpoints : vs.checkpoints = t.votes.checkpoints)
    (hnum : vs.numCheckpoints = t.votes.numCheckpoints)
    (hmove : vs._moveDelegates msg srcRep dstRep v = .ok t'.votes)
    (hsupply : total t'.erc20.balances = t'.erc20.totalSupply.toNat)
    (hshare : ∀ d, d ≠ .zero →
      share vs.delegates t'.erc20.balances d + (if srcRep = d then v.toNat else 0)
        = t.delegatedBalance d + (if dstRep = d then v.toNat else 0)) :
    Backed msg.number.toNat t' := by
  have htrail := trail_congr hcheckpoints hnum
  have hord : vs.InOrder msg.number.toNat := by
    intro a
    rw [htrail a]
    exact h.inOrder a
  have hstart : vs.StartsFrom 1 := by
    intro a
    rw [htrail a]
    exact h.startsFrom a
  have hmoved := Votes.moved_of_moveDelegates hord hmove
  refine ⟨hsupply, hmoved.inOrder, hmoved.startsFrom 1 hpos hstart, ?_⟩
  intro d hd
  have hcurrent : vs.currentVotes d = t.votes.currentVotes d := congrArg (current 0) (htrail d)
  have hvotes := hmoved.votes d hd
  rw [hcurrent, h.votes d hd] at hvotes
  rw [delegatedBalance, hmoved.delegates_eq]
  exact Nat.add_right_cancel (hvotes.trans (hshare d hd).symm)

theorem Backed.mint {_to : Address} {amount : Uint256} (h : Backed msg.number.toNat t)
    (hpos : 0 < msg.number.toNat) (hmint : t.mint msg _to amount = .ok t') :
    Backed msg.number.toNat t' := by
  simp only [DioneToken.mint, bind_eq_ok, pure_eq_ok_iff] at hmint
  obtain ⟨-, -, e, he, vs, hmove, rfl⟩ := hmint
  have hminted := ERC20.minted_of_mint he
  refine h.of_moved hpos rfl rfl hmove ?_ ?_
  · show total e.balances = e.totalSupply.toNat
    rw [hminted.total_eq, hminted.totalSupply_eq, h.supply]
  · intro d hd
    rw [if_neg hd.symm, Nat.add_zero]
    exact ERC20.share_mint he t.votes.delegates d

/-- Delegating, by whatever way and whatever nonces are stored. -/
theorem Backed.delegate {delegator delegatee : Address} (h : Backed msg.number.toNat t)
    (nonces : Address → Uint256) (hpos : 0 < msg.number.toNat)
    (hdelegate : { t with votes := { t.votes with nonces := nonces } }._delegate msg delegator
      delegatee = .ok t') : Backed msg.number.toNat t' := by
  simp only [_delegate, bind_eq_ok, pure_eq_ok_iff] at hdelegate
  obtain ⟨vs, hmove, rfl⟩ := hdelegate
  refine h.of_moved hpos ?_ ?_ hmove h.supply ?_
  · rfl
  · rfl
  · intro d _
    exact share_update_group t.votes.delegates t.erc20.balances delegator delegatee d

/-- A transfer leaves the votes alone. -/
theorem Backed.transfer {e : ERC20} {src dst : Address} {v : Uint256} (h : Backed n t)
    (he : t.erc20._transfer src dst v = .ok e)
    (hsame : v = 0 ∨ t.votes.delegates src = t.votes.delegates dst) :
    Backed n { t with erc20 := e } := by
  obtain ⟨htransferred, -⟩ := ERC20.transferred_of_transfer he
  refine ⟨?_, h.inOrder, h.startsFrom, ?_⟩
  · show total e.balances = e.totalSupply.toNat
    rw [htransferred.total_eq, htransferred.totalSupply_eq, h.supply]
  · intro d hd
    have hshare := ERC20.share_transfer he t.votes.delegates d
    show _ = share t.votes.delegates e.balances d
    rw [h.votes d hd]
    rcases hsame with rfl | hsame
    · simpa [delegatedBalance] using hshare.symm
    · rw [hsame] at hshare
      exact (Nat.add_right_cancel hshare).symm

/-- Tokens that go to an account with another delegate leave votes behind. -/
theorem not_votes_of_transfer {e : ERC20} {src dst : Address} {v : Uint256} (h : Backed n t)
    (he : t.erc20._transfer src dst v = .ok e) (hv : v ≠ 0)
    (hne : t.votes.delegates src ≠ t.votes.delegates dst) :
    ∃ d, d ≠ .zero ∧
      (t.votes.currentVotes d).toNat ≠ { t with erc20 := e }.delegatedBalance d := by
  have hpos : v.toNat ≠ 0 := fun hzero => hv (BitVec.eq_of_toNat_eq hzero)
  -- one of the two delegates is not `address(0)`
  have hsome : ∃ d, d ≠ .zero ∧ (t.votes.delegates src = d ∨ t.votes.delegates dst = d) := by
    by_cases hzero : t.votes.delegates src = .zero
    · exact ⟨_, fun hdst => hne (hzero.trans hdst.symm), .inr rfl⟩
    · exact ⟨_, hzero, .inl rfl⟩
  obtain ⟨d, hd, hcase⟩ := hsome
  have hshare := ERC20.share_transfer he t.votes.delegates d
  refine ⟨d, hd, ?_⟩
  intro heq
  rw [h.votes d hd] at heq
  have hsame : share t.votes.delegates e.balances d = share t.votes.delegates t.erc20.balances d :=
    heq.symm
  rw [hsame] at hshare
  have hamount := Nat.add_left_cancel hshare
  rcases hcase with hsrc | hdst
  · rw [if_pos hsrc, if_neg (fun hdst => hne (hsrc.trans hdst.symm))] at hamount
    exact hpos hamount
  · rw [if_pos hdst, if_neg (fun hsrc => hne (hsrc.trans hdst.symm))] at hamount
    exact hpos hamount.symm

/-- While votes and balances agree, everybody can delegate. -/
theorem exists_delegate {delegatee : Address} (h : Backed msg.number.toNat t)
    (hpos : 0 < msg.number.toNat) (hnumber : msg.number.toNat < 2 ^ 32) :
    ∃ t', t.delegate msg delegatee = .ok t' := by
  have hmove : ∃ vs', Votes._moveDelegates msg (t.votes.delegates msg.sender) delegatee
      (t.erc20.balances msg.sender)
      { t.votes with delegates := Function.update t.votes.delegates msg.sender delegatee }
        = .ok vs' := by
    -- neither subtraction nor addition overflows: the votes of the old delegate contain
    -- the balance, and all votes together are at most the supply
    refine Votes.exists_moveDelegates h.inOrder h.startsFrom hpos hnumber ?_ ?_
    · intro hsrc
      have hle := le_share t.votes.delegates t.erc20.balances msg.sender
      exact hle.trans (h.votes _ hsrc).ge
    · intro hne hdst
      have hle := share_add_le_total t.votes.delegates t.erc20.balances msg.sender hne
      have hsupply : t.erc20.totalSupply.toNat < 2 ^ 256 := t.erc20.totalSupply.isLt
      have hvotes := h.votes delegatee hdst
      rw [delegatedBalance] at hvotes
      rw [h.supply, ← hvotes] at hle
      exact lt_of_le_of_lt hle hsupply
  obtain ⟨vs', hmove⟩ := hmove
  refine ⟨{ t with votes := vs' }, ?_⟩
  unfold delegate _delegate
  simp only [hmove, ok_bind]
  rfl

end DioneToken

/-! ## Runs -/

/-- The tokens a call of `caller` moves: from whom, to whom and how many. -/
def TokenCall.moves (caller : Address) : TokenCall → Option (Address × Address × Uint256)
  | .transfer recipient amount => some (caller, recipient, amount)
  | .transferFrom sender recipient amount => some (sender, recipient, amount)
  | _ => none

/-- The token and the block it was last called in. -/
structure TokenState where
  token : DioneToken
  block : Nat

namespace TokenState

variable (evm : Evm) (self : Address)

/-- One call of the token. -/
def step (s : TokenState) (tx : Msg × TokenCall) : TokenState :=
  ⟨s.token.step evm self tx, tx.1.number.toNat⟩

def deployed (deployer : Address) : TokenState := ⟨.deployed deployer, 0⟩

/-- Every delegate has the votes of the balances behind it, and in no block to
    come, up to the last one `safe32` lets through, does `delegate` revert. -/
structure VotesMatch (s : TokenState) : Prop where
  votes : ∀ d, d ≠ .zero → ∃ v, s.token.votes.getCurrentVotes d = .ok v ∧
    v.toNat = s.token.delegatedBalance d
  delegate : ∀ msg delegatee, s.block ≤ msg.number.toNat → 0 < msg.number.toNat →
    msg.number.toNat < 2 ^ 32 → ∃ t', s.token.delegate msg delegatee = .ok t'

/-- The call is in a block that can come next. -/
def NextBlock (s : TokenState) (tx : Msg × TokenCall) : Prop :=
  s.block ≤ tx.1.number.toNat ∧ 0 < tx.1.number.toNat

/-- If the call moves tokens, the two accounts have the same delegate. -/
def MovesWithinDelegate (s : TokenState) (tx : Msg × TokenCall) : Prop :=
  ∀ src dst v, tx.2.moves tx.1.sender = some (src, dst, v) →
    (∃ t', tx.2.run evm self tx.1 s.token = .ok t') →
      v = 0 ∨ s.token.votes.delegates src = s.token.votes.delegates dst

variable {evm self} {s : TokenState} {tx : Msg × TokenCall}

theorem votesMatch_of_backed (h : s.token.Backed s.block) : s.VotesMatch where
  votes d hd := ⟨_, Votes.lastVotes_eq, h.votes d hd⟩
  delegate _ _ hle hpos hnumber := DioneToken.exists_delegate (h.mono hle) hpos hnumber

/-- What a call that moves tokens does. -/
theorem transfer_of_moves {msg : Msg} {c : TokenCall} {t t' : DioneToken} {src dst : Address}
    {v : Uint256} (hmoves : c.moves msg.sender = some (src, dst, v))
    (hrun : c.run evm self msg t = .ok t') : ∃ e, t.erc20._transfer src dst v = .ok e ∧
      t'.votes = t.votes ∧ t'.erc20.balances = e.balances ∧
        t'.erc20.totalSupply = e.totalSupply := by
  cases c with
  | transfer recipient amount =>
      obtain ⟨rfl, rfl, rfl⟩ : msg.sender = src ∧ recipient = dst ∧ amount = v := by
        simpa [TokenCall.moves] using hmoves
      simp only [TokenCall.run, bind_eq_ok, pure_eq_ok_iff] at hrun
      obtain ⟨e, he, rfl⟩ := hrun
      exact ⟨e, he, rfl, rfl, rfl⟩
  | transferFrom sender recipient amount =>
      obtain ⟨rfl, rfl, rfl⟩ : sender = src ∧ recipient = dst ∧ amount = v := by
        simpa [TokenCall.moves] using hmoves
      simp only [TokenCall.run, bind_eq_ok, pure_eq_ok_iff] at hrun
      obtain ⟨e, he, rfl⟩ := hrun
      obtain ⟨e₁, he₁, x, -, happrove⟩ := ERC20.transferFrom_eq_ok.mp he
      obtain ⟨hbalances, hsupply, -⟩ := ERC20.approve_spec happrove
      exact ⟨e₁, he₁, rfl, hbalances, hsupply⟩
  | _ => cases hmoves

theorem backed_of_run {msg : Msg} {c : TokenCall} {t t' : DioneToken}
    (h : t.Backed msg.number.toNat) (hpos : 0 < msg.number.toNat)
    (hrun : c.run evm self msg t = .ok t')
    (hok : ∀ src dst v, c.moves msg.sender = some (src, dst, v) →
      v = 0 ∨ t.votes.delegates src = t.votes.delegates dst) :
    t'.Backed msg.number.toNat := by
  cases hmoves : c.moves msg.sender with
  | some move =>
      obtain ⟨src, dst, v⟩ := move
      obtain ⟨e, he, hvotes, hbalances, hsupply⟩ := transfer_of_moves hmoves hrun
      exact (h.transfer he (hok src dst v hmoves)).congr hvotes hbalances hsupply
  | none =>
      cases c with
      | transfer recipient amount => cases hmoves
      | transferFrom sender recipient amount => cases hmoves
      | mint _to amount => exact h.mint hpos hrun
      | delegate delegatee =>
          have hdelegate := h.delegate t.votes.nonces hpos hrun
          exact hdelegate
      | delegateBySig delegatee nonce expiry v r s =>
          simp only [TokenCall.run, DioneToken.delegateBySig, bind_eq_ok, require_eq_ok,
            exists_const] at hrun
          obtain ⟨-, next, -, -, -, hrun⟩ := hrun
          exact h.delegate _ hpos hrun
      | approve spender amount =>
          simp only [TokenCall.run, bind_eq_ok, pure_eq_ok_iff] at hrun
          obtain ⟨e, he, rfl⟩ := hrun
          exact h.approve he
      | increaseAllowance spender addedValue =>
          simp only [TokenCall.run, ERC20.increaseAllowance, bind_eq_ok, pure_eq_ok_iff] at hrun
          obtain ⟨e, ⟨x, -, he⟩, rfl⟩ := hrun
          exact h.approve he
      | decreaseAllowance spender subtractedValue =>
          simp only [TokenCall.run, ERC20.decreaseAllowance, bind_eq_ok, require_eq_ok,
            exists_const, pure_eq_ok_iff] at hrun
          obtain ⟨e, ⟨-, x, -, he⟩, rfl⟩ := hrun
          exact h.approve he
      | transferOwnership newOwner =>
          simp only [TokenCall.run, bind_eq_ok, pure_eq_ok_iff] at hrun
          obtain ⟨owner, -, rfl⟩ := hrun
          exact h.congr rfl rfl rfl
      | renounceOwnership =>
          simp only [TokenCall.run, bind_eq_ok, pure_eq_ok_iff] at hrun
          obtain ⟨owner, -, rfl⟩ := hrun
          exact h.congr rfl rfl rfl

theorem backed_step (h : s.token.Backed s.block) (hnext : s.NextBlock tx)
    (hok : s.MovesWithinDelegate evm self tx) :
    (s.step evm self tx).token.Backed (s.step evm self tx).block := by
  have hnow := h.mono hnext.1
  show (s.token.step evm self tx).Backed tx.1.number.toNat
  unfold DioneToken.step
  split
  · next t' hrun =>
      exact backed_of_run hnow hnext.2 hrun fun src dst v hmoves => hok src dst v hmoves ⟨t', hrun⟩
  · exact hnow

theorem not_votesMatch_step (h : s.token.Backed s.block)
    (hno : ¬ s.MovesWithinDelegate evm self tx) : ¬ (s.step evm self tx).VotesMatch := by
  unfold MovesWithinDelegate at hno
  push Not at hno
  obtain ⟨src, dst, v, hmoves, ⟨t', hrun⟩, hv, hne⟩ := hno
  obtain ⟨e, he, hvotes, hbalances, -⟩ := transfer_of_moves hmoves hrun
  obtain ⟨d, hd, hdiffer⟩ := DioneToken.not_votes_of_transfer h he hv hne
  have hstep : (s.step evm self tx).token = t' := by
    show s.token.step evm self tx = t'
    unfold DioneToken.step
    rw [hrun]
  intro hmatch
  obtain ⟨x, hx, hxd⟩ := hmatch.votes d hd
  rw [hstep] at hx hxd
  have hcurrent : t'.votes.currentVotes d = x :=
    Except.ok.inj (Votes.lastVotes_eq.symm.trans hx)
  rw [DioneToken.delegatedBalance, hvotes, hbalances] at hxd
  rw [← hcurrent, hvotes] at hxd
  exact hdiffer hxd

/-- Calls in the order of their blocks, the first of which is not that of
    genesis. -/
theorem nextBlock_of_chronological {txs : List (Msg × TokenCall)}
    (hchron : DioneToken.Chronological txs) (hpos : ∀ tx ∈ txs, 0 < tx.1.number.toNat)
    (hfirst : ∀ tx ∈ txs, s.block ≤ tx.1.number.toNat) :
    Run.StepsMeet (step evm self) s txs NextBlock := by
  induction txs generalizing s with
  | nil => exact Run.stepsMeet_nil
  | cons tx txs ih =>
      obtain ⟨hhead, hrest⟩ := List.pairwise_cons.mp hchron
      obtain ⟨hposHead, hposRest⟩ := List.forall_mem_cons.mp hpos
      refine Run.stepsMeet_cons.mpr ⟨⟨hfirst tx (List.mem_cons_self ..), hposHead⟩, ?_⟩
      exact ih hrest hposRest hhead

end TokenState

/-- In every state of a run the votes match the balances iff tokens only go between
    accounts that have the same delegate. -/
theorem votesMatch_iff_movesWithinDelegate (evm : Evm) (self deployer : Address)
    (txs : List (Msg × TokenCall)) (hchron : DioneToken.Chronological txs)
    (hpos : ∀ tx ∈ txs, 0 < tx.1.number.toNat) :
    Run.Always (TokenState.step evm self) (.deployed deployer) txs TokenState.VotesMatch ↔
      Run.StepsMeet (TokenState.step evm self) (.deployed deployer) txs
        (TokenState.MovesWithinDelegate evm self) := by
  have hvalid : Run.StepsMeet (TokenState.step evm self) (.deployed deployer) txs
      TokenState.NextBlock :=
    TokenState.nextBlock_of_chronological hchron hpos fun _ _ => Nat.zero_le _
  refine Run.always_iff_stepsMeet_of_valid (I := fun s => s.token.Backed s.block) ?_ ?_ ?_
    (DioneToken.backed_deployed deployer) hvalid
  · intro s h
    exact TokenState.votesMatch_of_backed h
  · intro s tx h hnext hok
    exact TokenState.backed_step h hnext hok
  · intro s tx h _ hno
    exact TokenState.not_votesMatch_step h hno

theorem votesMatch_delegated :
    Run.Always (TokenState.step sampleEvm (.ofNat 1)) (.deployed (.ofNat 10)) DioneToken.delegated
      TokenState.VotesMatch := by
  refine (votesMatch_iff_movesWithinDelegate sampleEvm (.ofNat 1) (.ofNat 10) DioneToken.delegated
    (by unfold DioneToken.Chronological; decide) (by decide)).mpr ?_
  refine Run.stepsMeet_cons.mpr ⟨?_, Run.stepsMeet_cons.mpr ⟨?_, Run.stepsMeet_nil⟩⟩
  · intro src dst v hmoves
    cases hmoves
  · intro src dst v hmoves
    cases hmoves

/-- 13 delegates to 14 before it gets the tokens of 11. -/
def transferredAfterDelegating : List (Msg × TokenCall) :=
  [DioneToken.callAt (.ofNat 10) 1 (.mint (.ofNat 11) 100),
    DioneToken.callAt (.ofNat 13) 2 (.delegate (.ofNat 14)),
    DioneToken.callAt (.ofNat 11) 3 (.transfer (.ofNat 13) 100)]

/-- When 13 then chooses another delegate, 14 has no votes to give back. -/
theorem not_votesMatch_transferredAfterDelegating :
    ¬ Run.Always (TokenState.step sampleEvm (.ofNat 1)) (.deployed (.ofNat 10))
      transferredAfterDelegating TokenState.VotesMatch := by
  intro h
  obtain ⟨t', hdelegate⟩ := h.final.delegate ⟨.ofNat 13, 4, 4⟩ (.ofNat 15) (by decide) (by decide)
    (by decide)
  have hreverts : ((Run.exec (TokenState.step sampleEvm (.ofNat 1)) (.deployed (.ofNat 10))
      transferredAfterDelegating).token.delegate ⟨.ofNat 13, 4, 4⟩ (.ofNat 15)).isOk = false := by
    decide +kernel
  rw [hdelegate] at hreverts
  cases hreverts

end Dione.Contracts
