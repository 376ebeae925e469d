/-
  Dione.Contracts.Staking

  `DioneStaking.sol`: miners deposit DIONE tokens, withdraw them, earn rewards
  through the oracle contract and lose their stake to the winners of a dispute.

  The functions that call the token work on both storages; `self` is the address
  of the staking contract, which the token sees as the caller.
-/

import Dione.Contracts.Token

namespace Dione.Contracts

open Guard Ledger

structure MinerInfo where
  amount : Uint256
  firstStakeBlock : Uint256
  lastRewardBlock : Uint256
  deriving DecidableEq, Repr

/-- The storage of `DioneStaking`.  `entered` is the status of `ReentrancyGuard`. -/
structure DioneStaking where
  owner : Address
  entered : Bool
  dioneOracleAddress : Address
  disputeContractAddr : Address
  minerReward : Uint256
  startBlock : Uint256
  minimumStake : Uint256
  totalStake : Uint256
  minerInfo : Address → MinerInfo

namespace DioneStaking

/-- The storage after the constructor. -/
def deployed (deployer : Address) (minerReward startBlock minimumStake : Uint256) :
    DioneStaking where
  owner := deployer
  entered := false
  dioneOracleAddress := .zero
  disputeContractAddr := .zero
  minerReward := minerReward
  startBlock := startBlock
  minimumStake := minimumStake
  totalStake := 0
  minerInfo _ := ⟨0, 0, 0⟩

def minerStake (s : DioneStaking) (minerAddr : Address) : Uint256 := (s.minerInfo minerAddr).amount

def isMiner (s : DioneStaking) (minerAddr : Address) : Bool :=
  decide (s.minimumStake ≤ (s.minerInfo minerAddr).amount)

/-- Write `minerInfo[a]`. -/
def setInfo (s : DioneStaking) (a : Address) (info : MinerInfo) : DioneStaking :=
  { s with minerInfo := Function.update s.minerInfo a info }

/-- Write `minerInfo[a].amount`. -/
def setAmount (s : DioneStaking) (a : Address) (amount : Uint256) : DioneStaking :=
  s.setInfo a { s.minerInfo a with amount := amount }

/-- The modifier `nonReentrant`. -/
def nonReentrant (s : DioneStaking)
    (body : DioneStaking → Except Revert (DioneStaking × DioneToken)) :
    Except Revert (DioneStaking × DioneToken) := do
  require (s.entered = false) (.reason "ReentrancyGuard: reentrant call")
  let (s, t) ← body { s with entered := true }
  return ({ s with entered := false }, t)

section Functions

variable (self : Address) (msg : Msg)

def mine (minerAddr : Address) (s : DioneStaking) (t : DioneToken) :
    Except Revert (DioneStaking × DioneToken) :=
  s.nonReentrant fun s => do
    require (msg.sender = s.dioneOracleAddress) (.reason "not oracle contract")
    -- reverts unless the staking contract owns the token
    let t ← t.mint { msg with sender := self } minerAddr s.minerReward
    return (s.setInfo minerAddr { s.minerInfo minerAddr with lastRewardBlock := msg.number }, t)

def mineAndStake (minerAddr : Address) (s : DioneStaking) (t : DioneToken) :
    Except Revert (DioneStaking × DioneToken) :=
  s.nonReentrant fun s => do
    require (msg.sender = s.dioneOracleAddress) (.reason "not oracle contract")
    let miner := s.minerInfo minerAddr
    let t ← t.mint { msg with sender := self } self s.minerReward
    let totalStake ← Checked.add .overflow s.totalStake s.minerReward
    let amount ← Checked.add .overflow miner.amount s.minerReward
    return ({ s with totalStake := totalStake }.setInfo minerAddr
      { miner with amount := amount, lastRewardBlock := msg.number }, t)

def stake (amount : Uint256) (s : DioneStaking) (t : DioneToken) :
    Except Revert (DioneStaking × DioneToken) :=
  s.nonReentrant fun s => do
    require (0 < amount) (.reason "cannot stake zero")
    require (s.minimumStake ≤ amount)
      (.reason "actual stake amount is less than minimum stake amount")
    let miner := s.minerInfo msg.sender
    let erc20 ← t.erc20.transferFrom self msg.sender self amount
    let totalStake ← Checked.add .overflow s.totalStake amount
    let sum ← Checked.add .overflow miner.amount amount
    -- written once: a later stake does not move it
    let firstStakeBlock :=
      if miner.firstStakeBlock = 0 then
        if s.startBlock < msg.number then msg.number else s.startBlock
      else miner.firstStakeBlock
    return ({ s with totalStake := totalStake }.setInfo msg.sender
      { miner with amount := sum, firstStakeBlock := firstStakeBlock }, { t with erc20 := erc20 })

def withdraw (amount : Uint256) (s : DioneStaking) (t : DioneToken) :
    Except Revert (DioneStaking × DioneToken) :=
  s.nonReentrant fun s => do
    let miner := s.minerInfo msg.sender
    require (amount ≤ miner.amount) (.reason "withdraw: not enough tokens")
    require (0 < amount) (.reason "cannot withdraw zero")
    -- the storage is written before the tokens go out
    let totalStake ← Checked.sub .overflow s.totalStake amount
    let rest ← Checked.sub .overflow miner.amount amount
    let erc20 ← t.erc20.transfer self msg.sender amount
    return ({ s with totalStake := totalStake }.setInfo msg.sender { miner with amount := rest },
      { t with erc20 := erc20 })

/-- A setter: the owner writes a value that passes its check. -/
def setByOwner (s : DioneStaking) (valid : Prop) [Decidable valid] (text : String)
    (written : DioneStaking) : Except Revert DioneStaking := do
  onlyOwner s.owner msg.sender
  require valid (.reason text)
  return written

def setMinerReward (minerReward : Uint256) (s : DioneStaking) : Except Revert DioneStaking :=
  s.setByOwner msg (0 < minerReward) "reward must not be zero" { s with minerReward := minerReward }

def setMinimumStake (minimumStake : Uint256) (s : DioneStaking) : Except Revert DioneStaking :=
  s.setByOwner msg (0 < minimumStake) "minimum stake must not be zero"
    { s with minimumStake := minimumStake }

def setOracleContractAddress (addr : Address) (s : DioneStaking) : Except Revert DioneStaking :=
  s.setByOwner msg (addr ≠ .zero) "address must not be zero" { s with dioneOracleAddress := addr }

def setDisputeContractAddress (addr : Address) (s : DioneStaking) : Except Revert DioneStaking :=
  s.setByOwner msg (addr ≠ .zero) "address must not be zero" { s with disputeContractAddr := addr }

/-- The loop of `slashMiner` over the recipients not yet served; `i` is its
    `uint8` counter. -/
def slashLoop (miner : Address) (share : Uint256) :
    List Address → BitVec 8 → DioneStaking → Except Revert DioneStaking
  | [], _, s => .ok s
  | r :: rs, i, s => do
    require (r ≠ miner) (.reason "receipent address must not be slashing address")
    -- checked against the stakes as this loop has left them so far
    require (s.isMiner r = true) (.reason "receipent address isn't dione miner")
    let rest ← Checked.sub .overflow (s.minerInfo miner).amount share
    let s := s.setAmount miner rest
    let sum ← Checked.add .overflow (s.minerInfo r).amount share
    -- `i++` comes after the body, so the 256th recipient makes it overflow
    let i ← Checked.add .overflow i 1
    slashLoop miner share rs i (s.setAmount r sum)

def slashMiner (miner : Address) (receipentMiners : List Address) (s : DioneStaking) :
    Except Revert DioneStaking := do
  require (msg.sender = s.disputeContractAddr) (.reason "caller is not the dispute contract")
  require (miner ≠ .zero) (.reason "slashing address must not be zero")
  require (s.isMiner miner = true) (.reason "slashing address isn't dione miner")
  let share ← Checked.div .divisionByZero (s.minerInfo miner).amount
    (BitVec.ofNat 256 receipentMiners.length)
  slashLoop miner share receipentMiners 0 s

end Functions

/-! ## What the functions do to stakes -/

variable {self who miner a : Address} {msg : Msg} {s s' : DioneStaking} {t t' : DioneToken}
  {v share : Uint256}

@[simp] theorem minerStake_setInfo (s : DioneStaking) (a : Address) (info : MinerInfo) :
    (s.setInfo a info).minerStake = Function.update s.minerStake a info.amount := by
  funext b
  unfold minerStake setInfo Function.update
  by_cases hb : b = a
  · subst hb
    simp
  · simp [hb]

@[simp] theorem minerStake_setAmount (s : DioneStaking) (a : Address) (x : Uint256) :
    (s.setAmount a x).minerStake = Function.update s.minerStake a x :=
  minerStake_setInfo s a _

theorem nonReentrant_eq_ok {body : DioneStaking → Except Revert (DioneStaking × DioneToken)} :
    s.nonReentrant body = .ok (s', t') ↔ s.entered = false ∧
      ∃ s₁, body { s with entered := true } = .ok (s₁, t') ∧ { s₁ with entered := false } = s' := by
  simp only [nonReentrant, bind_eq_ok, require_eq_ok, exists_const, pure_eq_ok_iff, Prod.exists,
    Prod.mk.injEq]
  constructor
  · rintro ⟨hentered, s₁, t₁, hbody, hs, rfl⟩
    exact ⟨hentered, s₁, hbody, hs⟩
  · rintro ⟨hentered, s₁, hbody, hs⟩
    exact ⟨hentered, s₁, t', hbody, hs, rfl⟩

theorem setByOwner_eq_ok {valid : Prop} [Decidable valid] {text : String}
    {written : DioneStaking} : s.setByOwner msg valid text written = .ok s' ↔
      s.owner = msg.sender ∧ valid ∧ written = s' := by
  simp only [setByOwner, onlyOwner, bind_eq_ok, require_eq_ok, exists_const, pure_eq_ok_iff]

/-- The stake of `who` grew by `v`. -/
structure Deposited (who : Address) (v : Uint256) (s s' : DioneStaking) : Prop where
  entered_eq : s'.entered = false
  totalStake_eq : s'.totalStake.toNat = s.totalStake.toNat + v.toNat
  total_eq : total s'.minerStake = total s.minerStake + v.toNat

theorem total_of_deposit {x : Uint256} (hx : x.toNat = (s.minerStake who).toNat + v.toNat) :
    total (Function.update s.minerStake who x) = total s.minerStake + v.toNat := by
  have hupdate := total_update s.minerStake who x
  omega

theorem stake_spec (h : s.stake self msg v t = .ok (s', t')) :
    Deposited msg.sender v s s' ∧ t'.owner = t.owner ∧
      t.erc20.transferFrom self msg.sender self v = .ok t'.erc20 := by
  simp only [stake, nonReentrant_eq_ok, bind_eq_ok, require_eq_ok, exists_const,
    Checked.add_eq_ok, pure_eq_ok_iff, Prod.mk.injEq] at h
  obtain ⟨-, s₁, ⟨-, -, erc20, herc20, total', htotal, sum, hsum, rfl, rfl⟩, rfl⟩ := h
  refine ⟨⟨rfl, htotal, ?_⟩, rfl, herc20⟩
  show total (DioneStaking.minerStake (setInfo _ _ _)) = _
  rw [minerStake_setInfo]
  exact total_of_deposit hsum

theorem mineAndStake_spec (h : s.mineAndStake self msg who t = .ok (s', t')) :
    Deposited who s.minerReward s s' ∧
      t.mint { msg with sender := self } self s.minerReward = .ok t' := by
  simp only [mineAndStake, nonReentrant_eq_ok, bind_eq_ok, require_eq_ok, exists_const,
    Checked.add_eq_ok, pure_eq_ok_iff, Prod.mk.injEq] at h
  obtain ⟨-, s₁, ⟨-, t₁, hmint, total', htotal, sum, hsum, rfl, rfl⟩, rfl⟩ := h
  refine ⟨⟨rfl, htotal, ?_⟩, hmint⟩
  show total (DioneStaking.minerStake (setInfo _ _ _)) = _
  rw [minerStake_setInfo]
  exact total_of_deposit hsum

theorem mine_spec (h : s.mine self msg who t = .ok (s', t')) :
    s'.entered = false ∧ s'.totalStake = s.totalStake ∧ s'.minerStake = s.minerStake ∧
      t.mint { msg with sender := self } who s.minerReward = .ok t' := by
  simp only [mine, nonReentrant_eq_ok, bind_eq_ok, require_eq_ok, exists_const, pure_eq_ok_iff,
    Prod.mk.injEq] at h
  obtain ⟨-, s₁, ⟨-, t₁, hmint, rfl, rfl⟩, rfl⟩ := h
  refine ⟨rfl, rfl, ?_, hmint⟩
  show DioneStaking.minerStake (setInfo _ _ _) = _
  rw [minerStake_setInfo]
  exact Function.update_eq_self who s.minerStake

theorem withdraw_eq_ok : s.withdraw self msg v t = .ok (s', t') ↔ s.entered = false ∧
    0 < v ∧ ∃ total' rest : Uint256, total'.toNat + v.toNat = s.totalStake.toNat ∧
      rest.toNat + v.toNat = (s.minerStake msg.sender).toNat ∧
      ∃ erc20, t.erc20._transfer self msg.sender v = .ok erc20 ∧
        s' = { s with totalStake := total' }.setAmount msg.sender rest ∧
        t' = { t with erc20 := erc20 } := by
  simp only [withdraw, nonReentrant_eq_ok, bind_eq_ok, require_eq_ok, exists_const,
    Checked.sub_eq_ok, pure_eq_ok_iff, Prod.mk.injEq, BitVec.le_def]
  constructor
  · rintro ⟨hentered, s₁, ⟨-, hpos, total', htotal, rest, hrest, erc20, herc20, rfl, rfl⟩, rfl⟩
    refine ⟨hentered, hpos, total', rest, htotal, hrest, erc20, herc20, ?_, rfl⟩
    rw [setAmount, setInfo, setInfo, hentered]
  · rintro ⟨hentered, hpos, total', rest, htotal, hrest, erc20, herc20, rfl, rfl⟩
    have hle : v.toNat ≤ (s.minerStake msg.sender).toNat := by omega
    refine ⟨hentered, _, ⟨hle, hpos, total', htotal, rest, hrest, erc20, herc20, rfl, rfl⟩, ?_⟩
    rw [setAmount, setInfo, setInfo, hentered]

/-! ## Slashing -/

theorem isMiner_iff : s.isMiner a = true ↔ s.minimumStake.toNat ≤ (s.minerStake a).toNat := by
  simp only [isMiner, decide_eq_true_eq, BitVec.le_def, minerStake]

/-- `miner` paid `share` to each of `rs`, as often as it is listed, and nothing
    else changed. -/
structure Slashed (miner : Address) (share : Uint256) (rs : List Address)
    (s s' : DioneStaking) : Prop where
  storage_eq : s' = { s with minerInfo := s'.minerInfo }
  info_eq : ∀ a, s'.minerInfo a = { s.minerInfo a with amount := s'.minerStake a }
  debited : (s'.minerStake miner).toNat + rs.length * share.toNat = (s.minerStake miner).toNat
  credited : ∀ a, a ≠ miner →
    (s'.minerStake a).toNat = (s.minerStake a).toNat + rs.count a * share.toNat
  total_eq : total s'.minerStake = total s.minerStake
  recipients : ∀ r ∈ rs, r ≠ miner ∧ s.isMiner r = true

namespace Slashed

variable {rs rs' : List Address} {s₁ s₂ : DioneStaking}

theorem refl (s : DioneStaking) : Slashed miner share [] s s where
  storage_eq := rfl
  info_eq _ := rfl
  debited := by simp
  credited := by simp
  total_eq := rfl
  recipients := by simp

theorem isMiner_iff_of_not_mem (h : Slashed miner share rs s s') (ha : a ≠ miner)
    (hmem : a ∉ rs) : s'.isMiner a = true ↔ s.isMiner a = true := by
  have hstake := h.credited a ha
  rw [List.count_eq_zero.mpr hmem, Nat.zero_mul, Nat.add_zero] at hstake
  rw [isMiner_iff, isMiner_iff, hstake, h.storage_eq]

theorem isMiner_of_isMiner (h : Slashed miner share rs s s') (ha : a ≠ miner)
    (hminer : s.isMiner a = true) : s'.isMiner a = true := by
  have hstake := h.credited a ha
  rw [isMiner_iff] at hminer ⊢
  rw [hstake, h.storage_eq]
  exact Nat.le_add_right_of_le hminer

theorem trans (h : Slashed miner share rs s s₁) (h' : Slashed miner share rs' s₁ s₂) :
    Slashed miner share (rs ++ rs') s s₂ where
  storage_eq := by rw [h'.storage_eq, h.storage_eq]
  info_eq a := by rw [h'.info_eq a, h.info_eq a]
  debited := by
    have hd := h.debited
    have hd' := h'.debited
    rw [List.length_append, Nat.add_mul]
    omega
  credited a ha := by
    have hc := h.credited a ha
    have hc' := h'.credited a ha
    rw [List.count_append, Nat.add_mul]
    omega
  total_eq := h'.total_eq.trans h.total_eq
  recipients r hr := by
    rcases List.mem_append.mp hr with hr | hr
    · exact h.recipients r hr
    · obtain ⟨hne, hminer⟩ := h'.recipients r hr
      refine ⟨hne, ?_⟩
      -- who was served before was a miner before; all others have the stake they had
      by_cases hmem : r ∈ rs
      · exact (h.recipients r hmem).2
      · exact (h.isMiner_iff_of_not_mem hne hmem).mp hminer

/-- One round of the loop. -/
theorem one {r : Address} {rest sum : Uint256} (hne : r ≠ miner) (hminer : s.isMiner r = true)
    (hrest : rest.toNat + share.toNat = (s.minerStake miner).toNat)
    (hsum : sum.toNat = (s.minerStake r).toNat + share.toNat) :
    Slashed miner share [r] s ((s.setAmount miner rest).setAmount r sum) where
  storage_eq := rfl
  info_eq a := by
    unfold setAmount setInfo minerStake
    by_cases har : a = r
    · subst har
      simp [Function.update_of_ne hne]
    · by_cases ham : a = miner
      · subst ham
        simp [Function.update_of_ne har]
      · simp [Function.update_of_ne har, Function.update_of_ne ham]
  debited := by
    simp only [minerStake_setAmount, Function.update_of_ne hne.symm, Function.update_self,
      List.length_singleton, Nat.one_mul]
    exact hrest
  credited a ha := by
    by_cases har : a = r
    · subst har
      simp only [minerStake_setAmount, Function.update_self, List.count_singleton_self,
        Nat.one_mul]
      exact hsum
    · have hcount : [r].count a = 0 := List.count_eq_zero.mpr (by simpa using har)
      simp only [minerStake_setAmount, Function.update_of_ne har, Function.update_of_ne ha,
        hcount, Nat.zero_mul, Nat.add_zero]
  total_eq := by
    rw [minerStake_setAmount, minerStake_setAmount]
    refine total_move s.minerStake miner r hrest ?_
    rw [Function.update_of_ne hne]
    exact hsum
  recipients x hx := by
    obtain rfl := List.mem_singleton.mp hx
    exact ⟨hne, hminer⟩

end Slashed

theorem slashLoop_cons_eq_ok {r : Address} {rs : List Address} {i : BitVec 8} :
    slashLoop miner share (r :: rs) i s = .ok s' ↔ r ≠ miner ∧ s.isMiner r = true ∧
      ∃ rest sum : Uint256, rest.toNat + share.toNat = (s.minerStake miner).toNat ∧
        sum.toNat = ((s.setAmount miner rest).minerStake r).toNat + share.toNat ∧
        ∃ j : BitVec 8, j.toNat = i.toNat + 1 ∧
          slashLoop miner share rs j ((s.setAmount miner rest).setAmount r sum) = .ok s' := by
  simp only [slashLoop, bind_eq_ok, require_eq_ok, exists_const, Checked.sub_eq_ok,
    Checked.add_eq_ok, minerStake]
  constructor
  · rintro ⟨hne, hminer, rest, hrest, sum, hsum, j, hj, h⟩
    exact ⟨hne, hminer, rest, sum, hrest, hsum, j, by simpa using hj, h⟩
  · rintro ⟨hne, hminer, rest, sum, hrest, hsum, j, hj, h⟩
    exact ⟨hne, hminer, rest, hrest, sum, hsum, j, by simpa using hj, h⟩

/-- What the loop does when it comes to its end: the counter bounds the number of
    recipients. -/
theorem slashLoop_spec {rs : List Address} {i : BitVec 8}
    (h : slashLoop miner share rs i s = .ok s') :
    Slashed miner share rs s s' ∧ i.toNat + rs.length < 256 := by
  induction rs generalizing i s with
  | nil =>
      obtain rfl : s = s' := Except.ok.inj h
      have hi : i.toNat < 256 := i.isLt
      exact ⟨.refl s, by simpa using hi⟩
  | cons r rs ih =>
      obtain ⟨hne, hminer, rest, sum, hrest, hsum, j, hj, h⟩ := slashLoop_cons_eq_ok.mp h
      rw [minerStake_setAmount, Function.update_of_ne hne] at hsum
      obtain ⟨htail, hlen⟩ := ih h
      refine ⟨(Slashed.one hne hminer hrest hsum).trans htail, ?_⟩
      rw [List.length_cons]
      omega

/-- The loop comes to its end when all recipients are miners other than the
    slashed one, the shares are covered and there are few enough of them. -/
theorem exists_slashLoop {rs : List Address} {i : BitVec 8}
    (hrs : ∀ r ∈ rs, r ≠ miner ∧ s.isMiner r = true)
    (hcover : rs.length * share.toNat ≤ (s.minerStake miner).toNat)
    (htotal : total s.minerStake < 2 ^ 256) (hlen : i.toNat + rs.length < 256) :
    ∃ s', slashLoop miner share rs i s = .ok s' := by
  induction rs generalizing i s with
  | nil => exact ⟨s, rfl⟩
  | cons r rs ih =>
      obtain ⟨hne, hminer⟩ := hrs r (List.mem_cons_self ..)
      rw [List.length_cons, Nat.add_mul] at hcover
      rw [List.length_cons] at hlen
      obtain ⟨rest, -, hrest⟩ := Checked.exists_sub (e := Revert.overflow)
        (show share.toNat ≤ (s.minerStake miner).toNat by omega)
      have htwo := add_le_total s.minerStake hne
      obtain ⟨sum, -, hsum⟩ := Checked.exists_add (e := Revert.overflow)
        (show (s.minerStake r).toNat + share.toNat < 2 ^ 256 by omega)
      have hone : Slashed miner share [r] s ((s.setAmount miner rest).setAmount r sum) :=
        .one hne hminer hrest hsum
      obtain ⟨j, -, hj⟩ := Checked.exists_add (e := Revert.overflow) (a := i) (b := 1)
        (show i.toNat + (1 : BitVec 8).toNat < 2 ^ 8 by simp; omega)
      have hj' : j.toNat = i.toNat + 1 := by simpa using hj
      -- the hypotheses hold again after this round
      have hrs' : ∀ x ∈ rs, x ≠ miner ∧
          ((s.setAmount miner rest).setAmount r sum).isMiner x = true := by
        intro x hx
        obtain ⟨hxne, hxminer⟩ := hrs x (List.mem_cons_of_mem _ hx)
        exact ⟨hxne, hone.isMiner_of_isMiner hxne hxminer⟩
      have hcover' : rs.length * share.toNat
          ≤ (((s.setAmount miner rest).setAmount r sum).minerStake miner).toNat := by
        have hdebited := hone.debited
        rw [List.length_singleton] at hdebited
        omega
      have htotal' : total ((s.setAmount miner rest).setAmount r sum).minerStake < 2 ^ 256 := by
        rw [hone.total_eq]
        exact htotal
      obtain ⟨s', hs'⟩ := ih hrs' hcover' htotal' (show j.toNat + rs.length < 256 by omega)
      refine ⟨s', slashLoop_cons_eq_ok.mpr ⟨hne, hminer, rest, sum, hrest, ?_, j, hj', hs'⟩⟩
      rw [minerStake_setAmount, Function.update_of_ne hne]
      exact hsum

theorem toNat_length {rs : List Address} (h : rs.length < 256) :
    (BitVec.ofNat 256 rs.length).toNat = rs.length := by
  rw [BitVec.toNat_ofNat]
  exact Nat.mod_eq_of_lt (h.trans (by omega))

theorem slashMiner_eq_ok {rs : List Address} : s.slashMiner msg miner rs = .ok s' ↔
    msg.sender = s.disputeContractAddr ∧ miner ≠ .zero ∧ s.isMiner miner = true ∧ rs ≠ [] ∧
      ∃ share : Uint256, share.toNat = (s.minerStake miner).toNat / rs.length ∧
        slashLoop miner share rs 0 s = .ok s' := by
  simp only [slashMiner, bind_eq_ok, require_eq_ok, exists_const, Checked.div_eq_ok]
  constructor
  · rintro ⟨hsender, hzero, hminer, share, ⟨hlen, hshare⟩, h⟩
    rw [toNat_length (by simpa using (slashLoop_spec h).2)] at hlen hshare
    exact ⟨hsender, hzero, hminer, List.length_pos_iff.mp (by omega), share, hshare, h⟩
  · rintro ⟨hsender, hzero, hminer, hrs, share, hshare, h⟩
    refine ⟨hsender, hzero, hminer, share, ?_, h⟩
    rw [toNat_length (by simpa using (slashLoop_spec h).2)]
    have hpos : 0 < rs.length := List.length_pos_iff.mpr hrs
    exact ⟨by omega, hshare⟩

/-- When slashing goes through. -/
theorem exists_slashMiner_iff {rs : List Address} (htotal : total s.minerStake < 2 ^ 256) :
    (∃ s', s.slashMiner msg miner rs = .ok s') ↔
      msg.sender = s.disputeContractAddr ∧ miner ≠ .zero ∧ s.isMiner miner = true ∧ rs ≠ [] ∧
        (∀ r ∈ rs, r ≠ miner ∧ s.isMiner r = true) ∧ rs.length < 256 := by
  constructor
  · rintro ⟨s', h⟩
    obtain ⟨hsender, hzero, hminer, hrs, share, -, hloop⟩ := slashMiner_eq_ok.mp h
    obtain ⟨hslashed, hlen⟩ := slashLoop_spec hloop
    exact ⟨hsender, hzero, hminer, hrs, hslashed.recipients, by simpa using hlen⟩
  · rintro ⟨hsender, hzero, hminer, hrs, hrecipients, hlen⟩
    obtain ⟨share, hdiv⟩ : ∃ share : Uint256,
        share.toNat = (s.minerStake miner).toNat / rs.length := by
      refine ⟨BitVec.ofNat 256 ((s.minerStake miner).toNat / rs.length), ?_⟩
      have hlt : (s.minerStake miner).toNat < 2 ^ 256 := (s.minerStake miner).isLt
      rw [BitVec.toNat_ofNat]
      exact Nat.mod_eq_of_lt ((Nat.div_le_self _ _).trans_lt hlt)
    have hcover : rs.length * share.toNat ≤ (s.minerStake miner).toNat := by
      rw [hdiv]
      exact Nat.mul_div_le _ _
    obtain ⟨s', hs'⟩ := exists_slashLoop (i := 0) hrecipients hcover htotal (by simpa using hlen)
    exact ⟨s', slashMiner_eq_ok.mpr ⟨hsender, hzero, hminer, hrs, share, hdiv, hs'⟩⟩

/-- A slash that goes through: of the stake `a` the miner keeps the remainder of
    dividing it among the `n` recipients, everybody else gets `a / n` as often as they
    are listed, nothing else is written, and the recipients are still miners. -/
theorem slashMiner_distributes {rs : List Address} (h : s.slashMiner msg miner rs = .ok s') :
    (s'.minerStake miner).toNat = (s.minerStake miner).toNat % rs.length ∧
      (∀ r, r ≠ miner → (s'.minerStake r).toNat = (s.minerStake r).toNat
        + rs.count r * ((s.minerStake miner).toNat / rs.length)) ∧
      s' = { s with minerInfo := s'.minerInfo } ∧
      (∀ a, s'.minerInfo a = { s.minerInfo a with amount := s'.minerStake a }) ∧
      s'.totalStake = s.totalStake ∧
      ∀ r ∈ rs, s'.isMiner r = true := by
  obtain ⟨-, -, -, -, share, hshare, hloop⟩ := slashMiner_eq_ok.mp h
  have hslashed := (slashLoop_spec hloop).1
  have hdebited := hslashed.debited
  have hdivision := Nat.div_add_mod (s.minerStake miner).toNat rs.length
  rw [hshare] at hdebited
  refine ⟨by omega, ?_, hslashed.storage_eq, hslashed.info_eq, ?_, ?_⟩
  · intro r hr
    rw [hslashed.credited r hr, hshare]
  · rw [hslashed.storage_eq]
  · intro r hr
    obtain ⟨hne, hminer⟩ := hslashed.recipients r hr
    exact hslashed.isMiner_of_isMiner hne hminer

/-- Two miners; the dispute contract is at the address 3. -/
def twoMiners : DioneStaking :=
  { ((deployed (.ofNat 10) 100 0 50).setAmount (.ofNat 11) 100).setAmount (.ofNat 12) 60 with
    disputeContractAddr := .ofNat 3, totalStake := 160 }

theorem slashMiner_distributes_repeated :
    ∃ s', twoMiners.slashMiner ⟨.ofNat 3, 1, 1⟩ (.ofNat 11) [.ofNat 12, .ofNat 12, .ofNat 12]
        = .ok s' ∧
      (s'.minerStake (.ofNat 11)).toNat = 1 ∧ (s'.minerStake (.ofNat 12)).toNat = 159 := by
  cases h : twoMiners.slashMiner ⟨.ofNat 3, 1, 1⟩ (.ofNat 11)
      [.ofNat 12, .ofNat 12, .ofNat 12] with
  | error e =>
      have hok : (twoMiners.slashMiner ⟨.ofNat 3, 1, 1⟩ (.ofNat 11)
          [.ofNat 12, .ofNat 12, .ofNat 12]).toBool = true := by decide +kernel
      rw [h] at hok
      cases hok
  | ok s' =>
      obtain ⟨hminer, hothers, -⟩ := slashMiner_distributes h
      refine ⟨s', rfl, hminer.trans (by decide +kernel), ?_⟩
      exact (hothers (.ofNat 12) (by decide)).trans (by decide +kernel)

end DioneStaking

end Dione.Contracts
