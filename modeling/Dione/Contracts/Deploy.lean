/-
  Dione.Contracts.Deploy

  `common/deployment.ts`: the script that deploys the contracts, registers them with
  each other, mints tokens for the nodes, hands the token over to the staking contract
  and stakes for every node.

  Numbers of the script are natural numbers below the largest that JavaScript tells
  apart from its neighbours; where they become a `BigNumber` larger ones throw, and so
  does a sum or a product that was rounded.  A transaction takes effect before the
  script goes on, as on the test network it is written for; one that reverts throws.
  The mediator, which holds no state, is left out, and so is logging.
-/

import Dione.Contracts.Accounts

namespace Dione.Contracts

open Guard

/-- The options of the script.  JavaScript's numbers may also be fractions or negative;
    those are left out. -/
structure DeploymentOptions where
  reward : Nat
  minStake : Nat
  voteWindowTime : Nat
  randomizeStake : Bool
  maxStake : Nat
  actualStake : Nat
  nodeCount : Nat
  minStakeForDisputeVotes : Nat
  deriving DecidableEq

inductive DeployError where
  | unsafeNumber
  | noAccount
  | reverted (e : Revert)
  deriving DecidableEq

namespace Deploy

/-- `Number.MAX_SAFE_INTEGER`. -/
def maxSafe : Nat := 9007199254740991

/-- `WeiPerEther.mul(n)` as an argument of a contract. -/
def wei (n : Nat) : Uint256 := BitVec.ofNat 256 (1000000000000000000 * n)

/-- `BigNumber.from` throws from `maxSafe` on. -/
def number (n : Nat) (value : Nat → Uint256) : Except DeployError Uint256 :=
  if n < maxSafe then .ok (value n) else .error .unsafeNumber

/-- The two transactions by which a node stakes. -/
def staking (D : Deployment) (node : Address × Nat) : List (Except DeployError (Address × Call)) :=
  [do return (node.1, .token (.approve D.staking (← number node.2 wei))),
    do return (node.1, .staking (.stake (← number node.2 wei)))]

section Script

variable (D : Deployment) (evm : Evm) (opts : DeploymentOptions) (draws : List Nat)

/-- What each node is to stake.  `draws` are the results of `randomInt`. -/
def stakes : List Nat :=
  if opts.randomizeStake then draws else List.replicate opts.nodeCount opts.actualStake

def mintValue : Nat :=
  if opts.randomizeStake then draws.sum else opts.actualStake * opts.nodeCount

/-- The accounts of the nodes with their stakes. -/
def nodes (signers : List Address) : List (Address × Nat) :=
  (signers.take opts.nodeCount).zip (stakes opts draws)

/-- The contracts get to know each other, and the first account gets all the tokens. -/
def founding (deployer : Address) (mintValue : Nat) (nodes : List (Address × Nat)) :
    List (Except DeployError (Address × Call)) :=
  [.ok (deployer, .staking (.setOracleContractAddress D.oracle)),
    .ok (deployer, .staking (.setDisputeContractAddress D.dispute)),
    match nodes with
    | [] => .error .noAccount
    | node :: _ => do return (deployer, .token (.mint node.1 (← number mintValue wei)))]

/-- A node gets its tokens. -/
def funding (deployer : Address) (node : Address × Nat) : Except DeployError (Address × Call) := do
  return (deployer, .token (.transfer node.1 (← number node.2 wei)))

/-- The transactions of the script, in order: who sends what.  The first account keeps
    what is left. -/
def script (deployer : Address) (mintValue : Nat) (nodes : List (Address × Nat)) :
    List (Except DeployError (Address × Call)) :=
  founding D deployer mintValue nodes ++ nodes.tail.map (funding deployer) ++
    [.ok (deployer, .token (.transferOwnership D.staking))] ++ nodes.flatMap (staking D)

/-- Send the transactions one after the other; `block` tells the number and the time of the
    block that each gets into. -/
def sendAll (block : Nat → Uint256 × Uint256) :
    Nat → World → List (Except DeployError (Address × Call)) → Except DeployError World
  | _, w, [] => .ok w
  | n, w, tx :: txs => do
    let (sender, call) ← tx
    match call.run D evm ⟨sender, (block n).1, (block n).2⟩ w with
    | .ok w' => sendAll block (n + 1) w' txs
    | .error e => .error (.reverted e)

/-- The script; the first signer deploys. -/
def deploy (block : Nat → Uint256 × Uint256) (signers : List Address) :
    Except DeployError World :=
  match signers with
  | [] => .error .noAccount
  | deployer :: _ => do
    let minerReward ← number opts.reward wei
    let minimumStake ← number opts.minStake wei
    let voteWindowTime ← number opts.voteWindowTime (BitVec.ofNat 256)
    let minStake ← number opts.minStakeForDisputeVotes wei
    sendAll D evm block 0
      (.deployed ⟨deployer, minerReward, 0, minimumStake, voteWindowTime, minStake⟩)
      (script D deployer (mintValue opts draws) (nodes opts draws signers))

end Script

/-! ## Sending -/

section Sending

variable {D : Deployment} {evm : Evm} {block : Nat → Uint256 × Uint256} {n : Nat} {w w' : World}

theorem number_eq_ok {k : Nat} {value : Nat → Uint256} {v : Uint256} :
    number k value = .ok v ↔ k < maxSafe ∧ value k = v := by
  unfold number
  by_cases hk : k < maxSafe
  · simp [hk]
  · simp [hk]

theorem toNat_wei {k : Nat} (hk : k < maxSafe) : (wei k).toNat = 1000000000000000000 * k := by
  unfold wei
  rw [BitVec.toNat_ofNat, Nat.mod_eq_of_lt]
  have hmax : 1000000000000000000 * maxSafe < 2 ^ 256 := by decide
  unfold maxSafe at *
  omega

theorem sendAll_cons_eq_ok {tx : Except DeployError (Address × Call)}
    {txs : List (Except DeployError (Address × Call))} :
    sendAll D evm block n w (tx :: txs) = .ok w' ↔
      ∃ sender call w₁, tx = .ok (sender, call) ∧
        call.run D evm ⟨sender, (block n).1, (block n).2⟩ w = .ok w₁ ∧
        sendAll D evm block (n + 1) w₁ txs = .ok w' := by
  simp only [sendAll, bind_eq_ok, Prod.exists]
  constructor
  · rintro ⟨sender, call, htx, h⟩
    cases hrun : call.run D evm ⟨sender, (block n).1, (block n).2⟩ w with
    | error e =>
        rw [hrun] at h
        cases h
    | ok w₁ =>
        rw [hrun] at h
        exact ⟨sender, call, w₁, htx, hrun, h⟩
  · rintro ⟨sender, call, w₁, htx, hrun, h⟩
    exact ⟨sender, call, htx, by rw [hrun]; exact h⟩

theorem sendAll_append_eq_ok {txs txs' : List (Except DeployError (Address × Call))} :
    sendAll D evm block n w (txs ++ txs') = .ok w' ↔
      ∃ w₁, sendAll D evm block n w txs = .ok w₁ ∧
        sendAll D evm block (n + txs.length) w₁ txs' = .ok w' := by
  induction txs generalizing n w with
  | nil => simp [sendAll]
  | cons tx txs ih =>
      rw [List.cons_append, sendAll_cons_eq_ok]
      simp only [ih, sendAll_cons_eq_ok, List.length_cons, Nat.add_assoc, Nat.add_comm 1]
      constructor
      · rintro ⟨sender, call, w₁, htx, hrun, w₂, htxs, hrest⟩
        exact ⟨w₂, ⟨sender, call, w₁, htx, hrun, htxs⟩, hrest⟩
      · rintro ⟨w₂, ⟨sender, call, w₁, htx, hrun, htxs⟩, hrest⟩
        exact ⟨sender, call, w₁, htx, hrun, w₂, htxs, hrest⟩

end Sending

/-! ## The state of the books -/

/-- What the nodes listed under `a` stake. -/
def amount (a : Address) (nodes : List (Address × Nat)) : Nat :=
  (nodes.map fun node => if node.1 = a then 1000000000000000000 * node.2 else 0).sum

/-- What all of them stake. -/
def sum (nodes : List (Address × Nat)) : Nat :=
  (nodes.map fun node => 1000000000000000000 * node.2).sum

/-- A reachable state with these owners, parameters, balances and stakes. -/
structure Books (D : Deployment) (evm : Evm) (c : Config) (owner : Address)
    (parameters : DioneStaking.Parameters) (balance stake : Address → Nat) (w : World) : Prop where
  reachable : w.Reachable D evm c
  owner_eq : w.token.owner = owner
  parameters_eq : w.staking.parameters = parameters
  balance_eq : ∀ a, (w.token.erc20.balances a).toNat = balance a
  stake_eq : ∀ a, (w.staking.minerStake a).toNat = stake a

section Steps

variable {D : Deployment} {evm : Evm} {c : Config} {owner a : Address} {msg : Msg}
  {parameters : DioneStaking.Parameters} {balance stake : Address → Nat} {v : Uint256}
  {w w' : World}

theorem Reachable.run {call : Call} (h : w.Reachable D evm c) (hext : D.External msg.sender)
    (hrun : call.run D evm msg w = .ok w') : w'.Reachable D evm c := by
  obtain ⟨txs, rfl⟩ := h
  refine ⟨txs ++ [⟨msg, call, hext⟩], ?_⟩
  rw [World.after, Run.exec_concat]
  show World.step D evm (World.after D evm c txs) _ = w'
  simp only [World.step, hrun]

/-- A transfer of what the sender has. -/
theorem Books.transfer (h : Books D evm c owner parameters balance stake w) (msg : Msg)
    (hext : D.External msg.sender) (ha : a ≠ .zero) (hne : msg.sender ≠ a)
    (hle : v.toNat ≤ balance msg.sender) :
    ∃ w', (Call.token (.transfer a v)).run D evm msg w = .ok w' ∧
      Books D evm c owner parameters (fun b => if b = msg.sender then balance b - v.toNat
        else if b = a then balance b + v.toNat else balance b) stake w' := by
  have hsupply := h.reachable.solvent.backs.supply
  obtain ⟨e, he⟩ := ERC20.exists_transfer (v := v) hext.ne_zero ha hne
    (by rw [h.balance_eq]; exact hle) hsupply
  have hrun : (Call.token (.transfer a v)).run D evm msg w =
      .ok { w with token := { w.token with erc20 := e } } := by
    simp only [Call.run, TokenCall.run, ERC20.transfer, he, ok_bind]
    rfl
  refine ⟨_, hrun, Reachable.run h.reachable hext hrun, h.owner_eq, h.parameters_eq, ?_, h.stake_eq⟩
  obtain ⟨-, -, x, y, hx, hy, rfl⟩ := ERC20._transfer_eq_ok.mp he
  intro b
  rw [Function.update_of_ne hne.symm, h.balance_eq] at hy
  rw [h.balance_eq] at hx
  show (Function.update (Function.update w.token.erc20.balances msg.sender x) a y b).toNat = _
  by_cases hb : b = msg.sender
  · subst hb
    rw [Function.update_of_ne hne, Function.update_self, if_pos rfl]
    omega
  · rw [if_neg hb]
    by_cases hba : b = a
    · subst hba
      rw [Function.update_self, if_pos rfl]
      exact hy
    · rw [Function.update_of_ne hba, Function.update_of_ne hb, if_neg hba]
      exact h.balance_eq b

/-- An account stakes out of what it has approved to the staking contract. -/
theorem Solvent.stake_iff {s : DioneStaking} {t : DioneToken} (h : Solvent D.staking s t)
    (msg : Msg) (hext : D.External msg.sender) :
    (∃ s' t', s.stake D.staking msg v t = .ok (s', t')) ↔ 0 < v ∧ s.minimumStake ≤ v ∧
      v.toNat ≤ (t.erc20.balances msg.sender).toNat ∧
      v.toNat ≤ (t.erc20.allowances msg.sender D.staking).toNat := by
  constructor
  · rintro ⟨s', t', hstake⟩
    simp only [DioneStaking.stake, DioneStaking.nonReentrant_eq_ok, bind_eq_ok, require_eq_ok,
      exists_const, ERC20.transferFrom_eq_ok, ERC20._transfer_eq_ok] at hstake
    obtain ⟨-, s₁, ⟨hpos, hmin, erc20, ⟨e₁, ⟨-, -, x, y, hx, -⟩, z, hz, -⟩, -⟩, -⟩ := hstake
    exact ⟨hpos, hmin, by omega, by omega⟩
  · rintro ⟨hpos, hmin, hbalance, hallowance⟩
    obtain ⟨e₁, he₁⟩ := ERC20.exists_transfer (v := v) hext.ne_zero D.ne_zero.1
      hext.ne_staking.symm hbalance h.backs.supply
    obtain ⟨z, -, hz⟩ := Checked.exists_sub (e := Revert.overflow) hallowance
    obtain ⟨e, happrove⟩ : ∃ e, e₁._approve msg.sender D.staking z = .ok e :=
      ⟨_, ERC20._approve_eq_ok.mpr ⟨hext.ne_zero, D.ne_zero.1, rfl⟩⟩
    have htransfer := ERC20.transferFrom_eq_ok.mpr ⟨e₁, he₁, z, hz, happrove⟩
    -- after the transfer the staking contract has what the sums come to, so they fit
    have hcredited := (ERC20.transferred_of_transfer he₁).1.credited hext.ne_staking.symm
    have hword : (e₁.balances D.staking).toNat < 2 ^ 256 := (e₁.balances D.staking).isLt
    have hcovered := h.backs.covered
    have hstakes := h.stakes
    have hle := Ledger.le_total s.minerStake msg.sender
    obtain ⟨total', htotal', -⟩ := Checked.exists_add (e := Revert.overflow)
      (show s.totalStake.toNat + v.toNat < 2 ^ 256 by omega)
    obtain ⟨sum, hsum, -⟩ := Checked.exists_add (e := Revert.overflow)
      (show (s.minerStake msg.sender).toNat + v.toNat < 2 ^ 256 by omega)
    simp only [DioneStaking.stake, DioneStaking.nonReentrant_eq_ok, bind_eq_ok, require_eq_ok,
      exists_const, pure_eq_ok_iff, Prod.mk.injEq]
    exact ⟨_, _, h.entered, _, ⟨hpos, hmin, e, htransfer, total', htotal', sum, hsum, rfl, rfl⟩,
      rfl⟩

theorem Books.approve (h : Books D evm c owner parameters balance stake w) (msg : Msg)
    (hext : D.External msg.sender) :
    ∃ w', (Call.token (.approve D.staking v)).run D evm msg w = .ok w' ∧
      Books D evm c owner parameters balance stake w' ∧
      w'.token.erc20.allowances msg.sender D.staking = v := by
  obtain ⟨e, happrove⟩ : ∃ e, w.token.erc20._approve msg.sender D.staking v = .ok e :=
    ⟨_, ERC20._approve_eq_ok.mpr ⟨hext.ne_zero, D.ne_zero.1, rfl⟩⟩
  have hrun : (Call.token (.approve D.staking v)).run D evm msg w =
      .ok { w with token := { w.token with erc20 := e } } := by
    simp only [Call.run, TokenCall.run, ERC20.approve, happrove, ok_bind]
    rfl
  refine ⟨_, hrun, ⟨Reachable.run h.reachable hext hrun, h.owner_eq, h.parameters_eq, ?_,
    h.stake_eq⟩, ?_⟩
  · intro b
    show (e.balances b).toNat = balance b
    rw [(ERC20.approve_spec happrove).1]
    exact h.balance_eq b
  · obtain ⟨-, -, rfl⟩ := ERC20._approve_eq_ok.mp happrove
    show Function.update w.token.erc20.allowances msg.sender _ msg.sender D.staking = v
    rw [Function.update_self, Function.update_self]

/-- `stake` of an amount that the sender has and has approved. -/
theorem Books.exists_stake_iff (h : Books D evm c owner parameters balance stake w) (msg : Msg)
    (hext : D.External msg.sender) (hcover : v.toNat ≤ balance msg.sender)
    (hallowance : w.token.erc20.allowances msg.sender D.staking = v) :
    (∃ w', (Call.staking (.stake v)).run D evm msg w = .ok w') ↔
      0 < v ∧ parameters.minimumStake ≤ v := by
  have hrun : (∃ w', (Call.staking (.stake v)).run D evm msg w = .ok w') ↔
      ∃ s' t', w.staking.stake D.staking msg v w.token = .ok (s', t') := by
    simp only [Call.run, StakingCall.run, bind_eq_ok, pure_eq_ok_iff, Prod.exists]
    constructor
    · rintro ⟨w', s', t', hstake, -⟩
      exact ⟨s', t', hstake⟩
    · rintro ⟨s', t', hstake⟩
      exact ⟨_, s', t', hstake, rfl⟩
  have hminimum : w.staking.minimumStake = parameters.minimumStake :=
    congrArg DioneStaking.Parameters.minimumStake h.parameters_eq
  rw [hrun, Solvent.stake_iff h.reachable.solvent msg hext, hminimum, h.balance_eq, hallowance]
  exact ⟨fun hstake => ⟨hstake.1, hstake.2.1⟩, fun hstake => ⟨hstake.1, hstake.2, hcover, le_rfl⟩⟩

/-- What `stake` leaves. -/
theorem Books.staked (h : Books D evm c owner parameters balance stake w)
    (hext : D.External msg.sender)
    (hrun : (Call.staking (.stake v)).run D evm msg w = .ok w') :
    Books D evm c owner parameters (fun b => if b = D.staking then balance b + v.toNat
        else if b = msg.sender then balance b - v.toNat else balance b)
      (fun b => if b = msg.sender then stake b + v.toNat else stake b) w' := by
  have hreachable := Reachable.run h.reachable hext hrun
  simp only [Call.run, bind_eq_ok, pure_eq_ok_iff] at hrun
  obtain ⟨⟨s, t⟩, hstake, rfl⟩ := hrun
  obtain ⟨-, howner, htransfer⟩ := DioneStaking.stake_spec hstake
  refine ⟨hreachable, howner.trans h.owner_eq, ?_, ?_, ?_⟩
  · rcases StakingCall.parameters_run hstake with hsame | ⟨honly, -⟩
    · exact hsame.trans h.parameters_eq
    · cases honly
  · obtain ⟨e₁, he₁, z, -, happrove⟩ := ERC20.transferFrom_eq_ok.mp htransfer
    obtain ⟨-, -, x, y, hx, hy, rfl⟩ := ERC20._transfer_eq_ok.mp he₁
    have hne := hext.ne_staking
    rw [h.balance_eq] at hx
    rw [Function.update_of_ne hne, h.balance_eq] at hy
    intro b
    show (t.erc20.balances b).toNat = _
    rw [(ERC20.approve_spec happrove).1]
    show (Function.update (Function.update w.token.erc20.balances msg.sender x) D.staking y b).toNat
      = _
    by_cases hb : b = D.staking
    · subst hb
      rw [Function.update_self, if_pos rfl]
      exact hy
    · rw [if_neg hb, Function.update_of_ne hb]
      by_cases hbs : b = msg.sender
      · subst hbs
        rw [Function.update_self, if_pos rfl]
        omega
      · rw [if_neg hbs, Function.update_of_ne hbs]
        exact h.balance_eq b
  · intro b
    have hbooked : (s.minerStake b).toNat + 0 = (w.staking.minerStake b).toNat +
        ((if msg.sender = b then v.toNat else 0) + 0) := StakingCall.booked hstake b
    rw [h.stake_eq] at hbooked
    show (s.minerStake b).toNat = _
    by_cases hb : b = msg.sender
    · subst hb
      rw [if_pos rfl] at hbooked ⊢
      omega
    · rw [if_neg (Ne.symm hb)] at hbooked
      rw [if_neg hb]
      omega

end Steps

/-! ## The loops -/

section Loops

variable {D : Deployment} {evm : Evm} {c : Config} {owner deployer : Address}
  {block : Nat → Uint256 × Uint256} {parameters : DioneStaking.Parameters}
  {balance stake : Address → Nat} {n : Nat} {w : World} {nodes : List (Address × Nat)}

theorem amount_cons (a : Address) (node : Address × Nat) :
    amount a (node :: nodes) =
      (if node.1 = a then 1000000000000000000 * node.2 else 0) + amount a nodes := by
  simp only [amount, List.map_cons, List.sum_cons]

theorem sum_cons (node : Address × Nat) :
    sum (node :: nodes) = 1000000000000000000 * node.2 + sum nodes := by
  simp only [sum, List.map_cons, List.sum_cons]

theorem amount_eq_zero {a : Address} (h : a ∉ nodes.map (·.1)) : amount a nodes = 0 := by
  induction nodes with
  | nil => rfl
  | cons node nodes ih =>
      rw [List.map_cons, List.mem_cons, not_or] at h
      rw [amount_cons, if_neg (Ne.symm h.1), ih h.2]

/-- The transfers to the nodes after the first. -/
theorem Books.transfers (h : Books D evm c owner parameters balance stake w)
    (block : Nat → Uint256 × Uint256) (n : Nat) (hdeployer : D.External deployer)
    (hnodes : ∀ node ∈ nodes, D.External node.1) (hne : deployer ∉ nodes.map (·.1))
    (hsafe : ∀ node ∈ nodes, node.2 < maxSafe)
    (hcover : sum nodes ≤ balance deployer) :
    ∃ w', sendAll D evm block n w (nodes.map (funding deployer)) = .ok w' ∧
      Books D evm c owner parameters (fun a => if a = deployer then balance a - sum nodes
        else balance a + amount a nodes) stake w' := by
  induction nodes generalizing n w balance with
  | nil =>
      refine ⟨w, rfl, h.reachable, h.owner_eq, h.parameters_eq, ?_, h.stake_eq⟩
      intro a
      rw [h.balance_eq a]
      by_cases ha : a = deployer
      · simp [ha, sum]
      · simp [ha, amount]
  | cons node nodes ih =>
      obtain ⟨hnode, hnodes⟩ := List.forall_mem_cons.mp hnodes
      obtain ⟨hsafe₁, hsafe⟩ := List.forall_mem_cons.mp hsafe
      rw [List.map_cons, List.mem_cons, not_or] at hne
      rw [sum_cons] at hcover
      have hwei := toNat_wei hsafe₁
      obtain ⟨w₁, hrun, h₁⟩ := h.transfer ⟨deployer, (block n).1, (block n).2⟩
        (v := wei node.2) hdeployer hnode.ne_zero hne.1 (by
          show (wei node.2).toNat ≤ balance deployer
          omega)
      obtain ⟨w₂, hrest, h₂⟩ := ih h₁ (n + 1) hnodes hne.2 hsafe (by
        show sum nodes ≤ if deployer = deployer then _ else _
        rw [if_pos rfl, hwei]
        omega)
      refine ⟨w₂, ?_, h₂.reachable, h₂.owner_eq, h₂.parameters_eq, ?_, h₂.stake_eq⟩
      · rw [List.map_cons, sendAll_cons_eq_ok]
        refine ⟨deployer, _, w₁, ?_, hrun, hrest⟩
        rw [funding, number_eq_ok.mpr ⟨hsafe₁, rfl⟩]
        rfl
      · intro a
        rw [h₂.balance_eq a]
        dsimp only
        rw [hwei, sum_cons, amount_cons]
        by_cases ha : a = deployer
        · simp only [ha, if_true]
          omega
        · by_cases hanode : a = node.1
          · subst hanode
            simp only [ha, if_true, if_false]
            omega
          · simp only [ha, hanode, Ne.symm hanode, if_false]
            omega

/-- The approval goes through; the rest depends on `stake`. -/
theorem Books.sendAll_staking (h : Books D evm c owner parameters balance stake w)
    (block : Nat → Uint256 × Uint256) (n : Nat) {node : Address × Nat}
    (hnode : D.External node.1) (hsafe : node.2 < maxSafe)
    (hcover : 1000000000000000000 * node.2 ≤ balance node.1) :
    ((∃ w', sendAll D evm block n w (staking D node) = .ok w') ↔
        0 < node.2 ∧ parameters.minimumStake ≤ wei node.2) ∧
      ∀ w', sendAll D evm block n w (staking D node) = .ok w' →
        Books D evm c owner parameters (fun a => if a = D.staking then
            balance a + 1000000000000000000 * node.2
          else if a = node.1 then balance a - 1000000000000000000 * node.2 else balance a)
        (fun a => if a = node.1 then stake a + 1000000000000000000 * node.2 else stake a) w' := by
  have hwei := toNat_wei hsafe
  have hnumber : number node.2 wei = .ok (wei node.2) := number_eq_ok.mpr ⟨hsafe, rfl⟩
  obtain ⟨w₁, happrove, h₁, hallowance⟩ := h.approve
    ⟨node.1, (block n).1, (block n).2⟩ (v := wei node.2) hnode
  have hsend : ∀ w', sendAll D evm block n w (staking D node) = .ok w' ↔
      (Call.staking (.stake (wei node.2))).run D evm ⟨node.1, (block (n + 1)).1, (block (n + 1)).2⟩
        w₁ = .ok w' := by
    intro w'
    simp only [staking, hnumber, sendAll, ok_bind, pure_bind, happrove]
    cases (Call.staking (.stake (wei node.2))).run D evm
      ⟨node.1, (block (n + 1)).1, (block (n + 1)).2⟩ w₁ with
    | error e => simp
    | ok w₂ => simp
  simp only [hsend]
  constructor
  · have hpos : (0 : Uint256) < wei node.2 ↔ 0 < node.2 := by
      show (0 : Uint256).toNat < (wei node.2).toNat ↔ _
      rw [hwei]
      simp
    rw [← hwei] at hcover
    rw [h₁.exists_stake_iff ⟨node.1, (block (n + 1)).1, (block (n + 1)).2⟩ hnode hcover hallowance,
      hpos]
  · intro w' hrun
    have hstaked := h₁.staked hnode hrun
    rw [hwei] at hstaked
    exact hstaked

section Balances

variable {node : Address × Nat} (a : Address)

/-- The balances after the stakes, when the first node has staked. -/
theorem balance_stakings_cons (hnew : node.1 ∉ nodes.map (·.1)) :
    (if a = D.staking then (if a = D.staking then balance a + 1000000000000000000 * node.2
        else if a = node.1 then balance a - 1000000000000000000 * node.2 else balance a) + sum nodes
      else (if a = D.staking then balance a + 1000000000000000000 * node.2
        else if a = node.1 then balance a - 1000000000000000000 * node.2 else balance a)
          - amount a nodes) =
      if a = D.staking then balance a + sum (node :: nodes)
        else balance a - amount a (node :: nodes) := by
  rw [sum_cons, amount_cons]
  by_cases ha : a = D.staking
  · simp only [ha, if_true]
    omega
  · by_cases hanode : a = node.1
    · subst hanode
      rw [amount_eq_zero hnew]
      simp only [ha, if_true, if_false]
      omega
    · simp only [ha, hanode, Ne.symm hanode, if_false]
      omega

/-- The stakes, likewise. -/
theorem stake_stakings_cons :
    (if a = node.1 then stake a + 1000000000000000000 * node.2 else stake a) + amount a nodes =
      stake a + amount a (node :: nodes) := by
  rw [amount_cons]
  by_cases hanode : a = node.1
  · subst hanode
    simp only [if_true]
    omega
  · simp only [hanode, Ne.symm hanode, if_false]
    omega

end Balances

/-- The stakes of the nodes: they go through iff each is allowed. -/
theorem Books.stakings (h : Books D evm c owner parameters balance stake w)
    (block : Nat → Uint256 × Uint256) (n : Nat) (hnodes : ∀ node ∈ nodes, D.External node.1)
    (hnodup : (nodes.map (·.1)).Nodup) (hsafe : ∀ node ∈ nodes, node.2 < maxSafe)
    (hcover : ∀ node ∈ nodes, 1000000000000000000 * node.2 ≤ balance node.1) :
    ((∃ w', sendAll D evm block n w (nodes.flatMap (staking D)) = .ok w') ↔
        ∀ node ∈ nodes, 0 < node.2 ∧ parameters.minimumStake ≤ wei node.2) ∧
      ∀ w', sendAll D evm block n w (nodes.flatMap (staking D)) = .ok w' →
        Books D evm c owner parameters (fun a => if a = D.staking then balance a + sum nodes
          else balance a - amount a nodes) (fun a => stake a + amount a nodes) w' := by
  induction nodes generalizing n w balance stake with
  | nil =>
      refine ⟨by simp [sendAll], ?_⟩
      intro w' hw'
      obtain rfl : w = w' := by simpa [sendAll] using hw'
      refine ⟨h.reachable, h.owner_eq, h.parameters_eq, ?_, h.stake_eq⟩
      intro a
      rw [h.balance_eq a]
      simp [sum, amount]
  | cons node nodes ih =>
      obtain ⟨hnode, hnodes⟩ := List.forall_mem_cons.mp hnodes
      obtain ⟨hsafe₁, hsafe⟩ := List.forall_mem_cons.mp hsafe
      obtain ⟨hcover₁, hcover⟩ := List.forall_mem_cons.mp hcover
      rw [List.map_cons, List.nodup_cons] at hnodup
      obtain ⟨hiff, hbooks⟩ := h.sendAll_staking block n hnode hsafe₁ hcover₁
      -- the other nodes keep what they stake
      have hrest := fun w₁ hw₁ => ih (hbooks w₁ hw₁) (n + 2) hnodes hnodup.2 hsafe (by
        intro other hother
        have hother₁ : other.1 ≠ node.1 := by
          intro heq
          exact hnodup.1 (List.mem_map.mpr ⟨other, hother, heq⟩)
        rw [if_neg (hnodes other hother).ne_staking.symm, if_neg hother₁]
        exact hcover other hother)
      rw [List.flatMap_cons]
      simp only [sendAll_append_eq_ok, List.forall_mem_cons]
      constructor
      · constructor
        · rintro ⟨w', w₁, hfirst, hlast⟩
          exact ⟨hiff.mp ⟨w₁, hfirst⟩, (hrest w₁ hfirst).1.mp ⟨w', hlast⟩⟩
        · rintro ⟨hallowed, hothers⟩
          obtain ⟨w₁, hfirst⟩ := hiff.mpr hallowed
          obtain ⟨w', hlast⟩ := (hrest w₁ hfirst).1.mpr hothers
          exact ⟨w', w₁, hfirst, hlast⟩
      · rintro w' ⟨w₁, hfirst, hlast⟩
        have hbooks' := (hrest w₁ hfirst).2 w' hlast
        refine ⟨hbooks'.reachable, hbooks'.owner_eq, hbooks'.parameters_eq, ?_, ?_⟩
        · intro a
          exact (hbooks'.balance_eq a).trans (balance_stakings_cons a hnodup.1)
        · intro a
          exact (hbooks'.stake_eq a).trans (stake_stakings_cons a)

theorem le_amount {node : Address × Nat} (h : node ∈ nodes) :
    1000000000000000000 * node.2 ≤ amount node.1 nodes := by
  induction nodes with
  | nil => cases h
  | cons first nodes ih =>
      rw [amount_cons]
      rcases List.mem_cons.mp h with rfl | h
      · rw [if_pos rfl]
        omega
      · have hle := ih h
        omega

end Loops

/-! ## The script -/

/-- The arguments of the constructors. -/
def config (opts : DeploymentOptions) (deployer : Address) : Config :=
  ⟨deployer, wei opts.reward, 0, wei opts.minStake, BitVec.ofNat 256 opts.voteWindowTime,
    wei opts.minStakeForDisputeVotes⟩

/-- What the script asks of its options and of the accounts there are. -/
structure Deployable (opts : DeploymentOptions) (draws : List Nat) (signers : List Address) :
    Prop where
  reward : opts.reward < maxSafe
  minStake : opts.minStake < maxSafe
  voteWindowTime : opts.voteWindowTime < maxSafe
  minStakeForDisputeVotes : opts.minStakeForDisputeVotes < maxSafe
  mintValue : mintValue opts draws < maxSafe
  accounts : nodes opts draws signers ≠ []
  stakes : ∀ node ∈ nodes opts draws signers, 0 < node.2 ∧ opts.minStake ≤ node.2

section Main

variable {D : Deployment} {evm : Evm} {block : Nat → Uint256 × Uint256} {deployer : Address}
  {opts : DeploymentOptions} {draws : List Nat} {signers : List Address}
  {nodes : List (Address × Nat)}

theorem sum_stakes : (stakes opts draws).sum = mintValue opts draws := by
  unfold stakes mintValue
  by_cases h : opts.randomizeStake = true
  · rw [if_pos h, if_pos h]
  · rw [if_neg h, if_neg h, List.sum_replicate_nat, Nat.mul_comm]

theorem sum_zip_le (as : List Address) (ns : List Nat) :
    sum (as.zip ns) ≤ 1000000000000000000 * ns.sum := by
  induction as generalizing ns with
  | nil => exact Nat.zero_le _
  | cons a as ih =>
      cases ns with
      | nil => exact Nat.zero_le _
      | cons n ns =>
          have hle := ih ns
          rw [List.zip_cons_cons, sum_cons, List.sum_cons, Nat.mul_add]
          omega

theorem le_sum {node : Address × Nat} (h : node ∈ nodes) :
    1000000000000000000 * node.2 ≤ sum nodes :=
  List.le_sum_of_mem (List.mem_map.mpr ⟨node, h, rfl⟩)

/-- The accounts are distinct signers, the deployer first. -/
theorem map_fst_nodes_sublist (opts : DeploymentOptions) (draws : List Nat)
    (signers : List Address) : ((Deploy.nodes opts draws signers).map (·.1)).Sublist signers := by
  have hzip : ∀ (as : List Address) (ns : List Nat), ((as.zip ns).map (·.1)).Sublist as := by
    intro as
    induction as with
    | nil => intro ns; exact List.Sublist.refl _
    | cons a as ih =>
        intro ns
        cases ns with
        | nil => exact List.nil_sublist _
        | cons n ns => exact (ih ns).cons_cons a
  exact (hzip _ _).trans (List.take_sublist _ _)

/-- The first node is the deployer. -/
theorem head_nodes (opts : DeploymentOptions) (draws : List Nat) (deployer : Address)
    (signers : List Address) :
    ∀ node ∈ (Deploy.nodes opts draws (deployer :: signers)).head?, node.1 = deployer := by
  unfold Deploy.nodes
  cases opts.nodeCount with
  | zero => simp
  | succ k =>
      cases stakes opts draws with
      | nil => simp
      | cons n ns => simp

/-- Nobody has a delegate yet, so minting moves no votes. -/
theorem mint_deployed (msg : Msg) (v : Uint256) (hzero : msg.sender ≠ .zero) :
    (DioneToken.deployed msg.sender).mint msg msg.sender v = .ok
      { DioneToken.deployed msg.sender with
        erc20 := ⟨Function.update (fun _ => 0) msg.sender v, fun _ _ => 0, v⟩ } := by
  have hadd : Checked.add Revert.overflow (0 : Uint256) v = .ok v := by
    rw [Checked.add_eq_ok]
    simp
  simp only [DioneToken.mint, DioneToken.deployed, onlyOwner, ERC20.deployed, ERC20._mint,
    Votes.deployed, Votes._moveDelegates, require, hzero, hadd, ok_bind, if_true, ne_eq,
    not_true, not_false_eq_true, false_and, if_false]
  rfl

/-- Before the first transaction. -/
theorem Books.deployed (D : Deployment) (evm : Evm) (c : Config) :
    Books D evm c c.deployer ⟨c.deployer, .zero, .zero, c.minerReward, c.minimumStake⟩
      (fun _ => 0) (fun _ => 0) (.deployed c) :=
  ⟨⟨[], rfl⟩, rfl, rfl, fun _ => rfl, fun _ => rfl⟩

section Founding

variable {c : Config} {owner : Address} {parameters : DioneStaking.Parameters}
  {balance stake : Address → Nat} {w : World}

/-- The staking contract gets new parameters. -/
theorem Books.configure (h : Books D evm c owner parameters balance stake w) {msg : Msg}
    (hext : D.External msg.sender) {call : StakingCall} {s : DioneStaking}
    (hcall : call.run D.staking msg w.staking w.token = .ok (s, w.token))
    (hstakes : s.minerStake = w.staking.minerStake) :
    ∃ w', (Call.staking call).run D evm msg w = .ok w' ∧ w'.token = w.token ∧
      Books D evm c owner s.parameters balance stake w' := by
  have hrun : (Call.staking call).run D evm msg w = .ok { w with staking := s } := by
    simp only [Call.run, hcall, ok_bind]
    rfl
  refine ⟨_, hrun, rfl, Reachable.run h.reachable hext hrun, h.owner_eq, rfl, h.balance_eq, ?_⟩
  intro a
  show (s.minerStake a).toNat = stake a
  rw [hstakes]
  exact h.stake_eq a

theorem Books.setOracle (h : Books D evm c owner parameters balance stake w) (msg : Msg)
    (hext : D.External msg.sender) (howner : parameters.owner = msg.sender) :
    ∃ w', (Call.staking (.setOracleContractAddress D.oracle)).run D evm msg w = .ok w' ∧
      w'.token = w.token ∧
      Books D evm c owner { parameters with dioneOracleAddress := D.oracle } balance stake w' := by
  obtain rfl := h.parameters_eq
  have hset : w.staking.setOracleContractAddress msg D.oracle
      = .ok { w.staking with dioneOracleAddress := D.oracle } :=
    DioneStaking.setByOwner_eq_ok.mpr ⟨howner, D.ne_zero.2.2, rfl⟩
  refine h.configure hext (s := { w.staking with dioneOracleAddress := D.oracle }) ?_ rfl
  simp only [StakingCall.run, hset, ok_bind]
  rfl

theorem Books.setDispute (h : Books D evm c owner parameters balance stake w) (msg : Msg)
    (hext : D.External msg.sender) (howner : parameters.owner = msg.sender) :
    ∃ w', (Call.staking (.setDisputeContractAddress D.dispute)).run D evm msg w = .ok w' ∧
      w'.token = w.token ∧
      Books D evm c owner { parameters with disputeContractAddr := D.dispute } balance stake
        w' := by
  obtain rfl := h.parameters_eq
  have hset : w.staking.setDisputeContractAddress msg D.dispute
      = .ok { w.staking with disputeContractAddr := D.dispute } :=
    DioneStaking.setByOwner_eq_ok.mpr ⟨howner, D.ne_zero.2.1, rfl⟩
  refine h.configure hext (s := { w.staking with disputeContractAddr := D.dispute }) ?_ rfl
  simp only [StakingCall.run, hset, ok_bind]
  rfl

/-- The first tokens. -/
theorem Books.mint (h : Books D evm c owner parameters (fun _ => 0) stake w) (msg : Msg)
    (hext : D.External msg.sender) (htoken : w.token = DioneToken.deployed msg.sender)
    (v : Uint256) :
    ∃ w', (Call.token (.mint msg.sender v)).run D evm msg w = .ok w' ∧
      Books D evm c owner parameters (fun a => if a = msg.sender then v.toNat else 0) stake
        w' := by
  have hrun : (Call.token (.mint msg.sender v)).run D evm msg w = .ok { w with
      token := { DioneToken.deployed msg.sender with
        erc20 := ⟨Function.update (fun _ => 0) msg.sender v, fun _ _ => 0, v⟩ } } := by
    simp only [Call.run, TokenCall.run, htoken, mint_deployed msg v hext.ne_zero, ok_bind]
    rfl
  have howner : msg.sender = owner := by
    rw [← h.owner_eq, htoken]
    rfl
  refine ⟨_, hrun, Reachable.run h.reachable hext hrun, howner, h.parameters_eq, ?_, h.stake_eq⟩
  intro a
  show (Function.update (fun _ => (0 : Uint256)) msg.sender v a).toNat = _
  by_cases ha : a = msg.sender
  · subst ha
    rw [Function.update_self, if_pos rfl]
  · rw [Function.update_of_ne ha, if_neg ha]
    rfl

end Founding

/-- The first three transactions. -/
theorem exists_founding (D : Deployment) (evm : Evm) (block : Nat → Uint256 × Uint256) {c : Config}
    {node : Address × Nat} (nodes : List (Address × Nat)) (hnode : node.1 = c.deployer)
    (hdeployer : D.External c.deployer) {mintValue : Nat} (hsafe : mintValue < maxSafe) :
    ∃ w, sendAll D evm block 0 (.deployed c) (founding D c.deployer mintValue (node :: nodes)) =
        .ok w ∧
      Books D evm c c.deployer
        ⟨c.deployer, D.oracle, D.dispute, c.minerReward, c.minimumStake⟩
        (fun a => if a = c.deployer then 1000000000000000000 * mintValue else 0)
        (fun _ => 0) w := by
  obtain ⟨w₁, hrun₁, htoken₁, h₁⟩ := (Books.deployed D evm c).setOracle
    ⟨c.deployer, (block 0).1, (block 0).2⟩ hdeployer rfl
  obtain ⟨w₂, hrun₂, htoken₂, h₂⟩ := h₁.setDispute
    ⟨c.deployer, (block 1).1, (block 1).2⟩ hdeployer rfl
  obtain ⟨w₃, hrun₃, h₃⟩ := h₂.mint ⟨c.deployer, (block 2).1, (block 2).2⟩ hdeployer
    (htoken₂.trans htoken₁) (wei mintValue)
  rw [toNat_wei hsafe] at h₃
  refine ⟨w₃, ?_, h₃⟩
  have hmint : (do return (c.deployer, Call.token (.mint node.1 (← number mintValue wei))) :
      Except DeployError (Address × Call))
        = .ok (c.deployer, .token (.mint c.deployer (wei mintValue))) := by
    rw [hnode, number_eq_ok.mpr ⟨hsafe, rfl⟩]
    rfl
  rw [founding, sendAll_cons_eq_ok]
  refine ⟨_, _, w₁, rfl, hrun₁, ?_⟩
  rw [sendAll_cons_eq_ok]
  refine ⟨_, _, w₂, rfl, hrun₂, ?_⟩
  rw [sendAll_cons_eq_ok]
  exact ⟨_, _, w₃, hmint, hrun₃, rfl⟩

/-- The token is handed over. -/
theorem Books.handOver {c : Config} {owner : Address} {parameters : DioneStaking.Parameters}
    {balance stake : Address → Nat} {w : World}
    (h : Books D evm c owner parameters balance stake w) (msg : Msg) (hext : D.External msg.sender)
    (howner : msg.sender = owner) :
    ∃ w', (Call.token (.transferOwnership D.staking)).run D evm msg w = .ok w' ∧
      Books D evm c D.staking parameters balance stake w' := by
  have htransfer : transferOwnership w.token.owner msg.sender D.staking = .ok D.staking := by
    simp [transferOwnership, onlyOwner, require, h.owner_eq, howner, D.ne_zero.1]
  have hrun : (Call.token (.transferOwnership D.staking)).run D evm msg w =
      .ok { w with token := { w.token with owner := D.staking } } := by
    simp only [Call.run, TokenCall.run, htransfer, ok_bind]
    rfl
  exact ⟨_, hrun, Reachable.run h.reachable hext hrun, rfl, h.parameters_eq, h.balance_eq,
    h.stake_eq⟩

/-- Without an account, or with a number too large, the mint throws. -/
theorem sendAll_script_ne_ok {mintValue : Nat} {w w' : World}
    (h : nodes = [] ∨ ¬ mintValue < maxSafe) :
    sendAll D evm block 0 w (script D deployer mintValue nodes) ≠ .ok w' := by
  intro hw
  rw [script, List.append_assoc, List.append_assoc, sendAll_append_eq_ok] at hw
  obtain ⟨_, hfounding, -⟩ := hw
  simp only [founding, sendAll_cons_eq_ok] at hfounding
  obtain ⟨_, _, _, -, -, _, _, _, -, -, _, _, _, hmint, -⟩ := hfounding
  cases nodes with
  | nil => cases hmint
  | cons node nodes =>
      have hlarge : ¬ mintValue < maxSafe := h.resolve_left (List.cons_ne_nil _ _)
      simp [number, hlarge] at hmint

/-- What an account has before the stakes, when the nodes after the first have got their
    tokens. -/
def funded (deployer : Address) (mintValue : Nat) (others : List (Address × Nat)) (a : Address) :
    Nat :=
  if a = deployer then 1000000000000000000 * mintValue - sum others else amount a others

section Funded

variable {mintValue : Nat} {node : Address × Nat}

/-- Every node has what it is to stake. -/
theorem le_funded (hnode : node.1 = deployer) (hne : deployer ∉ nodes.map (·.1))
    (hsum : sum (node :: nodes) ≤ 1000000000000000000 * mintValue) :
    ∀ p ∈ node :: nodes, 1000000000000000000 * p.2 ≤ funded deployer mintValue nodes p.1 := by
  rw [sum_cons] at hsum
  intro p hp
  rcases List.mem_cons.mp hp with rfl | hp
  · rw [funded, if_pos hnode]
    omega
  · have hother : p.1 ≠ deployer := by
      intro heq
      exact hne (heq ▸ List.mem_map_of_mem hp)
    rw [funded, if_neg hother]
    exact le_amount hp

/-- What is left of it after the stakes. -/
theorem funded_sub_amount (hnode : node.1 = deployer) (hne : deployer ∉ nodes.map (·.1))
    (a : Address) :
    funded deployer mintValue nodes a - amount a (node :: nodes) = if a = deployer then
      1000000000000000000 * mintValue - sum (node :: nodes) else 0 := by
  rw [funded, amount_cons, sum_cons, hnode]
  by_cases ha : a = deployer
  · subst ha
    rw [if_pos rfl, if_pos rfl, if_pos rfl, amount_eq_zero hne]
    omega
  · rw [if_neg ha, if_neg ha, if_neg (Ne.symm ha)]
    omega

/-- The staking contract has nothing before the stakes. -/
theorem funded_staking (hdeployer : D.External deployer) (hext : ∀ p ∈ nodes, D.External p.1) :
    funded deployer mintValue nodes D.staking = 0 := by
  rw [funded, if_neg hdeployer.ne_staking]
  refine amount_eq_zero fun hmem => ?_
  obtain ⟨p, hp, heq⟩ := List.mem_map.mp hmem
  exact (hext p hp).ne_staking heq.symm

/-- The transactions before the stakes go through. -/
theorem exists_funded (D : Deployment) (evm : Evm) (block : Nat → Uint256 × Uint256) {c : Config}
    (hnode : node.1 = c.deployer) (hdeployer : D.External c.deployer)
    (hext : ∀ p ∈ nodes, D.External p.1) (hne : c.deployer ∉ nodes.map (·.1))
    (hmint : mintValue < maxSafe) (hsafe : ∀ p ∈ nodes, p.2 < maxSafe)
    (hsum : sum nodes ≤ 1000000000000000000 * mintValue) :
    ∃ n w₀, Books D evm c D.staking
        ⟨c.deployer, D.oracle, D.dispute, c.minerReward, c.minimumStake⟩
        (funded c.deployer mintValue nodes) (fun _ => 0) w₀ ∧
      ∀ w, sendAll D evm block 0 (.deployed c) (script D c.deployer mintValue (node :: nodes)) =
          .ok w ↔
        sendAll D evm block n w₀ ((node :: nodes).flatMap (staking D)) = .ok w := by
  obtain ⟨w₁, hsend₁, h₁⟩ := exists_founding D evm block nodes hnode hdeployer hmint
  obtain ⟨w₂, hsend₂, h₂⟩ := h₁.transfers block 3 hdeployer hext hne hsafe
    (by rw [if_pos rfl]; exact hsum)
  obtain ⟨w₃, hrun₃, h₃⟩ := h₂.handOver ⟨c.deployer, (block (3 + nodes.length)).1,
    (block (3 + nodes.length)).2⟩ hdeployer rfl
  have hlength : (founding D c.deployer mintValue (node :: nodes) ++
      nodes.map (funding c.deployer)).length = 3 + nodes.length := by
    rw [List.length_append, List.length_map]
    rfl
  have hsend₃ : sendAll D evm block 0 (.deployed c)
      (founding D c.deployer mintValue (node :: nodes) ++ nodes.map (funding c.deployer) ++
        [.ok (c.deployer, .token (.transferOwnership D.staking))]) = .ok w₃ := by
    rw [sendAll_append_eq_ok, hlength]
    refine ⟨w₂, sendAll_append_eq_ok.mpr ⟨w₁, hsend₁, hsend₂⟩, ?_⟩
    rw [sendAll_cons_eq_ok, Nat.zero_add]
    exact ⟨_, _, w₃, rfl, hrun₃, rfl⟩
  refine ⟨3 + nodes.length + 1, w₃,
    ⟨h₃.reachable, h₃.owner_eq, h₃.parameters_eq, ?_, h₃.stake_eq⟩, ?_⟩
  · intro a
    rw [h₃.balance_eq a, funded]
    by_cases ha : a = c.deployer
    · rw [if_pos ha, if_pos ha, if_pos ha]
    · rw [if_neg ha, if_neg ha, if_neg ha, Nat.zero_add]
  · intro w
    rw [script, List.tail_cons, sendAll_append_eq_ok, hsend₃, List.length_append, hlength,
      List.length_singleton, Nat.zero_add]
    simp only [Except.ok.injEq, exists_eq_left']

end Funded

/-- The script from the constructors on. -/
theorem sendAll_script (D : Deployment) (evm : Evm) (block : Nat → Uint256 × Uint256) {c : Config}
    {mintValue : Nat} (hhead : ∀ node ∈ nodes.head?, node.1 = c.deployer)
    (hext : ∀ p ∈ nodes, D.External p.1) (hnodup : (nodes.map (·.1)).Nodup)
    (hsum : sum nodes ≤ 1000000000000000000 * mintValue) :
    ((∃ w, sendAll D evm block 0 (.deployed c) (script D c.deployer mintValue nodes) = .ok w) ↔
        mintValue < maxSafe ∧ nodes ≠ [] ∧
          ∀ p ∈ nodes, 0 < p.2 ∧ c.minimumStake ≤ wei p.2) ∧
      ∀ w, sendAll D evm block 0 (.deployed c) (script D c.deployer mintValue nodes) = .ok w →
        Books D evm c D.staking ⟨c.deployer, D.oracle, D.dispute, c.minerReward, c.minimumStake⟩
          (fun a => if a = D.staking then sum nodes else if a = c.deployer then
            1000000000000000000 * mintValue - sum nodes else 0)
          (fun a => amount a nodes) w := by
  by_cases hthrows : nodes = [] ∨ ¬ mintValue < maxSafe
  · refine ⟨iff_of_false ?_ ?_, ?_⟩
    · rintro ⟨w, hw⟩
      exact sendAll_script_ne_ok hthrows hw
    · rintro ⟨hmint, hnodes, -⟩
      exact hthrows.elim hnodes (absurd hmint)
    · intro w hw
      exact absurd hw (sendAll_script_ne_ok hthrows)
  obtain ⟨hnodes, hmint⟩ := not_or.mp hthrows
  rw [not_not] at hmint
  obtain ⟨node, others, rfl⟩ := List.exists_cons_of_ne_nil hnodes
  have hnode : node.1 = c.deployer := hhead node rfl
  have hdeployer : D.External c.deployer := hnode ▸ hext node List.mem_cons_self
  have hothers : ∀ p ∈ others, D.External p.1 := (List.forall_mem_cons.mp hext).2
  have hne : c.deployer ∉ others.map (·.1) := by
    rw [← hnode]
    exact (List.nodup_cons.mp hnodup).1
  have hsafe : ∀ p ∈ node :: others, p.2 < maxSafe := by
    intro p hp
    have hle := le_sum hp
    omega
  obtain ⟨n, w₀, hbooks, hsend⟩ := exists_funded D evm block hnode hdeployer hothers hne hmint
    (List.forall_mem_cons.mp hsafe).2 (by rw [sum_cons] at hsum; omega)
  obtain ⟨hiff, hafter⟩ := hbooks.stakings block n hext hnodup hsafe (le_funded hnode hne hsum)
  simp only [hsend]
  refine ⟨?_, ?_⟩
  · rw [hiff]
    exact ⟨fun h => ⟨hmint, hnodes, h⟩, fun h => h.2.2⟩
  · intro w hw
    have hfinal := hafter w hw
    refine ⟨hfinal.reachable, hfinal.owner_eq, hfinal.parameters_eq, ?_, ?_⟩
    · intro a
      rw [hfinal.balance_eq a, funded_sub_amount hnode hne]
      by_cases ha : a = D.staking
      · rw [if_pos ha, if_pos ha, ha, funded_staking hdeployer hothers, Nat.zero_add]
      · rw [if_neg ha, if_neg ha]
    · intro a
      rw [hfinal.stake_eq a, Nat.zero_add]

/-- The constructors get their numbers, and then the transactions are sent. -/
theorem deploy_eq_ok {w : World} :
    deploy D evm opts draws block (deployer :: signers) = .ok w ↔
      opts.reward < maxSafe ∧ opts.minStake < maxSafe ∧ opts.voteWindowTime < maxSafe ∧
        opts.minStakeForDisputeVotes < maxSafe ∧
        sendAll D evm block 0 (.deployed (config opts deployer)) (script D deployer
          (mintValue opts draws) (Deploy.nodes opts draws (deployer :: signers))) = .ok w := by
  simp only [deploy, bind_eq_ok, number_eq_ok]
  constructor
  · rintro ⟨_, ⟨hreward, rfl⟩, _, ⟨hmin, rfl⟩, _, ⟨hwindow, rfl⟩, _, ⟨hvotes, rfl⟩, hsend⟩
    exact ⟨hreward, hmin, hwindow, hvotes, hsend⟩
  · rintro ⟨hreward, hmin, hwindow, hvotes, hsend⟩
    exact ⟨_, ⟨hreward, rfl⟩, _, ⟨hmin, rfl⟩, _, ⟨hwindow, rfl⟩, _, ⟨hvotes, rfl⟩, hsend⟩

/-- The nodes stake no more than is minted. -/
theorem sum_nodes_le : sum (Deploy.nodes opts draws signers) ≤
    1000000000000000000 * mintValue opts draws := by
  rw [← sum_stakes]
  exact sum_zip_le _ _

/-- A stake is enough in wei iff it is in tokens. -/
theorem wei_le_wei_iff (hmin : opts.minStake < maxSafe) (hmint : mintValue opts draws < maxSafe)
    {node : Address × Nat} (h : node ∈ Deploy.nodes opts draws signers) :
    wei opts.minStake ≤ wei node.2 ↔ opts.minStake ≤ node.2 := by
  have hle := (le_sum h).trans sum_nodes_le
  rw [BitVec.le_def, toNat_wei hmin, toNat_wei (show node.2 < maxSafe by omega)]
  omega

/-- Who has staked the minimum is a miner. -/
theorem Books.isMiner {c : Config} {owner : Address} {parameters : DioneStaking.Parameters}
    {balance : Address → Nat} {w : World} {node : Address × Nat} {minStake : Nat}
    (h : Books D evm c owner parameters balance (fun a => amount a nodes) w)
    (hparameter : parameters.minimumStake = wei minStake) (hsafe : minStake < maxSafe)
    (hnode : node ∈ nodes) (hmin : minStake ≤ node.2) : w.staking.isMiner node.1 = true := by
  have hle := le_amount hnode
  have hminimum : w.staking.minimumStake = wei minStake :=
    (congrArg DioneStaking.Parameters.minimumStake h.parameters_eq).trans hparameter
  rw [DioneStaking.isMiner_iff, hminimum, h.stake_eq, toNat_wei hsafe]
  omega

end Main

end Deploy

open Deploy in
/-- The script comes to its end iff its numbers are safe, there is an account, and every node
    is to stake something and no less than the minimum.  The contracts then know each
    other, the staking contract owns the token, and every node is a miner with the stake
    meant for it; the tokens that nobody staked are the deployer's. -/
theorem deploy_spec (D : Deployment) (evm : Evm) (block : Nat → Uint256 × Uint256)
    (opts : DeploymentOptions) (draws : List Nat) {signers : List Address} (hnodup : signers.Nodup)
    (hext : ∀ a ∈ signers, D.External a) :
    ((∃ w, deploy D evm opts draws block signers = .ok w) ↔ Deployable opts draws signers) ∧
      ∀ w, deploy D evm opts draws block signers = .ok w → ∃ deployer,
        signers.head? = some deployer ∧
        Books D evm (config opts deployer) D.staking
          ⟨deployer, D.oracle, D.dispute, wei opts.reward, wei opts.minStake⟩
          (fun a => if a = D.staking then sum (nodes opts draws signers) else if a = deployer then
            1000000000000000000 * mintValue opts draws - sum (nodes opts draws signers) else 0)
          (fun a => amount a (nodes opts draws signers)) w ∧
        ∀ node ∈ nodes opts draws signers, w.staking.isMiner node.1 = true := by
  cases signers with
  | nil =>
      refine ⟨iff_of_false ?_ ?_, ?_⟩
      · rintro ⟨w, hw⟩
        cases hw
      · intro h
        exact h.accounts (by simp [nodes])
      · intro w hw
        cases hw
  | cons deployer signers =>
      have hsub := map_fst_nodes_sublist opts draws (deployer :: signers)
      obtain ⟨hiff, hbooks⟩ := sendAll_script D evm block (c := config opts deployer)
        (head_nodes opts draws deployer signers)
        (fun p hp => hext p.1 (hsub.subset (List.mem_map_of_mem hp))) (hnodup.sublist hsub)
        sum_nodes_le
      simp only [deploy_eq_ok]
      constructor
      · constructor
        · rintro ⟨w, hreward, hmin, hwindow, hvotes, hw⟩
          obtain ⟨hmint, hnodes, hstakes⟩ := hiff.mp ⟨w, hw⟩
          refine ⟨hreward, hmin, hwindow, hvotes, hmint, hnodes, ?_⟩
          intro p hp
          exact ⟨(hstakes p hp).1, (wei_le_wei_iff hmin hmint hp).mp (hstakes p hp).2⟩
        · intro h
          obtain ⟨w, hw⟩ := hiff.mpr ⟨h.mintValue, h.accounts, fun p hp =>
            ⟨(h.stakes p hp).1, (wei_le_wei_iff h.minStake h.mintValue hp).mpr (h.stakes p hp).2⟩⟩
          exact ⟨w, h.reward, h.minStake, h.voteWindowTime, h.minStakeForDisputeVotes, hw⟩
      · rintro w ⟨-, hmin, -, -, hw⟩
        have hfinal := hbooks w hw
        obtain ⟨hmint, -, hstakes⟩ := hiff.mp ⟨w, hw⟩
        refine ⟨deployer, rfl, hfinal, ?_⟩
        intro p hp
        exact hfinal.isMiner rfl hmin hp ((wei_le_wei_iff hmin hmint hp).mp (hstakes p hp).2)

/-- The options of `scripts/deploy.ts`. -/
def scriptOptions : DeploymentOptions where
  reward := 100
  minStake := 5000
  voteWindowTime := 5
  randomizeStake := false
  maxStake := 0
  actualStake := 5000
  nodeCount := 4
  minStakeForDisputeVotes := 100

theorem deploy_spec_scriptOptions :
    ∃ w, Deploy.deploy sampleDeployment sampleEvm scriptOptions []
      (fun n => (.ofNat 256 n, .ofNat 256 n))
      [.ofNat 10, .ofNat 11, .ofNat 12, .ofNat 13, .ofNat 14] = .ok w := by
  refine (deploy_spec sampleDeployment sampleEvm _ scriptOptions [] ?_ ?_).1.mpr ?_
  · decide
  · simp only [List.forall_mem_cons]
    exact ⟨by decide, by decide, by decide, by decide, by decide, by simp⟩
  · exact ⟨by decide, by decide, by decide, by decide, by decide, by decide, by decide⟩

end Dione.Contracts
