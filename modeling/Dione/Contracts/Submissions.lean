/-
  Dione.Contracts.Submissions

  What the tasks of a block do on the Ethereum side: the calls that
  `submitTasksFromBlock` makes, as transactions of `DioneOracle.submitOracleRequest`.

  The client packs the number of a request into a `uint256`, so the contract sees it
  modulo 2^256.  Some of the calls may fail to send a transaction; the others are mined
  in the order of the calls, here with no transaction of anybody else in between.
  A block may have several tasks for one request, tasks for requests that nobody has
  made, and tasks that come too late; each of these reverts by itself and changes
  nothing.  Of the others the first one for each request is the answer, and the miner
  is paid once for each request that is answered, as long as the contracts can pay
  (`World.Pays`).
-/

import Dione.Contracts.Accounts
import Dione.Contracts.Requests
import Dione.Node.Answers

namespace Dione.Contracts

open Guard

/-! ## The contracts can pay -/

/-- What it takes to pay `n` rewards. -/
structure World.Pays (D : Deployment) (n : Nat) (w : World) : Prop where
  solvent : Solvent D.staking w.staking w.token
  registered : w.staking.dioneOracleAddress = D.oracle
  owner : w.token.owner = D.staking
  /-- Votes of minted tokens go to the delegate of who gets them: here to nobody. -/
  undelegated : w.token.votes.delegates D.staking = .zero
  room : w.token.erc20.totalSupply.toNat + n * w.staking.minerReward.toNat < 2 ^ 256

theorem World.Pays.mono {D : Deployment} {w : World} {m n : Nat} (h : w.Pays D n) (hle : m ≤ n) :
    w.Pays D m where
  solvent := h.solvent
  registered := h.registered
  owner := h.owner
  undelegated := h.undelegated
  room := by
    have hroom := h.room
    have hmul : m * w.staking.minerReward.toNat ≤ n * w.staking.minerReward.toNat :=
      Nat.mul_le_mul_right _ hle
    omega

section Pay

variable {D : Deployment} {w : World}

/-- With room for a reward, the staking contract can mint it. -/
theorem World.Pays.exists_mint {n : Nat} (h : w.Pays D (n + 1)) (msg : Msg)
    (hsender : msg.sender = D.staking) :
    ∃ t, w.token.mint msg D.staking w.staking.minerReward = .ok t ∧ t.votes = w.token.votes := by
  have hroom := h.room
  rw [Nat.add_mul, Nat.one_mul] at hroom
  obtain ⟨supply, hsupply, -⟩ := Checked.exists_add (e := Revert.overflow)
    (show w.token.erc20.totalSupply.toNat + w.staking.minerReward.toNat < 2 ^ 256 by omega)
  -- a balance is part of the supply
  have hbalance : (w.token.erc20.balances D.staking).toNat ≤ w.token.erc20.totalSupply.toNat := by
    rw [← h.solvent.backs.supply]
    exact Ledger.le_total _ _
  obtain ⟨sum, hsum, -⟩ := Checked.exists_add (e := Revert.overflow)
    (show (w.token.erc20.balances D.staking).toNat + w.staking.minerReward.toNat < 2 ^ 256 by omega)
  refine ⟨{ w.token with erc20 := { w.token.erc20 with
    totalSupply := supply
    balances := Function.update w.token.erc20.balances D.staking sum } }, ?_, rfl⟩
  have hmint : w.token.erc20._mint D.staking w.staking.minerReward = .ok { w.token.erc20 with
      totalSupply := supply
      balances := Function.update w.token.erc20.balances D.staking sum } := by
    simp only [ERC20._mint, require, if_pos D.ne_zero.1, hsupply, hsum, ok_bind]
    rfl
  simp only [DioneToken.mint, onlyOwner, require, h.owner, hsender, if_true, ok_bind, hmint,
    h.undelegated, Votes._moveDelegates, ne_eq, not_true, false_and, if_false]
  rfl

theorem World.Pays.exists_mineAndStake {n : Nat} (h : w.Pays D (n + 1)) (msg : Msg) (who : Address)
    (hsender : msg.sender = D.oracle) :
    ∃ s t, w.staking.mineAndStake D.staking msg who w.token = .ok (s, t) ∧
      t.votes = w.token.votes := by
  obtain ⟨t, hmint, hvotes⟩ := h.exists_mint { msg with sender := D.staking } rfl
  have hroom := h.room
  rw [Nat.add_mul, Nat.one_mul] at hroom
  -- all stakes together are covered by a balance, and that is part of the supply
  have hcovered : w.staking.totalStake.toNat ≤ w.token.erc20.totalSupply.toNat := by
    apply h.solvent.backs.covered.trans
    rw [← h.solvent.backs.supply]
    exact Ledger.le_total _ _
  have hstake : (w.staking.minerStake who).toNat ≤ w.staking.totalStake.toNat := by
    rw [← h.solvent.stakes]
    exact Ledger.le_total _ _
  obtain ⟨total', htotal, -⟩ := Checked.exists_add (e := Revert.overflow)
    (show w.staking.totalStake.toNat + w.staking.minerReward.toNat < 2 ^ 256 by omega)
  obtain ⟨sum, hsum, -⟩ := Checked.exists_add (e := Revert.overflow)
    (show (w.staking.minerStake who).toNat + w.staking.minerReward.toNat < 2 ^ 256 by omega)
  simp only [DioneStaking.mineAndStake, DioneStaking.nonReentrant_eq_ok, bind_eq_ok,
    require_eq_ok, exists_const, pure_eq_ok_iff, Prod.mk.injEq]
  exact ⟨_, t, ⟨h.solvent.entered, _, ⟨hsender.trans h.registered.symm, t, hmint, total', htotal,
    sum, hsum, rfl, rfl⟩, rfl⟩, hvotes⟩

end Pay

/-! ## One submission -/

/-- The request is pending, and its deadline has not passed.  The difference of the two
    times has to be an `int256`. -/
def Submission.Timely (o : DioneOracle) (sub : Submission) : Prop :=
  o.Pending sub.reqID ∧ sub.msg.timestamp.toInt ≤ (o.pendingRequests sub.reqID).deadline.toInt ∧
    (o.pendingRequests sub.reqID).deadline.toInt - sub.msg.timestamp.toInt < 2 ^ 255

instance (o : DioneOracle) (sub : Submission) : Decidable (sub.Timely o) :=
  inferInstanceAs (Decidable (_ ∧ _ ∧ _))

/-- One transaction of the node. -/
def World.submit (D : Deployment) (evm : Evm) (w : World) (sub : Submission) : World :=
  match (Call.oracle (.submitOracleRequest sub.reqID sub.data)).run D evm sub.msg w with
  | .ok w' => w'
  | .error _ => w

/-- It is a transaction like any other. -/
theorem World.submit_eq_step (D : Deployment) (evm : Evm) (w : World) (sub : Submission)
    (hext : D.External sub.msg.sender) : w.submit D evm sub
      = w.step D evm ⟨sub.msg, .oracle (.submitOracleRequest sub.reqID sub.data), hext⟩ := rfl

theorem Submission.timely_iff {o : DioneOracle} {sub : Submission} : sub.Timely o ↔
    o.Pending sub.reqID ∧ ∃ left : Int256,
      left.toInt = (o.pendingRequests sub.reqID).deadline.toInt - sub.msg.timestamp.toInt ∧
        0 ≤ left.toInt := by
  unfold Submission.Timely
  refine and_congr_right fun _ => ?_
  generalize (o.pendingRequests sub.reqID).deadline.toInt = deadline
  generalize sub.msg.timestamp.toInt = now
  constructor
  · rintro ⟨hle, hlt⟩
    have hleft : (BitVec.ofInt 256 (deadline - now)).toInt = deadline - now := by
      rw [BitVec.toInt_ofInt]
      apply Int.bmod_eq_of_le
      · omega
      · omega
    exact ⟨_, hleft, by omega⟩
  · rintro ⟨left, hleft, hnonneg⟩
    have hlt : left.toInt < 2 ^ 255 := BitVec.toInt_lt
    omega

/-- The request is closed, the answer announced and the sender paid. -/
structure World.Answers (sub : Submission) (w w' : World) : Prop where
  oracle_eq : w'.oracle = w.oracle.setRequest sub.reqID .zero
  events_eq : w'.events = w.events ++
    [.callback .zero 0 sub.reqID sub.data, .submittedOracleRequest sub.reqID sub.data]
  stakes_eq : ∀ a, (w'.staking.minerStake a).toNat = (w.staking.minerStake a).toNat +
    if sub.msg.sender = a then w.staking.minerReward.toNat else 0
  reward_eq : w'.staking.minerReward = w.staking.minerReward

section Submit

variable {D : Deployment} {evm : Evm} {w : World} {sub : Submission}

theorem World.submit_of_not_timely (h : ¬sub.Timely w.oracle) : w.submit D evm sub = w := by
  unfold World.submit
  split
  · next w' hrun =>
      -- whoever is answered was pending, with time left
      obtain ⟨w₁, hanswer, -⟩ := submitOracleRequest_run.mp hrun
      obtain ⟨call, hanswer, -⟩ := answer_run hanswer
      obtain ⟨hpending, hleft, -⟩ := DioneOracle.answer_eq_ok.mp hanswer
      exact absurd (Submission.timely_iff.mpr ⟨hpending, hleft⟩) h
  · rfl

theorem World.Pays.submit {n : Nat} (h : w.Pays D (n + 1)) (htimely : sub.Timely w.oracle) :
    World.Answers sub w (w.submit D evm sub) ∧ (w.submit D evm sub).Pays D n := by
  obtain ⟨hpending, hleft⟩ := Submission.timely_iff.mp htimely
  obtain ⟨s, t, hpaid, hvotes⟩ := h.exists_mineAndStake { sub.msg with sender := D.oracle }
    sub.msg.sender rfl
  have hanswer : w.oracle.answer D.oracle D.staking sub.msg sub.reqID sub.data w.staking w.token
      = .ok (w.oracle.setRequest sub.reqID .zero, (s, t), .callback .zero 0 sub.reqID sub.data) :=
    DioneOracle.answer_eq_ok.mpr ⟨hpending, hleft, hpaid, rfl, rfl⟩
  have hsubmit := DioneOracle.submitOracleRequest_eq_ok.mpr ⟨_, hanswer, rfl⟩
  have hrun : (Call.oracle (.submitOracleRequest sub.reqID sub.data)).run D evm sub.msg w
      = .ok { w with
        oracle := w.oracle.setRequest sub.reqID .zero
        staking := s
        token := t
        events := w.events ++
          [.callback .zero 0 sub.reqID sub.data, .submittedOracleRequest sub.reqID sub.data] } := by
    simp only [Call.run, OracleCall.run, hsubmit, ok_bind]
    rfl
  have hparameters : s.parameters = w.staking.parameters :=
    (StakingCall.parameters_run (c := .mineAndStake sub.msg.sender) hpaid).resolve_right
      fun howner => by cases howner.1
  have hreward : s.minerReward = w.staking.minerReward :=
    congrArg DioneStaking.Parameters.minerReward hparameters
  obtain ⟨hsupply, howner⟩ := supply_mineAndStake hpaid
  rw [World.submit, hrun]
  refine ⟨⟨rfl, rfl, ?_, hreward⟩, ⟨h.solvent.mineAndStake hpaid, ?_, howner.trans h.owner, ?_, ?_⟩⟩
  · intro a
    have hbooked := (Call.effect hrun).booked a
    simpa [Call.bookings, StakingCall.bookings, credits, debits, Booking.credit, Booking.debit]
      using hbooked
  · exact (congrArg DioneStaking.Parameters.dioneOracleAddress hparameters).trans h.registered
  · show t.votes.delegates D.staking = .zero
    rw [hvotes]
    exact h.undelegated
  · have hroom := h.room
    rw [Nat.add_mul, Nat.one_mul] at hroom
    show t.erc20.totalSupply.toNat + n * s.minerReward.toNat < 2 ^ 256
    rw [hsupply, hreward]
    omega

end Submit

/-! ## All submissions of a block -/

/-- The submissions that count: for each request the first that comes in time. -/
def answering (o : DioneOracle) (subs : List Submission) : List Submission :=
  Lists.firsts Submission.reqID (fun sub => decide (sub.Timely o)) subs

/-- Each of `answers` closes its request, is announced and pays its sender.  Nothing else
    happens to requests and stakes. -/
structure World.Settles (answers : List Submission) (w w' : World) : Prop where
  requests : ∀ id, w'.oracle.pendingRequests id =
    if id ∈ answers.map Submission.reqID then .zero else w.oracle.pendingRequests id
  events : w'.events = w.events ++ answers.flatMap fun sub =>
    [.callback .zero 0 sub.reqID sub.data, .submittedOracleRequest sub.reqID sub.data]
  stakes : ∀ a, (w'.staking.minerStake a).toNat = (w.staking.minerStake a).toNat +
    answers.countP (fun sub => sub.msg.sender == a) * w.staking.minerReward.toNat

theorem World.settles_nil (w : World) : World.Settles [] w w where
  requests _ := rfl
  events := (List.append_nil _).symm
  stakes a := by simp

theorem World.Settles.cons {sub : Submission} {answers : List Submission} {w w₁ w' : World}
    (hfirst : World.Answers sub w w₁) (hrest : World.Settles answers w₁ w') :
    World.Settles (sub :: answers) w w' where
  requests id := by
    rw [hrest.requests, hfirst.oracle_eq, List.map_cons]
    by_cases hid : id = sub.reqID
    · subst hid
      simp
    · rw [DioneOracle.pendingRequests_setRequest_of_ne _ _ hid]
      simp only [List.mem_cons, hid, false_or]
  events := by
    rw [hrest.events, hfirst.events_eq, List.flatMap_cons, List.append_assoc]
  stakes a := by
    rw [hrest.stakes, hfirst.stakes_eq, hfirst.reward_eq, List.countP_cons, Nat.add_mul]
    by_cases ha : sub.msg.sender = a
    · simp only [ha, if_true, beq_self_eq_true, Nat.one_mul]
      omega
    · simp [ha]

/-- An answer takes its request from those who come later, and nothing else. -/
theorem Submission.timely_delete {o : DioneOracle} {id : Uint256} {sub : Submission} :
    sub.Timely (o.setRequest id .zero) ↔ sub.reqID ≠ id ∧ sub.Timely o := by
  unfold Submission.Timely
  rw [DioneOracle.pending_delete, and_assoc]
  refine and_congr_right fun hne => ?_
  rw [DioneOracle.pendingRequests_setRequest_of_ne _ _ hne]

/-- The submissions that count settle what all of them do, and the others might as well not have
    been made. -/
theorem World.Pays.settles {D : Deployment} {evm : Evm} {w : World} {subs : List Submission}
    (h : w.Pays D subs.length) :
    World.Settles (answering w.oracle subs) w (Run.exec (World.submit D evm) w subs) ∧
      Run.exec (World.submit D evm) w subs
        = Run.exec (World.submit D evm) w (answering w.oracle subs) := by
  induction subs generalizing w with
  | nil => exact ⟨w.settles_nil, rfl⟩
  | cons sub subs ih =>
      rw [Run.exec_cons, answering, Lists.firsts]
      by_cases htimely : sub.Timely w.oracle
      · obtain ⟨hanswers, hpays⟩ : World.Answers sub w (w.submit D evm sub) ∧
            (w.submit D evm sub).Pays D subs.length := h.submit htimely
        rw [if_pos (decide_eq_true htimely)]
        have hlater : (fun later : Submission =>
            later.reqID != sub.reqID && decide (later.Timely w.oracle))
            = fun later => decide (later.Timely (w.submit D evm sub).oracle) := by
          funext later
          rw [hanswers.oracle_eq, decide_eq_decide.mpr Submission.timely_delete,
            Bool.decide_and]
          exact congrArg (· && _) decide_not.symm
        rw [hlater, Run.exec_cons]
        obtain ⟨hsettles, hexec⟩ := ih hpays
        exact ⟨.cons hanswers hsettles, hexec⟩
      · rw [if_neg (by simpa using htimely), World.submit_of_not_timely htimely]
        exact ih (h.mono (Nat.le_succ _))

/-- The transaction that a call of `SubmitRequestAnswer` sends. -/
def submission (a : Answer) (msg : Msg) : Submission :=
  ⟨msg, BitVec.ofInt 256 a.reqID, a.data⟩

/-- The transactions of the calls that have sent one, each with the message it is mined
    with. -/
def submissions (sent : List (Answer × Msg)) : List Submission :=
  sent.map fun p => submission p.1 p.2

theorem mem_submissions {o : Oracles} {block : List (Option Transaction)}
    {sent : List (Answer × Msg)}
    (hsent : (sent.map Prod.fst).Sublist (submitTasksFromBlock o block).1) {sub : Submission}
    (h : sub ∈ submissions sent) :
    (∃ p ∈ sent, sub.msg = p.2) ∧ ∃ tx, some tx ∈ block ∧ ∃ a : Answer, a.Of o tx.data ∧
      sub.reqID = BitVec.ofInt 256 a.reqID ∧ sub.data = a.data := by
  obtain ⟨p, hp, rfl⟩ := List.mem_map.mp h
  obtain ⟨tx, htx, hof⟩ := mem_submitTasksFromBlock (hsent.subset (List.mem_map_of_mem hp))
  exact ⟨⟨p, hp, rfl⟩, tx, htx, p.1, hof, rfl, rfl⟩

/-- Whatever tasks a block has, whichever of the calls for them send a transaction and whenever
    these are mined, one after the other, while the contracts can pay: the contract takes one
    answer for a request, the payload of the first task for it that comes in time, and pays the
    miner once for it.  All other transactions of the block have no effect. -/
theorem block_answers_each_request_once {D : Deployment} (evm : Evm) {w : World} (o : Oracles)
    (block : List (Option Transaction)) (sent : List (Answer × Msg)) (miner : Address)
    (hsent : (sent.map Prod.fst).Sublist (submitTasksFromBlock o block).1)
    (hsender : ∀ p ∈ sent, p.2.sender = miner) (hpays : w.Pays D sent.length) :
    ∃ answers : List Submission, answers.Sublist (submissions sent) ∧
      (answers.map Submission.reqID).Nodup ∧
      (∀ id, answers.find? (fun sub => sub.reqID == id) = (submissions sent).find?
        fun sub => sub.reqID == id && decide (sub.Timely w.oracle)) ∧
      (∀ sub ∈ answers, ∃ tx, some tx ∈ block ∧ ∃ a : Answer, a.Of o tx.data ∧
        sub.reqID = BitVec.ofInt 256 a.reqID ∧ sub.data = a.data) ∧
      World.Settles answers w (Run.exec (World.submit D evm) w (submissions sent)) ∧
      Run.exec (World.submit D evm) w (submissions sent)
        = Run.exec (World.submit D evm) w answers ∧
      ∀ a, answers.countP (fun sub => sub.msg.sender == a)
        = if a = miner then answers.length else 0 := by
  have hlength : (submissions sent).length ≤ sent.length := by rw [submissions, List.length_map]
  have hsub : (answering w.oracle (submissions sent)).Sublist (submissions sent) :=
    Lists.firsts_sublist _ _
  obtain ⟨hsettles, hexec⟩ : World.Settles (answering w.oracle (submissions sent)) w
      (Run.exec (World.submit D evm) w (submissions sent)) ∧ _ := (hpays.mono hlength).settles
  refine ⟨answering w.oracle (submissions sent), hsub, Lists.nodup_firsts _ _,
    Lists.find?_firsts _ _, ?_, hsettles, hexec, ?_⟩
  · intro sub hmem
    exact (mem_submissions hsent (hsub.subset hmem)).2
  · intro a
    have hall : ∀ sub ∈ answering w.oracle (submissions sent), sub.msg.sender = miner := by
      intro sub hmem
      obtain ⟨⟨p, hp, hmsg⟩, -⟩ := mem_submissions hsent (hsub.subset hmem)
      rw [hmsg]
      exact hsender p hp
    split
    · next ha =>
        rw [List.countP_eq_length]
        intro sub hmem
        rw [hall sub hmem, ha, beq_self_eq_true]
    · next ha =>
        rw [List.countP_eq_zero]
        intro sub hmem
        rw [hall sub hmem, beq_iff_eq]
        exact Ne.symm ha

/-! ### Several tasks for one request -/

/-- The sample contracts with request 1, which somebody has made at time 2. -/
def sampleAsked : World :=
  World.after sampleDeployment sampleEvm sampleConfig (sampleDeployment.txs
    [(.ofNat 10, 1, .staking (.setOracleContractAddress (.ofNat 4))),
      (.ofNat 10, 1, .token (.transferOwnership (.ofNat 2))),
      (.ofNat 11, 2, .oracle (.requestOracles 1 "type" "params" (.ofNat 20) 7))])

theorem sampleAsked_pays : sampleAsked.Pays sampleDeployment 2 where
  solvent := World.Reachable.solvent ⟨_, rfl⟩
  registered := by decide +kernel
  owner := by decide +kernel
  undelegated := by decide +kernel
  room := by decide +kernel

/-- Every transaction is a task for request 1. -/
def sampleDecoder : Oracles :=
  { Oracles.salted with unmarshalTask := fun data => .ok ⟨0, [], [], data, Text.decimal 1⟩ }

/-- Three tasks for request 1. -/
def sampleTasks : List (Option Dione.Transaction) :=
  [some { pooledTx with data := [1] }, some { pooledTx with data := [2] },
    some { pooledTx with data := [3] }]

/-- The second of the calls for them fails. -/
def sampleSent : List (Answer × Msg) :=
  [(⟨1, [1]⟩, ⟨.ofNat 12, 3, 3⟩), (⟨1, [3]⟩, ⟨.ofNat 12, 4, 4⟩)]

theorem block_answers_each_request_once_sample :
    ∃ answers : List Submission,
      answers.find? (fun sub => sub.reqID == 1) = some ⟨⟨.ofNat 12, 3, 3⟩, 1, [1]⟩ ∧
      World.Settles answers sampleAsked (Run.exec (World.submit sampleDeployment sampleEvm)
        sampleAsked (submissions sampleSent)) := by
  obtain ⟨answers, -, -, hfind, -, hsettles, -⟩ := block_answers_each_request_once sampleEvm
    sampleDecoder sampleTasks sampleSent (.ofNat 12) (by decide +kernel) (by decide)
    sampleAsked_pays
  exact ⟨answers, (hfind 1).trans (by decide +kernel), hsettles⟩

end Dione.Contracts
