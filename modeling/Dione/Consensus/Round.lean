/-
  Dione.Consensus.Round

  One consensus round as a function of its message log.

  `EntryOk` is the invariant of an entry of the manager's map.  Its core is that
  the state of a round is a function of the set of messages in its log
  (`roundState`), whatever the order they came in: a message that completes
  several thresholds at once moves the round through all of them
  (`insertMessageIntoLog_spec`).  Order independence is then a fact about sets.
-/

import Dione.Consensus.Manager
import Mathlib.Data.Finset.Card

namespace Dione.Consensus

open Guard

/-! ## Messages as the handlers build them -/

/-- A message for block hash `h` as the handlers and `propose` build it. -/
def Built (h : Bytes) (msg : ConsensusMessage) : Prop :=
  msg.blockhash = h ∧
    match msg.type with
    | .unknown => False
    | .prePrepare => ∃ b hd, msg.block = some b ∧ b.header = some hd ∧ hd.hash = h
    | .prepare | .commit => msg.block = none

theorem Built.hashOf {h : Bytes} {msg : ConsensusMessage} (hb : Built h msg) :
    MessageLog.hashOf msg = .ok h := by
  obtain ⟨hhash, htype⟩ := hb
  rw [MessageLog.hashOf]
  split at htype
  · exact htype.elim
  · obtain ⟨b, hd, hblock, hheader, rfl⟩ := htype
    simp [hblock, hheader]
  · simp [htype, hhash]
  · simp [htype, hhash]

theorem MessageLog.get_of_built {h : Bytes} {log : MessageLog}
    (hb : ∀ msg ∈ log, Built h msg) (typ : MessageType) :
    log.get typ h = .ok (log.filter fun msg => msg.type = typ) := by
  induction log with
  | nil => rfl
  | cons msg log ih =>
      have htail := ih fun x hx => hb x (List.mem_cons_of_mem _ hx)
      rw [get]
      by_cases htyp : msg.type = typ
      · simp [htyp, (hb msg (List.mem_cons_self ..)).hashOf, htail]
      · simp [htyp, htail]

/-! ## The state of a round as a function of its messages -/

/-- How many messages of a type a set holds. -/
def approvals (typ : MessageType) (msgs : Finset ConsensusMessage) : Nat :=
  (msgs.filter fun msg => msg.type = typ).card

theorem approvals_insert (typ : MessageType) {msgs : Finset ConsensusMessage}
    {msg : ConsensusMessage} (hnew : msg ∉ msgs) :
    approvals typ (insert msg msgs) = approvals typ msgs + if msg.type = typ then 1 else 0 := by
  unfold approvals
  rw [Finset.filter_insert]
  split
  · rw [Finset.card_insert_of_notMem (by simp [hnew])]
  · rfl

theorem length_filter_eq_approvals {log : MessageLog} (hnd : log.Nodup) (typ : MessageType) :
    (log.filter fun msg => msg.type = typ).length = approvals typ log.toFinset := by
  rw [← List.toFinset_card_of_nodup (hnd.filter _), List.toFinset_filter]
  simp [approvals]

/-- The state a set of messages brings a round to. -/
def roundState (minApprovals : Int64) (msgs : Finset ConsensusMessage) : State :=
  if approvals .prePrepare msgs = 0 then .unknown
  else if (approvals .prepare msgs : Int) < prepareQuorum minApprovals then .prePrepared
  else if (approvals .commit msgs : Int) < commitQuorum minApprovals then .prepared
  else .commited

theorem prepareQuorum_eq {minApprovals : Int64} (hpos : 1 ≤ minApprovals.toInt) :
    prepareQuorum minApprovals = minApprovals.toInt - 1 := by
  have hlt := minApprovals.toInt_lt
  have hone : (1 : Int64).toInt = 1 := by decide
  rw [prepareQuorum, Int64.toInt_sub, hone]
  apply Int.bmod_eq_of_le <;> omega

/-- How far a state is along the round. -/
def State.rank : State → Nat
  | .unknown => 0
  | .prePrepared => 1
  | .prepared => 2
  | .commited => 3

section RoundState

variable {minApprovals : Int64} {msgs : Finset ConsensusMessage}

theorem one_le_rank_roundState (hpp : 0 < approvals .prePrepare msgs) :
    1 ≤ (roundState minApprovals msgs).rank := by
  rw [roundState, if_neg (by omega)]
  split
  · decide
  · split <;> decide

theorem two_le_rank_roundState (hpp : 0 < approvals .prePrepare msgs)
    (hp : prepareQuorum minApprovals ≤ approvals .prepare msgs) :
    2 ≤ (roundState minApprovals msgs).rank := by
  rw [roundState, if_neg (by omega), if_neg (by omega)]
  split <;> decide

theorem roundState_eq_commited (hpp : 0 < approvals .prePrepare msgs)
    (hp : prepareQuorum minApprovals ≤ approvals .prepare msgs)
    (hc : commitQuorum minApprovals ≤ approvals .commit msgs) :
    roundState minApprovals msgs = .commited := by
  rw [roundState, if_neg (by omega), if_neg (by omega), if_neg (by omega)]

/-- A round is committed on its two quorums only. -/
theorem quorums_of_roundState_eq_commited (h : roundState minApprovals msgs = .commited) :
    commitQuorum minApprovals ≤ approvals .commit msgs ∧
      prepareQuorum minApprovals ≤ approvals .prepare msgs := by
  rw [roundState] at h
  split at h
  · cases h
  · split at h
    · cases h
    · split at h
      · cases h
      · omega

end RoundState

/-- The states a round passes through, in order. -/
def phases : List State := [.prePrepared, .prepared, .commited]

/-- The phases entered on the way from `s` to `s'`. -/
def phasesBetween (s s' : State) : List State := (phases.take s'.rank).drop s.rank

theorem phasesBetween_self (s : State) : phasesBetween s s = [] := by
  cases s <;> rfl

theorem phasesBetween_append {s s' s'' : State} (h : s.rank ≤ s'.rank) (h' : s'.rank ≤ s''.rank) :
    phasesBetween s s' ++ phasesBetween s' s'' = phasesBetween s s'' := by
  cases s <;> cases s' <;> cases s'' <;> first | rfl | (simp [State.rank] at h h')

theorem mem_phasesBetween {s s' st : State} (hst : st ≠ .unknown) (h : s.rank < st.rank)
    (h' : st.rank ≤ s'.rank) : st ∈ phasesBetween s s' := by
  cases st <;> cases s <;> cases s' <;> simp [State.rank, phasesBetween, phases] at hst h h' ⊢

/-! ## One insertion -/

/-- The invariant of an entry of the manager's map under the key of `h`. -/
structure EntryOk (minApprovals : Int64) (h : Bytes) (ci : ConsensusInfo) : Prop where
  blockhash_eq : ci.blockhash = h
  nodup : ci.messageLog.Nodup
  built : ∀ msg ∈ ci.messageLog, Built h msg
  state_eq : ci.state = roundState minApprovals ci.messageLog.toFinset
  block_eq : ci.state ≠ .unknown →
    ∃ msg ∈ ci.messageLog, msg.type = .prePrepare ∧ msg.block = ci.block

/-- Past `Unknown` an entry holds a block with the hash of its key. -/
theorem EntryOk.block_ok {minApprovals : Int64} {h : Bytes} {ci : ConsensusInfo}
    (hok : EntryOk minApprovals h ci) (hne : ci.state ≠ .unknown) :
    ∃ b hd, ci.block = some b ∧ b.header = some hd ∧ hd.hash = h := by
  obtain ⟨msg, hmem, htype, hblock⟩ := hok.block_eq hne
  obtain ⟨-, hbuilt⟩ := hok.built msg hmem
  rw [htype] at hbuilt
  rwa [hblock] at hbuilt

/-- `advance` on a log of built messages. -/
theorem advance_eq {h : Bytes} (ci : ConsensusInfo) (hb : ∀ msg ∈ ci.messageLog, Built h msg)
    (hnd : ci.messageLog.Nodup) (typ : MessageType) (a : Int) (before after : State) :
    advance typ a before after h ci = .ok
      (if a ≤ approvals typ ci.messageLog.toFinset ∧ ci.state = before then
        ({ ci with state := after }, [⟨ci.block, after⟩])
      else (ci, [])) := by
  rw [advance, MessageLog.get_of_built hb, ok_bind, length_filter_eq_approvals hnd]
  rfl

/-- `discoverBlock` on a built message. -/
theorem discoverBlock_eq {h : Bytes} (ci : ConsensusInfo) {msg : ConsensusMessage}
    (hm : Built h msg) :
    discoverBlock ci msg = .ok
      (if ci.state = .unknown ∧ msg.type = .prePrepare then
        ({ ci with block := msg.block, state := .prePrepared }, [⟨msg.block, .prePrepared⟩])
      else (ci, [])) := by
  obtain ⟨-, htype⟩ := hm
  rw [discoverBlock]
  split at htype
  · exact htype.elim
  · next htyp =>
      obtain ⟨b, hd, hblock, hheader, -⟩ := htype
      simp only [hblock, hheader, htyp, and_true, deref_some, ok_bind]
      split <;> rfl
  · next htyp => simp [htype, htyp]
  · next htyp => simp [htype, htyp]

/-- Where a round moves on to from a state, given which quorums are complete. -/
def settle (prepares commits : Prop) [Decidable prepares] [Decidable commits] : State → State
  | .unknown => .unknown
  | .prePrepared => if prepares then (if commits then .commited else .prepared) else .prePrepared
  | .prepared => if commits then .commited else .prepared
  | .commited => .commited

/-- The state of a round after its block may have been discovered. -/
def discovered (s : State) (typ : MessageType) : State :=
  if s = .unknown ∧ typ = .prePrepare then .prePrepared else s

/-- Where a round moves on to, given the messages in its log. -/
def settledState (minApprovals : Int64) (msgs : Finset ConsensusMessage) (s : State) : State :=
  settle (prepareQuorum minApprovals ≤ approvals .prepare msgs)
    (commitQuorum minApprovals ≤ approvals .commit msgs) s

/-- Prepare and Commit quorums are looked at in this order, so one message can
    complete both. -/
theorem advance_advance_eq (minApprovals : Int64) {h : Bytes} (ci : ConsensusInfo)
    (hb : ∀ msg ∈ ci.messageLog, Built h msg) (hnd : ci.messageLog.Nodup) :
    (do let r ← advance .prepare (prepareQuorum minApprovals) .prePrepared .prepared h ci
        let r' ← advance .commit (commitQuorum minApprovals) .prepared .commited h r.1
        return (r'.1, r.2 ++ r'.2) : Except Err (ConsensusInfo × List NewState))
      = let s := settledState minApprovals ci.messageLog.toFinset ci.state
        .ok ({ ci with state := s }, (phasesBetween ci.state s).map (⟨ci.block, ·⟩)) := by
  obtain ⟨bh, block, state, log⟩ := ci
  have hadv : ∀ typ a before after st, advance typ a before after h ⟨bh, block, st, log⟩ = .ok
      (if a ≤ approvals typ log.toFinset ∧ st = before then
        (⟨bh, block, after, log⟩, [⟨block, after⟩])
      else (⟨bh, block, st, log⟩, [])) := fun typ a before after st =>
    advance_eq ⟨bh, block, st, log⟩ hb hnd typ a before after
  rw [hadv, ok_bind]
  by_cases hp : prepareQuorum minApprovals ≤ approvals .prepare log.toFinset <;>
    by_cases hc : commitQuorum minApprovals ≤ approvals .commit log.toFinset <;>
    cases state <;>
    simp [hp, hc, hadv, settledState, settle, phasesBetween, phases, State.rank, pure,
      Except.pure]

theorem rank_le_settledState (minApprovals : Int64) (msgs : Finset ConsensusMessage)
    (s : State) : s.rank ≤ (settledState minApprovals msgs s).rank := by
  unfold settledState
  cases s with
  | unknown => exact Nat.le_refl _
  | commited => exact Nat.le_refl _
  | prePrepared =>
      unfold settle
      dsimp only
      split
      · split <;> decide
      · decide
  | prepared =>
      unfold settle
      dsimp only
      split <;> decide

theorem rank_le_discovered (s : State) (typ : MessageType) : s.rank ≤ (discovered s typ).rank := by
  unfold discovered
  split
  · next hdisc =>
      rw [hdisc.1]
      decide
  · exact Nat.le_refl _

theorem phasesBetween_unknown {s : State} (hs : 1 ≤ s.rank) :
    phasesBetween .unknown s = .prePrepared :: phasesBetween .prePrepared s := by
  cases s with
  | unknown => simp [State.rank] at hs
  | prePrepared | prepared | commited => rfl

/-- `maybeUpdateConsensusState` on built messages: the round settles, and every
    phase entered on the way is published, in order. -/
theorem maybeUpdateConsensusState_eq (minApprovals : Int64) {h : Bytes} (ci : ConsensusInfo)
    {msg : ConsensusMessage} (hm : Built h msg) (hb : ∀ x ∈ ci.messageLog, Built h x)
    (hnd : ci.messageLog.Nodup) :
    maybeUpdateConsensusState minApprovals ci msg =
      let s := settledState minApprovals ci.messageLog.toFinset (discovered ci.state msg.type)
      let block := if ci.state = .unknown ∧ msg.type = .prePrepare then msg.block else ci.block
      .ok ({ ci with block := block, state := s },
        (phasesBetween ci.state s).map (⟨block, ·⟩)) := by
  rw [maybeUpdateConsensusState, discoverBlock_eq ci hm, ok_bind, hm.1]
  by_cases hdisc : ci.state = .unknown ∧ msg.type = .prePrepare
  · have hadv := advance_advance_eq minApprovals
      { ci with block := msg.block, state := .prePrepared } hb hnd
    simp only [bind_eq_ok, pure_eq_ok_iff, Prod.mk.injEq] at hadv
    obtain ⟨r, hr, r', hr', hci, hpubs⟩ := hadv
    simp only [if_pos hdisc, hr, hr', ok_bind, List.append_assoc, hci, hpubs, discovered]
    rw [hdisc.1]
    -- The discovery itself is the first phase published.
    rw [phasesBetween_unknown (rank_le_settledState minApprovals _ .prePrepared)]
    rfl
  · have hadv := advance_advance_eq minApprovals ci hb hnd
    simp only [bind_eq_ok, pure_eq_ok_iff, Prod.mk.injEq] at hadv
    obtain ⟨r, hr, r', hr', hci, hpubs⟩ := hadv
    simp only [if_neg hdisc, hr, hr', ok_bind, List.nil_append, hci, hpubs, discovered]
    rfl

/-- Quorums that stay complete let a round settle where it would have settled
    without a stop on the way. -/
theorem settle_settle {p c p' c' : Prop} [Decidable p] [Decidable c] [Decidable p']
    [Decidable c'] (hp : p → p') (hc : c → c') (s : State) :
    settle p' c' (settle p c s) = settle p' c' s := by
  cases s with
  | unknown => rfl
  | commited => rfl
  | prepared =>
      by_cases hc' : c
      · simp [settle, hc', hc hc']
      · simp [settle, hc']
  | prePrepared =>
      by_cases hp' : p
      · by_cases hc' : c
        · simp [settle, hp', hc', hp hp', hc hc']
        · simp [settle, hp', hc', hp hp']
      · simp [settle, hp']

/-- With its block discovered, a round is where it settles from `PrePrepared`. -/
theorem roundState_eq_settledState (minApprovals : Int64) (msgs : Finset ConsensusMessage) :
    roundState minApprovals msgs = if approvals .prePrepare msgs = 0 then .unknown
      else settledState minApprovals msgs .prePrepared := by
  unfold roundState settledState settle
  simp only [← Int.not_lt]
  split
  · rfl
  · split
    · simp [*]
    · split <;> simp [*]

/-- A logged message takes the state of its round from the one its log
    determined before to the one it determines now. -/
theorem settledState_roundState (minApprovals : Int64) {msgs : Finset ConsensusMessage}
    {msg : ConsensusMessage} (hnew : msg ∉ msgs) :
    settledState minApprovals (insert msg msgs)
        (discovered (roundState minApprovals msgs) msg.type)
      = roundState minApprovals (insert msg msgs) := by
  have hpp := approvals_insert .prePrepare hnew
  have hp := approvals_insert .prepare hnew
  have hc := approvals_insert .commit hnew
  rw [roundState_eq_settledState, roundState_eq_settledState]
  by_cases hold : approvals .prePrepare msgs = 0
  · rw [if_pos hold]
    by_cases htyp : msg.type = .prePrepare
    · -- this message discovers the block
      rw [if_neg (by rw [hpp, if_pos htyp]; omega), discovered, if_pos ⟨rfl, htyp⟩]
    · rw [if_pos (by rw [hpp, if_neg htyp, hold]), discovered, if_neg fun hd => htyp hd.2]
      rfl
  · rw [if_neg hold, if_neg (by omega)]
    have hknown : settledState minApprovals msgs .prePrepared ≠ .unknown := by
      intro hunk
      have hrank := rank_le_settledState minApprovals msgs .prePrepared
      rw [hunk] at hrank
      exact absurd hrank (by decide)
    rw [discovered, if_neg fun hd => hknown hd.1]
    exact settle_settle (fun hq => by omega) (fun hq => by omega) .prePrepared

namespace ConsensusManager

variable {cm : ConsensusManager} {h : Bytes} {msg : ConsensusMessage}

/-- The entry of `h`, if there is one, satisfies its invariant. -/
def RoundOk (cm : ConsensusManager) (h : Bytes) : Prop :=
  ∀ ci, cm.info h = some ci → EntryOk cm.minApprovals h ci

theorem roundOk_of_none (hnone : cm.info h = none) : cm.RoundOk h := by
  intro ci hci
  rw [hnone] at hci
  cases hci

theorem roundOk_setInfo {ci : ConsensusInfo} (hci : EntryOk cm.minApprovals h ci) :
    (cm.setInfo h ci).RoundOk h := by
  intro ci' hci'
  rw [info_setInfo, if_pos rfl] at hci'
  obtain rfl : ci = ci' := Option.some.inj hci'
  exact hci

theorem entryOk_empty (minApprovals : Int64) (h : Bytes) (block : Option Block) :
    EntryOk minApprovals h ⟨h, block, .unknown, []⟩ where
  blockhash_eq := rfl
  nodup := List.nodup_nil
  built := by simp
  state_eq := by simp [roundState, approvals]
  block_eq := by simp

theorem RoundOk.infoOrNew (hok : cm.RoundOk h) (hm : Built h msg) :
    EntryOk cm.minApprovals h (cm.infoOrNew msg) := by
  unfold ConsensusManager.infoOrNew
  rw [hm.1]
  split
  · exact hok _ ‹_›
  · exact entryOk_empty _ _ _

theorem infoOrNew_messageLog (hm : msg.blockhash = h) :
    (cm.infoOrNew msg).messageLog = cm.logOf h := by
  unfold infoOrNew logOf
  rw [hm]
  split <;> rfl

theorem infoOrNew_state (hm : msg.blockhash = h) : (cm.infoOrNew msg).state = cm.stateOf h := by
  unfold infoOrNew stateOf
  rw [hm]
  split <;> rfl

theorem logOf_setInfo (cm : ConsensusManager) (h : Bytes) (ci : ConsensusInfo) :
    (cm.setInfo h ci).logOf h = ci.messageLog := by
  simp [logOf, info_setInfo]

theorem stateOf_setInfo (cm : ConsensusManager) (h : Bytes) (ci : ConsensusInfo) :
    (cm.setInfo h ci).stateOf h = ci.state := by
  simp [stateOf, info_setInfo]

/-- A round's state is a function of its log. -/
theorem RoundOk.stateOf_eq (hok : cm.RoundOk h) :
    cm.stateOf h = roundState cm.minApprovals (cm.logOf h).toFinset := by
  unfold stateOf logOf
  split
  · next ci hci => exact (hok ci hci).state_eq
  · simp [roundState, approvals]

theorem RoundOk.built_of_mem (hok : cm.RoundOk h) (hmem : msg ∈ cm.logOf h) : Built h msg := by
  cases hinfo : cm.info h with
  | none => simp [logOf, hinfo] at hmem
  | some ci =>
      rw [logOf, hinfo] at hmem
      exact (hok ci hinfo).built msg hmem

/-- A message the log holds already is refused. -/
theorem insertMessageIntoLog_of_mem (hm : msg.blockhash = h) (hmem : msg ∈ cm.logOf h) :
    cm.insertMessageIntoLog msg = .error alreadyExists := by
  rw [← infoOrNew_messageLog hm] at hmem
  simp [insertMessageIntoLog, MessageLog.addMessage, hmem]

/-- A round that has left `Unknown` after a message has its block from that message, or had it
    from one of those before. -/
theorem exists_prePrepare_of_settled {minApprovals : Int64} {msgs : Finset ConsensusMessage}
    {st : State} {log : MessageLog} {block : Option Block}
    (hold : st ≠ .unknown → ∃ x ∈ log, x.type = .prePrepare ∧ x.block = block)
    (hne : settledState minApprovals msgs (discovered st msg.type) ≠ .unknown) :
    ∃ x ∈ msg :: log, x.type = .prePrepare ∧
      x.block = if st = .unknown ∧ msg.type = .prePrepare then msg.block else block := by
  split
  · next hdisc => exact ⟨msg, List.mem_cons_self .., hdisc.2, rfl⟩
  · next hdisc =>
      have hknown : st ≠ .unknown := by
        intro hunk
        apply hne
        have hund : discovered st msg.type = .unknown := (if_neg hdisc).trans hunk
        rw [hund]
        rfl
      obtain ⟨x, hx, htype, hblock⟩ := hold hknown
      exact ⟨x, List.mem_cons_of_mem _ hx, htype, hblock⟩

/-- A new message is logged, its round settles on what the log now determines,
    and the phases entered on the way are published. -/
theorem insertMessageIntoLog_of_not_mem (hok : cm.RoundOk h) (hm : Built h msg)
    (hnew : msg ∉ cm.logOf h) :
    ∃ ci, cm.insertMessageIntoLog msg = .ok (cm.setInfo h ci,
        (phasesBetween (cm.stateOf h) ci.state).map (⟨ci.block, ·⟩)) ∧
      EntryOk cm.minApprovals h ci ∧ ci.messageLog = msg :: cm.logOf h ∧
      (cm.stateOf h).rank ≤ ci.state.rank := by
  have hold := hok.infoOrNew hm
  have hlog : (cm.infoOrNew msg).messageLog = cm.logOf h := infoOrNew_messageLog hm.1
  have hstate : (cm.infoOrNew msg).state = cm.stateOf h := infoOrNew_state hm.1
  rw [← hlog] at hnew ⊢
  rw [← hstate]
  rcases hinfo : cm.infoOrNew msg with ⟨bh, block, st, log⟩
  rw [hinfo] at hold hnew
  have hb : ∀ x ∈ msg :: log, Built h x := by
    intro x hx
    rcases List.mem_cons.mp hx with rfl | hx
    · exact hm
    · exact hold.built x hx
  have hnd : (msg :: log).Nodup := List.nodup_cons.mpr ⟨hnew, hold.nodup⟩
  have hupd := maybeUpdateConsensusState_eq cm.minApprovals ⟨bh, block, st, msg :: log⟩ hm hb hnd
  have hsettle : settledState cm.minApprovals (msg :: log).toFinset (discovered st msg.type)
      = roundState cm.minApprovals (msg :: log).toFinset := by
    have hst : st = roundState cm.minApprovals log.toFinset := hold.state_eq
    rw [hst, List.toFinset_cons]
    exact settledState_roundState cm.minApprovals (by simpa using hnew)
  refine ⟨⟨bh, if st = .unknown ∧ msg.type = .prePrepare then msg.block else block,
    settledState cm.minApprovals (msg :: log).toFinset (discovered st msg.type), msg :: log⟩,
    ?_, ⟨hold.blockhash_eq, hnd, hb, hsettle, ?_⟩, rfl, ?_⟩
  · have hadd : MessageLog.addMessage log msg = (true, msg :: log) := if_neg hnew
    simp only [insertMessageIntoLog, hinfo, hadd, hupd, ok_bind, hm.1]
    rfl
  · exact fun hne => exists_prePrepare_of_settled hold.block_eq hne
  · exact (rank_le_discovered _ _).trans (rank_le_settledState _ _ _)

/-! ## Any number of insertions -/

/-- What inserting a built message for `h` does, duplicates included. -/
structure Inserted (cm : ConsensusManager) (h : Bytes) (msg : ConsensusMessage)
    (cm' : ConsensusManager) (pubs : List NewState) : Prop where
  minApprovals_eq : cm'.minApprovals = cm.minApprovals
  other : ∀ h', h' ≠ h → cm'.info h' = cm.info h'
  round : cm'.RoundOk h
  mem_log : ∀ x, x ∈ cm'.logOf h ↔ x = msg ∨ x ∈ cm.logOf h
  rank_le : (cm.stateOf h).rank ≤ (cm'.stateOf h).rank
  states : pubs.map NewState.state = phasesBetween (cm.stateOf h) (cm'.stateOf h)
  blocks : ∀ ev ∈ pubs, ∃ x ∈ cm'.logOf h, x.type = .prePrepare ∧ x.block = ev.block

theorem insertOrWarn_spec (hok : cm.RoundOk h) (hm : Built h msg) :
    ∃ cm' pubs, cm.insertOrWarn msg = .ok (cm', pubs) ∧ Inserted cm h msg cm' pubs := by
  by_cases hmem : msg ∈ cm.logOf h
  · refine ⟨cm, [], ?_, rfl, fun _ _ => rfl, hok, ?_, le_refl _, ?_, by simp⟩
    · rw [insertOrWarn, insertMessageIntoLog_of_mem hm.1 hmem]
      rfl
    · intro x
      constructor
      · exact Or.inr
      · rintro (rfl | hx)
        · exact hmem
        · exact hx
    · rw [phasesBetween_self]
      rfl
  · obtain ⟨ci, hins, hentry, hlog, hrank⟩ := insertMessageIntoLog_of_not_mem hok hm hmem
    refine ⟨cm.setInfo h ci, (phasesBetween (cm.stateOf h) ci.state).map (⟨ci.block, ·⟩),
      insertOrWarn_of_ok hins, rfl, fun h' hne => by rw [info_setInfo, if_neg hne],
      roundOk_setInfo hentry, ?_, ?_, ?_, ?_⟩
    · intro x
      rw [logOf_setInfo, hlog, List.mem_cons]
    · rw [stateOf_setInfo]
      exact hrank
    · rw [stateOf_setInfo, List.map_map]
      exact List.map_id _
    · intro ev hev
      obtain ⟨st, hst, rfl⟩ := List.mem_map.mp hev
      have hknown : ci.state ≠ .unknown := by
        intro hunk
        rw [hunk] at hst
        simp [phasesBetween, State.rank] at hst
      rw [logOf_setInfo]
      exact hentry.block_eq hknown

/-- Inserting built messages never fails, adds them to the log as a set, and
    publishes the phases the round enters, each once and in order. -/
theorem insertAll_spec (hok : cm.RoundOk h) {msgs : List ConsensusMessage}
    (hms : ∀ msg ∈ msgs, Built h msg) :
    ∃ cm' pubs, cm.insertAll msgs = .ok (cm', pubs) ∧ cm'.minApprovals = cm.minApprovals ∧
      cm'.RoundOk h ∧ (∀ x, x ∈ cm'.logOf h ↔ x ∈ msgs ∨ x ∈ cm.logOf h) ∧
      (cm.stateOf h).rank ≤ (cm'.stateOf h).rank ∧
      pubs.map NewState.state = phasesBetween (cm.stateOf h) (cm'.stateOf h) := by
  induction msgs generalizing cm with
  | nil =>
      refine ⟨cm, [], rfl, rfl, hok, by simp, le_refl _, ?_⟩
      rw [phasesBetween_self]
      rfl
  | cons msg msgs ih =>
      obtain ⟨cm₁, pubs₁, hins, h₁⟩ := insertOrWarn_spec hok (hms msg (List.mem_cons_self ..))
      obtain ⟨cm₂, pubs₂, hall, hmin, hok₂, hlog₂, hrank₂, hpubs₂⟩ :=
        ih h₁.round fun x hx => hms x (List.mem_cons_of_mem _ hx)
      refine ⟨cm₂, pubs₁ ++ pubs₂, ?_, hmin.trans h₁.minApprovals_eq, hok₂, ?_,
        h₁.rank_le.trans hrank₂, ?_⟩
      · simp [insertAll, hins, hall, pure, Except.pure]
      · intro x
        rw [hlog₂, h₁.mem_log, List.mem_cons]
        tauto
      · rw [List.map_append, h₁.states, hpubs₂]
        exact phasesBetween_append h₁.rank_le hrank₂

/-- Order independence.  From a manager that has no round for `h`, every order
    of inserting the same built messages ends in the state that the set of
    distinct messages determines; what is published on the way is the sequence
    of phases cut at that state; and past `Unknown` the round holds a block with
    hash `h`. -/
theorem insertAll_order_independent (cm : ConsensusManager) (h : Bytes)
    (hnone : cm.info h = none) (msgs msgs' : List ConsensusMessage)
    (hms : ∀ msg ∈ msgs, Built h msg) (hperm : msgs'.Perm msgs) :
    ∃ cm' pubs, cm.insertAll msgs' = .ok (cm', pubs) ∧
      cm'.stateOf h = roundState cm.minApprovals msgs.toFinset ∧
      pubs.map NewState.state
        = phases.take (roundState cm.minApprovals msgs.toFinset).rank ∧
      ∀ ci, cm'.info h = some ci → ci.state ≠ .unknown →
        ∃ b hd, ci.block = some b ∧ b.header = some hd ∧ hd.hash = h := by
  have hms' : ∀ msg ∈ msgs', Built h msg := fun msg hmem => hms msg (hperm.mem_iff.mp hmem)
  obtain ⟨cm', pubs, hall, hmin, hok, hlog, -, hpubs⟩ :=
    insertAll_spec (roundOk_of_none hnone) hms'
  have hstate0 : cm.stateOf h = .unknown := by rw [stateOf, hnone]
  have hset : (cm'.logOf h).toFinset = msgs.toFinset := by
    have hlog0 : cm.logOf h = [] := by rw [logOf, hnone]
    ext x
    simp [hlog x, hlog0, hperm.mem_iff]
  have hstate : cm'.stateOf h = roundState cm.minApprovals msgs.toFinset := by
    rw [hok.stateOf_eq, hmin, hset]
  refine ⟨cm', pubs, hall, hstate, ?_, fun ci hci hne => (hok ci hci).block_ok hne⟩
  rw [hpubs, hstate0, hstate]
  rfl

/-- A round with two Commits, a Prepare and, last of all, the PrePrepare. -/
def lateDiscovery : List ConsensusMessage :=
  [⟨.commit, genesisHash, [], none, [2]⟩, ⟨.commit, genesisHash, [], none, [3]⟩,
    ⟨.prepare, genesisHash, [], none, [2]⟩, ⟨.prePrepare, genesisHash, [], some genesisBlock, [1]⟩]

theorem built_lateDiscovery : ∀ msg ∈ lateDiscovery, Built genesisHash msg := by
  simp [lateDiscovery, Built, genesisBlock, genesisHeader]

theorem insertAll_order_independent_lateDiscovery :
    ∃ cm' pubs, (new 2).insertAll lateDiscovery = .ok (cm', pubs) ∧
      cm'.stateOf genesisHash = .commited ∧
      pubs.map NewState.state = [.prePrepared, .prepared, .commited] := by
  have hstate : roundState (new 2).minApprovals lateDiscovery.reverse.toFinset = .commited := by
    decide
  obtain ⟨cm', pubs, hall, hst, hpubs, -⟩ := insertAll_order_independent (new 2) genesisHash
    (info_new 2 genesisHash) lateDiscovery.reverse lateDiscovery
    (fun msg hmem => built_lateDiscovery msg (List.mem_reverse.mp hmem))
    (List.reverse_perm _).symm
  rw [hstate] at hst hpubs
  exact ⟨cm', pubs, hall, hst, hpubs⟩

end ConsensusManager

end Dione.Consensus
