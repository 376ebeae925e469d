/-
  Dione.Beacon

  The random beacon of a node (`beacon/drand/drand.go`): the goroutine that follows the
  drand network, the cache it fills, and `Entry`, which `ValidateBlock` asks for the
  randomness of a round.

  The goroutine takes the lock once for the cache and once for the latest round and then
  publishes, so a call of `Entry` may come between any two of these.  What the drand
  client delivers and replies is part of the events.  The client checks signatures
  itself; a client is honest if what it hands over is what the drand network made
  (`net`), and it may fail whenever it likes.

  Nodes see rounds at different times, from the channel, from a request or not at all.
  For a round other than 0 none of this can be told from the answers.  Round 0 stands
  for the latest round, is never cached, and has no fixed answer.
-/

import Dione.Miner.Validity

namespace Dione

open Guard BlockChain

/-- `client.Result` of drand.  The signature goes into the metadata of an entry, which
    only `VerifyEntry` reads. -/
structure DrandResult where
  round : UInt64
  randomness : Bytes
  deriving DecidableEq, Repr

/-- `newBeaconEntryFromDrandResult`. -/
def newBeaconEntryFromDrandResult (res : DrandResult) : BeaconEntry :=
  ⟨res.round, res.randomness⟩

/-- `DrandBeacon`, without the client and the bus. -/
structure DrandBeacon where
  localCache : UInt64 → Option BeaconEntry
  latestDrandRound : UInt64

namespace DrandBeacon

/-- `NewDrandBeacon`. -/
def new : DrandBeacon := ⟨fun _ => none, 0⟩

/-- `cacheValue`. -/
def cacheValue (db : DrandBeacon) (res : BeaconEntry) : DrandBeacon :=
  { db with localCache := Function.update db.localCache res.round (some res) }

/-- `getCachedValue`. -/
def getCachedValue (db : DrandBeacon) (round : UInt64) : Option BeaconEntry :=
  db.localCache round

/-- `updateLatestDrandRound`. -/
def updateLatestDrandRound (db : DrandBeacon) (round : UInt64) : DrandBeacon :=
  { db with latestDrandRound := round }

/-- `Entry`, with the client's `Get`. -/
def entry (db : DrandBeacon) (get : UInt64 → Except Err DrandResult) (round : UInt64) :
    Except Err BeaconEntry :=
  match if round ≠ 0 then db.getCachedValue round else none with
  | some be => .ok be
  | none => do
    let resp ← wrapErr "drand failed Get request" (get round)
    return newBeaconEntryFromDrandResult resp

theorem getCachedValue_cacheValue (db : DrandBeacon) (res : BeaconEntry) (round : UInt64) :
    (db.cacheValue res).getCachedValue round
      = if round = res.round then some res else db.getCachedValue round := by
  simp only [getCachedValue, cacheValue, Function.update_apply]

@[simp] theorem getCachedValue_updateLatestDrandRound (db : DrandBeacon) (latest round : UInt64) :
    (db.updateLatestDrandRound latest).getCachedValue round = db.getCachedValue round := rfl

/-- A cached round is not asked for. -/
theorem entry_of_cached {db : DrandBeacon} {round : UInt64} {be : BeaconEntry}
    (hround : round ≠ 0) (hcached : db.getCachedValue round = some be)
    (get : UInt64 → Except Err DrandResult) : db.entry get round = .ok be := by
  simp only [entry, if_pos hround, hcached]

/-- An answer comes from the cache or from the client. -/
theorem entry_eq_ok {db : DrandBeacon} {get : UInt64 → Except Err DrandResult} {round : UInt64}
    {be : BeaconEntry} (h : db.entry get round = .ok be) :
    db.getCachedValue round = some be ∨
      ∃ res, get round = .ok res ∧ be = newBeaconEntryFromDrandResult res := by
  unfold entry at h
  split at h
  · next be' hcached =>
      obtain rfl := Except.ok.inj h
      split at hcached
      · exact .inl hcached
      · cases hcached
  · simp only [bind_eq_ok, wrapErr_eq_ok, pure_eq_ok_iff] at h
    obtain ⟨res, hres, rfl⟩ := h
    exact .inr ⟨res, hres, rfl⟩

end DrandBeacon

/-! ## The goroutine -/

/-- Where the goroutine of `loop` is. -/
inductive BeaconLoop where
  /-- `Run` has not been called, or has failed. -/
  | notStarted
  /-- At the `select`. -/
  | waiting
  /-- After `cacheValue`. -/
  | cached (res : DrandResult)
  /-- After `updateLatestDrandRound`, about to publish. -/
  | counted (res : DrandResult)
  /-- The context is done. -/
  | returned
  /-- The channel was closed, and a nil result was read. -/
  | panicked
  deriving DecidableEq, Repr

/-- What happens to the beacon of a node. -/
inductive BeaconEvent where
  /-- `Run`, with the client's latest round. -/
  | run (latest : Except Err DrandResult)
  /-- The channel of the client delivers, or has been closed. -/
  | result (res : Option DrandResult)
  /-- The goroutine goes on. -/
  | resume
  /-- The context is cancelled. -/
  | done
  /-- Somebody calls `Entry`, with what the client replies if it is asked. -/
  | asked (round : UInt64) (reply : Except Err DrandResult)

/-- The beacon of a node, its goroutine, what it has published as `beacon:newEntry` and
    the answers that `Entry` has given. -/
structure Watcher where
  beacon : DrandBeacon
  loop : BeaconLoop
  published : List BeaconEntry
  answers : List (UInt64 × Except Err BeaconEntry)

namespace Watcher

/-- A node that has just been started. -/
def new : Watcher := ⟨.new, .notStarted, [], []⟩

/-- `Run`: a node whose client does not know the latest round does not start. -/
def run (w : Watcher) : Except Err DrandResult → Watcher
  | .error _ => w
  | .ok latest =>
    if w.loop = .notStarted then
      { w with
        beacon :=
          (w.beacon.cacheValue (newBeaconEntryFromDrandResult latest)).updateLatestDrandRound
            latest.round
        loop := .waiting }
    else w

/-- The `select` of `loop` reads from the channel. -/
def receive (w : Watcher) (res : Option DrandResult) : Watcher :=
  match w.loop, res with
  | .waiting, some res => { w with
      beacon := w.beacon.cacheValue (newBeaconEntryFromDrandResult res)
      loop := .cached res }
  -- `res.Round()` of a nil interface
  | .waiting, none => { w with loop := .panicked }
  | _, _ => w

/-- The rest of the body of `loop`. -/
def resume (w : Watcher) : Watcher :=
  match w.loop with
  | .cached res => { w with
      beacon := w.beacon.updateLatestDrandRound res.round
      loop := .counted res }
  | .counted res => { w with
      loop := .waiting
      published := w.published ++ [newBeaconEntryFromDrandResult res] }
  | _ => w

/-- One step of the beacon. -/
def step (w : Watcher) : BeaconEvent → Watcher
  | .run latest => w.run latest
  | .result res => w.receive res
  | .resume => w.resume
  | .done => if w.loop = .waiting then { w with loop := .returned } else w
  | .asked round reply => { w with
      answers := w.answers ++ [(round, w.beacon.entry (fun _ => reply) round)] }

/-- The beacon after some events. -/
def after (evs : List BeaconEvent) : Watcher := Run.exec step new evs

end Watcher

/-! ## Honest clients -/

section Honest

variable (net : UInt64 → Bytes)

/-- The result is one of the drand network, whose rounds start at 1. -/
structure DrandResult.From (res : DrandResult) : Prop where
  round_ne : res.round ≠ 0
  randomness_eq : res.randomness = net res.round

/-- What an honest client replies to `Get`: the round it is asked for, where 0 is any. -/
structure DrandResult.Answers (round : UInt64) (res : DrandResult) : Prop extends res.From net where
  round_eq : round ≠ 0 → res.round = round

/-- A `Get` that may fail but does not lie. -/
def HonestGet (get : UInt64 → Except Err DrandResult) : Prop :=
  ∀ round res, get round = .ok res → res.Answers net round

/-- The client's part in an event is honest. -/
def BeaconEvent.Honest : BeaconEvent → Prop
  | .run (.ok latest) => latest.From net
  | .result (some res) => res.From net
  | .asked round (.ok res) => res.Answers net round
  | _ => True

/-- Every cached entry is the network's. -/
def DrandBeacon.Tracks (db : DrandBeacon) : Prop :=
  ∀ round be, db.getCachedValue round = some be → round ≠ 0 ∧ be = ⟨round, net round⟩

variable {net}

theorem DrandResult.From.entry_eq {res : DrandResult} (h : res.From net) :
    newBeaconEntryFromDrandResult res = ⟨res.round, net res.round⟩ :=
  congrArg (BeaconEntry.mk res.round) h.randomness_eq

namespace DrandBeacon.Tracks

variable {db : DrandBeacon}

/-- The answer for a round other than 0 is the entry of the network. -/
theorem entry_eq_ok (h : db.Tracks net) {get : UInt64 → Except Err DrandResult} {round : UInt64}
    {be : BeaconEntry} (hget : ∀ res, get round = .ok res → res.Answers net round)
    (hround : round ≠ 0) (hok : db.entry get round = .ok be) : be = ⟨round, net round⟩ := by
  rcases DrandBeacon.entry_eq_ok hok with hcached | ⟨res, hres, rfl⟩
  · exact (h round be hcached).2
  · have hanswer := hget res hres
    rw [hanswer.toFrom.entry_eq, hanswer.round_eq hround]

theorem cacheValue (h : db.Tracks net) {res : DrandResult} (hres : res.From net) :
    (db.cacheValue (newBeaconEntryFromDrandResult res)).Tracks net := by
  intro round be hbe
  rw [getCachedValue_cacheValue] at hbe
  split at hbe
  · next heq =>
      subst heq
      obtain rfl := Option.some.inj hbe
      exact ⟨hres.round_ne, hres.entry_eq⟩
  · exact h round be hbe

/-- A round that is cached stays cached, with the same entry. -/
theorem cached_cacheValue (h : db.Tracks net) {res : DrandResult} (hres : res.From net)
    {round : UInt64} {be : BeaconEntry} (hbe : db.getCachedValue round = some be) :
    (db.cacheValue (newBeaconEntryFromDrandResult res)).getCachedValue round = some be := by
  rw [getCachedValue_cacheValue]
  split
  · next heq =>
      -- the round comes a second time, and the network has one entry for it
      subst heq
      rw [(h _ be hbe).2, hres.entry_eq]
  · exact hbe

end DrandBeacon.Tracks

/-! ## Whole runs -/

namespace Watcher

variable (net) in
/-- What holds of the beacon at any time.  The goroutine publishes what it has put into
    the cache before. -/
structure Tracks (w : Watcher) : Prop where
  beacon : w.beacon.Tracks net
  latest : w.beacon.latestDrandRound ≠ 0 →
    ∃ be, w.beacon.getCachedValue w.beacon.latestDrandRound = some be
  pending : ∀ res, w.loop = .cached res ∨ w.loop = .counted res →
    w.beacon.getCachedValue res.round = some (newBeaconEntryFromDrandResult res)
  published : ∀ be ∈ w.published, w.beacon.getCachedValue be.round = some be
  answers : ∀ round be, (round, .ok be) ∈ w.answers → round ≠ 0 → be = ⟨round, net round⟩

theorem tracks_new : new.Tracks net where
  beacon := by
    intro round be hbe
    cases hbe
  latest hlatest := absurd rfl hlatest
  pending := by
    rintro res (hloop | hloop)
    · cases hloop
    · cases hloop
  published := by simp [new]
  answers := by simp [new]

/-- A result of the network goes into the cache; the goroutine is then anywhere but at a
    result other than this one. -/
theorem Tracks.cacheValue {w : Watcher} (h : w.Tracks net) {res : DrandResult}
    (hres : res.From net) (loop : BeaconLoop)
    (hloop : ∀ res', loop = .cached res' ∨ loop = .counted res' → res' = res) :
    Tracks net { w with
      beacon := w.beacon.cacheValue (newBeaconEntryFromDrandResult res)
      loop := loop } where
  beacon := h.beacon.cacheValue hres
  latest hlatest := by
    obtain ⟨be, hbe⟩ := h.latest hlatest
    exact ⟨be, h.beacon.cached_cacheValue hres hbe⟩
  pending := by
    intro res' hat
    obtain rfl := hloop res' hat
    simp [DrandBeacon.getCachedValue_cacheValue, newBeaconEntryFromDrandResult]
  published be hmem := h.beacon.cached_cacheValue hres (h.published be hmem)
  answers := h.answers

/-- The latest round becomes one that is cached. -/
theorem Tracks.updateLatestDrandRound {w : Watcher} (h : w.Tracks net) {res : DrandResult}
    (hcached : w.beacon.getCachedValue res.round = some (newBeaconEntryFromDrandResult res))
    (loop : BeaconLoop)
    (hloop : ∀ res', loop = .cached res' ∨ loop = .counted res' → res' = res) :
    Tracks net { w with
      beacon := w.beacon.updateLatestDrandRound res.round
      loop := loop } where
  beacon := h.beacon
  latest _ := ⟨_, hcached⟩
  pending := by
    intro res' hat
    obtain rfl := hloop res' hat
    exact hcached
  published := h.published
  answers := h.answers

theorem Tracks.run {w : Watcher} (h : w.Tracks net) {latest : Except Err DrandResult}
    (hhonest : BeaconEvent.Honest net (.run latest)) : (w.run latest).Tracks net := by
  cases latest with
  | error e => exact h
  | ok latest =>
      simp only [Watcher.run]
      split
      · have hcached := h.cacheValue hhonest (.cached latest) (by simp)
        exact hcached.updateLatestDrandRound (hcached.pending latest (.inl rfl)) .waiting (by simp)
      · exact h

theorem Tracks.receive {w : Watcher} (h : w.Tracks net) {res : Option DrandResult}
    (hhonest : BeaconEvent.Honest net (.result res)) : (w.receive res).Tracks net := by
  unfold Watcher.receive
  split
  · exact h.cacheValue hhonest _ (by simp)
  · exact ⟨h.beacon, h.latest, by simp, h.published, h.answers⟩
  · exact h

theorem Tracks.resume {w : Watcher} (h : w.Tracks net) : w.resume.Tracks net := by
  unfold Watcher.resume
  split
  · next res hloop =>
      exact h.updateLatestDrandRound (h.pending res (.inl hloop)) _ (by simp)
  · next res hloop =>
      refine ⟨h.beacon, h.latest, by simp, ?_, h.answers⟩
      intro be hmem
      rcases List.mem_append.mp hmem with hmem | hmem
      · exact h.published be hmem
      · obtain rfl := List.mem_singleton.mp hmem
        exact h.pending res (.inr hloop)
  · exact h

theorem tracks_step {w : Watcher} {e : BeaconEvent} (hhonest : e.Honest net)
    (h : w.Tracks net) : (w.step e).Tracks net := by
  cases e with
  | run latest => exact h.run hhonest
  | result res => exact h.receive hhonest
  | resume => exact h.resume
  | done =>
      simp only [step]
      split
      · exact ⟨h.beacon, h.latest, by simp, h.published, h.answers⟩
      · exact h
  | asked round reply =>
      refine ⟨h.beacon, h.latest, h.pending, h.published, ?_⟩
      intro round' be hmem hround
      rcases List.mem_append.mp hmem with hmem | hmem
      · exact h.answers round' be hmem hround
      · obtain ⟨rfl, hok⟩ := Prod.mk.inj (List.mem_singleton.mp hmem)
        refine h.beacon.entry_eq_ok ?_ hround hok.symm
        rintro res rfl
        exact hhonest

/-- Whatever an honest client delivers and replies, in whatever order. -/
theorem tracks_after {evs : List BeaconEvent} (hhonest : ∀ e ∈ evs, e.Honest net) :
    (after evs).Tracks net := by
  induction evs using List.reverseRecOn with
  | nil => exact tracks_new
  | append_singleton evs e ih =>
      rw [after, Run.exec_concat]
      have hevs : ∀ e' ∈ evs, e'.Honest net := fun e' he' => hhonest e' (List.mem_append_left _ he')
      exact tracks_step (hhonest e (by simp)) (ih hevs)

end Watcher

/-! ## Validators -/

/-- `Entry` answers the node for this round. -/
def Watcher.Obtains (w : Watcher) (get : UInt64 → Except Err DrandResult) (round : UInt64) : Prop :=
  ∃ be, w.beacon.entry get round = .ok be

/-- What a node has published it can have at any time, also when its client is cut off. -/
theorem Watcher.Tracks.obtains_of_published {w : Watcher} (h : w.Tracks net) {be : BeaconEntry}
    (hmem : be ∈ w.published) (get : UInt64 → Except Err DrandResult) : w.Obtains get be.round := by
  have hcached := h.published be hmem
  exact ⟨be, DrandBeacon.entry_of_cached (h.beacon _ _ hcached).1 hcached get⟩

/-- For every round but 0 there is one answer, the same on all nodes. -/
theorem Watcher.Tracks.entry_of_obtains {w : Watcher} (h : w.Tracks net)
    {get : UInt64 → Except Err DrandResult} (hget : HonestGet net get) {round : UInt64}
    (hround : round ≠ 0) (hobtains : w.Obtains get round) :
    w.beacon.entry get round = .ok ⟨round, net round⟩ := by
  obtain ⟨be, hbe⟩ := hobtains
  rw [hbe, h.beacon.entry_eq_ok (hget round) hround hbe]

/-- The services of a node with this beacon and this drand client. -/
def Oracles.withBeacon (o : Oracles) (db : DrandBeacon) (get : UInt64 → Except Err DrandResult) :
    Oracles :=
  { o with entry := db.entry get }

section Validators

variable {σ : Type} {db : Database σ} {o : Oracles}

theorem isMinerEligibleToProposeBlock_withBeacon (beacon : DrandBeacon)
    (get : UInt64 → Except Err DrandResult) :
    isMinerEligibleToProposeBlock (o.withBeacon beacon get) = isMinerEligibleToProposeBlock o :=
  rfl

theorem getStakeInfo_withBeacon (beacon : DrandBeacon) (get : UInt64 → Except Err DrandResult) :
    getStakeInfo (o.withBeacon beacon get) = getStakeInfo o := rfl

theorem verifyVRF_withBeacon (beacon : DrandBeacon) (get : UInt64 → Except Err DrandResult) :
    verifyVRF (o.withBeacon beacon get) = verifyVRF o := rfl

/-- The beacon is not asked for a transaction. -/
theorem validateTransactions_withBeacon (beacon : DrandBeacon)
    (get : UInt64 → Except Err DrandResult) (header : BlockHeader)
    (vs : List (Option Transaction)) :
    validateTransactions (o.withBeacon beacon get) header vs
      = validateTransactions o header vs := by
  induction vs with
  | nil => rfl
  | cons v vs ih =>
      have hone : validateTransaction (o.withBeacon beacon get) header v
          = validateTransaction o header v := rfl
      rw [validateTransactions, validateTransactions, ih, hone]

/-- `ValidateBlock` asks the beacon for one round, that of the election proof. -/
theorem validateBlock_withBeacon {beacon beacon' : DrandBeacon}
    {get get' : UInt64 → Except Err DrandResult} {block : Block}
    (hentry : ∀ header ep, block.header = some header → header.electionProof = some ep →
      beacon.entry get ep.randomnessRound = beacon'.entry get' ep.randomnessRound) (s : σ) :
    validateBlock db (o.withBeacon beacon get) block s
      = validateBlock db (o.withBeacon beacon' get') block s := by
  unfold validateBlock
  simp only [isMinerEligibleToProposeBlock_withBeacon, getStakeInfo_withBeacon,
    verifyVRF_withBeacon, validateTransactions_withBeacon]
  cases hheader : block.header with
  | none => simp only [deref, error_bind]
  | some header =>
      cases hep : header.electionProof with
      | none => simp only [ok_bind, hep, deref, error_bind, Oracles.withBeacon]
      | some ep =>
          simp only [deref_some, ok_bind, hep, Oracles.withBeacon, hentry header ep hheader hep]

end Validators

end Honest

/-- A drand network whose rounds are their own randomness. -/
def sampleNet (round : UInt64) : Bytes := [round.toUInt8]

/-- A client that answers, with the latest round `latest`. -/
def sampleGet (latest round : UInt64) : Except Err DrandResult :=
  if round = 0 then .ok ⟨latest, sampleNet latest⟩ else .ok ⟨round, sampleNet round⟩

theorem sampleGet_honest {latest : UInt64} (hlatest : latest ≠ 0) :
    HonestGet sampleNet (sampleGet latest) := by
  intro round res hres
  unfold sampleGet at hres
  split at hres
  · next hround =>
      obtain rfl := Except.ok.inj hres
      exact ⟨⟨hlatest, rfl⟩, fun hne => absurd hround hne⟩
  · next hround =>
      obtain rfl := Except.ok.inj hres
      exact ⟨⟨hround, rfl⟩, fun _ => rfl⟩

/-- A client that is cut off. -/
def cutOff (_ : UInt64) : Except Err DrandResult := .error (.msg "no connection")

/-- A node that starts at round 7 and is then given round 1. -/
def sampleWatch : List BeaconEvent :=
  [.run (.ok ⟨7, [7]⟩), .result (some ⟨1, [1]⟩), .resume, .resume]

theorem sampleWatch_honest : ∀ e ∈ sampleWatch, e.Honest sampleNet := by
  simp only [sampleWatch, List.forall_mem_cons]
  exact ⟨⟨by decide, by decide⟩, ⟨by decide, by decide⟩, trivial, trivial, by simp⟩

/-- Services whose signatures are the signed data, with a hash that keeps nine bytes. -/
def plainSigned : Oracles :=
  { Oracles.permissive with
    verify := fun _ data signature => .ok (decide (data = signature))
    sum256 := fun b => b.take 9 }

/-- A block whose ticket is drawn for round 0 when the latest round is 1. -/
def zeroRound : Block :=
  ⟨some { childHeader [1] 1 with
      signature := [1]
      electionProof := some ⟨20, [0, 0, 0, 0, 0, 0, 0, 1, 1], 0⟩ }, []⟩

-- Round 0 has to be left out: nodes that differ in the latest round differ in the verdict.
example :
    validateBlock Memory.database (plainSigned.withBeacon .new (sampleGet 1)) zeroRound
        (genesisChain Memory.backend) = .ok () ∧
      validateBlock Memory.database (plainSigned.withBeacon .new (sampleGet 2)) zeroRound
        (genesisChain Memory.backend) ≠ .ok () := by
  decide +kernel

end Dione
