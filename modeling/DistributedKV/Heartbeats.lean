import DistributedKV.Lifecycle

/-!
# Heartbeats and what they show of a peer

A node pings the other members in rounds, and pings back a member that pings it and that its
own last ping did not reach. What a ping showed is recorded under the lock of the records,
with the view that is published at that moment. A new view is published without that lock,
and the records are pruned to it some time later. `Heartbeats` steps through all of this one
access at a time, so pings of both kinds, a change of the view and its pruning interleave.

`peerStatuses_of_notes` : what the node reports about a member is determined by what its pings
have shown since the member came into the view, and once the records are pruned a ping that
was under way when a peer left cannot bring its record back. `pings_at_a_time` : at most one
ping of a round and one ping-back are under way to a peer, and the ping-back's flag is up
exactly while there is one. `stats_of_peerStatuses` : the counts of Stats are those of
PeerStatuses.
-/

namespace DistributedKV

/-! ## Records -/

structure PeerHealth where
  misses : Nat
  dead : Bool
  /-- The epoch in the peer's latest ping reply. -/
  epoch : Nat
  reachable : Bool
deriving DecidableEq

/-- What a ping has to note about its peer. -/
inductive PingNote
  | heartbeat (ok : Bool)
  | peerEpoch (epoch : Nat)
deriving DecidableEq

namespace PeerHealth

def new : PeerHealth :=
  ⟨0, false, 0, false⟩

/-- What `recordHeartbeat` does to a record. -/
def heartbeat (maxMissed : Int) (h : PeerHealth) (ok : Bool) : PeerHealth :=
  if ok then { h with reachable := true, misses := 0, dead := false }
  else { h with
    reachable := false
    misses := h.misses + 1
    dead := h.dead || decide (maxMissed ≤ h.misses + 1) }

/-- What `recordHeartbeat` or `recordPeerEpoch` does to a record. -/
def note (maxMissed : Int) (h : PeerHealth) : PingNote → PeerHealth
  | .heartbeat ok => h.heartbeat maxMissed ok
  | .peerEpoch epoch => { h with epoch := epoch }

end PeerHealth

/-- How the call of a ping ended. -/
inductive PingResult
  /-- There was no connection to call on. -/
  | noClient
  | failed
  | answered (nodeID : String) (epoch : Nat)
deriving DecidableEq

/-- What `pingPeer` records of a ping, in order. Nothing if its context has ended. -/
def pingNotes (peerID : String) (ended : Bool) : PingResult → List PingNote
  | .noClient => if ended then [] else [.heartbeat false]
  | .failed => if ended then [] else [.heartbeat false]
  | .answered nodeID epoch =>
    if ended then []
    -- the membership has a wrong address in it
    else if nodeID ≠ peerID then [.heartbeat false]
    else [.heartbeat true, .peerEpoch epoch]

/-! ## Pings -/

inductive PingOrigin
  | round
  | pingBack
deriving DecidableEq

inductive PingPhase
  /-- pingBack has found the sender in the view, at the address it gives. -/
  | heard
  /-- It has set the flag of the peer. -/
  | flagged
  /-- It could not start : background work has been stopped. -/
  | refused
  | calling
  /-- The call is over, and this is left to record. -/
  | noting (left : List PingNote)
deriving DecidableEq

structure Ping where
  peerID : String
  origin : PingOrigin
  phase : PingPhase
deriving DecidableEq

/-- A ping that has the lock of the records and has looked its peer up in the view. -/
structure Recording where
  peerID : String
  origin : PingOrigin
  note : PingNote
  left : List PingNote
  member : Bool
deriving DecidableEq

/-- What the ping does once it has given the lock back. -/
def Recording.ping (r : Recording) : Ping :=
  ⟨r.peerID, r.origin, .noting r.left⟩

/-! ## The node -/

/-- What matters to the records, in the order the node's view saw it. -/
inductive HealthEvent
  | stored (members : Members)
  /-- The view lists the peer the note is about. -/
  | noted (peerID : String) (note : PingNote)

structure Heartbeats where
  id : String
  maxMissedHeartbeats : Int
  /-- The members of the published view. -/
  members : Members
  /-- The records are not yet pruned to that view. -/
  pruning : Bool
  health : Std.ExtTreeMap String PeerHealth
  pingingBack : Finset String
  bgStopped : Bool
  lock : Option Recording
  /-- The pings under way, but for the one that has the lock. -/
  pings : List Ping
  /-- Newest first. -/
  history : List HealthEvent

/-- What `PeerStatuses` reports about a peer. -/
structure PeerStatus where
  alive : Bool
  lastSeenEpoch : Nat
  reachable : Bool
deriving DecidableEq

/-- What `Stats` counts of the peers. -/
structure PeerCounts where
  peers : Nat
  peersAlive : Nat
  peersReachable : Nat
deriving DecidableEq

namespace Heartbeats

def start (id : String) (maxMissed : Int) (members : Members) : Heartbeats :=
  ⟨id, maxMissed, members, false, ∅, ∅, false, none, [], []⟩

variable (s : Heartbeats)

def isDead (peerID : String) : Bool :=
  match s.health[peerID]? with
  | none => false
  | some h => h.dead

/-- The records after the lock's holder has written to them. -/
def recorded (r : Recording) : Std.ExtTreeMap String PeerHealth :=
  if r.member then
    s.health.insert r.peerID
      ((s.health[r.peerID]?.getD .new).note s.maxMissedHeartbeats r.note)
  else s.health

/-- A ping-back is due : the last ping failed or there was none, and no ping-back is under way. -/
def wantsPingBack (peerID : String) : Bool :=
  !(s.health[peerID]?.any (·.reachable) || peerID ∈ s.pingingBack)

def peerStatus (peerID : String) : PeerStatus :=
  match s.health[peerID]? with
  | none => ⟨true, 0, false⟩
  | some h => ⟨!h.dead, h.epoch, h.reachable⟩

/-- The status of every other member of the view that was loaded. -/
def peerStatuses (v : Members) : Std.ExtTreeMap String PeerStatus :=
  v.filterMap fun id _ => if id = s.id then none else some (s.peerStatus id)

/-- One turn of the loop of `Stats` over the members. -/
def countPeer (c : PeerCounts) (id : String) : PeerCounts :=
  if id = s.id then c
  else
    { peers := c.peers + 1
      peersAlive := c.peersAlive +
        if s.health[id]?.any (·.dead) then 0 else 1
      peersReachable := c.peersReachable +
        if s.health[id]?.any (·.reachable) then 1 else 0 }

def stats (v : Members) : PeerCounts :=
  v.keys.foldl s.countPeer ⟨0, 0, 0⟩

/-- All pings under way. -/
def underWay : List Ping :=
  (s.lock.map Recording.ping).toList ++ s.pings

/-- A ping goes on as another one. -/
def become (x y : Ping) : Heartbeats :=
  { s with pings := y :: s.pings.erase x }

/-- One access to what the node's goroutines share. -/
inductive Step (s : Heartbeats) : Heartbeats → Prop
  /-- setMembership publishes a new view. Its calls follow one another. -/
  | storeView (members : Members) (hpruned : s.pruning = false) :
      Step s { s with
        members := members
        pruning := true
        history := .stored members :: s.history }
  | pruneHealth (hpruning : s.pruning = true) (hlock : s.lock = none) :
      Step s { s with
        health := s.health.filter fun id _ => s.members.contains id
        pruning := false }
  /-- A round pings the other members. The one before it has waited for its pings. -/
  | heartbeatRound (hdone : ∀ x ∈ s.underWay, x.origin ≠ .round) :
      Step s { s with
        pings := (s.members.keys.filter (· ≠ s.id)).map (⟨·, .round, .calling⟩) ++ s.pings }
  | callEnds (peerID : String) (origin : PingOrigin) (ended : Bool) (result : PingResult)
      (hping : ⟨peerID, origin, .calling⟩ ∈ s.pings) :
      Step s (s.become ⟨peerID, origin, .calling⟩
        ⟨peerID, origin, .noting (pingNotes peerID ended result)⟩)
  /-- A ping takes the lock and looks its peer up in the view. -/
  | lockHealth (peerID : String) (origin : PingOrigin) (note : PingNote) (left : List PingNote)
      (hping : ⟨peerID, origin, .noting (note :: left)⟩ ∈ s.pings) (hlock : s.lock = none) :
      Step s { s with
        lock := some ⟨peerID, origin, note, left, s.members.contains peerID⟩
        pings := s.pings.erase ⟨peerID, origin, .noting (note :: left)⟩
        history :=
          if s.members.contains peerID then .noted peerID note :: s.history else s.history }
  | record (r : Recording) (hlock : s.lock = some r) :
      Step s { s with health := s.recorded r, lock := none, pings := r.ping :: s.pings }
  | roundPingDone (peerID : String) (hping : ⟨peerID, .round, .noting []⟩ ∈ s.pings) :
      Step s { s with pings := s.pings.erase ⟨peerID, .round, .noting []⟩ }
  /-- A member pings this node from the address the view lists for it. -/
  | handlePing (sender address : String) (hmember : s.members[sender]? = some address)
      (hother : sender ≠ s.id) :
      Step s { s with pings := ⟨sender, .pingBack, .heard⟩ :: s.pings }
  | skipPingBack (peerID : String) (hping : ⟨peerID, .pingBack, .heard⟩ ∈ s.pings)
      (hlock : s.lock = none) (hskip : s.wantsPingBack peerID = false) :
      Step s { s with pings := s.pings.erase ⟨peerID, .pingBack, .heard⟩ }
  | flagPingBack (peerID : String) (hping : ⟨peerID, .pingBack, .heard⟩ ∈ s.pings)
      (hlock : s.lock = none) (hwanted : s.wantsPingBack peerID = true) :
      Step s { s.become ⟨peerID, .pingBack, .heard⟩ ⟨peerID, .pingBack, .flagged⟩ with
        pingingBack := insert peerID s.pingingBack }
  | goBackground (peerID : String) (hping : ⟨peerID, .pingBack, .flagged⟩ ∈ s.pings) :
      Step s (s.become ⟨peerID, .pingBack, .flagged⟩
        ⟨peerID, .pingBack, if s.bgStopped then .refused else .calling⟩)
  /-- A ping-back that is over, or could not start, clears its flag. -/
  | pingBackDone (peerID : String) (phase : PingPhase)
      (hping : ⟨peerID, .pingBack, phase⟩ ∈ s.pings) (hlock : s.lock = none)
      (hphase : phase = .refused ∨ phase = .noting []) :
      Step s { s with
        pings := s.pings.erase ⟨peerID, .pingBack, phase⟩
        pingingBack := s.pingingBack.erase peerID }
  | stopBackground : Step s { s with bgStopped := true }

inductive Run : Heartbeats → Prop
  | start (id : String) (maxMissed : Int) (members : Members) :
      Run (Heartbeats.start id maxMissed members)
  | step {s t : Heartbeats} (hrun : Run s) (hstep : Step s t) : Run t

end Heartbeats

/-! ## What the notes say -/

/-- What pings have noted of a peer since it came into the view, newest first. -/
def notesSince (peerID : String) : List HealthEvent → List PingNote
  | [] => []
  | .stored members :: rest => if members.contains peerID then notesSince peerID rest else []
  | .noted id note :: rest =>
    if id = peerID then note :: notesSince peerID rest else notesSince peerID rest

namespace PingNote

def outcome : PingNote → Option Bool
  | .heartbeat ok => some ok
  | .peerEpoch _ => none

def seenEpoch : PingNote → Option Nat
  | .heartbeat _ => none
  | .peerEpoch epoch => some epoch

/-- How many pings in a row have failed, the latest one included. -/
def missedInARow (notes : List PingNote) : Nat :=
  ((notes.filterMap outcome).takeWhile (· = false)).length

/-- Some ping has failed, and as many in a row as it takes. -/
def showDead (maxMissed : Int) (notes : List PingNote) : Bool :=
  0 < missedInARow notes ∧ maxMissed ≤ missedInARow notes

/-- The latest ping was answered. -/
def showReachable (notes : List PingNote) : Bool :=
  (notes.filterMap outcome).head? = some true

def lastSeen (notes : List PingNote) : Nat :=
  (notes.filterMap seenEpoch).head?.getD 0

/-- What there is to report about a peer. -/
def status (maxMissed : Int) (notes : List PingNote) : PeerStatus :=
  ⟨!showDead maxMissed notes, lastSeen notes, showReachable notes⟩

/-- The record that says what the notes say. -/
def summary (maxMissed : Int) (notes : List PingNote) : PeerHealth :=
  ⟨missedInARow notes, showDead maxMissed notes, lastSeen notes, showReachable notes⟩

section

variable (maxMissed : Int) (notes : List PingNote) (epoch : Nat)

theorem outcomes_heartbeat (ok : Bool) :
    (heartbeat ok :: notes).filterMap outcome = ok :: notes.filterMap outcome :=
  rfl

theorem outcomes_peerEpoch :
    (peerEpoch epoch :: notes).filterMap outcome = notes.filterMap outcome :=
  rfl

theorem missedInARow_answered : missedInARow (heartbeat true :: notes) = 0 := by
  simp [missedInARow, outcomes_heartbeat]

theorem missedInARow_failed :
    missedInARow (heartbeat false :: notes) = missedInARow notes + 1 := by
  simp [missedInARow, outcomes_heartbeat]

theorem lastSeen_heartbeat (ok : Bool) : lastSeen (heartbeat ok :: notes) = lastSeen notes :=
  rfl

theorem summary_nil : summary maxMissed [] = .new :=
  rfl

theorem showDead_failed : showDead maxMissed (heartbeat false :: notes) =
    (showDead maxMissed notes || decide (maxMissed ≤ missedInARow notes + 1)) := by
  rw [Bool.eq_iff_iff]
  simp only [showDead, missedInARow_failed, Bool.or_eq_true, decide_eq_true_eq]
  omega

/-- A note changes the record as it changes what the notes say. -/
theorem summary_cons (note : PingNote) :
    summary maxMissed (note :: notes) = (summary maxMissed notes).note maxMissed note := by
  cases note with
  | peerEpoch =>
    simp only [summary, PeerHealth.note, missedInARow, showDead, showReachable,
      outcomes_peerEpoch]
    rfl
  | heartbeat ok =>
    cases ok with
    | true =>
      simp [summary, PeerHealth.note, PeerHealth.heartbeat, missedInARow_answered, showDead,
        showReachable, lastSeen_heartbeat, outcomes_heartbeat, -List.head?_filterMap]
    | false =>
      simp only [summary, PeerHealth.note, PeerHealth.heartbeat, missedInARow_failed,
        showDead_failed, lastSeen_heartbeat]
      rfl

end

end PingNote

namespace Heartbeats

variable {s t : Heartbeats} {p : String}

/-! ## The records -/

/-- The notes that are in a peer's record : all but the one the lock's holder has to write. -/
def written (s : Heartbeats) (p : String) : List PingNote :=
  match s.lock with
  | none => notesSince p s.history
  | some r =>
    if r.member = true ∧ r.peerID = p then (notesSince p s.history).tail
    else notesSince p s.history

theorem written_of_free (hlock : s.lock = none) : s.written p = notesSince p s.history := by
  simp [written, hlock]

/-- What holds of the records at every moment. -/
structure Recorded (s : Heartbeats) : Prop where
  members : ∀ p ∈ s.members,
    s.health[p]?.getD .new = PingNote.summary s.maxMissedHeartbeats (s.written p)
  others : ∀ p ∉ s.members, notesSince p s.history = []
  pruned : s.pruning = false → ∀ p ∉ s.members, s.health[p]? = none
  /-- A peer that has left since the lock's holder looked it up is still to be pruned. -/
  holder : ∀ r, s.lock = some r → r.member = true →
    r.peerID ∈ s.members ∧ (∃ rest, notesSince r.peerID s.history = r.note :: rest) ∨
      r.peerID ∉ s.members ∧ s.pruning = true

theorem Recorded.written_eq_nil (h : Recorded s) (hp : p ∉ s.members) : s.written p = [] := by
  unfold written
  split
  · exact h.others p hp
  · rw [h.others p hp]
    simp

theorem Recorded.storeView (h : Recorded s) (members : Members) (hpruned : s.pruning = false) :
    Recorded { s with
      members := members
      pruning := true
      history := .stored members :: s.history } := by
  have hsince : ∀ p ∈ members, notesSince p (.stored members :: s.history) =
      notesSince p s.history := by
    intro p hp
    simp [notesSince, hp]
  refine ⟨fun p hp => ?_, fun p hp => ?_, fun hfalse => absurd hfalse (by simp),
    fun r hr hmember => ?_⟩
  · have hwritten : written { s with
        members := members
        pruning := true
        history := .stored members :: s.history } p = s.written p := by
      simp only [written, hsince p hp]
    rw [hwritten]
    by_cases hold : p ∈ s.members
    · exact h.members p hold
    · rw [h.written_eq_nil hold]
      simp [h.pruned hpruned p hold, PingNote.summary_nil]
  · simp [notesSince, hp]
  · rcases h.holder r hr hmember with ⟨-, rest, hrest⟩ | ⟨-, hpruning⟩
    · by_cases hp : r.peerID ∈ members
      · exact Or.inl ⟨hp, rest, (hsince _ hp).trans hrest⟩
      · exact Or.inr ⟨hp, rfl⟩
    · simp [hpruned] at hpruning

theorem Recorded.pruneHealth (h : Recorded s) (hlock : s.lock = none) :
    Recorded { s with
      health := s.health.filter fun id _ => s.members.contains id
      pruning := false } := by
  have hget : ∀ p, (s.health.filter fun id _ => s.members.contains id)[p]? =
      s.health[p]?.filter fun _ => s.members.contains p := by
    intro p
    rw [Std.ExtTreeMap.getElem?_filter']
  refine ⟨fun p hp => ?_, h.others, fun _ p hp => ?_, fun r hr => absurd hr (by simp [hlock])⟩
  · have hkept : (s.health[p]?.filter fun _ => s.members.contains p) = s.health[p]? := by
      cases s.health[p]? <;> simp [hp]
    show (s.health.filter fun id _ => s.members.contains id)[p]?.getD .new = _
    rw [hget, hkept]
    exact h.members p hp
  · show (s.health.filter fun id _ => s.members.contains id)[p]? = none
    rw [hget]
    cases s.health[p]? <;> simp [hp]

theorem Recorded.lockHealth (h : Recorded s) (origin : PingOrigin) (note : PingNote)
    (left : List PingNote) (pings : List Ping) (hlock : s.lock = none) :
    Recorded { s with
      lock := some ⟨p, origin, note, left, s.members.contains p⟩
      pings := pings
      history := if s.members.contains p then .noted p note :: s.history else s.history } := by
  by_cases hp : p ∈ s.members
  · have hcontains : s.members.contains p = true := hp
    simp only [hcontains, if_true]
    refine ⟨fun q hq => ?_, fun q hq => ?_, h.pruned, fun r hr _ => ?_⟩
    · have hold := h.members q hq
      rw [written_of_free hlock] at hold
      by_cases hpq : p = q
      · subst hpq
        simpa [written, notesSince] using hold
      · simpa [written, notesSince, hpq] using hold
    · have hpq : p ≠ q := fun heq => hq (heq ▸ hp)
      simpa [notesSince, hpq] using h.others q hq
    · cases hr
      exact Or.inl ⟨hp, notesSince p s.history, by simp [notesSince]⟩
  · have hcontains : s.members.contains p = false := Bool.eq_false_iff.mpr hp
    simp only [hcontains, Bool.false_eq_true, if_false]
    refine ⟨fun q hq => ?_, h.others, h.pruned, fun r hr hmember => ?_⟩
    · have hold := h.members q hq
      rw [written_of_free hlock] at hold
      simpa [written] using hold
    · cases hr
      simp at hmember

theorem Recorded.record (h : Recorded s) {r : Recording} (hlock : s.lock = some r)
    (pings : List Ping) :
    Recorded { s with health := s.recorded r, lock := none, pings := pings } := by
  refine ⟨fun p hp => ?_, h.others, fun hpruned p hp => ?_, by simp⟩
  · have hold := h.members p hp
    show (s.recorded r)[p]?.getD .new = PingNote.summary _ (notesSince p s.history)
    by_cases hthis : r.member = true ∧ r.peerID = p
    · obtain ⟨hmember, rfl⟩ := hthis
      rcases h.holder r hlock hmember with ⟨-, rest, hrest⟩ | ⟨hout, -⟩
      · simp only [written, hlock, hmember, hrest, true_and, if_true, List.tail_cons] at hold
        simp [recorded, hmember, hrest, hold, PingNote.summary_cons]
      · exact absurd hp hout
    · have hsame : (s.recorded r)[p]? = s.health[p]? := by
        unfold recorded
        split_ifs with hmember
        · have hne : r.peerID ≠ p := fun heq => hthis ⟨hmember, heq⟩
          simp [Std.ExtTreeMap.getElem?_insert, hne]
        · rfl
      rw [hsame, hold]
      simp [written, hlock, hthis]
  · show (s.recorded r)[p]? = none
    unfold recorded
    split_ifs with hmember
    · have hne : r.peerID ≠ p := by
        rintro rfl
        rcases h.holder r hlock hmember with ⟨hin, -⟩ | ⟨-, hpruning⟩
        · exact hp hin
        · have hpruned' : s.pruning = false := hpruned
          simp [hpruned'] at hpruning
      simpa [Std.ExtTreeMap.getElem?_insert, hne] using h.pruned hpruned p hp
    · exact h.pruned hpruned p hp

theorem recorded_step (h : Recorded s) (hstep : Step s t) : Recorded t := by
  cases hstep with
  | storeView members hpruned => exact h.storeView members hpruned
  | pruneHealth hpruning hlock => exact h.pruneHealth hlock
  | lockHealth peerID origin note left hping hlock => exact h.lockHealth origin note left _ hlock
  | record r hlock => exact h.record hlock _
  | heartbeatRound | callEnds | roundPingDone | handlePing | skipPingBack | flagPingBack
  | goBackground | pingBackDone | stopBackground =>
    exact ⟨h.members, h.others, h.pruned, h.holder⟩

theorem recorded_of_run (hrun : Run s) : Recorded s := by
  induction hrun with
  | start =>
    refine ⟨fun p hp => ?_, fun p hp => rfl, fun _ p hp => ?_, by simp [start]⟩
    · simp [start, written, notesSince, PingNote.summary_nil]
    · simp [start]
  | step _ hstep ih => exact recorded_step ih hstep

theorem peerStatus_of_record (notes : List PingNote)
    (h : s.health[p]?.getD .new = PingNote.summary s.maxMissedHeartbeats notes) :
    s.peerStatus p = PingNote.status s.maxMissedHeartbeats notes ∧
      s.isDead p = PingNote.showDead s.maxMissedHeartbeats notes := by
  have hdead := congrArg PeerHealth.dead h
  have hepoch := congrArg PeerHealth.epoch h
  have hreach := congrArg PeerHealth.reachable h
  simp only [PingNote.summary] at hdead hepoch hreach
  unfold peerStatus isDead PingNote.status
  cases hr : s.health[p]? with
  | none | some =>
    rw [hr] at hdead hepoch hreach
    exact ⟨by rw [← hdead, ← hepoch, ← hreach]; rfl, hdead⟩

/-- While the lock of the records is free, what the node reports about another member, of its
view or of one it loaded before, and whether it takes the member for dead, is what its pings
have shown since the member came into the view. A peer that has left has no record once the
records are pruned, whatever pings were under way. -/
theorem peerStatuses_of_notes (hrun : Run s) (hlock : s.lock = none) (v : Members) (p : String) :
    (p ∈ s.members → p ∈ v → p ≠ s.id →
      (s.peerStatuses v)[p]? =
        some (PingNote.status s.maxMissedHeartbeats (notesSince p s.history)) ∧
      s.isDead p = PingNote.showDead s.maxMissedHeartbeats (notesSince p s.history)) ∧
    (p ∉ s.members → s.pruning = false → s.health[p]? = none) := by
  have hrecorded := recorded_of_run hrun
  refine ⟨fun hmember hv hother => ?_, fun hp hpruned => hrecorded.pruned hpruned p hp⟩
  have hrecord := hrecorded.members p hmember
  rw [written_of_free hlock] at hrecord
  obtain ⟨hstatus, hdead⟩ := peerStatus_of_record _ hrecord
  refine ⟨?_, hdead⟩
  obtain ⟨addr, haddr⟩ :=
    Option.isSome_iff_exists.mp (Std.ExtTreeMap.mem_iff_isSome_getElem?.mp hv)
  rw [peerStatuses, Std.ExtTreeMap.getElem?_filterMap', haddr]
  simp [hother, hstatus]

/-- The first ping to the only other member fails, and one failure is enough. -/
theorem peerStatuses_of_notes_missed : ∃ s, Run s ∧ s.lock = none ∧
    (s.peerStatuses pairMembers)["B"]? = some ⟨false, 0, false⟩ := by
  have h1 := (Run.start "A" 1 pairMembers).step (.heartbeatRound (by decide +kernel))
  have h2 := h1.step (.callEnds "B" .round false .failed (by decide +kernel))
  have h3 := h2.step (.lockHealth "B" .round (.heartbeat false) [] (by decide +kernel) rfl)
  have h4 := h3.step (.record _ rfl)
  refine ⟨_, h4, rfl, ?_⟩
  have hstatus := ((peerStatuses_of_notes h4 rfl pairMembers "B").1 (by decide +kernel)
    (by decide +kernel) (by decide +kernel)).1
  rw [hstatus]
  decide +kernel

/-! ## Pings under way -/

/-- It counts as a ping of the origin to `p`. A ping-back counts from its flag on. -/
def counts (p : String) (origin : PingOrigin) (x : Ping) : Bool :=
  x.peerID = p ∧ x.origin = origin ∧ x.phase ≠ .heard

section

variable {id : String} {origin origin' : PingOrigin} {phase : PingPhase}

theorem counts_self (hphase : phase ≠ .heard) : counts p origin ⟨p, origin, phase⟩ = true := by
  simp [counts, hphase]

theorem counts_heard : counts p origin ⟨id, origin', .heard⟩ = false := by
  simp [counts]

theorem counts_of_ne (hid : id ≠ p) : counts p origin ⟨id, origin', phase⟩ = false := by
  simp [counts, hid]

theorem counts_of_origin (horigin : origin' ≠ origin) :
    counts p origin ⟨id, origin', phase⟩ = false := by
  simp [counts, horigin]

end

/-- The pings of the origin to `p` that are under way. -/
def pingsTo (s : Heartbeats) (p : String) (origin : PingOrigin) : Nat :=
  s.underWay.countP (counts p origin)

def OneAtATime (s : Heartbeats) : Prop :=
  ∀ p, s.pingsTo p .round ≤ 1 ∧ s.pingsTo p .pingBack = if p ∈ s.pingingBack then 1 else 0

theorem underWay_perm {x : Ping} (hx : x ∈ s.pings) :
    s.underWay.Perm (x :: ((s.lock.map Recording.ping).toList ++ s.pings.erase x)) :=
  ((List.perm_cons_erase hx).append_left _).trans List.perm_middle

/-- A ping goes on as another one, and the others stay. -/
theorem pingsTo_become {x y : Ping} (hx : x ∈ s.pings) (p : String) (origin : PingOrigin) :
    (s.become x y).pingsTo p origin + (if counts p origin x then 1 else 0) =
      s.pingsTo p origin + if counts p origin y then 1 else 0 := by
  have hold := (underWay_perm hx).countP_eq (counts p origin)
  have hnew : (s.become x y).underWay.Perm
      (y :: ((s.lock.map Recording.ping).toList ++ s.pings.erase x)) := List.perm_middle
  simp only [pingsTo, hold, hnew.countP_eq, List.countP_cons]
  omega

theorem pingsTo_erase {x : Ping} (hx : x ∈ s.pings) (pingingBack : Finset String) (p : String)
    (origin : PingOrigin) :
    pingsTo { s with pings := s.pings.erase x, pingingBack := pingingBack } p origin +
      (if counts p origin x then 1 else 0) = s.pingsTo p origin := by
  have hold := (underWay_perm hx).countP_eq (counts p origin)
  simp only [pingsTo, hold, List.countP_cons]
  rfl

/-- A ping goes on as one that counts the same. -/
theorem OneAtATime.become (h : OneAtATime s) {x y : Ping} (hx : x ∈ s.pings)
    (hsame : ∀ p origin, counts p origin x = counts p origin y) : OneAtATime (s.become x y) := by
  intro p
  have hround := pingsTo_become (y := y) hx p .round
  have hback := pingsTo_become (y := y) hx p .pingBack
  rw [hsame] at hround hback
  obtain ⟨hle, heq⟩ := h p
  exact ⟨by omega, by rw [Nat.add_right_cancel hback]; exact heq⟩

/-- A round finds no ping of a round under way, and pings every other member once. -/
theorem OneAtATime.heartbeatRound (h : OneAtATime s)
    (hdone : ∀ x ∈ s.underWay, x.origin ≠ .round) :
    OneAtATime { s with
      pings := (s.members.keys.filter (· ≠ s.id)).map (⟨·, .round, .calling⟩) ++ s.pings } := by
  intro p
  have hsum : ∀ origin, pingsTo { s with
      pings := (s.members.keys.filter (· ≠ s.id)).map (⟨·, .round, .calling⟩) ++ s.pings } p
        origin = ((s.members.keys.filter (· ≠ s.id)).map
          (⟨·, .round, .calling⟩)).countP (counts p origin) + s.pingsTo p origin := by
    intro origin
    simp only [pingsTo, underWay, List.countP_append]
    omega
  have hnone : s.pingsTo p .round = 0 := by
    refine List.countP_eq_zero.mpr fun x hx hcounts => hdone x hx ?_
    exact (of_decide_eq_true hcounts).2.1
  have hrounds : ((s.members.keys.filter (· ≠ s.id)).map
      (⟨·, .round, .calling⟩)).countP (counts p .round) ≤ 1 := by
    have hnodup := (Std.ExtTreeMap.nodup_keys (t := s.members)).filter (· ≠ s.id)
    refine le_trans (le_of_eq ?_) (List.nodup_iff_count_le_one.mp hnodup p)
    rw [List.countP_map, List.count]
    refine List.countP_congr fun id _ => ?_
    simp [counts]
  have hbacks : ((s.members.keys.filter (· ≠ s.id)).map
      (⟨·, .round, .calling⟩)).countP (counts p .pingBack) = 0 := by
    simp [List.countP_map, List.countP_eq_zero, counts]
  rw [hsum, hsum, hnone, hbacks]
  exact ⟨hrounds, by simpa using (h p).2⟩

theorem OneAtATime.flagPingBack (h : OneAtATime s) {id : String}
    (hping : ⟨id, .pingBack, .heard⟩ ∈ s.pings) (hflag : id ∉ s.pingingBack) :
    OneAtATime { s.become ⟨id, .pingBack, .heard⟩ ⟨id, .pingBack, .flagged⟩ with
      pingingBack := insert id s.pingingBack } := by
  intro p
  have hround := pingsTo_become (y := ⟨id, .pingBack, .flagged⟩) hping p .round
  have hback := pingsTo_become (y := ⟨id, .pingBack, .flagged⟩) hping p .pingBack
  rw [counts_heard, counts_of_origin (by decide)] at hround
  rw [counts_heard] at hback
  obtain ⟨hle, heq⟩ := h p
  refine ⟨(Nat.add_right_cancel hround).trans_le hle, ?_⟩
  by_cases hp : id = p
  · subst hp
    rw [counts_self (by decide), heq, if_neg hflag] at hback
    exact hback.trans (if_pos (Finset.mem_insert_self id s.pingingBack)).symm
  · have hsame : p ∈ insert id s.pingingBack ↔ p ∈ s.pingingBack := by
      simp [Finset.mem_insert, Ne.symm hp]
    rw [counts_of_ne hp] at hback
    exact (Nat.add_right_cancel hback).trans (heq.trans (if_congr hsame.symm rfl rfl))

/-- A ping that does not count is over. -/
theorem OneAtATime.erase (h : OneAtATime s) {x : Ping} (hx : x ∈ s.pings)
    (hnot : ∀ p, counts p .pingBack x = false) :
    OneAtATime { s with pings := s.pings.erase x } := by
  intro p
  have hround := pingsTo_erase hx s.pingingBack p .round
  have hback := pingsTo_erase hx s.pingingBack p .pingBack
  rw [hnot p] at hback
  obtain ⟨hle, heq⟩ := h p
  exact ⟨le_trans (Nat.le.intro hround) hle, hback.trans heq⟩

theorem OneAtATime.pingBackDone (h : OneAtATime s) {id : String} {phase : PingPhase}
    (hping : ⟨id, .pingBack, phase⟩ ∈ s.pings) (hphase : phase = .refused ∨ phase = .noting []) :
    OneAtATime { s with
      pings := s.pings.erase ⟨id, .pingBack, phase⟩
      pingingBack := s.pingingBack.erase id } := by
  have hflagged : phase ≠ .heard := by
    rcases hphase with rfl | rfl <;> simp
  intro p
  have hround := pingsTo_erase hping (s.pingingBack.erase id) p .round
  have hback := pingsTo_erase hping (s.pingingBack.erase id) p .pingBack
  obtain ⟨hle, heq⟩ := h p
  refine ⟨le_trans (Nat.le.intro hround) hle, ?_⟩
  by_cases hp : id = p
  · subst hp
    rw [counts_self hflagged, if_pos rfl] at hback
    rw [if_neg (Finset.notMem_erase id s.pingingBack)]
    split_ifs at heq <;> omega
  · have hsame : p ∈ s.pingingBack.erase id ↔ p ∈ s.pingingBack := by
      simp [Finset.mem_erase, Ne.symm hp]
    rw [counts_of_ne hp] at hback
    exact hback.trans (heq.trans (if_congr hsame.symm rfl rfl))

theorem oneAtATime_step (h : OneAtATime s) (hstep : Step s t) : OneAtATime t := by
  cases hstep with
  | storeView | pruneHealth | stopBackground => exact h
  | heartbeatRound hdone => exact h.heartbeatRound hdone
  | callEnds peerID origin ended result hping =>
    exact h.become hping fun p origin => by simp [counts]
  | lockHealth peerID origin note left hping hlock =>
    have hbecome := h.become (y := ⟨peerID, origin, .noting left⟩) hping
      fun p origin => by simp [counts]
    intro p
    have hp := hbecome p
    simpa [pingsTo, underWay, Heartbeats.become, hlock, Recording.ping] using hp
  | record r hlock =>
    intro p
    have hp := h p
    simpa [pingsTo, underWay, hlock] using hp
  | roundPingDone peerID hping => exact h.erase hping fun p => counts_of_origin (by decide)
  | handlePing =>
    intro p
    have hp := h p
    simpa [pingsTo, underWay, List.countP_append, counts] using hp
  | skipPingBack peerID hping => exact h.erase hping fun p => counts_heard
  | flagPingBack peerID hping hlock hwanted =>
    have hflag : peerID ∉ s.pingingBack := by
      rw [wantsPingBack, Bool.not_eq_true', Bool.or_eq_false_iff] at hwanted
      exact of_decide_eq_false hwanted.2
    exact h.flagPingBack hping hflag
  | goBackground peerID hping =>
    refine h.become hping fun p origin => ?_
    cases s.bgStopped <;> simp [counts]
  | pingBackDone peerID phase hping hlock hphase => exact h.pingBackDone hping hphase

theorem oneAtATime_of_run (hrun : Run s) : OneAtATime s := by
  induction hrun with
  | start => simp [OneAtATime, start, pingsTo, underWay]
  | step _ hstep ih => exact oneAtATime_step ih hstep

/-- At most one ping of the rounds and at most one ping-back are under way to a peer. The
peer's flag is set while there is a ping-back, and at no other time, so it cannot be left
behind by one that failed, was refused or outlived the membership of its peer. -/
theorem pings_at_a_time (hrun : Run s) (p : String) :
    s.pingsTo p .round ≤ 1 ∧ s.pingsTo p .pingBack = if p ∈ s.pingingBack then 1 else 0 :=
  oneAtATime_of_run hrun p

/-- `B` pings `A`, which has not pinged it yet. -/
theorem pings_at_a_time_heard : ∃ s, Run s ∧ "B" ∈ s.pingingBack ∧
    s.pingsTo "B" .pingBack = 1 := by
  have h1 := (Run.start "A" 1 pairMembers).step (.handlePing "B" "host-b:7000" rfl (by decide))
  have h2 := h1.step (.flagPingBack "B" (by decide +kernel) rfl (by decide +kernel))
  have hflag : "B" ∈ insert "B" (∅ : Finset String) := by decide
  exact ⟨_, h2, hflag, (pings_at_a_time h2 "B").2.trans (if_pos hflag)⟩

/-! ## Stats -/

theorem countPeer_eq (c : PeerCounts) (hp : p ≠ s.id) : s.countPeer c p =
    ⟨c.peers + 1, c.peersAlive + (if (s.peerStatus p).alive then 1 else 0),
      c.peersReachable + if (s.peerStatus p).reachable then 1 else 0⟩ := by
  rw [countPeer, if_neg hp]
  cases hr : s.health[p]? with
  | none => simp [peerStatus, hr]
  | some record => cases hd : record.dead <;> simp [peerStatus, hr, hd]

theorem foldl_countPeer (s : Heartbeats) : ∀ (l : List (String × String)) (c : PeerCounts),
    (l.map Prod.fst).foldl s.countPeer c =
      let statuses := l.filterMap fun e =>
        if e.1 = s.id then none else some (e.1, s.peerStatus e.1)
      ⟨c.peers + statuses.length, c.peersAlive + statuses.countP (·.2.alive),
        c.peersReachable + statuses.countP (·.2.reachable)⟩
  | [], c => rfl
  | e :: l, c => by
    rw [List.map_cons, List.foldl_cons, foldl_countPeer s l]
    by_cases he : e.1 = s.id
    · simp [countPeer, he]
    · rw [countPeer_eq c he]
      simp only [List.filterMap_cons, he, if_false, List.length_cons, List.countP_cons,
        PeerCounts.mk.injEq]
      omega

/-- Stats counts what PeerStatuses lists. -/
theorem stats_of_peerStatuses (s : Heartbeats) (v : Members) :
    s.stats v = ⟨(s.peerStatuses v).size, (s.peerStatuses v).toList.countP (·.2.alive),
      (s.peerStatuses v).toList.countP (·.2.reachable)⟩ := by
  have hlist : (s.peerStatuses v).toList = v.toList.filterMap fun e =>
      if e.1 = s.id then none else some (e.1, s.peerStatus e.1) := by
    rw [peerStatuses, Std.ExtTreeMap.toList_filterMap]
    refine List.filterMap_congr fun e _ => ?_
    split_ifs <;> rfl
  rw [stats, ← Std.ExtTreeMap.map_fst_toList_eq_keys, foldl_countPeer,
    ← Std.ExtTreeMap.length_toList, hlist]
  simp only [Nat.zero_add]

end Heartbeats

end DistributedKV
