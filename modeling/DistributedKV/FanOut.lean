import DistributedKV.Coordinator

/-!
# The fan-out of a write

`putAsReplica` sends its item to every peer at once. Each peer's goroutine puts one result
in a buffered channel; the waiting loop takes results until W is reached, is out of reach,
or the caller gives up, and hands the rest to `drainReplication`, which takes the
remaining results in the background and stores a hint for every peer that was unavailable,
if the local write stands. `FanOut` is the state of all of these between two steps, and a
run is any interleaving of the goroutines, the loop, the caller's cancellation, the drain
and `Close`.

`Inv` says what the counters and lists mean in every state of a run : `inv_of_reach`. The
three exits of the loop are told apart by the results it received (`reached_iff_of_exitOk`,
`impossible_iff_of_exitOk`), every result is in one place (`Inv.perm`), and a run that cannot
go on has drained the channel unless `Close` came first (`accounting`). If neither the caller
nor `Close` interrupts it, the order of the results does not matter
(`reached_iff_of_quiet`).
-/

namespace DistributedKV

/-- How a peer's Replicate ended. A peer marked dead by heartbeats is unavailable. -/
inductive ReplicaOutcome
  | success
  | unavailable
  | otherError
deriving DecidableEq

namespace FanOut

/-- How the waiting loop ends. -/
inductive Exit
  /-- W was reached : the call returns nil. -/
  | reached
  /-- W is out of reach : the local write is rolled back. -/
  | impossible
  /-- The caller's cancellation was taken. -/
  | canceled
deriving DecidableEq

inductive CallPhase
  | waiting
  /-- About to call `drainReplication`. -/
  | handing (exit : Exit)
  /-- About to call `RestoreVersions`. -/
  | restoring
  | returned (exit : Exit)
deriving DecidableEq

def CallPhase.ofVerdict : Verdict → CallPhase
  | .waiting => .waiting
  | .reached => .handing .reached
  | .failed => .handing .impossible

def CallPhase.exit : CallPhase → Option Exit
  | .waiting => none
  | .handing exit => some exit
  | .restoring => some .impossible
  | .returned exit => some exit

inductive DrainPhase
  | notStarted
  /-- `Close` had begun. -/
  | refused
  | draining (remaining : Nat) (unavailable : List String) (keep : Bool)
  /-- The hints still to be stored. -/
  | adding (todo : List String)
  | finished
deriving DecidableEq

end FanOut

/-- A `putAsReplica` after its local write, with its goroutines and its drain. -/
structure FanOut where
  /-- The peers whose goroutine has not sent its result. -/
  sending : List String
  /-- The results nobody has taken, oldest first. -/
  channel : List String
  /-- The results the waiting loop took. -/
  received : List String
  tally : Tally
  unavailable : List String
  phase : FanOut.CallPhase
  drain : FanOut.DrainPhase
  /-- The results the drain took. -/
  drained : List String
  /-- The peers a hint was stored for. -/
  hints : List String
  /-- The peers whose hint could not be stored. -/
  lost : List String
  /-- Whether the local write was rolled back. -/
  restored : Bool
  /-- Whether `Close` has begun. -/
  closing : Bool

namespace FanOut

variable (needed : Nat) (outcome : String → ReplicaOutcome) (peers : List String)

def start : FanOut where
  sending := peers
  channel := []
  received := []
  tally := ⟨1, 0⟩
  unavailable := []
  phase := .ofVerdict (Tally.first needed peers.length ⟨1, 0⟩)
  drain := .notStarted
  drained := []
  hints := []
  lost := []
  restored := false
  closing := false

/-- The unavailable peers after one more result. -/
def note (unavailable : List String) (peer : String) : List String :=
  if outcome peer = .unavailable then unavailable ++ [peer] else unavailable

/-- The waiting loop takes the oldest result. -/
def take (s : FanOut) (peer : String) (rest : List String) : FanOut :=
  let tally := s.tally.add (outcome peer = .success)
  let received := s.received ++ [peer]
  { s with
    channel := rest, received := received, tally := tally
    unavailable := note outcome s.unavailable peer
    phase := .ofVerdict (tally.next needed (peers.length + 1) (peers.length - received.length)) }

/-- `drainReplication` up to its goroutine, and what the call does next. -/
def decided (s : FanOut) (exit : Exit) : FanOut :=
  { s with
    drain := if s.closing then .refused
      else .draining (peers.length - s.received.length) s.unavailable (exit ≠ .impossible)
    phase := if exit = .impossible then .restoring else .returned exit }

/-- The steps of the call, its goroutines and its drain. -/
inductive Step : FanOut → FanOut → Prop
  /-- A peer's Replicate returns, or the peer was marked dead. -/
  | send {s : FanOut} (peer : String) : peer ∈ s.sending →
      Step s { s with sending := s.sending.erase peer, channel := s.channel ++ [peer] }
  | take {s : FanOut} {peer : String} {rest : List String} : s.phase = .waiting →
      s.channel = peer :: rest → Step s (take needed outcome peers s peer rest)
  | decided {s : FanOut} {exit : Exit} : s.phase = .handing exit → Step s (decided peers s exit)
  | restore {s : FanOut} : s.phase = .restoring →
      Step s { s with phase := .returned .impossible, restored := true }
  | drainTake {s : FanOut} {remaining : Nat} {unavailable : List String} {keep : Bool}
      {peer : String} {rest : List String} :
      s.drain = .draining (remaining + 1) unavailable keep → s.channel = peer :: rest →
      Step s { s with
        channel := rest, drained := s.drained ++ [peer]
        drain := .draining remaining (note outcome unavailable peer) keep }
  | drainEnd {s : FanOut} {unavailable : List String} {keep : Bool} :
      s.drain = .draining 0 unavailable keep →
      Step s { s with drain := if keep then .adding unavailable else .finished }
  | addHint {s : FanOut} {peer : String} {todo : List String} : s.drain = .adding (peer :: todo) →
      Step s { s with drain := .adding todo, hints := s.hints ++ [peer] }
  /-- A hint that can't be stored is only logged. -/
  | loseHint {s : FanOut} {peer : String} {todo : List String} :
      s.drain = .adding (peer :: todo) →
      Step s { s with drain := .adding todo, lost := s.lost ++ [peer] }
  | addEnd {s : FanOut} : s.drain = .adding [] → Step s { s with drain := .finished }

/-- The states of a run. The caller may cancel while the loop waits, and `Close` may begin
at any time. -/
inductive Reach : FanOut → Prop
  | start : Reach (start needed peers)
  | step {s t : FanOut} : Reach s → Step needed outcome peers s t → Reach t
  | cancel {s : FanOut} : Reach s → s.phase = .waiting →
      Reach { s with phase := .handing .canceled }
  | beginClose {s : FanOut} : Reach s → Reach { s with closing := true }

/-- Nothing is left to do. -/
def Quiet (s : FanOut) : Prop :=
  ∀ t, ¬Step needed outcome peers s t

/-! ## Counting results -/

def successes (results : List String) : Nat :=
  results.countP (outcome · = .success)

def failures (results : List String) : Nat :=
  results.countP (outcome · ≠ .success)

theorem successes_add_failures (results : List String) :
    successes outcome results + failures outcome results = results.length := by
  have := List.length_eq_countP_add_countP (fun p => decide (outcome p = .success)) (l := results)
  simpa [successes, failures] using this.symm

/-- The peers whose result was Unavailable. -/
def unavailableOf (results : List String) : List String :=
  results.filter (outcome · = .unavailable)

theorem note_unavailableOf (results : List String) (peer : String) :
    note outcome (unavailableOf outcome results) peer =
      unavailableOf outcome (results ++ [peer]) := by
  by_cases h : outcome peer = .unavailable <;> simp [note, unavailableOf, h]

/-- W is neither reached nor, once a result was received, out of reach. -/
def Undecided (results : List String) : Prop :=
  1 + successes outcome results < needed ∧
    (results ≠ [] → needed + failures outcome results ≤ peers.length + 1)

/-- What the received results say about an exit. -/
def ExitOk (results : List String) : Exit → Prop
  | .reached => needed ≤ 1 + successes outcome results
  | .impossible => (results ≠ [] ∨ peers = []) ∧
      peers.length + 1 < needed + failures outcome results
  | .canceled => Undecided needed outcome peers results ∧ peers ≠ []

variable {needed outcome peers}

theorem reached_iff_of_exitOk {results : List String} {exit : Exit}
    (hlen : results.length ≤ peers.length) (h : ExitOk needed outcome peers results exit) :
    exit = .reached ↔ needed ≤ 1 + successes outcome results := by
  have hsum := successes_add_failures outcome results
  cases exit with
  | reached => simpa [ExitOk] using h
  | impossible =>
    have := h.2
    simp only [reduceCtorEq, false_iff]
    omega
  | canceled =>
    have := h.1.1
    simp only [reduceCtorEq, false_iff]
    omega

theorem impossible_iff_of_exitOk {results : List String} {exit : Exit}
    (hlen : results.length ≤ peers.length) (h : ExitOk needed outcome peers results exit) :
    exit = .impossible ↔ (results ≠ [] ∨ peers = []) ∧
      peers.length + 1 < needed + failures outcome results := by
  have hsum := successes_add_failures outcome results
  cases exit with
  | reached =>
    have : needed ≤ 1 + successes outcome results := h
    simp only [reduceCtorEq, false_iff, not_and]
    omega
  | impossible => simpa [ExitOk] using h
  | canceled =>
    simp only [reduceCtorEq, false_iff]
    rintro ⟨hne | hnil, hlt⟩
    · have := h.1.2 hne
      omega
    · exact h.2 hnil

/-! ## One step -/

/-- The local write stands unless the loop gave up on the quorum. -/
def Kept (s : FanOut) : Prop :=
  s.phase.exit ≠ some .impossible

/-- What the drain has done. -/
def DrainOk (outcome : String → ReplicaOutcome) (peers : List String) (s : FanOut) : Prop :=
  match s.drain with
  | .notStarted => s.drained = [] ∧ s.hints = [] ∧ s.lost = []
  | .refused => s.closing = true ∧ s.drained = [] ∧ s.hints = [] ∧ s.lost = []
  | .draining remaining unavailable keep =>
    s.received.length + s.drained.length + remaining = peers.length ∧
      unavailable = unavailableOf outcome (s.received ++ s.drained) ∧
      (keep = true ↔ s.Kept) ∧ s.hints = [] ∧ s.lost = []
  | .adding todo =>
    s.received.length + s.drained.length = peers.length ∧ s.Kept ∧
      (s.hints ++ s.lost ++ todo).Perm (unavailableOf outcome (s.received ++ s.drained))
  | .finished =>
    s.received.length + s.drained.length = peers.length ∧
      (s.Kept → (s.hints ++ s.lost).Perm (unavailableOf outcome (s.received ++ s.drained))) ∧
      (¬s.Kept → s.hints = [] ∧ s.lost = [])

structure Inv (needed : Nat) (outcome : String → ReplicaOutcome) (peers : List String)
    (s : FanOut) : Prop where
  /-- Every result is in one place. -/
  perm : (s.received ++ s.drained ++ (s.channel ++ s.sending)).Perm peers
  unavailable_eq : s.unavailable = unavailableOf outcome s.received
  successes_eq : s.tally.successes = 1 + successes outcome s.received
  failures_eq : s.tally.failures = failures outcome s.received
  /-- The loop went on after each result but the last. -/
  earlier : ∀ q, q <+: s.received → q ≠ s.received → Undecided needed outcome peers q
  waiting : s.phase = .waiting → Undecided needed outcome peers s.received ∧ peers ≠ []
  exitOk : ∀ exit, s.phase.exit = some exit → ExitOk needed outcome peers s.received exit
  /-- The drain starts when the loop has ended. -/
  notStarted : s.drain = .notStarted ↔ s.phase = .waiting ∨ ∃ exit, s.phase = .handing exit
  drainOk : DrainOk outcome peers s
  restored_iff : s.restored = true ↔ s.phase = .returned .impossible

/-- The verdict after a result is what the results received say. -/
theorem verdict_next (needed : Nat) (outcome : String → ReplicaOutcome)
    {peers results : List String} (hlen : results.length ≤ peers.length) (hne : results ≠ []) :
    let phase := CallPhase.ofVerdict (Tally.next needed (peers.length + 1)
      (peers.length - results.length) ⟨1 + successes outcome results, failures outcome results⟩)
    (phase = .waiting ∧ Undecided needed outcome peers results) ∨
      ∃ exit, phase = .handing exit ∧ ExitOk needed outcome peers results exit := by
  have hsum := successes_add_failures outcome results
  simp only [Tally.next]
  split_ifs with hreached hout hlast
  · exact Or.inr ⟨.reached, rfl, hreached⟩
  · exact Or.inr ⟨.impossible, rfl, Or.inl hne, by omega⟩
  · exact Or.inr ⟨.impossible, rfl, Or.inl hne, by omega⟩
  · exact Or.inl ⟨rfl, by omega, fun _ => by omega⟩

theorem inv_start : Inv needed outcome peers (start needed peers) where
  perm := by simp [start]
  unavailable_eq := rfl
  successes_eq := rfl
  failures_eq := rfl
  earlier := fun q hq hne => absurd (List.prefix_nil.mp hq) hne
  waiting := by
    simp only [start, Tally.first]
    split_ifs with hreached hnone
    · simp [CallPhase.ofVerdict]
    · simp [CallPhase.ofVerdict]
    · have hne : peers ≠ [] := fun h => hnone (by rw [h]; rfl)
      exact fun _ => ⟨⟨by simpa [successes] using hreached, by simp⟩, hne⟩
  exitOk := by
    simp only [start, Tally.first]
    split_ifs with hreached hnone
    · rintro exit ⟨⟩
      exact hreached
    · rintro exit ⟨⟩
      exact ⟨Or.inr (List.length_eq_zero_iff.mp hnone), by simpa [failures, hnone] using hreached⟩
    · simp [CallPhase.ofVerdict, CallPhase.exit]
  notStarted := by
    simp only [start, true_iff]
    cases Tally.first needed peers.length ⟨1, 0⟩ <;> simp [CallPhase.ofVerdict]
  drainOk := ⟨rfl, rfl, rfl⟩
  restored_iff := by
    simp only [start, Bool.false_eq_true, false_iff]
    cases Tally.first needed peers.length ⟨1, 0⟩ <;> simp [CallPhase.ofVerdict]

theorem Inv.length_le {s : FanOut} (h : Inv needed outcome peers s) :
    s.received.length + s.drained.length + s.channel.length + s.sending.length = peers.length := by
  have := h.perm.length_eq
  simpa [Nat.add_assoc] using this

theorem Inv.send {s : FanOut} (h : Inv needed outcome peers s) {peer : String}
    (hpeer : peer ∈ s.sending) : Inv needed outcome peers
      { s with sending := s.sending.erase peer, channel := s.channel ++ [peer] } :=
  { h with
    perm := by
      refine List.Perm.trans (List.Perm.append_left _ ?_) h.perm
      rw [List.append_assoc]
      exact List.Perm.append_left _ (List.perm_cons_erase hpeer).symm }

theorem Inv.take {s : FanOut} (h : Inv needed outcome peers s) {peer : String}
    {rest : List String} (hphase : s.phase = .waiting) (hchannel : s.channel = peer :: rest) :
    Inv needed outcome peers (FanOut.take needed outcome peers s peer rest) := by
  have hnot : s.drain = .notStarted := h.notStarted.mpr (Or.inl hphase)
  have hdrain : s.drained = [] ∧ s.hints = [] ∧ s.lost = [] := by
    simpa [DrainOk, hnot] using h.drainOk
  have hsucc : (s.tally.add (outcome peer = .success)) =
      ⟨1 + successes outcome (s.received ++ [peer]), failures outcome (s.received ++ [peer])⟩ := by
    have h1 := h.successes_eq
    have h2 := h.failures_eq
    by_cases hok : outcome peer = .success <;>
      simp [Tally.add, hok, successes, failures] at h1 h2 ⊢ <;> omega
  have hlen : (s.received ++ [peer]).length ≤ peers.length := by
    have := h.length_le
    simp only [hchannel, List.length_cons, List.length_append, List.length_nil] at this ⊢
    omega
  have hverdict := verdict_next needed outcome hlen (by simp)
  rw [← hsucc] at hverdict
  obtain ⟨hundecided, hpeers⟩ := h.waiting hphase
  refine ⟨?_, ?_, congrArg Tally.successes hsucc, congrArg Tally.failures hsucc, ?_, ?_, ?_, ?_,
    ?_, ?_⟩
  · have := h.perm
    simpa [FanOut.take, hdrain.1, hchannel] using this
  · simp only [FanOut.take, h.unavailable_eq, note_unavailableOf]
  · -- A proper part of the results is one the loop went on after.
    intro q hq hne
    rcases List.prefix_concat_iff.mp hq with rfl | hq
    · exact absurd rfl hne
    · by_cases hall : q = s.received
      · exact hall ▸ hundecided
      · exact h.earlier q hq hall
  · intro hwait
    rcases hverdict with ⟨-, hopen⟩ | ⟨exit, hexit, -⟩
    · exact ⟨hopen, hpeers⟩
    · exact absurd (hexit.symm.trans hwait) (by simp)
  · intro exit hexit
    simp only [FanOut.take] at hexit ⊢
    rcases hverdict with ⟨hwait, -⟩ | ⟨exit', hexit', hok⟩
    · rw [hwait] at hexit
      cases hexit
    · rw [hexit'] at hexit
      cases hexit
      exact hok
  · refine iff_of_true hnot ?_
    rcases hverdict with ⟨hwait, -⟩ | ⟨exit, hexit, -⟩
    · exact Or.inl hwait
    · exact Or.inr ⟨exit, hexit⟩
  · simpa [DrainOk, FanOut.take, hnot] using hdrain
  · refine iff_of_false (fun hr => ?_) ?_
    · have := h.restored_iff.mp hr
      rw [hphase] at this
      cases this
    · rcases hverdict with ⟨hwait, -⟩ | ⟨exit, hexit, -⟩
      · exact fun hr => by cases hwait.symm.trans hr
      · exact fun hr => by cases hexit.symm.trans hr

theorem Inv.decided {s : FanOut} (h : Inv needed outcome peers s) {exit : Exit}
    (hphase : s.phase = .handing exit) :
    Inv needed outcome peers (FanOut.decided peers s exit) := by
  have hnot : s.drain = .notStarted := h.notStarted.mpr (Or.inr ⟨exit, hphase⟩)
  have hdrain : s.drained = [] ∧ s.hints = [] ∧ s.lost = [] := by
    simpa [DrainOk, hnot] using h.drainOk
  have hexit : (FanOut.decided peers s exit).phase.exit = some exit := by
    cases exit <;> rfl
  refine ⟨h.perm, h.unavailable_eq, h.successes_eq, h.failures_eq, h.earlier, ?_, ?_, ?_, ?_, ?_⟩
  · intro hwait
    cases exit <;> cases hwait
  · intro exit' he
    obtain rfl : exit = exit' := Option.some.inj (hexit.symm.trans he)
    exact h.exitOk exit (by rw [hphase]; rfl)
  · refine iff_of_false ?_ ?_
    · simp only [FanOut.decided]
      split_ifs <;> simp
    · cases exit <;> simp [FanOut.decided]
  · by_cases hclosing : s.closing = true
    · simp [DrainOk, FanOut.decided, hclosing, hdrain]
    · have hlen := h.length_le
      have hkept : exit ≠ .impossible ↔ (FanOut.decided peers s exit).Kept := by
        rw [Kept, hexit]
        simp
      simp only [DrainOk, FanOut.decided, hclosing, hdrain, h.unavailable_eq]
      exact ⟨by simp; omega, by simp, decide_eq_true_iff.trans hkept, trivial, trivial⟩
  · refine iff_of_false (fun hr => ?_) ?_
    · have := h.restored_iff.mp hr
      rw [hphase] at this
      cases this
    · cases exit <;> simp [FanOut.decided]

theorem Inv.restore {s : FanOut} (h : Inv needed outcome peers s) (hphase : s.phase = .restoring) :
    Inv needed outcome peers { s with phase := .returned .impossible, restored := true } := by
  have hkept : ({ s with phase := .returned .impossible, restored := true } : FanOut).Kept ↔
      s.Kept := by
    simp [Kept, hphase, CallPhase.exit]
  refine { h with
    waiting := by simp
    exitOk := fun exit he => h.exitOk exit (by rw [hphase]; exact he)
    notStarted := ?_
    drainOk := ?_
    restored_iff := by simp }
  · have := h.notStarted
    simpa [hphase] using this
  · have := h.drainOk
    simp only [DrainOk, hkept] at this ⊢
    exact this

/-- The drain goes on : the call itself is as it was. -/
theorem Inv.setDrain {s : FanOut} (h : Inv needed outcome peers s) {t : FanOut}
    (hstarted : s.drain ≠ .notStarted) (hstill : t.drain ≠ .notStarted)
    (hreceived : t.received = s.received) (hphase : t.phase = s.phase) (htally : t.tally = s.tally)
    (hunavailable : t.unavailable = s.unavailable) (hrestored : t.restored = s.restored)
    (hperm : (t.received ++ t.drained ++ (t.channel ++ t.sending)).Perm peers)
    (hdrain : DrainOk outcome peers t) : Inv needed outcome peers t where
  perm := hperm
  unavailable_eq := by rw [hunavailable, hreceived, h.unavailable_eq]
  successes_eq := by rw [htally, hreceived, h.successes_eq]
  failures_eq := by rw [htally, hreceived, h.failures_eq]
  earlier := by rw [hreceived]; exact h.earlier
  waiting := by rw [hreceived, hphase]; exact h.waiting
  exitOk := by rw [hreceived, hphase]; exact h.exitOk
  notStarted := by
    rw [hphase, ← h.notStarted]
    exact iff_of_false hstill hstarted
  drainOk := hdrain
  restored_iff := by rw [hrestored, hphase]; exact h.restored_iff

theorem Inv.drainTake {s : FanOut} (h : Inv needed outcome peers s) {remaining : Nat}
    {unavailable : List String} {keep : Bool} {peer : String} {rest : List String}
    (hdrain : s.drain = .draining (remaining + 1) unavailable keep)
    (hchannel : s.channel = peer :: rest) : Inv needed outcome peers { s with
      channel := rest, drained := s.drained ++ [peer]
      drain := .draining remaining (note outcome unavailable peer) keep } := by
  have hok := h.drainOk
  simp only [DrainOk, hdrain] at hok
  obtain ⟨hlen, rfl, hkept, hhints, hlost⟩ := hok
  refine h.setDrain (by simp [hdrain]) (by simp) rfl rfl rfl rfl rfl ?_ ?_
  · have := h.perm
    simpa [hchannel] using this
  · refine ⟨by simp; omega, ?_, hkept, hhints, hlost⟩
    rw [note_unavailableOf, List.append_assoc]

theorem Inv.drainEnd {s : FanOut} (h : Inv needed outcome peers s) {unavailable : List String}
    {keep : Bool} (hdrain : s.drain = .draining 0 unavailable keep) : Inv needed outcome peers
      { s with drain := if keep then .adding unavailable else .finished } := by
  have hok := h.drainOk
  simp only [DrainOk, hdrain] at hok
  obtain ⟨hlen, rfl, hkept, hhints, hlost⟩ := hok
  refine h.setDrain (by simp [hdrain]) (by split_ifs <;> simp) rfl rfl rfl rfl rfl h.perm ?_
  cases keep with
  | true => exact ⟨hlen, hkept.mp rfl, by simp [hhints, hlost]⟩
  | false =>
    have hgone : ¬s.Kept := fun hk => Bool.false_ne_true (hkept.mpr hk)
    exact ⟨hlen, fun hk => absurd hk hgone, fun _ => ⟨hhints, hlost⟩⟩

/-- The next hint is stored or lost. -/
theorem Inv.addHint {s : FanOut} (h : Inv needed outcome peers s) {peer : String}
    {todo hints lost : List String} (hdrain : s.drain = .adding (peer :: todo))
    (hmoved : (hints ++ lost).Perm (peer :: (s.hints ++ s.lost))) : Inv needed outcome peers
      { s with drain := .adding todo, hints := hints, lost := lost } := by
  have hok := h.drainOk
  simp only [DrainOk, hdrain] at hok
  obtain ⟨hlen, hkept, hperm⟩ := hok
  refine h.setDrain (by simp [hdrain]) (by simp) rfl rfl rfl rfl rfl h.perm ⟨hlen, hkept, ?_⟩
  exact (hmoved.append_right todo).trans (List.perm_middle.symm.trans hperm)

theorem Inv.addEnd {s : FanOut} (h : Inv needed outcome peers s) (hdrain : s.drain = .adding []) :
    Inv needed outcome peers { s with drain := .finished } := by
  have hok := h.drainOk
  simp only [DrainOk, hdrain, List.append_nil] at hok
  obtain ⟨hlen, hkept, hperm⟩ := hok
  exact h.setDrain (by simp [hdrain]) (by simp) rfl rfl rfl rfl rfl h.perm
    ⟨hlen, fun _ => hperm, fun hgone => absurd hkept hgone⟩

theorem Inv.step {s t : FanOut} (h : Inv needed outcome peers s)
    (hstep : Step needed outcome peers s t) : Inv needed outcome peers t := by
  cases hstep with
  | send peer hpeer => exact h.send hpeer
  | take hphase hchannel => exact h.take hphase hchannel
  | decided hphase => exact h.decided hphase
  | restore hphase => exact h.restore hphase
  | drainTake hdrain hchannel => exact h.drainTake hdrain hchannel
  | drainEnd hdrain => exact h.drainEnd hdrain
  | addHint hdrain => exact h.addHint hdrain (by simp)
  | loseHint hdrain =>
    refine h.addHint hdrain ?_
    rw [← List.append_assoc]
    exact List.perm_append_singleton _ _
  | addEnd hdrain => exact h.addEnd hdrain

theorem Inv.cancel {s : FanOut} (h : Inv needed outcome peers s) (hphase : s.phase = .waiting) :
    Inv needed outcome peers { s with phase := .handing .canceled } := by
  have hnot : s.drain = .notStarted := h.notStarted.mpr (Or.inl hphase)
  refine { h with
    waiting := by simp
    exitOk := ?_
    notStarted := iff_of_true hnot (Or.inr ⟨_, rfl⟩)
    drainOk := ?_
    restored_iff := ?_ }
  · rintro exit ⟨⟩
    exact h.waiting hphase
  · have := h.drainOk
    simpa [DrainOk, hnot] using this
  · have := h.restored_iff
    simpa [hphase] using this

theorem Inv.beginClose {s : FanOut} (h : Inv needed outcome peers s) :
    Inv needed outcome peers { s with closing := true } := by
  refine { h with drainOk := ?_ }
  have := h.drainOk
  unfold DrainOk at this ⊢
  split at this <;> simp_all [Kept]

theorem inv_of_reach {s : FanOut} (hreach : Reach needed outcome peers s) :
    Inv needed outcome peers s := by
  induction hreach with
  | start => exact inv_start
  | step _ hstep ih => exact ih.step hstep
  | cancel _ hphase ih => exact ih.cancel hphase
  | beginClose _ ih => exact ih.beginClose

/-! ## Every run comes to rest -/

def CallPhase.rank : CallPhase → Nat
  | .waiting => 3
  | .handing _ => 2
  | .restoring => 1
  | .returned _ => 0

theorem CallPhase.rank_ofVerdict_le (verdict : Verdict) :
    (CallPhase.ofVerdict verdict).rank ≤ CallPhase.waiting.rank := by
  cases verdict <;> simp [CallPhase.ofVerdict, CallPhase.rank]

/-- A draining peer counts twice : it may become one more hint. -/
def DrainPhase.rank (total : Nat) : DrainPhase → Nat
  | .notStarted => 2 * total + 3
  | .refused => 0
  | .draining remaining unavailable _ => 2 * remaining + unavailable.length + 2
  | .adding todo => todo.length + 1
  | .finished => 0

/-- What is left to do. -/
def work (peers : List String) (s : FanOut) : Nat :=
  2 * s.sending.length + s.channel.length + s.phase.rank + s.drain.rank peers.length

theorem work_lt_of_step {s t : FanOut} (h : Inv needed outcome peers s)
    (hstep : Step needed outcome peers s t) : work peers t < work peers s := by
  have hlen := h.length_le
  cases hstep with
  | send peer hpeer =>
    have := List.length_erase_of_mem hpeer
    have := List.length_pos_of_mem hpeer
    simp only [work, List.length_append, List.length_singleton]
    omega
  | take hphase hchannel =>
    simp only [work, FanOut.take, hphase, hchannel, List.length_cons]
    exact Nat.add_lt_add_right
      (Nat.add_lt_add_of_lt_of_le (by omega) (CallPhase.rank_ofVerdict_le _)) _
  | decided hphase =>
    have hnot : s.drain = .notStarted := h.notStarted.mpr (Or.inr ⟨_, hphase⟩)
    have hle : s.unavailable.length ≤ s.received.length := by
      rw [h.unavailable_eq]
      exact List.length_filter_le _ _
    simp only [work, FanOut.decided, hphase, hnot, CallPhase.rank, DrainPhase.rank]
    split_ifs <;> dsimp only <;> omega
  | restore hphase => simp [work, hphase, CallPhase.rank]
  | @drainTake _ unavailable _ peer _ hdrain hchannel =>
    have hle : (note outcome unavailable peer).length ≤ unavailable.length + 1 := by
      unfold note
      split_ifs <;> simp
    simp only [work, hdrain, hchannel, DrainPhase.rank, List.length_cons]
    omega
  | @drainEnd unavailable keep hdrain =>
    cases keep <;> simp [work, hdrain, DrainPhase.rank]
  | addHint hdrain | loseHint hdrain | addEnd hdrain => simp [work, hdrain, DrainPhase.rank]

/-- A step that can be taken can be taken without losing a hint. -/
theorem exists_step_keeping {s : FanOut} (h : ¬Quiet needed outcome peers s) :
    ∃ t, Step needed outcome peers s t ∧ t.lost = s.lost := by
  simp only [Quiet, not_forall, not_not] at h
  obtain ⟨t, hstep⟩ := h
  cases hstep with
  | loseHint hdrain => exact ⟨_, .addHint hdrain, rfl⟩
  | send peer hpeer => exact ⟨_, .send peer hpeer, rfl⟩
  | take hphase hchannel => exact ⟨_, .take hphase hchannel, rfl⟩
  | decided hphase => exact ⟨_, .decided hphase, rfl⟩
  | restore hphase => exact ⟨_, .restore hphase, rfl⟩
  | drainTake hdrain hchannel => exact ⟨_, .drainTake hdrain hchannel, rfl⟩
  | drainEnd hdrain => exact ⟨_, .drainEnd hdrain, rfl⟩
  | addHint hdrain => exact ⟨_, .addHint hdrain, rfl⟩
  | addEnd hdrain => exact ⟨_, .addEnd hdrain, rfl⟩

theorem exists_quiet_keeping {s : FanOut} (h : Inv needed outcome peers s) :
    ∃ t, Relation.ReflTransGen (Step needed outcome peers) s t ∧
      Quiet needed outcome peers t ∧ t.lost = s.lost := by
  induction hwork : work peers s using Nat.strong_induction_on generalizing s with
  | _ n ih =>
    by_cases hquiet : Quiet needed outcome peers s
    · exact ⟨s, .refl, hquiet, rfl⟩
    · obtain ⟨t, hstep, hlost⟩ := exists_step_keeping hquiet
      obtain ⟨u, hrun, hu, hkept⟩ := ih _ (hwork ▸ work_lt_of_step h hstep) (h.step hstep) rfl
      exact ⟨u, .head hstep hrun, hu, hkept.trans hlost⟩

theorem exists_quiet {s : FanOut} (h : Inv needed outcome peers s) :
    ∃ t, Relation.ReflTransGen (Step needed outcome peers) s t ∧ Quiet needed outcome peers t := by
  obtain ⟨t, hrun, hquiet, -⟩ := exists_quiet_keeping h
  exact ⟨t, hrun, hquiet⟩

/-- At rest every goroutine has sent, the call has returned and the drain is over. -/
theorem Inv.quiet {s : FanOut} (h : Inv needed outcome peers s)
    (hquiet : Quiet needed outcome peers s) : s.sending = [] ∧
      (∃ exit, s.phase = .returned exit) ∧ (s.drain = .refused ∨ s.drain = .finished) := by
  have hsent : s.sending = [] := by
    by_contra hne
    obtain ⟨peer, hpeer⟩ := List.exists_mem_of_ne_nil _ hne
    exact hquiet _ (.send peer hpeer)
  have hlen := h.length_le
  rw [hsent, List.length_nil] at hlen
  have hreturned : ∃ exit, s.phase = .returned exit := by
    cases hphase : s.phase with
    | returned exit => exact ⟨exit, rfl⟩
    | handing => exact absurd (.decided hphase) (hquiet _)
    | restoring => exact absurd (.restore hphase) (hquiet _)
    | waiting =>
      -- With every result received the loop would have ended.
      obtain ⟨⟨hlow, hhigh⟩, hpeers⟩ := h.waiting hphase
      have hdrained : s.drained = [] := by
        have := h.drainOk
        simp only [DrainOk, h.notStarted.mpr (Or.inl hphase)] at this
        exact this.1
      have hempty : s.channel = [] := by
        cases hchannel : s.channel with
        | nil => rfl
        | cons => exact absurd (.take hphase hchannel) (hquiet _)
      have hsum := successes_add_failures outcome s.received
      have hpos := List.length_pos_of_ne_nil hpeers
      simp only [hdrained, hempty, List.length_nil] at hlen
      have := hhigh (List.ne_nil_of_length_pos (by omega))
      omega
  refine ⟨hsent, hreturned, ?_⟩
  obtain ⟨exit, hexit⟩ := hreturned
  cases hdrain : s.drain with
  | refused => exact Or.inl rfl
  | finished => exact Or.inr rfl
  | notStarted =>
    have := h.notStarted.mp hdrain
    simp [hexit] at this
  | adding todo =>
    cases todo with
    | nil => exact absurd (.addEnd hdrain) (hquiet _)
    | cons => exact absurd (.addHint hdrain) (hquiet _)
  | draining remaining =>
    cases remaining with
    | zero => exact absurd (.drainEnd hdrain) (hquiet _)
    | succ =>
      have hok := h.drainOk
      simp only [DrainOk, hdrain] at hok
      cases hchannel : s.channel with
      | cons => exact absurd (.drainTake hdrain hchannel) (hquiet _)
      | nil =>
        rw [hchannel, List.length_nil] at hlen
        omega

theorem Inv.hints_of_impossible {s : FanOut} (h : Inv needed outcome peers s)
    (hexit : s.phase.exit = some .impossible) : s.hints = [] := by
  have hgone : ¬s.Kept := fun hk => hk hexit
  have hok := h.drainOk
  unfold DrainOk at hok
  split at hok
  · exact hok.2.1
  · exact hok.2.2.1
  · exact hok.2.2.2.1
  · exact absurd hok.2.1 hgone
  · exact (hok.2.2 hgone).1

/-- At rest, unless `Close` has begun, every result was taken, and the peers with a hint are
the unavailable ones. -/
theorem Inv.taken {s : FanOut} (h : Inv needed outcome peers s)
    (hquiet : Quiet needed outcome peers s) (hopen : s.closing = false) :
    (s.received ++ s.drained).Perm peers ∧
      (s.phase.exit ≠ some .impossible → s.lost = [] →
        s.hints.Perm (unavailableOf outcome peers)) := by
  have hlen := h.length_le
  obtain ⟨hsent, -, hover⟩ := h.quiet hquiet
  have hok := h.drainOk
  rcases hover with hrefused | hfinished
  · simp only [DrainOk, hrefused] at hok
    exact absurd hok.1 (by simp [hopen])
  · simp only [DrainOk, hfinished] at hok
    obtain ⟨htaken, hstored, -⟩ := hok
    have hempty : s.channel = [] := List.eq_nil_of_length_eq_zero (by omega)
    have hperm : (s.received ++ s.drained).Perm peers := by
      simpa [hempty, hsent] using h.perm
    refine ⟨hperm, fun hkept hlost => ?_⟩
    have hhints := hstored hkept
    rw [hlost, List.append_nil] at hhints
    exact hhints.trans (hperm.filter _)

/-- In every state of every run : the loop's exit is told by the results it received, taken
one at a time until the first that decides; the local write is rolled back exactly when the
quorum is out of reach; every result is in one place, and after a rollback there is no hint.
Every run comes to rest, and at rest, unless `Close` has begun, all results were taken by
the loop or by the drain, and the peers with a hint are the unavailable ones. -/
theorem accounting {s : FanOut} (hreach : Reach needed outcome peers s) :
    (∀ exit, s.phase.exit = some exit →
      (exit = .reached ↔ needed ≤ 1 + successes outcome s.received) ∧
      (exit = .impossible ↔ (s.received ≠ [] ∨ peers = []) ∧
        peers.length + 1 < needed + failures outcome s.received)) ∧
    (∀ q, q <+: s.received → q ≠ s.received → Undecided needed outcome peers q) ∧
    (s.restored = true ↔ s.phase = .returned .impossible) ∧
    (s.received ++ s.drained ++ (s.channel ++ s.sending)).Perm peers ∧
    (s.phase.exit = some .impossible → s.hints = []) ∧
    (∃ t, Relation.ReflTransGen (Step needed outcome peers) s t ∧
      Quiet needed outcome peers t) ∧
    (Quiet needed outcome peers s → (∃ exit, s.phase = .returned exit) ∧
      (s.closing = false → (s.received ++ s.drained).Perm peers ∧
        (s.phase.exit ≠ some .impossible → s.lost = [] →
          s.hints.Perm (unavailableOf outcome peers)))) := by
  have h := inv_of_reach hreach
  have hlen := h.length_le
  refine ⟨fun exit he => ⟨reached_iff_of_exitOk (by omega) (h.exitOk exit he),
    impossible_iff_of_exitOk (by omega) (h.exitOk exit he)⟩, h.earlier, h.restored_iff, h.perm,
    h.hints_of_impossible, exists_quiet h, fun hquiet => ⟨(h.quiet hquiet).2.1, h.taken hquiet⟩⟩

/-- Two peers, W of two : one answers late, the other is unavailable and gets its hint. -/
theorem accounting_late_unavailable : ∃ s : FanOut,
    Reach 2 (fun p => if p = "B" then .success else .unavailable) ["B", "C"] s ∧
      s.phase = .returned .reached ∧ s.hints = ["C"] ∧
      (s.received ++ s.drained ++ (s.channel ++ s.sending)).Perm ["B", "C"] := by
  let outcome : String → ReplicaOutcome := fun p => if p = "B" then .success else .unavailable
  have h0 : Reach 2 outcome ["B", "C"] _ := .start
  have h1 := h0.step (.send "B" (by decide))
  have h2 := h1.step (.take rfl rfl)
  have h3 := h2.step (.decided rfl)
  have h4 := h3.step (.send "C" (by decide))
  have h5 := h4.step (.drainTake rfl rfl)
  have h6 := h5.step (.drainEnd rfl)
  have h7 := h6.step (.addHint rfl)
  exact ⟨_, h7, rfl, rfl, (accounting h7).2.2.2.1⟩

/-- `Close` began before the loop ended : the drain does not start, and the result of the
other replica is left in the channel. -/
theorem result_left_after_close : ∃ s : FanOut,
    Reach 1 (fun _ => .success) ["B"] s ∧ Quiet 1 (fun _ => .success) ["B"] s ∧
      s.channel = ["B"] ∧ "B" ∉ s.received ++ s.drained := by
  have h0 : Reach 1 (fun _ => .success) ["B"] _ := .start
  have h1 := h0.beginClose
  have h2 := h1.step (.decided rfl)
  have h3 := h2.step (.send "B" (by decide))
  refine ⟨_, h3, ?_, rfl, by decide⟩
  intro t hstep
  cases hstep with
  | send peer hpeer => exact absurd (show peer ∈ ([] : List String) from hpeer) List.not_mem_nil
  | take hphase | decided hphase | restore hphase => cases hphase
  | drainTake hdrain | drainEnd hdrain | addHint hdrain | loseHint hdrain | addEnd hdrain =>
    cases hdrain

/-! ## Runs that nobody interrupts -/

/-- Neither `Close` nor the caller's cancellation has come. -/
def Uninterrupted (s : FanOut) : Prop :=
  s.closing = false ∧ s.phase.exit ≠ some .canceled

theorem CallPhase.exit_ofVerdict_ne (verdict : Verdict) :
    (CallPhase.ofVerdict verdict).exit ≠ some .canceled := by
  cases verdict <;> simp [CallPhase.ofVerdict, CallPhase.exit]

theorem Uninterrupted.step {s t : FanOut} (h : Uninterrupted s)
    (hstep : Step needed outcome peers s t) : Uninterrupted t := by
  cases hstep with
  | take _ _ => exact ⟨h.1, CallPhase.exit_ofVerdict_ne _⟩
  | @decided exit hphase =>
    have hexit : exit ≠ .canceled := by simpa [hphase, CallPhase.exit] using h.2
    refine ⟨h.1, ?_⟩
    simp only [FanOut.decided]
    split_ifs <;> simp [CallPhase.exit, hexit]
  | restore => exact ⟨h.1, by simp [CallPhase.exit]⟩
  | send | drainTake | drainEnd | addHint | loseHint | addEnd => exact h

theorem uninterrupted_of_run {s : FanOut}
    (hrun : Relation.ReflTransGen (Step needed outcome peers) (start needed peers) s) :
    Inv needed outcome peers s ∧ Uninterrupted s := by
  induction hrun with
  | refl => exact ⟨inv_start, rfl, CallPhase.exit_ofVerdict_ne _⟩
  | tail _ hstep ih => exact ⟨ih.1.step hstep, ih.2.step hstep⟩

/-- The call returns nil exactly when W replicas succeed, in whatever order they answer. -/
theorem reached_iff_of_quiet {s : FanOut}
    (hrun : Relation.ReflTransGen (Step needed outcome peers) (start needed peers) s)
    (hquiet : Quiet needed outcome peers s) :
    s.phase = .returned .reached ↔ needed ≤ 1 + successes outcome peers := by
  obtain ⟨h, hopen, hexit⟩ := uninterrupted_of_run hrun
  obtain ⟨exit, hphase⟩ := (h.quiet hquiet).2.1
  have hperm := (h.taken hquiet hopen).1
  -- The results the loop received are some of all the results.
  have hsub : s.received.Subperm peers := (List.sublist_append_left ..).subperm.trans hperm.subperm
  have hsucc : successes outcome s.received ≤ successes outcome peers := hsub.countP_le _
  have hfail : failures outcome s.received ≤ failures outcome peers := hsub.countP_le _
  have hsum := successes_add_failures outcome peers
  have hok := h.exitOk exit (by rw [hphase]; rfl)
  rw [hphase]
  cases exit with
  | reached =>
    have : needed ≤ 1 + successes outcome s.received := hok
    simp only [true_iff]
    omega
  | impossible =>
    have := hok.2
    simp only [CallPhase.returned.injEq, reduceCtorEq, false_iff]
    omega
  | canceled => exact absurd (by rw [hphase]; rfl) hexit

end FanOut

end DistributedKV
