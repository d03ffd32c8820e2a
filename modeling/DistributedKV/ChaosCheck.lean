import DistributedKV.Topology

/-!
# Checking a failure test

A session leaves the timeline of its faults, a record of every request and a read-back of the
keys it wrote. `check` compares each request with the prediction for the moment it was sent,
and each key's latest read-back with its acknowledged writes, and counts what it finds in a
`Report`.

The counters of a test's report are the numbers of its requests in each bucket
(`countOf_compareRecords`), and the read-back is judged key by key (`passed_foldl_judge`), with
each key's entry the latest one (`isLatest_latest`). So `passing_check` can say what a report
that is OK rules out, over records and entries in any order. A test's windows are computed from
its events : `timelineOf_parse`.
-/

namespace DistributedKV

namespace Chaos

/-! ## Records -/

/-- What a request got, as the client saw it. -/
inductive Result
  | ok
  | failed
  | unknown
  | notFound
  | mismatch
  | dropped
  | other (name : String)
deriving DecidableEq

/-- A request, with its times in Unix nanoseconds. -/
structure Request where
  test : String
  op : Op
  key : String
  /-- A pod ID, or a connection through the Service. -/
  target : String
  start : Int64
  end_ : Int64
  result : Result

/-- One key's read-back. -/
structure ReadbackEntry where
  key : String
  time : Int64
  result : Result
  owners : List String
  holders : List String

/-- Whether the request is a Put that was acknowledged. -/
def Request.acked (r : Request) : Bool :=
  r.op = .put && r.result = .ok

/-! ## Times -/

/-- A `time.Time`, as nanoseconds from the Unix epoch. -/
abbrev Time := Int

/-- The zero `time.Time` : the first instant of year 1. -/
def zeroTime : Time := -62135596800 * 10 ^ 9

/-- `UnixNano` wraps outside the years an `int64` can hold. -/
def unixNano (t : Time) : Int64 := Int64.ofInt t

def Time.add (t : Time) (d : Int64) : Time := t + d.toInt

/-- A closed interval; one that starts at the zero time is none. -/
structure Window where
  from_ : Time
  to_ : Time

def Window.overlaps (w : Window) (r : Request) : Bool :=
  w.from_ ≠ zeroTime && r.start ≤ unixNano w.to_ && r.end_ ≥ unixNano w.from_

/-! ## Timelines -/

inductive EventKind
  | inject
  | mark
  | heal
  | other (name : String)
deriving DecidableEq

structure Event where
  time : Time
  test : String
  event : EventKind
  /-- On inject. -/
  fault : String
  /-- On mark. -/
  mark : String

/-- What `Check` compares. -/
structure CheckConfig where
  topology : Topology
  events : List Event
  records : List Request
  readback : List ReadbackEntry
  converged : Bool
  tolerance : Int64
  detection : Int64
  recovery : Int64
  examples : Int

/-- The defaults of `Check`. -/
def CheckConfig.withDefaults (cfg : CheckConfig) : CheckConfig :=
  { cfg with
    detection := if cfg.detection = 0 then cfg.topology.timing.detection else cfg.detection
    recovery := if cfg.recovery = 0 then cfg.topology.timing.recovery else cfg.recovery
    examples := if cfg.examples = 0 then 5 else cfg.examples }

/-- A test's events, as they are collected. -/
structure Draft where
  fault : Option (Fault × Time)
  heal : Time
  marks : List Event

/-- A test's fault and windows. -/
structure Timeline where
  fault : Fault
  inject : Time
  heal : Time
  in_ : Window
  out : Window
  /-- In time order. -/
  marks : List Event
  /-- When each of a down fault's pods answered again. -/
  back : List (String × Time)
  backs : List Window

def markServing : String := "serving"

/-- The pod of a `serving-` mark. -/
def servingPod (mark : String) : Option String :=
  if (markServing ++ "-").toList.isPrefixOf mark.toList then
    some (String.ofList (mark.toList.drop (markServing ++ "-").length))
  else none

section Parsing

variable (quote : String → String) (cfg : CheckConfig)

/-- A test's draft after one more of its events. -/
def Draft.add (tl : Draft) (e : Event) : Except String Draft :=
  match e.event with
  | .inject =>
    if tl.fault.isSome then .error ("test " ++ e.test ++ ": injected twice")
    else match parseFault quote e.fault cfg.topology with
    | .error err => .error ("test " ++ e.test ++ ": " ++ err)
    | .ok f => .ok { tl with fault := some (f, e.time) }
  | .mark =>
    if e.mark = "" then .error ("test " ++ e.test ++ ": a mark without a name")
    else .ok { tl with marks := tl.marks ++ [e] }
  | .heal =>
    if tl.heal ≠ zeroTime then .error ("test " ++ e.test ++ ": healed twice")
    else .ok { tl with heal := e.time }
  | .other name =>
    .error ("test " ++ e.test ++ ": event " ++ quote name ++ ": want inject, mark or heal")

/-- One event of the first loop. -/
def addEvent (timelines : Std.ExtTreeMap String Draft) (e : Event) :
    Except String (Std.ExtTreeMap String Draft) :=
  match Draft.add quote cfg (timelines[e.test]?.getD ⟨none, zeroTime, []⟩) e with
  | .error err => .error err
  | .ok tl => .ok (timelines.insert e.test tl)

/-- The loop over the marks that a pod serves again : the first of each pod counts. -/
def servingPods (name : String) (fault : Fault) :
    List (String × Time) → List Event → Except String (List (String × Time))
  | back, [] => .ok back
  | back, m :: marks =>
    match servingPod m.mark with
    | none => servingPods name fault back marks
    | some pod =>
      if fault.kind ≠ .down ∨ pod ∉ fault.pods then
        .error ("test " ++ name ++ ": mark " ++ m.mark ++ ": " ++ pod ++ " is not down in " ++
          fault.text)
      else if pod ∈ back.map Prod.fst then servingPods name fault back marks
      else servingPods name fault (back ++ [(pod, m.time)]) marks

/-- When the fault ends for the other nodes : its pods answer again, or it heals. -/
def servingFrom (heal : Time) (marks : List Event) : Time :=
  marks.foldl (fun t m => if m.mark = markServing ∧ m.time < t then m.time else t) heal

/-- One timeline of the second loop. -/
def finish (name : String) (tl : Draft) : Except String Timeline :=
  match tl.fault with
  | none => .error ("test " ++ name ++ ": marked or healed but never injected")
  | some (fault, inject) =>
    let marks := tl.marks.insertionSort (·.time ≤ ·.time)
    if tl.heal ≠ zeroTime ∧ tl.heal < inject then
      .error ("test " ++ name ++ ": healed before it was injected")
    else
      match servingPods name fault [] marks with
      | .error err => .error err
      | .ok back =>
        .ok
          { fault := fault, inject := inject, heal := tl.heal
            in_ := ⟨Time.add inject (-cfg.tolerance),
              Time.add inject (cfg.detection + cfg.tolerance)⟩
            out := if tl.heal = zeroTime then ⟨zeroTime, zeroTime⟩
              else ⟨Time.add (servingFrom tl.heal marks) (-cfg.tolerance),
                Time.add tl.heal (cfg.recovery + cfg.tolerance)⟩
            marks := marks, back := back
            backs := back.map fun b => ⟨Time.add b.2 (-cfg.tolerance),
              Time.add b.2 (cfg.recovery + cfg.tolerance)⟩ }

/-- The second loop. The source's goes over a map, in any order. -/
def finishAll : List (String × Draft) → Except String (List (String × Timeline))
  | [] => .ok []
  | (name, tl) :: rest =>
    match finish cfg name tl with
    | .error err => .error err
    | .ok timeline =>
      match finishAll rest with
      | .error err => .error err
      | .ok timelines => .ok ((name, timeline) :: timelines)

/-- The timelines by test. -/
def parseTimelines : Except String (List (String × Timeline)) :=
  match cfg.events.foldlM (addEvent quote cfg) ∅ with
  | .error err => .error err
  | .ok drafts => finishAll cfg drafts.toList

end Parsing

/-- The fault for a request that starts at `start` : the pods still down. -/
def Timeline.faultAt (tl : Timeline) (start : Int64) : Fault :=
  if tl.back = [] then tl.fault
  else
    let down := tl.fault.pods.filter fun p =>
      match tl.back.lookup p with
      | none => true
      | some at_ => start < unixNano at_
    if down = [] then ⟨.none, []⟩ else ⟨.down, down⟩

inductive Phase
  | normal
  | fault
  | transition
deriving DecidableEq

def phaseOf (tl : Option Timeline) (r : Request) : Phase :=
  match tl with
  | none => .normal
  | some tl =>
    if tl.in_.overlaps r || tl.out.overlaps r || tl.backs.any (·.overlaps r) then .transition
    else if r.start > unixNano tl.inject ∧ (tl.heal = zeroTime ∨ r.end_ < unixNano tl.heal) then
      .fault
    else .normal

/-! ## Comparing requests -/

inductive Bucket
  | asPredicted
  | unexpectedSuccess
  | unexpectedFailure
  | serviceFailure
  | targetDownOK
  | staleRead
  | unjudgedRead
  | transition
  | unknowable
  | dropped
deriving DecidableEq

/-- The buckets that fail a check. -/
def violations : List Bucket := [.unexpectedSuccess, .unexpectedFailure, .staleRead]

def addAck (m : Std.ExtTreeMap String Int64) (r : Request) : Std.ExtTreeMap String Int64 :=
  if r.acked then
    match m[r.key]? with
    | none => m.insert r.key r.end_
    | some at_ => if r.end_ < at_ then m.insert r.key r.end_ else m
  else m

/-- The first acknowledgment of each key. -/
def ackedAt (records : List Request) : Std.ExtTreeMap String Int64 :=
  records.foldl addAck ∅

/-- The target, empty for a request through the Service. -/
def podTarget (t : Topology) (target : String) : String :=
  if (t.pod target).isSome then target else ""

def bucket (t : Topology) (tl : Option Timeline) (phase : Phase) (r : Request) (target : String)
    (acked : Std.ExtTreeMap String Int64) : Bucket :=
  let judged : Bucket :=
    if phase = .transition then .transition
    else
      let expect := match phase, tl with
        | .fault, some tl => t.expect (tl.faultAt r.start) r.op r.key target
        | _, _ => .ok
      let answered := r.result ≠ .failed ∧ r.result ≠ .unknown
      match expect with
      | .fail => if answered then .unexpectedSuccess else .asPredicted
      | .targetDown => if answered then .targetDownOK else .asPredicted
      | .unknowable => .unknowable
      | .ok =>
        if answered then .asPredicted
        else if target = "" then .serviceFailure else .unexpectedFailure
  if r.result = .dropped then .dropped
  else if r.op = .get ∧ (r.result = .notFound ∨ r.result = .mismatch) then
    if acked[r.key]?.any (· < r.start) then .staleRead
    else if r.result = .notFound then .unjudgedRead
    else judged
  else judged

/-- One test's comparison. -/
structure TestReport where
  test : String
  timeline : Option Timeline
  counts : Phase → Op → Result → Nat
  buckets : Bucket → Nat
  examples : Bucket → List Request
  hints : Int
  hintsUnknown : Nat
  hintsMaybe : Int
  underReplicated : Nat

def TestReport.new (test : String) (timeline : Option Timeline) : TestReport :=
  ⟨test, timeline, fun _ _ _ => 0, fun _ => 0, fun _ => [], 0, 0, 0, 0⟩

/-- The test reports, in order of first appearance, and the acknowledged writes predicted to
be left under-replicated. -/
structure Compared where
  tests : List TestReport
  expectedUnder : List String

/-- Replace the report of a test, or add it. -/
def setReport (tr : TestReport) : List TestReport → List TestReport
  | [] => [tr]
  | x :: rest => if x.test = tr.test then tr :: rest else x :: setReport tr rest

section Comparing

variable (cfg : CheckConfig) (timelines : List (String × Timeline))
  (acked : Std.ExtTreeMap String Int64)

/-- The bucket a record falls in. -/
def bucketOf (r : Request) : Bucket :=
  bucket cfg.topology (timelines.lookup r.test) (phaseOf (timelines.lookup r.test) r) r
    (podTarget cfg.topology r.target) acked

/-- The hints an acknowledged write should have created. -/
def TestReport.addHints (t : Topology) (tr : TestReport) (tl : Timeline) (phase : Phase)
    (r : Request) : TestReport :=
  let n := t.unreachable (tl.faultAt r.start) r.key (podTarget t r.target)
  match phase with
  | .normal => tr
  | .fault =>
    if n < 0 then { tr with hintsUnknown := tr.hintsUnknown + 1 }
    else { tr with hints := tr.hints + n }
  | .transition =>
    { tr with
      underReplicated :=
        if n ≠ 0 ∧ tl.in_.overlaps r then tr.underReplicated + 1 else tr.underReplicated
      hintsMaybe := if n > 0 then tr.hintsMaybe + n else tr.hintsMaybe }

/-- Whether the record is a write predicted to be left under-replicated. -/
def leavesUnder (r : Request) : Bool :=
  match timelines.lookup r.test with
  | none => false
  | some tl =>
    r.acked && phaseOf (some tl) r = .transition && tl.in_.overlaps r &&
      cfg.topology.unreachable (tl.faultAt r.start) r.key (podTarget cfg.topology r.target) ≠ 0

/-- Count the record in its phase and its bucket. -/
def TestReport.count (tr : TestReport) (r : Request) : TestReport :=
  let phase := phaseOf (timelines.lookup r.test) r
  let b := bucketOf cfg timelines acked r
  { tr with
    counts := fun p op res =>
      if p = phase ∧ op = r.op ∧ res = r.result then tr.counts p op res + 1 else tr.counts p op res
    buckets := fun x => if x = b then tr.buckets x + 1 else tr.buckets x
    examples := fun x =>
      if x = b ∧ (tr.examples x).length < cfg.examples ∧ b ≠ .asPredicted ∧ b ≠ .dropped then
        tr.examples x ++ [r]
      else tr.examples x }

/-- One record of `compareRecords`. -/
def compareRecord (s : Compared) (r : Request) : Compared :=
  let tl := timelines.lookup r.test
  let tr := (s.tests.find? (·.test = r.test)).getD (.new r.test tl)
  let hinted := match tl with
    | none => tr
    | some tl =>
      if r.acked then tr.addHints cfg.topology tl (phaseOf (some tl) r) r else tr
  ⟨setReport (hinted.count cfg timelines acked r) s.tests,
    if leavesUnder cfg timelines r then r.key :: s.expectedUnder else s.expectedUnder⟩

def compareRecords : Compared :=
  cfg.records.foldl (compareRecord cfg timelines acked) ⟨[], []⟩

end Comparing

/-! ## The read-back -/

/-- A check's result. -/
structure Report where
  tests : List TestReport
  acked : Nat
  lost : Nat
  notReadBack : Nat
  unreadable : Nat
  lostKeys : List String
  unackedPresent : Nat
  unackedAbsent : Nat
  copiesChecked : Nat
  underReplicated : Nat
  underReplicatedExpected : Nat
  unexpectedUnderReplicated : List String
  haveReadback : Bool
  converged : Bool

def maxListed : Nat := 50

def addEntry (m : Std.ExtTreeMap String ReadbackEntry) (e : ReadbackEntry) :
    Std.ExtTreeMap String ReadbackEntry :=
  match m[e.key]? with
  | none => m.insert e.key e
  | some l => if e.time ≥ l.time then m.insert e.key e else m

/-- Each key's latest entry; of two at one time, the later in the list. -/
def latest (readback : List ReadbackEntry) : Std.ExtTreeMap String ReadbackEntry :=
  readback.foldl addEntry ∅

/-- The copies of an acknowledged key. -/
def judgeCopies (expectedUnder : List String) (rep : Report) (k : String) (e : ReadbackEntry) :
    Report :=
  if e.owners.length = 0 then rep
  else
    let rep := { rep with copiesChecked := rep.copiesChecked + 1 }
    if e.holders.length ≥ e.owners.length then rep
    else
      let rep := { rep with underReplicated := rep.underReplicated + 1 }
      if k ∈ expectedUnder ∧ rep.converged = false then
        { rep with underReplicatedExpected := rep.underReplicatedExpected + 1 }
      else if rep.unexpectedUnderReplicated.length < maxListed then
        { rep with unexpectedUnderReplicated := rep.unexpectedUnderReplicated ++ [k] }
      else rep

/-- What the latest read-back of an acknowledged key found. -/
def judgeResult (rep : Report) (k : String) (e : ReadbackEntry) : Report :=
  if e.result = .notFound ∨ e.result = .mismatch then
    { rep with
      lost := rep.lost + 1
      lostKeys := if rep.lostKeys.length < maxListed then rep.lostKeys ++ [k] else rep.lostKeys }
  else if e.result ≠ .ok then { rep with unreadable := rep.unreadable + 1 }
  else rep

/-- One acknowledged key of `joinReadback`. -/
def judge (entries : Std.ExtTreeMap String ReadbackEntry) (expectedUnder : List String)
    (rep : Report) (k : String) : Report :=
  let rep := { rep with acked := rep.acked + 1 }
  match entries[k]? with
  | none => { rep with notReadBack := rep.notReadBack + 1 }
  | some e => judgeCopies expectedUnder (judgeResult rep k e) k e

/-- The keys whose Puts were never acknowledged. -/
def unackedKeys (records : List Request) (acked : Std.ExtTreeMap String Int64) : List String :=
  ((records.filter fun r => r.op = .put && acked[r.key]?.isNone &&
    (r.result = .failed || r.result = .unknown)).map Request.key).eraseDups

def joinReadback (cfg : CheckConfig) (acked : Std.ExtTreeMap String Int64)
    (expectedUnder : List String) (rep : Report) : Report :=
  let entries := latest cfg.readback
  let judged := acked.keys.foldl (judge entries expectedUnder) rep
  let unacked := unackedKeys cfg.records acked
  let found (res : Result) : Nat :=
    unacked.countP fun k => (entries[k]?.map ReadbackEntry.result) = some res
  { judged with
    unackedPresent := judged.unackedPresent + found .ok
    unackedAbsent := judged.unackedAbsent + found .notFound }

/-- `OK` : no violation, and the read-back found every acknowledged write. -/
def Report.ok (rep : Report) : Bool :=
  rep.tests.all (fun tr => violations.all fun b => tr.buckets b = 0) &&
    rep.lost = 0 && rep.notReadBack = 0 && rep.unreadable = 0 &&
    rep.unexpectedUnderReplicated.length = 0

/-- `Check`. -/
def check (quote : String → String) (config : CheckConfig) : Except String Report :=
  let cfg := config.withDefaults
  match parseTimelines quote cfg with
  | .error err => .error err
  | .ok timelines =>
    let acked := ackedAt cfg.records
    let compared := compareRecords cfg timelines acked
    let rep : Report :=
      ⟨compared.tests, 0, 0, 0, 0, [], 0, 0, 0, 0, 0, [], !cfg.readback.isEmpty, cfg.converged⟩
    .ok (if rep.haveReadback then joinReadback cfg acked compared.expectedUnder rep else rep)

/-! ## What the timelines are -/

section Timelines

variable (quote : String → String) (cfg : CheckConfig)

/-- What a draft says about the test's events so far. -/
structure DraftOf (events : List Event) (test : String) (d : Draft) : Prop where
  fault : ∀ f time, d.fault = some (f, time) → ∃ e ∈ events, e.test = test ∧ e.event = .inject ∧
    e.time = time ∧ parseFault quote e.fault cfg.topology = .ok f
  injected : ∀ e ∈ events, e.test = test → e.event = .inject → ∃ f, d.fault = some (f, e.time)
  heal : d.heal ≠ zeroTime → ∃ e ∈ events, e.test = test ∧ e.event = .heal ∧ e.time = d.heal
  healed : ∀ e ∈ events, e.test = test → e.event = .heal → e.time = d.heal ∨ e.time = zeroTime
  marks : d.marks = events.filter fun e => e.test = test ∧ e.event = .mark

variable {quote cfg} {events : List Event} {test : String} {d d' : Draft} {e : Event}

/-- An event of another test changes nothing. -/
theorem DraftOf.other (h : DraftOf quote cfg events test d) (hne : e.test ≠ test) :
    DraftOf quote cfg (events ++ [e]) test d where
  fault f time hf := (h.fault f time hf).imp fun _ hx => ⟨List.mem_append_left _ hx.1, hx.2⟩
  injected := List.forall_mem_append.mpr
    ⟨h.injected, List.forall_mem_singleton.mpr fun htest => absurd htest hne⟩
  heal hz := (h.heal hz).imp fun _ hx => ⟨List.mem_append_left _ hx.1, hx.2⟩
  healed := List.forall_mem_append.mpr
    ⟨h.healed, List.forall_mem_singleton.mpr fun htest => absurd htest hne⟩
  marks := by simp [h.marks, List.filter_append, hne]

theorem DraftOf.add (h : DraftOf quote cfg events e.test d) (hadd : d.add quote cfg e = .ok d') :
    DraftOf quote cfg (events ++ [e]) e.test d' := by
  have hlast : e ∈ events ++ [e] := by simp
  have hold : ∀ {P : Event → Prop}, (∃ x ∈ events, P x) → ∃ x ∈ events ++ [e], P x :=
    fun ⟨x, hx, hP⟩ => ⟨x, List.mem_append_left _ hx, hP⟩
  have hmem : ∀ {P : Event → Prop}, (∀ x ∈ events, P x) → P e → ∀ x ∈ events ++ [e], P x :=
    fun hall hnew => List.forall_mem_append.mpr ⟨hall, List.forall_mem_singleton.mpr hnew⟩
  unfold Draft.add at hadd
  split at hadd
  · next hkind =>
    split_ifs at hadd with hsome
    split at hadd
    · cases hadd
    · next f hparse =>
      obtain rfl := Except.ok.inj hadd
      have hnone : d.fault = none := by simpa using hsome
      refine ⟨fun f' time hf => ?_, hmem (fun x hx htest hx' => ?_) (fun _ _ => ⟨f, rfl⟩),
        fun hz => hold (h.heal hz), hmem h.healed (fun _ hh => by simp [hkind] at hh), ?_⟩
      · simp only [Option.some.injEq, Prod.mk.injEq] at hf
        obtain ⟨rfl, rfl⟩ := hf
        exact ⟨e, hlast, rfl, hkind, rfl, hparse⟩
      · obtain ⟨f', hf'⟩ := h.injected x hx htest hx'
        rw [hnone] at hf'
        cases hf'
      · simp [h.marks, List.filter_append, hkind]
  · next hkind =>
    split_ifs at hadd with hname
    obtain rfl := Except.ok.inj hadd
    refine ⟨fun f' time hf => hold (h.fault f' time hf),
      hmem h.injected (fun _ hi => by simp [hkind] at hi), fun hz => hold (h.heal hz),
      hmem h.healed (fun _ hh => by simp [hkind] at hh), ?_⟩
    simp [h.marks, List.filter_append, hkind]
  · next hkind =>
    split_ifs at hadd with hz
    obtain rfl := Except.ok.inj hadd
    have hzero : d.heal = zeroTime := by simpa using hz
    refine ⟨fun f' time hf => hold (h.fault f' time hf),
      hmem h.injected (fun _ hi => by simp [hkind] at hi), fun _ => ⟨e, hlast, rfl, hkind, rfl⟩,
      hmem (fun x hx htest hx' => Or.inr ?_) (fun _ _ => Or.inl rfl), ?_⟩
    · rcases h.healed x hx htest hx' with heq | heq
      · rw [heq, hzero]
      · exact heq
    · simp [h.marks, List.filter_append, hkind]
  · cases hadd

/-- The drafts after any events. -/
theorem draftOf_foldlM {m : Std.ExtTreeMap String Draft} :
    events.foldlM (addEvent quote cfg) ∅ = .ok m → ∀ test,
      DraftOf quote cfg events test (m[test]?.getD ⟨none, zeroTime, []⟩) := by
  induction events using List.reverseRecOn generalizing m with
  | nil =>
    intro h test
    obtain rfl : ∅ = m := Except.ok.inj h
    refine ⟨?_, ?_, ?_, ?_, ?_⟩ <;> simp
  | append_singleton events e ih =>
    intro h test
    rw [List.foldlM_append] at h
    cases hm : events.foldlM (addEvent quote cfg) ∅ with
    | error => rw [hm] at h; cases h
    | ok before =>
      rw [hm] at h
      have hstep : addEvent quote cfg before e = .ok m := by
        simp only [List.foldlM_cons, List.foldlM_nil, bind_pure] at h
        exact h
      unfold addEvent at hstep
      split at hstep
      · cases hstep
      · next d' hadd =>
        obtain rfl := Except.ok.inj hstep
        by_cases htest : e.test = test
        · subst htest
          simpa using (ih hm e.test).add hadd
        · rw [Std.ExtTreeMap.getElem?_insert, if_neg (by simpa using htest)]
          exact (ih hm test).other htest

theorem lookup_eq_none_iff_not_mem {back : List (String × Time)} {p : String} :
    back.lookup p = none ↔ p ∉ back.map Prod.fst := by
  simp only [List.lookup_eq_none_iff, List.mem_map, not_exists, not_and, bne_iff_ne]
  exact ⟨fun h x hx he => h x hx he.symm, fun h x hx he => h x hx he.symm⟩

/-- The pods that serve again, each since its first mark. -/
theorem lookup_servingPods {name : String} {fault : Fault} (p : String) :
    ∀ {marks : List Event} {back result : List (String × Time)},
      servingPods name fault back marks = .ok result →
      result.lookup p = (back.lookup p).or
        ((marks.find? fun m => servingPod m.mark = some p).map Event.time)
  | [], back, result, h => by
    obtain rfl := Except.ok.inj h
    simp
  | m :: marks, back, result, h => by
    unfold servingPods at h
    split at h
    · next hmark => rw [lookup_servingPods p h, List.find?_cons_of_neg (by simp [hmark])]
    · next pod hmark =>
      split_ifs at h with hdown hseen
      · rw [lookup_servingPods p h]
        by_cases hp : pod = p
        · subst hp
          obtain ⟨time, htime⟩ := Option.ne_none_iff_exists'.mp
            (mt lookup_eq_none_iff_not_mem.mp (not_not.mpr hseen))
          simp [htime]
        · rw [List.find?_cons_of_neg (by simp [hmark, hp])]
      · rw [lookup_servingPods p h, List.lookup_append]
        by_cases hp : pod = p
        · subst hp
          rw [List.find?_cons_of_pos (by simp [hmark]), lookup_eq_none_iff_not_mem.mpr hseen]
          simp
        · rw [List.find?_cons_of_neg (by simp [hmark, hp])]
          simp [List.lookup_cons, beq_eq_false_iff_ne.mpr (Ne.symm hp)]

variable (quote cfg)

/-- A test's timeline, from the test's events : its one fault, when it healed, and the windows
in which the nodes notice the fault, its end, and each pod that serves again. -/
structure TimelineOf (test : String) (tl : Timeline) : Prop where
  fault : ∃ e ∈ cfg.events, e.test = test ∧ e.event = .inject ∧ e.time = tl.inject ∧
    parseFault quote e.fault cfg.topology = .ok tl.fault
  injected : ∀ e ∈ cfg.events, e.test = test → e.event = .inject → e.time = tl.inject
  heal : tl.heal ≠ zeroTime → ∃ e ∈ cfg.events, e.test = test ∧ e.event = .heal ∧ e.time = tl.heal
  healed : ∀ e ∈ cfg.events, e.test = test → e.event = .heal → e.time = tl.heal ∨ e.time = zeroTime
  marks : tl.marks.Perm (cfg.events.filter fun e => e.test = test ∧ e.event = .mark)
  marks_sorted : tl.marks.Pairwise (·.time ≤ ·.time)
  in_eq : tl.in_ = ⟨Time.add tl.inject (-cfg.tolerance),
    Time.add tl.inject (cfg.detection + cfg.tolerance)⟩
  out_eq : tl.out = if tl.heal = zeroTime then ⟨zeroTime, zeroTime⟩
    else ⟨Time.add (servingFrom tl.heal tl.marks) (-cfg.tolerance),
      Time.add tl.heal (cfg.recovery + cfg.tolerance)⟩
  back : ∀ p, tl.back.lookup p =
    (tl.marks.find? fun m => servingPod m.mark = some p).map Event.time
  backs_eq : tl.backs = tl.back.map fun b => ⟨Time.add b.2 (-cfg.tolerance),
    Time.add b.2 (cfg.recovery + cfg.tolerance)⟩

variable {quote cfg}

theorem DraftOf.finish {tl : Timeline} (h : DraftOf quote cfg cfg.events test d)
    (hfinish : finish cfg test d = .ok tl) : TimelineOf quote cfg test tl := by
  unfold Chaos.finish at hfinish
  split at hfinish
  · cases hfinish
  · next fault inject hfault =>
    dsimp only at hfinish
    by_cases hearly : d.heal ≠ zeroTime ∧ d.heal < inject
    · rw [if_pos hearly] at hfinish
      cases hfinish
    rw [if_neg hearly] at hfinish
    split at hfinish
    · cases hfinish
    · next back hback =>
      obtain rfl := Except.ok.inj hfinish
      refine ⟨h.fault fault inject hfault, fun e he htest hkind => ?_, h.heal, h.healed, ?_,
        List.pairwise_insertionSort _ _, rfl, rfl, fun p => ?_, rfl⟩
      · obtain ⟨f, hf⟩ := h.injected e he htest hkind
        rw [hfault] at hf
        simp only [Option.some.injEq, Prod.mk.injEq] at hf
        exact hf.2.symm
      · exact (List.perm_insertionSort _ _).trans (h.marks ▸ List.Perm.refl _)
      · simpa using lookup_servingPods p hback

theorem exists_of_finishAll : ∀ {drafts : List (String × Draft)} {tls : List (String × Timeline)},
    finishAll cfg drafts = .ok tls → ∀ {tl : Timeline}, (test, tl) ∈ tls →
      ∃ d, (test, d) ∈ drafts ∧ finish cfg test d = .ok tl
  | [], tls, h, tl, hmem => by
    obtain rfl := Except.ok.inj h
    cases hmem
  | (name, draft) :: drafts, tls, h, tl, hmem => by
    unfold finishAll at h
    split at h
    · cases h
    · next timeline hfinish =>
      split at h
      · cases h
      · next later hlater =>
        obtain rfl := Except.ok.inj h
        rcases List.mem_cons.mp hmem with heq | hmem
        · cases heq
          exact ⟨draft, List.mem_cons_self, hfinish⟩
        · obtain ⟨d, hd, hfin⟩ := exists_of_finishAll hlater hmem
          exact ⟨d, .tail _ hd, hfin⟩

theorem mem_of_lookup {α : Type*} {l : List (String × α)} {k : String} {a : α}
    (h : l.lookup k = some a) : (k, a) ∈ l := by
  obtain ⟨l₁, l₂, rfl, -⟩ := List.lookup_eq_some_iff.mp h
  simp

theorem timelineOf_parse {tls : List (String × Timeline)} (h : parseTimelines quote cfg = .ok tls)
    {tl : Timeline} (hlookup : tls.lookup test = some tl) : TimelineOf quote cfg test tl := by
  unfold parseTimelines at h
  split at h
  · cases h
  · next drafts hdrafts =>
    obtain ⟨d, hd, hfinish⟩ := exists_of_finishAll h (mem_of_lookup hlookup)
    have hdraft := draftOf_foldlM hdrafts test
    rw [Std.ExtTreeMap.mem_toList_iff_getElem?_eq_some.mp hd, Option.getD_some] at hdraft
    exact hdraft.finish hfinish

end Timelines

/-! ## What the counters count -/

section Counting

variable {cfg : CheckConfig} {timelines : List (String × Timeline)}
  {acked : Std.ExtTreeMap String Int64}

theorem find?_setReport (tr : TestReport) (test : String) : ∀ tests : List TestReport,
    (setReport tr tests).find? (·.test = test) =
      if tr.test = test then some tr else tests.find? (·.test = test)
  | [] => by
    by_cases h : tr.test = test <;> simp [setReport, h]
  | x :: tests => by
    unfold setReport
    split_ifs with hx htest htest
    · rw [List.find?_cons_of_pos (by simpa)]
    · rw [List.find?_cons_of_neg (by simpa), List.find?_cons_of_neg (by simpa [hx])]
    · have hne : x.test ≠ test := fun he => hx (he.trans htest.symm)
      rw [List.find?_cons_of_neg (by simpa), find?_setReport tr test tests, if_pos htest]
    · rw [List.find?_cons, List.find?_cons, find?_setReport tr test tests, if_neg htest]

/-- How many of a test's requests are counted in a bucket. -/
def Compared.countOf (s : Compared) (test : String) (b : Bucket) : Nat :=
  ((s.tests.find? (·.test = test)).map (·.buckets b)).getD 0

@[simp] theorem addHints_test (t : Topology) (tr : TestReport) (tl : Timeline) (phase : Phase)
    (r : Request) : (tr.addHints t tl phase r).test = tr.test := by
  unfold TestReport.addHints
  cases phase <;> dsimp only
  split_ifs <;> rfl

@[simp] theorem addHints_buckets (t : Topology) (tr : TestReport) (tl : Timeline) (phase : Phase)
    (r : Request) : (tr.addHints t tl phase r).buckets = tr.buckets := by
  unfold TestReport.addHints
  cases phase <;> dsimp only
  split_ifs <;> rfl

/-- One record adds one to its own bucket and nothing else. -/
theorem countOf_compareRecord (s : Compared) (r : Request) (test : String) (b : Bucket) :
    (compareRecord cfg timelines acked s r).countOf test b = s.countOf test b +
      if r.test = test ∧ bucketOf cfg timelines acked r = b then 1 else 0 := by
  -- The report the record is counted in : the test's own, or a new one.
  obtain ⟨tr, htests, htest, hbuckets⟩ : ∃ tr : TestReport,
      (compareRecord cfg timelines acked s r).tests =
        setReport (tr.count cfg timelines acked r) s.tests ∧ tr.test = r.test ∧
      ∀ x, tr.buckets x = s.countOf r.test x := by
    have hold : ∀ tr₀, tr₀ = (s.tests.find? (·.test = r.test)).getD
          (.new r.test (timelines.lookup r.test)) →
        tr₀.test = r.test ∧ ∀ x, tr₀.buckets x = s.countOf r.test x := by
      rintro _ rfl
      unfold Compared.countOf
      cases hfind : s.tests.find? (·.test = r.test) with
      | none => exact ⟨rfl, fun x => rfl⟩
      | some => exact ⟨by simpa using List.find?_some hfind, fun x => rfl⟩
    obtain ⟨htest, hbuckets⟩ := hold _ rfl
    refine ⟨_, rfl, ?_, ?_⟩
    · split
      · exact htest
      · split_ifs
        · simpa using htest
        · exact htest
    · split
      · exact hbuckets
      · split_ifs
        · simpa using hbuckets
        · exact hbuckets
  rw [Compared.countOf, htests, find?_setReport]
  have hcount : (tr.count cfg timelines acked r).test = r.test := htest
  rw [hcount]
  by_cases ht : r.test = test
  · subst ht
    simp only [if_true, Option.map_some, Option.getD_some, true_and, TestReport.count, hbuckets]
    by_cases hb : bucketOf cfg timelines acked r = b
    · rw [if_pos hb.symm, if_pos hb]
    · rw [if_neg (Ne.symm hb), if_neg hb]
      rfl
  · simp only [ht, if_false, false_and]
    rfl

theorem countOf_foldl (test : String) (b : Bucket) : ∀ (records : List Request) (s : Compared),
    (records.foldl (compareRecord cfg timelines acked) s).countOf test b = s.countOf test b +
      records.countP fun r => r.test = test ∧ bucketOf cfg timelines acked r = b
  | [], s => rfl
  | r :: records, s => by
    rw [List.foldl_cons, countOf_foldl test b records, countOf_compareRecord, List.countP_cons]
    simp only [decide_eq_true_eq]
    omega

/-- A test's counters are the numbers of its records in each bucket. -/
theorem countOf_compareRecords (test : String) (b : Bucket) :
    (compareRecords cfg timelines acked).countOf test b =
      cfg.records.countP fun r => r.test = test ∧ bucketOf cfg timelines acked r = b := by
  rw [compareRecords, countOf_foldl]
  exact Nat.zero_add _

/-- If no report counts a bucket, no record is in it. -/
theorem bucketOf_ne {b : Bucket}
    (h : ∀ tr ∈ (compareRecords cfg timelines acked).tests, tr.buckets b = 0) {r : Request}
    (hr : r ∈ cfg.records) : bucketOf cfg timelines acked r ≠ b := by
  intro hb
  have hzero : (compareRecords cfg timelines acked).countOf r.test b = 0 := by
    unfold Compared.countOf
    cases hfind : (compareRecords cfg timelines acked).tests.find? (·.test = r.test) with
    | none => rfl
    | some tr => exact h tr (List.mem_of_find?_eq_some hfind)
  rw [countOf_compareRecords, List.countP_eq_zero] at hzero
  exact hzero r hr (by simp [hb])

end Counting

/-! ## First acknowledgments and latest entries -/

/-- A record only makes a key's first acknowledgment earlier. -/
theorem addAck_le {m : Std.ExtTreeMap String Int64} {k : String} {at_ : Int64}
    (h : m[k]? = some at_) (r : Request) : ∃ at', (addAck m r)[k]? = some at' ∧ at' ≤ at_ := by
  unfold addAck
  split_ifs
  · split
    · next hnone =>
      have hne : r.key ≠ k := fun he => by rw [he, h] at hnone; cases hnone
      exact ⟨at_, by rw [Std.ExtTreeMap.getElem?_insert, if_neg (by simpa using hne)]; exact h,
        Int64.le_refl _⟩
    · next at₀ hsome =>
      split_ifs with hlt
      · by_cases hk : r.key = k
        · subst hk
          obtain rfl := Option.some.inj (hsome.symm.trans h)
          exact ⟨r.end_, by simp, Int64.le_of_lt hlt⟩
        · exact ⟨at_, by rw [Std.ExtTreeMap.getElem?_insert, if_neg (by simpa using hk)]; exact h,
            Int64.le_refl _⟩
      · exact ⟨at_, h, Int64.le_refl _⟩
  · exact ⟨at_, h, Int64.le_refl _⟩

theorem addAck_self (m : Std.ExtTreeMap String Int64) {r : Request} (hacked : r.acked = true) :
    ∃ at', (addAck m r)[r.key]? = some at' ∧ at' ≤ r.end_ := by
  unfold addAck
  rw [if_pos hacked]
  split
  · exact ⟨r.end_, by simp, Int64.le_refl _⟩
  · next at₀ hsome =>
    split_ifs with hlt
    · exact ⟨r.end_, by simp, Int64.le_refl _⟩
    · exact ⟨at₀, hsome, Int64.not_lt.mp hlt⟩

/-- Every acknowledged Put has its key's first acknowledgment at or before its own. -/
theorem ackedAt_le (records : List Request) : ∀ p ∈ records, p.acked = true →
    ∃ at', (ackedAt records)[p.key]? = some at' ∧ at' ≤ p.end_ := by
  induction records using List.reverseRecOn with
  | nil => simp
  | append_singleton records r ih =>
    intro p hp hacked
    rw [ackedAt, List.foldl_append, List.foldl_cons, List.foldl_nil, ← ackedAt]
    rcases List.mem_append.mp hp with hp | hp
    · obtain ⟨at₁, hat, hle⟩ := ih p hp hacked
      obtain ⟨at₂, hat', hle'⟩ := addAck_le hat r
      exact ⟨at₂, hat', Int64.le_trans hle' hle⟩
    · obtain rfl := List.mem_singleton.mp hp
      exact addAck_self _ hacked

/-- The key's latest entry : no later time, and no equal time after it in the list. -/
def IsLatest (readback : List ReadbackEntry) (k : String) (e : ReadbackEntry) : Prop :=
  e.key = k ∧ ∃ before after, readback = before ++ e :: after ∧
    (∀ x ∈ before, x.key = k → x.time ≤ e.time) ∧ ∀ x ∈ after, x.key = k → x.time < e.time

theorem IsLatest.le {readback : List ReadbackEntry} {k : String} {e : ReadbackEntry}
    (h : IsLatest readback k e) : ∀ x ∈ readback, x.key = k → x.time ≤ e.time := by
  obtain ⟨-, before, after, rfl, hbefore, hafter⟩ := h
  intro x hx hk
  rcases List.mem_append.mp hx with hx | hx
  · exact hbefore x hx hk
  · rcases List.mem_cons.mp hx with rfl | hx
    · exact Int64.le_refl _
    · exact Int64.le_of_lt (hafter x hx hk)

/-- An entry of another key, or of an earlier time, leaves the latest one. -/
theorem IsLatest.concat {readback : List ReadbackEntry} {k : String} {e x : ReadbackEntry}
    (h : IsLatest readback k e) (hx : x.key = k → x.time < e.time) :
    IsLatest (readback ++ [x]) k e := by
  obtain ⟨hkey, before, after, rfl, hbefore, hafter⟩ := h
  exact ⟨hkey, before, after ++ [x], by simp, hbefore,
    List.forall_mem_append.mpr ⟨hafter, List.forall_mem_singleton.mpr hx⟩⟩

/-- What `latest` holds of a key. -/
def LatestOf (readback : List ReadbackEntry) (k : String) : Option ReadbackEntry → Prop
  | none => ∀ x ∈ readback, x.key ≠ k
  | some e => IsLatest readback k e

theorem isLatest_latest (readback : List ReadbackEntry) (k : String) :
    LatestOf readback k (latest readback)[k]? := by
  induction readback using List.reverseRecOn with
  | nil => simp [latest, LatestOf]
  | append_singleton readback x ih =>
    rw [latest, List.foldl_append, List.foldl_cons, List.foldl_nil, ← latest]
    by_cases hk : x.key = k
    · subst hk
      unfold addEntry
      split
      · next hnone =>
        rw [hnone] at ih
        simp only [Std.ExtTreeMap.getElem?_insert_self, LatestOf]
        exact ⟨rfl, readback, [], rfl, fun y hy hyk => absurd hyk (ih y hy), by simp⟩
      · next e hsome =>
        rw [hsome] at ih
        have hle := IsLatest.le ih
        split_ifs with htime
        · simp only [Std.ExtTreeMap.getElem?_insert_self, LatestOf]
          exact ⟨rfl, readback, [], rfl, fun y hy hyk => Int64.le_trans (hle y hy hyk) htime,
            by simp⟩
        · rw [hsome]
          exact IsLatest.concat ih fun _ => Int64.not_le.mp htime
    · have hsame : (addEntry (latest readback) x)[k]? = (latest readback)[k]? := by
        unfold addEntry
        split
        · rw [Std.ExtTreeMap.getElem?_insert, if_neg (by simpa using hk)]
        · split_ifs
          · rw [Std.ExtTreeMap.getElem?_insert, if_neg (by simpa using hk)]
          · rfl
      rw [hsame]
      cases hlatest : (latest readback)[k]? with
      | none =>
        rw [hlatest] at ih
        exact List.forall_mem_append.mpr ⟨ih, List.forall_mem_singleton.mpr hk⟩
      | some =>
        rw [hlatest] at ih
        exact IsLatest.concat ih fun hxk => absurd hxk hk

/-! ## Judging the read-back -/

section Judging

variable {entries : Std.ExtTreeMap String ReadbackEntry} {expectedUnder : List String}

/-- Nothing was found wrong with the read-back. -/
structure Report.Passed (rep : Report) : Prop where
  lost : rep.lost = 0
  notReadBack : rep.notReadBack = 0
  unreadable : rep.unreadable = 0
  unexpected : rep.unexpectedUnderReplicated = []

/-- The key was read back, and if the session has converged it is on all its owners. -/
def KeyOk (entries : Std.ExtTreeMap String ReadbackEntry) (converged : Bool) (k : String) : Prop :=
  ∃ e, entries[k]? = some e ∧ e.result = .ok ∧
    (converged = true → e.owners ≠ [] → e.owners.length ≤ e.holders.length)

theorem passed_judgeCopies {rep : Report} {k : String} {e : ReadbackEntry}
    (h : (judgeCopies expectedUnder rep k e).Passed) :
    rep.Passed ∧ (rep.converged = true → e.owners ≠ [] → e.owners.length ≤ e.holders.length) := by
  unfold judgeCopies at h
  dsimp only at h
  split_ifs at h with howners hholders hexpected hlisted
  · exact ⟨h, fun _ hne => absurd (List.length_eq_zero_iff.mp howners) hne⟩
  · exact ⟨⟨h.lost, h.notReadBack, h.unreadable, h.unexpected⟩, fun _ _ => hholders⟩
  · refine ⟨⟨h.lost, h.notReadBack, h.unreadable, h.unexpected⟩, fun hconv => ?_⟩
    exact absurd hconv (by simpa using hexpected.2)
  · exact absurd h.unexpected (by simp)
  · -- The list is full, so it is not empty.
    have hnil : rep.unexpectedUnderReplicated = [] := h.unexpected
    simp [hnil, maxListed] at hlisted

theorem passed_judgeResult {rep : Report} {k : String} {e : ReadbackEntry}
    (h : (judgeResult rep k e).Passed) : rep.Passed ∧ e.result = .ok := by
  unfold judgeResult at h
  by_cases hlost : e.result = .notFound ∨ e.result = .mismatch
  · rw [if_pos hlost] at h
    exact absurd h.lost (Nat.succ_ne_zero _)
  · rw [if_neg hlost] at h
    by_cases hread : e.result ≠ .ok
    · rw [if_pos hread] at h
      exact absurd h.unreadable (Nat.succ_ne_zero _)
    · rw [if_neg hread] at h
      exact ⟨h, not_not.mp hread⟩

theorem converged_judgeCopies (rep : Report) (k : String) (e : ReadbackEntry) :
    (judgeCopies expectedUnder rep k e).converged = rep.converged := by
  unfold judgeCopies
  dsimp only
  split_ifs <;> rfl

theorem converged_judgeResult (rep : Report) (k : String) (e : ReadbackEntry) :
    (judgeResult rep k e).converged = rep.converged := by
  unfold judgeResult
  by_cases hlost : e.result = .notFound ∨ e.result = .mismatch
  · rw [if_pos hlost]
  · rw [if_neg hlost]
    split_ifs <;> rfl

theorem converged_judge (rep : Report) (k : String) :
    (judge entries expectedUnder rep k).converged = rep.converged := by
  unfold judge
  dsimp only
  split
  · rfl
  · rw [converged_judgeCopies, converged_judgeResult]

/-- One key : a report that passes passed before it, and the key is fine. -/
theorem passed_judge {rep : Report} {k : String} (h : (judge entries expectedUnder rep k).Passed) :
    rep.Passed ∧ KeyOk entries rep.converged k := by
  unfold judge at h
  dsimp only at h
  split at h
  · exact absurd h.notReadBack (Nat.succ_ne_zero _)
  · next e he =>
    obtain ⟨hresult, hcopies⟩ := passed_judgeCopies h
    rw [converged_judgeResult] at hcopies
    obtain ⟨hbefore, hok⟩ := passed_judgeResult hresult
    exact ⟨⟨hbefore.lost, hbefore.notReadBack, hbefore.unreadable, hbefore.unexpected⟩,
      e, he, hok, hcopies⟩

theorem passed_foldl_judge : ∀ (keys : List String) (rep : Report),
    (keys.foldl (judge entries expectedUnder) rep).Passed →
      rep.Passed ∧ ∀ k ∈ keys, KeyOk entries rep.converged k
  | [], rep, h => ⟨h, by simp⟩
  | k :: keys, rep, h => by
    obtain ⟨hpassed, hkeys⟩ := passed_foldl_judge keys _ h
    rw [converged_judge] at hkeys
    obtain ⟨hrep, hk⟩ := passed_judge hpassed
    exact ⟨hrep, List.forall_mem_cons.mpr ⟨hk, hkeys⟩⟩

theorem tests_judge (rep : Report) (k : String) :
    (judge entries expectedUnder rep k).tests = rep.tests := by
  unfold judge judgeCopies judgeResult
  dsimp only
  split
  · rfl
  · split_ifs <;> rfl

theorem tests_foldl_judge : ∀ (keys : List String) (rep : Report),
    (keys.foldl (judge entries expectedUnder) rep).tests = rep.tests
  | [], rep => rfl
  | k :: keys, rep => by rw [List.foldl_cons, tests_foldl_judge keys, tests_judge]

/-- The read-back leaves the test reports alone, and passes only if every acknowledged key is
fine. -/
theorem passed_joinReadback {cfg : CheckConfig} {acked : Std.ExtTreeMap String Int64}
    {rep : Report} :
    (joinReadback cfg acked expectedUnder rep).tests = rep.tests ∧
      ((joinReadback cfg acked expectedUnder rep).Passed →
        ∀ k ∈ acked.keys, KeyOk (latest cfg.readback) rep.converged k) :=
  ⟨tests_foldl_judge _ _, fun h => (passed_foldl_judge _ _
    ⟨h.lost, h.notReadBack, h.unreadable, h.unexpected⟩).2⟩

end Judging

/-! ## A check that passes -/

/-- A Get of a key acknowledged before it started that found nothing, or another value. -/
theorem bucket_stale {t : Topology} {tl : Option Timeline} {phase : Phase} {r : Request}
    {target : String} {acked : Std.ExtTreeMap String Int64} {at_ : Int64} (hop : r.op = .get)
    (hresult : r.result = .notFound ∨ r.result = .mismatch) (hat : acked[r.key]? = some at_)
    (hlt : at_ < r.start) : bucket t tl phase r target acked = .staleRead := by
  have hsent : r.result ≠ .dropped := by
    rcases hresult with h | h <;> simp [h]
  unfold bucket
  simp only [if_neg hsent, if_pos (And.intro hop hresult), hat, Option.any_some,
    decide_eq_true hlt, if_true]

/-- A Put that is acknowledged in the fault phase although it should fail. -/
theorem bucket_success {t : Topology} {tl : Timeline} {r : Request} {target : String}
    {acked : Std.ExtTreeMap String Int64} (hop : r.op = .put) (hresult : r.result = .ok)
    (hexpect : t.expect (tl.faultAt r.start) .put r.key target = .fail) :
    bucket t (some tl) .fault r target acked = .unexpectedSuccess := by
  unfold bucket
  simp [hop, hresult, hexpect]

/-- The request is in the test's fault phase and outside all its transition windows. -/
structure InFault (tl : Timeline) (r : Request) : Prop where
  after_inject : unixNano tl.inject < r.start
  before_heal : tl.heal = zeroTime ∨ r.end_ < unixNano tl.heal
  not_in : tl.in_.overlaps r = false
  not_out : tl.out.overlaps r = false
  not_back : ∀ w ∈ tl.backs, w.overlaps r = false

theorem phaseOf_inFault {tl : Timeline} {r : Request} (h : InFault tl r) :
    phaseOf (some tl) r = .fault := by
  have hbacks : tl.backs.any (·.overlaps r) = false :=
    List.any_eq_false.mpr fun w hw => by simp [h.not_back w hw]
  unfold phaseOf
  simp only [h.not_in, h.not_out, hbacks, Bool.or_self, Bool.false_eq_true, if_false]
  exact if_pos ⟨h.after_inject, h.before_heal⟩

theorem buckets_of_ok {rep : Report} (h : rep.ok = true) {b : Bucket} (hb : b ∈ violations) :
    ∀ tr ∈ rep.tests, tr.buckets b = 0 := by
  simp only [Report.ok, Bool.and_eq_true, List.all_eq_true, decide_eq_true_eq] at h
  exact fun tr htr => h.1.1.1.1 tr htr b hb

theorem passed_of_ok {rep : Report} (h : rep.ok = true) : rep.Passed := by
  simp only [Report.ok, Bool.and_eq_true, decide_eq_true_eq] at h
  exact ⟨h.1.1.1.2, h.1.1.2, h.1.2, List.length_eq_zero_iff.mp h.2⟩

/-- A report that is OK, of a session that was read back : every acknowledged key's latest entry
is ok and, once converged, lists a holder for each owner; no Get of an acknowledged key found
nothing or another value; and no Put was acknowledged in its test's fault phase that should
fail with the pods still down. -/
theorem passing_check (quote : String → String) (config : CheckConfig) (rep : Report)
    (hcheck : check quote config = .ok rep) (hok : rep.ok = true) (hread : config.readback ≠ []) :
    (∀ p ∈ config.records, p.acked = true → ∃ e, IsLatest config.readback p.key e ∧
      e.result = .ok ∧
      (config.converged = true → e.owners ≠ [] → e.owners.length ≤ e.holders.length)) ∧
    (∀ g ∈ config.records, g.op = .get → ∀ p ∈ config.records, p.acked = true → p.key = g.key →
      p.end_ < g.start → g.result ≠ .notFound ∧ g.result ≠ .mismatch) ∧
    ∃ timelines, parseTimelines quote config.withDefaults = .ok timelines ∧
      ∀ p ∈ config.records, p.acked = true → ∀ tl, timelines.lookup p.test = some tl →
        TimelineOf quote config.withDefaults p.test tl ∧
        (InFault tl p → config.topology.expect (tl.faultAt p.start) .put p.key
          (podTarget config.topology p.target) ≠ .fail) := by
  unfold check at hcheck
  dsimp only at hcheck
  split at hcheck
  · cases hcheck
  · next timelines hparse =>
    have hhave : (!config.withDefaults.readback.isEmpty) = true := by
      simpa [CheckConfig.withDefaults] using hread
    rw [if_pos hhave] at hcheck
    obtain rfl := Except.ok.inj hcheck
    have hviolation : ∀ b ∈ violations, ∀ r ∈ config.records,
        bucketOf config.withDefaults timelines (ackedAt config.records) r ≠ b := by
      intro b hb r hr
      refine bucketOf_ne (fun tr htr => buckets_of_ok hok hb tr ?_) hr
      rw [passed_joinReadback.1]
      exact htr
    have hkeys := passed_joinReadback.2 (passed_of_ok hok)
    refine ⟨fun p hp hacked => ?_, fun g hg hop p hp hacked hkey hlt => ?_,
      timelines, hparse, fun p hp hacked tl htl =>
        ⟨timelineOf_parse hparse htl, fun hin hfail => ?_⟩⟩
    · obtain ⟨at₁, hat, -⟩ := ackedAt_le config.records p hp hacked
      have hmem : p.key ∈ (ackedAt config.records).keys := by
        rw [Std.ExtTreeMap.mem_keys, Std.ExtTreeMap.mem_iff_isSome_getElem?, hat]
        rfl
      obtain ⟨e, he, hresult, hcopies⟩ := hkeys p.key hmem
      have hlatest : LatestOf config.readback p.key (latest config.readback)[p.key]? :=
        isLatest_latest config.readback p.key
      rw [show (latest config.readback)[p.key]? = some e from he] at hlatest
      exact ⟨e, hlatest, hresult, hcopies⟩
    · obtain ⟨at₁, hat, hle⟩ := ackedAt_le config.records p hp hacked
      rw [hkey] at hat
      by_contra hbad
      have hresult : g.result = .notFound ∨ g.result = .mismatch := by tauto
      exact hviolation .staleRead (by simp [violations]) g hg
        (bucket_stale hop hresult hat (Int64.lt_of_le_of_lt hle hlt))
    · simp only [Request.acked, Bool.and_eq_true, decide_eq_true_eq] at hacked
      refine hviolation .unexpectedSuccess (by simp [violations]) p hp ?_
      unfold bucketOf
      rw [htl, phaseOf_inFault hin]
      exact bucket_success hacked.1 hacked.2 hfail

/-- A write that is acknowledged before the fault heals. -/
def lateWrite : Request :=
  ⟨"t2", .put, "k", "A", 60000000000, 60000000001, .ok⟩

/-- `C` goes down, a read sent to it fails, it serves again, and `k` is written to `A` and read
from `C`, all before the fault heals. Two of two owners have the key at the end. -/
noncomputable def restartSession : CheckConfig where
  topology := threePods
  events := [⟨0, "t2", .inject, "down:C", ""⟩, ⟨40000000000, "t2", .mark, "", "serving-C"⟩,
    ⟨100000000000, "t2", .heal, "", ""⟩]
  records := [⟨"t2", .get, "k", "C", 20000000000, 20000000001, .failed⟩, lateWrite,
    ⟨"t2", .get, "k", "C", 70000000000, 70000000001, .ok⟩]
  readback := [⟨"k", 200000000000, .ok, ["A", "B"], ["A", "B"]⟩]
  converged := true
  tolerance := 0
  detection := 0
  recovery := 0
  examples := 0

theorem passing_check_restartSession : ∃ rep tl, check id restartSession = .ok rep ∧ rep.ok = true ∧
    (∃ e, IsLatest restartSession.readback "k" e ∧ e.result = .ok) ∧
    TimelineOf id restartSession.withDefaults "t2" tl ∧ tl.fault = ⟨.down, ["C"]⟩ ∧
    InFault tl lateWrite ∧
    threePods.expect (tl.faultAt lateWrite.start) .put "k" (podTarget threePods "A") ≠ .fail := by
  have hpasses : (check id restartSession).toOption.any Report.ok = true := by decide +kernel
  obtain ⟨rep, hcheck, hok⟩ : ∃ rep, check id restartSession = .ok rep ∧ rep.ok = true := by
    cases hrep : check id restartSession with
    | error => simp [hrep, Except.toOption] at hpasses
    | ok rep => exact ⟨rep, rfl, by simpa [hrep, Except.toOption] using hpasses⟩
  have hwrite : lateWrite ∈ restartSession.records := by simp [restartSession]
  obtain ⟨hlatest, -, timelines, hparse, hfault⟩ :=
    passing_check id restartSession rep hcheck hok (List.cons_ne_nil _ _)
  obtain ⟨e, he, hresult, -⟩ := hlatest lateWrite hwrite rfl
  have hone : (parseTimelines id restartSession.withDefaults).toOption.bind
      (·.lookup "t2" |>.filter fun tl => tl.fault = ⟨.down, ["C"]⟩ ∧
        unixNano tl.inject < lateWrite.start ∧ lateWrite.end_ < unixNano tl.heal ∧
        tl.in_.overlaps lateWrite = false ∧ tl.out.overlaps lateWrite = false ∧
        ∀ w ∈ tl.backs, w.overlaps lateWrite = false) |>.isSome := by
    decide +kernel
  rw [hparse] at hone
  obtain ⟨tl, htl⟩ := Option.isSome_iff_exists.mp hone
  simp only [Except.toOption, Option.bind_some, Option.filter_eq_some_iff, decide_eq_true_eq] at htl
  obtain ⟨hlookup, hdown, hafter, hbefore, hin, hout, hback⟩ := htl
  have hphase : InFault tl lateWrite := ⟨hafter, Or.inr hbefore, hin, hout, hback⟩
  obtain ⟨htimeline, hexpect⟩ := hfault lateWrite hwrite rfl tl hlookup
  exact ⟨rep, tl, hcheck, hok, ⟨e, he, hresult⟩, htimeline, hdown, hphase, hexpect hphase⟩

end Chaos

end DistributedKV
