import DistributedKV.Layers
import DistributedKV.Catalog

/-!
# The storage engine

The write side joined to the table side. A batch of writes is written to the current WAL
segment, fsynced, and applied to the active memtable; when that crosses its threshold and
nothing is being flushed, the log rotates and the memtable is frozen. The flush of the
frozen memtable runs beside all this; once its SSTable is registered and readers have it,
the segments up to the one sealed at the freeze are deleted, oldest first. Every one of
these is a step, so a crash may come between any two; `reopen` is the crash and the Open
after it in one.

Segments hold records here. What was written without a successful fsync is a segment's
`tail`, of which a crash keeps any number of records from the front. A crash may also
bring back any of the deleted segments.

`Shape` is what holds in every state, whatever is written : the order of the segments,
what each phase of the writer has already done, and that the flush works on the frozen
memtable.
-/

namespace DistributedKV

/-- One WAL record : a version merged into its key, or a key's versions replaced. -/
inductive WalEntry
  | put (key : String) (item : DataItem)
  | restore (key : String) (items : List DataItem)
deriving DecidableEq

def WalEntry.key : WalEntry → String
  | .put key _ | .restore key _ => key

/-- What a record does to the memtable when it is applied, and when it is replayed. -/
def MemTable.apply (m : MemTable) : WalEntry → MemTable
  | .put key item => (m.put key item).1
  | .restore key items => m.replace key items

/-! ## The log -/

/-- A segment's records, fsynced, and behind them those that are only written. -/
structure Segment where
  seq : Nat
  records : List WalEntry
  tail : List WalEntry
deriving DecidableEq

/-- What a crash leaves of a segment. What is left of the tail counts as fsynced from here
on, although Open fsyncs no segment it can read to its end : a power loss later can still
take it. -/
def Segment.afterCrash (seg : Segment) (kept : Nat) : Segment :=
  ⟨seg.seq, seg.records ++ seg.tail.take kept, []⟩

/-- The segment files of a directory, oldest first. -/
def listSegments (disk : List Segment) : List Segment :=
  disk.insertionSort fun a b => a.seq ≤ b.seq

/-- `OpenLog` : the records in order, the segments that have any, and the number of the
segment it starts. -/
def openLog (disk : List Segment) : List WalEntry × List Segment × Nat :=
  let existing := listSegments disk
  (existing.flatMap Segment.records, existing.filter (·.records ≠ []),
    existing.foldl (fun next seg => if seg.seq ≥ next then seg.seq + 1 else next) 1)

/-- How a rotation ends. -/
inductive RotateOutcome
  /-- The new segment could not be created. -/
  | failed
  /-- It was, but closing the old one failed. -/
  | closeFailed
  | ok
deriving DecidableEq

/-! ## Applying a batch -/

/-- Apply one write : the layers, whether it crossed the threshold, and whether the writer
gets nil. A Restore is checked by reading the key back. -/
def Layers.applyEntry (l : Layers) : WalEntry → Layers × Bool × Bool
  | .put key item => (l.put key item, (l.active.put key item).2, true)
  | .restore key items => (l.restore key items, false, (l.restore key items).getAll key = items)

def Layers.applyBatch (l : Layers) : List WalEntry → Layers × Bool × List Bool
  | [] => (l, false, [])
  | e :: batch =>
    let (l', crossed, ok) := l.applyEntry e
    let (l'', crossed', oks) := l'.applyBatch batch
    (l'', crossed || crossed', ok :: oks)

/-! ## State and steps -/

/-- Where the holder of the write lock stands. -/
inductive WriterPhase
  | idle
  /-- Written; the fsync is outstanding. -/
  | logging (batch : List WalEntry)
  /-- Durable; the memtable does not have it yet. -/
  | logged (batch : List WalEntry)
  /-- Applied and over the threshold. -/
  | swapping
  /-- The log has rotated; the memtable is about to be frozen. -/
  | rotated (sealedSeg : Nat)
deriving DecidableEq

structure Engine where
  tables : TableStore
  active : MemTable
  /-- The frozen memtable and the segment sealed with it. -/
  flushing : Option (MemTable × Nat)
  current : Segment
  /-- Older segments on disk, oldest first. -/
  sealed : List Segment
  /-- The `DeleteThrough` calls that finished flushes have still to make. -/
  deletions : List Nat
  /-- The segments deleted so far. -/
  deleted : List Segment
  writer : WriterPhase
  halted : Bool

/-- One step. `kept` counts the records of a tail that stay, `due` picks a deletion, of
which `count` segments go before it stops; `back` are the deleted segments a crash brings
back. -/
inductive EngineAct
  | log (batch : List WalEntry)
  | sync
  | walFail (kept : Nat)
  | apply
  | rotate (outcome : RotateOutcome)
  | freeze
  | flushStart
  | table (a : TableAct)
  | flushFinish
  | deleteThrough (due count : Nat)
  | reopen (kept : Nat) (back : List Segment)
deriving DecidableEq

/-- Steps of the table side that touch nothing else. -/
def TableAct.background : TableAct → Bool
  | .flushStart _ | .flushFinish | .reopen => false
  | _ => true

namespace Engine

def create (maxBytes : Int) : Engine :=
  { tables := .create, active := .new maxBytes, flushing := none, current := ⟨1, [], []⟩
    sealed := [], deletions := [], deleted := [], writer := .idle, halted := false }

/-- What readers see. -/
def layers (s : Engine) : Layers :=
  ⟨s.active, s.flushing.map Prod.fst, s.tables.sstables⟩

/-- The segment files a crash leaves. -/
def disk (s : Engine) (kept : Nat) (back : List Segment) : List Segment :=
  back ++ s.sealed ++ [s.current.afterCrash kept]

/-- The log after a new segment was started. -/
def nextSegment (s : Engine) : Engine :=
  { s with sealed := s.sealed ++ [s.current], current := ⟨s.current.seq + 1, [], []⟩ }

/-- Open, on the segment files a crash leaves. -/
abbrev reopened (s : Engine) (kept : Nat) (back : List Segment) (tables : TableStore) : Engine :=
  { tables := tables
    active := (openLog (s.disk kept back)).1.foldl MemTable.apply (.new s.active.maxBytes)
    flushing := none, current := ⟨(openLog (s.disk kept back)).2.2, [], []⟩
    sealed := (openLog (s.disk kept back)).2.1, deletions := []
    deleted := s.deleted.filter (· ∉ back), writer := .idle, halted := false }

/-- One step; nothing when it cannot happen here. -/
def step (fileSize : List Entry → Nat) (s : Engine) : EngineAct → Option Engine
  | .log batch =>
    if s.writer = .idle ∧ s.halted = false ∧ batch ≠ [] then
      some { s with current := { s.current with tail := batch }, writer := .logging batch }
    else none
  | .sync =>
    match s.writer with
    | .logging batch =>
      some { s with
        current := { s.current with records := s.current.records ++ batch, tail := [] }
        writer := .logged batch }
    | _ => none
  | .walFail kept =>
    match s.writer with
    | .logging batch =>
      some { s with
        current := { s.current with tail := batch.take kept }, writer := .idle, halted := true }
    | _ => none
  | .apply =>
    match s.writer with
    | .logged batch =>
      let (l, crossed, _) := s.layers.applyBatch batch
      some { s with
        active := l.active
        writer := if crossed ∧ s.flushing = none then .swapping else .idle }
    | _ => none
  | .rotate outcome =>
    match s.writer with
    | .swapping =>
      match outcome with
      | .failed => some { s with writer := .idle }
      | .closeFailed => some { s.nextSegment with writer := .idle }
      | .ok => some { s.nextSegment with writer := .rotated s.current.seq }
    | _ => none
  | .freeze =>
    match s.writer with
    | .rotated sealedSeg =>
      some { s with
        flushing := some (s.active, sealedSeg), active := .new s.active.maxBytes, writer := .idle }
    | _ => none
  | .flushStart =>
    match s.flushing with
    | some (frozen, _) =>
      (s.tables.step fileSize (.flushStart frozen.snapshot)).map fun t => { s with tables := t }
    | none => none
  | .table a =>
    if a.background then (s.tables.step fileSize a).map fun t => { s with tables := t } else none
  | .flushFinish =>
    match s.tables.flush, s.flushing with
    | .registered _, some (_, sealedSeg) =>
      (s.tables.step fileSize .flushFinish).map fun t =>
        { s with tables := t, flushing := none, deletions := s.deletions ++ [sealedSeg] }
    | .failed entries, some _ =>
      (s.tables.step fileSize .flushFinish).map fun t =>
        { s with tables := t, active := s.active.putBackOlder entries, flushing := none }
    | _, _ => none
  | .deleteThrough due count =>
    match s.deletions[due]? with
    | some seq =>
      let doomed := (s.sealed.takeWhile (·.seq ≤ seq)).take count
      some { s with
        sealed := s.sealed.drop doomed.length, deleted := s.deleted ++ doomed
        deletions := s.deletions.eraseIdx due }
    | none => none
  | .reopen kept back =>
    if ∀ seg ∈ back, seg ∈ s.deleted then
      (s.tables.step fileSize .reopen).map (s.reopened kept back)
    else none

/-! ## What a step can do -/

/-- Every possible step with its guard and its result. -/
inductive Step (fileSize : List Entry → Nat) (s : Engine) : EngineAct → Engine → Prop
  | log (batch) (hidle : s.writer = .idle) (hhalt : s.halted = false) (hne : batch ≠ []) :
      Step fileSize s (.log batch)
        { s with current := { s.current with tail := batch }, writer := .logging batch }
  | sync (batch) (h : s.writer = .logging batch) :
      Step fileSize s .sync { s with
        current := { s.current with records := s.current.records ++ batch, tail := [] }
        writer := .logged batch }
  | walFail (batch kept) (h : s.writer = .logging batch) :
      Step fileSize s (.walFail kept) { s with
        current := { s.current with tail := batch.take kept }, writer := .idle, halted := true }
  | apply (batch) (h : s.writer = .logged batch) :
      Step fileSize s .apply { s with
        active := (s.layers.applyBatch batch).1.active
        writer := if (s.layers.applyBatch batch).2.1 ∧ s.flushing = none then .swapping else .idle }
  | rotateFailed (h : s.writer = .swapping) :
      Step fileSize s (.rotate .failed) { s with writer := .idle }
  | rotateCloseFailed (h : s.writer = .swapping) :
      Step fileSize s (.rotate .closeFailed) { s.nextSegment with writer := .idle }
  | rotateOk (h : s.writer = .swapping) :
      Step fileSize s (.rotate .ok) { s.nextSegment with writer := .rotated s.current.seq }
  | freeze (sealedSeg) (h : s.writer = .rotated sealedSeg) :
      Step fileSize s .freeze { s with
        flushing := some (s.active, sealedSeg), active := .new s.active.maxBytes, writer := .idle }
  | flushStart (frozen sealedSeg t) (h : s.flushing = some (frozen, sealedSeg))
      (ht : s.tables.step fileSize (.flushStart frozen.snapshot) = some t) :
      Step fileSize s .flushStart { s with tables := t }
  | table (a t) (ha : a.background = true) (ht : s.tables.step fileSize a = some t) :
      Step fileSize s (.table a) { s with tables := t }
  | flushDone (sst frozen sealedSeg t) (h : s.tables.flush = .registered sst)
      (hf : s.flushing = some (frozen, sealedSeg))
      (ht : s.tables.step fileSize .flushFinish = some t) :
      Step fileSize s .flushFinish
        { s with tables := t, flushing := none, deletions := s.deletions ++ [sealedSeg] }
  | flushFailed (entries frozen sealedSeg t) (h : s.tables.flush = .failed entries)
      (hf : s.flushing = some (frozen, sealedSeg))
      (ht : s.tables.step fileSize .flushFinish = some t) :
      Step fileSize s .flushFinish
        { s with tables := t, active := s.active.putBackOlder entries, flushing := none }
  | deleteThrough (due count seq) (h : s.deletions[due]? = some seq) :
      Step fileSize s (.deleteThrough due count) { s with
        sealed := s.sealed.drop ((s.sealed.takeWhile (·.seq ≤ seq)).take count).length
        deleted := s.deleted ++ (s.sealed.takeWhile (·.seq ≤ seq)).take count
        deletions := s.deletions.eraseIdx due }
  | reopen (kept back t) (hback : ∀ seg ∈ back, seg ∈ s.deleted)
      (ht : s.tables.step fileSize .reopen = some t) :
      Step fileSize s (.reopen kept back) (s.reopened kept back t)

/-- What `step` computes is one of these. -/
theorem step_sound {fileSize : List Entry → Nat} {s s' : Engine} {a : EngineAct}
    (h : s.step fileSize a = some s') : Step fileSize s a s' := by
  cases a with
  | log batch =>
    simp only [step] at h
    split at h
    · next hg => exact Option.some.inj h ▸ .log batch hg.1 hg.2.1 hg.2.2
    · cases h
  | sync =>
    simp only [step] at h
    split at h
    · next batch hw => exact Option.some.inj h ▸ .sync batch hw
    · cases h
  | walFail kept =>
    simp only [step] at h
    split at h
    · next batch hw => exact Option.some.inj h ▸ .walFail batch kept hw
    · cases h
  | apply =>
    simp only [step] at h
    split at h
    · next batch hw => exact Option.some.inj h ▸ .apply batch hw
    · cases h
  | rotate outcome =>
    simp only [step] at h
    split at h
    · next hw =>
      cases outcome with
      | failed => exact Option.some.inj h ▸ .rotateFailed hw
      | closeFailed => exact Option.some.inj h ▸ .rotateCloseFailed hw
      | ok => exact Option.some.inj h ▸ .rotateOk hw
    · cases h
  | freeze =>
    simp only [step] at h
    split at h
    · next seq hw => exact Option.some.inj h ▸ .freeze seq hw
    · cases h
  | flushStart =>
    simp only [step] at h
    split at h
    · next frozen seq hf =>
      obtain ⟨t, ht, rfl⟩ := Option.map_eq_some_iff.mp h
      exact .flushStart frozen seq t hf ht
    · cases h
  | table a =>
    simp only [step] at h
    split at h
    · next ha =>
      obtain ⟨t, ht, rfl⟩ := Option.map_eq_some_iff.mp h
      exact .table a t ha ht
    · cases h
  | flushFinish =>
    simp only [step] at h
    split at h
    · next sst frozen seq hp hf =>
      obtain ⟨t, ht, rfl⟩ := Option.map_eq_some_iff.mp h
      exact .flushDone sst frozen seq t hp hf ht
    · next entries f hp hf =>
      obtain ⟨t, ht, rfl⟩ := Option.map_eq_some_iff.mp h
      exact .flushFailed entries f.1 f.2 t hp hf ht
    · cases h
  | deleteThrough due count =>
    simp only [step] at h
    split at h
    · next seq hd => exact Option.some.inj h ▸ .deleteThrough due count seq hd
    · cases h
  | reopen kept back =>
    simp only [step] at h
    split at h
    · next hb =>
      obtain ⟨t, ht, rfl⟩ := Option.map_eq_some_iff.mp h
      exact .reopen kept back t hb ht
    · cases h

/-! ## Runs -/

/-- The step of the table side that a step makes. -/
def tableAct (s : Engine) : EngineAct → Option TableAct
  | .flushStart => s.flushing.map fun f => .flushStart f.1.snapshot
  | .table a => some a
  | .flushFinish => some .flushFinish
  | .reopen _ _ => some .reopen
  | _ => none

/-- The MANIFEST call of a step, if it makes one, writes its whole line and returns nil, or
writes nothing and fails. -/
def AllOrNothing (s : Engine) (a : EngineAct) : Prop :=
  ∀ b ∈ s.tableAct a, s.tables.AllOrNothing b

instance (s : Engine) (a : EngineAct) : Decidable (s.AllOrNothing a) :=
  inferInstanceAs (Decidable (∀ b ∈ s.tableAct a, _))

theorem Step.tables {fileSize : List Entry → Nat} {s s' : Engine} {a : EngineAct}
    (h : Step fileSize s a s') :
    (∃ b, s.tableAct a = some b ∧ s.tables.step fileSize b = some s'.tables) ∨
      (s.tableAct a = none ∧ s'.tables = s.tables) := by
  cases h with
  | flushStart frozen seq t hf ht => exact Or.inl ⟨_, by simp [tableAct, hf], ht⟩
  | table a t ha ht | flushDone sst frozen seq t hp hf ht
  | flushFailed entries frozen seq t hp hf ht | reopen kept back t hb ht =>
    exact Or.inl ⟨_, rfl, ht⟩
  | _ => exact Or.inr ⟨rfl, rfl⟩

/-- The versions of a key that records put, in order. -/
def putsOf (key : String) (entries : List WalEntry) : List DataItem :=
  entries.filterMap fun e => match e with
    | .put k item => if k = key then some item else none
    | .restore _ _ => none

def restores (key : String) : WalEntry → Bool
  | .put _ _ => false
  | .restore k _ => k = key

/-- The step hands a Restore of the key to the WAL. -/
def logsRestore (key : String) : EngineAct → Bool
  | .log batch => batch.any (restores key)
  | _ => false

/-- What a batch leaves of a key's latest Restore : its items and the Puts since, if the
writer got nil. -/
def settle (key : String) : List (WalEntry × Bool) → Option (List DataItem × List DataItem) →
    Option (List DataItem × List DataItem)
  | [], r => r
  | (.put k item, _) :: rest, r =>
    settle key rest (if k = key then r.map fun p => (p.1, p.2 ++ [item]) else r)
  | (.restore k items, ok) :: rest, r =>
    settle key rest (if k = key then (if ok then some (items, []) else none) else r)

/-- What has happened so far. -/
structure Trace where
  /-- The tables registered, newest first. -/
  tables : List SSTable
  /-- The writes handed to the WAL. -/
  issued : List WalEntry
  /-- The writes applied to a memtable, or replayed into one by an Open. -/
  applied : List WalEntry
  /-- For a key whose latest Restore returned nil, its items and the versions put since. -/
  rolledBack : String → Option (List DataItem × List DataItem)

def Trace.empty : Trace :=
  ⟨[], [], [], fun _ => none⟩

/-- The trace after one more step. -/
def record (t : Trace) (s : Engine) (a : EngineAct) : Trace :=
  let t := match s.tableAct a with
    | some b => { t with tables := s.tables.recordFlush t.tables b }
    | none => t
  match a, s.writer with
  | .log batch, _ =>
    { t with
      issued := t.issued ++ batch
      rolledBack := fun key => if batch.any (restores key) then none
        else (t.rolledBack key).map fun p => (p.1, p.2 ++ putsOf key batch) }
  | .apply, .logged batch =>
    { t with
      applied := t.applied ++ batch
      rolledBack := fun key => if batch.any (restores key) then
          settle key (batch.zip (s.layers.applyBatch batch).2.2) none
        else t.rolledBack key }
  | .reopen kept back, _ => { t with applied := t.applied ++ (openLog (s.disk kept back)).1 }
  | _, _ => t

/-- A run from an empty directory in which every step is allowed where it happens, and what
has happened in it. -/
inductive Run (fileSize : List Entry → Nat) (maxBytes : Int)
    (allowed : Trace → Engine → EngineAct → Prop) : Trace → Engine → Prop
  | start : Run fileSize maxBytes allowed .empty (create maxBytes)
  | step {t : Trace} {s s' : Engine} {a : EngineAct} (hrun : Run fileSize maxBytes allowed t s)
      (ha : allowed t s a) (hstep : s.step fileSize a = some s') :
      Run fileSize maxBytes allowed (record t s a) s'

variable {fileSize : List Entry → Nat} {maxBytes : Int}
  {allowed : Trace → Engine → EngineAct → Prop} {t : Trace} {s s' : Engine} {a : EngineAct}

theorem record_tables : (record t s a).tables =
    match s.tableAct a with
    | some b => s.tables.recordFlush t.tables b
    | none => t.tables := by
  cases a <;> cases s.writer <;> simp only [record, tableAct] <;> split <;> rfl

/-- The table side of a run is a run of its own. -/
theorem Run.tables (h : Run fileSize maxBytes allowed t s) (ok : TableStore → TableAct → Prop)
    (hallowed : ∀ t s a, allowed t s a → ∀ b ∈ s.tableAct a, ok s.tables b) :
    TableStore.Run fileSize ok t.tables s.tables := by
  induction h with
  | start => exact .start
  | step hrun ha hstep ih =>
    rw [record_tables]
    rcases (step_sound hstep).tables with ⟨b, hb, htab⟩ | ⟨hb, htab⟩
    · rw [hb]
      exact ih.step (hallowed _ _ _ ha b hb) htab
    · rw [hb, htab]
      exact ih

/-- Take the steps one after another, each allowed where it happens. -/
def runActs (fileSize : List Entry → Nat) (allowed : Trace → Engine → EngineAct → Prop)
    [∀ t s a, Decidable (allowed t s a)] : Trace → Engine → List EngineAct → Option (Trace × Engine)
  | t, s, [] => some (t, s)
  | t, s, a :: acts =>
    if allowed t s a then
      (s.step fileSize a).bind fun s' => runActs fileSize allowed (record t s a) s' acts
    else none

theorem Run.runActs [∀ t s a, Decidable (allowed t s a)] : ∀ {acts : List EngineAct}
    {t t' : Trace} {s s' : Engine}, Run fileSize maxBytes allowed t s →
    Engine.runActs fileSize allowed t s acts = some (t', s') → Run fileSize maxBytes allowed t' s'
  | [], t, t', s, s', hrun, h => by
    obtain ⟨rfl, rfl⟩ : t = t' ∧ s = s' := by simpa [Engine.runActs] using h
    exact hrun
  | a :: acts, t, t', s, s', hrun, h => by
    simp only [Engine.runActs] at h
    split at h
    · next ha =>
      obtain ⟨s₁, hstep, hrest⟩ := Option.bind_eq_some_iff.mp h
      exact Run.runActs (hrun.step ha hstep) hrest
    · cases h

theorem Run.mono {allowed' : Trace → Engine → EngineAct → Prop}
    (himp : ∀ t s a, allowed t s a → allowed' t s a) (h : Run fileSize maxBytes allowed t s) :
    Run fileSize maxBytes allowed' t s := by
  induction h with
  | start => exact .start
  | step hrun ha hstep ih => exact ih.step (himp _ _ _ ha) hstep

/-! ## The shape of every state -/

theorem applyBatch_layers : ∀ (batch : List WalEntry) (l : Layers),
    (l.applyBatch batch).1 = { l with active := batch.foldl MemTable.apply l.active }
  | [], _ => rfl
  | e :: batch, l => by
    have hentry : (l.applyEntry e).1 = { l with active := l.active.apply e } := by
      cases e <;> rfl
    simp only [Layers.applyBatch, List.foldl_cons]
    rw [applyBatch_layers batch, hentry]

/-- The flush's own entries are those of the frozen memtable. -/
def FlushOf (phase : FlushPhase) (flushing : Option (MemTable × Nat)) : Prop :=
  match phase with
  | .idle => True
  | .started entries | .failed entries => ∃ f ∈ flushing, entries = f.1.snapshot
  | .written sst | .registered sst => ∃ f ∈ flushing, sst.entries = f.1.snapshot

/-- What the write lock's holder has done so far. -/
def WriterDid (s : Engine) : Prop :=
  match s.writer with
  | .idle => s.halted = true ∨ s.current.tail = []
  | .logging batch => s.halted = false ∧ s.current.tail = batch
  | .logged batch => s.halted = false ∧ s.current.tail = [] ∧ batch <:+ s.current.records
  | .swapping => s.halted = false ∧ s.current.tail = [] ∧ s.flushing = none
  | .rotated sealedSeg => s.halted = false ∧ s.current.tail = [] ∧ s.flushing = none ∧
      sealedSeg < s.current.seq ∧ ∀ seg ∈ s.sealed, seg.seq ≤ sealedSeg

/-- What holds in every state. -/
structure Shape (s : Engine) : Prop where
  sealed_sorted : s.sealed.Pairwise fun a b => a.seq ≤ b.seq
  sealed_lt : ∀ seg ∈ s.sealed, seg.seq < s.current.seq
  sealed_tail : ∀ seg ∈ s.sealed, seg.tail = []
  deleted_tail : ∀ seg ∈ s.deleted, seg.tail = []
  deletions_lt : ∀ n ∈ s.deletions, n < s.current.seq
  flushing_lt : ∀ f ∈ s.flushing, f.2 < s.current.seq
  writer : s.WriterDid
  flush : FlushOf s.tables.flush s.flushing

theorem shape_create (maxBytes : Int) : Shape (create maxBytes) := by
  constructor <;> simp [create, WriterDid, FlushOf, TableStore.create]

theorem Shape.nextSegment (h : Shape s) (htail : s.current.tail = []) {phase : WriterPhase}
    (hwriter : WriterDid { s.nextSegment with writer := phase }) :
    Shape { s.nextSegment with writer := phase } where
  sealed_sorted := by
    refine List.pairwise_append.mpr ⟨h.sealed_sorted, List.pairwise_singleton .., ?_⟩
    intro seg hseg c hc
    obtain rfl := List.mem_singleton.mp hc
    exact (h.sealed_lt seg hseg).le
  sealed_lt := by
    intro seg hseg
    rcases List.mem_append.mp hseg with hseg | hseg
    · exact (h.sealed_lt seg hseg).trans (Nat.lt_succ_self _)
    · obtain rfl := List.mem_singleton.mp hseg
      exact Nat.lt_succ_self _
  sealed_tail := by
    intro seg hseg
    rcases List.mem_append.mp hseg with hseg | hseg
    · exact h.sealed_tail seg hseg
    · obtain rfl := List.mem_singleton.mp hseg
      exact htail
  deleted_tail := h.deleted_tail
  deletions_lt := fun n hn => (h.deletions_lt n hn).trans (Nat.lt_succ_self _)
  flushing_lt := fun f hf => (h.flushing_lt f hf).trans (Nat.lt_succ_self _)
  writer := hwriter
  flush := h.flush

/-- A step of the tables leaves the flush to work on what it had. -/
theorem flushOf_background {b : TableAct} {tables : TableStore} (hb : b.background = true)
    (ht : s.tables.step fileSize b = some tables) (h : FlushOf s.tables.flush s.flushing) :
    FlushOf tables.flush s.flushing := by
  cases TableStore.step_sound ht with
  | flushStart => cases hb
  | flushWrite entries ts hf | flushWriteFail entries ts left hf => rwa [hf] at h
  | flushAdd sst written ok hf =>
    rw [hf] at h
    cases ok
    · obtain ⟨f, hf, he⟩ := h
      exact ⟨f, hf, he⟩
    · exact h
  | flushDone | flushPutBack | reopen => cases hb
  | _ => exact h

theorem flush_idle_of_finish {tables : TableStore}
    (ht : s.tables.step fileSize .flushFinish = some tables) : tables.flush = .idle := by
  cases TableStore.step_sound ht <;> rfl

theorem flush_idle_of_reopen {tables : TableStore}
    (ht : s.tables.step fileSize .reopen = some tables) : tables.flush = .idle := by
  cases TableStore.step_sound ht
  rfl

theorem mem_listSegments {disk : List Segment} {seg : Segment} :
    seg ∈ listSegments disk ↔ seg ∈ disk :=
  List.mem_insertionSort _

theorem le_foldl_next : ∀ (l : List Segment) (next : Nat),
    next ≤ l.foldl (fun next seg => if seg.seq ≥ next then seg.seq + 1 else next) next ∧
    ∀ seg ∈ l, seg.seq < l.foldl (fun next seg => if seg.seq ≥ next then seg.seq + 1 else next) next
  | [], _ => by simp
  | seg :: l, next => by
    obtain ⟨hle, hall⟩ := le_foldl_next l (if seg.seq ≥ next then seg.seq + 1 else next)
    rw [List.foldl_cons]
    have hseg : next ≤ (if seg.seq ≥ next then seg.seq + 1 else next) ∧
        seg.seq < (if seg.seq ≥ next then seg.seq + 1 else next) := by
      split <;> omega
    exact ⟨hseg.1.trans hle, List.forall_mem_cons.mpr ⟨hseg.2.trans_le hle, hall⟩⟩

/-- An Open leaves segments that were there, in order, and starts one behind them. -/
theorem openLog_spec (disk : List Segment) :
    (openLog disk).2.1.Pairwise (fun a b => a.seq ≤ b.seq) ∧
    (∀ seg ∈ (openLog disk).2.1, seg ∈ disk ∧ seg.seq < (openLog disk).2.2) := by
  refine ⟨(List.pairwise_insertionSort _ _).sublist List.filter_sublist, fun seg hseg => ?_⟩
  have hmem := (List.mem_filter.mp hseg).1
  exact ⟨mem_listSegments.mp hmem, (le_foldl_next _ 1).2 seg hmem⟩

/-- The end of a flush is none of the writer's concern. -/
theorem WriterDid.unflushed (h : s.WriterDid) (tables : TableStore) (active : MemTable)
    (deletions : List Nat) : WriterDid { s with
      tables := tables, active := active, flushing := none, deletions := deletions } := by
  unfold WriterDid at h ⊢
  split at h <;> simp_all

theorem Shape.unflushed (h : Shape s) {tables : TableStore} (hidle : tables.flush = .idle)
    (active : MemTable) {deletions : List Nat} (hlt : ∀ n ∈ deletions, n < s.current.seq) :
    Shape { s with
      tables := tables, active := active, flushing := none, deletions := deletions } :=
  { h with
    deletions_lt := hlt
    flushing_lt := by simp
    writer := h.writer.unflushed tables active deletions
    flush := by simp [hidle, FlushOf] }

/-- Every step keeps the shape. -/
theorem shape_step (h : Shape s)
    (hstep : Step fileSize s a s') : Shape s' := by
  have hwriter := h.writer
  cases hstep with
  | log batch hidle hhalt => exact { h with writer := ⟨hhalt, rfl⟩ }
  | sync batch hw =>
    simp only [WriterDid, hw] at hwriter
    exact { h with writer := ⟨hwriter.1, rfl, List.suffix_append ..⟩ }
  | walFail => exact { h with writer := Or.inl rfl }
  | apply batch hw =>
    simp only [WriterDid, hw] at hwriter
    refine { h with writer := ?_ }
    simp only [WriterDid]
    split
    · next hwr => split at hwr <;> simp_all
    all_goals next hwr => split at hwr <;> simp_all
  | rotateFailed hw =>
    simp only [WriterDid, hw] at hwriter
    exact { h with writer := Or.inr hwriter.2.1 }
  | rotateCloseFailed hw =>
    simp only [WriterDid, hw] at hwriter
    exact h.nextSegment hwriter.2.1 (Or.inr rfl)
  | rotateOk hw =>
    simp only [WriterDid, hw] at hwriter
    refine h.nextSegment hwriter.2.1 ⟨hwriter.1, rfl, hwriter.2.2, Nat.lt_succ_self _, ?_⟩
    intro seg hseg
    rcases List.mem_append.mp hseg with hseg | hseg
    · exact (h.sealed_lt seg hseg).le
    · exact (List.mem_singleton.mp hseg ▸ le_rfl)
  | freeze sealedSeg hw =>
    simp only [WriterDid, hw] at hwriter
    obtain ⟨-, htail, hnone, hlt, -⟩ := hwriter
    refine { h with writer := Or.inr htail, flushing_lt := ?_, flush := ?_ }
    · rintro f hf
      obtain rfl : (s.active, sealedSeg) = f := by simpa using hf
      exact hlt
    · have hflush := h.flush
      rw [hnone] at hflush
      unfold FlushOf at hflush ⊢
      split at hflush <;> simp_all
  | flushStart frozen seq tables hf ht =>
    refine { h with flush := ?_, writer := hwriter }
    cases TableStore.step_sound ht
    exact ⟨_, hf, rfl⟩
  | table b tables hb ht =>
    have hflush := flushOf_background hb ht h.flush
    exact { h with flush := hflush, writer := hwriter }
  | flushDone sst frozen seq tables hp hf ht =>
    refine h.unflushed (flush_idle_of_finish ht) s.active fun n hn => ?_
    rcases List.mem_append.mp hn with hn | hn
    · exact h.deletions_lt n hn
    · exact List.mem_singleton.mp hn ▸ h.flushing_lt _ hf
  | flushFailed entries frozen seq tables hp hf ht =>
    exact h.unflushed (flush_idle_of_finish ht) _ h.deletions_lt
  | deleteThrough due count seq =>
    have hsub := List.drop_sublist ((s.sealed.takeWhile (·.seq ≤ seq)).take count).length s.sealed
    exact { h with
      sealed_sorted := h.sealed_sorted.sublist hsub
      sealed_lt := fun seg hseg => h.sealed_lt seg (hsub.mem hseg)
      sealed_tail := fun seg hseg => h.sealed_tail seg (hsub.mem hseg)
      deleted_tail := by
        intro seg hseg
        rcases List.mem_append.mp hseg with hseg | hseg
        · exact h.deleted_tail seg hseg
        · exact h.sealed_tail seg (List.takeWhile_subset _ (List.mem_of_mem_take hseg))
      deletions_lt := fun n hn => h.deletions_lt n (List.mem_of_mem_eraseIdx hn)
      writer := by
        unfold WriterDid at hwriter ⊢
        split at hwriter <;> simp_all
        exact fun seg hseg => hwriter.2.2.2.2 seg (hsub.mem hseg) }
  | reopen kept back tables hb ht =>
    obtain ⟨hsorted, hmem⟩ := openLog_spec (s.disk kept back)
    refine ⟨hsorted, fun seg hseg => (hmem seg hseg).2, fun seg hseg => ?_, fun seg hseg => ?_,
      by simp, by simp, Or.inr rfl, by simp [flush_idle_of_reopen ht, FlushOf]⟩
    · rcases List.mem_append.mp (hmem seg hseg).1 with hseg | hseg
      · rcases List.mem_append.mp hseg with hseg | hseg
        · exact h.deleted_tail seg (hb seg hseg)
        · exact h.sealed_tail seg hseg
      · obtain rfl := List.mem_singleton.mp hseg
        rfl
    · exact h.deleted_tail seg (List.mem_filter.mp hseg).1

/-- What a `DeleteThrough` removes : segments from the front, none beyond its number. -/
theorem deleteThrough_split (sealed : List Segment) (seq count : Nat) :
    ∃ doomed rest, (sealed.takeWhile (·.seq ≤ seq)).take count = doomed ∧
      sealed.drop doomed.length = rest ∧ sealed = doomed ++ rest ∧ ∀ seg ∈ doomed, seg.seq ≤ seq := by
  obtain ⟨rest, hrest⟩ : ((sealed.takeWhile (·.seq ≤ seq)).take count) <+: sealed :=
    (List.take_prefix _ _).trans (List.takeWhile_prefix _)
  refine ⟨_, rest, rfl, ?_, hrest.symm, fun seg hseg => ?_⟩
  · nth_rewrite 2 [← hrest]
    rw [List.drop_left]
  · simpa using List.mem_takeWhile_imp (List.mem_of_mem_take hseg)

theorem shape_of_run (h : Run fileSize maxBytes allowed t s) : Shape s := by
  induction h with
  | start => exact shape_create _
  | step hrun ha hstep ih => exact shape_step ih (step_sound hstep)

/-! ## What readers see of it -/

/-- Apart from applying a batch, the tables' own steps and an Open, what a step does to the
layers is freezing a memtable or ending a flush. -/
theorem maintains_step (hflush : FlushOf s.tables.flush s.flushing)
    (hfree : ∀ n, s.writer = .rotated n → s.flushing = none) (hstep : Step fileSize s a s')
    (happly : a ≠ .apply) (htable : ∀ b, a ≠ .table b)
    (hreopen : ∀ kept back, a ≠ .reopen kept back) : s.layers.Maintains s'.layers := by
  cases hstep with
  | apply => exact absurd rfl happly
  | table b => exact absurd rfl (htable b)
  | reopen kept back => exact absurd rfl (hreopen kept back)
  | freeze n hw => exact Layers.maintains_freeze (by simp [layers, hfree n hw])
  | flushStart frozen seq t hf ht =>
    cases TableStore.step_sound ht
    exact .refl _
  | flushDone sst frozen seq t hp hf ht =>
    rw [hp, hf] at hflush
    obtain ⟨f, hf', hentries⟩ := hflush
    cases hf'
    have hfrozen : s.layers.flushing = some frozen := by simp [layers, hf]
    cases TableStore.step_sound ht with
    | flushDone sst' hp' =>
      cases hp.symm.trans hp'
      exact Layers.maintains_flushed hfrozen hentries
    | flushPutBack entries hp' => cases hp.symm.trans hp'
  | flushFailed entries frozen seq t hp hf ht =>
    rw [hp, hf] at hflush
    obtain ⟨f, hf', rfl⟩ := hflush
    cases hf'
    have hfrozen : s.layers.flushing = some frozen := by simp [layers, hf]
    cases TableStore.step_sound ht with
    | flushDone sst hp' => cases hp.symm.trans hp'
    | flushPutBack => exact Layers.maintains_flushFailed hfrozen
  | _ => exact .refl _

/-- In every run, reads are the same before and after such a step. -/
theorem maintains_of_run (h : Run fileSize maxBytes allowed t s)
    (hstep : s.step fileSize a = some s') (happly : a ≠ .apply) (htable : ∀ b, a ≠ .table b)
    (hreopen : ∀ kept back, a ≠ .reopen kept back) : s.layers.Maintains s'.layers := by
  have hshape := shape_of_run h
  refine maintains_step hshape.flush (fun n hw => ?_) (step_sound hstep) happly htable hreopen
  have hwriter := hshape.writer
  rw [WriterDid, hw] at hwriter
  exact hwriter.2.2.1

end Engine

end DistributedKV
