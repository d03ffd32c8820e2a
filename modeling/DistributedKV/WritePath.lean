import DistributedKV.Engine
import DistributedKV.Framing

/-!
# The write path

How Puts and Restores reach the WAL, on top of `Engine` : writers that check the halt flag,
encode, and hand their request to the committer's queue or take the write lock themselves;
the committer that fills a batch; the commit that writes a batch's bytes to the current
segment's file, fsyncs, and applies it; and the answer to each writer. Any Write may be
short or fail, any fsync may fail. A crash keeps the fsynced bytes of each file and any
part from the front of the rest, and the Open after it reads the files byte by byte.

The segments of the `Engine` inside say which records the files are meant to hold. Nothing
the code does reads them; `Files` (in `WriteSafety`) ties them to the bytes.
-/

open Framing

namespace DistributedKV

/-- One write on its way to the WAL. -/
structure Request where
  id : Nat
  entry : WalEntry
deriving DecidableEq

/-- What a write returns. -/
inductive Outcome
  | ok
  /-- A Restore that reads back something else. -/
  | incomplete
  /-- The WAL write or the fsync of its batch failed. -/
  | walError
  | halted
  | closed
deriving DecidableEq

/-- A segment's file; its first `synced` bytes are fsynced. -/
structure WalFile where
  seq : Nat
  bytes : List UInt8
  synced : Nat
deriving DecidableEq

/-- What a crash leaves of it : `kept` bytes that were not fsynced. -/
def WalFile.afterCrash (f : WalFile) (kept : Nat) : WalFile :=
  { f with bytes := f.bytes.take (f.synced + kept) }

/-- `replayFile` : the records, and the file without its torn tail. -/
def WalFile.replayFile (c : Codec WalEntry) (f : WalFile) : Option (WalFile × List WalEntry) :=
  match Framing.replay c f.bytes with
  | .ok (entries, validEnd) => some (⟨f.seq, f.bytes.take validEnd, validEnd⟩, entries)
  | .error _ => none

/-- Replay every segment file of a directory, oldest first. -/
def openFiles (c : Codec WalEntry) (disk : List WalFile) : Option (List (WalFile × List WalEntry)) :=
  (disk.insertionSort fun a b => a.seq ≤ b.seq).mapM (WalFile.replayFile c)

def maxBatchRecords : Nat := 1000

def maxBatchBytes : Nat := 2 ^ 20

/-- Where the committer's loop stands. -/
inductive Committer
  | receiving
  | filling (batch : List Request)
  | ready (batch : List Request)
deriving DecidableEq

/-- Where the call of `commit` stands. -/
inductive CommitPhase
  | free
  | running (batch : List Request)
  /-- Every request has its outcome; the writers do not know yet. -/
  | done (batch : List Request)
deriving DecidableEq

structure WritePath where
  engine : Engine
  current : WalFile
  /-- The files of the older segments, oldest first. -/
  sealed : List WalFile
  deleted : List WalFile
  groupCommit : Bool
  closed : Bool
  nextID : Nat
  /-- Requests encoded by their writers and not yet handed over. -/
  pending : List Request
  queue : List Request
  carried : Option Request
  committer : Committer
  commit : CommitPhase
  /-- The outcomes since the last Open. -/
  decided : List (Request × Outcome)
  /-- Every write whose outcome was nil, with its segment. -/
  acked : List (Nat × WalEntry)
  /-- What the layers held at the last Open. -/
  base : String → List DataItem

inductive WriteAct
  /-- A writer checks the halt flag and encodes its entry. -/
  | submit (entry : WalEntry)
  | enqueue (i : Nat)
  /-- Without group commit : a writer takes the write lock. -/
  | lock (i : Nat)
  | receive
  | fill
  | fillEnd
  /-- The committer takes the write lock. -/
  | lockBatch
  /-- `commit` checks the halt flag and writes the batch. -/
  | write
  | fsync
  /-- The Write failed after so many bytes, or the fsync failed. -/
  | walFail (written : Nat)
  | apply
  | rotate (outcome : RotateOutcome)
  | freeze
  /-- `commit` returns. -/
  | signal
  | close
  | background (a : EngineAct)
  | deleteThrough (due count : Nat)
  /-- A crash that keeps `kept` bytes of what was not fsynced and undoes the deletion of
  some segments, and the Open after it. -/
  | reopen (groupCommit : Bool) (kept : Nat) (back : List Nat)
deriving DecidableEq

/-- The steps of a flush or a compaction. -/
def EngineAct.background : EngineAct → Bool
  | .flushStart | .table _ | .flushFinish => true
  | _ => false

namespace WritePath

variable (c : Codec WalEntry) (fileSize : List Entry → Nat)

def create (maxBytes : Int) (groupCommit : Bool) : WritePath :=
  { engine := .create maxBytes, current := ⟨1, [], 0⟩, sealed := [], deleted := []
    groupCommit := groupCommit, closed := false, nextID := 0, pending := [], queue := []
    carried := none, committer := .receiving, commit := .free, decided := [], acked := []
    base := fun _ => [] }

def recordBytes (batch : List Request) : Nat :=
  (batch.map fun r => (encode c r.entry).length).sum

/-- The outcome of an applied write, nil unless it is a Restore that failed its check. -/
def verdict (ok : Bool) : Outcome :=
  if ok then .ok else .incomplete

/-- The segment files a crash leaves. -/
def disk (s : WritePath) (kept : Nat) (back : List Nat) : List WalFile :=
  s.deleted.filter (·.seq ∈ back) ++ s.sealed ++ [s.current.afterCrash kept]

/-- How many of a batch's records are complete in its first `written` bytes. -/
def complete (entries : List WalEntry) (written : Nat) : Nat :=
  match Framing.replay c ((encodeAll c entries).take written) with
  | .ok (whole, _) => whole.length
  | .error _ => 0

/-- The engine after an Open that found these files. -/
def opened (s : WritePath) (tables : TableStore) (back : List Nat)
    (found : List (WalFile × List WalEntry)) : Engine :=
  { tables := tables
    active := (found.flatMap Prod.snd).foldl MemTable.apply (.new s.engine.active.maxBytes)
    flushing := none
    current := ⟨found.foldl (fun next f => if f.1.seq ≥ next then f.1.seq + 1 else next) 1, [], []⟩
    sealed := (found.filter (·.2 ≠ [])).map fun f => ⟨f.1.seq, f.2, []⟩
    deletions := []
    deleted := s.engine.deleted.filter (·.seq ∉ back)
    writer := .idle
    halted := false }

/-- Open's answer : the engine, its files, and nothing under way. -/
abbrev reopened (s : WritePath) (groupCommit : Bool) (back : List Nat)
    (found : List (WalFile × List WalEntry)) (tables : TableStore) : WritePath :=
  { engine := s.opened tables back found
    current := ⟨(s.opened tables back found).current.seq, [], 0⟩
    sealed := (found.filter (·.2 ≠ [])).map Prod.fst
    deleted := s.deleted.filter (·.seq ∉ back)
    groupCommit := groupCommit, closed := false, nextID := s.nextID, pending := [], queue := []
    carried := none, committer := .receiving, commit := .free, decided := []
    acked := s.acked, base := (s.opened tables back found).layers.items }

/-- One step; nothing when it cannot happen here. -/
def step (s : WritePath) : WriteAct → Option WritePath
  | .submit entry =>
    let r := ⟨s.nextID, entry⟩
    if s.engine.halted then
      some { s with nextID := s.nextID + 1, decided := s.decided ++ [(r, .halted)] }
    else some { s with nextID := s.nextID + 1, pending := s.pending ++ [r] }
  | .enqueue i =>
    match s.groupCommit, s.pending[i]? with
    | true, some r =>
      if s.closed then
        some { s with pending := s.pending.eraseIdx i, decided := s.decided ++ [(r, .closed)] }
      else if s.queue.length < maxBatchRecords then
        some { s with pending := s.pending.eraseIdx i, queue := s.queue ++ [r] }
      else none
    | _, _ => none
  | .lock i =>
    match s.groupCommit, s.commit, s.pending[i]? with
    | false, .free, some r =>
      if s.closed then
        some { s with pending := s.pending.eraseIdx i, decided := s.decided ++ [(r, .closed)] }
      else some { s with pending := s.pending.eraseIdx i, commit := .running [r] }
    | _, _, _ => none
  | .receive =>
    match s.groupCommit, s.commit, s.committer with
    | true, .free, .receiving =>
      match s.carried, s.queue with
      | some r, _ => some { s with carried := none, committer := .filling [r] }
      | none, r :: queue => some { s with queue := queue, committer := .filling [r] }
      | none, [] => none
    | _, _, _ => none
  | .fill =>
    match s.committer, s.queue with
    | .filling batch, r :: queue =>
      if batch.length < maxBatchRecords then
        if recordBytes c batch + (encode c r.entry).length > maxBatchBytes then
          some { s with queue := queue, carried := some r, committer := .ready batch }
        else some { s with queue := queue, committer := .filling (batch ++ [r]) }
      else none
    | _, _ => none
  | .fillEnd =>
    match s.committer with
    | .filling batch =>
      if batch.length < maxBatchRecords ∧ s.queue ≠ [] then none
      else some { s with committer := .ready batch }
    | _ => none
  | .lockBatch =>
    match s.committer, s.commit with
    | .ready batch, .free => some { s with committer := .receiving, commit := .running batch }
    | _, _ => none
  | .write =>
    match s.commit with
    | .running batch =>
      if s.engine.halted then
        some { s with
          commit := .done batch, decided := s.decided ++ batch.map fun r => (r, .halted) }
      else
        (s.engine.step fileSize (.log (batch.map Request.entry))).map fun e =>
          { s with
            engine := e
            current := { s.current with
              bytes := s.current.bytes ++ encodeAll c (batch.map Request.entry) } }
    | _ => none
  | .fsync =>
    (s.engine.step fileSize .sync).map fun e =>
      { s with engine := e, current := { s.current with synced := s.current.bytes.length } }
  | .walFail written =>
    match s.commit with
    | .running batch =>
      let kept := complete c (batch.map Request.entry) written
      (s.engine.step fileSize (.walFail kept)).map fun e =>
        { s with
          engine := e
          current := { s.current with bytes := s.current.bytes.take (s.current.synced + written) }
          commit := .done batch
          decided := s.decided ++ batch.map fun r => (r, .walError) }
    | _ => none
  | .apply =>
    match s.commit with
    | .running batch =>
      let oks := (s.engine.layers.applyBatch (batch.map Request.entry)).2.2
      (s.engine.step fileSize .apply).map fun e =>
        { s with
          engine := e
          commit := .done batch
          decided := s.decided ++ batch.zip (oks.map verdict)
          acked := s.acked ++ ((batch.zip oks).filter Prod.snd).map fun p =>
            (s.current.seq, p.1.entry) }
    | _ => none
  | .rotate outcome =>
    (s.engine.step fileSize (.rotate outcome)).map fun e =>
      if outcome = .failed then { s with engine := e }
      else { s with
        engine := e, sealed := s.sealed ++ [s.current], current := ⟨s.current.seq + 1, [], 0⟩ }
  | .freeze => (s.engine.step fileSize .freeze).map fun e => { s with engine := e }
  | .signal =>
    match s.commit, s.engine.writer with
    | .done _, .idle => some { s with commit := .free }
    | _, _ => none
  | .close =>
    if s.groupCommit ∨ s.commit = .free then some { s with closed := true } else none
  | .background a =>
    if a.background then (s.engine.step fileSize a).map fun e => { s with engine := e } else none
  | .deleteThrough due count =>
    match s.engine.deletions[due]? with
    | some seq =>
      let doomed := (s.sealed.takeWhile (·.seq ≤ seq)).take count
      (s.engine.step fileSize (.deleteThrough due count)).map fun e =>
        { s with
          engine := e, sealed := s.sealed.drop doomed.length, deleted := s.deleted ++ doomed }
    | none => none
  | .reopen groupCommit kept back =>
    (openFiles c (s.disk kept back)).bind fun found =>
      (s.engine.tables.step fileSize .reopen).map (s.reopened groupCommit back found)

/-! ## What a step can do -/

/-- Every possible step with its guard and its result. -/
inductive Step (s : WritePath) : WriteAct → WritePath → Prop
  | submitHalted (entry) (h : s.engine.halted = true) :
      Step s (.submit entry) { s with
        nextID := s.nextID + 1, decided := s.decided ++ [(⟨s.nextID, entry⟩, .halted)] }
  | submit (entry) (h : s.engine.halted = false) :
      Step s (.submit entry) { s with
        nextID := s.nextID + 1, pending := s.pending ++ [⟨s.nextID, entry⟩] }
  | enqueueClosed (i r) (hi : s.pending[i]? = some r) :
      Step s (.enqueue i) { s with
        pending := s.pending.eraseIdx i, decided := s.decided ++ [(r, .closed)] }
  | enqueue (i r) (hi : s.pending[i]? = some r) (hopen : s.closed = false)
      (hcap : s.queue.length < maxBatchRecords) :
      Step s (.enqueue i) { s with pending := s.pending.eraseIdx i, queue := s.queue ++ [r] }
  | lockClosed (i r) (hi : s.pending[i]? = some r) :
      Step s (.lock i) { s with
        pending := s.pending.eraseIdx i, decided := s.decided ++ [(r, .closed)] }
  | lock (i r) (hi : s.pending[i]? = some r) (hfree : s.commit = .free) :
      Step s (.lock i) { s with pending := s.pending.eraseIdx i, commit := .running [r] }
  | receiveCarried (r) (hrecv : s.committer = .receiving) (hr : s.carried = some r) :
      Step s .receive { s with carried := none, committer := .filling [r] }
  | receive (r queue) (hrecv : s.committer = .receiving) (hnone : s.carried = none)
      (hq : s.queue = r :: queue) :
      Step s .receive { s with queue := queue, committer := .filling [r] }
  | fillOver (batch r queue) (hfill : s.committer = .filling batch) (hq : s.queue = r :: queue)
      (hlen : batch.length < maxBatchRecords) :
      Step s .fill { s with queue := queue, carried := some r, committer := .ready batch }
  | fill (batch r queue) (hfill : s.committer = .filling batch) (hq : s.queue = r :: queue)
      (hlen : batch.length < maxBatchRecords)
      (hfits : recordBytes c batch + (encode c r.entry).length ≤ maxBatchBytes) :
      Step s .fill { s with queue := queue, committer := .filling (batch ++ [r]) }
  | fillEnd (batch) (hfill : s.committer = .filling batch) :
      Step s .fillEnd { s with committer := .ready batch }
  | lockBatch (batch) (hready : s.committer = .ready batch) (hfree : s.commit = .free) :
      Step s .lockBatch { s with committer := .receiving, commit := .running batch }
  | writeHalted (batch) (hrun : s.commit = .running batch) (h : s.engine.halted = true) :
      Step s .write { s with
        commit := .done batch, decided := s.decided ++ batch.map fun r => (r, .halted) }
  | write (batch e) (hrun : s.commit = .running batch) (h : s.engine.halted = false)
      (he : s.engine.step fileSize (.log (batch.map Request.entry)) = some e) :
      Step s .write { s with
        engine := e
        current := { s.current with
          bytes := s.current.bytes ++ encodeAll c (batch.map Request.entry) } }
  | fsync (e) (he : s.engine.step fileSize .sync = some e) :
      Step s .fsync { s with
        engine := e, current := { s.current with synced := s.current.bytes.length } }
  | walFail (batch written e) (hrun : s.commit = .running batch)
      (he : s.engine.step fileSize (.walFail (complete c (batch.map Request.entry) written)) = some e) :
      Step s (.walFail written) { s with
        engine := e
        current := { s.current with bytes := s.current.bytes.take (s.current.synced + written) }
        commit := .done batch
        decided := s.decided ++ batch.map fun r => (r, .walError) }
  | apply (batch e) (hrun : s.commit = .running batch) (he : s.engine.step fileSize .apply = some e) :
      Step s .apply { s with
        engine := e
        commit := .done batch
        decided := s.decided ++
          batch.zip ((s.engine.layers.applyBatch (batch.map Request.entry)).2.2.map verdict)
        acked := s.acked ++ ((batch.zip
          (s.engine.layers.applyBatch (batch.map Request.entry)).2.2).filter Prod.snd).map fun p =>
            (s.current.seq, p.1.entry) }
  | rotateFailed (e) (he : s.engine.step fileSize (.rotate .failed) = some e) :
      Step s (.rotate .failed) { s with engine := e }
  | rotate (outcome e) (ho : outcome ≠ .failed)
      (he : s.engine.step fileSize (.rotate outcome) = some e) :
      Step s (.rotate outcome) { s with
        engine := e, sealed := s.sealed ++ [s.current], current := ⟨s.current.seq + 1, [], 0⟩ }
  | freeze (e) (he : s.engine.step fileSize .freeze = some e) : Step s .freeze { s with engine := e }
  | signal (batch) (hdone : s.commit = .done batch) (hidle : s.engine.writer = .idle) :
      Step s .signal { s with commit := .free }
  | close : Step s .close { s with closed := true }
  | background (a e) (ha : a.background = true) (he : s.engine.step fileSize a = some e) :
      Step s (.background a) { s with engine := e }
  | deleteThrough (due count seq e) (hseq : s.engine.deletions[due]? = some seq)
      (he : s.engine.step fileSize (.deleteThrough due count) = some e) :
      Step s (.deleteThrough due count) { s with
        engine := e
        sealed := s.sealed.drop ((s.sealed.takeWhile (·.seq ≤ seq)).take count).length
        deleted := s.deleted ++ (s.sealed.takeWhile (·.seq ≤ seq)).take count }
  | reopen (groupCommit kept back found t) (hfound : openFiles c (s.disk kept back) = some found)
      (ht : s.engine.tables.step fileSize .reopen = some t) :
      Step s (.reopen groupCommit kept back) (s.reopened groupCommit back found t)

variable {c fileSize}

/-- What `step` computes is one of these. -/
theorem step_sound {s s' : WritePath} {a : WriteAct} (h : s.step c fileSize a = some s') :
    Step c fileSize s a s' := by
  cases a with
  | submit entry =>
    simp only [step] at h
    split at h
    · next hh => exact Option.some.inj h ▸ .submitHalted entry hh
    · next hh => exact Option.some.inj h ▸ .submit entry (by simpa using hh)
  | enqueue i =>
    simp only [step] at h
    split at h
    · next r _ hi =>
      split at h
      · exact Option.some.inj h ▸ .enqueueClosed i r hi
      · next hopen =>
        split at h
        · next hcap => exact Option.some.inj h ▸ .enqueue i r hi (by simpa using hopen) hcap
        · cases h
    · cases h
  | lock i =>
    simp only [step] at h
    split at h
    · next r _ hfree hi =>
      split at h
      · exact Option.some.inj h ▸ .lockClosed i r hi
      · exact Option.some.inj h ▸ .lock i r hi hfree
    · cases h
  | receive =>
    simp only [step] at h
    split at h
    · next _ _ hrecv =>
      split at h
      · next r hr => exact Option.some.inj h ▸ .receiveCarried r hrecv hr
      · next r queue hnone hq => exact Option.some.inj h ▸ .receive r queue hrecv hnone hq
      · cases h
    · cases h
  | fill =>
    simp only [step] at h
    split at h
    · next batch r queue hfill hq =>
      split at h
      · next hlen =>
        split at h
        · exact Option.some.inj h ▸ .fillOver batch r queue hfill hq hlen
        · next hfits => exact Option.some.inj h ▸ .fill batch r queue hfill hq hlen (by omega)
      · cases h
    · cases h
  | fillEnd =>
    simp only [step] at h
    split at h
    · next batch hfill =>
      split at h
      · cases h
      · exact Option.some.inj h ▸ .fillEnd batch hfill
    · cases h
  | lockBatch =>
    simp only [step] at h
    split at h
    · next batch hready hfree => exact Option.some.inj h ▸ .lockBatch batch hready hfree
    · cases h
  | write =>
    simp only [step] at h
    split at h
    · next batch hrun =>
      split at h
      · next hh => exact Option.some.inj h ▸ .writeHalted batch hrun hh
      · next hh =>
        obtain ⟨e, he, rfl⟩ := Option.map_eq_some_iff.mp h
        exact .write batch e hrun (by simpa using hh) he
    · cases h
  | fsync =>
    obtain ⟨e, he, rfl⟩ := Option.map_eq_some_iff.mp h
    exact .fsync e he
  | walFail written =>
    simp only [step] at h
    split at h
    · next batch hrun =>
      obtain ⟨e, he, rfl⟩ := Option.map_eq_some_iff.mp h
      exact .walFail batch written e hrun he
    · cases h
  | apply =>
    simp only [step] at h
    split at h
    · next batch hrun =>
      obtain ⟨e, he, rfl⟩ := Option.map_eq_some_iff.mp h
      exact .apply batch e hrun he
    · cases h
  | rotate outcome =>
    obtain ⟨e, he, rfl⟩ := Option.map_eq_some_iff.mp h
    split
    · next ho =>
      subst ho
      exact .rotateFailed e he
    · next ho => exact .rotate outcome e ho he
  | freeze =>
    obtain ⟨e, he, rfl⟩ := Option.map_eq_some_iff.mp h
    exact .freeze e he
  | signal =>
    simp only [step] at h
    split at h
    · next batch hdone hidle => exact Option.some.inj h ▸ .signal batch hdone hidle
    · cases h
  | close =>
    simp only [step] at h
    split at h
    · exact Option.some.inj h ▸ .close
    · cases h
  | background a =>
    simp only [step] at h
    split at h
    · next ha =>
      obtain ⟨e, he, rfl⟩ := Option.map_eq_some_iff.mp h
      exact .background a e ha he
    · cases h
  | deleteThrough due count =>
    simp only [step] at h
    split at h
    · next seq hseq =>
      obtain ⟨e, he, rfl⟩ := Option.map_eq_some_iff.mp h
      exact .deleteThrough due count seq e hseq he
    · cases h
  | reopen groupCommit kept back =>
    obtain ⟨found, hfound, h⟩ := Option.bind_eq_some_iff.mp h
    obtain ⟨t, ht, rfl⟩ := Option.map_eq_some_iff.mp h
    exact .reopen groupCommit kept back found t hfound ht

theorem fill_eq {s : WritePath} {batch : List Request} {r : Request} {queue : List Request}
    (hfill : s.committer = .filling batch) (hqueue : s.queue = r :: queue)
    (hrecords : batch.length < maxBatchRecords)
    (hbytes : recordBytes c batch + (encode c r.entry).length ≤ maxBatchBytes) :
    s.step c fileSize .fill = some { s with
      queue := queue, committer := .filling (batch ++ [r]) } := by
  simp [step, hfill, hqueue, hrecords, Nat.not_lt.mpr hbytes]

theorem signal_eq {s : WritePath} {batch : List Request} (hdone : s.commit = .done batch)
    (hidle : s.engine.writer = .idle) :
    s.step c fileSize .signal = some { s with commit := .free } := by
  simp [step, hdone, hidle]

/-! ## Runs -/

/-- A run from an empty directory, with or without group commit, in which every step is
allowed where it happens. -/
inductive Run (c : Codec WalEntry) (fileSize : List Entry → Nat) (maxBytes : Int)
    (allowed : WritePath → WriteAct → Prop) : WritePath → Prop
  | start (groupCommit : Bool) : Run c fileSize maxBytes allowed (create maxBytes groupCommit)
  | step {s s' : WritePath} {a : WriteAct} (hrun : Run c fileSize maxBytes allowed s)
      (ha : allowed s a) (hstep : s.step c fileSize a = some s') :
      Run c fileSize maxBytes allowed s'

theorem Run.acts {maxBytes : Int} {allowed : WritePath → WriteAct → Prop} :
    ∀ {acts : List WriteAct} {s s' : WritePath}, Run c fileSize maxBytes allowed s →
      (∀ s, ∀ a ∈ acts, allowed s a) → acts.foldlM (fun s a => s.step c fileSize a) s = some s' →
      Run c fileSize maxBytes allowed s'
  | [], s, s', h, _, hacts => by
    obtain rfl : s = s' := by simpa using hacts
    exact h
  | a :: acts, s, s', h, hallowed, hacts => by
    rw [List.foldlM_cons] at hacts
    obtain ⟨s₁, hstep, hrest⟩ := Option.bind_eq_some_iff.mp hacts
    exact (h.step (hallowed s a List.mem_cons_self) hstep).acts
      (fun s a ha => hallowed s a (List.mem_cons_of_mem _ ha)) hrest

end WritePath

end DistributedKV
