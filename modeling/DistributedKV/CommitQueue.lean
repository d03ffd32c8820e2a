import DistributedKV.WriteSafety

/-!
# The queue of the committer

One Open of the write path, seen from the requests : which were accepted, in which batches
they went to `commit`, which of them were written and applied, and which were answered.
`History` keeps these as lists, and `Life` is any interleaving of writers, committer,
background work and Close, without a crash.

Everything follows from where each accepted request is. What is accepted is what the
batches hold, then what the committer has in hand, what it carries over, and the queue, in
this order (`Order.accepted`); what the batches hold is what was answered and then what
`commit` is working on (`Order.answered`). The WAL gets the batches in the same order until
a write fails (`Log`).

`work` bounds what the committer has still to do. Each of its steps lowers it
(`work_step`), it is never stuck before it has answered everything (`exists_step`), and so
it can always finish (`exists_answered`).
-/

open Framing

namespace DistributedKV

namespace WritePath

/-! ## One Open -/

/-- What an Open leaves : no request, nothing being written, flushed or compacted. -/
structure Opened (s : WritePath) : Prop where
  closed : s.closed = false
  pending : s.pending = []
  queue : s.queue = []
  carried : s.carried = none
  committer : s.committer = .receiving
  commit : s.commit = .free
  decided : s.decided = []
  writer : s.engine.writer = .idle
  halted : s.engine.halted = false
  flushing : s.engine.flushing = none
  flush : s.engine.tables.flush = .idle
  compact : s.engine.tables.compact = .idle

variable {c : Codec WalEntry} {fileSize : List Entry → Nat} {s₀ s s' : WritePath} {a : WriteAct}

theorem opened_create (maxBytes : Int) (groupCommit : Bool) :
    Opened (create maxBytes groupCommit) := by
  constructor <;> rfl

/-- What has happened to the requests since the Open. -/
structure History where
  /-- Handed to the committer, or let through by the write lock. -/
  accepted : List Request
  /-- What `commit` was called with. -/
  batches : List (List Request)
  /-- Handed to the WAL. -/
  logged : List Request
  applied : List Request
  /-- Signalled by `commit`. -/
  answered : List Request

def History.empty : History :=
  ⟨[], [], [], [], []⟩

/-- The history after a step from `s` to `s'`. -/
def History.after (h : History) (s s' : WritePath) : WriteAct → History
  | .enqueue _ => { h with accepted := h.accepted ++ s'.queue.drop s.queue.length }
  | .lock _ =>
    match s.commit, s'.commit with
    | .free, .running batch =>
      { h with accepted := h.accepted ++ batch, batches := h.batches ++ [batch] }
    | _, _ => h
  | .lockBatch =>
    match s'.commit with
    | .running batch => { h with batches := h.batches ++ [batch] }
    | _ => h
  | .write =>
    match s'.commit with
    | .running batch => { h with logged := h.logged ++ batch }
    | _ => h
  | .apply =>
    match s.commit with
    | .running batch => { h with applied := h.applied ++ batch }
    | _ => h
  | .signal =>
    match s.commit with
    | .done batch => { h with answered := h.answered ++ batch }
    | _ => h
  | _ => h

/-- Steps one after another, each of an allowed kind. -/
inductive Life (c : Codec WalEntry) (fileSize : List Entry → Nat) (allowed : WriteAct → Prop)
    (h₀ : History) (s₀ : WritePath) : History → WritePath → Prop
  | refl : Life c fileSize allowed h₀ s₀ h₀ s₀
  | step {h : History} {s s' : WritePath} {a : WriteAct}
      (hlife : Life c fileSize allowed h₀ s₀ h s) (ha : allowed a)
      (hstep : s.step c fileSize a = some s') :
      Life c fileSize allowed h₀ s₀ (h.after s s' a) s'

/-- Anything but a crash. -/
def Alive (a : WriteAct) : Prop :=
  ∀ groupCommit kept back, a ≠ .reopen groupCommit kept back

variable {allowed allowed' : WriteAct → Prop} {h₀ h h' : History}

theorem Life.mono (hlife : Life c fileSize allowed h₀ s₀ h s)
    (himp : ∀ a, allowed a → allowed' a) : Life c fileSize allowed' h₀ s₀ h s := by
  induction hlife with
  | refl => exact .refl
  | step _ ha hstep ih => exact ih.step (himp _ ha) hstep

theorem Life.trans (hlife : Life c fileSize allowed h₀ s₀ h s)
    (hlife' : Life c fileSize allowed h s h' s') : Life c fileSize allowed h₀ s₀ h' s' := by
  induction hlife' with
  | refl => exact hlife
  | step _ ha hstep ih => exact ih.step ha hstep

/-- The guards of the steps that depend on the mode, on Close and on the write lock. -/
theorem step_guards (hstep : s.step c fileSize a = some s') :
    (∀ i, a = .enqueue i → s.groupCommit = true ∧ (s.closed = true → s'.queue = s.queue)) ∧
    (∀ i, a = .lock i → s.groupCommit = false ∧ (s.closed = true → s'.commit = s.commit)) ∧
    (a = .receive → s.groupCommit = true ∧ s.commit = .free) := by
  refine ⟨?_, ?_, ?_⟩
  · rintro i rfl
    simp only [step] at hstep
    split at hstep
    · next r hmode _ =>
      refine ⟨hmode, fun hclosed => ?_⟩
      rw [if_pos hclosed] at hstep
      exact (Option.some.inj hstep) ▸ rfl
    · cases hstep
  · rintro i rfl
    simp only [step] at hstep
    split at hstep
    · next r hmode _ _ =>
      refine ⟨hmode, fun hclosed => ?_⟩
      rw [if_pos hclosed] at hstep
      exact (Option.some.inj hstep) ▸ rfl
    · cases hstep
  · rintro rfl
    simp only [step] at hstep
    split at hstep
    · next hmode hfree _ => exact ⟨hmode, hfree⟩
    · cases hstep

/-! ## Where the requests are -/

/-- Accepted and not yet handed to `commit`, in order. -/
def waiting (s : WritePath) : List Request :=
  batchOf s.committer ++ (s.carried.toList ++ s.queue)

/-- What `commit` is working on. -/
def committing : CommitPhase → List Request
  | .free => []
  | .running batch | .done batch => batch

/-- The batch the committer has in hand. -/
def handed : Committer → List (List Request)
  | .receiving => []
  | .filling batch | .ready batch => [batch]

/-- How far `commit` and the holder of the write lock are. -/
inductive Stage : CommitPhase → WriterPhase → Prop
  | free : Stage .free .idle
  | begun (batch : List Request) (hne : batch ≠ []) : Stage (.running batch) .idle
  | logging (batch : List Request) : Stage (.running batch) (.logging (batch.map Request.entry))
  | logged (batch : List Request) : Stage (.running batch) (.logged (batch.map Request.entry))
  | decided (batch : List Request) : Stage (.done batch) .idle
  | swapping (batch : List Request) : Stage (.done batch) .swapping
  | rotated (batch : List Request) (n : Nat) : Stage (.done batch) (.rotated n)

/-- What every batch keeps to. -/
structure Bounded (c : Codec WalEntry) (batch : List Request) : Prop where
  nonempty : batch ≠ []
  records : batch.length ≤ maxBatchRecords
  bytes : recordBytes c batch ≤ maxBatchBytes ∨ batch.length = 1

theorem bounded_singleton (c : Codec WalEntry) (r : Request) : Bounded c [r] :=
  ⟨by simp, by simp [maxBatchRecords], Or.inr rfl⟩

theorem bounded_concat {batch : List Request} {r : Request}
    (hlen : batch.length < maxBatchRecords)
    (hfits : recordBytes c batch + (encode c r.entry).length ≤ maxBatchBytes) :
    Bounded c (batch ++ [r]) :=
  ⟨by simp, by simpa using hlen, Or.inl (by simpa [recordBytes] using hfits)⟩

/-- Where each accepted request is. -/
structure Order (c : Codec WalEntry) (h : History) (s : WritePath) : Prop where
  stage : Stage s.commit s.engine.writer
  halted : s.engine.halted = true → s.engine.writer = .idle
  alone : s.groupCommit = false → s.committer = .receiving ∧ s.carried = none ∧ s.queue = []
  inHand : s.committer ≠ .receiving → s.commit = .free
  carried : CarriesNothing s
  accepted : h.accepted = h.batches.flatten ++ s.waiting
  answered : h.batches.flatten = h.answered ++ committing s.commit
  bounded : ∀ batch ∈ h.batches ++ handed s.committer, Bounded c batch

theorem Opened.order (h : Opened s) : Order c .empty s where
  stage := by rw [h.commit, h.writer]; exact .free
  halted := fun _ => h.writer
  alone := fun _ => ⟨h.committer, h.carried, h.queue⟩
  inHand := fun _ => h.commit
  carried := fun batch hfill => by simp [h.committer] at hfill
  accepted := by simp [History.empty, waiting, batchOf, h.committer, h.carried, h.queue]
  answered := by simp [History.empty, committing, h.commit]
  bounded := by simp [History.empty, handed, h.committer]

theorem Stage.of_free {phase : WriterPhase} (h : Stage .free phase) : phase = .idle := by
  cases h
  rfl

theorem Stage.of_logging {phase : CommitPhase} {entries : List WalEntry}
    (h : Stage phase (.logging entries)) :
    ∃ batch, phase = .running batch ∧ entries = batch.map Request.entry := by
  cases h
  exact ⟨_, rfl, rfl⟩

theorem Stage.of_logged {phase : CommitPhase} {entries : List WalEntry}
    (h : Stage phase (.logged entries)) :
    ∃ batch, phase = .running batch ∧ entries = batch.map Request.entry := by
  cases h
  exact ⟨_, rfl, rfl⟩

theorem Stage.of_swap {phase : CommitPhase} {writer : WriterPhase} (h : Stage phase writer)
    (hw : writer = .swapping ∨ ∃ n, writer = .rotated n) : ∃ batch, phase = .done batch := by
  cases h <;> simp_all

/-! ## The engine's own steps -/

/-- The bytes of all segments, oldest first, deleted ones included. -/
def walBytes (s : WritePath) : List UInt8 :=
  (s.deleted ++ s.sealed ++ [s.current]).flatMap WalFile.bytes

theorem walBytes_rotate (s : WritePath) (e : Engine) (seq : Nat) :
    walBytes { s with engine := e, sealed := s.sealed ++ [s.current], current := ⟨seq, [], 0⟩ } =
      s.walBytes := by
  simp [walBytes]

theorem walBytes_deleteThrough (s : WritePath) (e : Engine) (seq count : Nat) :
    walBytes { s with
      engine := e
      sealed := s.sealed.drop ((s.sealed.takeWhile (·.seq ≤ seq)).take count).length
      deleted := s.deleted ++ (s.sealed.takeWhile (·.seq ≤ seq)).take count } = s.walBytes := by
  obtain ⟨rest, hrest⟩ : (s.sealed.takeWhile (·.seq ≤ seq)).take count <+: s.sealed :=
    (List.take_prefix _ _).trans (List.takeWhile_prefix _)
  have hdrop : s.sealed.drop ((s.sealed.takeWhile (·.seq ≤ seq)).take count).length = rest := by
    nth_rewrite 2 [← hrest]
    rw [List.drop_left]
  rw [walBytes, walBytes, hdrop, List.append_assoc s.deleted, hrest]

/-- The committer's own steps. -/
def ofCommitter : WriteAct → Bool
  | .receive | .fill | .fillEnd | .lockBatch | .write | .fsync | .walFail _ | .apply | .rotate _
  | .freeze | .signal => true
  | _ => false

/-- The steps of the engine that touch no request and write nothing to the WAL. -/
def ofEngine : WriteAct → Bool
  | .fsync | .rotate _ | .freeze | .background _ | .deleteThrough _ _ => true
  | _ => false

/-- How the holder of the write lock gets on while `commit` keeps its batch. -/
inductive Advances : CommitPhase → WriterPhase → WriterPhase → Prop
  | synced (batch : List Request) : Advances (.running batch)
      (.logging (batch.map Request.entry)) (.logged (batch.map Request.entry))
  | swapFailed (batch : List Request) : Advances (.done batch) .swapping .idle
  | rotated (batch : List Request) (n : Nat) : Advances (.done batch) .swapping (.rotated n)
  | frozen (batch : List Request) (n : Nat) : Advances (.done batch) (.rotated n) .idle

theorem Advances.stage {phase : CommitPhase} {w w' : WriterPhase} (h : Advances phase w w') :
    Stage phase w' := by
  cases h <;> constructor

theorem Advances.not_idle {phase : CommitPhase} {w : WriterPhase} : ¬Advances phase .idle w :=
  nofun

/-- Such a step leaves the requests where they are. The writer gets on, or the step was none
of the committer's. -/
inductive EngineTurn (a : WriteAct) (s : WritePath) : WritePath → Prop
  | mk (engine : Engine) (current : WalFile) (sealed deleted : List WalFile)
      (bytes : walBytes { s with
        engine := engine, current := current, sealed := sealed, deleted := deleted } = s.walBytes)
      (halted : engine.halted = s.engine.halted)
      (writer : ofCommitter a = false ∧ engine.writer = s.engine.writer ∨
        Advances s.commit s.engine.writer engine.writer) :
      EngineTurn a s { s with
        engine := engine, current := current, sealed := sealed, deleted := deleted }

theorem engineTurn_of_step (hstage : Stage s.commit s.engine.writer) (ha : ofEngine a = true)
    (hstep : Step c fileSize s a s') : EngineTurn a s s' := by
  cases hstep with
  | fsync e he =>
    cases Engine.step_sound he with
    | sync entries hw =>
      obtain ⟨batch, hrun, rfl⟩ := (hw ▸ hstage).of_logging
      refine .mk _ _ _ _ (by simp [walBytes]) rfl (Or.inr ?_)
      rw [hrun, hw]
      exact .synced batch
  | rotateFailed e he =>
    cases Engine.step_sound he with
    | rotateFailed hw =>
      obtain ⟨batch, hdone⟩ := hstage.of_swap (Or.inl hw)
      refine .mk _ _ _ _ rfl rfl (Or.inr ?_)
      rw [hdone, hw]
      exact .swapFailed batch
  | rotate outcome e hout he =>
    cases Engine.step_sound he with
    | rotateFailed => exact absurd rfl hout
    | rotateCloseFailed hw | rotateOk hw =>
      obtain ⟨batch, hdone⟩ := hstage.of_swap (Or.inl hw)
      refine .mk _ _ _ _ (walBytes_rotate s _ _) rfl (Or.inr ?_)
      rw [hdone, hw]
      constructor
  | freeze e he =>
    cases Engine.step_sound he with
    | freeze n hw =>
      obtain ⟨batch, hdone⟩ := hstage.of_swap (Or.inr ⟨n, hw⟩)
      refine .mk _ _ _ _ rfl rfl (Or.inr ?_)
      rw [hdone, hw]
      exact .frozen batch n
  | background b e hb he =>
    cases Engine.step_sound he with
    | flushStart | table | flushDone | flushFailed =>
      exact .mk _ _ _ _ rfl rfl (Or.inl ⟨rfl, rfl⟩)
    | _ => cases hb
  | deleteThrough due count seq e hseq he =>
    cases Engine.step_sound he with
    | deleteThrough =>
      exact .mk _ _ _ _ (walBytes_deleteThrough s _ seq count) rfl (Or.inl ⟨rfl, rfl⟩)
  | _ => cases ha

theorem after_of_ofEngine (h : History) (s s' : WritePath) (ha : ofEngine a = true) :
    h.after s s' a = h := by
  cases a with
  | fsync | rotate | freeze | background | deleteThrough => rfl
  | _ => cases ha

theorem EngineTurn.order (ht : EngineTurn a s s') (ho : Order c h s) : Order c h s' := by
  cases ht with
  | mk engine current sealed deleted hbytes hhalted hwriter =>
    refine { ho with stage := ?_, halted := fun hh => ?_ }
    · rcases hwriter with ⟨-, hw⟩ | hw
      · exact hw ▸ ho.stage
      · exact hw.stage
    · have hidle := ho.halted (hhalted ▸ hh)
      rcases hwriter with ⟨-, hw⟩ | hw
      · exact hw.trans hidle
      · exact (Advances.not_idle (hidle ▸ hw)).elim

/-! ## The steps of the requests -/

/-- `commit` gets on with its batch. -/
theorem Order.setCommit (ho : Order c h s) {engine : Engine} {current : WalFile}
    {commit : CommitPhase} {decided : List (Request × Outcome)} {acked : List (Nat × WalEntry)}
    (hbusy : s.commit ≠ .free) (hcommit : committing commit = committing s.commit)
    (hstage : Stage commit engine.writer)
    (hhalted : engine.halted = true → engine.writer = .idle)
    (haccepted : h'.accepted = h.accepted) (hbatches : h'.batches = h.batches)
    (hanswered : h'.answered = h.answered) :
    Order c h' { s with
      engine := engine, current := current, commit := commit, decided := decided, acked := acked } :=
  { ho with
    stage := hstage
    halted := hhalted
    inHand := fun hne => absurd (ho.inHand hne) hbusy
    accepted := by rw [haccepted, hbatches]; exact ho.accepted
    answered := by rw [hbatches, hanswered, hcommit]; exact ho.answered
    bounded := by rw [hbatches]; exact ho.bounded }

/-- The committer starts a batch with `r`. -/
theorem Order.begin (ho : Order c h s) {r : Request} {carried : Option Request}
    {queue : List Request} (hmode : s.groupCommit = true) (hfree : s.commit = .free)
    (hrecv : s.committer = .receiving) (hnone : carried = none)
    (hwaiting : s.carried.toList ++ s.queue = r :: (carried.toList ++ queue)) :
    Order c h { s with carried := carried, queue := queue, committer := .filling [r] } where
  stage := ho.stage
  halted := ho.halted
  alone := fun hfalse => (Bool.false_ne_true (hfalse.symm.trans hmode)).elim
  inHand := fun _ => hfree
  carried := fun _ _ => hnone
  accepted := by
    have haccepted := ho.accepted
    simp only [waiting, hrecv, batchOf, hwaiting] at haccepted
    simpa [waiting, batchOf] using haccepted
  answered := ho.answered
  bounded := by
    have hbounded := ho.bounded
    simp only [hrecv, handed, List.append_nil] at hbounded
    simp only [handed, List.forall_mem_append, List.forall_mem_singleton]
    exact ⟨hbounded, bounded_singleton c r⟩

/-- The committer fills its batch or stops filling it. -/
theorem Order.fill (ho : Order c h s) {batch batch' : List Request} {carried : Option Request}
    {queue : List Request} {committer : Committer} (hfill : s.committer = .filling batch)
    (hbatch : handed committer = [batch'])
    (hcarried : ∀ b, committer = .filling b → carried = none)
    (hwaiting : batch ++ s.queue = batch' ++ (carried.toList ++ queue))
    (hbounded : Bounded c batch → Bounded c batch') :
    Order c h { s with carried := carried, queue := queue, committer := committer } where
  stage := ho.stage
  halted := ho.halted
  alone := fun hfalse => by
    have hrecv := (ho.alone hfalse).1
    simp [hfill] at hrecv
  inHand := fun _ => ho.inHand (by simp [hfill])
  carried := hcarried
  accepted := by
    have haccepted := ho.accepted
    simp only [waiting, hfill, batchOf, ho.carried batch hfill, Option.toList_none,
      List.nil_append, hwaiting] at haccepted
    rw [haccepted, waiting]
    cases committer <;> simp_all [handed, batchOf]
  answered := ho.answered
  bounded := by
    have hall := ho.bounded
    simp only [hfill, handed, List.forall_mem_append, List.forall_mem_singleton] at hall
    simp only [hbatch, List.forall_mem_append, List.forall_mem_singleton]
    exact ⟨hall.1, hbounded hall.2⟩

/-- A batch that was accepted is handed to `commit`. -/
theorem Order.commit (ho : Order c h s) {batch pending : List Request} (hfree : s.commit = .free)
    (haccepted : h'.accepted = h'.batches.flatten ++
      (s.carried.toList ++ s.queue))
    (hbatches : h'.batches = h.batches ++ [batch]) (hanswered : h'.answered = h.answered)
    (hbounded : ∀ b ∈ h'.batches, Bounded c b) :
    Order c h' { s with
      pending := pending, committer := .receiving, commit := .running batch } where
  stage := by
    have hstage := ho.stage
    rw [hfree] at hstage
    simp only [hstage.of_free]
    exact .begun batch (hbounded batch (by simp [hbatches])).nonempty
  halted := ho.halted
  alone := fun hmode => ⟨rfl, (ho.alone hmode).2⟩
  inHand := fun hne => absurd rfl hne
  carried := nofun
  accepted := by simpa [waiting, batchOf] using haccepted
  answered := by
    have h := ho.answered
    simp only [hfree, committing, List.append_nil] at h
    simp [hbatches, hanswered, committing, h]
  bounded := by simpa [handed] using hbounded

/-- A writer takes the write lock for its own request. -/
theorem Order.lock (ho : Order c h s) {i : Nat} {r : Request} (hmode : s.groupCommit = false)
    (hfree : s.commit = .free) :
    Order c (h.after s { s with pending := s.pending.eraseIdx i, commit := .running [r] } (.lock i))
      { s with pending := s.pending.eraseIdx i, commit := .running [r] } := by
  obtain ⟨hrecv, hnone, hqueue⟩ := ho.alone hmode
  have haccepted := ho.accepted
  have hbounded := ho.bounded
  simp only [waiting, hrecv, hnone, hqueue, batchOf] at haccepted
  simp only [hrecv, handed, List.append_nil] at hbounded
  have hlocked : Order c
      (h.after s { s with pending := s.pending.eraseIdx i, commit := .running [r] } (.lock i))
      { s with
        pending := s.pending.eraseIdx i, committer := .receiving, commit := .running [r] } :=
    ho.commit hfree (by simp [History.after, hfree, hnone, hqueue, haccepted])
      (by simp [History.after, hfree]) (by simp [History.after, hfree])
      (by simpa [History.after, hfree, or_imp, forall_and] using
        ⟨hbounded, bounded_singleton c r⟩)
  simpa only [hrecv] using hlocked

/-- The committer takes it for its batch. -/
theorem Order.lockBatch (ho : Order c h s) {batch : List Request}
    (hready : s.committer = .ready batch) (hfree : s.commit = .free) :
    Order c (h.after s { s with committer := .receiving, commit := .running batch } .lockBatch)
      { s with committer := .receiving, commit := .running batch } := by
  have haccepted := ho.accepted
  have hbounded := ho.bounded
  simp only [waiting, hready, batchOf] at haccepted
  simp only [hready, handed] at hbounded
  exact ho.commit hfree (by simp [History.after, haccepted]) (by simp [History.after])
    (by simp [History.after]) (by simpa [History.after] using hbounded)

/-- `commit` returns. -/
theorem Order.signal (ho : Order c h s) {batch : List Request} (hdone : s.commit = .done batch)
    (hidle : s.engine.writer = .idle) :
    Order c (h.after s { s with commit := .free } .signal) { s with commit := .free } := by
  have hanswered := ho.answered
  simp only [hdone, committing] at hanswered
  exact { ho with
    stage := by simpa only [hidle] using Stage.free
    inHand := fun _ => rfl
    accepted := by simpa [History.after, hdone, waiting] using ho.accepted
    answered := by simpa [History.after, hdone, committing] using hanswered
    bounded := by simpa [History.after, hdone] using ho.bounded }

theorem order_step (ho : Order c h s) (ha : Alive a) (hstep : s.step c fileSize a = some s') :
    Order c (h.after s s' a) s' := by
  by_cases hturn : ofEngine a = true
  · rw [after_of_ofEngine h s s' hturn]
    exact (engineTurn_of_step ho.stage hturn (step_sound hstep)).order ho
  obtain ⟨henqueue, hlock, hreceive⟩ := step_guards hstep
  cases step_sound hstep with
  | submitHalted | submit | close => exact { ho with }
  | enqueueClosed =>
    exact { ho with accepted := by simpa [History.after, waiting] using ho.accepted }
  | enqueue i =>
    exact { ho with
      alone := fun hfalse => (Bool.false_ne_true (hfalse.symm.trans (henqueue i rfl).1)).elim
      accepted := by simp [History.after, waiting, ho.accepted] }
  | lockClosed =>
    simp only [History.after]
    split
    · next hfree hrun => cases hfree.symm.trans hrun
    · exact { ho with }
  | lock i r hi hfree =>
    exact ho.lock (hlock i rfl).1 hfree
  | receiveCarried r hrecv hr =>
    have hmode := hreceive rfl
    exact ho.begin hmode.1 hmode.2 hrecv rfl (by simp [hr])
  | receive r queue hrecv hnone hq =>
    have hmode := hreceive rfl
    exact ho.begin hmode.1 hmode.2 hrecv hnone (by simp [hnone, hq])
  | fillOver batch r queue hfill hq =>
    exact ho.fill hfill rfl (by simp) (by simp [hq]) id
  | fill batch r queue hfill hq hlen hfits =>
    exact ho.fill hfill rfl (fun _ _ => ho.carried batch hfill)
      (by simp [hq, ho.carried batch hfill]) fun _ => bounded_concat hlen hfits
  | fillEnd batch hfill =>
    exact ho.fill hfill rfl (by simp) (by simp [ho.carried batch hfill]) id
  | lockBatch batch hready hfree =>
    exact ho.lockBatch hready hfree
  | writeHalted batch hrun hh =>
    refine ho.setCommit (by simp [hrun]) (by simp [hrun, committing]) ?_ ho.halted rfl rfl rfl
    simp only [ho.halted hh]
    exact .decided batch
  | write batch e hrun hh he =>
    cases Engine.step_sound he with
    | log _ hidle hhalt =>
      refine ho.setCommit (by simp [hrun]) rfl ?_ (fun h => absurd h (by simp [hhalt])) ?_ ?_ ?_
      · simpa only [hrun] using Stage.logging batch
      all_goals simp [History.after, hrun]
  | walFail batch written e hrun he =>
    cases Engine.step_sound he with
    | walFail =>
      exact ho.setCommit (by simp [hrun]) (by simp [hrun, committing]) (.decided batch)
        (fun _ => rfl) rfl rfl rfl
  | apply batch e hrun he =>
    cases Engine.step_sound he with
    | apply entries hw =>
      refine ho.setCommit (by simp [hrun]) (by simp [hrun, committing]) ?_ (fun hh => ?_) ?_ ?_ ?_
      · dsimp only
        split
        · exact .swapping batch
        · exact .decided batch
      · cases hw.symm.trans (ho.halted hh)
      all_goals simp [History.after, hrun]
  | signal batch hdone hidle =>
    exact ho.signal hdone hidle
  | fsync | rotateFailed | rotate | freeze | background | deleteThrough => exact absurd rfl hturn
  | reopen g k back => exact absurd rfl (ha g k back)

theorem order_of_life (hlife : Life c fileSize Alive h₀ s₀ h s) (ho : Order c h₀ s₀) :
    Order c h s := by
  induction hlife with
  | refl => exact ho
  | step _ ha hstep ih => exact order_step ih ha hstep

/-! ## What the WAL gets -/

/-- The batch `commit` was called with and has not written. -/
def unwritten : CommitPhase → WriterPhase → List Request
  | .running batch, .idle => batch
  | _, _ => []

/-- The batch that is written and not applied. -/
def unapplied : CommitPhase → WriterPhase → List Request
  | .running batch, .logging _ | .running batch, .logged _ => batch
  | _, _ => []

/-- Batches are written and applied one after another; from the first failure on nothing
more is written, and of the batch that failed a part from the front is there. -/
structure Log (c : Codec WalEntry) (before : List UInt8) (h : History) (s : WritePath) : Prop where
  written : s.engine.halted = false →
    h.batches.flatten = h.logged ++ unwritten s.commit s.engine.writer
  applied : s.engine.halted = false → h.logged = h.applied ++ unapplied s.commit s.engine.writer
  bytes : s.engine.halted = false →
    s.walBytes = before ++ encodeAll c (h.logged.map Request.entry)
  inOrder : h.logged <+: h.batches.flatten
  part : s.walBytes <+: before ++ encodeAll c (h.logged.map Request.entry)

variable {before : List UInt8}

theorem Opened.log (h : Opened s) : Log c s.walBytes .empty s where
  written := fun _ => by simp [History.empty, unwritten, h.commit]
  applied := fun _ => by simp [History.empty, unapplied, h.commit]
  bytes := fun _ => by simp [History.empty]
  inOrder := List.nil_prefix
  part := by simp [History.empty]

/-- A step that writes nothing and hands nothing to `commit`. -/
theorem Log.congr (hl : Log c before h s) (hbatches : h'.batches = h.batches)
    (hlogged : h'.logged = h.logged) (happlied : h'.applied = h.applied)
    (hbytes : s'.walBytes = s.walBytes) (hhalted : s'.engine.halted = s.engine.halted)
    (hunwritten : s.engine.halted = false → unwritten s'.commit s'.engine.writer =
      unwritten s.commit s.engine.writer)
    (hunapplied : s.engine.halted = false → unapplied s'.commit s'.engine.writer =
      unapplied s.commit s.engine.writer) : Log c before h' s' where
  written := fun hh => by
    rw [hhalted] at hh
    rw [hbatches, hlogged, hunwritten hh]
    exact hl.written hh
  applied := fun hh => by
    rw [hhalted] at hh
    rw [hlogged, happlied, hunapplied hh]
    exact hl.applied hh
  bytes := fun hh => by
    rw [hlogged, hbytes]
    exact hl.bytes (hhalted ▸ hh)
  inOrder := by rw [hlogged, hbatches]; exact hl.inOrder
  part := by rw [hlogged, hbytes]; exact hl.part

/-- A batch is handed to `commit`. -/
theorem Log.commit (hl : Log c before h s) {batch : List Request} (hfree : s.commit = .free)
    (hrun : s'.commit = .running batch) (hidle : s'.engine.writer = .idle)
    (hhalted : s'.engine.halted = s.engine.halted) (hbytes : s'.walBytes = s.walBytes)
    (hbatches : h'.batches = h.batches ++ [batch]) (hlogged : h'.logged = h.logged)
    (happlied : h'.applied = h.applied) : Log c before h' s' where
  written := fun hh => by
    have hwritten := hl.written (hhalted ▸ hh)
    simp only [hfree, unwritten, List.append_nil] at hwritten
    simp [hbatches, hlogged, hrun, hidle, unwritten, hwritten]
  applied := fun hh => by
    have happlied' := hl.applied (hhalted ▸ hh)
    simp only [hfree, unapplied, List.append_nil] at happlied'
    simp [hlogged, happlied, hrun, hidle, unapplied, happlied']
  bytes := fun hh => by
    rw [hbytes, hlogged]
    exact hl.bytes (hhalted ▸ hh)
  inOrder := by
    rw [hlogged, hbatches, List.flatten_append]
    exact hl.inOrder.trans (List.prefix_append _ _)
  part := by rw [hbytes, hlogged]; exact hl.part

theorem walBytes_write (s : WritePath) (e : Engine) (bytes : List UInt8) :
    walBytes { s with
      engine := e, current := { s.current with bytes := s.current.bytes ++ bytes } } =
        s.walBytes ++ bytes := by
  simp [walBytes]

theorem Advances.unwritten {phase : CommitPhase} {w w' : WriterPhase} (h : Advances phase w w') :
    unwritten phase w' = unwritten phase w ∧ unapplied phase w' = unapplied phase w := by
  cases h <;> exact ⟨rfl, rfl⟩

theorem EngineTurn.log (ht : EngineTurn a s s') (hl : Log c before h s) : Log c before h s' := by
  cases ht with
  | mk engine current sealed deleted hbytes hhalted hwriter =>
    rcases hwriter with ⟨-, hw⟩ | hw
    · exact hl.congr rfl rfl rfl hbytes hhalted (fun _ => by rw [hw]) fun _ => by rw [hw]
    · exact hl.congr rfl rfl rfl hbytes hhalted (fun _ => hw.unwritten.1) fun _ => hw.unwritten.2

theorem log_step (ho : Order c h s) (hl : Log c before h s) (ha : Alive a)
    (hstep : s.step c fileSize a = some s') : Log c before (h.after s s' a) s' := by
  have hstage := ho.stage
  by_cases hturn : ofEngine a = true
  · rw [after_of_ofEngine h s s' hturn]
    exact (engineTurn_of_step hstage hturn (step_sound hstep)).log hl
  cases step_sound hstep with
  | submitHalted | submit | close | enqueueClosed | enqueue
  | receiveCarried | receive | fillOver | fill | fillEnd =>
    exact hl.congr rfl rfl rfl rfl rfl (fun _ => rfl) fun _ => rfl
  | lockClosed =>
    simp only [History.after]
    split
    · next hfree hrun => cases hfree.symm.trans hrun
    · exact hl.congr rfl rfl rfl rfl rfl (fun _ => rfl) fun _ => rfl
  | lock i r hi hfree =>
    refine hl.commit hfree rfl (Stage.of_free (hfree ▸ hstage)) rfl rfl ?_ ?_ ?_
    all_goals simp [History.after, hfree]
  | lockBatch batch hready hfree =>
    exact hl.commit hfree rfl (Stage.of_free (hfree ▸ hstage)) rfl rfl rfl rfl rfl
  | writeHalted batch hrun hh =>
    exact hl.congr rfl rfl rfl rfl rfl (fun h => absurd h (by simp [hh]))
      fun h => absurd h (by simp [hh])
  | write batch e hrun hh he =>
    cases Engine.step_sound he with
    | log _ hidle hhalt =>
      have hwritten := hl.written hhalt
      have happlied := hl.applied hhalt
      simp only [hrun, hidle, unwritten] at hwritten
      simp only [hrun, hidle, unapplied, List.append_nil] at happlied
      have hbytes := walBytes_write s { s.engine with
        current := { s.engine.current with tail := batch.map Request.entry }
        writer := .logging (batch.map Request.entry) } (encodeAll c (batch.map Request.entry))
      have hafter : before ++ encodeAll c ((h.logged ++ batch).map Request.entry) =
          s.walBytes ++ encodeAll c (batch.map Request.entry) := by
        rw [List.map_append, encodeAll_append, ← List.append_assoc, ← hl.bytes hhalt]
      simp only [History.after, hrun]
      refine ⟨fun _ => ?_, fun _ => ?_, fun _ => ?_, ?_, ?_⟩
      · simpa [hrun, unwritten] using hwritten
      · simpa [hrun, unapplied] using happlied
      · exact hbytes.trans hafter.symm
      · exact hwritten ▸ List.prefix_rfl
      · exact (hbytes.trans hafter.symm) ▸ List.prefix_rfl
  | walFail batch written e hrun he =>
    cases Engine.step_sound he with
    | walFail =>
      refine ⟨nofun, nofun, nofun, hl.inOrder, List.IsPrefix.trans ?_ hl.part⟩
      simp only [walBytes, List.flatMap_append, List.flatMap_singleton]
      exact (List.prefix_append_right_inj _).mpr (List.take_prefix _ _)
  | apply batch e hrun he =>
    cases Engine.step_sound he with
    | apply entries hw =>
      have happlied := fun hh => hl.applied hh
      have hwritten := fun hh => hl.written hh
      simp only [hrun, hw, unapplied] at happlied
      simp only [hrun, hw, unwritten] at hwritten
      simp only [History.after, hrun]
      exact ⟨fun hh => by simpa [unwritten] using hwritten hh,
        fun hh => by simpa [unapplied] using happlied hh, hl.bytes, hl.inOrder, hl.part⟩
  | signal batch hdone =>
    simp only [History.after, hdone]
    exact hl.congr rfl rfl rfl rfl rfl (fun _ => by simp [hdone, unwritten])
      fun _ => by simp [hdone, unapplied]
  | fsync | rotateFailed | rotate | freeze | background | deleteThrough => exact absurd rfl hturn
  | reopen g k back => exact absurd rfl (ha g k back)

theorem log_of_life (hlife : Life c fileSize Alive h₀ s₀ h s) (ho : Order c h₀ s₀)
    (hl : Log c before h₀ s₀) : Log c before h s := by
  induction hlife with
  | refl => exact hl
  | step hlife ha hstep ih => exact log_step (order_of_life hlife ho) ih ha hstep

/-! ## One answer each -/

/-- The batch whose requests have their outcome and do not know it. -/
def unsignalled : CommitPhase → List Request
  | .done batch => batch
  | _ => []

/-- Every request has a number of its own, and those answered had their outcomes set one
after another. -/
structure Accounted (h : History) (s : WritePath) : Prop where
  ids : (s.requests.map Request.id).Nodup
  ids_lt : ∀ r ∈ s.requests, r.id < s.nextID
  decided : (h.answered ++ unsignalled s.commit).Sublist (s.decided.map Prod.fst)

theorem Opened.accounted (h : Opened s) : Accounted .empty s := by
  have hnone : s.requests = 0 := by
    simp [requests, h.pending, h.queue, h.carried, h.committer, h.commit, h.decided, batchOf,
      undecided]
  refine ⟨by simp [hnone], by simp [hnone], ?_⟩
  simp [h.commit, History.empty, unsignalled]

theorem ids_step (ho : Order c h s) (hc : Accounted h s) (ha : Alive a)
    (hstep : s.step c fileSize a = some s') :
    (s'.requests.map Request.id).Nodup ∧ ∀ r ∈ s'.requests, r.id < s'.nextID := by
  rcases requests_step ho.carried (step_sound hstep) ha with ⟨heq, hnext⟩ | ⟨e, -, heq, hnext⟩
  · rw [heq, hnext]
    exact ⟨hc.ids, hc.ids_lt⟩
  · rw [heq, hnext, Multiset.map_cons, Multiset.nodup_cons]
    refine ⟨⟨fun hmem => ?_, hc.ids⟩, fun r hr => ?_⟩
    · obtain ⟨r, hr, hid⟩ := Multiset.mem_map.mp hmem
      exact (hc.ids_lt r hr).ne hid
    · rcases Multiset.mem_cons.mp hr with rfl | hr
      · exact Nat.lt_succ_self _
      · exact (hc.ids_lt r hr).trans (Nat.lt_succ_self _)

/-- The outcomes of a batch are set. -/
theorem Accounted.decide (hc : Accounted h s) {batch : List Request}
    (hrun : s.commit = .running batch) {outcomes : List (Request × Outcome)}
    (hall : outcomes.map Prod.fst = batch) :
    (h.answered ++ unsignalled (.done batch)).Sublist ((s.decided ++ outcomes).map Prod.fst) := by
  have hdecided := hc.decided
  simp only [hrun, unsignalled, List.append_nil] at hdecided
  rw [List.map_append, hall]
  exact hdecided.append (List.Sublist.refl _)

theorem decided_sublist_step (hc : Accounted h s) (ha : Alive a)
    (hstep : s.step c fileSize a = some s') :
    ((h.after s s' a).answered ++ unsignalled s'.commit).Sublist (s'.decided.map Prod.fst) := by
  have hmore : ∀ extra : List (Request × Outcome), (h.answered ++ unsignalled s.commit).Sublist
      ((s.decided ++ extra).map Prod.fst) := fun extra => by
    rw [List.map_append]
    exact hc.decided.trans (List.sublist_append_left _ _)
  cases step_sound hstep with
  | submitHalted | enqueueClosed => exact hmore _
  | lockClosed =>
    simp only [History.after]
    split
    · next hfree hrun => cases hfree.symm.trans hrun
    · exact hmore _
  | lock i r hi hfree | lockBatch batch hready hfree =>
    simpa [History.after, hfree, unsignalled] using hc.decided
  | writeHalted batch hrun | walFail batch written e hrun =>
    exact hc.decide hrun (by simp [Function.comp_def])
  | write batch e hrun =>
    simpa [History.after, hrun] using hc.decided
  | apply batch e hrun =>
    have hzip : (batch.zip ((s.engine.layers.applyBatch
        (batch.map Request.entry)).2.2.map verdict)).map Prod.fst = batch :=
      List.map_fst_zip (by simp [length_applyBatch])
    simpa [History.after, hrun] using hc.decide hrun hzip
  | signal batch hdone =>
    simpa [History.after, hdone, unsignalled] using hc.decided
  | reopen g k back => exact absurd rfl (ha g k back)
  | _ => exact hc.decided

theorem accounted_of_life (hlife : Life c fileSize Alive h₀ s₀ h s) (ho : Order c h₀ s₀)
    (hc : Accounted h₀ s₀) : Accounted h s := by
  induction hlife with
  | refl => exact hc
  | step hlife ha hstep ih =>
    have hids := ids_step (order_of_life hlife ho) ih ha hstep
    exact ⟨hids.1, hids.2, decided_sublist_step ih ha hstep⟩

/-- Everything accepted is among the requests, as often as it was accepted. -/
theorem accepted_le_requests (ho : Order c h s) (hc : Accounted h s) :
    (h.accepted : Multiset Request) ≤ s.requests := by
  have hcommit : committing s.commit = unsignalled s.commit ++ undecided s.commit := by
    cases s.commit <;> simp [committing, unsignalled, undecided]
  have hdecided : ((h.answered ++ unsignalled s.commit : List Request) : Multiset Request) ≤
      (s.decided.map Prod.fst : List Request) := hc.decided.subperm
  rw [ho.accepted, ho.answered, hcommit, requests, waiting]
  simp only [← Multiset.coe_add] at hdecided ⊢
  calc _ = (h.answered + unsignalled s.commit : Multiset Request) +
        (s.queue + (s.carried.toList + (batchOf s.committer + undecided s.commit))) := by abel
    _ ≤ (s.decided.map Prod.fst : List Request) + (s.queue + (s.carried.toList +
        (batchOf s.committer + undecided s.commit))) := add_le_add_left hdecided _
    _ ≤ (s.pending : Multiset Request) + ((s.decided.map Prod.fst : List Request) + (s.queue +
        (s.carried.toList + (batchOf s.committer + undecided s.commit)))) :=
      Multiset.le_add_left _ _
    _ = _ := by abel

/-- No request is accepted, batched or answered twice. -/
theorem accepted_nodup (ho : Order c h s) (hc : Accounted h s) :
    (h.accepted.map Request.id).Nodup :=
  Multiset.coe_nodup.mp
    (Multiset.nodup_of_le (Multiset.map_le_map (accepted_le_requests ho hc)) hc.ids)

/-! ## Close -/

/-- The committer has found the queue closed and empty, and returned; so does `closeWrites`. -/
def Exited (s : WritePath) : Prop :=
  s.closed = true ∧ s.committer = .receiving ∧ s.commit = .free ∧ s.carried = none ∧ s.queue = []

theorem closed_step (hclosed : s.closed = true) (ha : Alive a)
    (hstep : s.step c fileSize a = some s') :
    s'.closed = true ∧ (h.after s s' a).accepted = h.accepted := by
  obtain ⟨-, hlock, -⟩ := step_guards hstep
  cases step_sound hstep with
  | enqueueClosed => exact ⟨hclosed, by simp [History.after]⟩
  | enqueue i r hi hopen => cases hclosed.symm.trans hopen
  | lockClosed =>
    refine ⟨hclosed, ?_⟩
    simp only [History.after]
    split
    · next hfree hrun => cases hfree.symm.trans hrun
    · rfl
  | lock i r hi hfree => cases ((hlock i rfl).2 hclosed).trans hfree
  | write batch e hrun | apply batch e hrun =>
    exact ⟨hclosed, by simp [History.after, hrun]⟩
  | signal batch hdone => exact ⟨hclosed, by simp [History.after, hdone]⟩
  | close => exact ⟨rfl, rfl⟩
  | reopen g k back => exact absurd rfl (ha g k back)
  | _ => exact ⟨hclosed, rfl⟩

/-- Nothing is accepted once the queue is closed. -/
theorem accepted_of_closed (hclosed : s.closed = true) (hlife : Life c fileSize Alive h s h' s') :
    s'.closed = true ∧ h'.accepted = h.accepted := by
  induction hlife with
  | refl => exact ⟨hclosed, rfl⟩
  | step _ ha hstep ih =>
    obtain ⟨hclosed', haccepted⟩ := closed_step ih.1 ha hstep
    exact ⟨hclosed', haccepted.trans ih.2⟩

/-! ## The committer finishes -/

def committerWork : Committer → Nat
  | .receiving => 0
  | .filling _ => 8
  | .ready _ => 7

def commitWork : CommitPhase → WriterPhase → Nat
  | .free, _ => 0
  | .running _, .idle => 6
  | .running _, .logging _ => 5
  | .running _, _ => 4
  | .done _, .swapping => 3
  | .done _, .rotated _ => 2
  | .done _, _ => 1

/-- A bound on the steps the committer needs to answer what is accepted. -/
def work (s : WritePath) : Nat :=
  10 * (s.carried.toList.length + s.queue.length) + committerWork s.committer +
    commitWork s.commit s.engine.writer

theorem free_of_work (hwork : s.work = 0) :
    s.committer = .receiving ∧ s.commit = .free ∧ s.carried = none ∧ s.queue = [] := by
  simp only [work, Nat.add_eq_zero_iff, Nat.mul_eq_zero, OfNat.ofNat_ne_zero, false_or,
    List.length_eq_zero_iff, Option.toList_eq_nil_iff] at hwork
  obtain ⟨⟨⟨hcarried, hqueue⟩, hcommitter⟩, hcommit⟩ := hwork
  refine ⟨?_, ?_, hcarried, hqueue⟩
  · cases hs : s.committer <;> simp_all [committerWork]
  · cases hs : s.commit <;> cases hw : s.engine.writer <;> simp_all [commitWork]

theorem answered_of_work (ho : Order c h s) (hwork : s.work = 0) : h.answered = h.accepted := by
  obtain ⟨hcommitter, hcommit, hcarried, hqueue⟩ := free_of_work hwork
  simp [ho.accepted, ho.answered, waiting, batchOf, committing, hcommitter, hcommit, hcarried,
    hqueue]

theorem answered_of_exited (ho : Order c h s) (hexited : Exited s) : h.answered = h.accepted := by
  obtain ⟨-, hcommitter, hcommit, hcarried, hqueue⟩ := hexited
  refine answered_of_work ho ?_
  simp [work, hcommitter, hcommit, hcarried, hqueue, committerWork, commitWork]

theorem Advances.work {phase : CommitPhase} {w w' : WriterPhase} (h : Advances phase w w') :
    commitWork phase w' < commitWork phase w := by
  cases h <;> simp [commitWork]

theorem work_step (ho : Order c h s) (ha : ofCommitter a = true)
    (hstep : s.step c fileSize a = some s') : s'.work < s.work := by
  have hstage := ho.stage
  by_cases hturn : ofEngine a = true
  · cases engineTurn_of_step hstage hturn (step_sound hstep) with
    | mk engine current sealed deleted hbytes hhalted hwriter =>
      have hw := hwriter.resolve_left fun hno => by simp [ha] at hno
      exact Nat.add_lt_add_left hw.work _
  cases step_sound hstep with
  | receiveCarried r hrecv hr => simp [work, hrecv, hr, committerWork]; omega
  | receive r queue hrecv hnone hq => simp [work, hrecv, hq, committerWork]; omega
  | fillOver batch r queue hfill hq =>
    simp [work, hfill, hq, ho.carried batch hfill, committerWork]; omega
  | fill batch r queue hfill hq => simp [work, hfill, hq, committerWork]
  | fillEnd batch hfill => simp [work, hfill, committerWork]
  | lockBatch batch hready hfree =>
    have hidle := Stage.of_free (hfree ▸ hstage)
    simp [work, hready, hfree, hidle, committerWork, commitWork]
  | writeHalted batch hrun hh => simp [work, hrun, ho.halted hh, commitWork]
  | write batch e hrun hh he =>
    cases Engine.step_sound he with
    | log _ hidle => simp [work, hrun, hidle, commitWork]
  | walFail batch written e hrun he =>
    cases Engine.step_sound he with
    | walFail entries kept hw => simp [work, hrun, hw, commitWork]
  | apply batch e hrun he =>
    cases Engine.step_sound he with
    | apply entries hw =>
      have hless : commitWork (.done batch) (if (s.engine.layers.applyBatch entries).2.1 = true ∧
          s.engine.flushing = none then .swapping else .idle) ≤ 3 := by
        split <;> simp [commitWork]
      have hnow : commitWork s.commit s.engine.writer = 4 := by simp [hrun, hw, commitWork]
      simp only [work]
      omega
  | signal batch hdone hidle => simp [work, hdone, hidle, commitWork]
  | fsync | rotateFailed | rotate | freeze => exact absurd rfl hturn
  | _ => cases ha

/-- While something accepted is not answered, the committer has a step to take. -/
theorem exists_step (ho : Order c h s) (hmode : s.groupCommit = true) (hwork : s.work ≠ 0) :
    ∃ a s', ofCommitter a = true ∧ s.step c fileSize a = some s' := by
  have hstage := ho.stage
  cases hcommit : s.commit with
  | running =>
    cases hw : s.engine.writer with
    | idle =>
      rw [hcommit, hw] at hstage
      cases hstage with
      | begun _ hne =>
        refine ⟨.write, ?_⟩
        cases hh : s.engine.halted <;> simp [step, Engine.step, ofCommitter, hcommit, hw, hh, hne]
    | logging => exact ⟨.fsync, by simp [step, Engine.step, ofCommitter, hw]⟩
    | logged => exact ⟨.apply, by simp [step, Engine.step, ofCommitter, hcommit, hw]⟩
    | swapping | rotated =>
      rw [hcommit, hw] at hstage
      cases hstage
  | done =>
    cases hw : s.engine.writer with
    | idle => exact ⟨.signal, by simp [step, ofCommitter, hcommit, hw]⟩
    | swapping => exact ⟨.rotate .ok, by simp [step, Engine.step, ofCommitter, hw]⟩
    | rotated => exact ⟨.freeze, by simp [step, Engine.step, ofCommitter, hw]⟩
    | logging | logged =>
      rw [hcommit, hw] at hstage
      cases hstage
  | free =>
    cases hcommitter : s.committer with
    | filling batch =>
      by_cases hlen : batch.length < maxBatchRecords ∧ s.queue ≠ []
      · obtain ⟨r, queue, hq⟩ := List.exists_cons_of_ne_nil hlen.2
        refine ⟨.fill, ?_⟩
        simp only [step, hcommitter, hq, if_pos hlen.1]
        split <;> simp [ofCommitter]
      · exact ⟨.fillEnd, by simp [step, ofCommitter, hcommitter, hlen]⟩
    | ready => exact ⟨.lockBatch, by simp [step, ofCommitter, hcommitter, hcommit]⟩
    | receiving =>
      refine ⟨.receive, ?_⟩
      cases hcarried : s.carried with
      | some => simp [step, ofCommitter, hmode, hcommit, hcommitter, hcarried]
      | none =>
        cases hqueue : s.queue with
        | nil =>
          simp [work, hcommit, hcommitter, hcarried, hqueue, committerWork, commitWork] at hwork
        | cons => simp [step, ofCommitter, hmode, hcommit, hcommitter, hcarried, hqueue]

/-- The committer's steps accept nothing and leave the mode. -/
theorem ofCommitter_step (ha : ofCommitter a = true) (hstep : s.step c fileSize a = some s') :
    Alive a ∧ s'.groupCommit = s.groupCommit ∧ s'.closed = s.closed ∧
      (h.after s s' a).accepted = h.accepted := by
  refine ⟨fun g k back heq => by simp [heq, ofCommitter] at ha, ?_⟩
  cases step_sound hstep with
  | write batch e hrun | apply batch e hrun =>
    exact ⟨rfl, rfl, by simp [History.after, hrun]⟩
  | signal batch hdone => exact ⟨rfl, rfl, by simp [History.after, hdone]⟩
  | submitHalted | submit | enqueueClosed | enqueue | lockClosed | lock | close | background
  | deleteThrough | reopen => cases ha
  | _ => exact ⟨rfl, rfl, rfl⟩

/-- On its own the committer answers all that is accepted, and returns if the queue is
closed. -/
theorem exists_answered (ho : Order c h s) (hmode : s.groupCommit = true) :
    ∃ h' s', Life c fileSize (ofCommitter · = true) h s h' s' ∧ h'.answered = h.accepted ∧
      (s.closed = true → Exited s') := by
  induction hn : s.work using Nat.strong_induction_on generalizing h s with
  | _ n ih =>
    by_cases hwork : s.work = 0
    · exact ⟨h, s, .refl, answered_of_work ho hwork, fun hclosed => ⟨hclosed, free_of_work hwork⟩⟩
    · obtain ⟨a, s', ha, hstep⟩ : ∃ a s', ofCommitter a = true ∧ s.step c fileSize a = some s' :=
        exists_step ho hmode hwork
      obtain ⟨halive, hmode', hclosed, haccepted⟩ := ofCommitter_step (h := h) ha hstep
      obtain ⟨h'', s'', hlife, hanswered, hexited⟩ := ih s'.work (hn ▸ work_step ho ha hstep)
        (order_step ho halive hstep) (hmode'.trans hmode) rfl
      exact ⟨h'', s'', (Life.refl.step ha hstep).trans hlife, hanswered.trans haccepted,
        fun h => hexited (hclosed.trans h)⟩

end WritePath

end DistributedKV
