import DistributedKV.Durability
import DistributedKV.Wal
import DistributedKV.CommitQueue

/-!
# Group commit is a serial commit

What readers see depends on which Puts were applied, not on how they were batched, flushed
and compacted in between : within one Open, reads of a key cover what they covered at the
Open and what was put since (`Seen.clocks`). So a run with group commit and a run without
it that applied the same Puts show the same clocks (`visibleClocks_eq`), and such a run
without it there always is (`exists_serial`).

`group_commit_serial` puts this together with what `CommitQueue` says of the requests.
-/

open Framing Maxima

namespace DistributedKV

open DataItem (vectorClock)

/-! ## What readers cover -/

namespace TableStore

/-- What a compaction has written is the merge of its run. -/
def MergeOf : CompactPhase → Prop
  | .written run merged | .added run merged | .removed run merged => merged.entries = merge run
  | _ => True

variable {fileSize : List Entry → Nat} {s s' : TableStore} {b : TableAct}

theorem mergeOf_step (h : MergeOf s.compact) (hstep : Step fileSize s b s') :
    MergeOf s'.compact := by
  cases hstep with
  | compactWrite => exact rfl
  | compactAdd run merged written ok hc =>
    rw [hc] at h
    cases ok
    · trivial
    · exact h
  | compactRemove run merged written ok hc =>
    rw [hc] at h
    cases ok
    · trivial
    · exact h
  | compactSelect | compactWriteFail | compactUnlink | compactSwap | compactNoSwap | compactDone
  | compactDelete | reopen => trivial
  | _ => exact h

/-- Steps in the background leave what the tables cover. -/
theorem covers_background (h : MergeOf s.compact) (hb : b.background = true)
    (hstep : Step fileSize s b s') (key : String) (clock : VectorClock) :
    Covers vectorClock (tableItems s'.sstables key) clock ↔
      Covers vectorClock (tableItems s.sstables key) clock := by
  cases hstep with
  | compactSwap run merged swapped hc hswap =>
    rw [hc] at h
    obtain ⟨front, back, htables, rfl⟩ := replaceRun_eq_some hswap
    have hmerged := (Catalog.sameClocks_merge h key).covers_iff (c := clock)
    simp only [htables, tableItems_append, tableItems_cons, covers_append, hmerged]
    tauto
  | flushDone | reopen => cases hb
  | _ => rfl

end TableStore

namespace Engine

/-- What readers depend on in the work that is under way. -/
structure Tidy (e : Engine) : Prop where
  flush : FlushOf e.tables.flush e.flushing
  merge : TableStore.MergeOf e.tables.compact
  swap : e.writer = .swapping ∨ (∃ n, e.writer = .rotated n) → e.flushing = none

variable {fileSize : List Entry → Nat} {e e' : Engine} {b : EngineAct} {key : String}
  {clock : VectorClock}

theorem tidy_step (h : Tidy e) (hstep : Step fileSize e b e') : Tidy e' := by
  cases hstep with
  | log | sync | walFail => exact ⟨h.flush, h.merge, by simp⟩
  | apply =>
    refine ⟨h.flush, h.merge, fun hswap => ?_⟩
    dsimp only at hswap ⊢
    split at hswap
    · next hcrossed => exact hcrossed.2
    · simp at hswap
  | rotateFailed | rotateCloseFailed => exact ⟨h.flush, h.merge, by simp⟩
  | rotateOk hw => exact ⟨h.flush, h.merge, fun _ => h.swap (Or.inl hw)⟩
  | freeze n hw =>
    refine ⟨?_, h.merge, by simp⟩
    have hflush := h.flush
    rw [h.swap (Or.inr ⟨n, hw⟩)] at hflush
    unfold FlushOf at hflush ⊢
    split at hflush <;> simp_all
  | flushStart frozen seq t hf ht =>
    have ht' := TableStore.step_sound ht
    refine ⟨?_, TableStore.mergeOf_step h.merge ht', h.swap⟩
    cases ht'
    exact ⟨_, hf, rfl⟩
  | table b t hb ht =>
    have hflush := flushOf_background hb ht h.flush
    exact ⟨hflush, TableStore.mergeOf_step h.merge (TableStore.step_sound ht), h.swap⟩
  | flushDone sst frozen seq t hp hf ht | flushFailed entries frozen seq t hp hf ht =>
    refine ⟨?_, TableStore.mergeOf_step h.merge (TableStore.step_sound ht), fun _ => rfl⟩
    simp [flush_idle_of_finish ht, FlushOf]
  | deleteThrough => exact ⟨h.flush, h.merge, h.swap⟩
  | reopen kept back t hb ht =>
    have ht' := TableStore.step_sound ht
    exact ⟨by simp [flush_idle_of_reopen ht, FlushOf], TableStore.mergeOf_step h.merge ht',
      by simp⟩

/-- Only applying a batch and an Open change what readers cover. -/
theorem covers_step (h : Tidy e) {a : EngineAct} (hstep : Step fileSize e a e') (happly : a ≠ .apply)
    (hreopen : ∀ kept back, a ≠ .reopen kept back) :
    Covers vectorClock (e'.layers.getAll key) clock ↔
      Covers vectorClock (e.layers.getAll key) clock := by
  by_cases htable : ∃ b, a = .table b
  · obtain ⟨b, rfl⟩ := htable
    cases hstep with
    | table b t hb ht =>
      have htables := TableStore.covers_background h.merge hb (TableStore.step_sound ht) key clock
      simp only [Layers.covers_getAll, Layers.items, covers_append, layers, Layers.flushingItems,
        htables]
  · have hsame := maintains_step h.flush (fun n hw => h.swap (Or.inr ⟨n, hw⟩)) hstep happly
      (fun b hb => htable ⟨b, hb⟩) hreopen
    rw [(hsame key).1]

/-- Puts add what they carry, whatever the batch they come in. -/
theorem covers_applyBatch : ∀ {batch : List WalEntry} {l : Layers},
    (∀ w ∈ batch, ∃ k item, w = .put k item) →
    (Covers vectorClock ((l.applyBatch batch).1.getAll key) clock ↔
      Covers vectorClock (l.getAll key) clock ∨ Covers vectorClock (putsOf key batch) clock)
  | [], l, _ => by simp [Layers.applyBatch, putsOf, Covers]
  | w :: batch, l, h => by
    rw [List.forall_mem_cons] at h
    obtain ⟨⟨k, item, rfl⟩, hbatch⟩ := h
    have hputs : Covers vectorClock (putsOf key (.put k item :: batch)) clock ↔
        (key = k ∧ clock ≤ item.vectorClock) ∨ Covers vectorClock (putsOf key batch) clock := by
      by_cases hk : k = key
      · simp [putsOf, hk, Covers]
      · simp [putsOf, hk, Ne.symm hk]
    simp only [Layers.applyBatch, Layers.applyEntry]
    rw [covers_applyBatch hbatch, Layers.covers_getAll_put, hputs, or_assoc]

theorem covers_apply {batch : List WalEntry} (hw : e.writer = .logged batch)
    (hputs : ∀ w ∈ batch, ∃ k item, w = .put k item) (hstep : Step fileSize e .apply e') :
    Covers vectorClock (e'.layers.getAll key) clock ↔
      Covers vectorClock (e.layers.getAll key) clock ∨
        Covers vectorClock (putsOf key batch) clock := by
  cases hstep with
  | apply batch' hw' =>
    obtain rfl := WriterPhase.logged.inj (hw.symm.trans hw')
    rw [← covers_applyBatch hputs]
    simp only [applyBatch_layers, layers]

end Engine

namespace WritePath

variable {c : Codec WalEntry} {fileSize : List Entry → Nat} {s₀ s s' : WritePath} {a : WriteAct}
  {h h' : History}

/-- A step of a run without crashes in which no WAL write fails and only Puts are made. -/
def Clean (a : WriteAct) : Prop :=
  Alive a ∧ (∀ written, a ≠ .walFail written) ∧
    ∀ entry, a = .submit entry → ∃ key item, entry = .put key item

/-- What holds while only Puts are made and none fails. -/
structure Seen (before : String → List DataItem) (h : History) (s : WritePath) : Prop where
  halted : s.engine.halted = false
  tidy : Engine.Tidy s.engine
  puts : ∀ r ∈ s.requests, ∃ key item, r.entry = .put key item
  clocks : ∀ key clock, Covers vectorClock (s.engine.layers.getAll key) clock ↔
    Covers vectorClock (before key) clock ∨
      Covers vectorClock (Engine.putsOf key (h.applied.map Request.entry)) clock

theorem Opened.seen (h : Opened s) : Seen s.engine.layers.getAll .empty s where
  halted := h.halted
  tidy := ⟨by simp [h.flush, Engine.FlushOf], by simp [h.compact, TableStore.MergeOf],
    fun _ => h.flushing⟩
  puts := by
    simp [requests, h.pending, h.queue, h.carried, h.committer, h.commit, h.decided, batchOf,
      undecided]
  clocks := by simp [History.empty, Engine.putsOf, Covers]

theorem applied_of_ne (h : History) (s s' : WritePath) (ha : a ≠ .apply) :
    (h.after s s' a).applied = h.applied := by
  cases a <;> simp only [History.after]
  case apply => exact absurd rfl ha
  all_goals split <;> rfl

theorem halted_step {e e' : Engine} {b : EngineAct} (h : e.halted = false)
    (hb : ∀ kept, b ≠ .walFail kept) (hstep : Engine.Step fileSize e b e') : e'.halted = false := by
  cases hstep with
  | walFail batch kept => exact absurd rfl (hb kept)
  | reopen => rfl
  | _ => exact h

theorem seen_step {before : String → List DataItem} (ho : Order c h s) (hs : Seen before h s)
    (ha : Clean a) (hstep : s.step c fileSize a = some s') : Seen before (h.after s s' a) s' := by
  obtain ⟨halive, hfail, hsubmit⟩ := ha
  have hstep' := step_sound hstep
  have hputs : ∀ r ∈ s'.requests, ∃ key item, r.entry = .put key item := by
    rcases requests_step ho.carried hstep' halive with ⟨heq, -⟩ | ⟨entry, rfl, heq, -⟩
    · exact heq ▸ hs.puts
    · intro r hr
      rcases Multiset.mem_cons.mp (heq ▸ hr) with rfl | hr
      · exact hsubmit entry rfl
      · exact hs.puts r hr
  rcases engine_step_alive hstep' halive with ⟨hsame, hne⟩ | ⟨b, hb, happly, hreopen, hwal⟩
  · exact ⟨hsame ▸ hs.halted, hsame ▸ hs.tidy, hputs, by
      rw [hsame, applied_of_ne h s s' hne]
      exact hs.clocks⟩
  · have hb' := Engine.step_sound hb
    refine ⟨halted_step hs.halted (fun kept heq => ?_) hb', Engine.tidy_step hs.tidy hb', hputs, ?_⟩
    · obtain ⟨written, rfl⟩ := hwal kept heq
      exact hfail written rfl
    · intro key clock
      by_cases hne : a = .apply
      · subst hne
        obtain rfl := happly.mpr rfl
        cases hstep' with
        | apply batch e hrun =>
          obtain ⟨entries, hw⟩ : ∃ entries, s.engine.writer = .logged entries := by
            cases hb' with
            | apply entries hw => exact ⟨entries, hw⟩
          obtain ⟨batch', hrun', rfl⟩ := (hw ▸ ho.stage).of_logged
          obtain rfl := CommitPhase.running.inj (hrun.symm.trans hrun')
          have hbatch : ∀ w ∈ batch.map Request.entry, ∃ k item, w = .put k item := by
            intro w hw
            obtain ⟨r, hr, rfl⟩ := List.mem_map.mp hw
            exact hs.puts r (by simp [requests, undecided, hrun, hr])
          simp only [History.after, hrun, List.map_append, Engine.putsOf_append, covers_append]
          rw [Engine.covers_apply hw hbatch hb', hs.clocks, or_assoc]
      · rw [applied_of_ne h s s' hne, ← hs.clocks]
        exact Engine.covers_step hs.tidy hb' (fun heq => hne (happly.mp heq)) hreopen

theorem Life.alive (hlife : Life c fileSize Clean h s h' s') : Life c fileSize Alive h s h' s' :=
  hlife.mono fun _ ha => ha.1

theorem seen_of_life (hopen : Opened s₀) (hlife : Life c fileSize Clean .empty s₀ h s) :
    Seen s₀.engine.layers.getAll h s := by
  induction hlife with
  | refl => exact hopen.seen
  | step hlife ha hstep ih =>
    exact seen_step (order_of_life hlife.alive hopen.order) ih ha hstep

/-- The clocks readers see for a key, by their counters. -/
def visibleClocks (s : WritePath) (key : String) : Set (String → UInt32) :=
  {clock | ∃ w ∈ s.engine.layers.getAll key, w.vectorClock.entry = clock}

/-- Readers see the same after the same Puts, however they were committed. -/
theorem visibleClocks_eq {before : String → List DataItem} {key : String} (hs : Seen before h s)
    (hs' : Seen before h' s')
    (happlied : h'.applied.map Request.entry = h.applied.map Request.entry) :
    s'.visibleClocks key = s.visibleClocks key := by
  simp only [visibleClocks, Layers.getAll_eq]
  refine counters_keepMax_eq fun clock => ?_
  rw [← Layers.covers_getAll, ← Layers.covers_getAll, hs'.clocks, hs.clocks, happlied]

/-! ## One at a time -/

/-- A state in which the next writer can commit on its own. -/
structure Alone (s : WritePath) : Prop where
  mode : s.groupCommit = false
  closed : s.closed = false
  pending : s.pending = []
  commit : s.commit = .free
  writer : s.engine.writer = .idle
  halted : s.engine.halted = false

theorem rotate_failed_eq (hw : s.engine.writer = .swapping) :
    s.step c fileSize (.rotate .failed) =
      some { s with engine := { s.engine with writer := .idle } } := by
  simp [step, Engine.step, hw]

/-- Without group commit one Put is committed by itself. -/
theorem exists_alone (hs : Alone s) (h : History) (key : String) (item : DataItem) :
    ∃ h' s', Life c fileSize Clean h s h' s' ∧ Alone s' ∧
      h'.applied.map Request.entry = h.applied.map Request.entry ++ [.put key item] := by
  obtain ⟨⟨tables, active, flushing, current, sealed, deletions, deleted, writer, halted⟩, file,
    sealedFiles, deletedFiles, groupCommit, closed, nextID, pending, queue, carried, committer,
    commit, decided, acked, base⟩ := s
  obtain ⟨rfl, rfl, rfl, rfl, rfl, rfl⟩ := hs
  have hclean : ∀ a ∈ [WriteAct.submit (.put key item), .lock 0, .write, .fsync, .apply,
      .rotate .failed, .signal], Clean a := by
    intro a ha
    simp only [List.mem_cons, List.not_mem_nil, or_false] at ha
    rcases ha with rfl | rfl | rfl | rfl | rfl | rfl | rfl <;> exact ⟨nofun, nofun, by simp⟩
  have h₀ : Life c fileSize Clean h ⟨⟨tables, active, flushing, current, sealed, deletions, deleted,
    .idle, false⟩, file, sealedFiles, deletedFiles, false, false, nextID, [], queue, carried,
    committer, .free, decided, acked, base⟩ h _ := .refl
  have h₁ := h₀.step (hclean (.submit (.put key item)) (by simp)) rfl
  have h₂ := h₁.step (hclean (.lock 0) (by simp)) rfl
  have h₃ := h₂.step (hclean .write (by simp)) rfl
  have h₄ := h₃.step (hclean .fsync (by simp)) rfl
  have h₅ := h₄.step (hclean .apply (by simp)) rfl
  by_cases hcrossed : ((Layers.mk active (flushing.map Prod.fst) tables.sstables).applyBatch
      [.put key item]).2.1 = true ∧ flushing = none
  · have h₆ := h₅.step (hclean (.rotate .failed) (by simp)) (rotate_failed_eq (if_pos hcrossed))
    have h₇ := h₆.step (hclean .signal (by simp)) (signal_eq rfl rfl)
    exact ⟨_, _, h₇, ⟨rfl, rfl, rfl, rfl, rfl, rfl⟩, by simp [History.after]⟩
  · have h₆ := h₅.step (hclean .signal (by simp)) (signal_eq rfl (if_neg hcrossed))
    exact ⟨_, _, h₆, ⟨rfl, rfl, rfl, rfl, if_neg hcrossed, rfl⟩, by simp [History.after]⟩

/-- Any Puts can be committed one at a time. -/
theorem exists_serial : ∀ {puts : List WalEntry} {s : WritePath} {h : History},
    (∀ w ∈ puts, ∃ key item, w = .put key item) → Alone s →
    ∃ h' s', Life c fileSize Clean h s h' s' ∧ Alone s' ∧
      h'.applied.map Request.entry = h.applied.map Request.entry ++ puts
  | [], s, h, _, hs => ⟨h, s, .refl, hs, by simp⟩
  | w :: puts, s, h, hputs, hs => by
    rw [List.forall_mem_cons] at hputs
    obtain ⟨⟨key, item, rfl⟩, hputs⟩ := hputs
    obtain ⟨h₁, s₁, hlife₁, hs₁, happlied₁⟩ := exists_alone hs h key item
    obtain ⟨h₂, s₂, hlife₂, hs₂, happlied₂⟩ := exists_serial hputs hs₁
    exact ⟨h₂, s₂, hlife₁.trans hlife₂, hs₂, by simp [happlied₂, happlied₁]⟩

/-! ## The whole of one Open -/

theorem groupCommit_of_life (hlife : Life c fileSize Alive h s h' s') :
    s'.groupCommit = s.groupCommit := by
  induction hlife with
  | refl => rfl
  | @step _ _ _ a _ ha hstep ih =>
    refine Eq.trans ?_ ih
    cases step_sound hstep with
    | reopen g k back => exact absurd rfl (ha g k back)
    | _ => rfl

/-- Every answer is the one outcome that was set for its request. -/
theorem existsUnique_outcome (hc : Accounted h s) {r : Request} (hr : r ∈ h.answered) :
    ∃! o, (r, o) ∈ s.decided := by
  obtain ⟨⟨r', o⟩, ho, rfl⟩ := List.mem_map.mp (hc.decided.subset (List.mem_append_left _ hr))
  exact ⟨o, ho, fun o' ho' => outcome_unique hc.ids ho' ho⟩

/-- Between batches, a run in which only Puts are made and none fails has applied all that
was handed to `commit`. -/
theorem applied_of_between {before : String → List DataItem} {bytes : List UInt8}
    (hl : Log c bytes h s) (hs : Seen before h s) (hbetween : ∀ batch, s.commit ≠ .running batch) :
    h.applied = h.batches.flatten := by
  have hwritten := hl.written hs.halted
  have happlied := hl.applied hs.halted
  cases hcommit : s.commit with
  | running batch => exact absurd hcommit (hbetween batch)
  | free | done => simp_all [unwritten, unapplied]

/-- Group commit is a serial commit in the order of the queue. Whatever writers, committer,
background work and Close do after an Open : every accepted request is in one batch and gets
one answer, batches follow the order of acceptance, and so do the records in the WAL; batches
keep to their bounds. Nothing is accepted once the queue is closed, and nothing is
unanswered once the committer has returned. The committer's steps each lower `work`, and by
themselves they lead to where all that is accepted is answered. If no WAL write fails and
only Puts are made, readers see after each batch the clocks that committing the same Puts one
at a time without group commit shows them. -/
theorem group_commit_serial (hopen : Opened s₀) (hmode : s₀.groupCommit = true)
    (hlife : Life c fileSize Alive .empty s₀ h s) :
    ((h.accepted.map Request.id).Nodup ∧ h.accepted = h.batches.flatten ++ s.waiting ∧
      h.batches.flatten = h.answered ++ committing s.commit ∧
      ∀ r ∈ h.answered, ∃! o, (r, o) ∈ s.decided) ∧
    (s.walBytes <+: s₀.walBytes ++ encodeAll c (h.accepted.map Request.entry) ∧
      (s.engine.halted = false → h.batches.flatten = h.logged ++ unwritten s.commit s.engine.writer ∧
        s.walBytes = s₀.walBytes ++ encodeAll c (h.logged.map Request.entry))) ∧
    (∀ batch ∈ h.batches, batch.length ≤ maxBatchRecords ∧
      (recordBytes c batch ≤ maxBatchBytes ∨ batch.length = 1)) ∧
    ((s.closed = true → ∀ h' s', Life c fileSize Alive h s h' s' → h'.accepted = h.accepted) ∧
      (Exited s → h.answered = h.accepted)) ∧
    ((∀ a s', ofCommitter a = true → s.step c fileSize a = some s' → s'.work < s.work) ∧
      ∃ h' s', Life c fileSize (ofCommitter · = true) h s h' s' ∧ h'.answered = h.accepted ∧
        (s.closed = true → Exited s')) ∧
    (Life c fileSize Clean .empty s₀ h s → (∀ batch, s.commit ≠ .running batch) →
      (∃ h' s', Life c fileSize Clean .empty { s₀ with groupCommit := false } h' s' ∧
        h'.applied.map Request.entry = h.batches.flatten.map Request.entry) ∧
      ∀ h' s', Life c fileSize Clean .empty { s₀ with groupCommit := false } h' s' →
        h'.applied.map Request.entry = h.batches.flatten.map Request.entry →
        ∀ key, s.visibleClocks key = s'.visibleClocks key) := by
  have ho := order_of_life hlife hopen.order
  have hl := log_of_life hlife hopen.order hopen.log
  have hc := accounted_of_life hlife hopen.order hopen.accounted
  have hmode' : s.groupCommit = true := (groupCommit_of_life hlife).trans hmode
  have hlogged : h.logged <+: h.accepted := by
    rw [ho.accepted]
    exact hl.inOrder.trans (List.prefix_append _ _)
  refine ⟨⟨accepted_nodup ho hc, ho.accepted, ho.answered, fun r hr => existsUnique_outcome hc hr⟩,
    ⟨?_, fun hh => ⟨hl.written hh, hl.bytes hh⟩⟩, fun batch hbatch => ?_,
    ⟨fun hclosed h' s' hlife' => (accepted_of_closed hclosed hlife').2, answered_of_exited ho⟩,
    ⟨fun a s' ha hstep => work_step ho ha hstep, exists_answered ho hmode'⟩,
    fun hclean hbetween => ?_⟩
  · obtain ⟨rest, hrest⟩ := hlogged
    rw [← hrest, List.map_append, encodeAll_append, ← List.append_assoc]
    exact hl.part.trans (List.prefix_append _ _)
  · have hbounded := ho.bounded batch (List.mem_append_left _ hbatch)
    exact ⟨hbounded.records, hbounded.bytes⟩
  · have hs := seen_of_life hopen hclean
    have happlied := applied_of_between hl hs hbetween
    have hopen' : Opened { s₀ with groupCommit := false } := { hopen with }
    have hputs : ∀ w ∈ h.batches.flatten.map Request.entry, ∃ key item, w = .put key item := by
      intro w hw
      obtain ⟨r, hr, rfl⟩ := List.mem_map.mp hw
      refine hs.puts r (Multiset.mem_of_le (accepted_le_requests ho hc) ?_)
      rw [Multiset.mem_coe, ho.accepted]
      exact List.mem_append_left _ hr
    refine ⟨?_, fun h' s' hlife' heq key => ?_⟩
    · have halone : Alone { s₀ with groupCommit := false } :=
        ⟨rfl, hopen.closed, hopen.pending, hopen.commit, hopen.writer, hopen.halted⟩
      obtain ⟨h', s', hlife', -, happlied'⟩ := exists_serial (h := .empty) hputs halone
      exact ⟨h', s', hlife', by simpa [History.empty] using happlied'⟩
    · have hs' := seen_of_life hopen' hlife'
      exact (visibleClocks_eq hs hs' (by rw [heq, happlied])).symm

theorem Life.acts {allowed : WriteAct → Prop} {h₀ : History} :
    ∀ {acts : List WriteAct} {p p' : History × WritePath}, Life c fileSize allowed h₀ s₀ p.1 p.2 →
      (∀ a ∈ acts, allowed a) → acts.foldlM (fun p a =>
        (p.2.step c fileSize a).map fun s' => (p.1.after p.2 s' a, s')) p = some p' →
      Life c fileSize allowed h₀ s₀ p'.1 p'.2
  | [], p, p', hlife, _, hacts => by
    obtain rfl : p = p' := by simpa using hacts
    exact hlife
  | a :: acts, p, p', hlife, hallowed, hacts => by
    rw [List.foldlM_cons] at hacts
    obtain ⟨p₁, hstep, hrest⟩ := Option.bind_eq_some_iff.mp hacts
    obtain ⟨s', hs', rfl⟩ := Option.map_eq_some_iff.mp hstep
    exact Life.acts (p := (_, s')) (hlife.step (hallowed a List.mem_cons_self) hs')
      (fun a ha => hallowed a (List.mem_cons_of_mem _ ha)) hrest

/-- Two writers whose requests make one batch, and a third whose request is accepted before
the queue is closed and committed afterwards. -/
def queuedActs : List WriteAct :=
  [.submit onePut, .submit oneRestore, .submit otherPut, .enqueue 0, .enqueue 0, .receive, .fill,
    .fillEnd, .lockBatch, .write, .fsync, .apply, .signal, .enqueue 0, .close, .receive, .fillEnd,
    .lockBatch, .write, .fsync, .apply, .signal]

/-- All three are accepted, in the WAL and answered when the committer returns. -/
theorem group_commit_serial_twoBatches : ∃ (h : History) (s : WritePath),
    Life sampleCodec (fun _ => 0) Alive .empty (create 1000 true) h s ∧ Exited s ∧
    h.batches = [[⟨0, onePut⟩, ⟨1, oneRestore⟩], [⟨2, otherPut⟩]] ∧ h.answered = h.accepted ∧
    s.walBytes <+: (create 1000 true).walBytes ++
      encodeAll sampleCodec (h.accepted.map Request.entry) := by
  have halive : ∀ a ∈ queuedActs, Alive a := by
    rintro a ha g kept back rfl
    simp [queuedActs] at ha
  let last := queuedActs.foldlM (fun (p : History × WritePath) a =>
    (p.2.step sampleCodec (fun _ => 0) a).map fun s' => (p.1.after p.2 s' a, s'))
    (.empty, create 1000 true)
  have hend : ∃ p ∈ last, Exited p.2 ∧
      p.1.batches = [[⟨0, onePut⟩, ⟨1, oneRestore⟩], [⟨2, otherPut⟩]] := by
    unfold Exited
    decide +kernel
  obtain ⟨⟨h, s⟩, hlast, hexited, hbatches⟩ := hend
  have hlife := Life.acts (p := (.empty, create 1000 true)) .refl halive hlast
  have hall := group_commit_serial (opened_create 1000 true) rfl hlife
  exact ⟨h, s, hlife, hexited, hbatches, hall.2.2.2.1.2 hexited, hall.2.1.1⟩

end WritePath

end DistributedKV
