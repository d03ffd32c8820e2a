import DistributedKV.TableContents
import DistributedKV.Engine

/-!
# Puts survive

For a key that is only ever put, the engine is a set of maximal versions : at every moment
a read gives one version for every maximal clock among the Puts applied so far
(`MaximaOf`), and a crash at any step followed by an Open gives reads that cover all of
them, with nothing in them that no Put issued, whatever deleted segments come back
(`puts_survive`).

`Inv` ties the segments to the layers. What the memtables and the registered tables hold
covers every Put applied; what the segments on disk and the registered tables hold does so
too. Segments up to the one sealed with the frozen memtable hold only what that memtable
and the tables cover, and segments about to be deleted only what the tables cover.
-/

open Maxima

namespace DistributedKV

open DataItem (vectorClock)

/-- One version for every maximal clock among the Puts, and no others. -/
structure MaximaOf (puts read : List DataItem) : Prop where
  put : ∀ w ∈ read, w ∈ puts
  maximal : ∀ w ∈ read, ∀ x ∈ puts, w.vectorClock.compare x.vectorClock ≠ .before
  every : ∀ x ∈ puts, (∀ y ∈ puts, x.vectorClock.compare y.vectorClock ≠ .before) →
    ∃ w ∈ read, w.vectorClock.compare x.vectorClock = .equal
  once : read.Pairwise fun w w' => w.vectorClock.compare w'.vectorClock ≠ .equal

theorem maximaOf_keepMax {items puts : List DataItem} (h : SameClocks items puts) :
    MaximaOf puts (keepMax vectorClock items) := by
  have hsame : SameClocks (keepMax vectorClock items) puts := (SameClocks.keepMax items).trans h
  refine ⟨hsame.mem, fun w hw x hx => ?_, fun x hx hmax => ?_, ?_⟩
  · rw [Ne, VectorClock.compare_eq_before]
    intro hlt
    obtain ⟨v, hv, hle⟩ := h.covers x hx
    exact not_lt_of_mem_keepMax hw hv (hlt.trans_le hle)
  · obtain ⟨w, hw, hle⟩ := hsame.covers x hx
    have hnot := hmax w (hsame.mem w hw)
    rw [Ne, VectorClock.compare_eq_before, lt_iff_le_not_ge, not_and_not_right] at hnot
    exact ⟨w, hw, VectorClock.compare_eq_equal.mpr ⟨hnot hle, hle⟩⟩
  · exact (antichain_keepMax items).imp fun hne heq =>
      hne.1 (VectorClock.compare_eq_equal.mp heq).1

/-! ## Memtables -/

theorem sameClocks_put (m : MemTable) (key : String) (item : DataItem) :
    SameClocks ((m.put key item).1.current key) (m.current key ++ [item]) where
  mem := fun w hw => by
    rcases MemTable.mem_current_put hw with hw | ⟨-, rfl⟩
    · exact List.mem_append_left _ hw
    · exact List.mem_append_right _ (List.mem_singleton_self _)
  covers := fun w hw => by
    rw [MemTable.covers_current_put_self]
    rcases List.mem_append.mp hw with hw | hw
    · exact Or.inl ⟨w, hw, le_rfl⟩
    · exact Or.inr (List.mem_singleton.mp hw ▸ le_rfl)

theorem sameClocks_mergeSiblings (a b : List DataItem) : SameClocks (mergeSiblings a b) (a ++ b) where
  mem := fun _ hw => List.mem_append.mpr (mem_of_mem_mergeSiblings hw)
  covers := fun w hw => covers_mergeSiblings ((List.mem_append.mp hw).imp
    (fun h => ⟨w, h, le_rfl⟩) fun h => ⟨w, h, le_rfl⟩)

namespace Engine

theorem putsOf_append (key : String) (a b : List WalEntry) :
    putsOf key (a ++ b) = putsOf key a ++ putsOf key b :=
  List.filterMap_append ..

theorem mem_putsOf {key : String} {entries : List WalEntry} {x : DataItem} :
    x ∈ putsOf key entries ↔ .put key x ∈ entries := by
  simp only [putsOf, List.mem_filterMap]
  constructor
  · rintro ⟨e, he, hx⟩
    cases e with
    | put k item =>
      obtain ⟨rfl, rfl⟩ : k = key ∧ item = x := by simpa using hx
      exact he
    | restore => simp at hx
  · exact fun h => ⟨_, h, by simp⟩

/-- Applying or replaying records that only put the key leaves the memtable with what it
had and what they put. -/
theorem sameClocks_apply {key : String} : ∀ {entries : List WalEntry} (m : MemTable),
    (∀ e ∈ entries, restores key e = false) →
    SameClocks ((entries.foldl MemTable.apply m).current key) (m.current key ++ putsOf key entries)
  | [], m, _ => by simpa [putsOf] using SameClocks.refl _
  | e :: entries, m, h => by
    rw [List.forall_mem_cons] at h
    have hrest := sameClocks_apply (m.apply e) h.2
    refine hrest.trans ?_
    cases e with
    | put k item =>
      by_cases hk : k = key
      · subst hk
        have hputs : putsOf k (.put k item :: entries) = [item] ++ putsOf k entries := by
          simp [putsOf]
        rw [hputs, ← List.append_assoc]
        exact (sameClocks_put m k item).append (SameClocks.refl _)
      · have hputs : putsOf key (.put k item :: entries) = putsOf key entries := by
          simp [putsOf, hk]
        rw [hputs, MemTable.apply, MemTable.current_put_of_ne _ _ (Ne.symm hk)]
        exact SameClocks.refl _
    | restore k items =>
      have hk : k ≠ key := by simpa [restores] using h.1
      have hputs : putsOf key (.restore k items :: entries) = putsOf key entries := by
        simp [putsOf]
      rw [hputs, MemTable.apply, MemTable.current_replace, if_neg (Ne.symm hk)]
      exact SameClocks.refl _

/-! ## The invariant -/

/-- What the fsynced records of segments put. -/
def loggedPuts (key : String) (segments : List Segment) : List DataItem :=
  segments.flatMap fun seg => putsOf key seg.records

theorem mem_loggedPuts {key : String} {segments : List Segment} {x : DataItem} :
    x ∈ loggedPuts key segments ↔ ∃ seg ∈ segments, x ∈ putsOf key seg.records :=
  List.mem_flatMap

/-- A step whose MANIFEST call is all or nothing and that restores the key nowhere. -/
def PutsOnly (key : String) (_ : Trace) (s : Engine) (a : EngineAct) : Prop :=
  s.AllOrNothing a ∧ logsRestore key a = false

instance (key : String) (t : Trace) (s : Engine) (a : EngineAct) :
    Decidable (PutsOnly key t s a) :=
  inferInstanceAs (Decidable (_ ∧ _))

/-- The records an Open finds that were never fsynced. -/
def keptTail (s : Engine) : EngineAct → List WalEntry
  | .reopen kept _ => s.current.tail.take kept
  | _ => []

/-- Such a step, and if it is an Open it finds only fsynced records. -/
def PutsOnlyFsynced (key : String) (t : Trace) (s : Engine) (a : EngineAct) : Prop :=
  PutsOnly key t s a ∧ s.keptTail a = []

instance (key : String) (t : Trace) (s : Engine) (a : EngineAct) :
    Decidable (PutsOnlyFsynced key t s a) :=
  inferInstanceAs (Decidable (_ ∧ _))

/-- Every record the engine still has was issued. -/
structure Issued (t : Trace) (s : Engine) : Prop where
  applied : ∀ e ∈ t.applied, e ∈ t.issued
  current : ∀ e ∈ s.current.records ++ s.current.tail, e ∈ t.issued
  segments : ∀ seg ∈ s.sealed ++ s.deleted, ∀ e ∈ seg.records, e ∈ t.issued

/-- How segments, memtables and registered tables share the Puts of a key. -/
structure Inv (key : String) (t : Trace) (s : Engine) : Prop where
  issued : Issued t s
  puts : ∀ e ∈ t.issued, restores key e = false
  memory : SameClocks
    (s.active.current key ++ (s.layers.flushingItems key ++ tableItems t.tables key))
    (putsOf key t.applied)
  disk : ∀ x ∈ putsOf key t.applied, Covers vectorClock (loggedPuts key s.sealed ++
    (putsOf key s.current.records ++ tableItems t.tables key)) x.vectorClock
  sealed : ∀ x ∈ loggedPuts key s.sealed, x ∈ putsOf key t.applied
  current : ∀ x ∈ putsOf key s.current.records,
    x ∈ putsOf key t.applied ∨ ∃ batch, s.writer = .logged batch ∧ x ∈ putsOf key batch
  frozen : ∀ f ∈ s.flushing, ∀ seg ∈ s.sealed, seg.seq ≤ f.2 → ∀ x ∈ putsOf key seg.records,
    Covers vectorClock (f.1.current key ++ tableItems t.tables key) x.vectorClock
  due : ∀ n ∈ s.deletions, ∀ seg ∈ s.sealed, seg.seq ≤ n → ∀ x ∈ putsOf key seg.records,
    Covers vectorClock (tableItems t.tables key) x.vectorClock

variable {fileSize : List Entry → Nat} {maxBytes : Int} {key : String}
  {t : Trace} {s s' : Engine} {a : EngineAct}

theorem inv_create (key : String) (maxBytes : Int) : Inv key .empty (create maxBytes) := by
  refine ⟨⟨?_, ?_, ?_⟩, ?_, ?_, ?_, ?_, ?_, ?_, ?_⟩
  all_goals simp [Trace.empty, create, putsOf, loggedPuts]
  simpa [create, layers, Layers.flushingItems] using SameClocks.refl []

/-- The MANIFEST has one more table, the one written from the frozen memtable. -/
theorem Inv.register (h : Inv key t s) {sst : SSTable} {f : MemTable × Nat}
    (hf : f ∈ s.flushing) (hsst : sst.entries = f.1.snapshot) :
    Inv key { t with tables := sst :: t.tables } s := by
  have hitems : itemsOf sst.entries key = s.layers.flushingItems key := by
    rw [hsst, MemTable.itemsOf_snapshot]
    simp [layers, Layers.flushingItems, Option.mem_def.mp hf]
  have hsub : ∀ w ∈ tableItems t.tables key, w ∈ tableItems (sst :: t.tables) key :=
    fun w hw => List.mem_append_right _ hw
  refine ⟨⟨h.issued.applied, h.issued.current, h.issued.segments⟩, h.puts, ?_, ?_, h.sealed,
    h.current, ?_, ?_⟩
  · refine SameClocks.trans ?_ h.memory
    rw [tableItems_cons, hitems, ← List.append_assoc (s.layers.flushingItems key)]
    refine (SameClocks.refl _).append (SameClocks.append ⟨?_, ?_⟩ (SameClocks.refl _))
    · exact fun w hw => (List.mem_append.mp hw).elim id id
    · exact fun w hw => ⟨w, List.mem_append_left _ hw, le_rfl⟩
  · refine fun x hx => (h.disk x hx).mono fun w hw => ?_
    simp only [List.mem_append] at hw ⊢
    exact hw.imp_right fun hw => hw.imp_right (hsub w)
  · refine fun g hg seg hseg hle x hx => (h.frozen g hg seg hseg hle x hx).mono fun w hw => ?_
    exact List.mem_append.mpr ((List.mem_append.mp hw).imp_right (hsub w))
  · exact fun n hn seg hseg hle x hx => (h.due n hn seg hseg hle x hx).mono hsub

/-- A writer who has not got as far as fsynced records has left none unapplied. -/
theorem Inv.current_applied (h : Inv key t s) (hw : ∀ batch, s.writer ≠ .logged batch) :
    ∀ x ∈ putsOf key s.current.records, x ∈ putsOf key t.applied := by
  intro x hx
  rcases h.current x hx with hx | ⟨batch, hb, -⟩
  · exact hx
  · exact absurd hb (hw batch)

theorem Inv.log (h : Inv key t s) {batch : List WalEntry}
    {rolledBack : String → Option (List DataItem × List DataItem)}
    (hbatch : ∀ e ∈ batch, restores key e = false) (hidle : s.writer = .idle) :
    Inv key { t with issued := t.issued ++ batch, rolledBack := rolledBack }
      { s with current := { s.current with tail := batch }, writer := .logging batch } where
  issued := by
    refine ⟨fun e he => List.mem_append_left _ (h.issued.applied e he), fun e he => ?_,
      fun seg hseg e he => List.mem_append_left _ (h.issued.segments seg hseg e he)⟩
    rcases List.mem_append.mp he with he | he
    · exact List.mem_append_left _ (h.issued.current e (List.mem_append_left _ he))
    · exact List.mem_append_right _ he
  puts := fun e he => (List.mem_append.mp he).elim (h.puts e) (hbatch e)
  memory := h.memory
  disk := h.disk
  sealed := h.sealed
  current := fun x hx => Or.inl (h.current_applied (by simp [hidle]) x hx)
  frozen := h.frozen
  due := h.due

theorem Inv.sync (h : Inv key t s) (hshape : Shape s) {batch : List WalEntry}
    (hw : s.writer = .logging batch) :
    Inv key t { s with
      current := { s.current with records := s.current.records ++ batch, tail := [] }
      writer := .logged batch } where
  issued := by
    have hdid := hshape.writer
    simp only [WriterDid, hw] at hdid
    refine ⟨h.issued.applied, fun e he => h.issued.current e ?_, h.issued.segments⟩
    rw [hdid.2]
    simpa using he
  puts := h.puts
  memory := h.memory
  disk := fun x hx => by
    refine (h.disk x hx).mono fun w hw => ?_
    simp only [putsOf_append, List.mem_append] at hw ⊢
    tauto
  sealed := h.sealed
  current := fun x hx => by
    rw [putsOf_append] at hx
    rcases List.mem_append.mp hx with hx | hx
    · exact Or.inl (h.current_applied (by simp [hw]) x hx)
    · exact Or.inr ⟨batch, rfl, hx⟩
  frozen := h.frozen
  due := h.due

theorem Inv.walFail (h : Inv key t s) (hshape : Shape s) {batch : List WalEntry}
    (hw : s.writer = .logging batch) (kept : Nat) :
    Inv key t { s with
      current := { s.current with tail := batch.take kept }, writer := .idle, halted := true } where
  issued := by
    have hdid := hshape.writer
    simp only [WriterDid, hw] at hdid
    refine ⟨h.issued.applied, fun e he => h.issued.current e ?_, h.issued.segments⟩
    rw [hdid.2]
    exact List.mem_append.mpr ((List.mem_append.mp he).imp_right List.mem_of_mem_take)
  puts := h.puts
  memory := h.memory
  disk := h.disk
  sealed := h.sealed
  current := fun x hx => Or.inl (h.current_applied (by simp [hw]) x hx)
  frozen := h.frozen
  due := h.due

theorem Inv.apply (h : Inv key t s) (hshape : Shape s) {batch : List WalEntry}
    {rolledBack : String → Option (List DataItem × List DataItem)} {phase : WriterPhase}
    (hw : s.writer = .logged batch) :
    Inv key { t with applied := t.applied ++ batch, rolledBack := rolledBack }
      { s with active := (s.layers.applyBatch batch).1.active, writer := phase } := by
  have hdid := hshape.writer
  simp only [WriterDid, hw] at hdid
  obtain ⟨front, hfront⟩ := hdid.2.2
  have hissued : ∀ e ∈ batch, e ∈ t.issued := fun e he =>
    h.issued.current e (by rw [← hfront]; simp [he])
  have hactive : (s.layers.applyBatch batch).1.active = batch.foldl MemTable.apply s.active := by
    rw [applyBatch_layers]
    rfl
  refine ⟨⟨fun e he => (List.mem_append.mp he).elim (h.issued.applied e) (hissued e),
    h.issued.current, h.issued.segments⟩, h.puts, ?_, fun x hx => ?_, fun x hx => ?_,
    fun x hx => ?_, h.frozen, h.due⟩
  · have hputs : ∀ e ∈ batch, restores key e = false := fun e he => h.puts e (hissued e he)
    have hmem := (sameClocks_apply s.active hputs).append
      (SameClocks.refl (s.layers.flushingItems key ++ tableItems t.tables key))
    simp only [hactive, putsOf_append]
    refine hmem.trans ⟨fun w hw => ?_, fun w hw => ?_⟩
    · have := h.memory.mem w
      simp only [List.mem_append] at this hw ⊢
      tauto
    · rcases List.mem_append.mp hw with hw | hw
      · refine (h.memory.covers w hw).mono fun v hv => ?_
        simp only [List.mem_append] at hv ⊢
        tauto
      · exact ⟨w, by simp [hw], le_rfl⟩
  · rw [putsOf_append] at hx
    rcases List.mem_append.mp hx with hx | hx
    · exact h.disk x hx
    · refine ⟨x, ?_, le_rfl⟩
      rw [← hfront, putsOf_append]
      simp [hx]
  · rw [putsOf_append]
    exact List.mem_append_left _ (h.sealed x hx)
  · rw [putsOf_append]
    rcases h.current x hx with hx | ⟨b, hb, hx⟩
    · exact Or.inl (List.mem_append_left _ hx)
    · obtain rfl : batch = b := by
        rw [hw] at hb
        exact WriterPhase.logged.inj hb
      exact Or.inl (List.mem_append_right _ hx)

theorem Inv.setWriter (h : Inv key t s) (hw : ∀ batch, s.writer ≠ .logged batch)
    (phase : WriterPhase) : Inv key t { s with writer := phase } :=
  ⟨⟨h.issued.applied, h.issued.current, h.issued.segments⟩, h.puts, h.memory, h.disk, h.sealed,
    fun x hx => Or.inl (h.current_applied hw x hx), h.frozen, h.due⟩

/-- The current segment is sealed; nothing is being flushed, and no deletion reaches it. -/
theorem Inv.nextSegment (h : Inv key t s) (hshape : Shape s) (hw : s.writer = .swapping) :
    Inv key t s.nextSegment := by
  have hdid := hshape.writer
  simp only [WriterDid, hw] at hdid
  obtain ⟨-, htail, hnone⟩ := hdid
  have happlied := h.current_applied (by simp [hw])
  refine ⟨⟨h.issued.applied, by simp [Engine.nextSegment], fun seg hseg e he => ?_⟩, h.puts,
    h.memory, fun x hx => ?_, fun x hx => ?_, by simp [Engine.nextSegment, putsOf], ?_, ?_⟩
  · simp only [Engine.nextSegment, List.mem_append, List.mem_singleton] at hseg
    have hold := h.issued.segments
    simp only [List.mem_append] at hold
    rcases hseg with (hseg | rfl) | hseg
    · exact hold seg (Or.inl hseg) e he
    · exact h.issued.current e (List.mem_append_left _ he)
    · exact hold seg (Or.inr hseg) e he
  · refine (h.disk x hx).mono fun w hw => ?_
    simp only [Engine.nextSegment, loggedPuts, List.flatMap_append, List.flatMap_cons,
      List.flatMap_nil, List.mem_append] at hw ⊢
    tauto
  · simp only [Engine.nextSegment, loggedPuts, List.flatMap_append, List.mem_append] at hx
    rcases hx with hx | hx
    · exact h.sealed x hx
    · exact happlied x (by simpa using hx)
  · intro f hf
    have hf : f ∈ s.flushing := hf
    simp [hnone] at hf
  · intro n hn seg hseg hle x hx
    simp only [Engine.nextSegment, List.mem_append, List.mem_singleton] at hseg
    rcases hseg with hseg | rfl
    · exact h.due n hn seg hseg hle x hx
    · exact absurd (hshape.deletions_lt n hn) (Nat.not_lt.mpr hle)

/-- Everything the sealed segments hold is applied, so the memtable now frozen and the
tables cover it. -/
theorem Inv.freeze (h : Inv key t s) (hshape : Shape s) {sealedSeg : Nat}
    (hw : s.writer = .rotated sealedSeg) :
    Inv key t { s with
      flushing := some (s.active, sealedSeg), active := .new s.active.maxBytes
      writer := .idle } := by
  have hdid := hshape.writer
  simp only [WriterDid, hw] at hdid
  have hnone : s.layers.flushingItems key = [] := by
    simp [layers, Layers.flushingItems, hdid.2.2.1]
  have hmemory := h.memory
  rw [hnone, List.nil_append] at hmemory
  refine ⟨⟨h.issued.applied, h.issued.current, h.issued.segments⟩, h.puts, ?_, h.disk, h.sealed,
    fun x hx => Or.inl (h.current_applied (by simp [hw]) x hx), ?_, h.due⟩
  · simpa [layers, Layers.flushingItems] using hmemory
  · rintro f hf seg hseg - x hx
    obtain rfl : (s.active, sealedSeg) = f := by simpa using hf
    exact hmemory.covers x (h.sealed x (mem_loggedPuts.mpr ⟨seg, hseg, hx⟩))

theorem Inv.setTables (h : Inv key t s) (tables : TableStore) :
    Inv key t { s with tables := tables } :=
  ⟨⟨h.issued.applied, h.issued.current, h.issued.segments⟩, h.puts, h.memory, h.disk, h.sealed,
    h.current, h.frozen, h.due⟩

/-- The flushed table is registered, so the tables cover what the frozen memtable did. -/
theorem Inv.flushDone (h : Inv key t s) {f : MemTable × Nat} (hf : s.flushing = some f)
    (hcov : ∀ w ∈ f.1.current key, w ∈ tableItems t.tables key) (tables : TableStore) :
    Inv key t { s with
      tables := tables, flushing := none, deletions := s.deletions ++ [f.2] } := by
  have hitems : s.layers.flushingItems key = f.1.current key := by
    simp [layers, Layers.flushingItems, hf]
  refine ⟨⟨h.issued.applied, h.issued.current, h.issued.segments⟩, h.puts, ?_, h.disk, h.sealed,
    h.current, by simp, fun n hn seg hseg hle x hx => ?_⟩
  · refine SameClocks.trans ?_ h.memory
    refine (SameClocks.refl _).append ⟨fun w hw => List.mem_append_right _ hw, fun w hw => ?_⟩
    rcases List.mem_append.mp hw with hw | hw
    · exact ⟨w, hcov w (hitems ▸ hw), le_rfl⟩
    · exact ⟨w, hw, le_rfl⟩
  · rcases List.mem_append.mp hn with hn | hn
    · exact h.due n hn seg hseg hle x hx
    · obtain rfl := List.mem_singleton.mp hn
      refine (h.frozen f hf seg hseg hle x hx).mono fun w hw => ?_
      exact (List.mem_append.mp hw).elim (hcov w) id

theorem Inv.flushFailed (h : Inv key t s) {f : MemTable × Nat} (hf : s.flushing = some f)
    (tables : TableStore) :
    Inv key t { s with
      tables := tables, active := s.active.putBackOlder f.1.snapshot, flushing := none } := by
  have hitems : s.layers.flushingItems key = f.1.current key := by
    simp [layers, Layers.flushingItems, hf]
  refine ⟨⟨h.issued.applied, h.issued.current, h.issued.segments⟩, h.puts, ?_, h.disk, h.sealed,
    h.current, by simp, h.due⟩
  refine SameClocks.trans ?_ h.memory
  rw [MemTable.current_putBackOlder, MemTable.itemsOf_snapshot, hitems, ← List.append_assoc]
  simpa [layers, Layers.flushingItems] using
    (sameClocks_mergeSiblings (s.active.current key) (f.1.current key)).append (SameClocks.refl _)

/-- Deleted segments hold only what the tables cover. -/
theorem Inv.deleteThrough (h : Inv key t s) {due seq : Nat} (hdue : s.deletions[due]? = some seq)
    (count : Nat) :
    Inv key t { s with
      sealed := s.sealed.drop ((s.sealed.takeWhile (·.seq ≤ seq)).take count).length
      deleted := s.deleted ++ (s.sealed.takeWhile (·.seq ≤ seq)).take count
      deletions := s.deletions.eraseIdx due } := by
  obtain ⟨doomed, rest, hd, hdrop, hrest, hdoomed⟩ := deleteThrough_split s.sealed seq count
  rw [hd]
  have hsub : ∀ seg ∈ rest, seg ∈ s.sealed := fun seg hseg => hrest.symm ▸ List.mem_append_right _ hseg
  refine ⟨⟨h.issued.applied, h.issued.current, fun seg hseg => ?_⟩, h.puts, h.memory, fun x hx => ?_,
    fun x hx => ?_, h.current, fun f hf seg hseg => ?_, fun n hn seg hseg => ?_⟩
  · refine h.issued.segments seg ?_
    simp only [hdrop, List.mem_append] at hseg ⊢
    rcases hseg with hseg | hseg | hseg
    · exact Or.inl (hsub seg hseg)
    · exact Or.inr hseg
    · exact Or.inl (hrest.symm ▸ List.mem_append_left _ hseg)
  · obtain ⟨w, hw, hle⟩ := h.disk x hx
    simp only [hdrop]
    rcases List.mem_append.mp hw with hw | hw
    · obtain ⟨seg, hseg, hw⟩ := mem_loggedPuts.mp hw
      rw [hrest] at hseg
      rcases List.mem_append.mp hseg with hd | hr
      · have hcov := h.due seq (List.mem_of_getElem? hdue) seg
          (hrest.symm ▸ List.mem_append_left _ hd) (hdoomed seg hd) w hw
        exact (hcov.of_le hle).mono fun v hv =>
          List.mem_append_right _ (List.mem_append_right _ hv)
      · exact ⟨w, List.mem_append_left _ (mem_loggedPuts.mpr ⟨seg, hr, hw⟩), hle⟩
    · exact ⟨w, List.mem_append_right _ hw, hle⟩
  · rw [hdrop] at hx
    obtain ⟨seg, hseg, hx⟩ := mem_loggedPuts.mp hx
    exact h.sealed x (mem_loggedPuts.mpr ⟨seg, hsub seg hseg, hx⟩)
  · exact h.frozen f hf seg (hsub seg (hdrop ▸ hseg))
  · exact h.due n (List.mem_of_mem_eraseIdx hn) seg (hsub seg (hdrop ▸ hseg))

/-- The records an Open replays : those of every segment file it finds. -/
theorem mem_openLog {disk : List Segment} {e : WalEntry} :
    e ∈ (openLog disk).1 ↔ ∃ seg ∈ disk, e ∈ seg.records := by
  simp only [openLog, List.mem_flatMap, mem_listSegments]

theorem mem_sealed_openLog {disk : List Segment} {e : WalEntry} :
    (∃ seg ∈ (openLog disk).2.1, e ∈ seg.records) ↔ e ∈ (openLog disk).1 := by
  rw [mem_openLog]
  simp only [openLog, List.mem_filter, mem_listSegments, decide_eq_true_eq]
  constructor
  · exact fun ⟨seg, hseg, he⟩ => ⟨seg, hseg.1, he⟩
  · exact fun ⟨seg, hseg, he⟩ => ⟨seg, ⟨hseg, List.ne_nil_of_mem he⟩, he⟩

theorem Inv.reopen (h : Inv key t s) {kept : Nat} {back : List Segment}
    (hback : ∀ seg ∈ back, seg ∈ s.deleted) (tables : TableStore) :
    Inv key { t with applied := t.applied ++ (openLog (s.disk kept back)).1 }
      (s.reopened kept back tables) := by
  have hentries : ∀ e ∈ (openLog (s.disk kept back)).1, e ∈ t.issued := by
    intro e he
    obtain ⟨seg, hseg, he⟩ := mem_openLog.mp he
    simp only [Engine.disk, List.mem_append, List.mem_singleton] at hseg
    have hold := h.issued.segments
    simp only [List.mem_append] at hold
    rcases hseg with (hseg | hseg) | rfl
    · exact hold seg (Or.inr (hback seg hseg)) e he
    · exact hold seg (Or.inl hseg) e he
    · exact h.issued.current e
        (List.mem_append.mpr ((List.mem_append.mp he).imp_right List.mem_of_mem_take))
  have hactive := sameClocks_apply (.new s.active.maxBytes)
    (fun e he => h.puts e (hentries e he))
  rw [MemTable.current_new, List.nil_append] at hactive
  -- what was fsynced to a segment on disk is replayed
  have hreplayed : ∀ x, x ∈ loggedPuts key s.sealed ∨ x ∈ putsOf key s.current.records →
      x ∈ putsOf key (openLog (s.disk kept back)).1 := by
    intro x hx
    refine mem_putsOf.mpr (mem_openLog.mpr ?_)
    rcases hx with hx | hx
    · obtain ⟨seg, hseg, hx⟩ := mem_loggedPuts.mp hx
      exact ⟨seg, by simp [Engine.disk, hseg], mem_putsOf.mp hx⟩
    · exact ⟨s.current.afterCrash kept, by simp [Engine.disk],
        List.mem_append_left _ (mem_putsOf.mp hx)⟩
  have hsealed : ∀ x, x ∈ loggedPuts key (openLog (s.disk kept back)).2.1 ↔
      x ∈ putsOf key (openLog (s.disk kept back)).1 := by
    intro x
    simp only [mem_loggedPuts, mem_putsOf, mem_sealed_openLog]
  refine ⟨⟨fun e he => (List.mem_append.mp he).elim (h.issued.applied e) (hentries e), by simp,
    fun seg hseg e he => ?_⟩, h.puts, ?_, fun x hx => ?_, fun x hx => ?_, by simp [putsOf],
    by simp, by simp⟩
  · rcases List.mem_append.mp hseg with hseg | hseg
    · exact hentries e (mem_sealed_openLog.mp ⟨seg, hseg, he⟩)
    · exact h.issued.segments seg (List.mem_append_right _ (List.mem_filter.mp hseg).1) e he
  · simp only [layers, Layers.flushingItems, Option.map_none, List.nil_append, putsOf_append]
    refine ⟨fun w hw => ?_, fun w hw => ?_⟩
    · rcases List.mem_append.mp hw with hw | hw
      · exact List.mem_append_right _ (hactive.mem w hw)
      · exact List.mem_append_left _ (h.memory.mem w
          (List.mem_append_right _ (List.mem_append_right _ hw)))
    · rw [covers_append]
      rcases List.mem_append.mp hw with hw | hw
      · obtain ⟨v, hv, hle⟩ := h.disk w hw
        simp only [List.mem_append, ← or_assoc] at hv
        rcases hv with hv | hv
        · exact Or.inl ((hactive.covers v (hreplayed v hv)).of_le hle)
        · exact Or.inr ⟨v, hv, hle⟩
      · exact Or.inl (hactive.covers w hw)
  · rw [putsOf_append] at hx
    rcases List.mem_append.mp hx with hx | hx
    · obtain ⟨v, hv, hle⟩ := h.disk x hx
      refine ⟨v, ?_, hle⟩
      simp only [List.mem_append, ← or_assoc] at hv ⊢
      rcases hv with hv | hv
      · exact Or.inl (Or.inl ((hsealed v).mpr (hreplayed v hv)))
      · exact Or.inr hv
    · exact ⟨x, List.mem_append_left _ ((hsealed x).mpr hx), le_rfl⟩
  · rw [putsOf_append]
    exact List.mem_append_right _ ((hsealed x).mp hx)

/-- The tables a table step registers : none, or the one the flush has written. -/
theorem recordFlush_cases (hist : List SSTable) {b : TableAct} {tables : TableStore}
    (hstep : s.tables.step fileSize b = some tables) :
    s.tables.recordFlush hist b = hist ∨
      ∃ sst, s.tables.flush = .written sst ∧ s.tables.recordFlush hist b = sst :: hist := by
  cases TableStore.step_sound hstep with
  | flushAdd sst written ok hf =>
    cases ok with
    | false => exact Or.inl rfl
    | true => exact Or.inr ⟨sst, hf, by simp [TableStore.recordFlush, hf]⟩
  | _ => exact Or.inl rfl

theorem Inv.table (h : Inv key t s) (hshape : Shape s) {b : TableAct} {tables : TableStore}
    (hstep : s.tables.step fileSize b = some tables) :
    Inv key { t with tables := s.tables.recordFlush t.tables b } { s with tables := tables } := by
  rcases recordFlush_cases t.tables hstep with hsame | ⟨sst, hsst, hcons⟩
  · rw [hsame]
    exact h.setTables tables
  · have hflush := hshape.flush
    rw [hsst] at hflush
    obtain ⟨f, hf, hentries⟩ := hflush
    rw [hcons]
    exact (h.register hf hentries).setTables tables

theorem inv_step (h : Inv key t s) (hshape : Shape s)
    (htables : TableStore.Run fileSize TableStore.AllOrNothing t.tables s.tables)
    (ha : PutsOnly key t s a) (hstep : Step fileSize s a s') : Inv key (record t s a) s' := by
  cases hstep with
  | log batch hidle =>
    refine h.log (fun e he => ?_) hidle
    simpa using List.any_eq_false.mp ha.2 e he
  | sync batch hw => exact h.sync hshape hw
  | walFail batch kept hw => exact h.walFail hshape hw kept
  | apply batch hw =>
    simp only [record, tableAct, hw]
    exact h.apply hshape hw
  | rotateFailed hw => exact h.setWriter (by simp [hw]) _
  | rotateCloseFailed hw | rotateOk hw =>
    exact (h.nextSegment hshape hw).setWriter (by simp [Engine.nextSegment, hw]) _
  | freeze sealedSeg hw => exact h.freeze hshape hw
  | flushStart frozen seq tables hf ht =>
    have hrecord : record t s .flushStart = { t with
        tables := s.tables.recordFlush t.tables (.flushStart frozen.snapshot) } := by
      simp [record, tableAct, hf]
    rw [hrecord]
    exact h.table hshape ht
  | table b tables hb ht => exact h.table hshape ht
  | flushDone sst frozen seq tables hp hf =>
    have hflush := hshape.flush
    rw [hp] at hflush
    obtain ⟨f, hf', hentries⟩ := hflush
    obtain rfl : (frozen, seq) = f := Option.some.inj (hf.symm.trans hf')
    -- the registered table is one of those readers are about to see
    have hvisible := (TableStore.sameClocks_of_run htables key).1
    refine h.flushDone hf (fun w hw => hvisible.mem w ?_) tables
    rw [TableStore.visibleTables, hp, FlushPhase.pending, List.singleton_append, tableItems_cons,
      hentries, MemTable.itemsOf_snapshot]
    exact List.mem_append_left _ hw
  | flushFailed entries frozen seq tables hp =>
    have hflush := hshape.flush
    rw [hp] at hflush
    obtain ⟨f, hf', rfl⟩ := hflush
    exact h.flushFailed hf' tables
  | deleteThrough due count seq hd => exact h.deleteThrough hd count
  | reopen kept back tables hb => exact h.reopen hb tables

theorem inv_of_run (h : Run fileSize maxBytes (PutsOnly key) t s) : Inv key t s := by
  induction h with
  | start => exact inv_create key maxBytes
  | step hrun ha hstep ih =>
    have htables := hrun.tables TableStore.AllOrNothing fun _ _ _ ha => ha.1
    exact inv_step ih (shape_of_run hrun) htables ha (step_sound hstep)

/-- Behind the frozen memtable, the tables readers see hold what the registered ones do. -/
theorem sameClocks_tables (hshape : Shape s)
    (htables : TableStore.Run fileSize TableStore.AllOrNothing t.tables s.tables) (key : String) :
    SameClocks (s.layers.flushingItems key ++ tableItems s.tables.sstables key)
      (s.layers.flushingItems key ++ tableItems t.tables key) := by
  have hvisible := (TableStore.sameClocks_of_run htables key).1
  refine ⟨fun w hw => ?_, fun w hw => ?_⟩
  · refine List.mem_append.mpr ((List.mem_append.mp hw).imp_right fun hw => hvisible.mem w ?_)
    rw [TableStore.visibleTables, tableItems_append]
    exact List.mem_append_right _ hw
  · rcases List.mem_append.mp hw with hw | hw
    · exact ⟨w, List.mem_append_left _ hw, le_rfl⟩
    · refine (hvisible.covers w hw).mono fun v hv => ?_
      rw [TableStore.visibleTables, tableItems_append] at hv
      refine List.mem_append.mpr ((List.mem_append.mp hv).imp_left fun hv => ?_)
      -- a table in between is the frozen memtable, which readers still see
      have hflush := hshape.flush
      cases hp : s.tables.flush with
      | registered =>
        rw [hp] at hflush hv
        obtain ⟨f, hf, hentries⟩ := hflush
        simpa [FlushPhase.pending, hentries, MemTable.itemsOf_snapshot, layers,
          Layers.flushingItems, Option.mem_def.mp hf] using hv
      | _ => simp [hp, FlushPhase.pending] at hv

/-- What readers see of the layers is what the memtables and the registered tables hold. -/
theorem sameClocks_items (hshape : Shape s)
    (htables : TableStore.Run fileSize TableStore.AllOrNothing t.tables s.tables) (key : String) :
    SameClocks (s.layers.items key)
      (s.active.current key ++ (s.layers.flushingItems key ++ tableItems t.tables key)) :=
  (SameClocks.refl _).append (sameClocks_tables hshape htables key)

/-- Every read gives the maximal versions of what was applied. -/
theorem maximaOf_of_run (h : Run fileSize maxBytes (PutsOnly key) t s) :
    MaximaOf (putsOf key t.applied) (s.layers.getAll key) := by
  have htables := h.tables TableStore.AllOrNothing fun _ _ _ ha => ha.1
  rw [Layers.getAll_eq]
  exact maximaOf_keepMax
    ((sameClocks_items (shape_of_run h) htables key).trans (inv_of_run h).memory)

theorem sameClocks_getAll (h : Run fileSize maxBytes (PutsOnly key) t s) :
    SameClocks (s.layers.getAll key) (putsOf key t.applied) := by
  have htables := h.tables TableStore.AllOrNothing fun _ _ _ ha => ha.1
  rw [Layers.getAll_eq]
  exact (SameClocks.keepMax _).trans
    ((sameClocks_items (shape_of_run h) htables key).trans (inv_of_run h).memory)

theorem applied_record (t : Trace) (s : Engine) (a : EngineAct) :
    t.applied <+: (record t s a).applied := by
  unfold record
  cases s.tableAct a <;> dsimp only <;> split <;>
    first | exact List.prefix_append _ _ | exact List.prefix_rfl

/-- No step, not even a crash with the Open after it, takes from what reads of a key cover
that is only put. -/
theorem covers_getAll_step (h : Run fileSize maxBytes (PutsOnly key) t s)
    (ha : PutsOnly key t s a) (hstep : s.step fileSize a = some s') {c : VectorClock}
    (hc : Covers vectorClock (s.layers.getAll key) c) :
    Covers vectorClock (s'.layers.getAll key) c := by
  obtain ⟨w, hw, hle⟩ := hc
  have hput := mem_putsOf.mp ((sameClocks_getAll h).mem w hw)
  have hput' := mem_putsOf.mpr ((applied_record t s a).subset hput)
  exact ((sameClocks_getAll (h.step ha hstep)).covers w hput').of_le hle

/-- A crash at any step can be reopened, whatever comes back. -/
theorem reopen_succeeds {allowed : Trace → Engine → EngineAct → Prop}
    (h : Run fileSize maxBytes allowed t s) (hall : ∀ t s a, allowed t s a → s.AllOrNothing a)
    (kept : Nat) {back : List Segment} (hback : ∀ seg ∈ back, seg ∈ s.deleted) :
    ∃ s', s.step fileSize (.reopen kept back) = some s' := by
  have htables := h.tables TableStore.AllOrNothing hall
  obtain ⟨-, tables, hload, -⟩ := TableStore.sameClocks_of_run htables ""
  simpa [step, TableStore.step, hload] using hback

/-- The engine refines a set of maximal versions and survives crashes. In every run that
only puts the key, a read gives the maximal versions of the Puts applied so far; and after a
crash at any step, with any part of an unfinished batch kept and any deleted segments back,
an Open succeeds, every Put applied before the crash, and so every version a read ever gave,
is returned or dominated, and only versions that a Put issued are returned. Earlier crashes
of the run keep nothing that was not fsynced : Open reads such records without fsyncing
them, and the next power loss may take them. -/
theorem puts_survive (hrun : Run fileSize maxBytes (PutsOnlyFsynced key) t s) :
    MaximaOf (putsOf key t.applied) (s.layers.getAll key) ∧
    ∀ kept back, (∀ seg ∈ back, seg ∈ s.deleted) →
      ∃ s', s.step fileSize (.reopen kept back) = some s' ∧
        (∀ x ∈ putsOf key t.applied, ∃ w ∈ s'.layers.getAll key,
          w.vectorClock.compare x.vectorClock = .equal ∨
            w.vectorClock.compare x.vectorClock = .after) ∧
        ∀ w ∈ s'.layers.getAll key, w ∈ putsOf key t.issued := by
  have h : Run fileSize maxBytes (PutsOnly key) t s := hrun.mono fun _ _ _ ha => ha.1
  refine ⟨maximaOf_of_run h, fun kept back hback => ?_⟩
  obtain ⟨s', hstep⟩ := reopen_succeeds h (fun _ _ _ ha => ha.1) kept hback
  have hreopen : PutsOnly key t s (.reopen kept back) :=
    ⟨by simp [AllOrNothing, tableAct, TableStore.AllOrNothing, TableStore.manifestCall], rfl⟩
  have h' := h.step hreopen hstep
  have hsame := sameClocks_getAll h'
  refine ⟨s', hstep, fun x hx => ?_, fun w hw => ?_⟩
  · have hx' : x ∈ putsOf key (record t s (.reopen kept back)).applied :=
      mem_putsOf.mpr ((applied_record t s _).subset (mem_putsOf.mp hx))
    obtain ⟨w, hw, hle⟩ := hsame.covers x hx'
    refine ⟨w, hw, ?_⟩
    by_cases hge : w.vectorClock ≤ x.vectorClock
    · exact Or.inl (VectorClock.compare_eq_equal.mpr ⟨hge, hle⟩)
    · exact Or.inr (VectorClock.compare_eq_after.mpr (lt_of_le_not_ge hle hge))
  · exact mem_putsOf.mpr ((inv_of_run h').issued.applied _ (mem_putsOf.mp (hsame.mem w hw)))

/-- A version written on top of nothing. -/
def firstVersion (value node : String) : DataItem :=
  ⟨value, .buildFromContext ∅ node, node, false⟩

/-- Log and apply a batch. -/
def commitActs (batch : List WalEntry) : List EngineAct :=
  [.log batch, .sync, .apply]

/-- Rotate, freeze, and flush the frozen memtable under the stamp `ts`. -/
def flushActs (ts : Nat) : List EngineAct :=
  [.rotate .ok, .freeze, .flushStart, .table (.flushWrite ts), .table (.flushAdd 1000 true),
    .flushFinish]

/-- A Put that is flushed, its segment deleted, a concurrent Put after it, and one that a
crash takes before its fsync. -/
def flushedPuts : List EngineAct :=
  commitActs [.put "k" (firstVersion "x" "A")] ++ flushActs (10 ^ 18) ++
    [.deleteThrough 0 1] ++ commitActs [.put "k" (firstVersion "y" "B")] ++
    [.rotate .failed, .log [.put "k" (firstVersion "z" "C")], .reopen 0 []]

/-- The first two are read, and read again after a crash that brings the segment back. -/
theorem puts_survive_flushed : ∃ (t : Trace) (s : Engine), s.deleted.length = 1 ∧
    (s.layers.getAll "k").length = 2 ∧
    MaximaOf (putsOf "k" t.applied) (s.layers.getAll "k") ∧
    ∃ s', s.step (fun _ => 0) (.reopen 0 s.deleted) = some s' ∧
      ∀ x ∈ putsOf "k" t.applied, ∃ w ∈ s'.layers.getAll "k",
        w.vectorClock.compare x.vectorClock = .equal ∨
          w.vectorClock.compare x.vectorClock = .after := by
  obtain ⟨r, hr, hdeleted, hread⟩ : ∃ r, runActs (fun _ => 0) (PutsOnlyFsynced "k") .empty (create 1)
      flushedPuts = some r ∧ r.2.deleted.length = 1 ∧ (r.2.layers.getAll "k").length = 2 := by
    refine ⟨_, rfl, ?_, ?_⟩ <;> decide +kernel
  have hrun : Run (fun _ => 0) 1 (PutsOnlyFsynced "k") r.1 r.2 := Run.start.runActs hr
  obtain ⟨hmax, hreopen⟩ := puts_survive hrun
  obtain ⟨s', hs', hcov, -⟩ := hreopen 0 r.2.deleted fun _ => id
  exact ⟨r.1, r.2, hdeleted, hread, hmax, s', hs', hcov⟩

end Engine

end DistributedKV
