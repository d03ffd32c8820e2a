import DistributedKV.WriteSafety
import DistributedKV.Wal

/-!
# Acknowledged and failed writes

What the write path promises : an acknowledged write never sits behind a torn one. Replay
returns the record of every acknowledged write whose segment is still there, in commit
order; after the first failed WAL write or fsync no Put or Restore changes a segment or a
memtable; and readers never see a version of a write whose batch failed
(`acked_writes_replayed`).

The first part needs entries whose payloads are below `2 ^ 32` bytes and read back.
`encoding/json` writes a value of any depth and reads no text that nests deeper than 10000
levels. A value that deep can still be received, but its record nests one level deeper : it
is written and acknowledged, and cuts off the replay (`nested_write_lost`).

For the third part, no step of the engine makes up versions : whatever holds of every
version in memory and of every version in a batch being applied goes on holding
(`AllOf.step`).
-/

open Framing Maxima

namespace DistributedKV

/-- Every version in the entries has `P`. -/
def EntriesOf (P : String → DataItem → Prop) (entries : List Entry) : Prop :=
  ∀ key, ∀ w ∈ itemsOf entries key, P key w

/-- Every version in the memtable has `P`. -/
def MemTableOf (P : String → DataItem → Prop) (m : MemTable) : Prop :=
  ∀ key, ∀ w ∈ m.current key, P key w

def FlushPhaseOf (P : String → DataItem → Prop) : FlushPhase → Prop
  | .idle => True
  | .started entries | .failed entries => EntriesOf P entries
  | .written sst | .registered sst => EntriesOf P sst.entries

def CompactPhaseOf (P : String → DataItem → Prop) : CompactPhase → Prop
  | .selected run => ∀ sst ∈ run, EntriesOf P sst.entries
  | .written _ merged | .added _ merged | .removed _ merged => EntriesOf P merged.entries
  | .idle | .unregistered _ | .swapped _ => True

/-- Every version the tables in memory hold has `P`. -/
structure TablesOf (P : String → DataItem → Prop) (s : TableStore) : Prop where
  sstables : ∀ sst ∈ s.sstables, EntriesOf P sst.entries
  flush : FlushPhaseOf P s.flush
  compact : CompactPhaseOf P s.compact

/-- Every version in memory has `P`. -/
structure AllOf (P : String → DataItem → Prop) (e : Engine) : Prop where
  active : MemTableOf P e.active
  flushing : ∀ f ∈ e.flushing, MemTableOf P f.1
  tables : TablesOf P e.tables

/-- The versions of the key that a record carries. -/
def WalEntry.versions (key : String) : WalEntry → List DataItem
  | .put k item => if k = key then [item] else []
  | .restore k items => if k = key then items else []

variable {P Q : String → DataItem → Prop} {fileSize : List Entry → Nat}

theorem entriesOf_snapshot {m : MemTable} (h : MemTableOf P m) : EntriesOf P m.snapshot := by
  intro key w hw
  rw [MemTable.itemsOf_snapshot] at hw
  exact h key w hw

theorem entriesOf_merge {run : List SSTable} (h : ∀ sst ∈ run, EntriesOf P sst.entries) :
    EntriesOf P (merge run) := by
  intro key w hw
  rw [itemsOf_merge] at hw
  obtain ⟨sst, hsst, hw⟩ := mem_tableItems.mp (mem_of_mem_keepMax hw)
  exact h sst hsst key w hw

theorem TablesOf.step {s s' : TableStore} {a : TableAct} (h : TablesOf P s)
    (hstep : s.step fileSize a = some s') (ha : a ≠ .reopen)
    (hstart : ∀ entries, a = .flushStart entries → EntriesOf P entries) : TablesOf P s' := by
  have hflush := h.flush
  have hcompact := h.compact
  cases TableStore.step_sound hstep with
  | flushStart entries => exact ⟨h.sstables, hstart entries rfl, hcompact⟩
  | flushWrite entries ts hf | flushWriteFail entries ts left hf =>
    exact ⟨h.sstables, by rwa [hf] at hflush, hcompact⟩
  | flushAdd sst written ok hf =>
    rw [hf] at hflush
    cases ok <;> exact ⟨h.sstables, hflush, hcompact⟩
  | flushDone sst hf =>
    rw [hf] at hflush
    exact ⟨List.forall_mem_cons.mpr ⟨hflush, h.sstables⟩, trivial, hcompact⟩
  | flushPutBack => exact ⟨h.sstables, trivial, hcompact⟩
  | compactSelect newest rest hc hrun =>
    refine ⟨h.sstables, hflush, fun sst hsst => h.sstables sst ?_⟩
    rcases selectTierForCompaction_infix s.sstables with hnil | ⟨hoccurs, -⟩
    · simp [hnil] at hrun
    · exact hoccurs.subset (hrun ▸ hsst)
  | compactWrite newest rest hc =>
    rw [hc] at hcompact
    exact ⟨h.sstables, hflush, entriesOf_merge hcompact⟩
  | compactAdd run merged written ok hc | compactRemove run merged written ok hc =>
    rw [hc] at hcompact
    cases ok
    · exact ⟨h.sstables, hflush, trivial⟩
    · exact ⟨h.sstables, hflush, hcompact⟩
  | compactSwap run merged swapped hc hswap =>
    rw [hc] at hcompact
    obtain ⟨front, back, hsplit, rfl⟩ := replaceRun_eq_some hswap
    refine ⟨fun sst hsst => ?_, hflush, trivial⟩
    rcases List.mem_append.mp hsst with hsst | hsst
    · exact h.sstables sst (by rw [hsplit]; simp [hsst])
    · rcases List.mem_cons.mp hsst with rfl | hsst
      · exact hcompact
      · exact h.sstables sst (by rw [hsplit]; simp [hsst])
  | reopen => exact absurd rfl ha
  | _ => exact ⟨h.sstables, hflush, trivial⟩

theorem MemTableOf.apply {m : MemTable} (h : MemTableOf P m) {e : WalEntry}
    (he : ∀ key, ∀ w ∈ e.versions key, P key w) : MemTableOf P (m.apply e) := by
  intro key w hw
  cases e with
  | put =>
    rcases MemTable.mem_current_put hw with hw | ⟨rfl, rfl⟩
    · exact h key w hw
    · exact he key w (by simp [WalEntry.versions])
  | restore =>
    rw [MemTable.apply, MemTable.current_replace] at hw
    split at hw
    · next hk => exact he key w (by simpa [WalEntry.versions, hk] using hw)
    · exact h key w hw

theorem MemTableOf.foldl_apply : ∀ {batch : List WalEntry} {m : MemTable}, MemTableOf P m →
    (∀ e ∈ batch, ∀ key, ∀ w ∈ e.versions key, P key w) →
    MemTableOf P (batch.foldl MemTable.apply m)
  | [], _, h, _ => h
  | e :: batch, m, h, hbatch => by
    rw [List.forall_mem_cons] at hbatch
    exact (h.apply hbatch.1).foldl_apply hbatch.2

theorem memTableOf_new (maxBytes : Int) : MemTableOf P (.new maxBytes) := by
  intro key w hw
  simp at hw

/-- No step makes up versions. -/
theorem AllOf.step {e e' : Engine} {b : EngineAct} (h : AllOf P e)
    (happly : b = .apply → ∀ entry ∈ WritePath.inFlight e, ∀ key, ∀ w ∈ entry.versions key, P key w)
    (hb : ∀ kept back, b ≠ .reopen kept back) (hstep : Engine.Step fileSize e b e') : AllOf P e' := by
  cases hstep with
  | apply batch hw =>
    refine ⟨?_, h.flushing, h.tables⟩
    rw [Engine.applyBatch_layers]
    exact h.active.foldl_apply (by simpa [WritePath.inFlight, hw] using happly rfl)
  | freeze seq =>
    refine ⟨memTableOf_new _, fun f hf => ?_, h.tables⟩
    obtain rfl : (e.active, seq) = f := by simpa using hf
    exact h.active
  | flushStart frozen seq t hf ht =>
    refine ⟨h.active, h.flushing, h.tables.step ht (by simp) fun entries heq => ?_⟩
    obtain rfl := TableAct.flushStart.inj heq
    exact entriesOf_snapshot (h.flushing _ hf)
  | table a t ha ht =>
    refine ⟨h.active, h.flushing, h.tables.step ht ?_ fun entries heq => ?_⟩
    · rintro rfl
      cases ha
    · subst heq
      cases ha
  | flushDone sst frozen seq t hp hf ht =>
    exact ⟨h.active, by simp, h.tables.step ht (by simp) (by simp)⟩
  | flushFailed entries frozen seq t hp hf ht =>
    have hflush := h.tables.flush
    rw [hp] at hflush
    refine ⟨fun key w hw => ?_, by simp, h.tables.step ht (by simp) (by simp)⟩
    rw [MemTable.current_putBackOlder] at hw
    exact (mem_of_mem_mergeSiblings hw).elim (h.active key w) (hflush key w)
  | reopen kept back => exact absurd rfl (hb kept back)
  | _ => exact ⟨h.active, h.flushing, h.tables⟩

theorem EntriesOf.mono {entries : List Entry} (h : EntriesOf P entries)
    (himp : ∀ key w, P key w → Q key w) : EntriesOf Q entries :=
  fun key w hw => himp key w (h key w hw)

theorem AllOf.mono {e : Engine} (h : AllOf P e) (himp : ∀ key w, P key w → Q key w) :
    AllOf Q e where
  active := fun key w hw => himp key w (h.active key w hw)
  flushing := fun f hf key w hw => himp key w (h.flushing f hf key w hw)
  tables := by
    obtain ⟨hsst, hflush, hcompact⟩ := h.tables
    refine ⟨fun sst hs => (hsst sst hs).mono himp, ?_, ?_⟩
    · cases hf : e.tables.flush <;> rw [hf] at hflush <;>
        first | trivial | exact EntriesOf.mono hflush himp
    · cases hc : e.tables.compact <;> rw [hc] at hcompact <;>
        first | trivial | exact fun sst hs => (hcompact sst hs).mono himp |
          exact EntriesOf.mono hcompact himp

/-- Readers see nothing else. -/
theorem AllOf.getAll {e : Engine} (h : AllOf P e) (key : String) :
    ∀ w ∈ e.layers.getAll key, P key w := by
  intro w hw
  have hw := Layers.mem_items_of_mem_getAll hw
  simp only [Layers.items, List.mem_append] at hw
  rcases hw with hw | hw | hw
  · exact h.active key w hw
  · cases hf : e.flushing with
    | none => simp [Engine.layers, Layers.flushingItems, hf] at hw
    | some f => exact h.flushing f hf key w (by simpa [Engine.layers, Layers.flushingItems, hf] using hw)
  · obtain ⟨sst, hsst, hw⟩ := mem_tableItems.mp hw
    exact h.tables.sstables sst hsst key w hw

namespace WritePath

variable {c : Codec WalEntry} {maxBytes : Int} {s s' : WritePath} {a : WriteAct}

/-- The write was applied. -/
def Committed (s : WritePath) (r : Request) : Prop :=
  (r, .ok) ∈ s.decided ∨ (r, .incomplete) ∈ s.decided

/-- The version was there at the last Open, or comes from a write applied since. -/
def Known (s : WritePath) (key : String) (w : DataItem) : Prop :=
  w ∈ s.base key ∨ ∃ r, s.Committed r ∧ w ∈ r.entry.versions key

/-- What holds in every state of a run whose entries fit. -/
structure Inv (c : Codec WalEntry) (fileSize : List Entry → Nat) (maxBytes : Int) (s : WritePath) :
    Prop where
  engine : ∃ t, Engine.Run fileSize maxBytes (fun _ _ _ => True) t s.engine
  numbered : Numbered s.engine
  files : Files c s
  carried : CarriesNothing s
  acked : Acked s.acked s.engine
  ids : (s.requests.map Request.id).Nodup
  ids_lt : ∀ r ∈ s.requests, r.id < s.nextID
  decided : ∀ r, (r, .ok) ∈ s.decided → ∃ seq, (seq, r.entry) ∈ s.acked
  known : AllOf s.Known s.engine

theorem Inv.shape (h : Inv c fileSize maxBytes s) : Engine.Shape s.engine :=
  h.engine.elim fun _ hrun => Engine.shape_of_run hrun

theorem inv_create (c : Codec WalEntry) (fileSize : List Entry → Nat) (maxBytes : Int)
    (groupCommit : Bool) : Inv c fileSize maxBytes (create maxBytes groupCommit) where
  engine := ⟨_, .start⟩
  numbered := ⟨by simp [create, Engine.create], by simp [create, Engine.create]⟩
  files := ⟨rfl, rfl, by simp [create, Engine.create],
    holds_of_whole rfl rfl rfl (by simp [create, Engine.create]), fun _ => rfl,
    by simp [create, requests, batchOf, undecided], by simp [create, Engine.create]⟩
  carried := nofun
  acked := ⟨List.Pairwise.nil, by simp [create], by simp [create, Engine.create], [], rfl, by
    simp [create, ackedIn]⟩
  ids := by simp [create, requests, batchOf, undecided]
  ids_lt := by simp [create, requests, batchOf, undecided]
  decided := by simp [create]
  known := ⟨memTableOf_new _, by simp [create, Engine.create],
    ⟨by simp [create, Engine.create, TableStore.create], trivial, trivial⟩⟩

/-- Outcomes are only added until the next Open. -/
theorem decided_step (hstep : Step c fileSize s a s') (ha : ∀ g k back, a ≠ .reopen g k back) :
    s.decided <+: s'.decided ∧ s'.base = s.base := by
  cases hstep with
  | reopen g k back => exact absurd rfl (ha g k back)
  | _ => first | exact ⟨List.prefix_append _ _, rfl⟩ | exact ⟨List.prefix_rfl, rfl⟩

theorem Known.mono (hdecided : s.decided <+: s'.decided) (hbase : s'.base = s.base) {key : String}
    {w : DataItem} (h : s.Known key w) : s'.Known key w := by
  rcases h with h | ⟨r, hr, hw⟩
  · exact Or.inl (hbase ▸ h)
  · exact Or.inr ⟨r, hr.imp (hdecided.subset ·) (hdecided.subset ·), hw⟩

/-- Everything in memory after an Open is part of what it found. -/
theorem known_opened {e : Engine} (hflushing : e.flushing = none) (hflush : e.tables.flush = .idle)
    (hcompact : e.tables.compact = .idle) (hbase : s.base = e.layers.items) :
    AllOf s.Known e where
  active := fun key w hw => Or.inl (by
    rw [hbase]
    exact List.mem_append_left _ hw)
  flushing := by simp [hflushing]
  tables := ⟨fun sst hsst key w hw => Or.inl (by
    rw [hbase]
    exact List.mem_append_right _ (List.mem_append_right _ (mem_tableItems.mpr ⟨sst, hsst, hw⟩))),
    by rw [hflush]; trivial, by rw [hcompact]; trivial⟩

/-- A batch that is applied has its outcomes. -/
theorem committed_of_mem_zip {batch : List Request} {oks : List Bool} {r : Request}
    (hlen : batch.length ≤ oks.length) (hr : r ∈ batch)
    (hdecided : ∀ p ∈ batch.zip (oks.map verdict), p ∈ s.decided) : s.Committed r := by
  obtain ⟨i, hi, rfl⟩ := List.mem_iff_getElem.mp hr
  have hmem : (batch[i], verdict oks[i]) ∈ batch.zip (oks.map verdict) :=
    List.mem_iff_getElem.mpr ⟨i, by simp; omega, by simp⟩
  have hmem := hdecided _ hmem
  unfold verdict at hmem
  split at hmem
  · exact Or.inl hmem
  · exact Or.inr hmem

theorem decided_of_step (h : ∀ r, (r, .ok) ∈ s.decided → ∃ seq, (seq, r.entry) ∈ s.acked)
    (hstep : Step c fileSize s a s') :
    ∀ r, (r, .ok) ∈ s'.decided → ∃ seq, (seq, r.entry) ∈ s'.acked := by
  intro r hr
  cases hstep with
  | apply =>
    rcases List.mem_append.mp hr with hr | hr
    · obtain ⟨seq, hseq⟩ := h r hr
      exact ⟨seq, List.mem_append_left _ hseq⟩
    · rw [List.zip_map_right] at hr
      obtain ⟨⟨r', ok⟩, hmem, heq⟩ := List.mem_map.mp hr
      obtain ⟨rfl, hok⟩ : r' = r ∧ verdict ok = .ok := by simpa using heq
      have hok : ok = true := by
        cases ok
        · cases hok
        · rfl
      subst hok
      refine ⟨_, List.mem_append_right _ (List.mem_map.mpr ⟨_, List.mem_filter.mpr ⟨hmem, rfl⟩, rfl⟩)⟩
  | reopen => simp at hr
  | submitHalted | enqueueClosed | lockClosed | writeHalted | walFail =>
    rcases List.mem_append.mp hr with hr | hr
    · exact h r hr
    · simp at hr
  | _ => exact h r hr

theorem known_step (h : Inv c fileSize maxBytes s) (hstep : Step c fileSize s a s') :
    AllOf s'.Known s'.engine := by
  by_cases hreopen : ∃ g k back, a = .reopen g k back
  · obtain ⟨g, k, back, rfl⟩ := hreopen
    cases hstep with
    | reopen _ _ _ found t hfound ht =>
      refine known_opened rfl (Engine.flush_idle_of_reopen ht) ?_ rfl
      cases TableStore.step_sound ht
      rfl
  · have hnot : ∀ g k back, a ≠ .reopen g k back := fun g k back heq => hreopen ⟨g, k, back, heq⟩
    obtain ⟨hdecided, hbase⟩ := decided_step hstep hnot
    have hknown := h.known.mono fun key w => Known.mono hdecided hbase
    rcases engine_step h.files h.shape h.numbered hstep with ⟨heq, -⟩ | ⟨b, hb, -, happly, hre⟩
    · exact heq ▸ hknown
    · refine hknown.step (fun heq entry hentry key w hw => ?_)
        (fun kept back heq => hreopen (hre kept back heq)) (Engine.step_sound hb)
      obtain rfl := happly heq
      cases hstep with
      | apply batch e hrun he =>
        -- the batch in flight is the one that now has its outcomes
        obtain ⟨entries, hw'⟩ : ∃ entries, s.engine.writer = .logged entries := by
          cases Engine.step_sound he with
          | apply entries hw => exact ⟨entries, hw⟩
        obtain ⟨batch', hrun', rfl⟩ := h.files.commit entries (Or.inr hw')
        obtain rfl : batch = batch' := CommitPhase.running.inj (hrun.symm.trans hrun')
        simp only [inFlight, hw'] at hentry
        obtain ⟨r, hr, rfl⟩ := List.mem_map.mp hentry
        refine Or.inr ⟨r, committed_of_mem_zip ?_ hr fun p hp => List.mem_append_right _ hp, hw⟩
        simp [length_applyBatch]

theorem inv_step (h : Inv c fileSize maxBytes s) (ha : FittingEntries c s a)
    (hstep : Step c fileSize s a s') : Inv c fileSize maxBytes s' := by
  obtain ⟨t, hrun⟩ := h.engine
  have hids : (s'.requests.map Request.id).Nodup ∧ ∀ r ∈ s'.requests, r.id < s'.nextID := by
    by_cases hreopen : ∃ g k back, a = .reopen g k back
    · obtain ⟨g, k, back, rfl⟩ := hreopen
      cases hstep
      simp [requests, batchOf, undecided]
    · rcases requests_step h.carried hstep fun g k back heq => hreopen ⟨g, k, back, heq⟩ with
        ⟨heq, hnext⟩ | ⟨entry, rfl, heq, hnext⟩
      · rw [heq, hnext]
        exact ⟨h.ids, h.ids_lt⟩
      · rw [heq, hnext, Multiset.map_cons, Multiset.nodup_cons]
        refine ⟨⟨fun hmem => ?_, h.ids⟩, fun r hr => ?_⟩
        · obtain ⟨r, hr, hid⟩ := Multiset.mem_map.mp hmem
          exact (h.ids_lt r hr).ne hid
        · rcases Multiset.mem_cons.mp hr with rfl | hr
          · exact Nat.lt_succ_self _
          · exact (h.ids_lt r hr).trans (Nat.lt_succ_self _)
  refine ⟨?_, ?_, files_step h.files h.shape h.numbered h.carried ha hstep,
    carriesNothing_step h.carried hstep, acked_of_step h.acked h.files h.shape h.numbered hstep,
    hids.1, hids.2, decided_of_step h.decided hstep, known_step h hstep⟩
  all_goals rcases engine_step h.files h.shape h.numbered hstep with ⟨heq, -⟩ | ⟨b, hb, hnumbers, -⟩
  · exact ⟨t, heq ▸ hrun⟩
  · exact ⟨_, hrun.step trivial hb⟩
  · exact heq ▸ h.numbered
  · exact numbered_step h.numbered hnumbers (Engine.step_sound hb)

theorem inv_of_run (h : Run c fileSize maxBytes (FittingEntries c) s) : Inv c fileSize maxBytes s := by
  induction h with
  | start groupCommit => exact inv_create c fileSize maxBytes groupCommit
  | step hrun ha hstep ih => exact inv_step ih ha (step_sound hstep)

/-! ## The three promises -/

theorem acked_replayed (h : Inv c fileSize maxBytes s) (kept : Nat) (back : List Nat) :
    ∃ found, openFiles c (s.disk kept back) = some found ∧
      ((s.acked.filter (·.1 ∈ (s.sealed ++ [s.current]).map WalFile.seq)).map Prod.snd).Sublist
        (found.flatMap Prod.snd) := by
  obtain ⟨k, hfound, -⟩ := h.files.open_eq h.numbered kept back
  refine ⟨_, hfound, ?_⟩
  rw [List.flatMap_map]
  generalize hD : s.engine.disk k (s.engine.deleted.filter (·.seq ∈ back)) = D
  have hmem : ∀ seg ∈ listSegments D, seg ∈ s.engine.sealed ++ s.engine.deleted ∨
      seg = s.engine.current.afterCrash k := by
    intro seg hseg
    have hseg := Engine.mem_listSegments.mp hseg
    simp only [← hD, Engine.disk, List.mem_append, List.mem_filter, List.mem_singleton] at hseg ⊢
    tauto
  have hnodup : ((listSegments D).map Segment.seq).Nodup := by
    refine (((listSegments_perm D).map Segment.seq).nodup_iff).mpr ?_
    have hnodup := numbered_disk h.numbered k back
    rw [hD, List.map_append] at hnodup
    exact (List.nodup_append.mp hnodup).1
  have hsorted : ((listSegments D).map Segment.seq).Pairwise (· < ·) := by
    have hle : ((listSegments D).map Segment.seq).Pairwise (· ≤ ·) :=
      List.pairwise_map.mpr (List.pairwise_insertionSort _ D)
    exact (hle.and hnodup).imp fun hlt => lt_of_le_of_ne hlt.1 hlt.2
  have hsub := acked_sublist_flatMap h.acked.sorted hsorted fun seg hseg => by
    rcases hmem seg hseg with hseg | rfl
    · exact h.acked.old seg hseg
    · exact h.acked.current_records.trans (List.sublist_append_left _ _)
  refine List.Sublist.trans (List.Sublist.map _ (List.monotone_filter_right _ fun p hp => ?_)) hsub
  -- a segment on disk is among those found
  have hp : p.1 ∈ (s.sealed ++ [s.current]).map WalFile.seq := by simpa using hp
  have hseqs : (s.sealed ++ [s.current]).map WalFile.seq =
      (s.engine.sealed ++ [s.engine.current.afterCrash k]).map Segment.seq := by
    simp [h.files.sealed, h.files.current.seq, fileOf, Segment.afterCrash, Function.comp_def]
  rw [hseqs] at hp
  obtain ⟨seg, hseg, heq⟩ := List.mem_map.mp hp
  refine decide_eq_true (List.mem_map.mpr ⟨seg, Engine.mem_listSegments.mpr ?_, heq⟩)
  rw [← hD, Engine.disk, List.append_assoc]
  exact List.mem_append_right _ hseg

/-- The steps taken for Puts and Restores, from a writer's first check to the answer. -/
def writes : WriteAct → Bool
  | .background _ | .deleteThrough _ _ | .close | .reopen _ _ _ => false
  | _ => true

/-- The files and memtables are the same. -/
structure Untouched (s s' : WritePath) : Prop where
  sealed : s'.sealed = s.sealed
  current : s'.current = s.current
  deleted : s'.deleted = s.deleted
  active : s'.engine.active = s.engine.active
  flushing : s'.engine.flushing = s.engine.flushing

/-- Once halted, always halted until an Open, and no write touches a thing. -/
theorem untouched_of_halted (hshape : Engine.Shape s.engine) (hhalted : s.engine.halted = true)
    (ha : ∀ g k back, a ≠ .reopen g k back) (hstep : Step c fileSize s a s') :
    s'.engine.halted = true ∧ (writes a = true → Untouched s s') := by
  have hdid := hshape.writer
  have hengine : ∀ {b : EngineAct} {e : Engine}, s.engine.step fileSize b = some e →
      (∀ kept back, b ≠ .reopen kept back) →
      e.halted = true ∧ (b.background = true ∨ ∃ due count, b = .deleteThrough due count) := by
    intro b e he hb
    cases Engine.step_sound he with
    | log batch hidle hhalt => simp [hhalted] at hhalt
    | sync batch hw | walFail batch kept hw | apply batch hw | rotateFailed hw
    | rotateCloseFailed hw | rotateOk hw | freeze seq hw =>
      simp [Engine.WriterDid, hw, hhalted] at hdid
    | flushStart | table | flushDone | flushFailed => exact ⟨hhalted, Or.inl rfl⟩
    | deleteThrough due count => exact ⟨hhalted, Or.inr ⟨due, count, rfl⟩⟩
    | reopen kept back => exact absurd rfl (hb kept back)
  cases hstep with
  | write batch e hrun hh => simp [hhalted] at hh
  | fsync e he | freeze e he | rotateFailed e he
  | walFail batch written e hrun he | apply batch e hrun he | rotate outcome e ho he =>
    obtain ⟨-, hb | ⟨due, count, hb⟩⟩ := hengine he (by simp) <;> cases hb
  | background b e hb he =>
    refine ⟨(hengine he fun kept back heq => ?_).1, by simp [writes]⟩
    subst heq
    cases hb
  | deleteThrough due count seq e hseq he => exact ⟨(hengine he (by simp)).1, by simp [writes]⟩
  | reopen g k back => exact absurd rfl (ha g k back)
  | _ => exact ⟨hhalted, fun _ => ⟨rfl, rfl, rfl, rfl, rfl⟩⟩

theorem halted_of_walFail {written : Nat} (hstep : Step c fileSize s (.walFail written) s') :
    s'.engine.halted = true := by
  cases hstep with
  | walFail batch _ e hrun he =>
    cases Engine.step_sound he
    rfl

/-- An acknowledged write never sits behind a torn one, if every entry fits. After every run
of concurrent Puts and Restores, with or without group commit, with any failing writes and
fsyncs, crashes and Opens : replay after a further crash returns the record of every
acknowledged write whose segment is on disk, in commit order; a failed WAL write or fsync
halts writes, and from then on no Put or Restore changes a segment or a memtable; and
readers see only versions found at the last Open or written by requests that were applied
since, none of which failed. -/
theorem acked_writes_replayed (h : Run c fileSize maxBytes (FittingEntries c) s) :
    ((∀ r, (r, .ok) ∈ s.decided → ∃ seq, (seq, r.entry) ∈ s.acked) ∧
      ∀ kept back, ∃ found, openFiles c (s.disk kept back) = some found ∧
        ((s.acked.filter (·.1 ∈ (s.sealed ++ [s.current]).map WalFile.seq)).map Prod.snd).Sublist
          (found.flatMap Prod.snd)) ∧
    ((∀ written s', s.step c fileSize (.walFail written) = some s' → s'.engine.halted = true) ∧
      (s.engine.halted = true → ∀ a s', (∀ g k back, a ≠ .reopen g k back) →
        s.step c fileSize a = some s' →
          s'.engine.halted = true ∧ (writes a = true → Untouched s s'))) ∧
    (∀ key, ∀ w ∈ s.engine.layers.getAll key, s.Known key w) ∧
    ∀ r o, (r, o) ∈ s.decided → o ≠ .ok → o ≠ .incomplete → ¬s.Committed r := by
  have hinv := inv_of_run h
  refine ⟨⟨hinv.decided, acked_replayed hinv⟩, ⟨fun written s' hstep => ?_, fun hh a s' ha hstep => ?_⟩,
    hinv.known.getAll, fun r o ho hok hinc hcom => ?_⟩
  · exact halted_of_walFail (step_sound hstep)
  · exact untouched_of_halted hinv.shape hh ha (step_sound hstep)
  · rcases hcom with hcom | hcom
    · exact hok (outcome_unique hinv.ids ho hcom)
    · exact hinc (outcome_unique hinv.ids ho hcom)

/-- Two writers in one batch, whose records are fsynced; a third whose write fails after
three bytes; an Open after a crash that keeps two of them; and a writer without group
commit. -/
def threePutActs : List WriteAct :=
  [.submit onePut, .submit oneRestore, .enqueue 0, .enqueue 0, .receive, .fill, .fillEnd,
    .lockBatch, .write, .fsync, .apply, .signal, .submit otherPut, .enqueue 0, .receive, .fillEnd,
    .lockBatch, .write, .walFail 3, .signal, .reopen false 2 [], .submit otherPut, .lock 0, .write,
    .fsync, .apply, .signal]

/-- The records of the batch and the one written after the Open are replayed after any
crash. -/
theorem acked_writes_replayed_threePuts : ∃ s : WritePath,
    Run sampleCodec (fun _ => 0) 1000 (FittingEntries sampleCodec) s ∧
    s.acked = [(1, onePut), (1, oneRestore), (2, otherPut)] ∧
    ∀ kept back, ∃ found, openFiles sampleCodec (s.disk kept back) = some found ∧
      [onePut, oneRestore, otherPut].Sublist (found.flatMap Prod.snd) := by
  have hfits : ∀ s, ∀ a ∈ threePutActs, FittingEntries sampleCodec s a := by
    rintro s a ha entry rfl
    refine fits_sampleCodec entry ?_
    simp only [threePutActs, List.mem_cons, WriteAct.submit.injEq, reduceCtorEq, List.not_mem_nil,
      or_false, false_or] at ha ⊢
    tauto
  let last := threePutActs.foldlM (fun s a => s.step sampleCodec (fun _ => 0) a) (create 1000 true)
  have hend : ∃ s ∈ last, s.acked = [(1, onePut), (1, oneRestore), (2, otherPut)] ∧
      (s.sealed ++ [s.current]).map WalFile.seq = [1, 2] := by
    decide +kernel
  obtain ⟨s, hlast, hacked, hfiles⟩ := hend
  have hrun := Run.acts (.start true) hfits hlast
  refine ⟨s, hrun, hacked, fun kept back => ?_⟩
  obtain ⟨found, hfound, hsub⟩ := (acked_writes_replayed hrun).1.2 kept back
  rw [hacked, hfiles] at hsub
  exact ⟨found, hfound, hsub⟩

/-! ## A payload that does not read back -/

/-- Where a reader of JSON stands. -/
structure Nesting where
  level : Nat
  deepest : Nat
  inString : Bool
  escaped : Bool

def Nesting.next (n : Nesting) (b : UInt8) : Nesting :=
  if n.escaped then { n with escaped := false }
  else if n.inString then
    if b = '\\'.toUInt8 then { n with escaped := true } else { n with inString := b ≠ '"'.toUInt8 }
  else if b = '"'.toUInt8 then { n with inString := true }
  else if b = '['.toUInt8 ∨ b = '{'.toUInt8 then
    { n with level := n.level + 1, deepest := max n.deepest (n.level + 1) }
  else if b = ']'.toUInt8 ∨ b = '}'.toUInt8 then { n with level := n.level - 1 }
  else n

/-- How many arrays and objects of a JSON text are open at once. -/
def nesting (text : List UInt8) : Nat :=
  (text.foldl Nesting.next ⟨0, 0, false, false⟩).deepest

/-- `encoding/json` reads no text that nests deeper. It writes them. -/
def maxNestingDepth : Nat := 10000

/-- An array in an array, and so on. -/
def nestedArrays (levels : Nat) : String :=
  String.ofList (List.replicate levels '[' ++ List.replicate levels ']')

/-- A version whose value nests so deep. -/
def deepItem (levels : Nat) : DataItem :=
  ⟨nestedArrays levels, .buildFromContext ∅ "A", "A", false⟩

def deepPut (levels : Nat) : WalEntry :=
  .put "deep" (deepItem levels)

theorem foldl_next_open : ∀ (n level deepest : Nat), level ≤ deepest →
    (List.replicate n '['.toUInt8).foldl Nesting.next ⟨level, deepest, false, false⟩ =
      ⟨level + n, max deepest (level + n), false, false⟩
  | 0, level, deepest, h => by simp [h]
  | n + 1, level, deepest, h => by
    have hnext : Nesting.next ⟨level, deepest, false, false⟩ '['.toUInt8 =
        ⟨level + 1, max deepest (level + 1), false, false⟩ := rfl
    rw [List.replicate_succ, List.foldl_cons, hnext,
      foldl_next_open n _ _ (Nat.le_max_right _ _), Nat.max_assoc,
      Nat.max_eq_right (a := level + 1) (by omega), Nat.add_right_comm, Nat.add_assoc]

theorem foldl_next_close : ∀ (n level deepest : Nat),
    (List.replicate n ']'.toUInt8).foldl Nesting.next ⟨level, deepest, false, false⟩ =
      ⟨level - n, deepest, false, false⟩
  | 0, _, _ => rfl
  | n + 1, level, deepest => by
    have hnext : Nesting.next ⟨level, deepest, false, false⟩ ']'.toUInt8 =
        ⟨level - 1, deepest, false, false⟩ := rfl
    rw [List.replicate_succ, List.foldl_cons, hnext, foldl_next_close n, Nat.sub_sub,
      Nat.add_comm 1]

theorem foldl_next_blank : ∀ (n : Nat) (s : Nesting), s.inString = false → s.escaped = false →
    (List.replicate n ' '.toUInt8).foldl Nesting.next s = s
  | 0, _, _, _ => rfl
  | n + 1, s, hstring, hescaped => by
    have hnext : s.next ' '.toUInt8 = s := by
      rw [Nesting.next, hescaped, hstring]
      rfl
    rw [List.replicate_succ, List.foldl_cons, hnext, foldl_next_blank n s hstring hescaped]

/-- An object around a value is one level more. -/
theorem nesting_object (levels blanks : Nat) :
    nesting ('{'.toUInt8 :: ((nestedArrays levels).toList.map Char.toUInt8 ++
      '}'.toUInt8 :: List.replicate blanks ' '.toUInt8)) = levels + 1 := by
  have hopen : Nesting.next ⟨0, 0, false, false⟩ '{'.toUInt8 = ⟨1, 1, false, false⟩ := rfl
  have hclose : Nesting.next ⟨1, levels + 1, false, false⟩ '}'.toUInt8 =
      ⟨0, levels + 1, false, false⟩ := rfl
  have hmax : max 1 (1 + levels) = levels + 1 := by omega
  rw [nesting, List.foldl_cons, hopen, nestedArrays, String.toList_ofList, List.map_append,
    List.map_replicate, List.map_replicate, List.foldl_append, List.foldl_append,
    foldl_next_open _ _ _ le_rfl, foldl_next_close, List.foldl_cons, Nat.add_sub_cancel, hmax,
    hclose, foldl_next_blank _ _ rfl rfl]

/-- Texts that nest one level deeper than the value, for the object around it. Those that
nest no deeper than `limit` read back, deeper ones are refused. -/
theorem exists_codec_limited (limit : Nat) : ∃ c : Codec WalEntry,
    (∀ e, nesting (c.marshal e) ≤ limit → c.unmarshal (c.marshal e) = .record e) ∧
    (∀ payload, limit < nesting payload → c.unmarshal payload = .malformed) ∧
    nesting (c.marshal (deepPut limit)) = limit + 1 ∧
    (c.marshal (deepPut limit)).length = 2 * limit + 2 ∧ (c.marshal onePut).length ≤ 4 := by
  classical
  have := countable_walEntry
  obtain ⟨f, hf⟩ := exists_injective_nat WalEntry
  -- the blanks at the end tell entries with the same value apart
  let blanks : WalEntry → Nat := fun e =>
    if e = deepPut limit then 0 else if e = onePut then 1 else f e + 2
  have hblanks : Function.Injective blanks := by
    intro a b h
    simp only [blanks] at h
    split_ifs at h
    all_goals first | omega | exact hf (by omega) | simp_all
  let text : WalEntry → String
    | .put _ item => item.value
    | .restore _ _ => ""
  let marshal : WalEntry → List UInt8 := fun e => '{'.toUInt8 ::
    ((text e).toList.map Char.toUInt8 ++ '}'.toUInt8 :: List.replicate (blanks e) ' '.toUInt8)
  have hlast : ∀ e, ((marshal e).reverse.takeWhile (· = ' '.toUInt8)).length = blanks e := by
    intro e
    have hstop : ∀ rest, (('}'.toUInt8 :: rest).takeWhile fun b => decide (b = ' '.toUInt8)) = [] :=
      fun _ => rfl
    simp only [marshal, List.reverse_cons, List.reverse_append, List.reverse_replicate,
      List.append_assoc, List.cons_append]
    rw [List.takeWhile_append_of_pos (by simp), hstop]
    simp
  have hinj : Function.Injective marshal := fun a b h =>
    hblanks (by rw [← hlast a, ← hlast b, h])
  refine ⟨⟨marshal, fun payload => if limit < nesting payload then .malformed
    else if h : ∃ e, marshal e = payload then .record h.choose else .malformed, fun _ => 0⟩,
    fun e he => ?_, fun payload h => if_pos h, nesting_object limit _, ?_, ?_⟩
  · have h : ∃ e', marshal e' = marshal e := ⟨e, rfl⟩
    simp only [if_neg (Nat.not_lt.mpr he), dif_pos h, hinj h.choose_spec]
  · have hdeep : blanks (deepPut limit) = 0 := if_pos rfl
    have hlevels : (text (deepPut limit)).toList.length = 2 * limit := by
      simp only [text, deepPut, deepItem, nestedArrays, String.toList_ofList, List.length_append,
        List.length_replicate, Nat.two_mul]
    simp only [marshal, List.length_cons, List.length_append, List.length_map, List.length_replicate,
      hdeep, hlevels, Nat.add_assoc]
  · have hone : blanks onePut ≤ 1 := by
      simp only [blanks]
      split_ifs <;> omega
    have hvalue : (text onePut).toList.length = 1 := by decide +kernel
    simp only [marshal, List.length_cons, List.length_append, List.length_map, List.length_replicate,
      hvalue]
    omega

/-- The memtable stays below a threshold above the size of both. -/
theorem not_crossed_pair (item item' : DataItem) :
    ((Engine.create (estimatedSize "deep" item + estimatedSize "k" item' + 1)).layers.applyBatch
      [.put "deep" item, .put "k" item']).2.1 = false := by
  have hother : (MemTable.install (.new (estimatedSize "deep" item + estimatedSize "k" item' + 1))
      "deep" [] [item]).current "k" = [] := by
    simp [MemTable.current_install]
  have hsize : (0 : Int) ≤ estimatedSize "k" item' := by
    unfold estimatedSize
    omega
  simp [Layers.applyBatch, Layers.applyEntry, Engine.create, Engine.layers, Layers.put, MemTable.put,
    hother]
  simp [MemTable.install, MemTable.new, setSize]
  omega

/-- Two writers put a version each. If their records fit into one batch and the memtable
stays below its threshold, both are acknowledged and in the first segment. -/
theorem run_pair (c : Codec WalEntry) {maxBytes : Int} {key key' : String} {item item' : DataItem}
    (hbytes : (encode c (.put key item)).length + (encode c (.put key' item')).length ≤ maxBatchBytes)
    (hbelow : ((Engine.create maxBytes).layers.applyBatch [.put key item, .put key' item']).2.1 =
      false) :
    ∃ s, Run c (fun _ => 0) maxBytes (fun _ _ => True) s ∧ s.commit = .free ∧
      s.decided = [(⟨0, .put key item⟩, .ok), (⟨1, .put key' item'⟩, .ok)] ∧
      s.acked = [(1, .put key item), (1, .put key' item')] ∧ s.sealed = [] ∧ s.deleted = [] ∧
      s.current = fileOf c ⟨1, [.put key item, .put key' item'], []⟩ := by
  have h₀ : Run c (fun _ => 0) maxBytes (fun _ _ => True) (create maxBytes true) := .start true
  have h₁ := h₀.step (a := .submit (.put key item)) trivial rfl
  have h₂ := h₁.step (a := .submit (.put key' item')) trivial rfl
  have h₃ := h₂.step (a := .enqueue 0) trivial rfl
  have h₄ := h₃.step (a := .enqueue 0) trivial rfl
  have h₅ := h₄.step (a := .receive) trivial rfl
  have hroom : recordBytes c [⟨0, .put key item⟩] + (encode c (.put key' item')).length ≤
      maxBatchBytes := by
    simpa [recordBytes] using hbytes
  have h₆ := h₅.step (a := .fill) trivial (fill_eq rfl rfl (Nat.one_lt_ofNat) hroom)
  have h₇ := h₆.step (a := .fillEnd) trivial rfl
  have h₈ := h₇.step (a := .lockBatch) trivial rfl
  have h₉ := h₈.step (a := .write) trivial rfl
  have h₁₀ := h₉.step (a := .fsync) trivial rfl
  have h₁₁ := h₁₀.step (a := .apply) trivial rfl
  have hidle : (if ((Engine.create maxBytes).layers.applyBatch
      [.put key item, .put key' item']).2.1 ∧ (Engine.create maxBytes).flushing = none then
        WriterPhase.swapping else .idle) = .idle := by
    simp [hbelow]
  have h₁₂ := h₁₁.step (a := .signal) trivial (signal_eq rfl hidle)
  exact ⟨_, h₁₂, rfl, rfl, rfl, rfl, rfl, rfl⟩

/-- A version whose value nests as deep as can be read, and another one, are written in one
batch and acknowledged. The record of the first nests one level deeper : no replay returns
it, nor the one behind it. -/
theorem nested_write_lost : ∃ (c : Codec WalEntry) (maxBytes : Int) (s : WritePath),
    let first := deepPut maxNestingDepth
    (∀ e, nesting (c.marshal e) ≤ maxNestingDepth → c.unmarshal (c.marshal e) = .record e) ∧
    (∀ payload, maxNestingDepth < nesting payload → c.unmarshal payload = .malformed) ∧
    nesting (c.marshal first) = maxNestingDepth + 1 ∧ (c.marshal first).length < 2 ^ 15 ∧
    Run c (fun _ => 0) maxBytes (fun _ _ => True) s ∧ s.commit = .free ∧
    s.decided = [(⟨0, first⟩, .ok), (⟨1, onePut⟩, .ok)] ∧
    s.acked = [(s.current.seq, first), (s.current.seq, onePut)] ∧
    ∀ kept, ∃ found, openFiles c (s.disk kept []) = some found ∧ found.flatMap Prod.snd = [] := by
  obtain ⟨c, hreads, hrefuses, hdeep, hlength, hlength'⟩ := exists_codec_limited maxNestingDepth
  have hshort : (c.marshal (deepPut maxNestingDepth)).length < 2 ^ 15 := by
    rw [hlength, maxNestingDepth]
    omega
  have hbytes : (encode c (deepPut maxNestingDepth)).length + (encode c onePut).length ≤
      maxBatchBytes := by
    rw [length_encode, length_encode, headerSize, maxBatchBytes]
    omega
  obtain ⟨s, hrun, hfree, hdecided, hacked, hsealed, hdeleted, hcurrent⟩ :=
    run_pair c hbytes (not_crossed_pair (deepItem maxNestingDepth) oneItem)
  refine ⟨c, _, s, hreads, hrefuses, hdeep, hshort, hrun, hfree, hdecided,
    by rw [hacked, hcurrent]; rfl, fun kept => ?_⟩
  have hreplay : Framing.replay c (encodeAll c [deepPut maxNestingDepth, onePut]) = .ok ([], 0) := by
    refine replayFrom_refused (hshort.trans (by decide)) (hrefuses _ ?_) 0 _
    rw [hdeep]
    exact Nat.lt_succ_self _
  have hcrash : s.current.afterCrash kept =
      fileOf c ⟨1, [deepPut maxNestingDepth, onePut], []⟩ := by
    rw [hcurrent, WalFile.afterCrash, fileOf, List.take_of_length_le (Nat.le_add_right _ _)]
    rfl
  refine ⟨[(⟨1, [], 0⟩, [])], ?_, rfl⟩
  rw [openFiles, disk, hdeleted, hsealed, hcrash]
  simp [fileOf, WalFile.replayFile, hreplay, -encodeAll_cons]

end WritePath

end DistributedKV
