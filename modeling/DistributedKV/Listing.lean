import DistributedKV.Durability

/-!
# What a failed flush shows, and what is listed

A failed flush puts the frozen memtable's versions back behind the active ones and clears
the frozen table. Readers get the very same lists as before, whatever the two tables hold
(`failed_flush_unseen`).

A listing takes every key any layer has, a read what the layers hold for one key. The two
agree as long as no memtable has a key without versions (`MemTable.Filled`) : a Put always
leaves a version, a Restore to nothing removes the key, and what a failed flush puts back
is merged, which never gives less than it takes. Along every run this holds of both
memtables (`Engine.filled_of_run`), so what is listed is what is found (`keys_of_run`).
-/

open Maxima

namespace DistributedKV

open DataItem (vectorClock)

theorem ne_nil_of_covers {l : List DataItem} {c : VectorClock} (h : Covers vectorClock l c) :
    l ≠ [] := by
  obtain ⟨y, hy, -⟩ := h
  exact List.ne_nil_of_mem hy

/-- Merging never gives less than it takes. -/
theorem mergeSiblings_ne_nil {a b : List DataItem} (h : b ≠ []) : mergeSiblings a b ≠ [] := by
  obtain ⟨x, hx⟩ := List.exists_mem_of_ne_nil b h
  rw [mergeSiblings_eq_foldl]
  exact ne_nil_of_covers (Covers.foldl_insertMax (Or.inr ⟨x, hx, le_rfl⟩))

namespace MemTable

/-- No key is without versions. -/
def Filled (m : MemTable) : Prop :=
  ∀ key ∈ m.keys, m.current key ≠ []

theorem filled_new (maxBytes : Int) : Filled (new maxBytes) := by
  intro key hkey
  simp [new, keys] at hkey

theorem Filled.install {m : MemTable} (h : m.Filled) (key : String) (old : List DataItem)
    {items : List DataItem} (hitems : items ≠ []) : (m.install key old items).Filled := by
  intro k hk
  rw [current_install]
  split
  · exact hitems
  · next hne =>
    refine h k ?_
    simp only [keys, MemTable.install, Std.ExtTreeMap.mem_keys, Std.ExtTreeMap.mem_insert,
      Std.compare_eq_iff_eq] at hk ⊢
    exact hk.resolve_left (Ne.symm hne)

theorem Filled.put {m : MemTable} (h : m.Filled) (key : String) (item : DataItem) :
    (m.put key item).1.Filled := by
  have hself : (m.put key item).1.current key ≠ [] :=
    ne_nil_of_covers ((covers_current_put_self m key item _).mpr (Or.inr le_rfl))
  rw [MemTable.put] at hself ⊢
  refine h.install key _ ?_
  simpa [current_install] using hself

theorem Filled.replace {m : MemTable} (h : m.Filled) (key : String) (items : List DataItem) :
    (m.replace key items).Filled := by
  unfold MemTable.replace
  split
  · next hempty =>
    intro k hk
    simp only [keys, Std.ExtTreeMap.mem_keys, Std.ExtTreeMap.mem_erase, ne_eq,
      Std.compare_eq_iff_eq] at hk
    have hcur := h k (Std.ExtTreeMap.mem_keys.mpr hk.2)
    simpa [current, Std.ExtTreeMap.getD_erase, hk.1] using hcur
  · next hne => exact h.install key _ (by simpa using hne)

theorem Filled.putBackOlder {m : MemTable} (h : m.Filled) (entries : List Entry) :
    (m.putBackOlder entries).Filled := by
  have hfold : ∀ (older : String → List DataItem) (ks : List String) (m : MemTable), m.Filled →
      (∀ k ∈ ks, older k ≠ []) → Filled (ks.foldl (fun m key => m.install key (m.current key)
        (mergeSiblings (m.current key) (older key))) m) := by
    intro older ks
    induction ks with
    | nil => exact fun m hm _ => hm
    | cons k ks ih =>
      intro m hm hks
      obtain ⟨hk, hks⟩ := List.forall_mem_cons.mp hks
      exact ih _ (hm.install k _ (mergeSiblings_ne_nil hk)) hks
  obtain ⟨-, hkeys, -, hget⟩ := groupEntries_spec entries
  refine hfold (fun k => (groupEntries entries).2.getD k []) _ m h fun k hk => ?_
  obtain ⟨e, he, rfl⟩ := mem_groupEntries.mp ((hkeys k).mp hk)
  rw [hget]
  exact List.ne_nil_of_mem (mem_itemsOf.mpr he)

theorem Filled.apply {m : MemTable} (h : m.Filled) : ∀ e : WalEntry, (m.apply e).Filled
  | .put key item => h.put key item
  | .restore key items => h.replace key items

theorem Filled.foldl_apply : ∀ {batch : List WalEntry} {m : MemTable}, m.Filled →
    (batch.foldl MemTable.apply m).Filled
  | [], _, h => h
  | e :: batch, m, h => by
    rw [List.foldl_cons]
    exact foldl_apply (h.apply e)

end MemTable

namespace Layers

/-- No memtable has a key without versions. -/
structure Filled (l : Layers) : Prop where
  active : l.active.Filled
  flushing : ∀ m ∈ l.flushing, m.Filled

theorem keys_sorted (l : Layers) : l.keys.Pairwise (· < ·) := by
  have hle : l.keys.Pairwise (· ≤ ·) := List.pairwise_insertionSort _ _
  exact hle.and (nodup_keys l) |>.imp fun h => lt_of_le_of_ne h.1 h.2

/-- What is listed is what is found. -/
theorem mem_keys_iff {l : Layers} (h : l.Filled) (key : String) :
    key ∈ l.keys ↔ l.getAll key ≠ [] := by
  have hitems : ∀ v ∈ l.items key, l.getAll key ≠ [] := fun v hv =>
    ne_nil_of_covers (covers_getAll.mpr ⟨v, hv, le_rfl⟩)
  constructor
  · intro hkey
    rw [keys, List.mem_insertionSort, List.mem_dedup, List.mem_append, List.mem_append,
      List.mem_flatMap] at hkey
    rcases hkey with hkey | hkey | ⟨sst, hsst, hkey⟩
    · obtain ⟨v, hv⟩ := List.exists_mem_of_ne_nil _ (h.active key hkey)
      exact hitems v (List.mem_append_left _ hv)
    · cases hf : l.flushing with
      | none => simp [hf] at hkey
      | some frozen =>
        rw [hf] at hkey
        obtain ⟨v, hv⟩ := List.exists_mem_of_ne_nil _ (h.flushing frozen hf key hkey)
        refine hitems v (List.mem_append_right _ (List.mem_append_left _ ?_))
        simpa [flushingItems, hf] using hv
    · obtain ⟨e, he, rfl⟩ := SSTable.mem_keys.mp hkey
      refine hitems e.item (List.mem_append_right _ (List.mem_append_right _ ?_))
      exact List.mem_flatMap.mpr ⟨sst, hsst, mem_itemsOf.mpr he⟩
  · intro hne
    obtain ⟨v, hv⟩ := List.exists_mem_of_ne_nil _ hne
    exact mem_keys_of_mem_getAll hv

end Layers

namespace Engine

variable {fileSize : List Entry → Nat} {maxBytes : Int}
  {allowed : Trace → Engine → EngineAct → Prop} {t : Trace} {s s' : Engine} {a : EngineAct}

/-- The end of a failed flush changes no list that a read gives : not for any two memtables
and any SSTables, and so not in any run of the engine. -/
theorem failed_flush_unseen (key : String) :
    (∀ (active frozen : MemTable) (sstables : List SSTable),
      mergeLayers key (active.putBackOlder frozen.snapshot) none sstables =
        mergeLayers key active (some frozen) sstables) ∧
    ∀ (fileSize : List Entry → Nat) (maxBytes : Int) (allowed : Trace → Engine → EngineAct → Prop)
      (t : Trace) (s s' : Engine) (entries : List Entry), Run fileSize maxBytes allowed t s →
      s.tables.flush = .failed entries → s.step fileSize .flushFinish = some s' →
      s'.layers.getAll key = s.layers.getAll key := by
  have hlayers : ∀ (active frozen : MemTable) (sstables : List SSTable),
      mergeLayers key (active.putBackOlder frozen.snapshot) none sstables =
        mergeLayers key active (some frozen) sstables := fun active frozen sstables =>
    Layers.getAll_flushFailed (l := ⟨active, some frozen, sstables⟩) rfl key
  refine ⟨hlayers, fun fileSize maxBytes allowed t s s' entries hrun hfailed hstep => ?_⟩
  exact (maintains_of_run hrun hstep nofun nofun nofun key).1

theorem filled_step (h : s.layers.Filled) (hstep : Step fileSize s a s') : s'.layers.Filled := by
  cases hstep with
  | apply =>
    rw [applyBatch_layers]
    exact ⟨h.active.foldl_apply, h.flushing⟩
  | freeze =>
    refine ⟨MemTable.filled_new _, fun m hm => ?_⟩
    obtain rfl : s.active = m := by simpa [layers] using hm
    exact h.active
  | flushDone => exact ⟨h.active, by simp [layers]⟩
  | flushFailed entries => exact ⟨h.active.putBackOlder entries, by simp [layers]⟩
  | reopen => exact ⟨(MemTable.filled_new _).foldl_apply, by simp [layers]⟩
  | _ => exact ⟨h.active, h.flushing⟩

theorem filled_of_run (h : Run fileSize maxBytes allowed t s) : s.layers.Filled := by
  induction h with
  | start => exact ⟨MemTable.filled_new _, by simp [create, layers]⟩
  | step hrun ha hstep ih => exact filled_step ih (step_sound hstep)

/-- In every state a listing is sorted, has no key twice, and has exactly the keys that a read
finds a version of. -/
theorem keys_of_run (h : Run fileSize maxBytes allowed t s) :
    s.layers.keys.Pairwise (· < ·) ∧ ∀ key, key ∈ s.layers.keys ↔ s.layers.getAll key ≠ [] :=
  ⟨s.layers.keys_sorted, Layers.mem_keys_iff (filled_of_run h)⟩

/-- A key that is put and flushed, next to one that is restored to nothing. -/
def listedActs : List EngineAct :=
  commitActs [.put "b" (firstVersion "x" "A"), .restore "b" [], .put "k" (firstVersion "y" "B")] ++
    flushActs (10 ^ 18)

theorem keys_of_run_listed : ∃ s : Engine, s.layers.keys = ["k"] ∧ s.layers.getAll "k" ≠ [] ∧
    s.layers.getAll "b" = [] := by
  obtain ⟨r, hr, hkeys⟩ : ∃ r, runActs (fun _ => 0) (fun _ _ _ => True) .empty (create 1)
      listedActs = some r ∧ r.2.layers.keys = ["k"] := by
    refine ⟨_, rfl, ?_⟩
    decide +kernel
  have hrun : Run (fun _ => 0) 1 (fun _ _ _ => True) r.1 r.2 := Run.start.runActs hr
  obtain ⟨-, hmem⟩ := keys_of_run hrun
  rw [hkeys] at hmem
  refine ⟨r.2, hkeys, (hmem "k").mp (by decide), not_not.mp fun h => ?_⟩
  exact absurd ((hmem "b").mpr h) (by decide)

end Engine

end DistributedKV
