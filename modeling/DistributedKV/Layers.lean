import DistributedKV.Compaction

/-!
# The layers of one store, as readers see them

The engine answers a read from three layers : the active memtable, the memtable being
flushed if there is one, and the SSTables, newest first. `mergeLayers` folds them with
`mergeSiblings`, which is one fold over everything the layers hold (`getAll_eq`).

A Put changes only the active memtable : its effect on what readers see is
`getAll_put_of_covers` and `getAll_put_of_not_covers`. Freezing the memtable, putting a
failed flush back, and registering a flush change nothing (`getAll_freeze`,
`getAll_flushFailed`, `getAll_flushed`).
-/

open Maxima

namespace DistributedKV

open DataItem (vectorClock)

/-- Fold one layer's versions into what newer layers gave. -/
def mergeFound (merged : List DataItem) (found : Option (List DataItem)) : List DataItem :=
  match found with
  | some items => mergeSiblings merged items
  | none => merged

/-- The fold of a read over one snapshot of the layers. -/
def mergeLayers (key : String) (active : MemTable) (flushing : Option MemTable)
    (sstables : List SSTable) : List DataItem :=
  let merged := mergeFound [] (active.getAll key)
  let merged := match flushing with
    | some frozen => mergeFound merged (frozen.getAll key)
    | none => merged
  sstables.foldl (fun merged sst => mergeFound merged (sst.getAll key)) merged

/-- What readers consult. -/
structure Layers where
  active : MemTable
  flushing : Option MemTable
  sstables : List SSTable
deriving DecidableEq

namespace Layers

/-- Every sibling of `key`, newest first; a key is found when there is one. -/
def getAll (l : Layers) (key : String) : List DataItem :=
  mergeLayers key l.active l.flushing l.sstables

/-- Every key held in any layer, sorted and without repetition. -/
def keys (l : Layers) : List String :=
  let frozen := match l.flushing with
    | some frozen => frozen.keys
    | none => []
  (l.active.keys ++ (frozen ++ l.sstables.flatMap SSTable.keys)).dedup.insertionSort (· ≤ ·)

/-- Apply a durable Put to the active memtable. -/
def put (l : Layers) (key : String) (item : DataItem) : Layers :=
  { l with active := (l.active.put key item).1 }

/-- Apply a durable Restore to the active memtable. -/
def restore (l : Layers) (key : String) (items : List DataItem) : Layers :=
  { l with active := l.active.replace key items }

/-- The versions the frozen memtable holds, none when nothing is being flushed. -/
def flushingItems (l : Layers) (key : String) : List DataItem :=
  match l.flushing with
  | some frozen => frozen.current key
  | none => []

/-- Everything the layers hold for a key, newest layer first. -/
def items (l : Layers) (key : String) : List DataItem :=
  l.active.current key ++ (l.flushingItems key ++ tableItems l.sstables key)

theorem mergeFound_of_getD {a : List DataItem} {found : Option (List DataItem)}
    {b : List DataItem} (h : found.getD [] = b) :
    mergeFound (keepMax vectorClock a) found = keepMax vectorClock (a ++ b) := by
  subst h
  cases found with
  | none => simp [mergeFound]
  | some items => exact mergeSiblings_keepMax a items

theorem SSTable.getAll_getD (sst : SSTable) (key : String) :
    (sst.getAll key).getD [] = itemsOf sst.entries key := by
  simp only [SSTable.getAll]
  split
  · next h => simpa using h.symm
  · rfl

theorem foldl_mergeFound (key : String) : ∀ (sstables : List SSTable) (a : List DataItem),
    sstables.foldl (fun merged sst => mergeFound merged (sst.getAll key)) (keepMax vectorClock a) =
      keepMax vectorClock (a ++ tableItems sstables key)
  | [], a => by simp
  | sst :: l, a => by
    rw [List.foldl_cons, mergeFound_of_getD (SSTable.getAll_getD sst key), foldl_mergeFound key l,
      tableItems_cons, List.append_assoc]

/-- A read is one fold over everything the layers hold. -/
theorem getAll_eq (l : Layers) (key : String) : l.getAll key = keepMax vectorClock (l.items key) := by
  have hactive : mergeFound [] (l.active.getAll key) = keepMax vectorClock (l.active.current key) :=
    mergeFound_of_getD (a := []) (l.active.getAll_getD key)
  unfold getAll mergeLayers items flushingItems
  rw [hactive]
  cases l.flushing with
  | none => exact (foldl_mergeFound key l.sstables _).trans (by simp)
  | some frozen =>
    simp only
    rw [mergeFound_of_getD (frozen.getAll_getD key), foldl_mergeFound, List.append_assoc]

/-- Reads depend on each layer only through its own fold. -/
theorem getAll_congr {l l' : Layers} {key : String}
    (h : keepMax vectorClock (l.items key) = keepMax vectorClock (l'.items key)) :
    l.getAll key = l'.getAll key := by
  rw [getAll_eq, getAll_eq, h]

/-! ## Keys -/

theorem MemTable.mem_keys_of_current {m : MemTable} {key : String} {v : DataItem}
    (h : v ∈ m.current key) : key ∈ m.keys := by
  rw [MemTable.keys, Std.ExtTreeMap.mem_keys]
  by_contra hkey
  rw [MemTable.current, Std.ExtTreeMap.getD_eq_fallback hkey] at h
  cases h

theorem nodup_keys (l : Layers) : l.keys.Nodup :=
  (List.perm_insertionSort _ _).nodup_iff.mpr (List.nodup_dedup _)

/-- A key with a version is listed. -/
theorem mem_keys_of_mem_getAll {l : Layers} {key : String} {v : DataItem}
    (h : v ∈ l.getAll key) : key ∈ l.keys := by
  rw [keys, List.mem_insertionSort, List.mem_dedup]
  have hv : v ∈ l.items key := by
    rw [getAll_eq] at h
    exact mem_of_mem_keepMax h
  simp only [items, flushingItems, tableItems, List.mem_append, List.mem_flatMap] at hv ⊢
  rcases hv with hv | hv | ⟨sst, hsst, hv⟩
  · exact Or.inl (MemTable.mem_keys_of_current hv)
  · refine Or.inr (Or.inl ?_)
    cases hf : l.flushing with
    | none => simp [hf] at hv
    | some => exact MemTable.mem_keys_of_current (by simpa [hf] using hv)
  · exact Or.inr (Or.inr ⟨sst, hsst, SSTable.mem_keys.mpr ⟨_, mem_itemsOf.mp hv, rfl⟩⟩)

/-! ## Writes -/

@[simp] theorem getAll_put_of_ne (l : Layers) {key k : String} (item : DataItem) (h : k ≠ key) :
    (l.put key item).getAll k = l.getAll k := by
  refine getAll_congr (congrArg _ ?_)
  simp [items, put, flushingItems, MemTable.current_put_of_ne _ item h]

/-- A Put whose clock the active memtable already covers is not seen. -/
theorem getAll_put_of_covers (l : Layers) {key : String} {item : DataItem}
    (h : Covers vectorClock (l.active.current key) item.vectorClock) :
    (l.put key item).getAll key = l.getAll key :=
  getAll_congr (keepMax_append_congr (MemTable.keepMax_current_put_of_covers _ h) rfl)

/-- Any other Put is seen in front of everything. -/
theorem getAll_put_of_not_covers (l : Layers) {key : String} {item : DataItem}
    (h : ¬Covers vectorClock (l.active.current key) item.vectorClock) :
    (l.put key item).getAll key = keepMax vectorClock (item :: l.items key) := by
  rw [getAll_eq]
  exact keepMax_append_congr (MemTable.keepMax_current_put_of_not_covers _ h) rfl

theorem covers_getAll {l : Layers} {key : String} {c : VectorClock} :
    Covers vectorClock (l.getAll key) c ↔ Covers vectorClock (l.items key) c := by
  rw [getAll_eq, covers_keepMax]

theorem mem_items_of_mem_getAll {l : Layers} {key : String} {v : DataItem}
    (h : v ∈ l.getAll key) : v ∈ l.items key := by
  rw [getAll_eq] at h
  exact mem_of_mem_keepMax h

/-- A version not covered by the active memtable and not below anything held is seen in
front, and hides exactly what it covers. -/
theorem getAll_put_of_not_lt (l : Layers) {key : String} {item : DataItem}
    (hA : ¬Covers vectorClock (l.active.current key) item.vectorClock)
    (h : ∀ v ∈ l.getAll key, ¬item.vectorClock < v.vectorClock) :
    (l.put key item).getAll key =
      item :: (l.getAll key).filter fun v => ¬v.vectorClock ≤ item.vectorClock := by
  rw [getAll_put_of_not_covers l hA, keepMax_cons_of_not_lt fun v hv hlt => ?_, ← getAll_eq]
  have hcov : Covers vectorClock (l.items key) v.vectorClock := ⟨v, hv, le_rfl⟩
  obtain ⟨w, hw, hle⟩ := covers_getAll.mpr hcov
  exact h w hw (lt_of_lt_of_le hlt hle)

/-- When a Put shows its item and keeps what is not `seen` : every visible version is the
item itself, or concurrent with it, or seen and not holding the item back. -/
theorem put_keeps_iff (l : Layers) (key : String) (item : DataItem) (seen : DataItem → Prop) :
    (item ∈ (l.put key item).getAll key ∧
      ∀ v ∈ l.getAll key, ¬seen v → v ∈ (l.put key item).getAll key) ↔
    ∀ v ∈ l.getAll key, v = item ∨
      (¬v.vectorClock ≤ item.vectorClock ∧ ¬item.vectorClock ≤ v.vectorClock) ∨
      (v.vectorClock ≤ item.vectorClock ∧ seen v ∧ (item.vectorClock ≤ v.vectorClock →
        ∀ w ∈ l.active.current key, ¬item.vectorClock ≤ w.vectorClock)) := by
  by_cases hA : Covers vectorClock (l.active.current key) item.vectorClock
  · -- the active memtable drops the item : it is visible only as an identical twin
    rw [getAll_put_of_covers l hA]
    have hanti : Antichain vectorClock (l.getAll key) := getAll_eq l key ▸ antichain_keepMax _
    constructor
    · rintro ⟨hitem, -⟩ v hv
      by_cases hvi : v = item
      · exact Or.inl hvi
      · exact Or.inr (Or.inl ⟨fun hle => hvi (hanti.eq_of_le hv hitem hle),
          fun hle => hvi (hanti.eq_of_le hitem hv hle).symm⟩)
    · intro h
      refine ⟨?_, fun v hv _ => hv⟩
      have hcov : Covers vectorClock (l.items key) item.vectorClock :=
        hA.mono fun y hy => List.mem_append_left _ hy
      obtain ⟨v, hv, hle⟩ := covers_getAll.mpr hcov
      rcases h v hv with rfl | ⟨-, hnle⟩ | ⟨-, -, hnone⟩
      · exact hv
      · exact absurd hle hnle
      · obtain ⟨w, hw, hwle⟩ := hA
        exact absurd hwle (hnone hle w hw)
  · constructor
    · rintro ⟨hitem, hkeep⟩ v hv
      have hnlt : ∀ w ∈ l.getAll key, ¬item.vectorClock < w.vectorClock := by
        rw [getAll_put_of_not_covers l hA] at hitem
        exact fun w hw => not_lt_of_mem_keepMax hitem
          (List.mem_cons_of_mem _ (mem_items_of_mem_getAll hw))
      rw [getAll_put_of_not_lt l hA hnlt] at hkeep
      by_cases hle : v.vectorClock ≤ item.vectorClock
      · by_cases hvi : v = item
        · exact Or.inl hvi
        · have hseen : seen v := by
            by_contra hns
            simpa [hvi, hle] using hkeep v hv hns
          exact Or.inr (Or.inr ⟨hle, hseen, fun _ w hw hwle => hA ⟨w, hw, hwle⟩⟩)
      · exact Or.inr (Or.inl ⟨hle, fun hge => hnlt v hv (lt_of_le_not_ge hge hle)⟩)
    · intro h
      have hnlt : ∀ w ∈ l.getAll key, ¬item.vectorClock < w.vectorClock := by
        intro w hw hlt
        rcases h w hw with rfl | ⟨-, hnle⟩ | ⟨hle, -⟩
        · exact lt_irrefl _ hlt
        · exact hnle hlt.le
        · exact not_le_of_gt hlt hle
      rw [getAll_put_of_not_lt l hA hnlt]
      refine ⟨List.mem_cons_self, fun v hv hns => ?_⟩
      rcases h v hv with rfl | ⟨hnle, -⟩ | ⟨-, hseen, -⟩
      · exact List.mem_cons_self
      · exact List.mem_cons_of_mem _ (List.mem_filter.mpr ⟨hv, by simpa using hnle⟩)
      · exact absurd hseen hns

/-- After a Put the key covers the item and all it covered before. -/
theorem covers_getAll_put {l : Layers} {key k : String} {item : DataItem} {c : VectorClock} :
    Covers vectorClock ((l.put key item).getAll k) c ↔
      Covers vectorClock (l.getAll k) c ∨ (k = key ∧ c ≤ item.vectorClock) := by
  by_cases hk : k = key
  · subst hk
    have hrest : (l.put k item).items k = (l.active.put k item).1.current k ++
      (l.flushingItems k ++ tableItems l.sstables k) := rfl
    rw [covers_getAll, covers_getAll, hrest, items]
    simp only [covers_append, MemTable.covers_current_put_self, true_and]
    tauto
  · simp [getAll_put_of_ne l item hk, hk]

/-- What a Put makes visible was visible before, or is the item. -/
theorem mem_getAll_put {l : Layers} {key : String} {item w : DataItem}
    (h : w ∈ (l.put key item).getAll key) : w ∈ l.getAll key ∨ w = item := by
  by_cases hA : Covers vectorClock (l.active.current key) item.vectorClock
  · rw [getAll_put_of_covers l hA] at h
    exact Or.inl h
  · rw [getAll_put_of_not_covers l hA, mem_keepMax_iff_split] at h
    obtain ⟨a, b, hsplit, hfront, hback⟩ := h
    cases a with
    | nil => exact Or.inr (List.cons.inj hsplit).1.symm
    | cons x a =>
      rw [getAll_eq, mem_keepMax_iff_split]
      exact Or.inl ⟨a, b, (List.cons.inj hsplit).2,
        fun hcov => hfront (hcov.mono fun y hy => List.mem_cons_of_mem _ hy), hback⟩

theorem mem_items_put {l : Layers} {key : String} {item w : DataItem}
    (h : w ∈ (l.put key item).items key) : w ∈ l.items key ∨ w = item := by
  rcases List.mem_append.mp h with h | h
  · rcases MemTable.mem_current_put h with h | ⟨-, rfl⟩
    · exact Or.inl (List.mem_append_left _ h)
    · exact Or.inr rfl
  · exact Or.inl (List.mem_append_right _ h)

@[simp] theorem getAll_restore_of_ne (l : Layers) {key k : String} (items : List DataItem)
    (h : k ≠ key) : (l.restore key items).getAll k = l.getAll k := by
  refine getAll_congr (congrArg _ ?_)
  simp [Layers.items, restore, flushingItems, MemTable.current_replace, h]

/-! ## Background steps -/

/-- The memory step of `swap` : the active memtable is frozen and an empty one starts. -/
def freeze (l : Layers) : Layers :=
  { l with active := MemTable.new l.active.maxBytes, flushing := some l.active }

/-- The end of a failed flush : the frozen entries go back behind the active ones. -/
def flushFailed (l : Layers) (frozen : MemTable) : Layers :=
  { l with active := l.active.putBackOlder frozen.snapshot, flushing := none }

/-- The end of a successful flush : the new SSTable is the newest. -/
def flushed (l : Layers) (sst : SSTable) : Layers :=
  { l with sstables := sst :: l.sstables, flushing := none }

theorem getAll_freeze {l : Layers} (h : l.flushing = none) (key : String) :
    l.freeze.getAll key = l.getAll key := by
  refine getAll_congr (congrArg _ ?_)
  simp [items, freeze, flushingItems, h]

theorem getAll_flushFailed {l : Layers} {frozen : MemTable} (h : l.flushing = some frozen)
    (key : String) : (l.flushFailed frozen).getAll key = l.getAll key := by
  refine getAll_congr ?_
  simp only [items, flushFailed, flushingItems, h, List.nil_append, ← List.append_assoc]
  refine keepMax_append_congr ?_ rfl
  rw [MemTable.current_putBackOlder, MemTable.itemsOf_snapshot, mergeSiblings_eq_foldl,
    keepMax_foldl_insertMax]

theorem getAll_flushed {l : Layers} {frozen : MemTable} (h : l.flushing = some frozen)
    {sst : SSTable} (hsst : sst.entries = frozen.snapshot) (key : String) :
    (l.flushed sst).getAll key = l.getAll key := by
  refine getAll_congr (congrArg _ ?_)
  simp [items, flushed, flushingItems, h, hsst, MemTable.itemsOf_snapshot]

/-- Reads give the same, and nothing is held that was not held before. -/
def Maintains (l l' : Layers) : Prop :=
  ∀ key, l'.getAll key = l.getAll key ∧ ∀ w ∈ l'.items key, w ∈ l.items key

theorem Maintains.refl (l : Layers) : l.Maintains l :=
  fun _ => ⟨rfl, fun _ => id⟩

theorem maintains_freeze {l : Layers} (h : l.flushing = none) : l.Maintains l.freeze := by
  refine fun key => ⟨getAll_freeze h key, fun w hw => ?_⟩
  simpa [items, freeze, flushingItems, h] using hw

theorem maintains_flushFailed {l : Layers} {frozen : MemTable} (h : l.flushing = some frozen) :
    l.Maintains (l.flushFailed frozen) := by
  refine fun key => ⟨getAll_flushFailed h key, fun w hw => ?_⟩
  simp only [items, flushFailed, flushingItems, h, List.nil_append, List.mem_append,
    MemTable.current_putBackOlder, MemTable.itemsOf_snapshot, mergeSiblings_eq_foldl] at hw ⊢
  rcases hw with hw | hw
  · exact (mem_of_mem_foldl_insertMax hw).imp_right Or.inl
  · exact Or.inr (Or.inr hw)

theorem maintains_flushed {l : Layers} {frozen : MemTable} (h : l.flushing = some frozen)
    {sst : SSTable} (hsst : sst.entries = frozen.snapshot) : l.Maintains (l.flushed sst) := by
  refine fun key => ⟨getAll_flushed h hsst key, fun w hw => ?_⟩
  simpa [items, flushed, flushingItems, h, hsst, MemTable.itemsOf_snapshot] using hw

end Layers

end DistributedKV
