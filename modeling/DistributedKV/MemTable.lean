import DistributedKV.Versioning

/-!
# The memtable

A memtable maps each key to a sibling list, newest first, and keeps an estimate of its
size. `put` merges one version in front, `replace` installs a list verbatim, and
`putBackOlder` merges a failed flush's entries behind what is there. The tree of the
source is a sorted map here.

Per key the three are described by `keepMax_current_put_of_covers`,
`keepMax_current_put_of_not_covers`, `current_replace` and `current_putBackOlder`; a
snapshot gives back every key's list (`itemsOf_snapshot`).
-/

open Maxima

namespace DistributedKV

open DataItem (vectorClock)

/-- One version of one key, the unit SSTables and snapshots are made of. -/
structure Entry where
  key : String
  item : DataItem
deriving DecidableEq

/-- The versions of `key` in a list of entries, in order. -/
def itemsOf (entries : List Entry) (key : String) : List DataItem :=
  (entries.filter fun e => e.key = key).map Entry.item

theorem itemsOf_append (a b : List Entry) (key : String) :
    itemsOf (a ++ b) key = itemsOf a key ++ itemsOf b key := by
  simp [itemsOf]

theorem mem_itemsOf {entries : List Entry} {key : String} {v : DataItem} :
    v ∈ itemsOf entries key ↔ ⟨key, v⟩ ∈ entries := by
  simp only [itemsOf, List.mem_map, List.mem_filter, decide_eq_true_eq]
  constructor
  · rintro ⟨⟨k, w⟩, ⟨he, rfl⟩, rfl⟩
    exact he
  · exact fun h => ⟨_, ⟨h, rfl⟩, rfl⟩

/-- A rough size in bytes of one version, used only to decide when to flush. -/
def estimatedSize (key : String) (item : DataItem) : Int :=
  key.utf8ByteSize + item.value.utf8ByteSize + 64

def setSize (key : String) (items : List DataItem) : Int :=
  items.foldl (fun total item => total + estimatedSize key item) 0

/-- The sorted table, its estimated size so far, and the size at which it asks to be
flushed. -/
structure MemTable where
  tree : Std.ExtTreeMap String (List DataItem)
  sizeSoFar : Int
  maxBytes : Int
deriving DecidableEq

namespace MemTable

def new (maxBytes : Int) : MemTable :=
  ⟨∅, 0, maxBytes⟩

/-- A key's siblings, newest first, or the empty list. -/
def current (m : MemTable) (key : String) : List DataItem :=
  m.tree.getD key []

/-- The unexported `replace` : install `items` and adjust the size by the difference. -/
def install (m : MemTable) (key : String) (old items : List DataItem) : MemTable :=
  { m with
    tree := m.tree.insert key items
    sizeSoFar := m.sizeSoFar + (setSize key items - setSize key old) }

/-- Merge a version in. The source appends a survivor and then moves it to the front; it
knows the item it was given by its address, here by whether `resolve` let it survive. -/
def put (m : MemTable) (key : String) (item : DataItem) : MemTable × Bool :=
  let old := m.current key
  let r := old.foldl (resolveStep item) ([], true)
  let items := if r.2 then item :: r.1 else r.1
  let m' := m.install key old items
  (m', m'.sizeSoFar ≥ m'.maxBytes)

/-- The keys of `entries` in order of first appearance, and each key's versions. -/
def groupEntries (entries : List Entry) :
    List String × Std.ExtTreeMap String (List DataItem) :=
  entries.foldl
    (fun (acc : List String × Std.ExtTreeMap String (List DataItem)) e =>
      (if e.key ∈ acc.2 then acc.1 else acc.1 ++ [e.key],
       acc.2.insert e.key (acc.2.getD e.key [] ++ [e.item])))
    ([], ∅)

/-- Merge entries older than the whole table behind each key's versions. -/
def putBackOlder (m : MemTable) (entries : List Entry) : MemTable :=
  let g := groupEntries entries
  g.1.foldl
    (fun m key => m.install key (m.current key)
      (mergeSiblings (m.current key) (g.2.getD key [])))
    m

/-- Install `items` verbatim, or remove the key when there are none. -/
def replace (m : MemTable) (key : String) (items : List DataItem) : MemTable :=
  let old := m.current key
  if items.isEmpty then
    { m with tree := m.tree.erase key, sizeSoFar := m.sizeSoFar - setSize key old }
  else m.install key old items

def keys (m : MemTable) : List String :=
  m.tree.keys

def getAll (m : MemTable) (key : String) : Option (List DataItem) :=
  let items := m.current key
  if items.isEmpty then none else some items

/-- Every version as one entry, keys sorted, each key's siblings newest first. -/
def snapshot (m : MemTable) : List Entry :=
  m.tree.toList.flatMap fun kv => kv.2.map (Entry.mk kv.1)

@[simp] theorem current_new (maxBytes : Int) (key : String) : (new maxBytes).current key = [] := by
  simp [new, current]

theorem current_install (m : MemTable) (key : String) (old items : List DataItem) (k : String) :
    (m.install key old items).current k = if k = key then items else m.current k := by
  simp only [install, current, Std.ExtTreeMap.getD_insert, Std.compare_eq_iff_eq, eq_comm (a := k)]

theorem current_replace (m : MemTable) (key : String) (items : List DataItem) (k : String) :
    (m.replace key items).current k = if k = key then items else m.current k := by
  unfold replace
  split
  · next h =>
    rw [List.isEmpty_iff.mp h]
    simp only [current, Std.ExtTreeMap.getD_erase, Std.compare_eq_iff_eq, eq_comm (a := k)]
  · exact current_install ..

theorem getAll_getD (m : MemTable) (key : String) : (m.getAll key).getD [] = m.current key := by
  simp only [getAll]
  split
  · next h => simpa using h.symm
  · rfl

/-! ## Putting -/

theorem current_put_of_ne (m : MemTable) {key k : String} (item : DataItem) (h : k ≠ key) :
    (m.put key item).1.current k = m.current k := by
  simp [put, current_install, h]

theorem current_put_self (m : MemTable) (key : String) (item : DataItem) :
    (m.put key item).1.current key =
      if Covers vectorClock (m.current key) item.vectorClock then
        (m.current key).filter fun y => ¬y.vectorClock < item.vectorClock
      else item :: (m.current key).filter fun y => ¬y.vectorClock < item.vectorClock := by
  simp only [put, current_install, foldl_resolveStep, if_true]
  by_cases h : Covers vectorClock (m.current key) item.vectorClock
  · have hany : ((m.current key).any fun y => item.vectorClock ≤ y.vectorClock) = true := by
      simpa [Covers] using h
    simp [h, hany]
  · have hany : ((m.current key).any fun y => item.vectorClock ≤ y.vectorClock) = false := by
      simpa [Covers] using h
    simp [h, hany]

/-- Putting a version that the key already covers changes nothing a fold can see. -/
theorem keepMax_current_put_of_covers (m : MemTable) {key : String} {item : DataItem}
    (h : Covers vectorClock (m.current key) item.vectorClock) :
    keepMax vectorClock ((m.put key item).1.current key) = keepMax vectorClock (m.current key) := by
  rw [current_put_self, if_pos h, ← filter_keepMax (upper_not_lt item)]
  refine List.filter_eq_self.mpr fun y hy => ?_
  obtain ⟨z, hz, hle⟩ := h
  have := not_lt_of_mem_keepMax hy hz
  simpa using fun hlt => this (lt_of_lt_of_le hlt hle)

/-- Otherwise the fold sees the version in front of the rest. -/
theorem keepMax_current_put_of_not_covers (m : MemTable) {key : String} {item : DataItem}
    (h : ¬Covers vectorClock (m.current key) item.vectorClock) :
    keepMax vectorClock ((m.put key item).1.current key) =
      keepMax vectorClock (item :: m.current key) := by
  have hlt : ∀ y ∈ m.current key, ¬item.vectorClock < y.vectorClock :=
    fun y hy hlt => h ⟨y, hy, hlt.le⟩
  rw [current_put_self, if_neg h, keepMax_cons_of_not_lt fun y hy => hlt y (List.mem_filter.mp hy).1,
    keepMax_cons_of_not_lt hlt, ← filter_keepMax (upper_not_lt item), List.filter_filter]
  congr 1
  refine List.filter_congr fun y _ => ?_
  by_cases hle : y.vectorClock ≤ item.vectorClock
  · simp [hle]
  · have : ¬y.vectorClock < item.vectorClock := fun hlt => hle hlt.le
    simp [hle, this]

theorem mem_current_put {m : MemTable} {key k : String} {item v : DataItem}
    (h : v ∈ (m.put key item).1.current k) : v ∈ m.current k ∨ (k = key ∧ v = item) := by
  by_cases hk : k = key
  · subst hk
    rw [current_put_self] at h
    split at h
    · exact Or.inl (List.mem_filter.mp h).1
    · rcases List.mem_cons.mp h with rfl | h
      · exact Or.inr ⟨rfl, rfl⟩
      · exact Or.inl (List.mem_filter.mp h).1
  · exact Or.inl (current_put_of_ne m item hk ▸ h)

/-- After a put the key covers the version put and all it covered before. -/
theorem covers_current_put_self (m : MemTable) (key : String) (item : DataItem) (c : VectorClock) :
    Covers vectorClock ((m.put key item).1.current key) c ↔
      Covers vectorClock (m.current key) c ∨ c ≤ item.vectorClock := by
  rw [← covers_keepMax]
  by_cases h : Covers vectorClock (m.current key) item.vectorClock
  · rw [keepMax_current_put_of_covers m h, covers_keepMax]
    exact ⟨Or.inl, fun hc => hc.elim id h.of_le⟩
  · rw [keepMax_current_put_of_not_covers m h, covers_keepMax, ← List.singleton_append,
      covers_append, or_comm]
    simp [Covers]

/-! ## Putting back -/

theorem groupEntries_concat (entries : List Entry) (e : Entry) :
    groupEntries (entries ++ [e]) =
      (if e.key ∈ (groupEntries entries).2 then (groupEntries entries).1
        else (groupEntries entries).1 ++ [e.key],
       (groupEntries entries).2.insert e.key
        ((groupEntries entries).2.getD e.key [] ++ [e.item])) := by
  rw [groupEntries, List.foldl_append]
  rfl

/-- The groups hold each key once, and under it its versions in order. -/
theorem groupEntries_spec (entries : List Entry) :
    (groupEntries entries).1.Nodup ∧
    (∀ k, k ∈ (groupEntries entries).1 ↔ k ∈ (groupEntries entries).2) ∧
    (∀ k, k ∉ (groupEntries entries).2 → itemsOf entries k = []) ∧
    ∀ k, (groupEntries entries).2.getD k [] = itemsOf entries k := by
  induction entries using List.reverseRecOn with
  | nil => simp [groupEntries, itemsOf]
  | append_singleton entries e ih =>
    obtain ⟨hnodup, hkeys, hnone, hget⟩ := ih
    rw [groupEntries_concat]
    refine ⟨?_, fun k => ?_, fun k hk => ?_, fun k => ?_⟩
    · by_cases he : e.key ∈ (groupEntries entries).2
      · simpa [he] using hnodup
      · have : e.key ∉ (groupEntries entries).1 := fun h => he ((hkeys _).mp h)
        simpa [he] using List.nodup_append.mpr
          ⟨hnodup, by simp, fun a ha b hb => by
            obtain rfl := List.mem_singleton.mp hb
            exact fun hab => this (hab ▸ ha)⟩
    · by_cases he : e.key ∈ (groupEntries entries).2
      · have hor : e.key = k → k ∈ (groupEntries entries).2 := fun h => h ▸ he
        simp only [he, if_true, hkeys, Std.ExtTreeMap.mem_insert, Std.compare_eq_iff_eq]
        tauto
      · simp only [he, if_false, List.mem_append, List.mem_singleton, hkeys,
          Std.ExtTreeMap.mem_insert, Std.compare_eq_iff_eq]
        tauto
    · simp only [Std.ExtTreeMap.mem_insert, Std.compare_eq_iff_eq, not_or] at hk
      rw [itemsOf_append, hnone k hk.2]
      simp [itemsOf, hk.1]
    · simp only [Std.ExtTreeMap.getD_insert, Std.compare_eq_iff_eq]
      by_cases hk : e.key = k
      · subst hk
        simp [hget, itemsOf]
      · simp [hget, itemsOf, hk]

theorem mem_groupEntries {entries : List Entry} {k : String} :
    k ∈ (groupEntries entries).2 ↔ ∃ e ∈ entries, e.key = k := by
  induction entries using List.reverseRecOn with
  | nil => simp [groupEntries]
  | append_singleton entries e ih =>
    rw [groupEntries_concat, Std.ExtTreeMap.mem_insert, ih]
    simp only [Std.compare_eq_iff_eq, List.mem_append, List.mem_singleton, or_and_right, exists_or,
      exists_eq_left, or_comm]

theorem current_foldl_install (older : String → List DataItem) : ∀ (ks : List String) (m : MemTable),
    ks.Nodup → ∀ k, (ks.foldl (fun m key => m.install key (m.current key)
        (mergeSiblings (m.current key) (older key))) m).current k =
      if k ∈ ks then mergeSiblings (m.current k) (older k) else m.current k
  | [], m, _, k => by simp
  | key :: ks, m, hnd, k => by
    obtain ⟨hnot, hnd'⟩ := List.nodup_cons.mp hnd
    rw [List.foldl_cons, current_foldl_install older ks _ hnd' k]
    by_cases hk : k = key
    · subst hk
      simp [hnot, current_install]
    · simp [hk, current_install]

/-- Each key's versions are folded in behind what the table had. -/
theorem current_putBackOlder (m : MemTable) (entries : List Entry) (k : String) :
    (m.putBackOlder entries).current k = mergeSiblings (m.current k) (itemsOf entries k) := by
  obtain ⟨hnodup, hkeys, hnone, hget⟩ := groupEntries_spec entries
  simp only [putBackOlder]
  rw [current_foldl_install (fun key => (groupEntries entries).2.getD key []) _ _ hnodup]
  split
  · rw [hget]
  · next h => rw [hnone k fun hk => h ((hkeys k).mpr hk)]; rfl

/-! ## Snapshots -/

theorem itemsOf_map_mk (k key : String) (items : List DataItem) :
    itemsOf (items.map (Entry.mk k)) key = if k = key then items else [] := by
  by_cases h : k = key
  · simp [itemsOf, h, List.filter_map, Function.comp_def]
  · simp [itemsOf, h, List.filter_map, Function.comp_def]

theorem itemsOf_flatMap {k : String} : ∀ {l : List (String × List DataItem)},
    (l.map Prod.fst).Nodup →
    (∀ items, (k, items) ∈ l →
      itemsOf (l.flatMap fun kv => kv.2.map (Entry.mk kv.1)) k = items) ∧
    (k ∉ l.map Prod.fst → itemsOf (l.flatMap fun kv => kv.2.map (Entry.mk kv.1)) k = [])
  | [], _ => ⟨by simp, by simp [itemsOf]⟩
  | (k', items') :: l, hnd => by
    obtain ⟨hnot, hnd'⟩ := List.nodup_cons.mp hnd
    obtain ⟨ihmem, ihnot⟩ := itemsOf_flatMap (k := k) hnd'
    rw [List.flatMap_cons, itemsOf_append, itemsOf_map_mk]
    refine ⟨fun items hmem => ?_, fun hk => ?_⟩
    · rcases List.mem_cons.mp hmem with h | hmem
      · cases h
        rw [if_pos rfl, ihnot hnot, List.append_nil]
      · have hne : k' ≠ k := fun h => hnot (List.mem_map.mpr ⟨_, hmem, h.symm⟩)
        rw [if_neg hne, ihmem items hmem, List.nil_append]
    · rw [List.map_cons, List.mem_cons, not_or] at hk
      rw [if_neg (Ne.symm hk.1), ihnot hk.2, List.nil_append]

/-- A snapshot holds exactly each key's versions, in order. -/
theorem itemsOf_snapshot (m : MemTable) (k : String) : itemsOf m.snapshot k = m.current k := by
  have hnd : (m.tree.toList.map Prod.fst).Nodup := by
    rw [Std.ExtTreeMap.map_fst_toList_eq_keys]
    exact Std.ExtTreeMap.nodup_keys
  obtain ⟨hmem, hnot⟩ := itemsOf_flatMap (k := k) hnd
  rw [snapshot, current, Std.ExtTreeMap.getD_eq_getD_getElem?]
  cases hg : m.tree[k]? with
  | some items => exact hmem items (Std.ExtTreeMap.mem_toList_iff_getElem?_eq_some.mpr hg)
  | none =>
    refine hnot fun hk => ?_
    rw [Std.ExtTreeMap.map_fst_toList_eq_keys, Std.ExtTreeMap.mem_keys] at hk
    exact absurd hg (by simpa using hk)

end MemTable

end DistributedKV
