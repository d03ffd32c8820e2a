import DistributedKV.MemTable

/-!
# SSTables and size-tiered compaction

An SSTable is an immutable list of entries under an ID, with the size of its file.
`selectTierForCompaction` picks the longest run of at least four adjacent SSTables of one
size tier, `merge` folds the run's entries key by key, newest table first, and
`replaceRun` puts the merged table where the run stood.

`itemsOf_merge` : the merged table holds, for every key, the fold of the run's versions.
`selectTierForCompaction_infix` : what is selected is a contiguous part of the list.
-/

open Maxima

namespace DistributedKV

open DataItem (vectorClock)

/-- An SSTable : its ID, its entries sorted by key with each key's siblings newest first,
and the size of its file in bytes. -/
structure SSTable where
  id : String
  entries : List Entry
  size : Nat
deriving DecidableEq

/-- A key's versions, in file order. The range check and the Bloom filter of the source
only save reads : neither rules out a key that is there. -/
def SSTable.getAll (sst : SSTable) (key : String) : Option (List DataItem) :=
  let items := itemsOf sst.entries key
  if items.isEmpty then none else some items

/-- The table's keys in file order. The index is sorted, so a repeated key follows itself. -/
def SSTable.keys (sst : SSTable) : List String :=
  sst.entries.foldl (fun keys e => if keys.getLast? = some e.key then keys else keys ++ [e.key]) []

theorem mem_foldl_keys {k : String} : ∀ {entries : List Entry} {keys : List String},
    k ∈ entries.foldl (fun keys e =>
        if keys.getLast? = some e.key then keys else keys ++ [e.key]) keys ↔
      k ∈ keys ∨ ∃ e ∈ entries, e.key = k
  | [], keys => by simp
  | e :: entries, keys => by
    rw [List.foldl_cons, mem_foldl_keys]
    split
    · next h =>
      have hmem : e.key ∈ keys := List.mem_of_getLast? h
      constructor
      · rintro (h | ⟨e', he', rfl⟩)
        · exact Or.inl h
        · exact Or.inr ⟨e', List.mem_cons_of_mem _ he', rfl⟩
      · rintro (h | ⟨e', he', rfl⟩)
        · exact Or.inl h
        · rcases List.mem_cons.mp he' with rfl | he'
          · exact Or.inl hmem
          · exact Or.inr ⟨e', he', rfl⟩
    · rw [List.mem_append, List.mem_singleton, or_assoc]
      simp [eq_comm (a := k)]

theorem SSTable.mem_keys {sst : SSTable} {k : String} :
    k ∈ sst.keys ↔ ∃ e ∈ sst.entries, e.key = k := by
  simp [SSTable.keys, mem_foldl_keys]

/-- The versions of `key` over a list of SSTables, in order. -/
def tableItems (sstables : List SSTable) (key : String) : List DataItem :=
  sstables.flatMap fun sst => itemsOf sst.entries key

@[simp] theorem tableItems_nil (key : String) : tableItems [] key = [] :=
  rfl

@[simp] theorem tableItems_cons (sst : SSTable) (l : List SSTable) (key : String) :
    tableItems (sst :: l) key = itemsOf sst.entries key ++ tableItems l key :=
  rfl

@[simp] theorem tableItems_append (a b : List SSTable) (key : String) :
    tableItems (a ++ b) key = tableItems a key ++ tableItems b key := by
  simp [tableItems]

theorem mem_tableItems {l : List SSTable} {key : String} {v : DataItem} :
    v ∈ tableItems l key ↔ ∃ sst ∈ l, v ∈ itemsOf sst.entries key := by
  simp [tableItems]

/-! ## Choosing a run -/

def minTierSize : Nat :=
  4

/-- The loop of `tierOf`, cut off after `fuel` rounds. -/
def tierLoop : Nat → Nat → Nat → Nat
  | 0, _, tier => tier
  | fuel + 1, size, tier => if size ≥ 1000 then tierLoop fuel (size / 10) (tier + 1) else tier

/-- A file's size tier : under 1,000 bytes is tier 0, and each tier is ten times the one
before. -/
def tierOf (size : Nat) : Nat :=
  tierLoop size size 0

/-- The loop of `selectTierForCompaction` : take the maximal run of one tier off the front
and keep it if it beats the best so far. -/
def selectLoop : Nat → List SSTable → List SSTable → List SSTable
  | 0, best, _ => best
  | _ + 1, best, [] => best
  | fuel + 1, best, first :: rest =>
    let (same, later) := rest.span fun sst => tierOf sst.size = tierOf first.size
    let run := first :: same
    let best' := if run.length ≥ minTierSize ∧ run.length > best.length then run else best
    selectLoop fuel best' later

/-- The run to compact next, or the empty list. -/
def selectTierForCompaction (sstables : List SSTable) : List SSTable :=
  selectLoop sstables.length [] sstables

theorem selectLoop_cases : ∀ (fuel : Nat) (best l : List SSTable),
    selectLoop fuel best l = best ∨
      (selectLoop fuel best l <:+: l ∧ minTierSize ≤ (selectLoop fuel best l).length)
  | 0, best, l => Or.inl rfl
  | fuel + 1, best, [] => Or.inl rfl
  | fuel + 1, best, first :: rest => by
    unfold selectLoop
    rw [List.span_eq_takeWhile_dropWhile]
    set p : SSTable → Bool := fun sst => tierOf sst.size = tierOf first.size
    have hsplit : first :: rest = first :: rest.takeWhile p ++ rest.dropWhile p := by
      rw [List.cons_append, List.takeWhile_append_dropWhile]
    have hlater : rest.dropWhile p <:+: first :: rest :=
      hsplit ▸ (List.suffix_append _ _).isInfix
    simp only
    split
    · next h =>
      rcases selectLoop_cases fuel (first :: rest.takeWhile p) (rest.dropWhile p) with heq | ⟨hin, hlen⟩
      · rw [heq]
        exact Or.inr ⟨hsplit ▸ (List.prefix_append _ _).isInfix, h.1⟩
      · exact Or.inr ⟨hin.trans hlater, hlen⟩
    · rcases selectLoop_cases fuel best (rest.dropWhile p) with heq | ⟨hin, hlen⟩
      · exact Or.inl heq
      · exact Or.inr ⟨hin.trans hlater, hlen⟩

/-- The selected run is empty, or at least four SSTables that stand side by side. -/
theorem selectTierForCompaction_infix (sstables : List SSTable) :
    selectTierForCompaction sstables = [] ∨
      (selectTierForCompaction sstables <:+: sstables ∧
        minTierSize ≤ (selectTierForCompaction sstables).length) :=
  selectLoop_cases _ _ _

/-! ## Merging a run -/

/-- The map `merge` builds : every entry folded into its key's versions. -/
def mergeByKey (entries : List Entry) : Std.ExtTreeMap String (List DataItem) :=
  entries.foldl (fun byKey e => byKey.insert e.key (mergeSiblings (byKey.getD e.key []) [e.item])) ∅

/-- Fold the entries of all sources, newest source first, and list the result by key. -/
def merge (sources : List SSTable) : List Entry :=
  let byKey := mergeByKey (sources.flatMap SSTable.entries)
  byKey.keys.flatMap fun k => (byKey.getD k []).map (Entry.mk k)

theorem getD_mergeByKey (entries : List Entry) (k : String) :
    (mergeByKey entries).getD k [] = keepMax vectorClock (itemsOf entries k) := by
  induction entries using List.reverseRecOn with
  | nil => simp [mergeByKey, itemsOf]
  | append_singleton entries e ih =>
    -- the last entry is folded into what the earlier ones left under its key
    have hstep : mergeByKey (entries ++ [e]) = (mergeByKey entries).insert e.key
        (mergeSiblings ((mergeByKey entries).getD e.key []) [e.item]) := by
      rw [mergeByKey, List.foldl_append]
      rfl
    rw [hstep, Std.ExtTreeMap.getD_insert, itemsOf_append]
    by_cases hk : e.key = k
    · subst hk
      simp [ih, itemsOf, mergeSiblings_keepMax]
    · simp [ih, itemsOf, hk]

theorem itemsOf_flatMap_entries (sources : List SSTable) (k : String) :
    itemsOf (sources.flatMap SSTable.entries) k = tableItems sources k := by
  induction sources with
  | nil => rfl
  | cons s l ih => rw [List.flatMap_cons, itemsOf_append, ih, tableItems_cons]

/-- The merged table holds for each key the fold of the sources' versions. -/
theorem itemsOf_merge (sources : List SSTable) (k : String) :
    itemsOf (merge sources) k = keepMax vectorClock (tableItems sources k) := by
  set byKey := mergeByKey (sources.flatMap SSTable.entries) with hbyKey
  have hget : byKey.getD k [] = keepMax vectorClock (tableItems sources k) := by
    rw [hbyKey, getD_mergeByKey, itemsOf_flatMap_entries]
  have hpairs : merge sources =
      (byKey.keys.map fun k => (k, byKey.getD k [])).flatMap fun kv => kv.2.map (Entry.mk kv.1) := by
    rw [List.flatMap_map]
    rfl
  have hnd : ((byKey.keys.map fun k => (k, byKey.getD k [])).map Prod.fst).Nodup := by
    simpa [Function.comp_def] using Std.ExtTreeMap.nodup_keys (t := byKey)
  obtain ⟨hmem, hnot⟩ := MemTable.itemsOf_flatMap (k := k) hnd
  rw [hpairs, ← hget]
  by_cases hk : k ∈ byKey
  · exact hmem _ (List.mem_map.mpr ⟨k, Std.ExtTreeMap.mem_keys.mpr hk, rfl⟩)
  · rw [Std.ExtTreeMap.getD_eq_fallback hk]
    exact hnot (by simpa [Function.comp_def] using hk)

/-! ## Putting the merged table in place -/

/-- Replace `run`, found by its first table, with `merged`; nothing if `run` is not there
intact. -/
def replaceRun (run : List SSTable) (merged : SSTable) : List SSTable → Option (List SSTable)
  | [] => none
  | sst :: rest =>
    if run.head? = some sst then
      if (sst :: rest).take run.length = run then
        some (merged :: (sst :: rest).drop run.length)
      else none
    else (replaceRun run merged rest).map (sst :: ·)

/-- What a replacement looks like. -/
theorem replaceRun_eq_some {run : List SSTable} {merged : SSTable} : ∀ {l swapped : List SSTable},
    replaceRun run merged l = some swapped →
      ∃ front back, l = front ++ run ++ back ∧ swapped = front ++ merged :: back
  | [], swapped, h => by simp [replaceRun] at h
  | sst :: rest, swapped, h => by
    simp only [replaceRun] at h
    split at h
    · split at h
      · next htake =>
        refine ⟨[], (sst :: rest).drop run.length, ?_, (Option.some.inj h).symm⟩
        calc sst :: rest
            = (sst :: rest).take run.length ++ (sst :: rest).drop run.length :=
              (List.take_append_drop _ _).symm
          _ = [] ++ run ++ (sst :: rest).drop run.length := by rw [htake, List.nil_append]
      · simp at h
    · obtain ⟨swapped', hs, rfl⟩ := Option.map_eq_some_iff.mp h
      obtain ⟨front, back, rfl, rfl⟩ := replaceRun_eq_some hs
      exact ⟨sst :: front, back, rfl, rfl⟩

end DistributedKV
