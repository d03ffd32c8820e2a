import DistributedKV.Layers

/-!
# The versioning store of one node

`DataStore` turns a client's write into a version : its clock is the context with one
more event of the store's own entry, the context being the client's, or the union of
what is stored when the client gave none. Reads return a key's versions oldest first.

Two results describe what a write does to the versions already there.
`put_context_keeps_iff` : a Put with a client's context shows its item and hides only
what the context has seen exactly when every visible version fits beside it
(`FitsBeside`); a context that is stale or names other nodes' counters need not fit
(`put_context_vanishes_and_hides`). `put_supersedes_iff` : a Put built on what is stored
leaves exactly its own item unless a stored counter of this store is at its end
(`put_wraps_at_counterMax`).
-/

open Maxima

namespace DistributedKV

open DataItem (vectorClock)

/-- `id` names the node in the items it writes, `clockID` names it in their clocks. -/
structure DataStore where
  id : String
  clockID : String
  persister : Layers
deriving DecidableEq

/-- Which of the persister's operations fail during a call. -/
structure Faults where
  read : Bool
  write : Bool

def noFaults : Faults :=
  ⟨false, false⟩

namespace DataStore

/-- A key's versions, oldest first. -/
def versions (ds : DataStore) (key : String) : List DataItem :=
  (ds.persister.getAll key).reverse

/-- Every key the persister holds, tombstoned ones included. -/
def keys (ds : DataStore) (faults : Faults) : Option (List String) :=
  if faults.read then none else some ds.persister.keys

/-- Read a key's versions from the persister. -/
def load (ds : DataStore) (faults : Faults) (key : String) : Option (List DataItem) :=
  if faults.read then none else some (ds.versions key)

def get (ds : DataStore) (faults : Faults) (key : String) : Option (List DataItem) :=
  ds.load faults key

/-- The causal base of a Put : the client's context, or the union of what is stored. -/
def putBase (ds : DataStore) (faults : Faults) (key : String) (context : Option Snapshot) :
    Option Snapshot :=
  match context with
  | some base => some base
  | none =>
    match ds.load faults key with
    | none => none
    | some existing => some (if existing.isEmpty then ∅ else unionVectorClock existing)

/-- The version a Put builds on a base. -/
def incoming (ds : DataStore) (value : String) (base : Snapshot) : DataItem :=
  { value := value
    vectorClock := VectorClock.buildFromContext base ds.clockID
    lastUpdatedBy := ds.id
    isDeleted := false }

/-- Write `value` as a new version of `key`; nothing when it could not be persisted. -/
def put (ds : DataStore) (faults : Faults) (key value : String) (context : Option Snapshot) :
    Option DataItem × DataStore :=
  match ds.putBase faults key context with
  | none => (none, ds)
  | some base =>
    if faults.write then (none, ds)
    else (some (ds.incoming value base),
      { ds with persister := ds.persister.put key (ds.incoming value base) })

/-- Overwrite a key's versions, given oldest first. -/
def restoreVersions (ds : DataStore) (key : String) (items : List DataItem) : DataStore :=
  { ds with persister := ds.persister.restore key items.reverse }

/-- Merge a version that came from another node. -/
def mergeReplicated (ds : DataStore) (faults : Faults) (key : String) (item : DataItem) :
    Bool × DataStore :=
  if faults.write then (false, ds)
  else (true, { ds with persister := ds.persister.put key item })

end DataStore

/-- The context of a client's Put : unset stays unset, a set one is taken as it is. -/
def contextFromProto (c : Option Snapshot) : Option Snapshot :=
  c.map fun entries => entries

/-- The context a client's Get returns : the union over all versions, deleted or not. -/
def clientGetContext (items : List DataItem) : Option Snapshot :=
  some (unionVectorClock items)

namespace DataStore

theorem mem_versions {ds : DataStore} {key : String} {v : DataItem} :
    v ∈ ds.versions key ↔ v ∈ ds.persister.getAll key :=
  List.mem_reverse

theorem keys_eq_some {ds : DataStore} {faults : Faults} {keys : List String}
    (h : ds.keys faults = some keys) : keys = ds.persister.keys := by
  unfold DataStore.keys at h
  split at h
  · cases h
  · exact (Option.some.inj h).symm

theorem get_eq_some {ds : DataStore} {faults : Faults} {key : String}
    {items : List DataItem} (h : ds.get faults key = some items) : items = ds.versions key := by
  unfold DataStore.get DataStore.load at h
  split at h
  · cases h
  · exact (Option.some.inj h).symm

theorem put_eq_some {ds ds' : DataStore} {faults : Faults} {key value : String}
    {context : Option Snapshot} {item : DataItem}
    (h : ds.put faults key value context = (some item, ds')) :
    ∃ base, ds.putBase faults key context = some base ∧ item = ds.incoming value base ∧
      ds' = { ds with persister := ds.persister.put key item } := by
  unfold put at h
  split at h
  · simp at h
  · next base hbase =>
    split at h
    · simp at h
    · obtain ⟨hitem, hds⟩ := Prod.mk.inj h
      cases hitem
      exact ⟨base, hbase, rfl, hds.symm⟩

/-! ## A Put with a client's context -/

/-- The counters of `v` are at most the context's, the store's own at most one more. -/
def AtMost (context : Snapshot) (clockID : String) (v : DataItem) : Prop :=
  ∀ n, v.vectorClock.entry n ≤ if n = clockID then context.at n + 1 else context.at n

/-- The counters of `v` are at least the context's, the store's own at least one more. -/
def AtLeast (context : Snapshot) (clockID : String) (v : DataItem) : Prop :=
  ∀ n, (if n = clockID then context.at n + 1 else context.at n) ≤ v.vectorClock.entry n

/-- `v` is what writing `value` on top of `context` produces. -/
def IsWriteOf (ds : DataStore) (value : String) (context : Snapshot) (v : DataItem) : Prop :=
  v.value = value ∧ v.vectorClock.state = context.insert ds.clockID (context.at ds.clockID + 1) ∧
    v.lastUpdatedBy = ds.id ∧ v.isDeleted = false

/-- A visible version that a write of `value` on `context` leaves alone or has seen : it
is that very write, or neither at most nor at least the context with one more own event,
or it is in the context (and no such version of the active memtable stops the write). -/
def FitsBeside (ds : DataStore) (key value : String) (context : Snapshot) (v : DataItem) : Prop :=
  IsWriteOf ds value context v ∨
    (¬AtMost context ds.clockID v ∧ ¬AtLeast context ds.clockID v) ∨
    (AtMost context ds.clockID v ∧ v.vectorClock ≤ VectorClock.fromSnapshot context ∧
      (AtLeast context ds.clockID v →
        ∀ w ∈ ds.persister.active.current key, ¬AtLeast context ds.clockID w))

theorem atMost_iff {context : Snapshot} {clockID : String} {v : DataItem} :
    AtMost context clockID v ↔ v.vectorClock ≤ VectorClock.buildFromContext context clockID := by
  refine forall_congr' fun n => ?_
  rw [VectorClock.entry_buildFromContext]
  by_cases h : n = clockID
  · subst h; rfl
  · simp [h]

theorem atLeast_iff {context : Snapshot} {clockID : String} {v : DataItem} :
    AtLeast context clockID v ↔ VectorClock.buildFromContext context clockID ≤ v.vectorClock := by
  refine forall_congr' fun n => ?_
  rw [VectorClock.entry_buildFromContext]
  by_cases h : n = clockID
  · subst h; rfl
  · simp [h]

theorem isWriteOf_iff {ds : DataStore} {value : String} {context : Snapshot} {v : DataItem} :
    IsWriteOf ds value context v ↔ v = ds.incoming value context := by
  obtain ⟨value', ⟨state⟩, by', deleted⟩ := v
  simp [IsWriteOf, incoming, VectorClock.buildFromContext, VectorClock.increment,
    VectorClock.fromSnapshot]

instance (context : Snapshot) (clockID : String) (v : DataItem) :
    Decidable (AtMost context clockID v) :=
  decidable_of_iff _ atMost_iff.symm

instance (context : Snapshot) (clockID : String) (v : DataItem) :
    Decidable (AtLeast context clockID v) :=
  decidable_of_iff _ atLeast_iff.symm

instance (ds : DataStore) (key value : String) (context : Snapshot) (v : DataItem) :
    Decidable (FitsBeside ds key value context v) :=
  have : Decidable (IsWriteOf ds value context v) := decidable_of_iff _ isWriteOf_iff.symm
  inferInstanceAs (Decidable (_ ∨ _ ∨ _))

/-- A Put with a client's context shows its item and keeps every version the context has
not seen exactly when every visible version fits beside it. -/
theorem put_context_keeps_iff {ds ds' : DataStore} {faults : Faults} {key value : String}
    {context : Snapshot} {item : DataItem}
    (h : ds.put faults key value (some context) = (some item, ds')) :
    (item ∈ ds'.versions key ∧
      ∀ v ∈ ds.versions key, ¬v.vectorClock ≤ VectorClock.fromSnapshot context →
        v ∈ ds'.versions key) ↔
    ∀ v ∈ ds.versions key, FitsBeside ds key value context v := by
  obtain ⟨base, hbase, rfl, rfl⟩ := put_eq_some h
  obtain rfl : context = base := Option.some.inj hbase
  simp only [mem_versions, FitsBeside, isWriteOf_iff, atMost_iff, atLeast_iff]
  exact ds.persister.put_keeps_iff key (ds.incoming value context)
    fun v => v.vectorClock ≤ VectorClock.fromSnapshot context

/-- An empty store of node `A`. -/
def empty : DataStore :=
  ⟨"A", "A", ⟨MemTable.new 1000, none, []⟩⟩

/-- The same store after one Put without a context : it holds one version at `{A: 1}`. -/
def afterFirst : DataStore :=
  (empty.put noFaults "k" "first" none).2

/-- The context a Get of that store returns. -/
def latestContext : Snapshot :=
  unionVectorClock (afterFirst.versions "k")

theorem put_context_keeps_latest :
    (afterFirst.put noFaults "k" "second" (some latestContext)).1 =
        some (afterFirst.incoming "second" latestContext) ∧
      afterFirst.incoming "second" latestContext ∈
        (afterFirst.put noFaults "k" "second" (some latestContext)).2.versions "k" := by
  have h : afterFirst.put noFaults "k" "second" (some latestContext) =
      (some (afterFirst.incoming "second" latestContext),
        (afterFirst.put noFaults "k" "second" (some latestContext)).2) := rfl
  exact ⟨rfl, ((put_context_keeps_iff h).mpr (by decide)).1⟩

/-- With an empty context a Put is dropped as Equal to what is there, and with a context
that counts events of another node it hides a version the context has not seen. -/
theorem put_context_vanishes_and_hides :
    (let r := afterFirst.put noFaults "k" "second" (some ∅)
     ∃ item, r.1 = some item ∧ item ∉ r.2.versions "k") ∧
    (let context : Snapshot := (∅ : Snapshot).insert "B" 7
     let r := afterFirst.put noFaults "k" "second" (some context)
     ∃ item, r.1 = some item ∧ item ∈ r.2.versions "k" ∧ ∃ v ∈ afterFirst.versions "k",
      ¬v.vectorClock ≤ VectorClock.fromSnapshot context ∧ v ∉ r.2.versions "k") :=
  ⟨⟨_, rfl, by decide⟩, ⟨_, rfl, by decide, by decide⟩⟩

/-! ## A Put on what is stored -/

/-- The outcome of a Put supersedes what was stored : its item's clock is After every
version, and it is the only version left. -/
def Supersedes (ds : DataStore) (key : String) (outcome : Option DataItem × DataStore) : Prop :=
  ∃ item, outcome.1 = some item ∧
    (∀ v ∈ ds.versions key, item.vectorClock.compare v.vectorClock = .after) ∧
    outcome.2.versions key = [item]

/-- A Put on a base supersedes exactly when the clock it builds is above all versions. -/
theorem supersedes_iff {ds ds' : DataStore} {faults : Faults} {key value : String}
    {context : Option Snapshot} {item : DataItem}
    (h : ds.put faults key value context = (some item, ds')) :
    Supersedes ds key (some item, ds') ↔
      ∀ v ∈ ds.versions key, v.vectorClock < item.vectorClock := by
  obtain ⟨base, hbase, hitem, rfl⟩ := put_eq_some h
  simp only [Supersedes, Option.some.injEq, exists_eq_left', VectorClock.compare_eq_after]
  refine ⟨fun h => h.1, fun h => ⟨h, ?_⟩⟩
  have hlt : ∀ v ∈ ds.persister.getAll key, v.vectorClock < item.vectorClock :=
    fun v hv => h v (mem_versions.mpr hv)
  have hA : ¬Covers vectorClock (ds.persister.active.current key) item.vectorClock := by
    intro hcov
    have hall : Covers vectorClock (ds.persister.items key) item.vectorClock :=
      hcov.mono fun y hy => List.mem_append_left _ hy
    obtain ⟨w, hw, hle⟩ := Layers.covers_getAll.mpr hall
    exact not_le_of_gt (hlt w hw) hle
  rw [versions, Layers.getAll_put_of_not_lt _ hA fun v hv hgt => lt_asymm hgt (hlt v hv)]
  have hnil : ((ds.persister.getAll key).filter fun v =>
      ¬v.vectorClock ≤ item.vectorClock) = [] := by
    simpa using fun v hv => (hlt v hv).le
  rw [hnil]
  rfl

/-- The union of no versions is empty. -/
theorem putBase_none (ds : DataStore) (key : String) :
    ds.putBase noFaults key none = some (unionVectorClock (ds.versions key)) := by
  simp only [putBase, load, noFaults, Bool.false_eq_true, if_false]
  split
  · next h => rw [List.isEmpty_iff.mp h]; rfl
  · rfl

/-- Both a Put without a context and one with the context a client's Get returned
supersede what is stored exactly when no stored version has this store's counter at its
end. -/
theorem put_supersedes_iff (ds : DataStore) (key value : String) :
    (Supersedes ds key (ds.put noFaults key value none) ∧
      Supersedes ds key (ds.put noFaults key value
        (contextFromProto (clientGetContext (ds.versions key))))) ↔
    ∀ v ∈ ds.versions key, v.vectorClock.entry ds.clockID ≠ VectorClock.counterMax := by
  have hput : ds.put noFaults key value none =
      ds.put noFaults key value (contextFromProto (clientGetContext (ds.versions key))) := by
    unfold put
    rw [putBase_none]
    rfl
  have hres : ds.put noFaults key value none =
      (some (ds.incoming value (unionVectorClock (ds.versions key))),
        (ds.put noFaults key value none).2) := by
    unfold put
    rw [putBase_none]
    rfl
  rw [← hput, and_self, ← union_supersedes_iff, hres]
  exact supersedes_iff hres

/-- A client's context may carry any counter, here the last but one. -/
def topContext : Snapshot :=
  (∅ : Snapshot).insert "A" 4294967294

/-- A Put on that context reaches the end of the counter; the next Put starts it again at
zero, is below what is stored and is dropped. -/
theorem put_wraps_at_counterMax :
    let ds := (empty.put noFaults "k" "first" (some topContext)).2
    let r := ds.put noFaults "k" "second" none
    (∃ item, r.1 = some item ∧ item ∉ r.2.versions "k") ∧ ¬Supersedes ds "k" r := by
  refine ⟨⟨_, rfl, by decide⟩, ?_⟩
  rintro ⟨item, hitem, -, hone⟩
  cases hitem
  exact absurd hone (by decide)

end DataStore

end DistributedKV
