import DistributedKV.HappenedBefore
import DistributedKV.AntiEntropy

/-!
# What clocks and siblings mean

Stores that write versions of their own and take over versions of others, in any order and
any number of times : replication, hints, anti-entropy and handoff all deliver versions that
some store wrote (`Replicas`). A write knows of the writes its base was made from, all the
store knows of or all the client had read (`Write.past`), and a store comes to know what
arrives with a version.

`clock_order` : Compare tells exactly how two writes of a key relate. One is Before the other
when the other knew of it, they are Equal only if they are the same write, and Concurrent
when neither knew of the other. `siblings_exact` : the versions a store holds are the writes
it knows of that no other write it knows of knew of. So stores that know of the same writes
hold the same versions (`same_versions`).

A Put on a client's context is a new write only if the client has read what the store itself
wrote before, which is what `putContext` asks for.
-/

open Maxima HappenedBefore

namespace DistributedKV

open DataItem (vectorClock)

/-! ## Deletes -/

inductive DeleteResult
  | deleted
  | notFound
  | storageError
deriving DecidableEq

namespace DataStore

/-- The version a Delete writes on a base. -/
def tombstone (ds : DataStore) (base : Snapshot) : DataItem :=
  { value := "null"
    vectorClock := VectorClock.buildFromContext base ds.clockID
    lastUpdatedBy := ds.id
    isDeleted := true }

/-- Write a tombstone for a key that has versions. -/
def delete (ds : DataStore) (faults : Faults) (key : String) (context : Option Snapshot) :
    DeleteResult × DataStore :=
  match ds.load faults key with
  | none => (.storageError, ds)
  | some existing =>
    if existing.isEmpty then (.notFound, ds)
    else if faults.write then (.storageError, ds)
    else (.deleted, { ds with
      persister := ds.persister.put key (ds.tombstone (context.getD (unionVectorClock existing))) })

theorem delete_eq {ds ds' : DataStore} {faults : Faults} {key : String}
    (h : ds.delete faults key none = (.deleted, ds')) :
    ds' = { ds with
      persister := ds.persister.put key (ds.tombstone (unionVectorClock (ds.versions key))) } := by
  unfold delete load at h
  split at h
  · cases h
  · next existing hload =>
    split at hload
    · cases hload
    · cases hload
      split at h
      · cases h
      · split at h
        · cases h
        · exact (Prod.mk.inj h).2.symm

end DataStore

theorem DataStore.putBase_eq {ds : DataStore} {faults : Faults} {key : String} {base : Snapshot}
    (h : ds.putBase faults key none = some base) : base = unionVectorClock (ds.versions key) := by
  unfold putBase load at h
  simp only at h
  split at h
  · cases h
  · next existing hload =>
    split at hload
    · cases hload
    · cases hload
      cases h
      split
      · next hempty =>
        rw [List.isEmpty_iff.mp hempty]
        rfl
      · rfl

theorem DataStore.mergeReplicated_noFaults (ds : DataStore) (key : String) (item : DataItem) :
    ds.mergeReplicated noFaults key item =
      (true, { ds with persister := ds.persister.put key item }) :=
  rfl

/-! ## Stores that write and deliver -/

/-- A version with the name its store counts under, and the writes of the key it knows of. -/
structure Write where
  clockID : String
  item : DataItem
  past : Set ℕ

def Write.event (w : Write) : Occurrence String :=
  ⟨w.clockID, fun n => (w.item.vectorClock.entry n).toNat, w.past⟩

/-- The stores, the writes of each key in the order they were made, and what of them each
store knows. -/
structure Replicas where
  stores : String → DataStore
  writes : String → List Write
  known : String → String → Set ℕ

namespace Replicas

/-- What a reader of some versions knows of. -/
def readBy (s : Replicas) (key : String) (items : List DataItem) : Set ℕ :=
  {i | ∃ j w, (s.writes key)[j]? = some w ∧ w.item ∈ items ∧ (i = j ∨ i ∈ w.past)}

/-- A store comes to know of more writes. -/
def learn (s : Replicas) (node key : String) (news : Set ℕ) (ds : DataStore) : Replicas :=
  { s with
    stores := Function.update s.stores node ds
    known := Function.update s.known node
      (Function.update (s.known node) key (s.known node key ∪ news)) }

/-- A store makes a write on what `past` holds. -/
def record (s : Replicas) (node key : String) (item : DataItem) (past : Set ℕ) (ds : DataStore) :
    Replicas :=
  { s.learn node key (insert (s.writes key).length past) ds with
    writes := Function.update s.writes key
      (s.writes key ++ [⟨(s.stores node).clockID, item, past⟩]) }

/-- No counter of the store is at its end. -/
def Room (ds : DataStore) (items : List DataItem) : Prop :=
  ∀ x ∈ items, x.vectorClock.entry ds.clockID ≠ VectorClock.counterMax

inductive Step (s : Replicas) : Replicas → Prop
  | put (node key value : String) (faults : Faults) (item : DataItem) (ds : DataStore)
      (hput : (s.stores node).put faults key value none = (some item, ds))
      (hroom : Room (s.stores node) ((s.stores node).versions key)) :
      Step s (s.record node key item (s.known node key) ds)
  /-- The client has read `items`, and through them every write of the store. -/
  | putContext (node key value : String) (items : List DataItem) (faults : Faults)
      (item : DataItem) (ds : DataStore) (hread : ∀ x ∈ items, ∃ w ∈ s.writes key, w.item = x)
      (hown : ∀ i w, (s.writes key)[i]? = some w → w.clockID = (s.stores node).clockID →
        i ∈ s.readBy key items)
      (hput : (s.stores node).put faults key value (clientGetContext items) = (some item, ds))
      (hroom : Room (s.stores node) items) :
      Step s (s.record node key item (s.readBy key items) ds)
  | delete (node key : String) (faults : Faults) (ds : DataStore)
      (hdelete : (s.stores node).delete faults key none = (.deleted, ds))
      (hroom : Room (s.stores node) ((s.stores node).versions key)) :
      Step s (s.record node key
        ((s.stores node).tombstone (unionVectorClock ((s.stores node).versions key)))
        (s.known node key) ds)
  /-- A version arrives, from whichever node and however late. -/
  | receive (node key : String) (i : ℕ) (w : Write) (faults : Faults) (ds : DataStore)
      (hw : (s.writes key)[i]? = some w)
      (hmerge : (s.stores node).mergeReplicated faults key w.item = (true, ds)) :
      Step s (s.learn node key (insert i w.past) ds)
  /-- A flush, a compaction or a restart leaves other layers that read the same. -/
  | maintain (node : String) (layers : Layers)
      (hsame : ∀ key, layers.getAll key = (s.stores node).persister.getAll key) :
      Step s { s with
        stores := Function.update s.stores node { s.stores node with persister := layers } }

/-- From empty stores that count under different names. -/
inductive Run : Replicas → Prop
  | start (stores : String → DataStore) (hempty : ∀ node key, (stores node).versions key = [])
      (hids : Function.Injective fun node => (stores node).clockID) :
      Run ⟨stores, fun _ => [], fun _ _ => ∅⟩
  | step {s t : Replicas} (hrun : Run s) (hstep : Step s t) : Run t

/-! ## Clocks count the writes known of -/

/-- What a store holds are writes, and it covers those it knows of. -/
structure Tracks (s : Replicas) : Prop where
  ids : Function.Injective fun node => (s.stores node).clockID
  sound : ∀ key, Sound ((s.writes key).map Write.event)
  held : ∀ node key, ∀ x ∈ (s.stores node).versions key, ∃ w ∈ s.writes key, w.item = x
  knows : ∀ node key i w, (s.writes key)[i]? = some w →
    (Covers vectorClock ((s.stores node).versions key) w.item.vectorClock ↔
      i ∈ s.known node key)
  bound : ∀ node key, ∀ i ∈ s.known node key, i < (s.writes key).length

/-- A store knows of its own writes. -/
structure Inv (s : Replicas) : Prop extends Tracks s where
  own : ∀ node key i w, (s.writes key)[i]? = some w → w.clockID = (s.stores node).clockID →
    i ∈ s.known node key

variable {s t : Replicas} {node key : String} {i j : ℕ} {v w : Write} {writes : List Write}

theorem getElem?_events (h : writes[i]? = some w) :
    (writes.map Write.event)[i]? = some w.event := by
  rw [List.getElem?_map, h, Option.map_some]

theorem le_iff_event {v w : Write} : v.item.vectorClock ≤ w.item.vectorClock ↔
    ∀ n, v.event.clock n ≤ w.event.clock n := by
  simp only [VectorClock.le_def, UInt32.le_iff_toNat_le, Write.event]

theorem sees_iff (hj : writes[j]? = some w) :
    Sees (writes.map Write.event) j i ↔ i = j ∨ i ∈ w.past := by
  simp [Sees, hj, Write.event]

/-- Clocks are ordered as the writes are. -/
theorem le_iff_of_sound (h : Sound (writes.map Write.event)) (hi : writes[i]? = some v)
    (hj : writes[j]? = some w) :
    v.item.vectorClock ≤ w.item.vectorClock ↔ i = j ∨ i ∈ w.past := by
  rw [le_iff_event, h.le_iff (getElem?_events hi) (getElem?_events hj), sees_iff hj]

theorem Tracks.le_iff (h : Tracks s) (hi : (s.writes key)[i]? = some v)
    (hj : (s.writes key)[j]? = some w) :
    v.item.vectorClock ≤ w.item.vectorClock ↔ i = j ∨ i ∈ w.past :=
  le_iff_of_sound (h.sound key) hi hj

theorem mem_reach_iff {items : List DataItem} :
    i ∈ reach ((s.writes key).map Write.event)
        {j | ∃ w, (s.writes key)[j]? = some w ∧ w.item ∈ items} ↔ i ∈ s.readBy key items := by
  constructor
  · rintro ⟨j, ⟨w, hj, hw⟩, hsees⟩
    exact ⟨j, w, hj, hw, (sees_iff hj).mp hsees⟩
  · rintro ⟨j, w, hj, hw, hi⟩
    exact ⟨j, ⟨w, hj, hw⟩, (sees_iff hj).mpr hi⟩

/-- A store knows of what its versions know of. -/
theorem Tracks.readBy_versions (h : Tracks s) (node key : String) :
    s.readBy key ((s.stores node).versions key) = s.known node key := by
  ext i
  constructor
  · rintro ⟨j, w, hj, hw, hi⟩
    have hsome : i < (s.writes key).length := by
      obtain ⟨e, he⟩ := (h.sound key).sees_some ((sees_iff hj).mpr hi)
      simpa using (List.getElem?_eq_some_iff.mp he).1
    refine (h.knows node key i _ (List.getElem?_eq_getElem hsome)).mp ⟨w.item, hw, ?_⟩
    exact (h.le_iff (List.getElem?_eq_getElem hsome) hj).mpr hi
  · intro hi
    have hsome := List.getElem?_eq_getElem (h.bound node key i hi)
    obtain ⟨x, hx, hle⟩ := (h.knows node key i _ hsome).mpr hi
    obtain ⟨w, hw, rfl⟩ := h.held node key x hx
    obtain ⟨j, hj⟩ := List.mem_iff_getElem?.mp hw
    exact ⟨j, w, hj, hx, (h.le_iff hsome hj).mp hle⟩

theorem toNat_add_one {x : UInt32} (h : x ≠ VectorClock.counterMax) :
    (x + 1).toNat = x.toNat + 1 := by
  have hlt := VectorClock.lt_add_one_of_ne h
  rw [UInt32.lt_iff_toNat_lt, UInt32.toNat_add] at hlt
  rw [UInt32.toNat_add]
  have := x.toNat_lt
  simp only [UInt32.toNat_one] at *
  omega

/-- A write on the union of some versions through which its store's own writes are known. -/
theorem Tracks.sound_write (h : Tracks s) {items : List DataItem} {item : DataItem}
    (hread : ∀ x ∈ items, ∃ w ∈ s.writes key, w.item = x)
    (hown : ∀ i w, (s.writes key)[i]? = some w → w.clockID = (s.stores node).clockID →
      i ∈ s.readBy key items)
    (hroom : Room (s.stores node) items)
    (hclock : item.vectorClock =
      .buildFromContext (unionVectorClock items) (s.stores node).clockID) :
    Sound ((s.writes key ++
      [Write.mk (s.stores node).clockID item (s.readBy key items)]).map Write.event) := by
  have hreach : reach ((s.writes key).map Write.event)
      {j | ∃ w, (s.writes key)[j]? = some w ∧ w.item ∈ items} = s.readBy key items :=
    Set.ext fun i => mem_reach_iff
  have hgood := (h.sound key).concat {j | ∃ w, (s.writes key)[j]? = some w ∧ w.item ∈ items}
    (fun n => ((unionVectorClock items).at n).toNat) (fun n => (item.vectorClock.entry n).toNat)
    (s.stores node).clockID
    (by
      rintro j ⟨w, hj, -⟩
      simpa using (List.getElem?_eq_some_iff.mp hj).1)
    (by
      rintro j ⟨w, hj, hw⟩ g hg n
      obtain rfl := Option.some.inj ((getElem?_events hj).symm.trans hg)
      exact UInt32.le_iff_toNat_le.mp (le_unionVectorClock hw n))
    (by
      intro n hn
      rcases unionVectorClock_attained items n with hzero | ⟨x, hx, heq⟩
      · rw [hzero] at hn
        exact absurd rfl hn
      · obtain ⟨w, hw, rfl⟩ := hread x hx
        obtain ⟨j, hj⟩ := List.mem_iff_getElem?.mp hw
        exact ⟨j, ⟨w, hj, hx⟩, w.event, getElem?_events hj, congrArg UInt32.toNat heq⟩)
    (by
      intro i e hi hproc
      rw [List.getElem?_map] at hi
      obtain ⟨w, hw, rfl⟩ := Option.map_eq_some_iff.mp hi
      exact mem_reach_iff.mpr (hown i w hw hproc))
    (by
      intro n
      rw [hclock, VectorClock.entry_buildFromContext]
      split
      · next hn =>
        have hne : (unionVectorClock items).at (s.stores node).clockID ≠
            VectorClock.counterMax := by
          rcases unionVectorClock_attained items (s.stores node).clockID with hzero | ⟨x, hx, heq⟩
          · rw [hzero]
            decide
          · rw [← heq]
            exact hroom x hx
        exact toNat_add_one hne
      · rfl)
  rw [List.map_append, List.map_singleton]
  simpa [Write.event, hreach] using hgood

/-- Nobody covers a write that has just been made. -/
theorem Tracks.knows_write (h : Tracks s) {new : Write}
    (hsound : Sound ((s.writes key ++ [new]).map Write.event)) (node : String) (i : ℕ) (w : Write)
    (hi : (s.writes key ++ [new])[i]? = some w) :
    Covers vectorClock ((s.stores node).versions key) w.item.vectorClock ↔
      i ∈ s.known node key := by
  by_cases hlt : i < (s.writes key).length
  · rw [List.getElem?_append_left hlt] at hi
    exact h.knows node key i w hi
  · refine ⟨fun hcov => ?_, fun hknown => absurd (h.bound node key i hknown) hlt⟩
    obtain ⟨x, hx, hle⟩ := hcov
    obtain ⟨u, hu, rfl⟩ := h.held node key x hx
    obtain ⟨j, hj⟩ := List.mem_iff_getElem?.mp hu
    have hjlt := (List.getElem?_eq_some_iff.mp hj).1
    rw [← List.getElem?_append_left hjlt] at hj
    have hsees := hsound.sees_le ((sees_iff hj).mpr ((le_iff_of_sound hsound hi hj).mp hle))
    omega

/-- A store that takes over a write covers what the write knows of. -/
theorem knows_merge (hsound : Sound (writes.map Write.event)) {ds ds' : DataStore} {known : Set ℕ}
    (hknows : ∀ i w, writes[i]? = some w →
      (Covers vectorClock (ds.versions key) w.item.vectorClock ↔ i ∈ known))
    {m : ℕ} {u : Write} (hm : writes[m]? = some u) {faults : Faults}
    (hmerge : ds.mergeReplicated faults key u.item = (true, ds')) (i : ℕ) (w : Write)
    (hi : writes[i]? = some w) :
    Covers vectorClock (ds'.versions key) w.item.vectorClock ↔ i ∈ known ∪ insert m u.past := by
  rw [(DataStore.versions_mergeReplicated hmerge).2, hknows i w hi, le_iff_of_sound hsound hi hm]
  rfl

theorem clockID_mergeReplicated {ds ds' : DataStore} {faults : Faults} {item : DataItem}
    (hmerge : ds.mergeReplicated faults key item = (true, ds')) : ds'.clockID = ds.clockID := by
  unfold DataStore.mergeReplicated at hmerge
  split at hmerge
  · cases (Prod.mk.inj hmerge).1
  · rw [← (Prod.mk.inj hmerge).2]

theorem known_learn_self (s : Replicas) (node key : String) (news : Set ℕ) (ds : DataStore) :
    (s.learn node key news ds).known node key = s.known node key ∪ news := by
  simp [learn]

theorem known_learn_of_ne (s : Replicas) {node key n k : String} (news : Set ℕ) (ds : DataStore)
    (hne : ¬(n = node ∧ k = key)) : (s.learn node key news ds).known n k = s.known n k := by
  by_cases hn : n = node
  · subst hn
    simp [learn, Function.update_of_ne fun hk => hne ⟨rfl, hk⟩]
  · simp [learn, Function.update_of_ne hn]

theorem versions_learn_of_ne (s : Replicas) {node key n k : String} (news : Set ℕ) {ds : DataStore}
    (hother : ∀ k, k ≠ key → ds.versions k = (s.stores node).versions k)
    (hne : ¬(n = node ∧ k = key)) :
    ((s.learn node key news ds).stores n).versions k = (s.stores n).versions k := by
  by_cases hn : n = node
  · subst hn
    simpa [learn] using hother k fun hk => hne ⟨rfl, hk⟩
  · simp [learn, Function.update_of_ne hn]

theorem clockID_learn (s : Replicas) {node : String} (key : String) (news : Set ℕ) {ds : DataStore}
    (hid : ds.clockID = (s.stores node).clockID) (n : String) :
    ((s.learn node key news ds).stores n).clockID = (s.stores n).clockID := by
  by_cases hn : n = node
  · subst hn
    simpa [learn] using hid
  · simp [learn, Function.update_of_ne hn]

/-- A store takes over a write. -/
theorem Tracks.receive (h : Tracks s) {ds : DataStore} {faults : Faults}
    (hw : (s.writes key)[i]? = some w)
    (hmerge : (s.stores node).mergeReplicated faults key w.item = (true, ds)) :
    Tracks (s.learn node key (insert i w.past) ds) := by
  have hid := clockID_learn s key (insert i w.past) (clockID_mergeReplicated hmerge)
  have hversions := fun {n k : String} => versions_learn_of_ne s (n := n) (k := k) (insert i w.past)
    (DataStore.versions_mergeReplicated hmerge).1
  refine ⟨fun a b hab => h.ids ?_, h.sound, fun n k x hx => ?_, fun n k j u hj => ?_,
    fun n k j hj => ?_⟩
  · simpa only [hid] using hab
  · by_cases hnk : n = node ∧ k = key
    · obtain ⟨rfl, rfl⟩ := hnk
      have hx : x ∈ ds.versions k := by simpa [learn] using hx
      rcases DataStore.mem_versions_mergeReplicated hmerge hx with hold | ⟨-, rfl⟩
      · exact h.held n k x hold
      · exact ⟨w, List.mem_of_getElem? hw, rfl⟩
    · rw [hversions hnk] at hx
      exact h.held n k x hx
  · by_cases hnk : n = node ∧ k = key
    · obtain ⟨rfl, rfl⟩ := hnk
      rw [known_learn_self]
      simpa [learn] using knows_merge (h.sound k) (h.knows n k) hw hmerge j u hj
    · rw [hversions hnk, known_learn_of_ne s _ ds hnk]
      exact h.knows n k j u hj
  · by_cases hnk : n = node ∧ k = key
    · obtain ⟨rfl, rfl⟩ := hnk
      rw [known_learn_self] at hj
      rcases hj with hj | hj
      · exact h.bound n k j hj
      · have hle := (h.sound k).sees_le ((sees_iff hw).mpr hj)
        exact lt_of_le_of_lt hle (List.getElem?_eq_some_iff.mp hw).1
    · rw [known_learn_of_ne s _ ds hnk] at hj
      exact h.bound n k j hj

/-- A write is made that nobody knows of yet. -/
theorem Tracks.append (h : Tracks s) {new : Write}
    (hsound : Sound ((s.writes key ++ [new]).map Write.event)) :
    Tracks { s with writes := Function.update s.writes key (s.writes key ++ [new]) } where
  ids := h.ids
  sound := by
    intro k
    by_cases hk : k = key
    · subst hk
      simpa using hsound
    · simpa [Function.update_of_ne hk] using h.sound k
  held := by
    intro n k x hx
    obtain ⟨w, hw, hitem⟩ := h.held n k x hx
    by_cases hk : k = key
    · subst hk
      exact ⟨w, by simp [hw], hitem⟩
    · exact ⟨w, by simpa [Function.update_of_ne hk] using hw, hitem⟩
  knows := by
    intro n k i w hi
    by_cases hk : k = key
    · subst hk
      exact h.knows_write hsound n i w (by simpa using hi)
    · exact h.knows n k i w (by simpa [Function.update_of_ne hk] using hi)
  bound := by
    intro n k i hi
    have hlt := h.bound n k i hi
    by_cases hk : k = key
    · subst hk
      simp only [Function.update_self, List.length_append]
      omega
    · simpa [Function.update_of_ne hk] using hlt

theorem known_subset_learn (s : Replicas) (node key n k : String) (news : Set ℕ) (ds : DataStore) :
    s.known n k ⊆ (s.learn node key news ds).known n k := by
  by_cases hnk : n = node ∧ k = key
  · obtain ⟨rfl, rfl⟩ := hnk
    rw [known_learn_self]
    exact Set.subset_union_left
  · rw [known_learn_of_ne s _ ds hnk]

/-- A store makes a write on the union of some versions, through which its own earlier
writes are known. -/
theorem Inv.record (h : Inv s) {items : List DataItem} {item : DataItem} {ds : DataStore}
    {faults : Faults} (hread : ∀ x ∈ items, ∃ w ∈ s.writes key, w.item = x)
    (hown : ∀ i w, (s.writes key)[i]? = some w → w.clockID = (s.stores node).clockID →
      i ∈ s.readBy key items)
    (hroom : Room (s.stores node) items)
    (hclock : item.vectorClock =
      .buildFromContext (unionVectorClock items) (s.stores node).clockID)
    (hmerge : (s.stores node).mergeReplicated faults key item = (true, ds)) :
    Inv (s.record node key item (s.readBy key items) ds) := by
  have hsound := h.sound_write hread hown hroom hclock
  have hlast : (Function.update s.writes key (s.writes key ++
      [Write.mk (s.stores node).clockID item (s.readBy key items)]) key)[(s.writes key).length]? =
      some ⟨(s.stores node).clockID, item, s.readBy key items⟩ := by simp
  have htracks := (h.append hsound).receive hlast hmerge
  refine ⟨htracks, fun n k i w hi hcounts => ?_⟩
  replace hcounts : w.clockID = (s.stores n).clockID :=
    hcounts.trans (clockID_learn s key ∅ (clockID_mergeReplicated hmerge) n)
  have hsubset := known_subset_learn s node key n k
    (insert (s.writes key).length (s.readBy key items)) ds
  by_cases hk : k = key
  · subst hk
    have hi : (s.writes k ++ [Write.mk (s.stores node).clockID item (s.readBy k items)])[i]? =
        some w := by simpa [Replicas.record] using hi
    by_cases hlt : i < (s.writes k).length
    · rw [List.getElem?_append_left hlt] at hi
      exact hsubset (h.own n k i w hi hcounts)
    · -- the new write is of this store
      obtain ⟨hlen, hget⟩ := List.getElem?_eq_some_iff.mp hi
      obtain rfl : i = (s.writes k).length := by
        rw [List.length_append, List.length_singleton] at hlen
        omega
      rw [List.getElem_concat_length rfl] at hget
      obtain rfl : n = node := by
        refine h.ids (hcounts.symm.trans ?_)
        rw [← hget]
      change _ ∈ (s.learn n k _ ds).known n k
      rw [known_learn_self]
      exact Or.inr (Set.mem_insert _ _)
  · have hi : (s.writes k)[i]? = some w := by
      simpa [Replicas.record, Function.update_of_ne hk] using hi
    exact hsubset (h.own n k i w hi hcounts)

/-- A store makes a write on what it holds. -/
theorem Inv.record_versions (h : Inv s) {item : DataItem} {ds : DataStore} {faults : Faults}
    (hroom : Room (s.stores node) ((s.stores node).versions key))
    (hclock : item.vectorClock = .buildFromContext
      (unionVectorClock ((s.stores node).versions key)) (s.stores node).clockID)
    (hmerge : (s.stores node).mergeReplicated faults key item = (true, ds)) :
    Inv (s.record node key item (s.known node key) ds) := by
  have hread := h.readBy_versions node key
  rw [← hread]
  refine h.record (h.held node key) (fun i w hi hid => ?_) hroom hclock hmerge
  rw [hread]
  exact h.own node key i w hi hid

theorem inv_step (h : Inv s) (hstep : Step s t) : Inv t := by
  cases hstep with
  | put node key value faults item ds hput hroom =>
    obtain ⟨base, hbase, rfl, rfl⟩ := DataStore.put_eq_some hput
    obtain rfl := DataStore.putBase_eq hbase
    exact h.record_versions hroom rfl (DataStore.mergeReplicated_noFaults _ _ _)
  | putContext node key value items faults item ds hread hown hput hroom =>
    obtain ⟨base, hbase, rfl, rfl⟩ := DataStore.put_eq_some hput
    cases hbase
    exact h.record hread hown hroom rfl (DataStore.mergeReplicated_noFaults _ _ _)
  | delete node key faults ds hdelete hroom =>
    obtain rfl := DataStore.delete_eq hdelete
    exact h.record_versions hroom rfl (DataStore.mergeReplicated_noFaults _ _ _)
  | receive node key i w faults ds hw hmerge =>
    refine ⟨h.toTracks.receive hw hmerge, fun n k j u hj hid => ?_⟩
    rw [clockID_learn s key _ (clockID_mergeReplicated hmerge)] at hid
    exact known_subset_learn s node key n k _ ds (h.own n k j u hj hid)
  | maintain node layers hsame =>
    have hversions := DataStore.versions_update hsame
    have hid : ∀ n, (Function.update s.stores node { s.stores node with persister := layers }
        n).clockID = (s.stores n).clockID := by
      intro n
      by_cases hn : n = node
      · rw [hn, Function.update_self]
      · rw [Function.update_of_ne hn]
    refine ⟨⟨fun a b hab => h.ids ?_, h.sound, fun n k x hx => ?_, fun n k i w hi => ?_, h.bound⟩,
      fun n k i w hi hown => h.own n k i w hi (hown.trans (hid n))⟩
    · simpa only [hid] using hab
    · exact h.held n k x (hversions n k ▸ hx)
    · rw [hversions n k]
      exact h.knows n k i w hi

theorem inv_of_run (hrun : Run s) : Inv s := by
  induction hrun with
  | start stores hempty hids =>
    refine ⟨⟨hids, fun _ => sound_nil, fun n k x hx => ?_, by simp, by simp⟩, by simp⟩
    rw [hempty n k] at hx
    cases hx
  | step hrun hstep ih => exact inv_step ih hstep

/-- Empty stores that count under their own IDs. -/
def emptyReplicas : Replicas :=
  ⟨fun node => ⟨node, node, ⟨MemTable.new 1000, none, []⟩⟩, fun _ => [], fun _ _ => ∅⟩

theorem run_emptyReplicas : Run emptyReplicas := by
  refine .start _ (fun node key => ?_) fun _ _ h => h
  simp [DataStore.versions, Layers.getAll_eq, Layers.items, Layers.flushingItems, keepMax]

/-- `A` and `B` write the same key, `A` gets what `B` wrote and writes once more, and `B` gets
that. -/
theorem run_threeWrites : ∃ s u v w, Run s ∧ s.writes "k" = [u, v, w] ∧
    (u.past = ∅ ∧ v.past = ∅ ∧ w.past = {1, 0}) ∧
    s.known "A" "k" = {2, 1, 0} ∧ s.known "B" "k" = {2, 1, 0} := by
  have h1 := run_emptyReplicas.step (.put "A" "k" "1" noFaults _ _ rfl (by unfold Room; decide))
  have h2 := h1.step (.put "B" "k" "2" noFaults _ _ rfl (by unfold Room; decide))
  have h3 := h2.step (.receive "A" "k" 1 _ noFaults _ rfl rfl)
  have h4 := h3.step (.put "A" "k" "3" noFaults _ _ rfl (by unfold Room; decide +kernel))
  have h5 := h4.step (.receive "B" "k" 2 _ noFaults _ rfl rfl)
  refine ⟨_, _, _, _, h5, rfl, ⟨?_, ?_, ?_⟩, ?_, ?_⟩
  · simp [emptyReplicas]
  · simp [emptyReplicas, record, learn]
  · simp [emptyReplicas, record, learn]
  · simp [emptyReplicas, record, learn, Set.insert_comm]
  · ext i
    simp [emptyReplicas, record, learn]
    tauto

/-! ## The order of writes -/

/-- Compare gives the order in which writes of a key knew of each other. -/
theorem clock_order (hrun : Run s) (hi : (s.writes key)[i]? = some v)
    (hj : (s.writes key)[j]? = some w) :
    (v.item.vectorClock.compare w.item.vectorClock = .equal ↔ i = j) ∧
    (v.item.vectorClock.compare w.item.vectorClock = .before ↔ i ∈ w.past) ∧
    (v.item.vectorClock.compare w.item.vectorClock = .after ↔ j ∈ v.past) ∧
    (v.item.vectorClock.compare w.item.vectorClock = .concurrent ↔
      i ≠ j ∧ i ∉ w.past ∧ j ∉ v.past) := by
  have h := inv_of_run hrun
  have hij := h.le_iff hi hj
  have hji := h.le_iff hj hi
  have hpast : i ∈ w.past → i < j := (h.sound key).earlier j _ (getElem?_events hj) i
  have hpast' : j ∈ v.past → j < i := (h.sound key).earlier i _ (getElem?_events hi) j
  refine ⟨?_, ?_, ?_, ?_⟩
  · rw [VectorClock.compare_eq_equal, hij, hji]
    constructor
    · rintro ⟨rfl | hlt, hgt⟩
      · rfl
      · rcases hgt with rfl | hgt
        · rfl
        · exact absurd (hpast hlt) (hpast' hgt).not_gt
    · exact fun heq => ⟨Or.inl heq, Or.inl heq.symm⟩
  · rw [VectorClock.compare_eq_before, lt_iff_le_not_ge, hij, hji]
    constructor
    · rintro ⟨rfl | hlt, hgt⟩
      · exact absurd (Or.inl rfl) hgt
      · exact hlt
    · refine fun hlt => ⟨Or.inr hlt, ?_⟩
      rintro (rfl | hgt)
      · exact absurd (hpast hlt) (lt_irrefl _)
      · exact absurd (hpast hlt) (hpast' hgt).not_gt
  · rw [VectorClock.compare_eq_after, lt_iff_le_not_ge, hij, hji]
    constructor
    · rintro ⟨rfl | hgt, hlt⟩
      · exact absurd (Or.inl rfl) hlt
      · exact hgt
    · refine fun hgt => ⟨Or.inr hgt, ?_⟩
      rintro (rfl | hlt)
      · exact absurd (hpast' hgt) (lt_irrefl _)
      · exact absurd (hpast hlt) (hpast' hgt).not_gt
  · rw [VectorClock.compare_eq_concurrent, hij, hji]
    constructor
    · rintro ⟨hlt, hgt⟩
      rw [not_or] at hlt hgt
      exact ⟨hlt.1, hlt.2, hgt.2⟩
    · rintro ⟨hne, hlt, hgt⟩
      exact ⟨not_or.mpr ⟨hne, hlt⟩, not_or.mpr ⟨Ne.symm hne, hgt⟩⟩

/-- The first two writes are Concurrent, the third is After both. -/
theorem clock_order_threeWrites : ∃ s u v w, Run s ∧ s.writes "k" = [u, v, w] ∧
    u.item.vectorClock.compare v.item.vectorClock = .concurrent ∧
    v.item.vectorClock.compare w.item.vectorClock = .before := by
  obtain ⟨s, u, v, w, hrun, hwrites, ⟨hu, hv, hw⟩, -⟩ := run_threeWrites
  refine ⟨s, u, v, w, hrun, hwrites, ?_, ?_⟩
  · exact (clock_order hrun (i := 0) (j := 1) (by rw [hwrites]; rfl)
      (by rw [hwrites]; rfl)).2.2.2.mpr (by simp [hu, hv])
  · exact (clock_order hrun (i := 1) (j := 2) (by rw [hwrites]; rfl)
      (by rw [hwrites]; rfl)).2.1.mpr (by simp [hw])

theorem Inv.mem_versions_iff (h : Inv s) {x : DataItem} :
    x ∈ (s.stores node).versions key ↔ ∃ i w, (s.writes key)[i]? = some w ∧ w.item = x ∧
      i ∈ s.known node key ∧
      ∀ j u, (s.writes key)[j]? = some u → j ∈ s.known node key → i ∉ u.past := by
  constructor
  · intro hx
    obtain ⟨w, hw, rfl⟩ := h.held node key x hx
    obtain ⟨i, hi⟩ := List.mem_iff_getElem?.mp hw
    refine ⟨i, w, hi, rfl, (h.knows node key i w hi).mp ⟨w.item, hx, le_rfl⟩, ?_⟩
    intro j u hj hknown hpast
    -- what covers the later write is held, so it is the earlier one itself
    obtain ⟨y, hy, hle⟩ := (h.knows node key j u hj).mpr hknown
    have hij := (h.le_iff hi hj).mpr (Or.inr hpast)
    obtain rfl := antichain_versions _ key hx hy (hij.trans hle)
    have hlt := (h.sound key).earlier j _ (getElem?_events hj) i hpast
    rcases (h.le_iff hj hi).mp hle with rfl | hback
    · exact lt_irrefl _ hlt
    · exact lt_asymm hlt ((h.sound key).earlier i _ (getElem?_events hi) j hback)
  · rintro ⟨i, w, hi, rfl, hknown, hlast⟩
    obtain ⟨y, hy, hle⟩ := (h.knows node key i w hi).mpr hknown
    obtain ⟨u, hu, rfl⟩ := h.held node key y hy
    obtain ⟨j, hj⟩ := List.mem_iff_getElem?.mp hu
    have hj' := (h.knows node key j u hj).mp ⟨u.item, hy, le_rfl⟩
    rcases (h.le_iff hi hj).mp hle with rfl | hpast
    · obtain rfl := Option.some.inj (hi.symm.trans hj)
      exact hy
    · exact absurd hpast (hlast j u hj hj')

/-- A store's versions of a key are the writes it knows of that no other one it knows of
knew of. -/
theorem siblings_exact (hrun : Run s) (node key : String) (x : DataItem) :
    x ∈ (s.stores node).versions key ↔ ∃ i w, (s.writes key)[i]? = some w ∧ w.item = x ∧
      i ∈ s.known node key ∧
      ∀ j u, (s.writes key)[j]? = some u → j ∈ s.known node key → i ∉ u.past :=
  (inv_of_run hrun).mem_versions_iff

/-- Of the three writes `A` holds the last one. -/
theorem siblings_exact_threeWrites : ∃ s u v w, Run s ∧ s.writes "k" = [u, v, w] ∧
    w.item ∈ (s.stores "A").versions "k" := by
  obtain ⟨s, u, v, w, hrun, hwrites, ⟨hu, hv, hw⟩, hknown, -⟩ := run_threeWrites
  refine ⟨s, u, v, w, hrun, hwrites, (siblings_exact hrun "A" "k" w.item).mpr
    ⟨2, w, by rw [hwrites]; rfl, rfl, by simp [hknown], fun j x hj _ => ?_⟩⟩
  have hx : x ∈ [u, v, w] := by
    rw [← hwrites]
    exact List.mem_of_getElem? hj
  simp only [List.mem_cons, List.not_mem_nil, or_false] at hx
  rcases hx with rfl | rfl | rfl <;> simp [hu, hv, hw]

/-- Stores that know of the same writes of a key hold the same versions of it, in whichever
order the writes reached them. -/
theorem same_versions (hrun : Run s) {a b key : String} (hsame : s.known a key = s.known b key)
    (x : DataItem) : x ∈ (s.stores a).versions key ↔ x ∈ (s.stores b).versions key := by
  rw [(inv_of_run hrun).mem_versions_iff, (inv_of_run hrun).mem_versions_iff, hsame]

theorem same_versions_threeWrites : ∃ s, Run s ∧ s.writes "k" ≠ [] ∧
    ∀ x, x ∈ (s.stores "A").versions "k" ↔ x ∈ (s.stores "B").versions "k" := by
  obtain ⟨s, u, v, w, hrun, hwrites, -, hA, hB⟩ := run_threeWrites
  exact ⟨s, hrun, by simp [hwrites], same_versions hrun (hA.trans hB.symm)⟩

end Replicas

end DistributedKV
