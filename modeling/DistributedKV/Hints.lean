import DistributedKV.Delimiters
import DistributedKV.Durability

/-!
# The hint store

Versions that could not be replicated to a node are kept as hints in an engine of their
own, under the target's ID, a NUL byte and the key. The engine cannot delete : a delivered
hint is retired by a marker, a version whose clock is the union of the delivered clocks and
one more entry.

A `HintRun` takes the engine through any writes of hints and markers and through any of its
background steps and restarts. `pending_exact` : as long as no hint is covered by the union
of clocks delivered together without being covered by one of them (`CoveredSingly`), what
is listed for a target and key is one hint for every maximal clock among the undelivered
ones. The union of two concurrent clocks covers more than the two do, and a hint in between
is retired without having been delivered (`undelivered_hint_retired`).
-/

open Maxima Delimiters

namespace DistributedKV

open DataItem (vectorClock)

/-- The clock entry that makes a version a delivery marker. -/
def deliveredEntry : String :=
  "\x00delivered"

/-- One key's pending hints for a target, newest first. -/
structure Hint where
  key : String
  items : List DataItem
deriving DecidableEq

def storageKey (target key : String) : String :=
  target ++ "\x00" ++ key

/-- Cut a stored key at its first NUL byte. -/
def splitKey (stored : String) : Option (String × String) :=
  let target := stored.toList.takeWhile (· ≠ '\x00')
  match stored.toList.dropWhile (· ≠ '\x00') with
  | [] => none
  | _ :: key => some (.ofList target, .ofList key)

def isMarker (item : DataItem) : Bool :=
  decide (deliveredEntry ∈ item.vectorClock.snapshot)

/-- The version that retires what was delivered. -/
def marker (delivered : List DataItem) : DataItem :=
  { value := "null"
    vectorClock := .fromSnapshot ((unionVectorClock delivered).insert deliveredEntry 1)
    lastUpdatedBy := deliveredEntry
    isDeleted := true }

/-- A key's hints, without the markers. -/
def liveItems (l : Layers) (stored : String) : List DataItem :=
  (l.getAll stored).filter fun item => !isMarker item

/-- Every target a hint was ever held for. -/
def targets (l : Layers) : List String :=
  (l.keys.filterMap fun k => (splitKey k).map Prod.fst).dedup.insertionSort (· ≤ ·)

/-- The hint for the target under a stored key, if there is one. -/
def hintOf (l : Layers) (target stored : String) : Option Hint :=
  match splitKey stored with
  | some (t, key) =>
    if t = target ∧ liveItems l stored ≠ [] then some ⟨key, liveItems l stored⟩ else none
  | none => none

/-- The target's undelivered hints in key order. -/
def pending (l : Layers) (target : String) : List Hint :=
  l.keys.filterMap (hintOf l target)

/-- How many hints are undelivered, over all targets. -/
def pendingItems (l : Layers) : Nat :=
  (l.keys.map fun k => if (splitKey k).isSome then (liveItems l k).length else 0).sum

/-! ## Calls and runs -/

/-- A write to the hint store. -/
inductive HintCall
  | add (target key : String) (item : DataItem)
  | markDelivered (target key : String) (delivered : List DataItem)
deriving DecidableEq

/-- The record a call puts. -/
def HintCall.entry : HintCall → WalEntry
  | .add target key item => .put (storageKey target key) item
  | .markDelivered target key delivered => .put (storageKey target key) (marker delivered)

/-- An Add checks its target and that it is not given a marker. What is marked delivered is
what Pending listed. -/
def HintCall.Valid (seen : List (String × Hint)) : HintCall → Prop
  | .add target _ item => target ≠ "" ∧ '\x00' ∉ target.toList ∧ isMarker item = false
  | .markDelivered target key delivered => (target, ⟨key, delivered⟩) ∈ seen

instance (seen : List (String × Hint)) (c : HintCall) : Decidable (c.Valid seen) :=
  match c with
  | .add target _ _ => inferInstanceAs (Decidable (target ≠ "" ∧ _))
  | .markDelivered _ _ _ => inferInstanceAs (Decidable (_ ∈ seen))

/-- The engine of the hint store, the calls issued so far, what Pending has listed so far,
and what has happened in the engine. -/
structure HintStore where
  calls : List HintCall
  seen : List (String × Hint)
  trace : Engine.Trace
  engine : Engine

/-- Several calls may be committed in one batch. Every other step of the engine may happen
at any time, and Pending may be called at any time. -/
inductive HintAct
  | write (calls : List HintCall)
  | engine (a : EngineAct)
  | list (target : String)
deriving DecidableEq

/-- The batch a step issues. -/
def HintAct.calls : HintAct → Option (List HintCall)
  | .write calls => some calls
  | _ => none

namespace HintStore

def create (maxBytes : Int) : HintStore :=
  ⟨[], [], .empty, .create maxBytes⟩

/-- One step; nothing when it cannot happen here. -/
def step (fileSize : List Entry → Nat) (st : HintStore) : HintAct → Option HintStore
  | .write calls =>
    if ∀ c ∈ calls, c.Valid st.seen then
      let a : EngineAct := .log (calls.map HintCall.entry)
      (st.engine.step fileSize a).map fun e =>
        { st with calls := st.calls ++ calls, trace := Engine.record st.trace st.engine a, engine := e }
    else none
  | .engine (.log _) => none
  | .engine a =>
    if st.engine.AllOrNothing a then
      (st.engine.step fileSize a).map fun e =>
        { st with trace := Engine.record st.trace st.engine a, engine := e }
    else none
  | .list target =>
    some { st with seen := st.seen ++ (pending st.engine.layers target).map (Prod.mk target) }

/-- A run from an empty store in which every batch of calls is allowed where it is issued. -/
inductive Run (fileSize : List Entry → Nat) (maxBytes : Int)
    (allowed : HintStore → List HintCall → Prop) : HintStore → Prop
  | start : Run fileSize maxBytes allowed (create maxBytes)
  | step {st st' : HintStore} {a : HintAct} (hrun : Run fileSize maxBytes allowed st)
      (ha : ∀ calls ∈ a.calls, allowed st calls)
      (hstep : st.step fileSize a = some st') : Run fileSize maxBytes allowed st'

/-- The items of the Adds that took effect for a target and key. -/
def added (st : HintStore) (target key : String) : List DataItem :=
  st.calls.filterMap fun c => match c with
    | .add t k item =>
      if t = target ∧ k = key ∧ c.entry ∈ st.trace.applied then some item else none
    | .markDelivered _ _ _ => none

/-- The items marked delivered for a target and key. -/
def delivered (st : HintStore) (target key : String) : List DataItem :=
  st.calls.flatMap fun c => match c with
    | .add _ _ _ => []
    | .markDelivered t k items =>
      if t = target ∧ k = key ∧ c.entry ∈ st.trace.applied then items else []

/-- The added items that are not Before or Equal to a single delivered one. -/
def undelivered (st : HintStore) (target key : String) : List DataItem :=
  (st.added target key).filter fun x => ∀ d ∈ st.delivered target key,
    x.vectorClock.compare d.vectorClock ≠ .before ∧ x.vectorClock.compare d.vectorClock ≠ .equal

end HintStore

/-- What is listed for a key. -/
def listed (hints : List Hint) (key : String) : List DataItem :=
  (hints.filter fun h => h.key = key).flatMap Hint.items

/-! ## Stored keys -/

theorem toList_storageKey (target key : String) :
    (storageKey target key).toList = target.toList ++ '\x00' :: key.toList := by
  simp [storageKey]

theorem splitKey_storageKey {target : String} (key : String) (h : '\x00' ∉ target.toList) :
    splitKey (storageKey target key) = some (target, key) := by
  have hall : ∀ c ∈ target.toList, decide (c ≠ '\x00') = true := by
    intro c hc
    rw [decide_eq_true_eq]
    rintro rfl
    exact h hc
  unfold splitKey
  rw [toList_storageKey, List.takeWhile_append_of_pos hall, List.dropWhile_append_of_pos hall]
  simp

theorem storageKey_of_splitKey {stored target key : String}
    (h : splitKey stored = some (target, key)) :
    stored = storageKey target key ∧ '\x00' ∉ target.toList := by
  unfold splitKey at h
  simp only at h
  split at h
  · cases h
  · next c rest hdrop =>
    obtain ⟨rfl, rfl⟩ := Prod.mk.inj (Option.some.inj h)
    have hc : c = '\x00' := by
      have := List.head?_dropWhile_not (fun c => decide (c ≠ '\x00')) stored.toList
      rw [hdrop] at this
      simpa using this
    subst hc
    constructor
    · rw [← String.toList_inj, toList_storageKey, String.toList_ofList, String.toList_ofList,
        ← hdrop, List.takeWhile_append_dropWhile]
    · rw [String.toList_ofList]
      intro hmem
      simpa using List.mem_takeWhile_imp hmem

theorem storageKey_inj {target target' key key' : String} (h : '\x00' ∉ target.toList)
    (h' : '\x00' ∉ target'.toList) (heq : storageKey target key = storageKey target' key') :
    target = target' ∧ key = key' := by
  have hsplit := splitKey_storageKey key h
  rw [heq, splitKey_storageKey key' h'] at hsplit
  obtain ⟨rfl, rfl⟩ := Prod.mk.inj (Option.some.inj hsplit)
  exact ⟨rfl, rfl⟩

/-- A stored key adds to the list of one key only. -/
theorem listed_hintOf (l : Layers) {target : String} (key stored : String)
    (h : '\x00' ∉ target.toList) : listed (hintOf l target stored).toList key =
      if stored = storageKey target key then liveItems l stored else [] := by
  by_cases hstored : stored = storageKey target key
  · rw [if_pos hstored, hintOf, hstored, splitKey_storageKey key h]
    by_cases hlive : liveItems l (storageKey target key) = []
    · simp [hlive, listed]
    · simp [hlive, listed]
  · rw [if_neg hstored, hintOf]
    split
    · next t k hsplit =>
      split
      · next ht =>
        have hk : k ≠ key := by
          rintro rfl
          exact hstored (ht.1 ▸ (storageKey_of_splitKey hsplit).1)
        simp [listed, hk]
      · rfl
    · rfl

theorem listed_append (a b : List Hint) (key : String) :
    listed (a ++ b) key = listed a key ++ listed b key := by
  simp [listed]

/-- What is listed for a key is what is stored under it. -/
theorem listed_pending (l : Layers) {target : String} (key : String)
    (h : '\x00' ∉ target.toList) :
    listed (pending l target) key = liveItems l (storageKey target key) := by
  have hfold : ∀ ks : List String, ks.Nodup → listed (ks.filterMap (hintOf l target)) key =
      if storageKey target key ∈ ks then liveItems l (storageKey target key) else [] := by
    intro ks hks
    induction ks with
    | nil => rfl
    | cons k ks ih =>
      obtain ⟨hnot, hks⟩ := List.nodup_cons.mp hks
      have hcons : (k :: ks).filterMap (hintOf l target) =
          (hintOf l target k).toList ++ ks.filterMap (hintOf l target) := by
        cases hk : hintOf l target k <;> simp [hk]
      rw [hcons, listed_append, listed_hintOf l key k h, ih hks]
      by_cases hk : k = storageKey target key
      · subst hk
        simp [hnot]
      · simp [hk, Ne.symm hk]
  rw [pending, hfold l.keys l.nodup_keys]
  split
  · rfl
  · next hnot =>
    refine (List.filter_eq_nil_iff.mpr fun v hv => ?_).symm
    exact absurd (Layers.mem_keys_of_mem_getAll hv) hnot

/-- Every key is listed at most once. -/
theorem nodup_pending (l : Layers) (target : String) :
    ((pending l target).map Hint.key).Nodup := by
  have hinj : ∀ k k' : String, ∀ h ∈ hintOf l target k, ∀ h' ∈ hintOf l target k',
      h.key = h'.key → k = k' := by
    have hkey : ∀ k : String, ∀ h ∈ hintOf l target k, k = storageKey target h.key := by
      intro k h hh
      unfold hintOf at hh
      split at hh
      · next t key hsplit =>
        split at hh
        · next ht =>
          cases hh
          rw [(storageKey_of_splitKey hsplit).1, ht.1]
        · cases hh
      · cases hh
    intro k k' h hh h' hh' he
    rw [hkey k h hh, hkey k' h' hh', he]
  have hfold : ∀ ks : List String, ks.Nodup →
      ((ks.filterMap (hintOf l target)).map Hint.key).Nodup := by
    intro ks hks
    induction ks with
    | nil => simp
    | cons k ks ih =>
      obtain ⟨hnot, hks⟩ := List.nodup_cons.mp hks
      cases hk : hintOf l target k with
      | none => simpa [hk] using ih hks
      | some h =>
        simp only [List.filterMap_cons, hk, List.map_cons, List.nodup_cons]
        refine ⟨fun hmem => ?_, ih hks⟩
        obtain ⟨h', hh', he⟩ := List.mem_map.mp hmem
        obtain ⟨k', hk', hhint⟩ := List.mem_filterMap.mp hh'
        exact hnot (hinj k k' h hk h' hhint he.symm ▸ hk')
  exact hfold l.keys l.nodup_keys

/-- What a stored key adds to the count for one target. -/
theorem sum_hintOf (l : Layers) (target stored : String) :
    ((hintOf l target stored).toList.map fun h => h.items.length).sum =
      if (splitKey stored).map Prod.fst = some target then (liveItems l stored).length else 0 := by
  unfold hintOf
  cases splitKey stored with
  | none => simp
  | some p =>
    by_cases ht : p.1 = target
    · by_cases hlive : liveItems l stored = []
      · simp [ht, hlive]
      · simp [ht, hlive]
    · simp [ht]

/-- The count over all targets is the sum of what is listed for each. -/
theorem pendingItems_eq (l : Layers) : pendingItems l =
    ((targets l).map fun t => ((pending l t).map fun h => h.items.length).sum).sum := by
  have hnodup : (targets l).Nodup :=
    (List.perm_insertionSort _ _).nodup_iff.mpr (List.nodup_dedup _)
  have hfold : ∀ ks : List String, (∀ k ∈ ks, ∀ p ∈ splitKey k, p.1 ∈ targets l) →
      (ks.map fun k => if (splitKey k).isSome then (liveItems l k).length else 0).sum =
      ((targets l).map fun t =>
        ((ks.filterMap (hintOf l t)).map fun h => h.items.length).sum).sum := by
    intro ks hks
    induction ks with
    | nil => simp
    | cons k ks ih =>
      obtain ⟨hk, hks⟩ := List.forall_mem_cons.mp hks
      have hcons : ∀ t, (((k :: ks).filterMap (hintOf l t)).map fun h => h.items.length).sum =
          (if (splitKey k).map Prod.fst = some t then (liveItems l k).length else 0) +
            ((ks.filterMap (hintOf l t)).map fun h => h.items.length).sum := by
        intro t
        rw [← sum_hintOf]
        cases hh : hintOf l t k <;> simp [hh]
      simp only [hcons, List.sum_map_add, List.map_cons, List.sum_cons, ih hks]
      congr 1
      cases hs : splitKey k with
      | none => simp
      | some p =>
        have hmem : p.1 ∈ (targets l).toFinset := List.mem_toFinset.mpr (hk p hs)
        simp only [Option.isSome_some, if_true, Option.map_some, Option.some.injEq]
        rw [← List.sum_toFinset _ hnodup, Finset.sum_ite_eq, if_pos hmem]
  refine hfold l.keys fun k hk p hp => ?_
  rw [targets, List.mem_insertionSort, List.mem_dedup]
  exact List.mem_filterMap.mpr ⟨k, hk, by rw [Option.mem_def.mp hp]; rfl⟩

/-! ## Markers -/

theorem entry_of_not_isMarker {item : DataItem} (h : isMarker item = false) :
    item.vectorClock.entry deliveredEntry = 0 := by
  have hnot : deliveredEntry ∉ item.vectorClock.state := of_decide_eq_false h
  exact Std.ExtTreeMap.getD_eq_fallback hnot

theorem entry_marker (delivered : List DataItem) (n : String) :
    (marker delivered).vectorClock.entry n =
      if n = deliveredEntry then 1 else (unionVectorClock delivered).at n := by
  simp only [marker, VectorClock.entry_fromSnapshot, Snapshot.at, Std.ExtTreeMap.getD_insert]
  by_cases hn : n = deliveredEntry
  · simp [hn]
  · simp [hn, Ne.symm hn]

theorem isMarker_marker (delivered : List DataItem) : isMarker (marker delivered) = true := by
  simp [isMarker, marker, VectorClock.snapshot, VectorClock.fromSnapshot]

/-- A hint is below a marker exactly when the union of the delivered clocks covers it. -/
theorem le_marker_iff {item : DataItem} (h : isMarker item = false) (delivered : List DataItem) :
    item.vectorClock ≤ (marker delivered).vectorClock ↔
      item.vectorClock ≤ VectorClock.fromSnapshot (unionVectorClock delivered) := by
  have hzero := entry_of_not_isMarker h
  constructor
  · intro hle n
    by_cases hn : n = deliveredEntry
    · rw [hn, hzero]
      exact UInt32.zero_le
    · have := hle n
      rwa [entry_marker, if_neg hn] at this
  · intro hle n
    rw [entry_marker]
    split
    · next hn =>
      rw [hn, hzero]
      exact UInt32.zero_le
    · exact hle n

/-- And it is never above or equal to one. -/
theorem not_marker_le {item : DataItem} (h : isMarker item = false) (delivered : List DataItem) :
    ¬(marker delivered).vectorClock ≤ item.vectorClock := by
  intro hle
  have := hle deliveredEntry
  rw [entry_marker, if_pos rfl, entry_of_not_isMarker h] at this
  exact absurd this (by decide)

/-! ## What is listed -/

/-- If the union of the delivered clocks covers a hint of the same target and key, one of
them does. -/
def HintCall.Singly : HintCall → HintCall → Prop
  | .add target key item, .markDelivered target' key' delivered =>
    target = target' → key = key' →
      item.vectorClock ≤ VectorClock.fromSnapshot (unionVectorClock delivered) →
      ∃ d ∈ delivered, item.vectorClock ≤ d.vectorClock
  | _, _ => True

instance : ∀ c c' : HintCall, Decidable (c.Singly c')
  | .add _ _ _, .markDelivered _ _ _ => inferInstanceAs (Decidable (_ → _))
  | .add _ _ _, .add _ _ _ => inferInstanceAs (Decidable True)
  | .markDelivered _ _ _, _ => inferInstanceAs (Decidable True)

/-- No delivery covers more than its items do. -/
def CoveredSingly (calls : List HintCall) : Prop :=
  ∀ c ∈ calls, ∀ c' ∈ calls, c.Singly c'

instance (calls : List HintCall) : Decidable (CoveredSingly calls) :=
  inferInstanceAs (Decidable (∀ c ∈ calls, _))

namespace HintStore

variable {fileSize : List Entry → Nat} {maxBytes : Int}
  {allowed : HintStore → List HintCall → Prop} {st st' : HintStore} {target key : String}

/-- The target of a call has no NUL byte, and what is added is no marker. -/
def WellFormed : HintCall → Prop
  | .add target _ item => '\x00' ∉ target.toList ∧ isMarker item = false
  | .markDelivered target _ _ => '\x00' ∉ target.toList

/-- The engine only ever puts, and what it puts are the calls. -/
structure Inv (fileSize : List Entry → Nat) (maxBytes : Int) (st : HintStore) : Prop where
  run : ∀ key, Engine.Run fileSize maxBytes (Engine.PutsOnly key) st.trace st.engine
  issued : st.trace.issued = st.calls.map HintCall.entry
  calls : ∀ c ∈ st.calls, WellFormed c
  seen : ∀ p ∈ st.seen, '\x00' ∉ p.1.toList

theorem target_of_mem_pending {l : Layers} {h : Hint} (hmem : h ∈ pending l target) :
    '\x00' ∉ target.toList := by
  obtain ⟨k, -, hk⟩ := List.mem_filterMap.mp hmem
  unfold hintOf at hk
  split at hk
  · next t key hsplit =>
    split at hk
    · next ht => exact ht.1 ▸ (storageKey_of_splitKey hsplit).2
    · cases hk
  · cases hk

theorem issued_record {t : Engine.Trace} {s : Engine} {a : EngineAct}
    (h : ∀ batch, a ≠ .log batch) : (Engine.record t s a).issued = t.issued := by
  cases a with
  | log batch => exact absurd rfl (h batch)
  | apply => cases hw : s.writer <;> simp [Engine.record, Engine.tableAct, hw]
  | flushStart => simp only [Engine.record]; split <;> rfl
  | _ => rfl

theorem inv_step (h : Inv fileSize maxBytes st) {a : HintAct}
    (hstep : st.step fileSize a = some st') : Inv fileSize maxBytes st' := by
  cases a with
  | write calls =>
    simp only [step] at hstep
    split at hstep
    · next hvalid =>
      obtain ⟨e, he, rfl⟩ := Option.map_eq_some_iff.mp hstep
      refine ⟨fun key => (h.run key).step ⟨?_, ?_⟩ he, ?_, ?_, h.seen⟩
      · simp [Engine.AllOrNothing, Engine.tableAct]
      · simp only [Engine.logsRestore, List.any_map, List.any_eq_false]
        intro c _
        cases c <;> simp [HintCall.entry, Engine.restores]
      · simp [Engine.record, Engine.tableAct, h.issued]
      · intro c hc
        rcases List.mem_append.mp hc with hc | hc
        · exact h.calls c hc
        · have := hvalid c hc
          cases c with
          | add => exact this.2
          | markDelivered => exact h.seen _ this
    · cases hstep
  | engine a =>
    have hlog : ∀ batch, a ≠ .log batch := by
      rintro batch rfl
      cases hstep
    have hstep : (if st.engine.AllOrNothing a then (st.engine.step fileSize a).map fun e =>
        { st with trace := Engine.record st.trace st.engine a, engine := e } else none) =
        some st' := by
      cases a <;> first | exact hstep | exact absurd rfl (hlog _)
    split at hstep
    · next hall =>
      obtain ⟨e, he, rfl⟩ := Option.map_eq_some_iff.mp hstep
      refine ⟨fun key => (h.run key).step ⟨hall, ?_⟩ he, ?_, h.calls, h.seen⟩
      · cases a <;> first | rfl | exact absurd rfl (hlog _)
      · exact (issued_record hlog).trans h.issued
    · cases hstep
  | list =>
    cases hstep
    refine ⟨h.run, h.issued, h.calls, fun p hp => ?_⟩
    rcases List.mem_append.mp hp with hp | hp
    · exact h.seen p hp
    · obtain ⟨hint, hhint, rfl⟩ := List.mem_map.mp hp
      exact target_of_mem_pending hhint

theorem calls_step {a : HintAct} (hstep : st.step fileSize a = some st') :
    (∃ calls, a = .write calls ∧ st'.calls = st.calls ++ calls) ∨ st'.calls = st.calls := by
  unfold step at hstep
  split at hstep
  · next calls =>
    split at hstep
    · obtain ⟨e, -, rfl⟩ := Option.map_eq_some_iff.mp hstep
      exact Or.inl ⟨calls, rfl, rfl⟩
    · cases hstep
  · cases hstep
  · split at hstep
    · obtain ⟨e, -, rfl⟩ := Option.map_eq_some_iff.mp hstep
      exact Or.inr rfl
    · cases hstep
  · cases hstep
    exact Or.inr rfl

theorem inv_of_run (h : Run fileSize maxBytes allowed st) : Inv fileSize maxBytes st := by
  induction h with
  | start => exact ⟨fun _ => .start, rfl, by simp [create], by simp [create]⟩
  | step hrun ha hstep ih => exact inv_step ih hstep

/-- A version put under a target and key comes from a call for them. -/
theorem Inv.mem_putsOf (h : Inv fileSize maxBytes st) (htarget : '\x00' ∉ target.toList)
    {x : DataItem} (hx : x ∈ Engine.putsOf (storageKey target key) st.trace.applied) :
    (x ∈ st.added target key ∧ isMarker x = false) ∨
      ∃ delivered, .markDelivered target key delivered ∈ st.calls ∧ x = marker delivered ∧
        (HintCall.markDelivered target key delivered).entry ∈ st.trace.applied := by
  have happlied := Engine.mem_putsOf.mp hx
  have hissued := (Engine.inv_of_run (h.run key)).issued.applied _ happlied
  rw [h.issued] at hissued
  obtain ⟨c, hc, hentry⟩ := List.mem_map.mp hissued
  have hwf := h.calls c hc
  cases c with
  | add =>
    obtain ⟨hkey, rfl⟩ := WalEntry.put.inj hentry
    obtain ⟨rfl, rfl⟩ := storageKey_inj hwf.1 htarget hkey
    refine Or.inl ⟨List.mem_filterMap.mpr ⟨_, hc, ?_⟩, hwf.2⟩
    simp [HintCall.entry, happlied]
  | markDelivered t k delivered =>
    obtain ⟨hkey, rfl⟩ := WalEntry.put.inj hentry
    obtain ⟨rfl, rfl⟩ := storageKey_inj hwf htarget hkey
    exact Or.inr ⟨delivered, hc, rfl, happlied⟩

theorem Inv.mem_added (h : Inv fileSize maxBytes st) {x : DataItem}
    (hx : x ∈ st.added target key) : .add target key x ∈ st.calls ∧ isMarker x = false ∧
      x ∈ Engine.putsOf (storageKey target key) st.trace.applied := by
  obtain ⟨c, hc, hcx⟩ := List.mem_filterMap.mp hx
  cases c with
  | add =>
    simp only [Option.ite_none_right_eq_some, Option.some.injEq] at hcx
    obtain ⟨⟨rfl, rfl, happlied⟩, rfl⟩ := hcx
    exact ⟨hc, (h.calls _ hc).2, Engine.mem_putsOf.mpr happlied⟩
  | markDelivered => simp at hcx

theorem mem_delivered {d : DataItem} : d ∈ st.delivered target key ↔
    ∃ items, .markDelivered target key items ∈ st.calls ∧ d ∈ items ∧
      (HintCall.markDelivered target key items).entry ∈ st.trace.applied := by
  unfold delivered
  rw [List.mem_flatMap]
  constructor
  · rintro ⟨c, hc, hd⟩
    cases c with
    | add => cases hd
    | markDelivered t k items =>
      simp only at hd
      split at hd
      · next hg =>
        obtain ⟨rfl, rfl, happlied⟩ := hg
        exact ⟨items, hc, hd, happlied⟩
      · cases hd
  · rintro ⟨items, hc, hd, happlied⟩
    exact ⟨_, hc, by simp [happlied, hd]⟩

theorem mem_undelivered {x : DataItem} : x ∈ st.undelivered target key ↔
    x ∈ st.added target key ∧
      ∀ d ∈ st.delivered target key, ¬x.vectorClock ≤ d.vectorClock := by
  simp only [undelivered, List.mem_filter, decide_eq_true_eq, VectorClock.le_iff_compare]
  refine and_congr_right fun _ => forall₂_congr fun d _ => ?_
  tauto

/-- What is stored for a target and key, without the markers, is one hint for every maximal
clock among the undelivered ones. -/
theorem Inv.maximaOf (h : Inv fileSize maxBytes st) (hsingly : CoveredSingly st.calls)
    (htarget : '\x00' ∉ target.toList) :
    MaximaOf (st.undelivered target key)
      (liveItems st.engine.layers (storageKey target key)) := by
  have hmax := Engine.maximaOf_of_run (h.run (storageKey target key))
  have hlive : ∀ {w}, w ∈ liveItems st.engine.layers (storageKey target key) →
      w ∈ st.engine.layers.getAll (storageKey target key) ∧ isMarker w = false := by
    intro w hw
    simpa [liveItems] using hw
  refine ⟨fun w hw => ?_, fun w hw x hx => ?_, fun x hx hmaximal => ?_, ?_⟩
  · -- a hint that a delivered one covers is below its marker
    obtain ⟨hget, hplain⟩ := hlive hw
    rcases h.mem_putsOf htarget (hmax.put w hget) with ⟨hadded, -⟩ | ⟨delivered, -, rfl, -⟩
    · refine mem_undelivered.mpr ⟨hadded, fun d hd hle => ?_⟩
      obtain ⟨items, -, hditems, happlied⟩ := mem_delivered.mp hd
      refine hmax.maximal w hget (marker items) (Engine.mem_putsOf.mpr happlied) ?_
      rw [VectorClock.compare_eq_before]
      exact lt_of_le_not_ge ((le_marker_iff hplain items).mpr
        (hle.trans (le_unionVectorClock hditems))) (not_marker_le hplain items)
    · rw [isMarker_marker] at hplain
      cases hplain
  · exact hmax.maximal w (hlive hw).1 x (h.mem_added (mem_undelivered.mp hx).1).2.2
  · obtain ⟨hadded, hnone⟩ := mem_undelivered.mp hx
    obtain ⟨hcall, hplain, hput⟩ := h.mem_added hadded
    have hnot : ∀ y ∈ Engine.putsOf (storageKey target key) st.trace.applied,
        x.vectorClock.compare y.vectorClock ≠ .before := by
      intro y hy
      rcases h.mem_putsOf htarget hy with ⟨hyadded, -⟩ | ⟨items, hmark, rfl, happlied⟩
      · by_cases hyund : y ∈ st.undelivered target key
        · exact hmaximal y hyund
        · -- what covers a delivered hint's predecessor covers the predecessor
          rw [mem_undelivered, not_and] at hyund
          push Not at hyund
          obtain ⟨d, hd, hle⟩ := hyund hyadded
          rw [Ne, VectorClock.compare_eq_before]
          exact fun hlt => hnone d hd (hlt.le.trans hle)
      · rw [Ne, VectorClock.compare_eq_before]
        intro hlt
        obtain ⟨d, hd, hle⟩ := hsingly _ hcall _ hmark rfl rfl ((le_marker_iff hplain items).mp hlt.le)
        exact hnone d (mem_delivered.mpr ⟨items, hmark, hd, happlied⟩) hle
    obtain ⟨w, hw, heq⟩ := hmax.every x hput hnot
    refine ⟨w, ?_, heq⟩
    have hle := (VectorClock.compare_eq_equal.mp heq).1
    rcases h.mem_putsOf htarget (hmax.put w hw) with ⟨-, hwplain⟩ | ⟨items, -, rfl, -⟩
    · simp [liveItems, hw, hwplain]
    · exact absurd hle (not_marker_le hplain items)
  · exact hmax.once.sublist List.filter_sublist

/-- In every run in which no delivery's union covers a hint that none of its items covers,
every key is listed at most once, with one hint for every maximal clock among the items
added for that target and key and not covered by one marked delivered for them; and the
count of pending items is the sum over all targets. -/
theorem pending_exact
    (h : Run fileSize maxBytes (fun st calls => CoveredSingly (st.calls ++ calls)) st) :
    (∀ target, '\x00' ∉ target.toList →
      ((pending st.engine.layers target).map Hint.key).Nodup ∧
      ∀ key, MaximaOf (st.undelivered target key)
        (listed (pending st.engine.layers target) key)) ∧
    pendingItems st.engine.layers = ((targets st.engine.layers).map fun target =>
      ((pending st.engine.layers target).map fun hint => hint.items.length).sum).sum := by
  have hsingly : CoveredSingly st.calls := by
    induction h with
    | start => simp [create, CoveredSingly]
    | step hrun ha hstep ih =>
      rcases calls_step hstep with ⟨calls, rfl, hcalls⟩ | hcalls
      · rw [hcalls]
        exact ha calls rfl
      · rw [hcalls]
        exact ih
  refine ⟨fun target htarget => ⟨nodup_pending _ _, fun key => ?_⟩, pendingItems_eq _⟩
  rw [listed_pending _ key htarget]
  exact (inv_of_run h).maximaOf hsingly htarget

/-- Take the steps one after another, each batch of calls allowed where it is issued. -/
def runActs (fileSize : List Entry → Nat) (allowed : HintStore → List HintCall → Prop)
    [∀ st calls, Decidable (allowed st calls)] : HintStore → List HintAct → Option HintStore
  | st, [] => some st
  | st, a :: acts =>
    if ∀ calls ∈ a.calls, allowed st calls then
      (st.step fileSize a).bind fun st' => runActs fileSize allowed st' acts
    else none

theorem Run.runActs [∀ st calls, Decidable (allowed st calls)] : ∀ {acts : List HintAct}
    {st st' : HintStore}, Run fileSize maxBytes allowed st →
    HintStore.runActs fileSize allowed st acts = some st' → Run fileSize maxBytes allowed st'
  | [], st, st', hrun, h => Option.some.inj h ▸ hrun
  | a :: acts, st, st', hrun, h => by
    simp only [HintStore.runActs] at h
    split at h
    · next ha =>
      obtain ⟨st₁, hstep, hrest⟩ := Option.bind_eq_some_iff.mp h
      exact Run.runActs (hrun.step ha hstep) hrest
    · cases h

/-- Commit a batch of calls. -/
def commit (calls : List HintCall) : List HintAct :=
  [.write calls, .engine .sync, .engine .apply]

/-- Two concurrent hints, listed and marked delivered together, a third one added meanwhile,
and a hint for another target. -/
def deliveredTogether : List HintAct :=
  commit [.add "t" "k" (Engine.firstVersion "1" "A"), .add "t" "k" (Engine.firstVersion "2" "B")] ++
    [.list "t"] ++
    commit [.add "t" "k" (Engine.firstVersion "3" "C"), .add "u" "k" (Engine.firstVersion "1" "A")] ++
    commit [.markDelivered "t" "k" [Engine.firstVersion "2" "B", Engine.firstVersion "1" "A"]]

/-- Afterwards the third one is undelivered and listed, and two items are pending in all. -/
theorem pending_exact_oneLeft : ∃ st,
    runActs (fun _ => 0) (fun st calls => CoveredSingly (st.calls ++ calls)) (create 1000)
      deliveredTogether = some st ∧ st.undelivered "t" "k" = [Engine.firstVersion "3" "C"] ∧
      MaximaOf [Engine.firstVersion "3" "C"] (listed (pending st.engine.layers "t") "k") ∧
      ((targets st.engine.layers).map fun target =>
        ((pending st.engine.layers target).map fun hint => hint.items.length).sum).sum = 2 := by
  obtain ⟨st, hst, hleft, htwo⟩ : ∃ st, runActs (fun _ => 0)
      (fun st calls => CoveredSingly (st.calls ++ calls)) (create 1000) deliveredTogether = some st ∧
      st.undelivered "t" "k" = [Engine.firstVersion "3" "C"] ∧
      pendingItems st.engine.layers = 2 := by
    refine ⟨_, rfl, ?_, ?_⟩ <;> decide +kernel
  have hrun : Run (fun _ => 0) 1000 (fun st calls => CoveredSingly (st.calls ++ calls)) st :=
    Run.start.runActs hst
  obtain ⟨hlisted, hsum⟩ := pending_exact hrun
  exact ⟨st, hst, hleft, hleft ▸ (hlisted "t" (by decide)).2 "k", hsum.symm.trans htwo⟩

/-- A hint that is after both of them. -/
def between : DataItem :=
  ⟨"3", .buildFromContext ((∅ : Snapshot).insert "A" 1) "B", "B", false⟩

/-- The same with a later hint added before the two are marked delivered : it was not
delivered and is not covered by either of them, and it is listed no more. -/
theorem undelivered_hint_retired : ∃ st, Run (fun _ => 0) 1000 (fun _ _ => True) st ∧
    between ∈ st.undelivered "t" "k" ∧
    (∀ y ∈ st.undelivered "t" "k",
      between.vectorClock.compare y.vectorClock ≠ .before) ∧
    pending st.engine.layers "t" = [] := by
  have hst : runActs (fun _ => 0) (fun _ _ => True) (create 1000)
      (commit [.add "t" "k" (Engine.firstVersion "1" "A"), .add "t" "k" (Engine.firstVersion "2" "B")] ++
        [.list "t"] ++ commit [.add "t" "k" between] ++
        commit [.markDelivered "t" "k"
          [Engine.firstVersion "2" "B", Engine.firstVersion "1" "A"]]) = some _ := rfl
  refine ⟨_, Run.start.runActs hst, ?_, ?_, ?_⟩ <;> decide +kernel

end HintStore

end DistributedKV
