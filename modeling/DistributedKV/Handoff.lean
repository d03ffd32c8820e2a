import DistributedKV.Cluster
import DistributedKV.Membership

/-!
# Handoff to a new membership

When the view changes, a node pushes the versions it holds to the owners that lack them.
A run (`HandoffRun`) lists the keys, plans which owners each key must go to
(`handoffTargets`) and pushes one key after the other, all its targets at once. It goes from
`handoffBase`, the last view whose handoff was recorded, to the newest view; a newer view
cancels it and starts another from the same base, and `finishHandoff` records a view only
for the newest run.

Between any two steps the node's store may take writes and merges, be flushed or compacted,
or roll a write back. What a run has to show is about the versions at its listing that were
not rolled back since (`HandoffRun.Stands`) : the store still covers them, so what is read
later does (`Inv.stands`), and every target was served or is still to be (`RunOk`).
`record_complete` is what holds when a view is recorded.
-/

open Maxima

namespace DistributedKV

open DataItem (vectorClock)

/-- A key's owners under a view. -/
def ClusterView.owners (v : ClusterView) (n : Nat) (key : String) : List String :=
  v.ring.getPreferenceList key n

/-- The nodes a key must be pushed to when the view moves from `base` to `newest` : to the
owners that were none before if this node stays an owner, else to all of them. -/
def handoffTargets (me : String) (n : Nat) (base newest : ClusterView) (key : String) :
    List String :=
  let newOwners := newest.owners n key
  let oldOwners := if me ∈ newOwners then base.owners n key else []
  newOwners.filter fun id => id ≠ me ∧ id ∉ oldOwners

theorem mem_handoffTargets {me : String} {n : Nat} {base newest : ClusterView}
    {key owner : String} : owner ∈ handoffTargets me n base newest key ↔
      owner ∈ newest.owners n key ∧ owner ≠ me ∧
        ¬(me ∈ newest.owners n key ∧ owner ∈ base.owners n key) := by
  by_cases hstays : me ∈ newest.owners n key <;> simp [handoffTargets, hstays]

/-- An owner that was no member before is one of the targets. -/
theorem mem_handoffTargets_of_new {fp : Fingerprinter} {me : String} {n : Nat}
    {base newest : ClusterView} {key owner : String} (hbase : WellBuilt fp n base)
    (howner : owner ∈ newest.owners n key) (hother : owner ≠ me) (hnew : owner ∉ base.members) :
    owner ∈ handoffTargets me n base newest key := by
  refine mem_handoffTargets.mpr ⟨howner, hother, fun h => hnew ?_⟩
  have hkeys := HashRing.mem_of_mem_getPreferenceList (ring_of_buildView hbase.built) h.2
  exact Std.ExtTreeMap.mem_keys.mp hkeys

/-- A key with the nodes it goes to. -/
structure HandoffItem where
  key : String
  targets : List String
deriving DecidableEq

/-- The keys that have somewhere to go. -/
def handoffPlan (me : String) (n : Nat) (base newest : ClusterView) (keys : List String) :
    List HandoffItem :=
  (keys.map fun key => ⟨key, handoffTargets me n base newest key⟩).filter (·.targets ≠ [])

/-- Where a `runHandoff` stands. -/
inductive RunPhase
  | listing
  /-- About to take up the next key. -/
  | planned (todo : List HandoffItem)
  /-- Reading a key's versions. -/
  | reading (item : HandoffItem) (todo : List HandoffItem)
  /-- The pushes of a key that have not returned. -/
  | pushing (item : HandoffItem) (siblings : List DataItem) (waiting : List String)
      (todo : List HandoffItem)
  | ended

/-- The points at which a canceled run returns : a retry, before a key, after its pushes. -/
def RunPhase.stops : RunPhase → Bool
  | .listing => true
  | .planned todo => !todo.isEmpty
  | .reading _ _ => true
  | .pushing _ _ waiting _ => waiting.isEmpty
  | .ended => false

structure HandoffRun where
  gen : Nat
  base : ClusterView
  newest : ClusterView
  canceled : Bool
  phase : RunPhase
  /-- What the store held at the listing. The source does not keep it. -/
  listed : String → List DataItem
  /-- The rollbacks since the listing, each with the versions it left. -/
  rollbacks : List (String × List DataItem)

/-- Versions of a key that a node has taken, or that a hint was stored for. -/
structure Served where
  newest : ClusterView
  target : String
  key : String
  siblings : List DataItem

/-- A node's handoff. -/
structure Handoff where
  store : DataStore
  membership : ClusterView
  handoffBase : ClusterView
  handoffGen : Nat
  handoffTarget : Option ClusterView
  /-- Whether the newest run is under way. -/
  handoffRunning : Bool
  runs : List HandoffRun
  /-- The pushes that were accepted. -/
  pushed : List Served
  /-- The failed pushes that were turned into hints, all of them stored. -/
  hinted : List Served

namespace Handoff

variable (me : String) (n : Nat)

inductive Event
  /-- A run records its view as the base. -/
  | record (r : HandoffRun)
  | other

def setRun (s : Handoff) (i : Nat) (r : HandoffRun) : Handoff :=
  { s with runs := s.runs.set i r }

/-- A rollback is noted by every run that has listed its keys. -/
def noteRollback (key : String) (items : List DataItem) (r : HandoffRun) : HandoffRun :=
  { r with rollbacks := (key, items) :: r.rollbacks }

/-- The steps of a node's handoff and of its store. -/
inductive Step (s : Handoff) : Event → Handoff → Prop
  | put (key value : String) (context : Option Snapshot) (faults : Faults) (item : DataItem)
      (ds : DataStore) (hput : s.store.put faults key value context = (some item, ds)) :
      Step s .other { s with store := ds }
  | merge (key : String) (item : DataItem) (faults : Faults) (ok : Bool) (ds : DataStore)
      (hmerge : s.store.mergeReplicated faults key item = (ok, ds)) :
      Step s .other { s with store := ds }
  /-- A flush or a compaction loses nothing. -/
  | maintain (layers : Layers) (hkeeps : ∀ key c,
      Covers vectorClock (s.store.persister.getAll key) c →
        Covers vectorClock (layers.getAll key) c) :
      Step s .other { s with store := { s.store with persister := layers } }
  | rollback (key : String) (items : List DataItem) :
      Step s .other { s with
        store := s.store.restoreVersions key items
        runs := s.runs.map (noteRollback key ((s.store.restoreVersions key items).versions key)) }
  /-- A newer membership is published. -/
  | adopt (v : ClusterView) (hepoch : s.membership.epoch < v.epoch) :
      Step s .other { s with membership := v }
  /-- `startHandoff` : every run so far is canceled. -/
  | start (hbase : s.handoffBase.epoch < s.membership.epoch)
      (htarget : ¬(s.handoffRunning = true ∧ s.handoffTarget = some s.membership)) :
      Step s .other { s with
        handoffGen := s.handoffGen + 1, handoffTarget := some s.membership, handoffRunning := true
        runs := s.runs.map (fun r => { r with canceled := true }) ++
          [⟨s.handoffGen + 1, s.handoffBase, s.membership, false, .listing, fun _ => [], []⟩] }
  /-- `startHandoff` once background work has been stopped. -/
  | startStopped (hbase : s.handoffBase.epoch < s.membership.epoch)
      (htarget : ¬(s.handoffRunning = true ∧ s.handoffTarget = some s.membership)) :
      Step s .other { s with
        handoffGen := s.handoffGen + 1, handoffTarget := some s.membership
        runs := s.runs.map (fun r => { r with canceled := true }) }
  | stop : Step s .other { s with runs := s.runs.map (fun r => { r with canceled := true }) }
  | list (i : Nat) (r : HandoffRun) (faults : Faults) (keys : List String)
      (hr : s.runs[i]? = some r) (hphase : r.phase = .listing)
      (hkeys : s.store.keys faults = some keys) :
      Step s .other (s.setRun i { r with
        phase := .planned (handoffPlan me n r.base r.newest keys)
        listed := s.store.versions, rollbacks := [] })
  | take (i : Nat) (r : HandoffRun) (item : HandoffItem) (todo : List HandoffItem)
      (hr : s.runs[i]? = some r) (hphase : r.phase = .planned (item :: todo))
      (hlive : r.canceled = false) :
      Step s .other (s.setRun i { r with phase := .reading item todo })
  /-- Nothing left of the key to hand off. -/
  | readNothing (i : Nat) (r : HandoffRun) (item : HandoffItem) (todo : List HandoffItem)
      (faults : Faults) (hr : s.runs[i]? = some r) (hphase : r.phase = .reading item todo)
      (hread : s.store.get faults item.key = some []) :
      Step s .other (s.setRun i { r with phase := .planned todo })
  | read (i : Nat) (r : HandoffRun) (item : HandoffItem) (todo : List HandoffItem)
      (faults : Faults) (siblings : List DataItem) (hr : s.runs[i]? = some r)
      (hphase : r.phase = .reading item todo)
      (hread : s.store.get faults item.key = some siblings) (hfound : siblings ≠ []) :
      Step s .other (s.setRun i { r with phase := .pushing item siblings item.targets todo })
  | push (i : Nat) (r : HandoffRun) (item : HandoffItem) (siblings : List DataItem)
      (waiting : List String) (todo : List HandoffItem) (target : String)
      (hr : s.runs[i]? = some r) (hphase : r.phase = .pushing item siblings waiting todo)
      (htarget : target ∈ waiting) :
      Step s .other { s.setRun i { r with
          phase := .pushing item siblings (waiting.erase target) todo } with
        pushed := ⟨r.newest, target, item.key, siblings⟩ :: s.pushed }
  /-- The push failed, the node stays in the view and all hints were stored. -/
  | hint (i : Nat) (r : HandoffRun) (item : HandoffItem) (siblings : List DataItem)
      (waiting : List String) (todo : List HandoffItem) (target : String)
      (hr : s.runs[i]? = some r) (hphase : r.phase = .pushing item siblings waiting todo)
      (htarget : target ∈ waiting) (hstays : me ∈ r.newest.members) :
      Step s .other { s.setRun i { r with
          phase := .pushing item siblings (waiting.erase target) todo } with
        hinted := ⟨r.newest, target, item.key, siblings⟩ :: s.hinted }
  /-- A push gives up once the run is canceled. -/
  | abandon (i : Nat) (r : HandoffRun) (item : HandoffItem) (siblings : List DataItem)
      (waiting : List String) (todo : List HandoffItem) (target : String)
      (hr : s.runs[i]? = some r) (hphase : r.phase = .pushing item siblings waiting todo)
      (htarget : target ∈ waiting) (hcanceled : r.canceled = true) :
      Step s .other (s.setRun i { r with
        phase := .pushing item siblings (waiting.erase target) todo })
  | keyDone (i : Nat) (r : HandoffRun) (item : HandoffItem) (siblings : List DataItem)
      (todo : List HandoffItem) (hr : s.runs[i]? = some r)
      (hphase : r.phase = .pushing item siblings [] todo) (hlive : r.canceled = false) :
      Step s .other (s.setRun i { r with phase := .planned todo })
  | giveUp (i : Nat) (r : HandoffRun) (hr : s.runs[i]? = some r) (hstops : r.phase.stops = true)
      (hcanceled : r.canceled = true) :
      Step s .other (s.setRun i { r with phase := .ended })
  /-- `finishHandoff` of the newest run. -/
  | record (i : Nat) (r : HandoffRun) (hr : s.runs[i]? = some r) (hphase : r.phase = .planned [])
      (hgen : r.gen = s.handoffGen) :
      Step s (.record r) { s.setRun i { r with phase := .ended } with
        handoffBase := r.newest, handoffRunning := false }
  /-- `finishHandoff` of a superseded run. -/
  | superseded (i : Nat) (r : HandoffRun) (hr : s.runs[i]? = some r)
      (hphase : r.phase = .planned []) (hgen : r.gen ≠ s.handoffGen) :
      Step s .other (s.setRun i { r with phase := .ended })

/-- A node's handoff from any store, view and base, with nothing under way. -/
inductive Reach : Handoff → Prop
  | init (store : DataStore) (membership base : ClusterView) :
      Reach ⟨store, membership, base, 0, none, false, [], [], []⟩
  | step {s t : Handoff} {e : Event} : Reach s → Step me n s e t → Reach t

end Handoff

/-- A version of the listing that no rollback since has taken away. -/
def HandoffRun.Stands (r : HandoffRun) (key : String) (x : DataItem) : Prop :=
  x ∈ r.listed key ∧ ∀ p ∈ r.rollbacks, p.1 = key → Covers vectorClock p.2 x.vectorClock

namespace Handoff

variable {me : String} {n : Nat}

/-- A version at or after `c` was taken by the target, or hinted for it under the view. -/
def ServedFor (pushed hinted : List Served) (newest : ClusterView) (key : String)
    (c : VectorClock) (target : String) : Prop :=
  (∃ p ∈ pushed, p.target = target ∧ p.key = key ∧ Covers vectorClock p.siblings c) ∨
    ∃ p ∈ hinted, p.newest = newest ∧ p.target = target ∧ p.key = key ∧
      Covers vectorClock p.siblings c

/-- The targets of every version are served, but for those `left`. -/
def Serves (me : String) (n : Nat) (pushed hinted : List Served) (r : HandoffRun)
    (left : String → String → Prop) : Prop :=
  ∀ key x target, r.Stands key x → target ∈ handoffTargets me n r.base r.newest key →
    left key target ∨ ServedFor pushed hinted r.newest key x.vectorClock target

/-- The keys of a plan. -/
def InPlan (todo : List HandoffItem) (key : String) : Prop :=
  ∃ item ∈ todo, item.key = key

/-- The items name the targets of their keys. -/
def Planned (me : String) (n : Nat) (r : HandoffRun) (todo : List HandoffItem) : Prop :=
  ∀ item ∈ todo, item.targets = handoffTargets me n r.base r.newest item.key

/-- What a run has done. -/
def RunOk (me : String) (n : Nat) (pushed hinted : List Served) (r : HandoffRun) : Prop :=
  match r.phase with
  | .listing => True
  | .planned todo =>
    Planned me n r todo ∧ Serves me n pushed hinted r fun key _ => InPlan todo key
  | .reading item todo =>
    Planned me n r (item :: todo) ∧
      Serves me n pushed hinted r fun key _ => InPlan (item :: todo) key
  | .pushing item siblings waiting todo =>
    Planned me n r todo ∧ (∀ x, r.Stands item.key x → Covers vectorClock siblings x.vectorClock) ∧
      Serves me n pushed hinted r fun key target => InPlan todo key ∨
        (key = item.key ∧ (target ∈ waiting ∨ r.canceled = true))
  | .ended => True

structure Inv (me : String) (n : Nat) (s : Handoff) : Prop where
  stands : ∀ (i : Nat) (r : HandoffRun), s.runs[i]? = some r → ∀ key x, r.Stands key x →
    Covers vectorClock (s.store.versions key) x.vectorClock
  runOk : ∀ (i : Nat) (r : HandoffRun), s.runs[i]? = some r → RunOk me n s.pushed s.hinted r
  gen_le : ∀ (i : Nat) (r : HandoffRun), s.runs[i]? = some r → r.gen ≤ s.handoffGen
  gen_inj : ∀ (i j : Nat) (r r' : HandoffRun), s.runs[i]? = some r → s.runs[j]? = some r' →
    r.gen = r'.gen → i = j
  /-- The newest run started from the base there still is. -/
  base_eq : ∀ (i : Nat) (r : HandoffRun), s.runs[i]? = some r → r.gen = s.handoffGen →
    r.phase = .ended ∨ r.base = s.handoffBase
  hinted : ∀ p ∈ s.hinted, me ∈ p.newest.members

/-! ## Monotone parts -/

theorem ServedFor.mono {pushed pushed' hinted hinted' : List Served} {newest : ClusterView}
    {key target : String} {c : VectorClock} (h : ServedFor pushed hinted newest key c target)
    (hpushed : pushed ⊆ pushed') (hhinted : hinted ⊆ hinted') :
    ServedFor pushed' hinted' newest key c target := by
  rcases h with ⟨p, hp, h⟩ | ⟨p, hp, h⟩
  · exact Or.inl ⟨p, hpushed hp, h⟩
  · exact Or.inr ⟨p, hhinted hp, h⟩

theorem Serves.mono {pushed pushed' hinted hinted' : List Served} {r r' : HandoffRun}
    {left left' : String → String → Prop} (h : Serves me n pushed hinted r left)
    (hbase : r'.base = r.base) (hnewest : r'.newest = r.newest)
    (hstands : ∀ key x, r'.Stands key x → r.Stands key x)
    (hleft : ∀ key target, left key target → left' key target) (hpushed : pushed ⊆ pushed')
    (hhinted : hinted ⊆ hinted') : Serves me n pushed' hinted' r' left' := by
  intro key x target hx htarget
  rw [hbase, hnewest] at htarget
  rcases h key x target (hstands key x hx) htarget with hl | hs
  · exact Or.inl (hleft key target hl)
  · rw [hnewest]
    exact Or.inr (hs.mono hpushed hhinted)

/-- A run goes on as it was when it is canceled, a rollback happens or more is served. -/
theorem RunOk.mono {pushed pushed' hinted hinted' : List Served} {r r' : HandoffRun}
    (h : RunOk me n pushed hinted r) (hbase : r'.base = r.base) (hnewest : r'.newest = r.newest)
    (hphase : r'.phase = r.phase) (hcanceled : r.canceled = true → r'.canceled = true)
    (hstands : ∀ key x, r'.Stands key x → r.Stands key x) (hpushed : pushed ⊆ pushed')
    (hhinted : hinted ⊆ hinted') : RunOk me n pushed' hinted' r' := by
  have hplanned : ∀ todo, Planned me n r todo → Planned me n r' todo := by
    intro todo hp item hitem
    rw [hbase, hnewest]
    exact hp item hitem
  unfold RunOk at h ⊢
  rw [hphase]
  split at h
  · trivial
  · exact ⟨hplanned _ h.1,
      h.2.mono hbase hnewest hstands (fun _ _ hl => hl) hpushed hhinted⟩
  · exact ⟨hplanned _ h.1,
      h.2.mono hbase hnewest hstands (fun _ _ hl => hl) hpushed hhinted⟩
  · refine ⟨hplanned _ h.1, fun x hx => h.2.1 x (hstands _ x hx),
      h.2.2.mono hbase hnewest hstands (fun key target hl => ?_) hpushed hhinted⟩
    rcases hl with hl | ⟨hkey, hw | hc⟩
    · exact Or.inl hl
    · exact Or.inr ⟨hkey, Or.inl hw⟩
    · exact Or.inr ⟨hkey, Or.inr (hcanceled hc)⟩
  · trivial

theorem getElem?_setRun {s : Handoff} {i j : Nat} {r' r : HandoffRun}
    (h : (s.setRun i r').runs[j]? = some r) : (j = i ∧ r = r') ∨ (j ≠ i ∧ s.runs[j]? = some r) := by
  simp only [setRun, List.getElem?_set] at h
  split_ifs at h with hij
  · exact Or.inl ⟨hij.symm, (Option.some.inj h).symm⟩
  · exact Or.inr ⟨fun he => hij he.symm, h⟩

/-- One run has gone on. -/
theorem Inv.setRun {s : Handoff} (h : Inv me n s) {i : Nat} {r r' : HandoffRun}
    {pushed hinted : List Served} (hr : s.runs[i]? = some r) (hactive : r.phase ≠ .ended)
    (hgen : r'.gen = r.gen) (hbase : r'.base = r.base)
    (hstands : ∀ key x, r'.Stands key x → Covers vectorClock (s.store.versions key) x.vectorClock)
    (hok : RunOk me n pushed hinted r') (hpushed : s.pushed ⊆ pushed) (hhinted : s.hinted ⊆ hinted)
    (hmembers : ∀ p ∈ hinted, me ∈ p.newest.members) :
    Inv me n { s.setRun i r' with pushed := pushed, hinted := hinted } where
  stands := by
    intro j r₁ hj
    rcases getElem?_setRun hj with ⟨-, rfl⟩ | ⟨-, hj⟩
    · exact hstands
    · exact h.stands j r₁ hj
  runOk := by
    intro j r₁ hj
    rcases getElem?_setRun hj with ⟨-, rfl⟩ | ⟨-, hj⟩
    · exact hok
    · exact (h.runOk j r₁ hj).mono rfl rfl rfl id (fun _ _ hx => hx) hpushed hhinted
  gen_le := by
    intro j r₁ hj
    rcases getElem?_setRun hj with ⟨-, rfl⟩ | ⟨-, hj⟩
    · rw [hgen]
      exact h.gen_le i r hr
    · exact h.gen_le j r₁ hj
  gen_inj := by
    intro j k r₁ r₂ hj hk he
    rcases getElem?_setRun hj with ⟨rfl, rfl⟩ | ⟨-, hj'⟩ <;>
      rcases getElem?_setRun hk with ⟨rfl, rfl⟩ | ⟨-, hk'⟩
    · rfl
    · exact h.gen_inj j k r r₂ hr hk' (hgen ▸ he)
    · exact h.gen_inj j k r₁ r hj' hr (he.trans hgen)
    · exact h.gen_inj j k r₁ r₂ hj' hk' he
  base_eq := by
    intro j r₁ hj he
    rcases getElem?_setRun hj with ⟨-, rfl⟩ | ⟨-, hj⟩
    · rw [hbase]
      exact Or.inr ((h.base_eq i r hr (hgen ▸ he)).resolve_left hactive)
    · exact h.base_eq j r₁ hj he
  hinted := hmembers

/-- Every run is as it was, but for its cancellation and its rollbacks. -/
theorem Inv.mapRuns {s : Handoff} (h : Inv me n s) (store : DataStore) (f : HandoffRun → HandoffRun)
    (hgen : ∀ r, (f r).gen = r.gen) (hbase : ∀ r, (f r).base = r.base)
    (hnewest : ∀ r, (f r).newest = r.newest) (hphase : ∀ r, (f r).phase = r.phase)
    (hcanceled : ∀ r, r.canceled = true → (f r).canceled = true)
    (hstands : ∀ r key x, (f r).Stands key x → r.Stands key x)
    (hcovers : ∀ r key x, (f r).Stands key x →
      Covers vectorClock (s.store.versions key) x.vectorClock →
        Covers vectorClock (store.versions key) x.vectorClock) :
    Inv me n { s with store := store, runs := s.runs.map f } := by
  have hof : ∀ {i : Nat} {r : HandoffRun}, (s.runs.map f)[i]? = some r →
      ∃ r₀, s.runs[i]? = some r₀ ∧ f r₀ = r := by
    intro i r hi
    rw [List.getElem?_map] at hi
    exact Option.map_eq_some_iff.mp hi
  refine ⟨?_, ?_, ?_, ?_, ?_, h.hinted⟩
  · intro i r hi key x hx
    obtain ⟨r₀, hr₀, rfl⟩ := hof hi
    exact hcovers r₀ key x hx (h.stands i r₀ hr₀ key x (hstands r₀ key x hx))
  · intro i r hi
    obtain ⟨r₀, hr₀, rfl⟩ := hof hi
    exact (h.runOk i r₀ hr₀).mono (hbase r₀) (hnewest r₀) (hphase r₀) (hcanceled r₀)
      (hstands r₀) (List.Subset.refl _) (List.Subset.refl _)
  · intro i r hi
    obtain ⟨r₀, hr₀, rfl⟩ := hof hi
    rw [hgen]
    exact h.gen_le i r₀ hr₀
  · intro i j r r' hi hj he
    obtain ⟨r₀, hr₀, rfl⟩ := hof hi
    obtain ⟨r₁, hr₁, rfl⟩ := hof hj
    rw [hgen, hgen] at he
    exact h.gen_inj i j r₀ r₁ hr₀ hr₁ he
  · intro i r hi he
    obtain ⟨r₀, hr₀, rfl⟩ := hof hi
    rw [hgen] at he
    rw [hphase, hbase]
    exact h.base_eq i r₀ hr₀ he

/-- The store covers as much as it did. -/
theorem Inv.setStore {s : Handoff} (h : Inv me n s) {store : DataStore}
    (hcovers : ∀ key c, Covers vectorClock (s.store.persister.getAll key) c →
      Covers vectorClock (store.persister.getAll key) c) : Inv me n { s with store := store } :=
  { h with
    stands := fun i r hr key x hx => DataStore.covers_versions.mpr
      (hcovers key _ (DataStore.covers_versions.mp (h.stands i r hr key x hx))) }

theorem Inv.rollback {s : Handoff} (h : Inv me n s) (key : String) (items : List DataItem) :
    Inv me n { s with
      store := s.store.restoreVersions key items
      runs := s.runs.map
        (noteRollback key ((s.store.restoreVersions key items).versions key)) } := by
  refine h.mapRuns _ _ (fun _ => rfl) (fun _ => rfl) (fun _ => rfl) (fun _ => rfl) (fun _ hc => hc)
    (fun r k x hx => ⟨hx.1, fun p hp => hx.2 p (List.mem_cons_of_mem _ hp)⟩) ?_
  intro r k x hx hcovers
  by_cases hk : k = key
  · subst hk
    exact hx.2 _ List.mem_cons_self rfl
  · simpa [DataStore.versions, DataStore.restoreVersions, Layers.getAll_restore_of_ne _ _ hk]
      using hcovers

theorem Inv.cancel {s : Handoff} (h : Inv me n s) :
    Inv me n { s with runs := s.runs.map (fun r => { r with canceled := true }) } :=
  h.mapRuns s.store _ (fun _ => rfl) (fun _ => rfl) (fun _ => rfl) (fun _ => rfl)
    (fun _ _ => rfl) (fun _ _ _ hx => hx) (fun _ _ _ _ hc => hc)

/-- A new run, whose generation no run has yet. -/
theorem Inv.start {s : Handoff} (h : Inv me n s) : Inv me n { s with
    handoffGen := s.handoffGen + 1, handoffTarget := some s.membership, handoffRunning := true
    runs := s.runs ++
      [⟨s.handoffGen + 1, s.handoffBase, s.membership, false, .listing, fun _ => [], []⟩] } := by
  have hof : ∀ {i : Nat} {r : HandoffRun}, (s.runs ++
      [⟨s.handoffGen + 1, s.handoffBase, s.membership, false, .listing, fun _ => [], []⟩])[i]? =
        some r → s.runs[i]? = some r ∨ (i = s.runs.length ∧
          r = ⟨s.handoffGen + 1, s.handoffBase, s.membership, false, .listing, fun _ => [], []⟩) := by
    intro i r hi
    rw [List.getElem?_append] at hi
    split_ifs at hi with hlt
    · exact Or.inl hi
    · have hone := List.getElem?_singleton.symm.trans hi
      split_ifs at hone with hzero
      exact Or.inr ⟨by omega, (Option.some.inj hone).symm⟩
  refine ⟨?_, ?_, ?_, ?_, ?_, h.hinted⟩
  · intro i r hi key x hx
    rcases hof hi with hi | ⟨-, rfl⟩
    · exact h.stands i r hi key x hx
    · cases hx.1
  · intro i r hi
    rcases hof hi with hi | ⟨-, rfl⟩
    · exact h.runOk i r hi
    · trivial
  · intro i r hi
    rcases hof hi with hi | ⟨-, rfl⟩
    · exact (h.gen_le i r hi).trans (Nat.le_succ _)
    · exact le_rfl
  · intro i j r r' hi hj he
    rcases hof hi with hi' | ⟨hi', rfl⟩ <;> rcases hof hj with hj' | ⟨hj', rfl⟩
    · exact h.gen_inj i j r r' hi' hj' he
    · exact absurd (h.gen_le i r hi') (by simp only [he]; omega)
    · exact absurd (h.gen_le j r' hj') (by simp only [← he]; omega)
    · rw [hi', hj']
  · intro i r hi he
    rcases hof hi with hi | ⟨-, rfl⟩
    · exact absurd (h.gen_le i r hi) (by simp only [he]; omega)
    · exact Or.inr rfl

/-! ## The steps of a run -/

/-- A run whose phase alone changes, with nothing new served. -/
theorem Inv.setPhase {s : Handoff} (h : Inv me n s) {i : Nat} {r : HandoffRun} {phase : RunPhase}
    (hr : s.runs[i]? = some r) (hactive : r.phase ≠ .ended)
    (hok : RunOk me n s.pushed s.hinted { r with phase := phase }) :
    Inv me n (s.setRun i { r with phase := phase }) :=
  Inv.setRun h hr hactive rfl rfl (h.stands i r hr) hok (List.Subset.refl _)
    (List.Subset.refl _) h.hinted

theorem mem_handoffPlan {base newest : ClusterView} {keys : List String} {item : HandoffItem} :
    item ∈ handoffPlan me n base newest keys ↔ item.key ∈ keys ∧
      item.targets = handoffTargets me n base newest item.key ∧ item.targets ≠ [] := by
  simp only [handoffPlan, List.mem_filter, List.mem_map, decide_eq_true_eq]
  constructor
  · rintro ⟨⟨key, hkey, rfl⟩, hne⟩
    exact ⟨hkey, rfl, hne⟩
  · rintro ⟨hkey, htargets, hne⟩
    exact ⟨⟨item.key, hkey, by rw [← htargets]⟩, hne⟩

theorem Inv.list {s : Handoff} (h : Inv me n s) {i : Nat} {r : HandoffRun} {faults : Faults}
    {keys : List String} (hr : s.runs[i]? = some r) (hphase : r.phase = .listing)
    (hkeys : s.store.keys faults = some keys) : Inv me n (s.setRun i { r with
      phase := .planned (handoffPlan me n r.base r.newest keys)
      listed := s.store.versions, rollbacks := [] }) := by
  refine Inv.setRun h hr (by simp [hphase]) rfl rfl (fun key x hx => ⟨x, hx.1, le_rfl⟩)
    ⟨fun item hitem => (mem_handoffPlan.mp hitem).2.1, ?_⟩ (List.Subset.refl _)
    (List.Subset.refl _) h.hinted
  -- A listed version's key is in the plan, since it has a target.
  intro key x target hx htarget
  have hlisted : key ∈ keys := by
    rw [DataStore.keys_eq_some hkeys]
    exact Layers.mem_keys_of_mem_getAll (DataStore.mem_versions.mp hx.1)
  exact Or.inl ⟨⟨key, _⟩,
    mem_handoffPlan.mpr ⟨hlisted, rfl, List.ne_nil_of_mem htarget⟩, rfl⟩

theorem Inv.take {s : Handoff} (h : Inv me n s) {i : Nat} {r : HandoffRun} {item : HandoffItem}
    {todo : List HandoffItem} (hr : s.runs[i]? = some r)
    (hphase : r.phase = .planned (item :: todo)) :
    Inv me n (s.setRun i { r with phase := .reading item todo }) := by
  have hok := h.runOk i r hr
  simp only [RunOk, hphase] at hok
  exact h.setPhase hr (by simp [hphase]) hok

theorem Inv.readNothing {s : Handoff} (h : Inv me n s) {i : Nat} {r : HandoffRun}
    {item : HandoffItem} {todo : List HandoffItem} {faults : Faults} (hr : s.runs[i]? = some r)
    (hphase : r.phase = .reading item todo) (hread : s.store.get faults item.key = some []) :
    Inv me n (s.setRun i { r with phase := .planned todo }) := by
  have hok := h.runOk i r hr
  simp only [RunOk, hphase] at hok
  refine h.setPhase hr (by simp [hphase])
    ⟨fun i hi => hok.1 i (List.mem_cons_of_mem _ hi), fun key x target hx htarget => ?_⟩
  rcases hok.2 key x target hx htarget with ⟨i', hi', rfl⟩ | hserved
  · rcases List.mem_cons.mp hi' with rfl | hi'
    · -- Nothing is stored, so no version of the listing stands.
      obtain ⟨y, hy, -⟩ := h.stands i r hr _ x hx
      rw [← DataStore.get_eq_some hread] at hy
      cases hy
    · exact Or.inl ⟨i', hi', rfl⟩
  · exact Or.inr hserved

theorem Inv.read {s : Handoff} (h : Inv me n s) {i : Nat} {r : HandoffRun} {item : HandoffItem}
    {todo : List HandoffItem} {faults : Faults} {siblings : List DataItem}
    (hr : s.runs[i]? = some r) (hphase : r.phase = .reading item todo)
    (hread : s.store.get faults item.key = some siblings) :
    Inv me n (s.setRun i { r with phase := .pushing item siblings item.targets todo }) := by
  have hok := h.runOk i r hr
  simp only [RunOk, hphase] at hok
  refine h.setPhase hr (by simp [hphase]) ⟨fun i hi => hok.1 i (List.mem_cons_of_mem _ hi),
    fun x hx => ?_, fun key x target hx htarget => ?_⟩
  · rw [DataStore.get_eq_some hread]
    exact h.stands i r hr _ x hx
  · rcases hok.2 key x target hx htarget with ⟨i', hi', rfl⟩ | hserved
    · rcases List.mem_cons.mp hi' with rfl | hi'
      · have htargets := hok.1 i' List.mem_cons_self
        exact Or.inl (Or.inr ⟨rfl, Or.inl (htargets ▸ htarget)⟩)
      · exact Or.inl (Or.inl ⟨i', hi', rfl⟩)
    · exact Or.inr hserved

/-- One of a key's pushes returns : the target is served now, or the run is canceled. -/
theorem RunOk.returned {pushed pushed' hinted hinted' : List Served} {r : HandoffRun}
    {item : HandoffItem} {siblings : List DataItem} {waiting : List String}
    {todo : List HandoffItem} {target : String} (hok : RunOk me n pushed hinted r)
    (hphase : r.phase = .pushing item siblings waiting todo) (hpushed : pushed ⊆ pushed')
    (hhinted : hinted ⊆ hinted')
    (hreturned : r.canceled = true ∨ ∀ c, Covers vectorClock siblings c →
      ServedFor pushed' hinted' r.newest item.key c target) :
    RunOk me n pushed' hinted'
      { r with phase := .pushing item siblings (waiting.erase target) todo } := by
  simp only [RunOk, hphase] at hok
  refine ⟨hok.1, hok.2.1, fun key x t hx ht => ?_⟩
  rcases hok.2.2 key x t hx ht with (hplan | ⟨rfl, hw | hc⟩) | hserved
  · exact Or.inl (Or.inl hplan)
  · by_cases htt : t = target
    · subst htt
      rcases hreturned with hc | hserved
      · exact Or.inl (Or.inr ⟨rfl, Or.inr hc⟩)
      · exact Or.inr (hserved _ (hok.2.1 x hx))
    · exact Or.inl (Or.inr ⟨rfl, Or.inl ((List.mem_erase_of_ne htt).mpr hw)⟩)
  · exact Or.inl (Or.inr ⟨rfl, Or.inr hc⟩)
  · exact Or.inr (hserved.mono hpushed hhinted)

theorem Inv.keyDone {s : Handoff} (h : Inv me n s) {i : Nat} {r : HandoffRun} {item : HandoffItem}
    {siblings : List DataItem} {todo : List HandoffItem} (hr : s.runs[i]? = some r)
    (hphase : r.phase = .pushing item siblings [] todo) (hlive : r.canceled = false) :
    Inv me n (s.setRun i { r with phase := .planned todo }) := by
  have hok := h.runOk i r hr
  simp only [RunOk, hphase] at hok
  refine h.setPhase hr (by simp [hphase]) ⟨hok.1, fun key x target hx htarget => ?_⟩
  rcases hok.2.2 key x target hx htarget with (hplan | ⟨-, hw | hc⟩) | hserved
  · exact Or.inl hplan
  · cases hw
  · exact absurd hc (by simp [hlive])
  · exact Or.inr hserved

/-- The base moves with the newest run, which is over then. -/
theorem Inv.record {s : Handoff} (h : Inv me n s) {i : Nat} {r : HandoffRun}
    (hr : s.runs[i]? = some r) (hphase : r.phase = .planned []) (hgen : r.gen = s.handoffGen) :
    Inv me n { s.setRun i { r with phase := .ended } with
      handoffBase := r.newest, handoffRunning := false } := by
  have hset : Inv me n (s.setRun i { r with phase := .ended }) :=
    h.setPhase hr (by simp [hphase]) trivial
  refine { hset with base_eq := ?_ }
  intro j r₁ hj he
  rcases getElem?_setRun hj with ⟨-, rfl⟩ | ⟨hne, hj'⟩
  · exact Or.inl rfl
  · exact absurd (h.gen_inj j i r₁ r hj' hr (he.trans hgen.symm)) hne

theorem Inv.step {s t : Handoff} {e : Event} (h : Inv me n s) (hstep : Step me n s e t) :
    Inv me n t := by
  cases hstep with
  | put key value context faults item ds hput =>
    exact h.setStore fun k c hc => (DataStore.covers_put hput).mpr (Or.inl hc)
  | merge key item faults ok ds hmerge =>
    exact h.setStore fun k c hc => (DataStore.covers_mergeReplicated hmerge).mpr (Or.inl hc)
  | maintain layers hkeeps => exact h.setStore hkeeps
  | rollback key items => exact h.rollback key items
  | adopt => exact { h with }
  | start => exact h.cancel.start
  | startStopped =>
    have hc := h.cancel
    exact { hc with
      gen_le := fun i r hr => (hc.gen_le i r hr).trans (Nat.le_succ _)
      base_eq := fun i r hr he => absurd (hc.gen_le i r hr) (by simp only [he]; omega) }
  | stop => exact h.cancel
  | list i r faults keys hr hphase hkeys => exact h.list hr hphase hkeys
  | take i r item todo hr hphase => exact h.take hr hphase
  | readNothing i r item todo faults hr hphase hread => exact h.readNothing hr hphase hread
  | read i r item todo faults siblings hr hphase hread => exact h.read hr hphase hread
  | push i r item siblings waiting todo target hr hphase =>
    refine Inv.setRun h hr (by simp [hphase]) rfl rfl (h.stands i r hr)
      ((h.runOk i r hr).returned hphase (List.subset_cons_self _ _) (List.Subset.refl _) (Or.inr ?_))
      (List.subset_cons_self _ _) (List.Subset.refl _) h.hinted
    exact fun c hc => Or.inl ⟨_, List.mem_cons_self, rfl, rfl, hc⟩
  | hint i r item siblings waiting todo target hr hphase htarget hstays =>
    refine Inv.setRun h hr (by simp [hphase]) rfl rfl (h.stands i r hr)
      ((h.runOk i r hr).returned hphase (List.Subset.refl _) (List.subset_cons_self _ _) (Or.inr ?_))
      (List.Subset.refl _) (List.subset_cons_self _ _)
      (List.forall_mem_cons.mpr ⟨hstays, h.hinted⟩)
    exact fun c hc => Or.inr ⟨_, List.mem_cons_self, rfl, rfl, rfl, hc⟩
  | abandon i r item siblings waiting todo target hr hphase htarget hcanceled =>
    exact h.setPhase hr (by simp [hphase]) ((h.runOk i r hr).returned hphase (List.Subset.refl _)
      (List.Subset.refl _) (Or.inl hcanceled))
  | keyDone i r item siblings todo hr hphase hlive => exact h.keyDone hr hphase hlive
  | giveUp i r hr hstops =>
    refine h.setPhase hr (fun he => ?_) trivial
    rw [he] at hstops
    cases hstops
  | record i r hr hphase hgen => exact h.record hr hphase hgen
  | superseded i r hr hphase => exact h.setPhase hr (by simp [hphase]) trivial

theorem inv_of_reach {s : Handoff} (hreach : Reach me n s) : Inv me n s := by
  induction hreach with
  | init => exact ⟨by simp, by simp, by simp, by simp, by simp, by simp⟩
  | step _ hstep ih => exact ih.step hstep

/-- When a view is recorded, every version of the run's listing that was not rolled back
since has reached every owner of its key under the view, itself or with a later version, or
is hinted for it; but for the node itself, and for the owners that were owners under the
base before if the node is still one. A hint counts only for a node of the view, and the
base moves only with the newest run. -/
theorem record_complete {s t : Handoff} {e : Event} (hreach : Reach me n s)
    (hstep : Step me n s e t) :
    (∀ r, e = .record r → t.handoffBase = r.newest ∧ r.gen = s.handoffGen ∧
      ∀ key x owner, r.Stands key x → owner ∈ r.newest.owners n key → owner ≠ me →
        ¬(me ∈ r.newest.owners n key ∧ owner ∈ s.handoffBase.owners n key) →
          (∃ p ∈ s.pushed, p.target = owner ∧ p.key = key ∧
            Covers vectorClock p.siblings x.vectorClock) ∨
          (me ∈ r.newest.members ∧ ∃ p ∈ s.hinted, p.target = owner ∧ p.key = key ∧
            Covers vectorClock p.siblings x.vectorClock)) ∧
    ((∀ r, e ≠ .record r) → t.handoffBase = s.handoffBase) ∧
    (∀ p ∈ t.hinted, me ∈ p.newest.members) := by
  have h := inv_of_reach hreach
  refine ⟨?_, ?_, (h.step hstep).hinted⟩
  · rintro r rfl
    cases hstep with
    | record i _ hr hphase hgen =>
      refine ⟨rfl, hgen, fun key x owner hx howner hne hnew => ?_⟩
      have hbase : r.base = s.handoffBase :=
        (h.base_eq i r hr hgen).resolve_left (by simp [hphase])
      have hok := h.runOk i r hr
      simp only [RunOk, hphase] at hok
      have htarget : owner ∈ handoffTargets me n r.base r.newest key :=
        mem_handoffTargets.mpr ⟨howner, hne, by rw [hbase]; exact hnew⟩
      rcases hok.2 key x owner hx htarget with ⟨item, hitem, -⟩ | hpushed |
        ⟨p, hp, hview, hserved⟩
      · cases hitem
      · exact Or.inl hpushed
      · exact Or.inr ⟨hview ▸ h.hinted p hp, p, hp, hserved⟩
  · intro hother
    cases hstep with
    | record i r => exact absurd rfl (hother r)
    | _ => rfl

def soloView : ClusterView :=
  ⟨0, "", (∅ : Members).insert "A" "host-a:7000",
    ⟨[1], (∅ : Std.ExtTreeMap UInt32 String).insert 1 "A", 1⟩⟩

/-- `B` has joined, and owns every key with `A`. -/
def joinedView : ClusterView :=
  ⟨1, "", pairMembers,
    ⟨[1, 2], ((∅ : Std.ExtTreeMap UInt32 String).insert 1 "A").insert 2 "B", 1⟩⟩

/-- `C` has joined too, and all three own every key. -/
def trioView : ClusterView :=
  ⟨2, "", trioMembers, ⟨[1, 2, 3],
    (((∅ : Std.ExtTreeMap UInt32 String).insert 1 "A").insert 2 "B").insert 3 "C", 1⟩⟩

def oneKey : DataStore :=
  ((⟨"A", "A", ⟨MemTable.new 1000, none, []⟩⟩ : DataStore).put noFaults "k" "1" none).2

/-- A second node joins while the first join is handed off. When the run for both is recorded,
the one version of `A` has reached `B` and is hinted for `C`. -/
theorem record_complete_superseded : ∃ (s t : Handoff) (r : HandoffRun) (x : DataItem),
    Reach "A" 3 s ∧ Step "A" 3 s (.record r) t ∧ s.runs.length = 2 ∧ t.handoffBase.epoch = 2 ∧
      r.Stands "k" x ∧ ∀ owner ∈ ["B", "C"],
        (∃ p ∈ s.pushed, p.target = owner ∧ p.key = "k" ∧
          Covers vectorClock p.siblings x.vectorClock) ∨
        ("A" ∈ r.newest.members ∧ ∃ p ∈ s.hinted, p.target = owner ∧ p.key = "k" ∧
          Covers vectorClock p.siblings x.vectorClock) := by
  let item : DataItem := ⟨"1", VectorClock.buildFromContext ∅ "A", "A", false⟩
  have hkeys : oneKey.keys noFaults = some ["k"] := by decide +kernel
  have hplan : handoffPlan "A" 3 soloView trioView ["k"] = [⟨"k", ["B", "C"]⟩] := by decide +kernel
  have hget : oneKey.get noFaults "k" = some [item] := by decide +kernel
  have h0 : Reach "A" 3 _ := .init oneKey soloView soloView
  have h1 := h0.step (.adopt joinedView (by decide))
  have h2 := h1.step (.start (by decide) (by simp))
  have h3 := h2.step (.list 0 _ noFaults ["k"] rfl rfl hkeys)
  have h4 := h3.step (.adopt trioView (by decide))
  have h5 := h4.step (.start (by decide) fun hsame =>
    absurd (congrArg ClusterView.epoch (Option.some.inj hsame.2)) (by decide))
  have h6 := h5.step (.list 1 _ noFaults ["k"] rfl rfl hkeys)
  have h7 := h6.step (.take 1 _ ⟨"k", ["B", "C"]⟩ [] rfl (congrArg RunPhase.planned hplan) rfl)
  have h8 := h7.step (.read 1 _ _ [] noFaults [item] rfl rfl hget (by simp))
  have h9 := h8.step (.push 1 _ _ _ _ _ "B" rfl rfl (by simp))
  have h10 := h9.step (.hint 1 _ _ _ _ _ "C" rfl rfl (by decide) (by decide +kernel))
  have h11 := h10.step (.keyDone 1 _ _ _ _ rfl rfl rfl)
  have hx : item ∈ oneKey.versions "k" := by
    rw [← DataStore.get_eq_some hget]
    exact List.mem_singleton_self _
  obtain ⟨s, t, r, hreach, hstep, hruns, hnewest, hbase, hstands⟩ : ∃ (s t : Handoff) (r : HandoffRun),
      Reach "A" 3 s ∧ Step "A" 3 s (.record r) t ∧ s.runs.length = 2 ∧ r.newest = trioView ∧
        s.handoffBase = soloView ∧ r.Stands "k" item := by
    refine ⟨_, _, _, h11, .record 1 _ rfl rfl rfl, ?_, ?_, ?_, hx, by simp⟩ <;> rfl
  have howners : ∀ owner ∈ ["B", "C"], owner ∈ trioView.owners 3 "k" ∧ owner ≠ "A" ∧
      owner ∉ soloView.owners 3 "k" := by
    decide +kernel
  have hdone := (record_complete hreach hstep).1 r rfl
  refine ⟨s, t, r, item, hreach, hstep, hruns, by rw [hdone.1, hnewest]; rfl, hstands,
    fun owner howner => ?_⟩
  obtain ⟨hin, hne, hnew⟩ := howners owner howner
  exact hdone.2.2 "k" item owner hstands (hnewest ▸ hin) hne fun hboth => hnew (hbase ▸ hboth.2)

end Handoff

end DistributedKV
