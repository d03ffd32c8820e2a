import DistributedKV.Planner

/-!
# How long a pod has not answered

Every reconcile asks the pods it sees for their membership and notes, by pod UID, when one
stopped answering (`trackUnreachable`). The planner reports a ready pod as unavailable when
that was longer ago than its grace (`overGrace`). The notes are shared by all clusters the
operator serves, and a reconcile drops the notes of every pod it does not see.

`after_eq` says what the notes are after any reconciles : for each pod, the time of the
earliest one in the unbroken run of reconciles, up to the last, that saw the pod and got no
answer. `overGrace_iff` is what the planner then reports. A reconcile of another cluster
breaks the run, so with two clusters reconciled in turn no ready pod is ever reported
(`not_overGrace_in_turn`).
-/

namespace DistributedKV

open Planner (Observation PodObs overGrace)

namespace Outages

/-- The reconciler's `unreachable` : since when a pod has not answered, by UID. -/
abbrev Notes := Std.ExtTreeMap String Int

/-- What one reconcile has seen : the observation, with the answers in it, and the UIDs of
the pods that exist, by ordinal. -/
structure Seen where
  obs : Observation
  pods : List (Nat × String)
  ordinals_nodup : (pods.map Prod.fst).Nodup
  uids_nodup : (pods.map Prod.snd).Nodup
  listed : ∀ p ∈ pods, p.1 < obs.pods.length

/-- One pod of the loop in `trackUnreachable`. -/
def trackPod (o : Observation) (st : Notes × List PodObs) (p : Nat × String) :
    Notes × List PodObs :=
  if (o.pod p.1).reachable then (st.1.erase p.2, st.2)
  else
    match st.1[p.2]? with
    | some since => (st.1, st.2.modify p.1 fun q => { q with unreachableSince := since })
    | none => (st.1.insert p.2 o.now,
        st.2.modify p.1 fun q => { q with unreachableSince := o.now })

/-- The notes after a reconcile, and its observation with the times filled in. Go visits the
pods in any order; no two of them have one UID or one ordinal. -/
def trackUnreachable (notes : Notes) (r : Seen) : Notes × Observation :=
  let st := r.pods.foldl (trackPod r.obs) (notes, r.obs.pods)
  (st.1.filter fun uid _ => uid ∈ r.pods.map Prod.snd, { r.obs with pods := st.2 })

/-- The notes after reconciles of any clusters, the last one first. An operator starts with
none. -/
def after : List Seen → Notes
  | [] => ∅
  | r :: older => (trackUnreachable (after older) r).1

/-- What the planner is given. -/
def observed (older : List Seen) (r : Seen) : Observation :=
  (trackUnreachable (after older) r).2

/-! ## What a reconcile has seen of a pod -/

/-- The reconcile saw the pod and got no answer. -/
def Seen.unanswered (uid : String) (r : Seen) : Bool :=
  r.pods.any fun p => p.2 = uid && !(r.obs.pod p.1).reachable

/-- The time of the earliest reconcile in the unbroken run, up to the last one, of those that
got no answer. -/
def firstUnanswered (uid : String) (rs : List Seen) : Option Int :=
  (rs.takeWhile (Seen.unanswered uid)).getLast?.map fun r => r.obs.now

theorem firstUnanswered_cons (uid : String) (r : Seen) (older : List Seen) :
    firstUnanswered uid (r :: older) =
      if r.unanswered uid then some ((firstUnanswered uid older).getD r.obs.now) else none := by
  unfold firstUnanswered
  rw [List.takeWhile_cons]
  split_ifs with h
  · rw [List.getLast?_cons]
    cases (older.takeWhile (Seen.unanswered uid)).getLast? <;> rfl
  · rfl

section

variable {o : Observation} {st : Notes × List PodObs} {p : Nat × String} {uid : String}

/-- What no pod of the loop changes is as it was before the loop. -/
theorem foldl_frame {α : Type} (f : Notes × List PodObs → α) : ∀ {pods : List (Nat × String)}
    {st : Notes × List PodObs}, (∀ p ∈ pods, ∀ st, f (trackPod o st p) = f st) →
      f (pods.foldl (trackPod o) st) = f st
  | [], _, _ => rfl
  | p :: pods, st, h => by
    rw [List.foldl_cons, foldl_frame f fun q hq => h q (List.mem_cons_of_mem _ hq)]
    exact h p List.mem_cons_self st

theorem getElem?_trackPod_of_ne (h : p.2 ≠ uid) : (trackPod o st p).1[uid]? = st.1[uid]? := by
  unfold trackPod
  split_ifs with hans
  · rw [Std.ExtTreeMap.getElem?_erase, if_neg (by simpa using h)]
  · split
    · rfl
    · rw [Std.ExtTreeMap.getElem?_insert, if_neg (by simpa using h)]

theorem getElem?_trackPod_self : (trackPod o st p).1[p.2]? =
    if (o.pod p.1).reachable then none else some ((st.1[p.2]?).getD o.now) := by
  unfold trackPod
  split_ifs with hans
  · rw [Std.ExtTreeMap.getElem?_erase, if_pos (by simp)]
  · split
    · next since hsince => simp [hsince]
    · next hnone => simp [hnone]

theorem getElem?_foldl_of_not_mem {pods : List (Nat × String)} {st : Notes × List PodObs}
    (h : uid ∉ pods.map Prod.snd) : (pods.foldl (trackPod o) st).1[uid]? = st.1[uid]? :=
  foldl_frame (fun st => st.1[uid]?) fun _ hp _ =>
    getElem?_trackPod_of_ne fun he => h (he ▸ List.mem_map_of_mem hp)

/-- Each pod is visited once, and the others do not touch its note. -/
theorem getElem?_foldl_of_mem : ∀ {pods : List (Nat × String)} {st : Notes × List PodObs},
    (pods.map Prod.snd).Nodup → p ∈ pods → (pods.foldl (trackPod o) st).1[p.2]? =
      if (o.pod p.1).reachable then none else some ((st.1[p.2]?).getD o.now)
  | [], _, _, h => by cases h
  | q :: pods, st, hnodup, h => by
    rw [List.map_cons, List.nodup_cons] at hnodup
    rw [List.foldl_cons]
    rcases List.mem_cons.mp h with rfl | hmem
    · rw [getElem?_foldl_of_not_mem hnodup.1, getElem?_trackPod_self]
    · have hne : q.2 ≠ p.2 := fun he => hnodup.1 (he ▸ List.mem_map_of_mem hmem)
      rw [getElem?_foldl_of_mem hnodup.2 hmem, getElem?_trackPod_of_ne hne]

end

variable {r : Seen} {p : Nat × String}

theorem Seen.unanswered_of_mem (h : p ∈ r.pods) :
    r.unanswered p.2 = !(r.obs.pod p.1).reachable := by
  cases hans : (r.obs.pod p.1).reachable with
  | false => exact List.any_eq_true.mpr ⟨p, h, by simp [hans]⟩
  | true =>
    rw [Bool.not_true, ← Bool.not_eq_true, Seen.unanswered, List.any_eq_true]
    rintro ⟨q, hq, hboth⟩
    obtain ⟨huid, hsilent⟩ : q.2 = p.2 ∧ (r.obs.pod q.1).reachable = false := by simpa using hboth
    obtain rfl := List.inj_on_of_nodup_map r.uids_nodup hq h huid
    rw [hans] at hsilent
    cases hsilent

theorem Seen.unanswered_of_not_mem {uid : String} (h : uid ∉ r.pods.map Prod.snd) :
    r.unanswered uid = false := by
  rw [← Bool.not_eq_true, Seen.unanswered, List.any_eq_true]
  rintro ⟨q, hq, hboth⟩
  obtain ⟨rfl, -⟩ : q.2 = uid ∧ (r.obs.pod q.1).reachable = false := by simpa using hboth
  exact h (List.mem_map_of_mem hq)

/-- One reconcile : the note of a pod it got no answer from is kept or made, every other note
is gone. -/
theorem getElem?_trackUnreachable (notes : Notes) (r : Seen) (uid : String) :
    (trackUnreachable notes r).1[uid]? =
      if r.unanswered uid then some ((notes[uid]?).getD r.obs.now) else none := by
  rw [trackUnreachable, Std.ExtTreeMap.getElem?_filter']
  by_cases huid : uid ∈ r.pods.map Prod.snd
  · obtain ⟨p, hp, rfl⟩ := List.mem_map.mp huid
    rw [getElem?_foldl_of_mem r.uids_nodup hp, Seen.unanswered_of_mem hp]
    cases (r.obs.pod p.1).reachable with
    | true => rfl
    | false => simp [huid]
  · rw [Seen.unanswered_of_not_mem huid]
    simp [huid]

/-- The notes after any reconciles. -/
theorem after_eq (uid : String) : ∀ rs : List Seen, (after rs)[uid]? = firstUnanswered uid rs
  | [] => by simp [after, firstUnanswered]
  | r :: older => by
    rw [after, getElem?_trackUnreachable, after_eq uid older, firstUnanswered_cons]

/-! ## What the planner is told -/

section

variable {o : Observation} {i : Nat}

theorem getElem?_trackPod_pods_of_ne {st : Notes × List PodObs} (h : p.1 ≠ i) :
    (trackPod o st p).2[i]? = st.2[i]? := by
  unfold trackPod
  split_ifs
  · rfl
  · split <;> simp [h]

theorem getElem?_foldl_pods_of_not_mem {pods : List (Nat × String)} {st : Notes × List PodObs}
    (h : i ∉ pods.map Prod.fst) : (pods.foldl (trackPod o) st).2[i]? = st.2[i]? :=
  foldl_frame (fun st => st.2[i]?) fun _ hp _ =>
    getElem?_trackPod_pods_of_ne fun he => h (he ▸ List.mem_map_of_mem hp)

theorem getElem?_foldl_pods : ∀ {pods : List (Nat × String)} {st : Notes × List PodObs},
    (pods.map Prod.fst).Nodup → (pods.map Prod.snd).Nodup → p ∈ pods →
      (o.pod p.1).reachable = false →
        (pods.foldl (trackPod o) st).2[p.1]? = (st.2[p.1]?).map fun q =>
          { q with unreachableSince := (st.1[p.2]?).getD o.now }
  | [], _, _, _, h, _ => by cases h
  | q :: pods, st, hord, huid, h, hsilent => by
    rw [List.map_cons, List.nodup_cons] at hord huid
    rw [List.foldl_cons]
    rcases List.mem_cons.mp h with rfl | hmem
    · rw [getElem?_foldl_pods_of_not_mem hord.1, trackPod, if_neg (by simp [hsilent])]
      cases st.1[p.2]? <;> simp
    · have hne : q.1 ≠ p.1 := fun he => hord.1 (he ▸ List.mem_map_of_mem hmem)
      have hne' : q.2 ≠ p.2 := fun he => huid.1 (he ▸ List.mem_map_of_mem hmem)
      rw [getElem?_foldl_pods hord.2 huid.2 hmem hsilent, getElem?_trackPod_pods_of_ne hne,
        getElem?_trackPod_of_ne hne']

end

/-- The planner sees a pod that did not answer as it was observed, with the time filled in. -/
theorem pod_observed (older : List Seen) (hp : p ∈ r.pods)
    (hsilent : (r.obs.pod p.1).reachable = false) :
    ∃ first, firstUnanswered p.2 (r :: older) = some first ∧
      (observed older r).pod p.1 = { r.obs.pod p.1 with unreachableSince := first } := by
  have hlen := r.listed p hp
  refine ⟨_, by rw [firstUnanswered_cons, Seen.unanswered_of_mem hp, hsilent]; rfl, ?_⟩
  simp only [observed, trackUnreachable, Observation.pod]
  rw [getElem?_foldl_pods r.ordinals_nodup r.uids_nodup hp hsilent, after_eq,
    List.getElem?_eq_getElem hlen]
  rfl

theorem overGrace_of_silent {cfg : Planner.Config} (older : List Seen) {exempt : Option Nat}
    (hp : p ∈ r.pods) (hready : (r.obs.pod p.1).ready = true)
    (hsilent : (r.obs.pod p.1).reachable = false) :
    overGrace cfg (observed older r) p.1 exempt = true ↔
      exempt ≠ some p.1 ∧ (r.obs.pod p.1).existing = true ∧
        ∃ first, firstUnanswered p.2 (r :: older) = some first ∧ first ≠ 0 ∧
          r.obs.now - first > cfg.grace := by
  obtain ⟨first, hfirst, hpod⟩ := pod_observed older hp hsilent
  have hunhealthy : ((observed older r).pod p.1).healthy = false := by
    have hreach : PodObs.reachable { r.obs.pod p.1 with unreachableSince := first } = false :=
      hsilent
    rw [hpod, PodObs.healthy, hreach, Bool.and_false]
  have houtage : ((observed older r).pod p.1).outage.1 = first := by
    simp [hpod, PodObs.outage, hready]
  have hexisting : ((observed older r).pod p.1).existing = (r.obs.pod p.1).existing := by
    rw [hpod]
  have hnow : (observed older r).now = r.obs.now := rfl
  simp only [overGrace, hunhealthy, hexisting, houtage, hnow, hfirst, Bool.and_eq_true,
    decide_eq_true_eq, Bool.not_false, and_true, Option.some.injEq, exists_eq_left', and_assoc,
    ne_comm (a := some p.1)]

def quietPod : PodObs :=
  { ordinal := 0, existing := true, ready := true }

/-- A reconcile of a cluster with one pod, ready and without an answer. -/
def quietSeen (uid : String) (now : Int) : Seen :=
  ⟨⟨now, ⟨"kv", "kvstore", ⟨1, "kvnode:dev", 0⟩, ⟨.ready, none⟩⟩, none, none, [quietPod], []⟩,
    [(0, uid)], by simp, by simp, by simp⟩

section

variable (cfg : Planner.Config) (older : List Seen) (r : Seen) (p : Nat × String)
  (exempt : Option Nat)

/-- A ready pod that did not answer is reported exactly when the run of reconciles without an
answer began longer ago than the grace. -/
theorem overGrace_iff (hp : p ∈ r.pods) (hexempt : exempt ≠ some p.1)
    (hexisting : (r.obs.pod p.1).existing = true) (hready : (r.obs.pod p.1).ready = true)
    (hsilent : (r.obs.pod p.1).reachable = false) :
    overGrace cfg (observed older r) p.1 exempt = true ↔
      ∃ first, firstUnanswered p.2 (r :: older) = some first ∧ first ≠ 0 ∧
        r.obs.now - first > cfg.grace := by
  rw [overGrace_of_silent older hp hready hsilent]
  simp [hexempt, hexisting]

theorem overGrace_iff_quiet :
    overGrace ⟨60, 1, 5, 30⟩ (observed [quietSeen "u" 130, quietSeen "u" 100] (quietSeen "u" 200)) 0
      none = true :=
  (overGrace_iff ⟨60, 1, 5, 30⟩ _ (quietSeen "u" 200) (0, "u") none (by decide) (by decide) rfl rfl
    rfl).mpr ⟨100, rfl, by decide, by decide⟩

/-- Clusters reconciled in turn : where no two reconciles after one another see one pod, a
ready pod is never reported, however long it has not answered. -/
theorem not_overGrace_in_turn (hgrace : 0 ≤ cfg.grace)
    (hturn : (r :: older).IsChain fun later earlier =>
      ∀ q ∈ later.pods, q.2 ∉ earlier.pods.map Prod.snd)
    (hp : p ∈ r.pods) (hready : (r.obs.pod p.1).ready = true)
    (hsilent : (r.obs.pod p.1).reachable = false) :
    overGrace cfg (observed older r) p.1 exempt = false := by
  have hbroken : firstUnanswered p.2 older = none := by
    cases older with
    | nil => rfl
    | cons =>
      have hunseen := (List.isChain_cons_cons.mp hturn).1 p hp
      rw [firstUnanswered_cons, Seen.unanswered_of_not_mem hunseen]
      rfl
  rw [← Bool.not_eq_true, overGrace_of_silent older hp hready hsilent]
  rintro ⟨-, -, first, hfirst, -, hlate⟩
  rw [firstUnanswered_cons, Seen.unanswered_of_mem hp, hsilent, hbroken] at hfirst
  obtain rfl : r.obs.now = first := by simpa using hfirst
  omega

theorem not_overGrace_in_turn_two :
    overGrace ⟨60, 1, 5, 30⟩
      (observed [quietSeen "v" 130, quietSeen "u" 100] (quietSeen "u" 200)) 0 none = false :=
  not_overGrace_in_turn ⟨60, 1, 5, 30⟩ _ (quietSeen "u" 200) (0, "u") none (by decide)
    (by simp [quietSeen]) (by decide) rfl rfl

end

end Outages

end DistributedKV
