import DistributedKV.Planner

/-!
# The operator's loop

A `World` is a KVCluster with its ConfigMap, StatefulSet, pods and volumes, as the planner's
simulator keeps them. Between two decisions of the planner the StatefulSet controller, the
kubelet and the nodes take steps of their own, the spec changes, and the action that was
chosen takes effect any number of times (`Step`). A decision (`Decides`) is the planner's
answer to an observation in which any pod may fail to answer. Times are not kept : every wait
is of any length, and an observation gives any times.

`pod_observe` says what an observation shows of a pod. What holds of the worlds that are
reached is in `OneChange`.
-/

namespace DistributedKV

namespace Operator

open Planner

/-! ## The cluster -/

/-- A volume, with the `MEMBERSHIP` and the `HANDOFF` that are persisted on it. -/
structure SimPVC where
  epoch : Nat := 0
  /-- Nothing on a fresh volume. -/
  view : Option Members := none
  handoffDone : Nat := 0
  /-- Left behind by a pod scaled away. -/
  stale : Bool := false

structure SimPod where
  running : Bool := false
  terminating : Bool := false
  epoch : Nat := 0
  view : Members := ∅
  /-- The template version it runs. -/
  version : Nat
  /-- It was drained when the planner looked. -/
  drainedOnce : Bool := false

structure World where
  kv : KVCluster
  cm : Option ConfigMapObs
  /-- The ConfigMap before `cm`, which the kubelet may still show. -/
  prevCM : Option ConfigMapObs
  stsExists : Bool
  replicas : Nat
  tmplVersion : Nat
  specVersion : Nat
  pods : Std.ExtTreeMap Nat SimPod
  pvcs : Std.ExtTreeMap Nat SimPVC
  /-- The planner's last decision. -/
  decision : Option Decision

def newWorld (kv : KVCluster) : World :=
  { kv := kv, cm := none, prevCM := none, stsExists := false, replicas := 0, tmplVersion := 0
    specVersion := 0, pods := ∅, pvcs := ∅, decision := none }

/-- Why a pod does not start. -/
inductive Refusal
  | notListed
  /-- The ConfigMap holds a different membership at the pod's epoch. -/
  | conflict
deriving DecidableEq

namespace World

variable (w : World)

def ready (i : Nat) (p : SimPod) : Bool :=
  p.running && !p.terminating && p.view.contains (memberID w.kv i)

def handoffDone (i : Nat) (p : SimPod) : Bool :=
  w.pvcs[i]?.any fun pvc => p.epoch ≤ pvc.handoffDone

/-- The pod is outside its membership, has handed off its data, and every remaining member
holds the epoch. -/
def drained (i : Nat) (p : SimPod) : Bool :=
  p.running && !p.view.contains (memberID w.kv i) && w.handoffDone i p &&
    p.view.keys.all fun id => w.pods[(ordinal w.kv id).getD 0]?.any fun q =>
      q.running && p.epoch ≤ q.epoch

/-- The volume of a pod that starts and reads this ConfigMap. -/
def start (i : Nat) (pvc : SimPVC) (cm : ConfigMapObs) : Except Refusal SimPVC :=
  if memberID w.kv i ∉ cm.members then .error .notListed
  else
    match pvc.view with
    | none => .ok { pvc with epoch := cm.epoch, view := some cm.members }
    | some view =>
      if cm.epoch > pvc.epoch then .ok { pvc with epoch := cm.epoch, view := some cm.members }
      else if cm.epoch = pvc.epoch ∧ cm.members ≠ view then .error .conflict
      else .ok pvc

/-- `SetMembership` on pod `i` : persist and publish. -/
def adopt (i : Nat) (p : SimPod) (epoch : Nat) (view : Members) : World :=
  { w with
    pods := w.pods.insert i { p with epoch := epoch, view := view }
    pvcs := w.pvcs.modify i fun pvc => { pvc with epoch := epoch, view := some view } }

/-- Writing the same ConfigMap again does not hide the one before it. -/
def writeConfigMap (cm : ConfigMapObs) : World :=
  if w.cm = some cm then w else { w with cm := some cm, prevCM := w.cm }

def apply (a : Action) : World :=
  match a.kind with
  | .writeConfigMap => w.writeConfigMap ⟨a.epoch, a.members, ""⟩
  | .scaleStatefulSet =>
    { w with
      stsExists := true
      tmplVersion := if w.stsExists then w.tmplVersion else w.specVersion
      replicas := a.replicas }
  | .updateTemplate => { w with tmplVersion := w.specVersion }
  | .postMembership =>
    match w.pods[a.ordinal]? with
    | none => w
    | some p =>
      -- a request to a stopped pod fails, and one that is not newer changes nothing
      if p.running ∧ p.epoch < a.epoch then w.adopt a.ordinal p a.epoch a.members else w
  | .wait => w
  | .none => w

/-- Record the pods that are drained. -/
def recordDrained : World :=
  { w with
    pods := w.pods.map fun i p => if w.drained i p then { p with drainedOnce := true } else p }

end World

/-! ## Observations -/

/-- What an observation does not take from the cluster : the time, which pods answer, and
since when pods are ready or do not answer. -/
structure Glance where
  now : Int
  answers : Nat → Bool
  since : Nat → Int
  unreachableSince : Nat → Int

namespace World

variable (w : World) (g : Glance)

def statefulSetObs : Option StatefulSetObs :=
  if w.stsExists then
    let below := List.range w.replicas
    some ⟨w.replicas, (below.filter fun i => w.pods[i]?.any (w.ready i)).length,
      below.all fun i => w.pods[i]?.any fun p => p.version = w.tmplVersion && p.running,
      w.tmplVersion = w.specVersion⟩
  else none

def podObs (i : Nat) : PodObs :=
  match w.pods[i]? with
  | none => { ordinal := i }
  | some p =>
    let handoff : HandoffStatus := ⟨p.epoch, w.handoffDone i p, 0⟩
    { ordinal := i
      existing := true
      terminating := p.terminating
      ready := w.ready i p
      since := g.since i
      unreachableSince := g.unreachableSince i
      membership := if p.running ∧ g.answers i then some ⟨p.epoch, p.view, handoff⟩ else none
      drain :=
        if p.running ∧ g.answers i ∧ memberID w.kv i ∉ p.view then
          some ⟨p.epoch, w.drained i p, handoff, ∅⟩
        else none }

/-- How many ordinals are listed. -/
def listed : Nat :=
  w.pods.keys.foldr (fun i n => max n (i + 1)) (if w.stsExists then w.replicas else 0)

def observe : Observation :=
  ⟨g.now, w.kv, w.statefulSetObs, w.cm, (List.range w.listed).map (w.podObs g), w.pvcs.keys⟩

end World

/-! ## Steps -/

/-- A step of the StatefulSet controller, the kubelet or a node. -/
inductive ClusterStep (w : World) : World → Prop
  /-- A volume that is left from an earlier pod is used again. -/
  | createPod (i : Nat) (hsts : w.stsExists = true) (hi : i < w.replicas)
      (hpod : w.pods[i]? = none) : ClusterStep w
      { w with
        pods := w.pods.insert i { version := w.tmplVersion }
        pvcs := w.pvcs.insert i { w.pvcs[i]?.getD {} with stale := false } }
  | terminatePod (i : Nat) (p : SimPod) (hsts : w.stsExists = true) (hi : w.replicas ≤ i)
      (hpod : w.pods[i]? = some p) : ClusterStep w
      { w with pods := w.pods.insert i { p with terminating := true } }
  /-- The rolling update restarts a pod of an old version when every pod is running. -/
  | rollPod (i : Nat) (p : SimPod) (hsts : w.stsExists = true) (hi : i < w.replicas)
      (hpod : w.pods[i]? = some p) (hversion : p.version ≠ w.tmplVersion)
      (hrunning : ∀ j < w.replicas, ∃ q, w.pods[j]? = some q ∧ q.running = true) : ClusterStep w
      { w with pods := w.pods.insert i { p with running := false, version := w.tmplVersion } }
  | removePod (i : Nat) (p : SimPod) (hpod : w.pods[i]? = some p) (hterm : p.terminating = true) :
      ClusterStep w
      { w with
        pods := w.pods.erase i
        pvcs := w.pvcs.modify i fun pvc => { pvc with stale := true } }
  | deletePVC (i : Nat) (pvc : SimPVC) (hpvc : w.pvcs[i]? = some pvc) (hstale : pvc.stale = true) :
      ClusterStep w { w with pvcs := w.pvcs.erase i }
  /-- A pod reads the current or the previous ConfigMap. -/
  | startPod (i : Nat) (p : SimPod) (pvc pvc' : SimPVC) (cm : ConfigMapObs)
      (hpod : w.pods[i]? = some p) (hstopped : p.running = false)
      (hterm : p.terminating = false) (hpvc : w.pvcs[i]? = some pvc)
      (hcm : w.cm = some cm ∨ w.prevCM = some cm) (hstart : w.start i pvc cm = .ok pvc') :
      ClusterStep w
      { w with
        pods := w.pods.insert i
          { p with running := true, epoch := pvc'.epoch, view := pvc'.view.getD ∅ }
        pvcs := w.pvcs.insert i pvc' }
  | crash (i : Nat) (p : SimPod) (hpod : w.pods[i]? = some p) (hrunning : p.running = true) :
      ClusterStep w { w with pods := w.pods.insert i { p with running := false } }
  /-- A node learns a newer membership from a node in either's view. -/
  | heartbeat (i j : Nat) (p q : SimPod) (hp : w.pods[i]? = some p) (hq : w.pods[j]? = some q)
      (hpr : p.running = true) (hqr : q.running = true) (hepoch : p.epoch < q.epoch)
      (hmember : memberID w.kv j ∈ p.view ∨ memberID w.kv i ∈ q.view) :
      ClusterStep w (w.adopt i p q.epoch q.view)
  | handoff (i : Nat) (p : SimPod) (hpod : w.pods[i]? = some p) (hrunning : p.running = true)
      (hpending : w.handoffDone i p = false) : ClusterStep w
      { w with pvcs := w.pvcs.modify i fun pvc => { pvc with handoffDone := p.epoch } }

/-- A step between two decisions. -/
inductive Step (w : World) : World → Prop
  | cluster {w' : World} (h : ClusterStep w w') : Step w w'
  | setReplicas (n : Nat) :
      Step w { w with kv := { w.kv with spec := { w.kv.spec with replicas := n } } }
  | bumpImage (image : String) : Step w
      { w with
        specVersion := w.specVersion + 1
        kv := { w.kv with spec := { w.kv.spec with image := image } } }
  | apply (d : Decision) (hd : w.decision = some d) : Step w (w.apply d.action)
  | saveStatus (d : Decision) (hd : w.decision = some d) :
      Step w { w with kv := { w.kv with status := d.status.saved } }

/-- The planner decides `d` on an observation of `w`. An epoch is a `uint64`, and the last one
is never reached. -/
def Decides (fmt : Formats) (cfg : Planner.Config) (w : World) (d : Decision) : Prop :=
  (∀ cm, w.cm = some cm → cm.epoch + 1 < epochLimit) ∧
    ∃ g, plan fmt cfg (w.observe g) = some d

/-- The world once the planner has decided. -/
def World.decided (w : World) (d : Decision) : World :=
  { w.recordDrained with decision := some d }

inductive Reachable (fmt : Formats) (cfg : Planner.Config) : World → Prop
  | init (kv : KVCluster) : Reachable fmt cfg (newWorld kv)
  | step {w w' : World} (h : Reachable fmt cfg w) (hstep : Step w w') : Reachable fmt cfg w'
  | decide {w : World} {d : Decision} (h : Reachable fmt cfg w) (hd : Decides fmt cfg w d) :
      Reachable fmt cfg (w.decided d)

/-- A run from `w` in which the planner only waits. -/
inductive WaitRun (fmt : Formats) (cfg : Planner.Config) (w : World) : World → Prop
  | refl : WaitRun fmt cfg w w
  | step {w₁ w₂ : World} (h : WaitRun fmt cfg w w₁) (hstep : Step w₁ w₂) : WaitRun fmt cfg w w₂
  | decide {w₁ : World} {d : Decision} (h : WaitRun fmt cfg w w₁) (hd : Decides fmt cfg w₁ d)
      (hwait : d.action.kind = .wait) : WaitRun fmt cfg w (w₁.decided d)

/-! ## Running the loop -/

/-- Steps of a run, with every pod answering and reading the current ConfigMap. -/
inductive Command
  | createPod (i : Nat)
  | startPod (i : Nat)
  | heartbeat (i j : Nat)
  | handoff (i : Nat)
  | setReplicas (n : Nat)
  | apply
  | decide

section

variable (fmt : Formats) (cfg : Planner.Config)

/-- The world after a command, if it can be carried out. -/
def World.exec (w : World) : Command → Option World
  | .createPod i =>
    if w.stsExists ∧ i < w.replicas ∧ w.pods[i]?.isNone then
      some { w with
        pods := w.pods.insert i { version := w.tmplVersion }
        pvcs := w.pvcs.insert i { w.pvcs[i]?.getD {} with stale := false } }
    else none
  | .startPod i =>
    match w.pods[i]?, w.pvcs[i]?, w.cm with
    | some p, some pvc, some cm =>
      match w.start i pvc cm with
      | .ok pvc' =>
        if p.running = false ∧ p.terminating = false then
          some { w with
            pods := w.pods.insert i
              { p with running := true, epoch := pvc'.epoch, view := pvc'.view.getD ∅ }
            pvcs := w.pvcs.insert i pvc' }
        else none
      | .error _ => none
    | _, _, _ => none
  | .heartbeat i j =>
    match w.pods[i]?, w.pods[j]? with
    | some p, some q =>
      if p.running ∧ q.running ∧ p.epoch < q.epoch ∧
          (memberID w.kv j ∈ p.view ∨ memberID w.kv i ∈ q.view) then
        some (w.adopt i p q.epoch q.view)
      else none
    | _, _ => none
  | .handoff i =>
    match w.pods[i]? with
    | some p =>
      if p.running ∧ w.handoffDone i p = false then
        some { w with pvcs := w.pvcs.modify i fun pvc => { pvc with handoffDone := p.epoch } }
      else none
    | none => none
  | .setReplicas n => some { w with kv := { w.kv with spec := { w.kv.spec with replicas := n } } }
  | .apply => w.decision.map fun d => w.apply d.action
  | .decide =>
    if w.cm.all fun cm => cm.epoch + 1 < epochLimit then
      (plan fmt cfg (w.observe ⟨0, fun _ => true, fun _ => 0, fun _ => 0⟩)).map w.decided
    else none

def World.run (w : World) : List Command → Option World
  | [] => some w
  | command :: rest => (w.exec fmt cfg command).bind fun w' => run w' rest

variable {fmt cfg} {w w' : World}

/-- Every command but `decide` is a step. -/
theorem step_of_exec {command : Command} (hc : command ≠ .decide)
    (he : w.exec fmt cfg command = some w') : Step w w' := by
  cases command with
  | createPod i =>
    simp only [World.exec] at he
    split_ifs at he with hfree
    cases he
    exact .cluster (.createPod i hfree.1 hfree.2.1 (by simpa using hfree.2.2))
  | startPod i =>
    simp only [World.exec] at he
    split at he
    · next p pvc cm hpod hpvc hcm =>
      split at he
      · next pvc' hstart =>
        split_ifs at he with hstopped
        cases he
        exact .cluster
          (.startPod i p pvc pvc' cm hpod hstopped.1 hstopped.2 hpvc (Or.inl hcm) hstart)
      · cases he
    · cases he
  | heartbeat i j =>
    simp only [World.exec] at he
    split at he
    · next p q hp hq =>
      split_ifs at he with hheard
      cases he
      obtain ⟨hpr, hqr, hepoch, hmember⟩ := hheard
      exact .cluster (.heartbeat i j p q hp hq hpr hqr hepoch hmember)
    · cases he
  | handoff i =>
    simp only [World.exec] at he
    split at he
    · next p hpod =>
      split_ifs at he with hpending
      cases he
      exact .cluster (.handoff i p hpod hpending.1 hpending.2)
    · cases he
  | setReplicas n =>
    cases he
    exact .setReplicas n
  | apply =>
    obtain ⟨d, hd, rfl⟩ := Option.map_eq_some_iff.mp he
    exact .apply d hd
  | decide => exact absurd rfl hc

theorem decides_of_exec (he : w.exec fmt cfg .decide = some w') :
    ∃ d, Decides fmt cfg w d ∧ w' = w.decided d := by
  simp only [World.exec] at he
  split_ifs at he with hlimit
  obtain ⟨d, hplan, rfl⟩ := Option.map_eq_some_iff.mp he
  refine ⟨d, ⟨fun cm hcm => ?_, _, hplan⟩, rfl⟩
  rw [hcm] at hlimit
  simpa using hlimit

theorem Reachable.exec (h : Reachable fmt cfg w) {command : Command}
    (he : w.exec fmt cfg command = some w') : Reachable fmt cfg w' := by
  by_cases hc : command = .decide
  · subst hc
    obtain ⟨d, hd, rfl⟩ := decides_of_exec he
    exact h.decide hd
  · exact h.step (step_of_exec hc he)

/-- Commands lead from reachable worlds to reachable ones. -/
theorem Reachable.run : ∀ {commands : List Command} {w : World}, Reachable fmt cfg w →
    w.run fmt cfg commands = some w' → Reachable fmt cfg w'
  | [], _, h, hr => Option.some.inj hr ▸ h
  | _ :: _, _, h, hr => by
    obtain ⟨w₁, he, hr⟩ := Option.bind_eq_some_iff.mp hr
    exact (h.exec he).run hr

/-- Commands that decide nothing are a run in which the planner only waits. -/
theorem WaitRun.run {w₀ : World} : ∀ {commands : List Command} {w : World},
    WaitRun fmt cfg w₀ w → .decide ∉ commands → w.run fmt cfg commands = some w' →
      WaitRun fmt cfg w₀ w'
  | [], _, h, _, hr => Option.some.inj hr ▸ h
  | _ :: _, _, h, hdecide, hr => by
    obtain ⟨w₁, he, hr⟩ := Option.bind_eq_some_iff.mp hr
    rw [List.mem_cons, not_or] at hdecide
    exact (h.step (step_of_exec (Ne.symm hdecide.1) he)).run hdecide.2 hr

end

/-! ## What an observation shows -/

section

variable {w : World} {g : Glance} {i : Nat}

theorem lt_foldr_max (base : Nat) : ∀ {l : List Nat}, i ∈ l →
    i < l.foldr (fun j n => max n (j + 1)) base
  | j :: l, h => by
    rw [List.foldr_cons]
    rcases List.mem_cons.mp h with rfl | h
    · omega
    · have := lt_foldr_max base h
      omega

/-- A pod that exists is in the list of pods. -/
theorem lt_listed {p : SimPod} (h : w.pods[i]? = some p) : i < w.listed :=
  lt_foldr_max _ (Std.ExtTreeMap.mem_keys.mpr
    (Std.ExtTreeMap.mem_iff_isSome_getElem?.mpr (h ▸ rfl)))

/-- Listed or not, a pod is observed as it is. -/
@[simp] theorem pod_observe : (w.observe g).pod i = w.podObs g i := by
  rw [Observation.pod, World.observe, List.getElem?_map]
  by_cases hi : i < w.listed
  · rw [List.getElem?_range hi]
    rfl
  · have hnone : w.pods[i]? = none := by
      cases hpod : w.pods[i]? with
      | none => rfl
      | some => exact absurd (lt_listed hpod) hi
    rw [List.getElem?_eq_none (by simpa using hi), World.podObs, hnone]
    rfl

theorem existing_podObs : (w.podObs g i).existing = w.pods[i]?.isSome := by
  unfold World.podObs
  cases w.pods[i]? <;> rfl

/-- A pod that answers `/membership` runs, and answers with its own epoch and view. -/
theorem exists_of_membership {m : Membership} (h : (w.podObs g i).membership = some m) :
    ∃ p, w.pods[i]? = some p ∧ p.running = true ∧ m.epoch = p.epoch ∧ m.members = p.view := by
  unfold World.podObs at h
  split at h
  · cases h
  · next p hpod =>
    simp only at h
    split_ifs at h with hanswers
    cases h
    exact ⟨p, hpod, hanswers.1, rfl, rfl⟩

/-- Its answer about the handoff is for its own epoch. -/
theorem exists_of_drain {answer : Planner.Handoff} (h : (w.podObs g i).drain = some answer) :
    ∃ p, w.pods[i]? = some p ∧ answer.epoch = p.epoch ∧ answer.drained = w.drained i p := by
  unfold World.podObs at h
  split at h
  · cases h
  · next p hpod =>
    simp only at h
    split_ifs at h with hanswers
    cases h
    exact ⟨p, hpod, rfl, rfl⟩

theorem terminating_podObs {p : SimPod} (h : w.pods[i]? = some p) :
    (w.podObs g i).terminating = p.terminating := by
  simp [World.podObs, h]

/-- The pods are listed by ordinal, and those that answer exist. -/
theorem listed_observe (w : World) (g : Glance) : Planner.Listed (w.observe g) := by
  constructor
  · intro i p hp
    rw [World.observe, List.getElem?_map] at hp
    obtain ⟨j, hj, rfl⟩ := Option.map_eq_some_iff.mp hp
    obtain ⟨hlt, rfl⟩ := List.getElem?_eq_some_iff.mp hj
    rw [List.getElem_range]
    unfold World.podObs
    split <;> rfl
  · intro p hp hmembership
    obtain ⟨i, -, rfl⟩ := List.mem_map.mp hp
    obtain ⟨m, hm⟩ := Option.isSome_iff_exists.mp hmembership
    obtain ⟨p, hpod, -⟩ := exists_of_membership hm
    rw [existing_podObs, hpod]
    rfl

theorem mem_pvcs_observe : i ∈ (w.observe g).pvcs ↔ i ∈ w.pvcs :=
  Std.ExtTreeMap.mem_keys

end

end Operator

end DistributedKV
