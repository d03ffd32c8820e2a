import DistributedKV.Operator

/-!
# One membership change at a time

Every world that the operator's loop reaches stands at a `Stage` of one membership change.
A stage says what the ConfigMap holds, what it may have held before, how many replicas the
StatefulSet has and what the volume at each ordinal may hold. The steps of the cluster keep
the stage (`At.clusterStep`), an action that was chosen moves it on once (`At.apply_pending`,
`At.apply_done`), and every decision of the planner is a move from where the world stands
(`At.decides`). So at most one change is in flight (`one_change_in_flight`), a pod is removed
only once it has drained and never created on an old volume (`removed_pods_drained`), and an
operator that restarts goes on where it was (`restart_changes_nothing`).
-/

namespace DistributedKV

namespace Operator

open Planner

/-! ## Stages -/

/-- Where a membership change stands : pod `k` joins `k` members that are at epoch `E`, or
leaves `k + 1` of them. -/
inductive Stage
  | empty
  /-- The ConfigMap names the first `k` members. -/
  | named (k : Nat)
  /-- The StatefulSet creates them. -/
  | filling (k : Nat)
  /-- The ConfigMap names pod `k`. -/
  | announced (E k : Nat)
  /-- The StatefulSet creates pod `k`. -/
  | joining (E k : Nat)
  | settled (E k : Nat)
  /-- Pod 0 has the membership without pod `k`. -/
  | removing (E k : Nat)
  /-- Pod `k` was drained when the planner looked. -/
  | drained (E k : Nat)
  /-- The ConfigMap no longer names pod `k`. -/
  | leaving (E k : Nat)
  /-- The StatefulSet removes pod `k`. -/
  | left (E k : Nat)

/-- What is at an ordinal : no pod, a pod with a fresh volume, or one that holds a membership. -/
inductive Content
  | absent
  | fresh
  | holds (h : Holding)

namespace Stage

def cm : Stage → Option Holding
  | empty => none
  | named k => some ⟨0, k⟩
  | filling k => some ⟨0, k⟩
  | announced E k => some ⟨E + 1, k + 1⟩
  | joining E k => some ⟨E + 1, k + 1⟩
  | settled E k => some ⟨E, k⟩
  | removing E k => some ⟨E, k + 1⟩
  | drained E k => some ⟨E, k + 1⟩
  | leaving E k => some ⟨E + 1, k⟩
  | left E k => some ⟨E + 1, k⟩

/-- What the ConfigMap may have held before. -/
def Before : Stage → Holding → Prop
  | empty, _ => False
  | named _, _ => False
  | filling _, _ => False
  | announced E k, h => h = ⟨E, k⟩
  | joining E k, h => h = ⟨E, k⟩
  | settled E _, h => h.epoch < E
  | removing E _, h => h.epoch < E
  | drained E _, h => h.epoch < E
  | leaving E _, h => h.epoch < E + 1
  | left E _, h => h.epoch < E + 1

/-- The StatefulSet's replicas, if it exists. -/
def sts : Stage → Option Nat
  | empty => none
  | named _ => none
  | filling k => some k
  | announced _ k => some k
  | joining _ k => some (k + 1)
  | settled _ k => some k
  | removing _ k => some (k + 1)
  | drained _ k => some (k + 1)
  | leaving _ k => some (k + 1)
  | left _ k => some k

def contents : Stage → Nat → List Content
  | empty, _ => [.absent]
  | named _, _ => [.absent]
  | filling k, i => if i < k then [.absent, .fresh, .holds ⟨0, k⟩] else [.absent]
  | announced E k, i =>
    if i < k then [.holds ⟨E, k⟩, .holds ⟨E + 1, k + 1⟩] else [.absent]
  | joining E k, i =>
    if i < k then [.holds ⟨E, k⟩, .holds ⟨E + 1, k + 1⟩]
    else if i = k then [.absent, .fresh, .holds ⟨E + 1, k + 1⟩] else [.absent]
  | settled E k, i => if i < k then [.holds ⟨E, k⟩] else [.absent]
  | removing E k, i =>
    if i = 0 then [.holds ⟨E + 1, k⟩]
    else if i ≤ k then [.holds ⟨E, k + 1⟩, .holds ⟨E + 1, k⟩] else [.absent]
  | drained E k, i => if i ≤ k then [.holds ⟨E + 1, k⟩] else [.absent]
  | leaving E k, i => if i ≤ k then [.holds ⟨E + 1, k⟩] else [.absent]
  | left E k, i =>
    if i < k then [.holds ⟨E + 1, k⟩]
    else if i = k then [.absent, .holds ⟨E + 1, k⟩] else [.absent]

/-- The ordinal whose pod goes away and whose volume is left behind. -/
def released : Stage → Option Nat
  | left _ k => some k
  | _ => none

/-- The ordinal whose pod has drained and is to be removed. -/
def leaver : Stage → Option Nat
  | drained _ k => some k
  | leaving _ k => some k
  | _ => none

/-- What a pod may read when it starts. -/
def Visible (s : Stage) (h : Holding) : Prop :=
  s.cm = some h ∨ s.Before h

variable {s : Stage} {i j : Nat} {g h : Holding}

theorem fresh_of_absent (ha : .absent ∈ s.contents i) (hi : i < s.sts.getD 0) :
    .fresh ∈ s.contents i := by
  cases s <;> simp_all [contents, sts] <;> grind

theorem released_of_le (hf : .fresh ∈ s.contents i ∨ .holds h ∈ s.contents i)
    (hi : s.sts.getD 0 ≤ i) : s.released = some i := by
  cases s <;> simp_all [contents, sts, released] <;> grind

theorem absent_of_released (hr : s.released = some i) :
    .absent ∈ s.contents i ∧ s.sts = some i := by
  cases s <;> simp_all [contents, sts, released]

theorem holds_of_fresh (hf : .fresh ∈ s.contents i) (hv : s.Visible h) (hi : i < h.size) :
    .holds h ∈ s.contents i := by
  cases s <;> simp_all [contents, Visible, Before, cm] <;> grind

theorem holds_of_newer (hg : .holds g ∈ s.contents i) (hv : s.Visible h) (hi : i < h.size)
    (he : g.epoch < h.epoch) : .holds h ∈ s.contents i := by
  cases s <;> simp_all [contents, Visible, Before, cm] <;> grind

theorem eq_of_epoch_eq (hg : .holds g ∈ s.contents i) (hv : s.Visible h)
    (he : g.epoch = h.epoch) : g = h := by
  cases s <;> simp_all [contents, Visible, Before, cm] <;> grind

theorem holds_of_heard (hg : .holds g ∈ s.contents i) (hh : .holds h ∈ s.contents j)
    (he : g.epoch < h.epoch) : .holds h ∈ s.contents i := by
  cases s <;> simp_all [contents] <;> grind

theorem eq_empty (hc : s.cm = none) : s = empty := by
  cases s <;> simp_all [cm]

theorem eq_named {E k : Nat} (hc : s.cm = some ⟨E, k⟩) (hs : s.sts = none) : s = named k := by
  cases s <;> simp_all [cm, sts]

theorem eq_announced {E k : Nat} (hc : s.cm = some ⟨E, k + 1⟩) (hs : s.sts = some k) :
    ∃ E', s = announced E' k := by
  cases s <;> simp [cm, sts] at hc hs ⊢ <;> omega

theorem eq_leaving {E k : Nat} (hc : s.cm = some ⟨E, k⟩) (hs : s.sts = some (k + 1)) :
    ∃ E', s = leaving E' k := by
  cases s <;> simp [cm, sts] at hc hs ⊢ <;> omega

theorem Before.lt (hb : s.Before h) (hg : s.cm = some g) : h.epoch < g.epoch := by
  cases s <;> simp_all [Before, cm] <;> grind

end Stage

/-! ## Worlds at a stage -/

/-- The ConfigMap with a membership. -/
def render (c : KVCluster) (h : Holding) : ConfigMapObs :=
  ⟨h.epoch, members c h.size, ""⟩

/-- What is stored on a volume in use is something the stage has at that ordinal. -/
inductive Stored (c : KVCluster) (s : Stage) (i : Nat) (pvc : SimPVC) : Prop
  | fresh (hview : pvc.view = none) (h : .fresh ∈ s.contents i)
  | holds (h : Holding) (hmem : .holds h ∈ s.contents i) (hepoch : pvc.epoch = h.epoch)
      (hview : pvc.view = some (members c h.size))

/-- The pod and the volume at an ordinal. -/
inductive SlotOk (c : KVCluster) (s : Stage) (i : Nat) : Option SimPod → Option SimPVC → Prop
  | absent (h : .absent ∈ s.contents i) : SlotOk c s i none none
  | released {pvc : SimPVC} (hstale : pvc.stale = true) (h : s.released = some i) :
      SlotOk c s i none (some pvc)
  | used {p : SimPod} {pvc : SimPVC} (hstale : pvc.stale = false)
      (hrunning : p.running = true → p.epoch = pvc.epoch ∧ pvc.view = some p.view)
      (hterm : p.terminating = true → s.released = some i)
      (hdrained : s.leaver = some i → p.drainedOnce = true) (hstored : Stored c s i pvc) :
      SlotOk c s i (some p) (some pvc)

structure At (s : Stage) (w : World) : Prop where
  cm : w.cm = s.cm.map (render w.kv)
  prev : ∀ cm, w.prevCM = some cm → ∃ h, s.Before h ∧ cm = render w.kv h
  stsExists : w.stsExists = s.sts.isSome
  replicas : w.replicas = s.sts.getD 0
  slot : ∀ i, SlotOk w.kv s i w.pods[i]? w.pvcs[i]?

section

variable {c : KVCluster} {s s' : Stage} {w w' : World} {i : Nat} {p : SimPod} {pvc : SimPVC}

theorem SlotOk.exists_pvc {q : Option SimPVC} (h : SlotOk c s i (some p) q) :
    ∃ pvc, q = some pvc ∧ pvc.stale = false ∧
      (p.running = true → p.epoch = pvc.epoch ∧ pvc.view = some p.view) ∧
      (p.terminating = true → s.released = some i) ∧
      (s.leaver = some i → p.drainedOnce = true) ∧ Stored c s i pvc := by
  cases h with
  | used hstale hrunning hterm hdrained hstored =>
    exact ⟨_, rfl, hstale, hrunning, hterm, hdrained, hstored⟩

/-- A running pod holds something the stage has at its ordinal. -/
theorem At.running (h : At s w) (hpod : w.pods[i]? = some p) (hrunning : p.running = true) :
    ∃ g, .holds g ∈ s.contents i ∧ p.epoch = g.epoch ∧ p.view = members w.kv g.size := by
  obtain ⟨pvc, -, -, hagree, -, -, hstored⟩ := (hpod ▸ h.slot i).exists_pvc
  obtain ⟨hepoch, hview⟩ := hagree hrunning
  cases hstored with
  | fresh hfresh =>
    rw [hfresh] at hview
    cases hview
  | holds g hmem hge hgv =>
    exact ⟨g, hmem, hepoch.trans hge, Option.some.inj (hview.symm.trans hgv)⟩

/-- Only one ordinal changes. -/
theorem At.setSlot (h : At s w) {pods : Std.ExtTreeMap Nat SimPod}
    {pvcs : Std.ExtTreeMap Nat SimPVC} (i : Nat)
    (hpods : ∀ j, j ≠ i → pods[j]? = w.pods[j]?) (hpvcs : ∀ j, j ≠ i → pvcs[j]? = w.pvcs[j]?)
    (hslot : SlotOk w.kv s i pods[i]? pvcs[i]?) : At s { w with pods := pods, pvcs := pvcs } where
  cm := h.cm
  prev := h.prev
  stsExists := h.stsExists
  replicas := h.replicas
  slot j := by
    by_cases hj : j = i
    · rw [hj]
      exact hslot
    · show SlotOk w.kv s j pods[j]? pvcs[j]?
      rw [hpods j hj, hpvcs j hj]
      exact h.slot j

theorem getElem?_insert_ne {α : Type*} (m : Std.ExtTreeMap Nat α) (i : Nat) (x : α) (j : Nat)
    (hj : j ≠ i) : (m.insert i x)[j]? = m[j]? := by
  rw [Std.ExtTreeMap.getElem?_insert, if_neg (by simpa using hj.symm)]

theorem getElem?_erase_ne {α : Type*} (m : Std.ExtTreeMap Nat α) (i j : Nat) (hj : j ≠ i) :
    (m.erase i)[j]? = m[j]? := by
  rw [Std.ExtTreeMap.getElem?_erase, if_neg (by simpa using hj.symm)]

theorem getElem?_modify_ne {α : Type*} (m : Std.ExtTreeMap Nat α) (i : Nat) (f : α → α) (j : Nat)
    (hj : j ≠ i) : (m.modify i f)[j]? = m[j]? := by
  rw [Std.ExtTreeMap.getElem?_modify, if_neg (by simpa using hj.symm)]

/-- A pod changes and keeps its volume. -/
theorem At.setPod (h : At s w) (hpod : w.pods[i]? = some p) {p' : SimPod}
    (hrunning : p'.running = true → p.running = true ∧ p'.epoch = p.epoch ∧ p'.view = p.view)
    (hterm : p'.terminating = true → p.terminating = true ∨ s.released = some i)
    (hdrained : p.drainedOnce = true → p'.drainedOnce = true) :
    At s { w with pods := w.pods.insert i p' } := by
  refine h.setSlot i (getElem?_insert_ne _ i p') (fun _ _ => rfl) ?_
  obtain ⟨pvc, hpvc, hstale, hagree, hterm₀, hdrained₀, hstored⟩ := (hpod ▸ h.slot i).exists_pvc
  rw [Std.ExtTreeMap.getElem?_insert_self, hpvc]
  refine .used hstale (fun hr => ?_) (fun ht => (hterm ht).elim hterm₀ id)
    (fun hl => hdrained (hdrained₀ hl)) hstored
  obtain ⟨hr, he, hv⟩ := hrunning hr
  rw [he, hv]
  exact hagree hr

/-- A pod adopts what a stage has at its ordinal. -/
theorem SlotOk.adopt {q : Option SimPVC} (h : SlotOk c s i (some p) q) {g : Holding}
    (hmem : .holds g ∈ s'.contents i) (hr : s.released = some i → s'.released = some i)
    (hl : s'.leaver = some i → s.leaver = some i) :
    SlotOk c s' i (some { p with epoch := g.epoch, view := members c g.size })
      (q.map fun pvc => { pvc with epoch := g.epoch, view := some (members c g.size) }) := by
  obtain ⟨pvc, rfl, hstale, -, hterm, hdrained, -⟩ := h.exists_pvc
  exact .used hstale (fun _ => ⟨rfl, rfl⟩) (fun ht => hr (hterm ht)) (fun ht => hdrained (hl ht))
    (.holds g hmem rfl rfl)

/-- What a pod may read is visible at the stage. -/
theorem At.visible (h : At s w) {cm : ConfigMapObs} (hcm : w.cm = some cm ∨ w.prevCM = some cm) :
    ∃ g, s.Visible g ∧ cm = render w.kv g := by
  rcases hcm with hcm | hcm
  · rw [h.cm] at hcm
    obtain ⟨g, hg, rfl⟩ := Option.map_eq_some_iff.mp hcm
    exact ⟨g, Or.inl hg, rfl⟩
  · obtain ⟨g, hg, rfl⟩ := h.prev cm hcm
    exact ⟨g, Or.inr hg, rfl⟩

/-- A pod that starts stays within the stage. -/
theorem Stored.start (h : Stored w.kv s i pvc) {g : Holding} (hg : s.Visible g) :
    w.start i pvc (render w.kv g) ≠ .error .conflict ∧
      ∀ pvc', w.start i pvc (render w.kv g) = .ok pvc' →
        Stored w.kv s i pvc' ∧ pvc'.stale = pvc.stale ∧ pvc'.view.isSome := by
  unfold World.start render
  by_cases hlisted : memberID w.kv i ∈ members w.kv g.size
  · rw [if_neg (not_not.mpr hlisted)]
    have hi : i < g.size := mem_members.mp hlisted
    cases h with
    | fresh hview hfresh =>
      simp only [hview]
      refine ⟨by simp, fun pvc' hok => ?_⟩
      obtain rfl := Except.ok.inj hok
      exact ⟨.holds g (Stage.holds_of_fresh hfresh hg hi) rfl rfl, rfl, rfl⟩
    | holds f hmem hepoch hview =>
      simp only [hview]
      split_ifs with hnewer hconflict
      · refine ⟨by simp, fun pvc' hok => ?_⟩
        obtain rfl := Except.ok.inj hok
        exact ⟨.holds g (Stage.holds_of_newer hmem hg hi (hepoch ▸ hnewer)) rfl rfl, rfl, rfl⟩
      · refine absurd ?_ hconflict.2
        rw [Stage.eq_of_epoch_eq hmem hg (hepoch.symm.trans hconflict.1.symm)]
      · refine ⟨by simp, fun pvc' hok => ?_⟩
        obtain rfl := Except.ok.inj hok
        exact ⟨.holds f hmem hepoch hview, rfl, hview ▸ rfl⟩
  · rw [if_pos hlisted]
    exact ⟨by simp, fun pvc' hok => by cases hok⟩

/-- The steps of the cluster keep the stage. -/
theorem At.clusterStep (h : At s w) (hstep : ClusterStep w w') : At s w' := by
  cases hstep with
  | createPod i hsts hi hpod =>
    have hslot := h.slot i
    rw [hpod] at hslot
    refine h.setSlot i (getElem?_insert_ne _ i _) (getElem?_insert_ne _ i _) ?_
    rw [Std.ExtTreeMap.getElem?_insert_self, Std.ExtTreeMap.getElem?_insert_self]
    rw [h.replicas] at hi
    generalize w.pvcs[i]? = q at hslot ⊢
    cases hslot with
    | absent habsent =>
      have hfresh := Stage.fresh_of_absent habsent hi
      refine .used rfl (by simp) (by simp) (fun hl => ?_) (.fresh rfl hfresh)
      cases s <;> simp_all [Stage.leaver, Stage.contents]
    | released _ hr =>
      have := (Stage.absent_of_released hr).2
      simp [this] at hi
  | terminatePod i p hsts hi hpod =>
    refine h.setPod hpod (fun hr => ⟨hr, rfl, rfl⟩) (fun _ => Or.inr ?_) id
    obtain ⟨pvc, -, -, -, -, -, hstored⟩ := (hpod ▸ h.slot i).exists_pvc
    rw [h.replicas] at hi
    cases hstored with
    | fresh _ hmem => exact Stage.released_of_le (h := ⟨0, 0⟩) (Or.inl hmem) hi
    | holds g hmem => exact Stage.released_of_le (Or.inr hmem) hi
  | rollPod i p hsts hi hpod =>
    exact h.setPod hpod (by simp) Or.inl id
  | removePod i p hpod hterm =>
    obtain ⟨pvc, hpvc, -, -, hr, -⟩ := (hpod ▸ h.slot i).exists_pvc
    refine h.setSlot i (getElem?_erase_ne _ i) (getElem?_modify_ne _ i _) ?_
    rw [Std.ExtTreeMap.getElem?_erase_self, Std.ExtTreeMap.getElem?_modify_self, hpvc]
    exact .released rfl (hr hterm)
  | deletePVC i pvc hpvc hstale =>
    refine h.setSlot i (fun _ _ => rfl) (getElem?_erase_ne _ i) ?_
    rw [Std.ExtTreeMap.getElem?_erase_self]
    have hslot := h.slot i
    rw [hpvc] at hslot
    generalize w.pods[i]? = q at hslot ⊢
    cases hslot with
    | released _ hr => exact .absent (Stage.absent_of_released hr).1
    | used hfalse => simp [hstale] at hfalse
  | startPod i p pvc pvc' cm hpod hstopped hterm hpvc hcm hstart =>
    obtain ⟨g, hg, rfl⟩ := h.visible hcm
    obtain ⟨pvc₀, hpvc₀, hstale, -, hterm₀, hdrained₀, hstored⟩ := (hpod ▸ h.slot i).exists_pvc
    obtain rfl := Option.some.inj (hpvc.symm.trans hpvc₀)
    obtain ⟨hstored', hstale', hview⟩ := (hstored.start hg).2 pvc' hstart
    obtain ⟨view, hview⟩ := Option.isSome_iff_exists.mp hview
    refine h.setSlot i (getElem?_insert_ne _ i _) (getElem?_insert_ne _ i pvc') ?_
    rw [Std.ExtTreeMap.getElem?_insert_self, Std.ExtTreeMap.getElem?_insert_self]
    exact .used (hstale'.trans hstale) (fun _ => ⟨rfl, by simp [hview]⟩) hterm₀ hdrained₀ hstored'
  | crash i p hpod =>
    exact h.setPod hpod (by simp) Or.inl id
  | heartbeat i j p q hp hq hpr hqr hepoch _ =>
    obtain ⟨f, hf, hfe, -⟩ := h.running hp hpr
    obtain ⟨g, hg, hge, hgv⟩ := h.running hq hqr
    have hmem := Stage.holds_of_heard hf hg (hfe ▸ hge ▸ hepoch)
    refine h.setSlot i (getElem?_insert_ne _ i _) (getElem?_modify_ne _ i _) ?_
    rw [Std.ExtTreeMap.getElem?_insert_self, Std.ExtTreeMap.getElem?_modify_self, hge, hgv]
    exact (hp ▸ h.slot i).adopt hmem id id
  | handoff i p hpod hrunning _ =>
    obtain ⟨pvc, hpvc, hstale, hagree, hterm, hdrained, hstored⟩ :=
      (hpod ▸ h.slot i).exists_pvc
    refine h.setSlot i (fun _ _ => rfl) (getElem?_modify_ne _ i _) ?_
    rw [Std.ExtTreeMap.getElem?_modify_self, hpvc, hpod]
    refine .used hstale hagree hterm hdrained ?_
    cases hstored with
    | fresh hview hmem => exact .fresh hview hmem
    | holds g hmem hepoch hview => exact .holds g hmem hepoch hview

end

/-! ## Moves -/

/-- What an action is to change. -/
inductive Effect
  | write (h : Holding)
  | scale (k : Nat)
  | post (h : Holding)

/-- The moves of a membership change that the planner makes. -/
inductive Move : Stage → Effect → Stage → Prop
  | create (k : Nat) : Move .empty (.write ⟨0, k⟩) (.named k)
  | createSet (k : Nat) : Move (.named k) (.scale k) (.filling k)
  | grow (E k : Nat) : Move (.settled E k) (.write ⟨E + 1, k + 1⟩) (.announced E k)
  | scaleUp (E k : Nat) : Move (.announced E k) (.scale (k + 1)) (.joining E k)
  | post (E k : Nat) : Move (.settled E (k + 1)) (.post ⟨E + 1, k⟩) (.removing E k)
  | drained (E k : Nat) : Move (.drained E k) (.write ⟨E + 1, k⟩) (.leaving E k)
  | scaleDown (E k : Nat) : Move (.leaving E k) (.scale k) (.left E k)

/-- The action has this effect. -/
def Does (c : KVCluster) (a : Action) : Effect → Prop
  | .write h => a.kind = .writeConfigMap ∧ a.epoch = h.epoch ∧ a.members = members c h.size
  | .scale k => a.kind = .scaleStatefulSet ∧ a.replicas = k
  | .post h => a.kind = .postMembership ∧ a.ordinal = 0 ∧ a.epoch = h.epoch ∧
      a.members = members c h.size

/-- How the action that was chosen stands to the stage : it changes no membership, it is to
move the stage on, or it has done so. -/
inductive Planned (c : KVCluster) (a : Action) (s : Stage) : Prop
  | idle (h : a.kind = .wait ∨ a.kind = .none ∨ a.kind = .updateTemplate)
  | pending {e : Effect} {s' : Stage} (hmove : Move s e s') (hdoes : Does c a e)
  | done {e : Effect} {s₀ : Stage} (hmove : Move s₀ e s) (hdoes : Does c a e)

/-- What is at an ordinal of `s` may be there at `s'`. -/
def Stage.Extends (s s' : Stage) (i : Nat) : Prop :=
  (∀ x ∈ s.contents i, x ∈ s'.contents i) ∧ (s.released = some i → s'.released = some i) ∧
    (s'.leaver = some i → s.leaver = some i)

section

variable {c : KVCluster} {s s' : Stage} {w w' : World} {i k : Nat} {a : Action} {h : Holding}

theorem SlotOk.extends {p : Option SimPod} {q : Option SimPVC} (hslot : SlotOk c s i p q)
    (hext : s.Extends s' i) : SlotOk c s' i p q := by
  obtain ⟨hcontents, hreleased, hleaver⟩ := hext
  cases hslot with
  | absent habsent => exact .absent (hcontents _ habsent)
  | released hstale hr => exact .released hstale (hreleased hr)
  | used hstale hrunning hterm hdrained hstored =>
    refine .used hstale hrunning (fun ht => hreleased (hterm ht))
      (fun hl => hdrained (hleaver hl)) ?_
    cases hstored with
    | fresh hview hmem => exact .fresh hview (hcontents _ hmem)
    | holds g hmem hepoch hview => exact .holds g (hcontents _ hmem) hepoch hview

theorem Move.write_cm (hm : Move s (.write h) s') :
    s.cm ≠ some h ∧ s'.cm = some h ∧ s'.sts = s.sts ∧ ∀ g, s.cm = some g → s'.Before g := by
  cases hm <;> simp [Stage.cm, Stage.sts, Stage.Before]

theorem Move.write_extends (hm : Move s (.write h) s') (i : Nat) : s.Extends s' i := by
  cases hm <;>
    simp only [Stage.Extends, Stage.contents, Stage.released, Stage.leaver] <;> grind

theorem Move.scale_cm (hm : Move s (.scale k) s') :
    s'.cm = s.cm ∧ s'.sts = some k ∧ ∀ g, s.Before g → s'.Before g := by
  cases hm <;> simp [Stage.cm, Stage.sts, Stage.Before]

theorem Move.scale_extends (hm : Move s (.scale k) s') (i : Nat) : s.Extends s' i := by
  cases hm <;>
    simp only [Stage.Extends, Stage.contents, Stage.released, Stage.leaver] <;> grind

theorem render_inj {g : Holding} (heq : render c g = render c h) : g = h := by
  obtain ⟨hepoch, hmembers, -⟩ := ConfigMapObs.mk.inj heq
  cases g
  cases h
  obtain rfl := members_inj hmembers
  exact congrArg (Holding.mk · _) hepoch

theorem At.cm_eq_some (hat : At s w) : w.cm = some (render w.kv h) ↔ s.cm = some h := by
  rw [hat.cm]
  constructor
  · intro heq
    obtain ⟨g, hg, hrender⟩ := Option.map_eq_some_iff.mp heq
    rw [hg, render_inj hrender]
  · intro heq
    rw [heq]
    rfl

/-- An action that is to move the stage on does so, or a post to a stopped pod fails. -/
theorem At.apply_pending (hat : At s w) {e : Effect} (hmove : Move s e s')
    (hdoes : Does w.kv a e) : At s' (w.apply a) ∨ w.apply a = w := by
  cases e with
  | write g =>
    obtain ⟨hkind, hepoch, hmembers⟩ := hdoes
    obtain ⟨hne, hcm, hsts, hbefore⟩ := hmove.write_cm
    have hw : w.apply a = { w with cm := some (render w.kv g), prevCM := w.cm } := by
      rw [World.apply, hkind, hepoch, hmembers]
      exact if_neg (fun heq => hne (hat.cm_eq_some.mp heq))
    rw [hw]
    refine Or.inl ⟨by rw [hcm]; rfl, fun cm hprev => ?_, hsts ▸ hat.stsExists,
      hsts ▸ hat.replicas, fun i => (hat.slot i).extends (hmove.write_extends i)⟩
    obtain ⟨f, hf, rfl⟩ := hat.visible (Or.inl hprev)
    exact ⟨f, hbefore f (hat.cm_eq_some.mp hprev), rfl⟩
  | scale =>
    obtain ⟨hkind, hreplicas⟩ := hdoes
    obtain ⟨hcm, hsts, hbefore⟩ := hmove.scale_cm
    rw [World.apply, hkind]
    refine Or.inl ⟨hcm ▸ hat.cm, fun cm hprev => ?_, by rw [hsts]; rfl, by rw [hsts]; exact hreplicas,
      fun i => (hat.slot i).extends (hmove.scale_extends i)⟩
    obtain ⟨f, hf, rfl⟩ := hat.prev cm hprev
    exact ⟨f, hbefore f hf, rfl⟩
  | post g =>
    obtain ⟨hkind, hordinal, hepoch, hmembers⟩ := hdoes
    cases hmove with
    | post E k =>
      rw [World.apply, hkind, hordinal, hepoch, hmembers]
      simp only
      split
      · exact Or.inr rfl
      · next p hpod =>
        split_ifs with hadopts
        · refine Or.inl ⟨hat.cm, hat.prev, hat.stsExists, hat.replicas, fun i => ?_⟩
          by_cases hi : i = 0
          · subst hi
            show SlotOk w.kv _ 0 (w.pods.insert 0 _)[0]? (w.pvcs.modify 0 _)[0]?
            rw [Std.ExtTreeMap.getElem?_insert_self, Std.ExtTreeMap.getElem?_modify_self]
            refine (hpod ▸ hat.slot 0).adopt (g := ⟨E + 1, k⟩) ?_ ?_ ?_
            · simp [Stage.contents]
            · simp [Stage.released]
            · simp [Stage.leaver]
          · show SlotOk w.kv _ i (w.pods.insert 0 _)[i]? (w.pvcs.modify 0 _)[i]?
            rw [getElem?_insert_ne _ _ _ _ hi, getElem?_modify_ne _ _ _ _ hi]
            refine (hat.slot i).extends ?_
            simp only [Stage.Extends, Stage.contents, Stage.released, Stage.leaver]
            grind
        · exact Or.inr rfl

/-- Once an action has had its effect, it changes nothing more of the membership. -/
theorem At.apply_done (hat : At s w) {e : Effect} {s₀ : Stage} (hmove : Move s₀ e s)
    (hdoes : Does w.kv a e) : At s (w.apply a) := by
  cases e with
  | write =>
    obtain ⟨hkind, hepoch, hmembers⟩ := hdoes
    have hw : w.apply a = w := by
      rw [World.apply, hkind, hepoch, hmembers]
      exact if_pos (hat.cm_eq_some.mpr hmove.write_cm.2.1)
    exact hw.symm ▸ hat
  | scale =>
    obtain ⟨hkind, hreplicas⟩ := hdoes
    obtain ⟨-, hsts, -⟩ := hmove.scale_cm
    rw [World.apply, hkind]
    exact ⟨hat.cm, hat.prev, by rw [hsts]; rfl, by rw [hsts]; exact hreplicas, hat.slot⟩
  | post =>
    obtain ⟨hkind, hordinal, hepoch, hmembers⟩ := hdoes
    cases hmove with
    | post E k =>
      have hw : w.apply a = w := by
        rw [World.apply, hkind, hordinal, hepoch, hmembers]
        simp only
        split
        · rfl
        · next p hpod =>
          refine if_neg fun hadopts => ?_
          obtain ⟨f, hf, hfe, -⟩ := hat.running hpod hadopts.1
          obtain rfl : f = ⟨E + 1, k⟩ := by simpa [Stage.contents] using hf
          exact absurd hadopts.2 (by simp [hfe])
      exact hw.symm ▸ hat

theorem At.apply_idle (hat : At s w)
    (hidle : a.kind = .wait ∨ a.kind = .none ∨ a.kind = .updateTemplate) : At s (w.apply a) := by
  rcases hidle with hkind | hkind | hkind <;> rw [World.apply, hkind]
  · exact hat
  · exact hat
  · exact ⟨hat.cm, hat.prev, hat.stsExists, hat.replicas, hat.slot⟩

end

/-! ## Decisions -/

section

variable {fmt : Formats} {cfg : Planner.Config} {s s' : Stage} {w : World} {g : Glance} {i k E : Nat}
  {d : Decision} {cm : ConfigMapObs}

theorem replicas_of_statefulSet {sts : StatefulSetObs}
    (h : (w.observe g).statefulSet = some sts) :
    w.stsExists = true ∧ sts.replicas = w.replicas := by
  change w.statefulSetObs = some sts at h
  unfold World.statefulSetObs at h
  split_ifs at h with hexists
  cases h
  exact ⟨hexists, rfl⟩

theorem stsExists_of_statefulSet (h : (w.observe g).statefulSet = none) :
    w.stsExists = false := by
  change w.statefulSetObs = none at h
  unfold World.statefulSetObs at h
  split_ifs at h with hexists
  simpa using hexists

theorem recordDrained_pod (w : World) (i : Nat) : w.recordDrained.pods[i]? = w.pods[i]?.map fun p =>
    if w.drained i p then { p with drainedOnce := true } else p :=
  Std.ExtTreeMap.getElem?_map

theorem At.recordDrained (h : At s w) : At s w.recordDrained := by
  refine ⟨h.cm, h.prev, h.stsExists, h.replicas, fun i => ?_⟩
  rw [recordDrained_pod]
  have hslot := h.slot i
  show SlotOk w.kv s i _ w.pvcs[i]?
  generalize w.pods[i]? = p, w.pvcs[i]? = q at hslot ⊢
  cases hslot with
  | absent habsent => exact .absent habsent
  | released hstale hr => exact .released hstale hr
  | used hstale hrunning hterm hdrained hstored =>
    rw [Option.map_some]
    split_ifs
    · exact .used hstale hrunning hterm (fun _ => rfl) hstored
    · exact .used hstale hrunning hterm hdrained hstored

theorem At.sts_eq (h : At s w) (hsts : w.stsExists = true) : s.sts = some w.replicas := by
  have hexists := h.stsExists
  have hreplicas := h.replicas
  cases hs : s.sts with
  | none => simp_all
  | some => simp_all

theorem At.cm_eq (h : At s w) (hcm : w.cm = some cm) (hmembers : cm.members = members w.kv k) :
    s.cm = some ⟨cm.epoch, k⟩ := by
  obtain ⟨⟨epoch, size⟩, -, rfl⟩ := h.visible (Or.inl hcm)
  obtain rfl := members_inj hmembers
  exact h.cm_eq_some.mp hcm

/-- A cluster that an observation shows stable is settled. -/
theorem At.settled_of_stable (h : At s w) (hsts : w.stsExists = true)
    (hcm : s.cm = some ⟨E, w.replicas⟩) (hstable : Stable (w.observe g) w.replicas E) :
    At (.settled E w.replicas) w := by
  refine ⟨h.cm_eq_some.mpr hcm, fun cm hprev => ?_, hsts, rfl, fun i => ?_⟩
  · obtain ⟨e, he, rfl⟩ := h.prev cm hprev
    exact ⟨e, he.lt hcm, rfl⟩
  have hslot := h.slot i
  by_cases hi : i < w.replicas
  · obtain ⟨hhealthy, m, hm, hepoch, hview, -⟩ := hstable.pods i hi
    rw [pod_observe] at hhealthy hm
    obtain ⟨p, hpod, hrunning, hpe, hpv⟩ := exists_of_membership hm
    have hterm : p.terminating = false := by
      rw [PodObs.healthy, terminating_podObs hpod] at hhealthy
      simp only [Bool.and_eq_true, Bool.not_eq_true'] at hhealthy
      exact hhealthy.1.1.2
    rw [hpod] at hslot ⊢
    obtain ⟨pvc, hpvc, hstale, hagree, -⟩ := hslot.exists_pvc
    obtain ⟨hae, hav⟩ := hagree hrunning
    rw [hpvc]
    refine .used hstale hagree (by simp [hterm]) (by simp [Stage.leaver])
      (.holds ⟨E, w.replicas⟩ (by simp [Stage.contents, hi]) ?_ ?_)
    · rw [← hae, ← hpe, hepoch]
    · rw [hav, ← hpv, hview]
      rfl
  · have hnone : w.pods[i]? = none := by
      cases hpod : w.pods[i]? with
      | none => rfl
      | some =>
        have hexisting : (w.podObs g i).existing = true := by rw [existing_podObs, hpod]; rfl
        have hmem : w.podObs g i ∈ (w.observe g).pods :=
          List.mem_map_of_mem (List.mem_range.mpr (lt_listed hpod))
        have hordinal : (w.podObs g i).ordinal = i := by simp [World.podObs, hpod]
        rw [hstable.noPod _ hmem (by omega)] at hexisting
        cases hexisting
    have hfree : w.pvcs[i]? = none := by
      refine Std.ExtTreeMap.getElem?_eq_none fun hmem => hi ?_
      exact hstable.noPVC i (mem_pvcs_observe.mpr hmem)
    rw [hnone, hfree]
    exact .absent (by simp [Stage.contents, hi])

theorem Stage.drain_of_newer {f : Holding} (hcm : s.cm = some ⟨E, k + 1⟩)
    (hsts : s.sts = some (k + 1)) (hmem : .holds f ∈ s.contents i) (hepoch : E + 1 ≤ f.epoch) :
    (s = .removing E k ∨ s = .drained E k) ∧ f = ⟨E + 1, k⟩ := by
  cases s <;> simp_all [Stage.cm, Stage.sts, Stage.contents] <;> grind

/-- The members that remain, as a pod that reports itself drained has seen them. -/
theorem exists_of_drained {p : SimPod} (h : w.drained i p = true)
    (hview : p.view = members w.kv k)
    (hordinals : ∀ j < k, ordinal w.kv (memberID w.kv j) = some j) :
    ∀ j < k, ∃ q, w.pods[j]? = some q ∧ q.running = true ∧ p.epoch ≤ q.epoch := by
  intro j hj
  simp only [World.drained, Bool.and_eq_true, List.all_eq_true] at h
  have hkey : memberID w.kv j ∈ p.view.keys := by
    rw [hview]
    exact Std.ExtTreeMap.mem_keys.mpr (mem_members.mpr hj)
  have hq := h.2 _ hkey
  rw [hordinals j hj, Option.getD_some] at hq
  cases hpod : w.pods[j]? with
  | none => simp [hpod] at hq
  | some q =>
    have hboth : q.running = true ∧ p.epoch ≤ q.epoch := by simpa [hpod] using hq
    exact ⟨q, rfl, hboth⟩

/-- A pod that reports itself drained while the ConfigMap lists it ends the drain. -/
theorem At.drained_of_observed (h : At s w) (hsts : s.sts = some (k + 1))
    (hcm : s.cm = some ⟨E, k + 1⟩)
    (hordinals : ∀ i < k + 1, ordinal w.kv (memberID w.kv i) = some i)
    (hdrained : (w.podObs g k).drainedAt (E + 1) = true) :
    At (.drained E k) w.recordDrained := by
  obtain ⟨answer, hanswer, hae, had⟩ := exists_of_drainedAt hdrained
  obtain ⟨p, hpod, hpe, hpd⟩ := exists_of_drain hanswer
  rw [had] at hpd
  have hrunning : p.running = true := by
    have hall := hpd.symm
    simp only [World.drained, Bool.and_eq_true] at hall
    exact hall.1.1.1
  have hepoch : p.epoch = E + 1 := hpe.symm.trans hae
  obtain ⟨f, hf, hfe, hfv⟩ := h.running hpod hrunning
  obtain ⟨hstage, rfl⟩ := Stage.drain_of_newer hcm hsts hf (by omega)
  have hrest := exists_of_drained hpd.symm hfv fun j hj => hordinals j (Nat.lt_succ_of_lt hj)
  have hat := h.recordDrained
  refine ⟨h.cm_eq_some.mpr hcm, fun cm hprev => ?_, ?_, ?_, fun i => ?_⟩
  · obtain ⟨b, hb, rfl⟩ := h.prev cm hprev
    exact ⟨b, hb.lt hcm, rfl⟩
  · rw [hat.stsExists, hsts]
    rfl
  · rw [hat.replicas, hsts]
    rfl
  have hslot := hat.slot i
  by_cases hi : i ≤ k
  · obtain ⟨q, hq, hqr, hqe, hqd⟩ : ∃ q, w.pods[i]? = some q ∧ q.running = true ∧
        E + 1 ≤ q.epoch ∧ (i = k → w.drained i q = true) := by
      rcases Nat.lt_or_eq_of_le hi with hlt | rfl
      · obtain ⟨q, hq, hqr, hqe⟩ := hrest i hlt
        exact ⟨q, hq, hqr, by omega, fun heq => absurd heq hlt.ne⟩
      · exact ⟨p, hpod, hrunning, hepoch.ge, fun _ => hpd.symm⟩
    obtain ⟨q', hq', hqr', hqe', hqd'⟩ : ∃ q', w.recordDrained.pods[i]? = some q' ∧
        q'.running = true ∧ q'.epoch = q.epoch ∧ (i = k → q'.drainedOnce = true) := by
      rw [recordDrained_pod, hq, Option.map_some]
      refine ⟨_, rfl, ?_⟩
      split_ifs with hdone
      · exact ⟨hqr, rfl, fun _ => rfl⟩
      · exact ⟨hqr, rfl, fun heq => absurd (hqd heq) hdone⟩
    rw [hq'] at hslot ⊢
    obtain ⟨pvc, hpvc, hstale, hagree, hterm, -, hstored⟩ := hslot.exists_pvc
    rw [hpvc]
    refine .used hstale hagree (fun ht => ?_) (fun hl => hqd' (Option.some.inj hl).symm) ?_
    · rcases hstage with rfl | rfl <;> exact hterm ht
    · cases hstored with
      | fresh hview =>
        rw [(hagree hqr').2] at hview
        cases hview
      | holds f hmem hge hview =>
        have hnew : E + 1 ≤ f.epoch := by
          rw [← hge, ← (hagree hqr').1, hqe']
          exact hqe
        obtain ⟨-, rfl⟩ := Stage.drain_of_newer hcm hsts hmem hnew
        exact .holds _ (by simp [Stage.contents, hi]) hge hview
  · refine hslot.extends ?_
    rcases hstage with rfl | rfl
    · simp only [Stage.Extends, Stage.contents, Stage.released, Stage.leaver]
      grind
    · exact ⟨fun _ hx => hx, id, id⟩

/-- A decision waits, leaves a settled cluster alone, or is a move from where the world stands. -/
theorem At.decides (h : At s w) (hd : Decides fmt cfg w d) :
    d.action.kind = .wait ∨
    ((d.action.kind = .none ∨ d.action.kind = .updateTemplate) ∧
      ∃ E k, At (.settled E k) w.recordDrained) ∨
    ∃ s₁ e s₂, Move s₁ e s₂ ∧ Does w.kv d.action e ∧ At s₁ w.recordDrained := by
  obtain ⟨hlimit, g, hplan⟩ := hd
  cases (plan_sound (listed_observe w g) hplan).justified with
  | wait hkind => exact Or.inl hkind
  | create hkind hepoch hmembers hcm =>
    have hs : s = .empty := Stage.eq_empty (Option.map_eq_none_iff.mp (h.cm.symm.trans hcm))
    exact Or.inr (Or.inr ⟨_, _, _, .create _, ⟨hkind, hepoch, hmembers⟩, hs ▸ h.recordDrained⟩)
  | createSet hkind hcm hsts hmembers =>
    have hnone : s.sts = none := by
      rw [← Option.not_isSome_iff_eq_none, ← h.stsExists, stsExists_of_statefulSet hsts]
      decide
    have hs : s = .named d.action.replicas := Stage.eq_named (h.cm_eq hcm hmembers) hnone
    exact Or.inr (Or.inr ⟨_, _, _, .createSet _, ⟨hkind, rfl⟩, hs ▸ h.recordDrained⟩)
  | stable hkind hsts hcm hold hstable =>
    obtain ⟨hexists, hreplicas⟩ := replicas_of_statefulSet hsts
    rw [hreplicas] at hold hstable
    exact Or.inr (Or.inl ⟨hkind, _, _,
      (h.settled_of_stable hexists (h.cm_eq hcm hold) hstable).recordDrained⟩)
  | @grow hkind sts cm hsts hcm hold hstable hepoch hmembers =>
    obtain ⟨hexists, hreplicas⟩ := replicas_of_statefulSet hsts
    rw [hreplicas] at hold hstable hmembers
    rw [nextEpoch_eq (hlimit cm hcm)] at hepoch
    exact Or.inr (Or.inr ⟨_, _, _, .grow cm.epoch w.replicas, ⟨hkind, hepoch, hmembers⟩,
      (h.settled_of_stable hexists (h.cm_eq hcm hold) hstable).recordDrained⟩)
  | @post hkind sts cm hsts hcm hold hdesired hstable hordinal hepoch hmembers =>
    obtain ⟨hexists, hreplicas⟩ := replicas_of_statefulSet hsts
    rw [hreplicas] at hold hstable hmembers hdesired
    rw [nextEpoch_eq (hlimit cm hcm)] at hepoch
    have hsettled := (h.settled_of_stable hexists (h.cm_eq hcm hold) hstable).recordDrained
    obtain ⟨k, hk⟩ : ∃ k, w.replicas = k + 1 := ⟨w.replicas - 1, by omega⟩
    rw [hk] at hsettled hmembers
    exact Or.inr (Or.inr ⟨_, _, _, .post cm.epoch k, ⟨hkind, hordinal, hepoch, hmembers⟩,
      hsettled⟩)
  | @drained hkind sts cm hsts hcm hold hpos hordinals hdrained hepoch hmembers =>
    obtain ⟨hexists, hreplicas⟩ := replicas_of_statefulSet hsts
    rw [nextEpoch_eq (hlimit cm hcm)] at hepoch
    obtain ⟨k, hk⟩ : ∃ k, sts.replicas = k + 1 := ⟨sts.replicas - 1, by omega⟩
    rw [hk] at hold hordinals hmembers hdrained
    rw [hepoch, pod_observe] at hdrained
    have hss : s.sts = some (k + 1) := by rw [h.sts_eq hexists, ← hreplicas, hk]
    exact Or.inr (Or.inr ⟨_, _, _, .drained cm.epoch k, ⟨hkind, hepoch, hmembers⟩,
      h.drained_of_observed hss (h.cm_eq hcm hold) hordinals hdrained⟩)
  | @scaleUp hkind sts cm hsts hcm hreplicas hmembers _ _ =>
    obtain ⟨hexists, hsize⟩ := replicas_of_statefulSet hsts
    have hss := h.sts_eq hexists
    have hsc := h.cm_eq hcm hmembers
    rw [hreplicas, hsize] at hsc
    obtain ⟨E, rfl⟩ := Stage.eq_announced hsc hss
    exact Or.inr (Or.inr ⟨_, _, _, .scaleUp E w.replicas, ⟨hkind, by rw [hreplicas, hsize]⟩,
      h.recordDrained⟩)
  | @scaleDown hkind sts cm hsts hcm hreplicas hmembers _ =>
    obtain ⟨hexists, hsize⟩ := replicas_of_statefulSet hsts
    have hss := h.sts_eq hexists
    have hsc := h.cm_eq hcm hmembers
    rw [← hsize, hreplicas] at hss
    obtain ⟨E, rfl⟩ := Stage.eq_leaving hsc hss
    exact Or.inr (Or.inr ⟨_, _, _, .scaleDown E d.action.replicas, ⟨hkind, rfl⟩, h.recordDrained⟩)

end

/-! ## Runs -/

section

variable {fmt : Formats} {cfg : Planner.Config} {c c' : KVCluster} {s s' : Stage} {w w' : World}
  {i : Nat} {a : Action} {d : Decision}

theorem SlotOk.congr (hc : ∀ k, members c' k = members c k) {p : Option SimPod}
    {q : Option SimPVC} (h : SlotOk c s i p q) : SlotOk c' s i p q := by
  cases h with
  | absent habsent => exact .absent habsent
  | released hstale hr => exact .released hstale hr
  | used hstale hrunning hterm hdrained hstored =>
    refine .used hstale hrunning hterm hdrained ?_
    cases hstored with
    | fresh hview hmem => exact .fresh hview hmem
    | holds g hmem hepoch hview => exact .holds g hmem hepoch (by rw [hview, hc])

theorem render_congr (hc : ∀ k, members c' k = members c k) : render c' = render c := by
  funext h
  rw [render, render, hc]

/-- A change of the spec or the status. -/
theorem At.setKV (h : At s w) (c' : KVCluster) (hname : c'.name = w.kv.name) (hns : c'.ns = w.kv.ns)
    (version : Nat) : At s { w with kv := c', specVersion := version } := by
  have hc := members_congr w.kv c' hname hns
  refine ⟨?_, ?_, h.stsExists, h.replicas, fun i => (h.slot i).congr hc⟩
  · rw [render_congr hc]
    exact h.cm
  · rw [render_congr hc]
    exact h.prev

theorem Does.congr (hc : ∀ k, members c' k = members c k) {e : Effect} (h : Does c a e) :
    Does c' a e := by
  cases e with
  | write => exact ⟨h.1, h.2.1, by rw [h.2.2, hc]⟩
  | scale => exact h
  | post => exact ⟨h.1, h.2.1, h.2.2.1, by rw [h.2.2.2, hc]⟩

theorem Planned.congr (hc : ∀ k, members c' k = members c k) (h : Planned c a s) :
    Planned c' a s := by
  cases h with
  | idle hidle => exact .idle hidle
  | pending hmove hdoes => exact .pending hmove (hdoes.congr hc)
  | done hmove hdoes => exact .done hmove (hdoes.congr hc)

theorem ClusterStep.frame (h : ClusterStep w w') : w'.kv = w.kv ∧ w'.decision = w.decision := by
  cases h <;> exact ⟨rfl, rfl⟩

theorem apply_frame (w : World) (a : Action) :
    (w.apply a).kv = w.kv ∧ (w.apply a).decision = w.decision := by
  unfold World.apply
  split
  · unfold World.writeConfigMap
    split_ifs <;> exact ⟨rfl, rfl⟩
  · exact ⟨rfl, rfl⟩
  · exact ⟨rfl, rfl⟩
  · split
    · exact ⟨rfl, rfl⟩
    · split_ifs <;> exact ⟨rfl, rfl⟩
  · exact ⟨rfl, rfl⟩
  · exact ⟨rfl, rfl⟩

/-- A stage explains the world, and the action that was chosen fits it. -/
def Explained (w : World) (s : Stage) : Prop :=
  At s w ∧ ∀ d, w.decision = some d → Planned w.kv d.action s

theorem Explained.apply (h : Explained w s) (hd : w.decision = some d) :
    ∃ s', Explained (w.apply d.action) s' := by
  obtain ⟨hat, hplanned⟩ := h
  obtain ⟨hkv, hdecision⟩ := apply_frame w d.action
  have hkeep : ∀ s', Planned w.kv d.action s' → ∀ d', (w.apply d.action).decision = some d' →
      Planned (w.apply d.action).kv d'.action s' := by
    intro s' hs' d' hd'
    rw [hdecision, hd] at hd'
    rw [hkv, ← Option.some.inj hd']
    exact hs'
  cases hplanned d hd with
  | idle hidle => exact ⟨s, hat.apply_idle hidle, hkeep s (.idle hidle)⟩
  | pending hmove hdoes =>
    rcases hat.apply_pending hmove hdoes with hnext | hsame
    · exact ⟨_, hnext, hkeep _ (.done hmove hdoes)⟩
    · exact ⟨s, hsame.symm ▸ hat, hkeep s (.pending hmove hdoes)⟩
  | done hmove hdoes => exact ⟨s, hat.apply_done hmove hdoes, hkeep s (.done hmove hdoes)⟩

/-- A step applies the decision, or it keeps the stage, the decision and the members' names. -/
theorem At.step_cases (h : At s w) (hstep : Step w w') :
    (∃ d, w.decision = some d ∧ w' = w.apply d.action) ∨
      (At s w' ∧ w'.decision = w.decision ∧ w'.kv.name = w.kv.name ∧ w'.kv.ns = w.kv.ns) := by
  cases hstep with
  | cluster hcluster =>
    obtain ⟨hkv, hdecision⟩ := hcluster.frame
    exact Or.inr ⟨h.clusterStep hcluster, hdecision, congrArg _ hkv, congrArg _ hkv⟩
  | setReplicas n =>
    exact Or.inr ⟨h.setKV { w.kv with spec := { w.kv.spec with replicas := n } } rfl rfl
      w.specVersion, rfl, rfl, rfl⟩
  | bumpImage image =>
    exact Or.inr ⟨h.setKV { w.kv with spec := { w.kv.spec with image := image } } rfl rfl _,
      rfl, rfl, rfl⟩
  | apply d hd => exact Or.inl ⟨d, hd, rfl⟩
  | saveStatus d =>
    exact Or.inr ⟨h.setKV { w.kv with status := d.status.saved } rfl rfl w.specVersion,
      rfl, rfl, rfl⟩

theorem Explained.step (h : Explained w s) (hstep : Step w w') : ∃ s', Explained w' s' := by
  rcases h.1.step_cases hstep with ⟨d, hd, rfl⟩ | ⟨hat, hdecision, hname, hns⟩
  · exact h.apply hd
  · exact ⟨s, hat, fun d hd =>
      (h.2 d (hdecision ▸ hd)).congr (members_congr w.kv w'.kv hname hns)⟩

theorem At.decided (h : At s w.recordDrained) (d : Decision) : At s (w.decided d) :=
  ⟨h.cm, h.prev, h.stsExists, h.replicas, h.slot⟩

theorem Explained.decide (h : Explained w s) (hd : Decides fmt cfg w d) :
    ∃ s', Explained (w.decided d) s' := by
  have hchosen : ∀ s', Planned w.kv d.action s' → ∀ d', (w.decided d).decision = some d' →
      Planned (w.decided d).kv d'.action s' := by
    intro s' hs' d' hd'
    rw [← Option.some.inj hd']
    exact hs'
  rcases h.1.decides hd with hwait | ⟨hidle, -⟩ | ⟨s₁, e, s₂, hmove, hdoes, hat⟩
  · exact ⟨s, h.1.recordDrained.decided d, hchosen s (.idle (Or.inl hwait))⟩
  · exact ⟨s, h.1.recordDrained.decided d, hchosen s (.idle (Or.inr hidle))⟩
  · exact ⟨s₁, hat.decided d, hchosen s₁ (.pending hmove hdoes)⟩

theorem at_empty (kv : KVCluster) : At .empty (newWorld kv) where
  cm := rfl
  prev _ hprev := by cases hprev
  stsExists := rfl
  replicas := rfl
  slot _ := .absent (List.mem_singleton.mpr rfl)

/-- Every world that is reached stands at a stage. -/
theorem Reachable.explained (h : Reachable fmt cfg w) : ∃ s, Explained w s := by
  induction h with
  | init kv => exact ⟨.empty, at_empty kv, fun d hd => by cases hd⟩
  | step h hstep ih =>
    obtain ⟨s, hs⟩ := ih
    exact hs.step hstep
  | decide h hd ih =>
    obtain ⟨s, hs⟩ := ih
    exact hs.decide hd

/-! ## What holds of every world reached -/

/-- The ConfigMap or a volume in use holds these members at this epoch. -/
def World.Held (w : World) (epoch : Nat) (m : Members) : Prop :=
  (∃ cm, w.cm = some cm ∧ cm.epoch = epoch ∧ cm.members = m) ∨
    ∃ (i : Nat) (pvc : SimPVC), w.pvcs[i]? = some pvc ∧ pvc.stale = false ∧
      pvc.epoch = epoch ∧ pvc.view = some m

/-- The stage has this membership. -/
def Stage.Has (s : Stage) (h : Holding) : Prop :=
  s.cm = some h ∨ ∃ i, .holds h ∈ s.contents i

theorem Stage.Has.epoch_le {g h : Holding} (hg : s.Has g) (hh : s.Has h) :
    g.epoch ≤ h.epoch + 1 := by
  cases s <;> simp_all [Stage.Has, Stage.cm, Stage.contents] <;> grind

theorem Stage.has_sizes (s : Stage) : ∃ j k, ∀ h, s.Has h → h.size = j ∨ h.size = k := by
  cases s with
  | empty => exact ⟨0, 0, by simp [Stage.Has, Stage.cm, Stage.contents]⟩
  | named k => exact ⟨k, k, by simp [Stage.Has, Stage.cm, Stage.contents]⟩
  | filling k | settled E k => exact ⟨k, k, by simp [Stage.Has, Stage.cm, Stage.contents]; grind⟩
  | announced E k | joining E k | removing E k | drained E k | leaving E k | left E k =>
    exact ⟨k, k + 1, by simp [Stage.Has, Stage.cm, Stage.contents]; grind⟩

theorem Stage.drain_of_behind {g h : Holding} (hcm : s.cm = some g)
    (hh : .holds h ∈ s.contents i) (hlt : g.epoch < h.epoch) :
    h.epoch = g.epoch + 1 ∧ s.sts = some g.size ∧ g.size = h.size + 1 := by
  cases s <;> simp_all [Stage.cm, Stage.contents, Stage.sts] <;> grind

theorem At.stored (h : At s w) {pvc : SimPVC} (hpvc : w.pvcs[i]? = some pvc)
    (hstale : pvc.stale = false) : Stored w.kv s i pvc := by
  have hslot := h.slot i
  rw [hpvc] at hslot
  generalize w.pods[i]? = p at hslot
  cases hslot with
  | released htrue => simp [hstale] at htrue
  | used _ _ _ _ hstored => exact hstored

theorem At.held (h : At s w) {epoch : Nat} {m : Members} (hheld : w.Held epoch m) :
    ∃ g, s.Has g ∧ epoch = g.epoch ∧ m = members w.kv g.size := by
  rcases hheld with ⟨cm, hcm, rfl, rfl⟩ | ⟨i, pvc, hpvc, hstale, rfl, hview⟩
  · obtain ⟨g, -, rfl⟩ := h.visible (Or.inl hcm)
    exact ⟨g, Or.inl (h.cm_eq_some.mp hcm), rfl, rfl⟩
  · cases h.stored hpvc hstale with
    | fresh hnone =>
      rw [hnone] at hview
      cases hview
    | holds g hmem hepoch hgv =>
      exact ⟨g, Or.inr ⟨i, hmem⟩, hepoch, Option.some.inj (hview.symm.trans hgv)⟩

/-- A membership is posted to a settled cluster, at the epoch after its own. -/
theorem At.posts (h : At s w) (hd : Decides fmt cfg w d)
    (hkind : d.action.kind = .postMembership) :
    ∃ E k, At (.settled E k) w.recordDrained ∧ d.action.epoch = E + 1 := by
  rcases h.decides hd with hwait | ⟨hidle, -⟩ | ⟨s₁, e, s₂, hmove, hdoes, hat⟩
  · simp [hkind] at hwait
  · simp [hkind] at hidle
  · cases hmove with
    | post E k => exact ⟨E, k + 1, hat, hdoes.2.2.1⟩
    | create | createSet | grow | scaleUp | drained | scaleDown => simp [Does, hkind] at hdoes

/-- A request that was chosen asks for what a running pod has at its epoch. -/
theorem Explained.post_agrees (h : Explained w s) (hd : w.decision = some d)
    (hkind : d.action.kind = .postMembership) {p : SimPod}
    (hpod : w.pods[d.action.ordinal]? = some p) (hrunning : p.running = true)
    (hepoch : p.epoch = d.action.epoch) : p.view = d.action.members := by
  obtain ⟨hat, hplanned⟩ := h
  obtain ⟨f, hf, hfe, hfv⟩ := hat.running hpod hrunning
  cases hplanned d hd with
  | idle hidle => simp [hkind] at hidle
  | pending hmove hdoes =>
    cases hmove with
    | post =>
      obtain ⟨-, hordinal, hae, -⟩ := hdoes
      rw [hordinal] at hf
      simp [Stage.contents] at hf
      simp [hf, hae, hfe] at hepoch
    | create | createSet | grow | scaleUp | drained | scaleDown => simp [Does, hkind] at hdoes
  | done hmove hdoes =>
    cases hmove with
    | post E k =>
      obtain ⟨-, hordinal, -, hmembers⟩ := hdoes
      rw [hordinal] at hf
      obtain rfl : f = ⟨E + 1, k⟩ := by simpa [Stage.contents] using hf
      exact hfv.trans hmembers.symm
    | create | createSet | grow | scaleUp | drained | scaleDown => simp [Does, hkind] at hdoes

/-- At most one membership change is in flight in any world that is reached. The ConfigMap and
the volumes in use hold epochs within one of each other and at most two member sets; the
ConfigMap is behind a volume only by one epoch, while it lists the pod that drains; a
membership is posted above every epoch held; no pod refuses to start because its epoch has
another membership in the ConfigMap, and no request conflicts with what its pod holds. -/
theorem one_change_in_flight (h : Reachable fmt cfg w) :
    (∀ epoch m epoch' m', w.Held epoch m → w.Held epoch' m' → epoch ≤ epoch' + 1) ∧
    (∃ m₁ m₂, ∀ epoch m, w.Held epoch m → m = m₁ ∨ m = m₂) ∧
    (∀ (cm : ConfigMapObs) (i : Nat) (pvc : SimPVC) (view : Members), w.cm = some cm →
      w.pvcs[i]? = some pvc → pvc.stale = false → pvc.view = some view → cm.epoch < pvc.epoch →
      pvc.epoch = cm.epoch + 1 ∧ 0 < w.replicas ∧ cm.members = members w.kv w.replicas ∧
        view = members w.kv (w.replicas - 1)) ∧
    (∀ d, Decides fmt cfg w d → d.action.kind = .postMembership →
      ∀ epoch m, w.Held epoch m → epoch < d.action.epoch) ∧
    (∀ (i : Nat) (pvc : SimPVC) (cm : ConfigMapObs), w.pvcs[i]? = some pvc → pvc.stale = false →
      w.cm = some cm ∨ w.prevCM = some cm → w.start i pvc cm ≠ .error .conflict) ∧
    ∀ (d : Decision) (p : SimPod), w.decision = some d → d.action.kind = .postMembership →
      w.pods[d.action.ordinal]? = some p → p.running = true → p.epoch = d.action.epoch →
      p.view = d.action.members := by
  obtain ⟨s, hs⟩ := h.explained
  have hat := hs.1
  refine ⟨?_, ?_, ?_, ?_, ?_, ?_⟩
  · intro epoch m epoch' m' hheld hheld'
    obtain ⟨g, hg, rfl, -⟩ := hat.held hheld
    obtain ⟨f, hf, rfl, -⟩ := hat.held hheld'
    exact hg.epoch_le hf
  · obtain ⟨j, k, hsizes⟩ := s.has_sizes
    refine ⟨members w.kv j, members w.kv k, fun epoch m hheld => ?_⟩
    obtain ⟨g, hg, -, rfl⟩ := hat.held hheld
    rcases hsizes g hg with hsize | hsize <;> simp [hsize]
  · intro cm i pvc view hcm hpvc hstale hview hlt
    obtain ⟨g, -, rfl⟩ := hat.visible (Or.inl hcm)
    cases hat.stored hpvc hstale with
    | fresh hnone =>
      rw [hnone] at hview
      cases hview
    | holds f hmem hepoch hfv =>
      obtain ⟨hnext, hsts, hsize⟩ :=
        Stage.drain_of_behind (hat.cm_eq_some.mp hcm) hmem (hepoch ▸ hlt)
      have hreplicas : w.replicas = g.size := by rw [hat.replicas, hsts]; rfl
      refine ⟨hepoch.trans hnext, by omega, by rw [hreplicas]; rfl, ?_⟩
      rw [hreplicas, hsize, Nat.add_sub_cancel]
      exact Option.some.inj (hview.symm.trans hfv)
  · intro d hd hkind epoch m hheld
    obtain ⟨E, k, hsettled, hnext⟩ := hat.posts hd hkind
    obtain ⟨g, hg, rfl, -⟩ := hsettled.held (show w.recordDrained.Held epoch m from hheld)
    have hge : g.epoch = E := by
      simp only [Stage.Has, Stage.cm, Stage.contents] at hg
      grind
    omega
  · intro i pvc cm hpvc hstale hcm
    obtain ⟨g, hg, rfl⟩ := hat.visible hcm
    exact ((hat.stored hpvc hstale).start hg).1
  · intro d p hd hkind hpod hrunning hepoch
    exact hs.post_agrees hd hkind hpod hrunning hepoch

/-- Two pods start at epoch 0, one is wanted, and pod 0 takes the membership without pod 1. -/
def shrinkBegins : List Command :=
  [.decide, .apply, .decide, .apply, .createPod 0, .createPod 1, .startPod 0, .startPod 1,
    .setReplicas 1, .decide, .apply]

/-- Pod 1 drains, the ConfigMap is written, and the planner chooses to scale to one replica. -/
def shrinkEnds : List Command :=
  [.heartbeat 1 0, .handoff 0, .handoff 1, .decide, .apply, .decide]

def twoPods : World :=
  newWorld (kv 2 ⟨.unset, none⟩)

theorem exists_of_map_run {α : Type*} {commands : List Command} {f : World → α} {x : α}
    (h : (twoPods.run plainFormats defaultConfig commands).map f = some x) :
    ∃ w, Reachable plainFormats defaultConfig w ∧ f w = x := by
  obtain ⟨w, hrun, hx⟩ := Option.map_eq_some_iff.mp h
  exact ⟨w, (Reachable.init _).run hrun, hx⟩

/-- The ConfigMap is one epoch behind the volume of pod 0, and lists both pods. -/
theorem one_change_in_flight_duo : ∃ w cm, Reachable plainFormats defaultConfig w ∧
    w.cm = some cm ∧ cm.epoch = 0 ∧ w.replicas = 2 ∧ cm.members = members w.kv 2 := by
  have hrun : (twoPods.run plainFormats defaultConfig shrinkBegins).map (fun w =>
      (w.cm.map (·.epoch), w.replicas, w.pvcs[0]?.map fun pvc => (pvc.epoch, pvc.stale),
        w.pvcs[0]?.map (·.view.isSome))) =
      some (some 0, 2, some (1, false), some true) := by
    decide +kernel
  obtain ⟨w, hw, hx⟩ := exists_of_map_run hrun
  simp only [Prod.mk.injEq, Option.map_eq_some_iff] at hx
  obtain ⟨⟨cm, hcm, hepoch⟩, hreplicas, ⟨pvc, hpvc, hpe, hstale⟩, pvc', hpvc', hview⟩ := hx
  obtain rfl := Option.some.inj (hpvc.symm.trans hpvc')
  obtain ⟨view, hview⟩ := Option.isSome_iff_exists.mp hview
  obtain ⟨-, -, hbehind, -⟩ := one_change_in_flight hw
  obtain ⟨-, -, hmembers, -⟩ := hbehind cm 0 pvc view hcm hpvc hstale hview (by omega)
  exact ⟨w, cm, hw, hcm, hepoch, hreplicas, hreplicas ▸ hmembers⟩

/-- A pod that a chosen action removes was drained, and no volume waits where a pod is to be
created. -/
theorem removed_pods_drained (h : Reachable fmt cfg w) :
    (∀ (d : Decision) (i : Nat) (p : SimPod), w.decision = some d →
      d.action.kind = .scaleStatefulSet → d.action.replicas ≤ i → i < w.replicas →
      w.pods[i]? = some p → p.drainedOnce = true) ∧
    ∀ i, w.stsExists = true → i < w.replicas → w.pods[i]? = none → w.pvcs[i]? = none := by
  obtain ⟨s, hat, hplanned⟩ := h.explained
  constructor
  · intro d i p hd hkind hge hlt hpod
    rw [hat.replicas] at hlt
    cases hplanned d hd with
    | idle hidle => simp [hkind] at hidle
    | pending hmove hdoes =>
      cases hmove with
      | createSet => simp [Stage.sts] at hlt
      | scaleUp =>
        obtain ⟨-, hreplicas⟩ := hdoes
        simp only [Stage.sts, Option.getD_some] at hlt
        omega
      | scaleDown E k =>
        obtain ⟨-, hreplicas⟩ := hdoes
        simp only [Stage.sts, Option.getD_some] at hlt
        obtain rfl : i = k := by omega
        obtain ⟨-, -, -, -, -, hdrained, -⟩ := (hpod ▸ hat.slot i).exists_pvc
        exact hdrained rfl
      | create | grow | post | drained => simp [Does, hkind] at hdoes
    | @done e s₀ hmove hdoes =>
      cases e with
      | scale =>
        obtain ⟨-, hreplicas⟩ := hdoes
        rw [hmove.scale_cm.2.1, Option.getD_some] at hlt
        omega
      | write | post => simp [Does, hkind] at hdoes
  · intro i hsts hlt hnone
    have hslot := hat.slot i
    rw [hnone] at hslot
    generalize hq : w.pvcs[i]? = q at hslot
    cases hslot with
    | absent => rfl
    | released _ hr =>
      have hsize := hat.replicas
      rw [(Stage.absent_of_released hr).2, Option.getD_some] at hsize
      omega

/-- The StatefulSet is to be scaled to one replica, and pod 1 was drained. -/
theorem removed_pods_drained_duo : ∃ w d p, Reachable plainFormats defaultConfig w ∧
    w.decision = some d ∧ d.action.kind = .scaleStatefulSet ∧ d.action.replicas = 1 ∧
    w.replicas = 2 ∧ w.pods[1]? = some p ∧ p.drainedOnce = true := by
  have hrun : (twoPods.run plainFormats defaultConfig (shrinkBegins ++ shrinkEnds)).map (fun w =>
      (w.decision.map fun d => (d.action.kind, d.action.replicas), w.replicas,
        w.pods[1]?.isSome)) = some (some (.scaleStatefulSet, 1), 2, true) := by
    decide +kernel
  obtain ⟨w, hw, hx⟩ := exists_of_map_run hrun
  simp only [Prod.mk.injEq, Option.map_eq_some_iff, Option.isSome_iff_exists] at hx
  obtain ⟨⟨d, hd, hkind, hone⟩, htwo, p, hpod⟩ := hx
  refine ⟨w, d, p, hw, hd, hkind, hone, htwo, hpod, ?_⟩
  exact (removed_pods_drained hw).1 d 1 p hd hkind (by omega) (by omega) hpod

/-! ## Restarts -/

/-- An action that takes effect twice does what it does once. -/
theorem apply_apply (w : World) (a : Action) : (w.apply a).apply a = w.apply a := by
  cases hkind : a.kind with
  | none | wait | updateTemplate => simp only [World.apply, hkind]
  | scaleStatefulSet => simp only [World.apply, hkind, if_true]
  | writeConfigMap =>
    simp only [World.apply, hkind, World.writeConfigMap]
    by_cases hcm : w.cm = some ⟨a.epoch, a.members, ""⟩
    · rw [if_pos hcm, if_pos hcm]
    · rw [if_neg hcm, if_pos rfl]
  | postMembership =>
    simp only [World.apply, hkind]
    cases hpod : w.pods[a.ordinal]? with
    | none => simp only [hpod]
    | some p =>
      by_cases hadopts : p.running = true ∧ p.epoch < a.epoch
      · simp only [hadopts, and_self, if_true, World.adopt,
          Std.ExtTreeMap.getElem?_insert_self, lt_irrefl, and_false, if_false]
      · simp only [hadopts, if_false, hpod]

/-- The stage is one that only waiting and an action that has had its effect have led to. -/
def Rests (w : World) (s : Stage) : Prop :=
  At s w ∧ ∀ d, w.decision = some d →
    d.action.kind = .wait ∨ ∃ e s₀, Move s₀ e s ∧ Does w.kv d.action e

theorem Rests.step (h : Rests w s) (hstep : Step w w') : Rests w' s := by
  rcases h.1.step_cases hstep with ⟨d, hd, rfl⟩ | ⟨hat, hdecision, hname, hns⟩
  · obtain ⟨hkv, hdecision⟩ := apply_frame w d.action
    refine ⟨?_, fun d' hd' => ?_⟩
    · rcases h.2 d hd with hwait | ⟨e, s₀, hmove, hdoes⟩
      · exact h.1.apply_idle (Or.inl hwait)
      · exact h.1.apply_done hmove hdoes
    · rw [hkv]
      exact h.2 d' (hdecision ▸ hd')
  · refine ⟨hat, fun d hd => (h.2 d (hdecision ▸ hd)).imp id ?_⟩
    rintro ⟨e, s₀, hmove, hdoes⟩
    exact ⟨e, s₀, hmove, hdoes.congr (members_congr w.kv w'.kv hname hns)⟩

theorem Rests.waitRun (h : Rests w s) (hrun : WaitRun fmt cfg w w') : Rests w' s := by
  induction hrun with
  | refl => exact h
  | step hrun hstep ih => exact ih.step hstep
  | @decide w₁ d hrun hd hwait ih =>
    refine ⟨ih.1.recordDrained.decided d, fun d' hd' => Or.inl ?_⟩
    rw [← Option.some.inj hd']
    exact hwait

/-- Two stages of one world agree on the ConfigMap and the replicas. -/
theorem At.unique (h : At s w) (h' : At s' w) : s'.cm = s.cm ∧ s'.sts = s.sts := by
  constructor
  · exact Option.map_injective (fun _ _ => render_inj) (h'.cm.symm.trans h.cm)
  · have hexists := h'.stsExists.symm.trans h.stsExists
    have hreplicas := h'.replicas.symm.trans h.replicas
    cases hs : s.sts <;> cases hs' : s'.sts <;> simp_all

theorem Move.eq_of_write {s₀ s₁ : Stage} {g : Holding} (hm : Move s₀ (.write g) s)
    (hcm : s₁.cm = s.cm) (hsts : s₁.sts = s.sts) : s₁ = s := by
  cases hm <;> cases s₁ <;> simp [Stage.cm, Stage.sts] at hcm hsts ⊢ <;> omega

/-- Once the ConfigMap is written, the StatefulSet is scaled to its members. -/
theorem At.scales_next {s₀ : Stage} {g : Holding} (h : At s w) (hm : Move s₀ (.write g) s)
    (hd : Decides fmt cfg w d) (hkind : d.action.kind ≠ .wait) :
    d.action.kind = .scaleStatefulSet ∧ d.action.replicas = g.size := by
  rcases h.decides hd with hwait | ⟨-, E, k, hat⟩ | ⟨s₁, e, s₂, hmove, hdoes, hat⟩
  · exact absurd hwait hkind
  · obtain ⟨hcm, hsts⟩ := h.recordDrained.unique hat
    have hs := hm.eq_of_write hcm hsts
    subst hs
    cases hm
  · obtain ⟨hcm, hsts⟩ := h.recordDrained.unique hat
    have hs := hm.eq_of_write hcm hsts
    subst hs
    cases hm <;> cases hmove <;> exact hdoes

theorem Stage.eq_drained {E k : Nat} {e : Effect} (hcm : s.cm = some ⟨E, k + 1⟩)
    (hsts : s.sts = some (k + 1)) (hmove : Move s e s') :
    s = .settled E (k + 1) ∨ s = .drained E k := by
  cases hmove <;> simp [Stage.cm, Stage.sts] at hcm hsts ⊢ <;> omega

/-- A cluster that removes a pod is not settled. -/
theorem At.not_settled {E k : Nat} (h : At (.removing E k) w) (h' : At (.settled E (k + 1)) w) :
    False := by
  have hslot := h.slot 0
  have hslot' := h'.slot 0
  generalize w.pods[0]? = p, w.pvcs[0]? = q at hslot hslot'
  cases hslot with
  | absent hmem => simp [Stage.contents] at hmem
  | released _ hr => cases hr
  | used _ _ _ _ hstored =>
    obtain ⟨pvc, hpvc, -, -, -, -, hstored'⟩ := hslot'.exists_pvc
    cases hpvc
    cases hstored with
    | fresh _ hmem => simp [Stage.contents] at hmem
    | holds g hmem hepoch _ =>
      cases hstored' with
      | fresh _ hmem' => simp [Stage.contents] at hmem'
      | holds g' hmem' =>
        simp only [Stage.contents] at hmem hmem'
        grind

/-- Once pod 0 has a membership without the last pod, the ConfigMap is written with it. -/
theorem At.writes_next {E k : Nat} (h : At (.removing E k) w) (hd : Decides fmt cfg w d)
    (hkind : d.action.kind ≠ .wait) : Does w.kv d.action (.write ⟨E + 1, k⟩) := by
  have hrec := h.recordDrained
  rcases h.decides hd with hwait | ⟨-, E', k', hat⟩ | ⟨s₁, e, s₂, hmove, hdoes, hat⟩
  · exact absurd hwait hkind
  · obtain ⟨hcm, -⟩ := hrec.unique hat
    obtain ⟨rfl, rfl⟩ : E' = E ∧ k' = k + 1 := by simpa [Stage.cm] using hcm
    exact (hrec.not_settled hat).elim
  · obtain ⟨hcm, hsts⟩ := hrec.unique hat
    rcases Stage.eq_drained hcm hsts hmove with rfl | rfl
    · exact (hrec.not_settled hat).elim
    · cases hmove
      exact hdoes

theorem Does.eq_write {e : Effect} (h : Does c a e) (hkind : a.kind = .writeConfigMap) :
    ∃ g, e = .write g := by
  cases e with
  | write g => exact ⟨g, rfl⟩
  | scale | post => simp [Does, hkind] at h

theorem Does.eq_post {e : Effect} (h : Does c a e) (hkind : a.kind = .postMembership) :
    ∃ g, e = .post g := by
  cases e with
  | post g => exact ⟨g, rfl⟩
  | scale | write => simp [Does, hkind] at h

theorem Explained.rests_of_write (h : Explained w s) (hd : w.decision = some d)
    (hkind : d.action.kind = .writeConfigMap)
    (hcm : w.cm = some ⟨d.action.epoch, d.action.members, ""⟩) :
    Rests w s ∧ ∃ g s₀, Move s₀ (.write g) s ∧ d.action.members = members w.kv g.size := by
  obtain ⟨hat, hplanned⟩ := h
  cases hplanned d hd with
  | idle hidle => simp [hkind] at hidle
  | pending hmove hdoes =>
    obtain ⟨g, rfl⟩ := hdoes.eq_write hkind
    rw [hdoes.2.1, hdoes.2.2] at hcm
    exact absurd (hat.cm_eq_some.mp hcm) hmove.write_cm.1
  | done hmove hdoes =>
    obtain ⟨g, rfl⟩ := hdoes.eq_write hkind
    refine ⟨⟨hat, fun d' hd' => Or.inr ⟨_, _, hmove, ?_⟩⟩, g, _, hmove, hdoes.2.2⟩
    rw [← Option.some.inj (hd.symm.trans hd')]
    exact hdoes

theorem Explained.rests_of_post (h : Explained w s) (hd : w.decision = some d)
    (hkind : d.action.kind = .postMembership) {pvc : SimPVC} (hpvc : w.pvcs[0]? = some pvc)
    (hstale : pvc.stale = false) (hepoch : pvc.epoch = d.action.epoch)
    (hview : pvc.view = some d.action.members) :
    ∃ E k, s = .removing E k ∧ Rests w s ∧ d.action.epoch = E + 1 ∧
      d.action.members = members w.kv k := by
  obtain ⟨hat, hplanned⟩ := h
  cases hplanned d hd with
  | idle hidle => simp [hkind] at hidle
  | pending hmove hdoes =>
    obtain ⟨g, rfl⟩ := hdoes.eq_post hkind
    cases hmove with
    | post E =>
      cases hat.stored hpvc hstale with
      | fresh hnone =>
        rw [hnone] at hview
        cases hview
      | holds f hmem hfe =>
        have hnext : d.action.epoch = E + 1 := hdoes.2.2.1
        simp [Stage.contents] at hmem
        simp [hfe, hmem, hnext] at hepoch
  | done hmove hdoes =>
    obtain ⟨g, rfl⟩ := hdoes.eq_post hkind
    cases hmove with
    | post E k =>
      refine ⟨E, k, rfl, ⟨hat, fun d' hd' => Or.inr ⟨_, _, .post E k, ?_⟩⟩, hdoes.2.2⟩
      rw [← Option.some.inj (hd.symm.trans hd')]
      exact hdoes

theorem Step.kv (h : Step w w') : w'.kv.name = w.kv.name ∧ w'.kv.ns = w.kv.ns := by
  cases h with
  | cluster hcluster => rw [hcluster.frame.1]; exact ⟨rfl, rfl⟩
  | apply d => rw [(apply_frame w d.action).1]; exact ⟨rfl, rfl⟩
  | setReplicas | bumpImage | saveStatus => exact ⟨rfl, rfl⟩

theorem WaitRun.kv (h : WaitRun fmt cfg w w') : w'.kv.name = w.kv.name ∧ w'.kv.ns = w.kv.ns := by
  induction h with
  | refl => exact ⟨rfl, rfl⟩
  | step _ hstep ih => exact ⟨hstep.kv.1.trans ih.1, hstep.kv.2.trans ih.2⟩
  | decide _ _ _ ih => exact ih

/-- An operator that restarts decides what it would have decided. The saved status decides no
action. In every world that is reached, an action that takes effect twice does what it does
once; after the ConfigMap was written, whatever happens while the planner waits, the next
action is to scale the StatefulSet to its members; and after pod 0 took the membership that
was posted, it is to write that to the ConfigMap. -/
theorem restart_changes_nothing (fmt : Formats) (cfg : Planner.Config) :
    (∀ (obs : Observation) (status : KVStatus),
      (plan fmt cfg (obs.withStatus status)).map (·.action.effect) =
        (plan fmt cfg obs).map (·.action.effect)) ∧
    ∀ w, Reachable fmt cfg w → ∀ d, w.decision = some d →
      (w.apply d.action).apply d.action = w.apply d.action ∧
      (d.action.kind = .writeConfigMap →
        w.cm = some ⟨d.action.epoch, d.action.members, ""⟩ →
        ∀ w' d', WaitRun fmt cfg w w' → Decides fmt cfg w' d' → d'.action.kind ≠ .wait →
          d'.action.kind = .scaleStatefulSet ∧ d'.action.replicas = d.action.members.size) ∧
      (d.action.kind = .postMembership →
        (∃ pvc : SimPVC, w.pvcs[0]? = some pvc ∧ pvc.stale = false ∧
          pvc.epoch = d.action.epoch ∧ pvc.view = some d.action.members) →
        ∀ w' d', WaitRun fmt cfg w w' → Decides fmt cfg w' d' → d'.action.kind ≠ .wait →
          d'.action.kind = .writeConfigMap ∧ d'.action.epoch = d.action.epoch ∧
            d'.action.members = d.action.members) := by
  refine ⟨fun obs status => action_of_status .., fun w h d hd => ?_⟩
  obtain ⟨s, hs⟩ := h.explained
  refine ⟨apply_apply w d.action, fun hkind hcm w' d' hrun hd' hnext => ?_, ?_⟩
  · obtain ⟨hrests, g, s₀, hmove, hmembers⟩ := hs.rests_of_write hd hkind hcm
    rw [hmembers, size_members]
    exact (hrests.waitRun hrun).1.scales_next hmove hd' hnext
  · rintro hkind ⟨pvc, hpvc, hstale, hepoch, hview⟩ w' d' hrun hd' hnext
    obtain ⟨E, k, rfl, hrests, hae, ham⟩ := hs.rests_of_post hd hkind hpvc hstale hepoch hview
    obtain ⟨hwrite, hwe, hwm⟩ := (hrests.waitRun hrun).1.writes_next hd' hnext
    rw [hae, ham]
    exact ⟨hwrite, hwe, hwm.trans (members_congr w.kv w'.kv hrun.kv.1 hrun.kv.2 k)⟩

/-- Pod 0 has taken the membership without pod 1 when the operator restarts. Pod 1 hears of
it and drains, and the next action writes that membership to the ConfigMap. -/
theorem restart_changes_nothing_duo : ∃ w d w' d', Reachable plainFormats defaultConfig w ∧
    w.decision = some d ∧ d.action.kind = .postMembership ∧
    WaitRun plainFormats defaultConfig w w' ∧ Decides plainFormats defaultConfig w' d' ∧
    d'.action.kind = .writeConfigMap ∧ d'.action.epoch = d.action.epoch ∧
    d'.action.members = d.action.members := by
  have hrun : ((twoPods.run plainFormats defaultConfig shrinkBegins).bind fun w =>
      (w.run plainFormats defaultConfig [.heartbeat 1 0, .handoff 0, .handoff 1]).bind fun w' =>
      (w'.exec plainFormats defaultConfig .decide).map fun w'' =>
        (w.decision.map (·.action.kind), w.decision.all fun d => w.pvcs[0]?.any fun pvc =>
          !pvc.stale && pvc.epoch == d.action.epoch && pvc.view == some d.action.members,
          w''.decision.all (·.action.kind ≠ .wait))) =
      some (some .postMembership, true, true) := by
    decide +kernel
  obtain ⟨w, hbegins, hrun⟩ := Option.bind_eq_some_iff.mp hrun
  obtain ⟨w', hdrains, hrun⟩ := Option.bind_eq_some_iff.mp hrun
  obtain ⟨w'', hdecide, hx⟩ := Option.map_eq_some_iff.mp hrun
  obtain ⟨d', hd', rfl⟩ := decides_of_exec hdecide
  simp only [Prod.mk.injEq, Option.map_eq_some_iff] at hx
  obtain ⟨⟨d, hd, hkind⟩, hheld, hnext⟩ := hx
  rw [hd, Option.all_some, Option.any_eq_true] at hheld
  obtain ⟨pvc, hpvc, hheld⟩ := hheld
  simp only [Bool.and_eq_true, Bool.not_eq_true', beq_iff_eq] at hheld
  have hw : Reachable plainFormats defaultConfig w := (Reachable.init _).run hbegins
  have hwait : WaitRun plainFormats defaultConfig w w' := WaitRun.refl.run (by simp) hdrains
  obtain ⟨-, hrestart⟩ := restart_changes_nothing plainFormats defaultConfig
  exact ⟨w, d, w', d', hw, hd, hkind, hwait, hd', (hrestart w hw d hd).2.2 hkind
    ⟨pvc, hpvc, hheld.1.1, hheld.1.2, hheld.2⟩ w' d' hwait hd' (of_decide_eq_true hnext)⟩

end

end Operator

end DistributedKV
