import DistributedKV.Lifecycle

/-!
# The handoff worker, and who waits for it

A new view starts a handoff from the base, the last view whose handoff completed, and cancels
the one that runs for an older view. The worker reports its progress as long as it is the
newest one, and when it is over it moves the base, wakes the calls of WaitHandoff by closing
the channel they wait on, and leaves a token for the anti-entropy loop. All of this is guarded
by one lock, but a new view is published without it, a canceled worker runs on for a while, and
a call that has looked at the base blocks only later.

The views of one life of a node have different epochs, so a view is its epoch here.

`handoff_under_way` : until the base is at the newest view a worker for it is under way, and no
other one goes on pushing. `status_exact` : the status shows what that worker has left to do.
`waits_woken` : a call never sleeps on once the base is where it waits for. `round_after_handoff`
: an anti-entropy round starts after every handoff that completed.
-/

namespace DistributedKV

/-! ## Workers -/

structure HandoffProgress.HandoffStatus where
  epoch : Nat
  done : Bool
  pushed : Nat
  hinted : Nat
  pending : Int

/-- How far a handoff is. Of the keys only the number of their targets matters. -/
inductive WorkPhase
  | listing
  | planned (plan : List Nat)
  /-- These keys are left. -/
  | keys (left : List Nat)
  /-- So many pushes of one key are under way. -/
  | pushing (pushes : Nat) (left : List Nat)
  /-- One more key is handled, and not yet counted. -/
  | handled (left : List Nat)
deriving DecidableEq

/-- The keys that are still to be counted as handled, of a plan that was announced. -/
def WorkPhase.left : WorkPhase → Nat
  | .listing => 0
  | .planned _ => 0
  | .keys left => left.length
  | .pushing _ left => left.length + 1
  | .handled left => left.length + 1

structure HandoffWorker where
  gen : Nat
  epoch : Nat
  /-- Its context has ended. -/
  canceled : Bool
  phase : WorkPhase
deriving DecidableEq

/-- What `handoffCancel` does, if it is the one of the worker. -/
def HandoffWorker.cancel (gen : Option Nat) (w : HandoffWorker) : HandoffWorker :=
  if gen = some w.gen then { w with canceled := true } else w

/-! ## Calls and the anti-entropy loop -/

inductive WaitPlace
  | checking
  /-- It waits for the channel with this number to be closed. -/
  | blocked (channel : Nat)
deriving DecidableEq

/-- A call of `WaitHandoff`. -/
structure HandoffWait where
  epoch : Nat
  place : WaitPlace
deriving DecidableEq

inductive LoopPhase
  | notStarted
  | delay
  | round
  | waiting
  | ended
deriving DecidableEq

/-! ## The node -/

structure HandoffProgress where
  view : Nat
  base : Nat
  /-- A view is published, and its startHandoff is still to come. -/
  needsStart : Bool
  gen : Nat
  target : Option Nat
  running : Bool
  /-- The worker that `handoffCancel` cancels. -/
  cancelGen : Option Nat
  status : HandoffProgress.HandoffStatus
  completed : Nat
  /-- The number of the open channel. Those below it are closed. -/
  changed : Nat
  bgStopped : Bool
  workers : List HandoffWorker
  waits : List HandoffWait
  /-- The token in `aeTrigger`. -/
  aeTrigger : Bool
  loop : LoopPhase
  /-- The handoffs that were completed when the latest anti-entropy round started. -/
  roundSaw : Nat

namespace HandoffProgress

def new (base view : Nat) : HandoffProgress where
  view := view
  base := base
  needsStart := true
  gen := 0
  target := none
  running := false
  cancelGen := none
  status := ⟨view, decide (view ≤ base), 0, 0, 0⟩
  completed := 0
  changed := 0
  bgStopped := false
  workers := []
  waits := []
  aeTrigger := false
  loop := .notStarted
  roundSaw := 0

variable (s : HandoffProgress)

def startHandoff : HandoffProgress :=
  if s.view ≤ s.base then { s with needsStart := false }
  else if s.running ∧ s.target = some s.view then { s with needsStart := false }
  else if s.bgStopped then
    { s with
      needsStart := false
      workers := s.workers.map (HandoffWorker.cancel s.cancelGen)
      gen := s.gen + 1
      target := some s.view
      status := ⟨s.view, false, 0, 0, 0⟩ }
  else
    { s with
      needsStart := false
      workers := ⟨s.gen + 1, s.view, false, .listing⟩ ::
        s.workers.map (HandoffWorker.cancel s.cancelGen)
      gen := s.gen + 1
      target := some s.view
      status := ⟨s.view, false, 0, 0, 0⟩
      cancelGen := some (s.gen + 1)
      running := true }

/-- The status after an update by the worker of a generation. -/
def updateHandoff (gen : Nat) (update : HandoffStatus → HandoffStatus) : HandoffStatus :=
  if gen = s.gen then update s.status else s.status

/-- A worker goes on, and has updated the status. -/
def advance (w : HandoffWorker) (phase : WorkPhase) (status : HandoffStatus) : HandoffProgress :=
  { s with workers := { w with phase := phase } :: s.workers.erase w, status := status }

def finishHandoff (w : HandoffWorker) : HandoffProgress :=
  if w.gen ≠ s.gen then { s with workers := s.workers.erase w }
  else
    { s with
      workers := s.workers.erase w
      base := w.epoch
      running := false
      completed := s.completed + 1
      status := { s.status with done := true, pending := 0 }
      changed := s.changed + 1
      aeTrigger := true }

/-- A call looks at the base. -/
def checkWait (w : HandoffWait) : HandoffProgress :=
  if w.epoch ≤ s.base then { s with waits := s.waits.erase w }
  else { s with waits := ⟨w.epoch, .blocked s.changed⟩ :: s.waits.erase w }

/-- One access to what the node's goroutines share. -/
inductive Step (s : HandoffProgress) : HandoffProgress → Prop
  | storeView (view : Nat) (hnewer : s.view < view) :
      Step s { s with view := view, needsStart := true }
  | startHandoff : Step s s.startHandoff
  | listKeys (w : HandoffWorker) (plan : List Nat) (hw : w ∈ s.workers)
      (hphase : w.phase = .listing) : Step s (s.advance w (.planned plan) s.status)
  | setPending (w : HandoffWorker) (plan : List Nat) (hw : w ∈ s.workers)
      (hphase : w.phase = .planned plan) :
      Step s (s.advance w (.keys plan)
        (s.updateHandoff w.gen fun st => { st with pending := plan.length }))
  | takeKey (w : HandoffWorker) (targets : Nat) (left : List Nat) (hw : w ∈ s.workers)
      (hphase : w.phase = .keys (targets :: left)) :
      Step s (s.advance w (.pushing targets left) s.status)
  /-- There is nothing left of the key to hand off. -/
  | keyGone (w : HandoffWorker) (targets : Nat) (left : List Nat) (hw : w ∈ s.workers)
      (hphase : w.phase = .keys (targets :: left)) : Step s (s.advance w (.handled left) s.status)
  | pushed (w : HandoffWorker) (pushes : Nat) (left : List Nat) (hw : w ∈ s.workers)
      (hphase : w.phase = .pushing (pushes + 1) left) :
      Step s (s.advance w (.pushing pushes left)
        (s.updateHandoff w.gen fun st => { st with pushed := st.pushed + 1 }))
  | hinted (w : HandoffWorker) (pushes : Nat) (left : List Nat) (hw : w ∈ s.workers)
      (hphase : w.phase = .pushing (pushes + 1) left) :
      Step s (s.advance w (.pushing pushes left)
        (s.updateHandoff w.gen fun st => { st with hinted := st.hinted + 1 }))
  | pushGivenUp (w : HandoffWorker) (pushes : Nat) (left : List Nat) (hw : w ∈ s.workers)
      (hphase : w.phase = .pushing (pushes + 1) left) (hcanceled : w.canceled = true) :
      Step s (s.advance w (.pushing pushes left) s.status)
  | keyPushed (w : HandoffWorker) (left : List Nat) (hw : w ∈ s.workers)
      (hphase : w.phase = .pushing 0 left) (hgoesOn : w.canceled = false) :
      Step s (s.advance w (.handled left) s.status)
  | countKey (w : HandoffWorker) (left : List Nat) (hw : w ∈ s.workers)
      (hphase : w.phase = .handled left) :
      Step s (s.advance w (.keys left)
        (s.updateHandoff w.gen fun st => { st with pending := st.pending - 1 }))
  | finishHandoff (w : HandoffWorker) (hw : w ∈ s.workers) (hphase : w.phase = .keys []) :
      Step s (s.finishHandoff w)
  /-- A worker returns early only when its context has ended. -/
  | endEarly (w : HandoffWorker) (hw : w ∈ s.workers) (hcanceled : w.canceled = true) :
      Step s { s with workers := s.workers.erase w }
  | stopBackground :
      Step s { s with
        bgStopped := true
        workers := s.workers.map fun w => { w with canceled := true } }
  | waitHandoff (epoch : Nat) : Step s { s with waits := ⟨epoch, .checking⟩ :: s.waits }
  | check (w : HandoffWait) (hw : w ∈ s.waits) (hplace : w.place = .checking) :
      Step s (s.checkWait w)
  | wake (w : HandoffWait) (channel : Nat) (hw : w ∈ s.waits) (hplace : w.place = .blocked channel)
      (hclosed : channel < s.changed) :
      Step s { s with waits := ⟨w.epoch, .checking⟩ :: s.waits.erase w }
  /-- The context of the call has ended. -/
  | giveUp (w : HandoffWait) (hw : w ∈ s.waits) : Step s { s with waits := s.waits.erase w }
  | startLoop (hloop : s.loop = .notStarted) (hon : s.bgStopped = false) :
      Step s { s with loop := .delay }
  | tick (hloop : s.loop = .delay ∨ s.loop = .waiting) :
      Step s { s with loop := .round, roundSaw := s.completed }
  | trigger (hloop : s.loop = .delay ∨ s.loop = .waiting) (htoken : s.aeTrigger = true) :
      Step s { s with loop := .round, roundSaw := s.completed, aeTrigger := false }
  | roundEnds (hloop : s.loop = .round) : Step s { s with loop := .waiting }
  | loopEnds (hloop : s.loop = .delay ∨ s.loop = .waiting) (hoff : s.bgStopped = true) :
      Step s { s with loop := .ended }

inductive Run : HandoffProgress → Prop
  | start (base view : Nat) : Run (new base view)
  | step {s t : HandoffProgress} (hrun : Run s) (hstep : Step s t) : Run t

variable {s} {t : HandoffProgress} {w : HandoffWorker}

/-! ## Workers and the status -/

/-- What holds of the workers at every moment. -/
structure Working (s : HandoffProgress) : Prop where
  gens : ∀ w ∈ s.workers, w.gen ≤ s.gen
  distinct : (s.workers.map (·.gen)).Nodup
  live : ∀ w ∈ s.workers, w.canceled = false → w.gen = s.gen ∧ s.cancelGen = some w.gen
  /-- The newest worker, while there is one. -/
  newest : ∀ w ∈ s.workers, w.gen = s.gen → s.target = some w.epoch ∧
    s.status.epoch = w.epoch ∧ s.status.pending = w.phase.left ∧ s.base < w.epoch
  done : s.status.done = decide (s.status.epoch ≤ s.base)
  running : s.running = true → s.bgStopped = false →
    ∃ w ∈ s.workers, w.gen = s.gen ∧ w.canceled = false
  progress : s.needsStart = false → s.bgStopped = false →
    s.view ≤ s.base ∨ s.running = true ∧ s.target = some s.view

theorem gen_cancel (gen : Option Nat) (w : HandoffWorker) : (w.cancel gen).gen = w.gen := by
  unfold HandoffWorker.cancel
  split_ifs <;> rfl

theorem map_gen_cancel (gen : Option Nat) (workers : List HandoffWorker) :
    (workers.map (HandoffWorker.cancel gen)).map (·.gen) = workers.map (·.gen) := by
  rw [List.map_map]
  exact List.map_congr_left fun w _ => gen_cancel gen w

/-- Every worker is canceled once the newest one is. -/
theorem Working.canceled (h : Working s) {x : HandoffWorker}
    (hx : x ∈ s.workers.map (HandoffWorker.cancel s.cancelGen)) :
    x.canceled = true ∧ x.gen ≤ s.gen := by
  obtain ⟨w, hw, rfl⟩ := List.mem_map.mp hx
  refine ⟨?_, (gen_cancel _ w).trans_le (h.gens w hw)⟩
  unfold HandoffWorker.cancel
  split_ifs with hgen
  · rfl
  · by_contra hlive
    exact hgen (h.live w hw (Bool.eq_false_iff.mpr hlive)).2

/-- The worker that goes on is among the others as it was. -/
theorem perm_advance (hw : w ∈ s.workers) (phase : WorkPhase) :
    (({ w with phase := phase } :: s.workers.erase w).map (·.gen)).Perm
      (s.workers.map (·.gen)) :=
  ((List.perm_cons_erase hw).map (·.gen)).symm

/-- A worker goes on. The status it has written, if it is the newest, shows its keys. -/
theorem Working.advance (h : Working s) (hw : w ∈ s.workers) {phase : WorkPhase}
    {status : HandoffStatus} (hepoch : status.epoch = s.status.epoch)
    (hdone : status.done = s.status.done)
    (hpending : w.gen = s.gen → status.pending = phase.left)
    (hsame : w.gen ≠ s.gen → status = s.status) : Working (s.advance w phase status) := by
  have hmem : ∀ x ∈ { w with phase := phase } :: s.workers.erase w,
      x = { w with phase := phase } ∨ x ∈ s.workers := by
    intro x hx
    exact (List.mem_cons.mp hx).imp_right List.mem_of_mem_erase
  refine ⟨fun x hx => ?_, (perm_advance hw phase).nodup_iff.mpr h.distinct, fun x hx hlive => ?_,
    fun x hx hgen => ?_, ?_, fun hrunning hon => ?_, h.progress⟩
  · rcases hmem x hx with rfl | hx'
    · exact h.gens w hw
    · exact h.gens x hx'
  · rcases hmem x hx with rfl | hx'
    · exact h.live w hw hlive
    · exact h.live x hx' hlive
  · rcases List.mem_cons.mp hx with rfl | hx'
    · obtain ⟨htarget, hold, -, hbase⟩ := h.newest w hw hgen
      exact ⟨htarget, hepoch.trans hold, hpending hgen, hbase⟩
    · have hold := h.newest x (List.mem_of_mem_erase hx') hgen
      have hother : w.gen ≠ s.gen := by
        intro hwgen
        have hnodup := ((List.perm_cons_erase hw).map (·.gen)).nodup_iff.mp h.distinct
        exact (List.nodup_cons.mp hnodup).1
          (List.mem_map.mpr ⟨x, hx', hgen.trans hwgen.symm⟩)
      rw [hsame hother]
      exact hold
  · show status.done = decide (status.epoch ≤ s.base)
    rw [hdone, hepoch]
    exact h.done
  · obtain ⟨x, hx, hgen, hlive⟩ := h.running hrunning hon
    by_cases hxw : x = w
    · subst hxw
      exact ⟨_, List.mem_cons_self, hgen, hlive⟩
    · exact ⟨x, List.mem_cons_of_mem _ ((List.mem_erase_of_ne hxw).mpr hx), hgen, hlive⟩

/-- A worker goes on, and updates the status in a way that its keys stay as they are. -/
theorem Working.update (h : Working s) (hw : w ∈ s.workers) {phase : WorkPhase}
    {update : HandoffStatus → HandoffStatus}
    (hepoch : (update s.status).epoch = s.status.epoch)
    (hdone : (update s.status).done = s.status.done)
    (hpending : s.status.pending = w.phase.left → (update s.status).pending = phase.left) :
    Working (s.advance w phase (s.updateHandoff w.gen update)) := by
  by_cases hgen : w.gen = s.gen
  · rw [updateHandoff, if_pos hgen]
    exact h.advance hw hepoch hdone (fun _ => hpending (h.newest w hw hgen).2.2.1)
      fun hne => absurd hgen hne
  · rw [updateHandoff, if_neg hgen]
    exact h.advance hw rfl rfl (fun heq => absurd heq hgen) fun _ => rfl

/-- A worker goes on and leaves the status alone. -/
theorem Working.goOn (h : Working s) (hw : w ∈ s.workers) {phase : WorkPhase}
    (hleft : phase.left = w.phase.left) : Working (s.advance w phase s.status) :=
  h.advance hw rfl rfl (fun hgen => by rw [hleft]; exact (h.newest w hw hgen).2.2.1) fun _ => rfl

/-- A worker that is canceled, or is not the newest one, is over. -/
theorem Working.erase (h : Working s) (hover : w.canceled = true ∨ w.gen ≠ s.gen) :
    Working { s with workers := s.workers.erase w } := by
  refine ⟨fun x hx => h.gens x (List.mem_of_mem_erase hx),
    h.distinct.sublist (List.erase_sublist.map _), fun x hx => h.live x (List.mem_of_mem_erase hx),
    fun x hx => h.newest x (List.mem_of_mem_erase hx), h.done, fun hrunning hon => ?_, h.progress⟩
  obtain ⟨x, hx, hgen, hlive⟩ := h.running hrunning hon
  refine ⟨x, (List.mem_erase_of_ne ?_).mpr hx, hgen, hlive⟩
  rintro rfl
  rcases hover with hcanceled | hne
  · rw [hlive] at hcanceled
    cases hcanceled
  · exact hne hgen

theorem Working.startHandoff (h : Working s) : Working s.startHandoff := by
  unfold HandoffProgress.startHandoff
  split_ifs with hbase hrunning hoff
  · exact ⟨h.gens, h.distinct, h.live, h.newest, h.done, h.running, fun _ _ => Or.inl hbase⟩
  · exact ⟨h.gens, h.distinct, h.live, h.newest, h.done, h.running, fun _ _ => Or.inr hrunning⟩
  · refine ⟨fun x hx => ?_, ?_, fun x hx hlive => ?_, fun x hx hgen => ?_, ?_, ?_, ?_⟩
    · exact (h.canceled hx).2.trans (Nat.le_succ _)
    · rw [map_gen_cancel]
      exact h.distinct
    · rw [(h.canceled hx).1] at hlive
      cases hlive
    · have := (h.canceled hx).2
      have hgen' : x.gen = s.gen + 1 := hgen
      omega
    · exact (decide_eq_false hbase).symm
    · intro _ hon
      rw [hoff] at hon
      cases hon
    · intro _ hon
      rw [hoff] at hon
      cases hon
  · refine ⟨fun x hx => ?_, ?_, fun x hx hlive => ?_, fun x hx hgen => ?_, ?_, ?_, ?_⟩
    · rcases List.mem_cons.mp hx with rfl | hx
      · exact le_rfl
      · exact (h.canceled hx).2.trans (Nat.le_succ _)
    · rw [List.map_cons, map_gen_cancel, List.nodup_cons]
      refine ⟨fun hin => ?_, h.distinct⟩
      obtain ⟨x, hx, hgen⟩ := List.mem_map.mp hin
      have hgen' : x.gen = s.gen + 1 := hgen
      have := h.gens x hx
      omega
    · rcases List.mem_cons.mp hx with rfl | hx
      · exact ⟨rfl, rfl⟩
      · rw [(h.canceled hx).1] at hlive
        cases hlive
    · rcases List.mem_cons.mp hx with rfl | hx
      · exact ⟨rfl, rfl, rfl, not_le.mp hbase⟩
      · have := (h.canceled hx).2
        have hgen' : x.gen = s.gen + 1 := hgen
        omega
    · exact (decide_eq_false hbase).symm
    · exact fun _ _ => ⟨_, List.mem_cons_self, rfl, rfl⟩
    · exact fun _ _ => Or.inr ⟨rfl, rfl⟩

theorem Working.finishHandoff (h : Working s) (hw : w ∈ s.workers) :
    Working (s.finishHandoff w) := by
  unfold HandoffProgress.finishHandoff
  split_ifs with hgen
  · exact h.erase (Or.inr hgen)
  · rw [not_not] at hgen
    obtain ⟨htarget, hepoch, -, -⟩ := h.newest w hw hgen
    have hnodup := ((List.perm_cons_erase hw).map (·.gen)).nodup_iff.mp h.distinct
    have hnone : ∀ x ∈ s.workers.erase w, x.gen ≠ s.gen := fun x hx hx' =>
      (List.nodup_cons.mp hnodup).1 (List.mem_map.mpr ⟨x, hx, hx'.trans hgen.symm⟩)
    refine ⟨fun x hx => h.gens x (List.mem_of_mem_erase hx),
      h.distinct.sublist (List.erase_sublist.map _),
      fun x hx => h.live x (List.mem_of_mem_erase hx), fun x hx hx' => absurd hx' (hnone x hx),
      ?_, ?_, fun hstart hon => ?_⟩
    · exact (decide_eq_true (hepoch.le)).symm
    · intro hrunning
      cases hrunning
    · refine Or.inl ?_
      rcases h.progress hstart hon with hle | ⟨-, hview⟩
      · exact hle.trans (h.newest w hw hgen).2.2.2.le
      · exact (Option.some.inj (hview.symm.trans htarget)).le

theorem working_step (h : Working s) (hstep : Step s t) : Working t := by
  cases hstep with
  | storeView =>
    exact ⟨h.gens, h.distinct, h.live, h.newest, h.done, h.running,
      fun hstart => absurd hstart (by simp)⟩
  | startHandoff => exact h.startHandoff
  | listKeys w plan hw hphase | takeKey w targets left hw hphase
  | keyGone w targets left hw hphase | pushGivenUp w pushes left hw hphase
  | keyPushed w left hw hphase => exact h.goOn hw (by rw [hphase]; rfl)
  | setPending w plan hw => exact h.update hw rfl rfl fun _ => rfl
  | pushed w pushes left hw hphase | hinted w pushes left hw hphase =>
    exact h.update hw rfl rfl fun hold => by rw [hphase] at hold; exact hold
  | countKey w left hw hphase =>
    refine h.update hw rfl rfl fun hold => ?_
    rw [hphase] at hold
    simp only [WorkPhase.left] at hold ⊢
    omega
  | finishHandoff w hw => exact h.finishHandoff hw
  | endEarly w hw hcanceled => exact h.erase (Or.inl hcanceled)
  | stopBackground =>
    refine ⟨fun x hx => ?_, ?_, fun x hx hlive => ?_, fun x hx hgen => ?_, h.done,
      fun _ hon => absurd hon (by simp), fun _ hon => absurd hon (by simp)⟩
    · obtain ⟨w, hw, rfl⟩ := List.mem_map.mp hx
      exact h.gens w hw
    · rw [List.map_map]
      exact h.distinct
    · obtain ⟨w, hw, rfl⟩ := List.mem_map.mp hx
      cases hlive
    · obtain ⟨w, hw, rfl⟩ := List.mem_map.mp hx
      exact h.newest w hw hgen
  | check =>
    unfold checkWait
    split_ifs
    · exact ⟨h.gens, h.distinct, h.live, h.newest, h.done, h.running, h.progress⟩
    · exact ⟨h.gens, h.distinct, h.live, h.newest, h.done, h.running, h.progress⟩
  | waitHandoff | wake | giveUp | startLoop | tick | trigger | roundEnds | loopEnds =>
    exact ⟨h.gens, h.distinct, h.live, h.newest, h.done, h.running, h.progress⟩

theorem working_of_run (hrun : Run s) : Working s := by
  induction hrun with
  | start =>
    exact ⟨by simp [new], by simp [new], by simp [new], by simp [new], rfl, by simp [new],
      by simp [new]⟩
  | step _ hstep ih => exact working_step ih hstep

/-- A view is published and its startHandoff has run, and background work goes on. Then every
worker but the newest has been canceled, and the base has come to the view, or one worker that
is not canceled is handing off to it. -/
theorem handoff_under_way (hrun : Run s) (hstarted : s.needsStart = false)
    (hon : s.bgStopped = false) : (∀ x ∈ s.workers, x.gen ≠ s.gen → x.canceled = true) ∧
      (s.view ≤ s.base ∨ ∃ w ∈ s.workers, w.epoch = s.view ∧ w.canceled = false ∧
        ∀ x ∈ s.workers, x.canceled = false → x = w) := by
  have h := working_of_run hrun
  refine ⟨fun x hx hgen => Bool.not_eq_false _ ▸ fun hlive => hgen (h.live x hx hlive).1, ?_⟩
  rcases h.progress hstarted hon with hle | ⟨hrunning, htarget⟩
  · exact Or.inl hle
  obtain ⟨w, hw, hgen, hlive⟩ := h.running hrunning hon
  have hepoch : w.epoch = s.view :=
    Option.some.inj ((h.newest w hw hgen).1.symm.trans htarget)
  refine Or.inr ⟨w, hw, hepoch, hlive, fun x hx hxlive => ?_⟩
  exact List.inj_on_of_nodup_map h.distinct hx hw ((h.live x hx hxlive).1.trans hgen.symm)

/-- A handoff from epoch 0 to epoch 1 is started, and then one to epoch 2. -/
theorem handoff_under_way_superseded : ∃ s, Run s ∧ s.base = 0 ∧ s.workers.length = 2 ∧
    (∀ x ∈ s.workers, x.gen ≠ s.gen → x.canceled = true) ∧
    ∃ w ∈ s.workers, w.epoch = 2 ∧ w.canceled = false ∧
      ∀ x ∈ s.workers, x.canceled = false → x = w := by
  have h1 := (Run.start 0 1).step .startHandoff
  have h2 := h1.step (.storeView 2 (by decide))
  have h3 := h2.step .startHandoff
  have h := handoff_under_way h3 rfl rfl
  exact ⟨_, h3, rfl, rfl, h.1, h.2.resolve_left (by decide)⟩

/-- The status is done exactly if the base has come to its epoch, and while the newest worker
runs the status is about its handoff, which is not done, with the keys it has left. -/
theorem status_exact (hrun : Run s) :
    (s.status.done = true ↔ s.status.epoch ≤ s.base) ∧
      ∀ w ∈ s.workers, w.gen = s.gen →
        s.status.epoch = w.epoch ∧ s.status.done = false ∧ s.status.pending = w.phase.left := by
  have h := working_of_run hrun
  refine ⟨by rw [h.done, decide_eq_true_eq], fun w hw hgen => ?_⟩
  obtain ⟨-, hepoch, hpending, hbase⟩ := h.newest w hw hgen
  refine ⟨hepoch, ?_, hpending⟩
  rw [h.done, hepoch, decide_eq_false_iff_not, not_le]
  exact hbase

/-- Two keys are to be handed off, and one of them is handled. -/
theorem status_exact_oneLeft : ∃ s, Run s ∧ s.status.pending = 1 ∧ s.status.done = false := by
  have h1 := (Run.start 0 1).step .startHandoff
  have h2 := h1.step (.listKeys _ [1, 2] List.mem_cons_self rfl)
  have h3 := h2.step (.setPending _ [1, 2] List.mem_cons_self rfl)
  have h4 := h3.step (.keyGone _ 1 [2] List.mem_cons_self rfl)
  have h5 := h4.step (.countKey _ [2] List.mem_cons_self rfl)
  have hnewest := (status_exact h5).2 _ List.mem_cons_self rfl
  exact ⟨_, h5, hnewest.2.2, hnewest.2.1⟩

/-! ## Waits -/

/-- A call that sleeps on the open channel waits for more than the base. -/
def Asleep (s : HandoffProgress) : Prop :=
  ∀ w ∈ s.waits, ∀ channel, w.place = .blocked channel →
    channel ≤ s.changed ∧ (channel = s.changed → s.base < w.epoch)

/-- Neither the base nor the channel has changed. -/
theorem Asleep.congr (h : Asleep s) (hwaits : t.waits = s.waits) (hbase : t.base = s.base)
    (hchanged : t.changed = s.changed) : Asleep t := by
  intro w hw channel hplace
  rw [hbase, hchanged]
  exact h w (hwaits ▸ hw) channel hplace

theorem asleep_step (h : Asleep s) (hstep : Step s t) : Asleep t := by
  cases hstep with
  | startHandoff =>
    unfold HandoffProgress.startHandoff
    split_ifs <;> exact h.congr rfl rfl rfl
  | finishHandoff =>
    unfold HandoffProgress.finishHandoff
    split_ifs with hgen
    · exact h.congr rfl rfl rfl
    · -- every channel a call can sleep on is closed now
      intro x hx channel hplace
      have hle := (h x hx channel hplace).1
      exact ⟨hle.trans (Nat.le_succ _), fun heq => absurd heq (by simp only; omega)⟩
  | waitHandoff =>
    intro w hw channel hplace
    rcases List.mem_cons.mp hw with rfl | hw
    · cases hplace
    · exact h w hw channel hplace
  | check =>
    unfold checkWait
    split_ifs with hbase
    · exact fun x hx => h x (List.mem_of_mem_erase hx)
    · intro x hx channel hblocked
      rcases List.mem_cons.mp hx with rfl | hx
      · obtain rfl := WaitPlace.blocked.inj hblocked
        exact ⟨le_rfl, fun _ => not_le.mp hbase⟩
      · exact h x (List.mem_of_mem_erase hx) channel hblocked
  | wake =>
    intro x hx channel' hblocked
    rcases List.mem_cons.mp hx with rfl | hx
    · cases hblocked
    · exact h x (List.mem_of_mem_erase hx) channel' hblocked
  | giveUp => exact fun x hx => h x (List.mem_of_mem_erase hx)
  | storeView | listKeys | setPending | takeKey | keyGone | pushed | hinted | pushGivenUp
  | keyPushed | countKey | endEarly | stopBackground | startLoop | tick | trigger | roundEnds
  | loopEnds => exact h.congr rfl rfl rfl

/-- No wake-up is lost : a call of WaitHandoff that sleeps although the base has come to the
epoch it waits for sleeps on a channel that is closed. -/
theorem waits_woken (hrun : Run s) {w : HandoffWait} (hw : w ∈ s.waits) {channel : Nat}
    (hblocked : w.place = .blocked channel) (hbase : w.epoch ≤ s.base) : channel < s.changed := by
  have h : Asleep s := by
    clear hw hblocked hbase
    induction hrun with
    | start => exact fun w hw => absurd hw (by simp [new])
    | step _ hstep ih => exact asleep_step ih hstep
  obtain ⟨hle, hopen⟩ := h w hw channel hblocked
  exact lt_of_le_of_ne hle fun heq => absurd (hopen heq) (not_lt.mpr hbase)

/-- A call has looked at the base just before the handoff it waits for is over. -/
theorem waits_woken_justBefore : ∃ s, Run s ∧ s.base = 1 ∧
    ⟨1, .blocked 0⟩ ∈ s.waits ∧ 0 < s.changed := by
  have h1 := (Run.start 0 1).step .startHandoff
  have h2 := h1.step (.listKeys _ [] List.mem_cons_self rfl)
  have h3 := h2.step (.setPending _ [] List.mem_cons_self rfl)
  have h4 := h3.step (.waitHandoff 1)
  have h5 := h4.step (.check _ List.mem_cons_self rfl)
  have h6 := h5.step (.finishHandoff _ List.mem_cons_self rfl)
  exact ⟨_, h6, rfl, List.mem_cons_self, waits_woken h6 List.mem_cons_self rfl le_rfl⟩

/-! ## The anti-entropy round after a handoff -/

/-- While no token waits for the anti-entropy loop, its latest round has started after every
handoff that completed. -/
theorem round_after_handoff (hrun : Run s) (htoken : s.aeTrigger = false) :
    s.roundSaw = s.completed := by
  induction hrun with
  | start => rfl
  | step _ hstep ih =>
    cases hstep with
    | startHandoff =>
      unfold HandoffProgress.startHandoff at htoken ⊢
      split_ifs at htoken ⊢ <;> exact ih htoken
    | finishHandoff =>
      unfold HandoffProgress.finishHandoff at htoken ⊢
      split_ifs at htoken ⊢
      exact ih htoken
    | check =>
      unfold checkWait at htoken ⊢
      split_ifs at htoken ⊢ <;> exact ih htoken
    | tick | trigger => rfl
    | storeView | listKeys | setPending | takeKey | keyGone | pushed | hinted | pushGivenUp
    | keyPushed | countKey | endEarly | stopBackground | waitHandoff | wake | giveUp | startLoop
    | roundEnds | loopEnds => exact ih htoken

/-- A handoff completes during a round, and the loop goes into another one. -/
theorem round_after_handoff_again : ∃ s, Run s ∧ s.completed = 1 ∧ s.loop = .round ∧
    s.roundSaw = 1 := by
  have h1 := (Run.start 0 1).step .startHandoff
  have h2 := h1.step (.listKeys _ [] List.mem_cons_self rfl)
  have h3 := h2.step (.setPending _ [] List.mem_cons_self rfl)
  have h4 := h3.step (.startLoop rfl rfl)
  have h5 := h4.step (.tick (Or.inl rfl))
  have h6 := h5.step (.finishHandoff _ List.mem_cons_self rfl)
  have h7 := h6.step (.roundEnds rfl)
  have h8 := h7.step (.trigger (Or.inr rfl) rfl)
  exact ⟨_, h8, rfl, rfl, round_after_handoff h8 rfl⟩

end HandoffProgress

end DistributedKV
