import DistributedKV.Lives

/-!
# Waiting until a node has drained

`WaitDrained` waits until the last completed handoff is one to the requested epoch or later,
then reads the view, and returns if the node is in it or every other member has been seen at
the requested epoch or later; otherwise it starts again. In between the view, the base of the
handoff and what is known of the peers change on their own, so a `Proc` is a running node
with one call, and each of its steps reads or writes one of them.

A call that returns to a node outside its view has handed off to that view if the requested
epoch is at least the view's (`waitDrained_safe`). A smaller one is met by an earlier handoff
(`waitDrained_early`).
-/

namespace DistributedKV

/-- `u` is older than `v`, or the same view. -/
def Behind (u v : ClusterView) : Prop :=
  u.epoch < v.epoch ∨ u = v

theorem Behind.of_lt {u v w : ClusterView} (h : Behind u v) (hlt : v.epoch < w.epoch) :
    Behind u w := by
  rcases h with h | rfl
  · exact Or.inl (h.trans hlt)
  · exact Or.inl hlt

theorem Behind.le {u v : ClusterView} (h : Behind u v) : u.epoch ≤ v.epoch := by
  rcases h with h | rfl
  · exact h.le
  · exact le_rfl

theorem Behind.eq_of_le {u v : ClusterView} (h : Behind u v) (hle : v.epoch ≤ u.epoch) : u = v :=
  h.resolve_left (not_lt.mpr hle)

/-! ## The base and the view -/

/-- A record of this epoch and members is older than `v`, or the same membership. -/
def RecordBehind (epoch : Nat) (members : Members) (v : MembershipFile) : Prop :=
  epoch < v.epoch ∨ epoch = v.epoch ∧ members = v.members

/-- The HANDOFF file is not ahead of the MEMBERSHIP file. -/
def FilesBehind (dir : DataDir) : Prop :=
  ∀ f, dir.handoff.path = some (.record f) → ∃ r, dir.membership.path = some (.record r) ∧
    RecordBehind f.epoch f.members r

structure NodeBehind (dir : DataDir) (node : LiveNode) : Prop where
  base : Behind node.handoffBase node.view
  running : ∀ t, node.running = some t → node.handoffBase.epoch < t.epoch ∧ Behind t node.view
  /-- The view of a configuration has the node in it. -/
  own : node.view.epoch = 0 → node.id ∈ node.view.members
  handoff : ∀ f, dir.handoff.path = some (.record f) →
    RecordBehind f.epoch f.members node.view.file
  /-- A write that failed late may have left a newer membership. -/
  membership : node.view.epoch = 0 ∨ ∃ r, dir.membership.path = some (.record r) ∧
    RecordBehind node.view.epoch node.view.members r

section

variable {fp : Fingerprinter} {dir dir' : DataDir} {node : LiveNode} {v : ClusterView}
  {cfg : Config}

theorem RecordBehind.le {epoch : Nat} {members : Members} {r : MembershipFile}
    (h : RecordBehind epoch members r) : epoch ≤ r.epoch := by
  unfold RecordBehind at h
  omega

theorem RecordBehind.trans {epoch : Nat} {members : Members} {r : MembershipFile}
    (h : RecordBehind epoch members v.file) (hr : RecordBehind v.epoch v.members r) :
    RecordBehind epoch members r := by
  rcases h with h | ⟨hepoch, hmembers⟩
  · exact Or.inl (Nat.lt_of_lt_of_le h hr.le)
  · rcases hr with hlt | ⟨hepoch', hmembers'⟩
    · exact Or.inl (hepoch ▸ hlt)
    · exact Or.inr ⟨hepoch.trans hepoch', hmembers.trans hmembers'⟩

theorem Behind.record {u : ClusterView} (h : Behind u v) :
    RecordBehind u.epoch u.members v.file := by
  rcases h with h | rfl
  · exact Or.inl h
  · exact Or.inr ⟨rfl, rfl⟩

theorem FilesBehind.congr (h : FilesBehind dir) (hhandoff : dir'.handoff.path = dir.handoff.path)
    (hpath : dir'.membership.path = dir.membership.path) : FilesBehind dir' := by
  intro f hf
  obtain ⟨r, hr, hle⟩ := h f (hhandoff ▸ hf)
  exact ⟨r, hpath.trans hr, hle⟩

/-- A membership newer than the node's is written. -/
theorem NodeBehind.write (h : NodeBehind dir node) (hhandoff : dir'.handoff.path = dir.handoff.path)
    (hpath : dir'.membership.path = some (.record v.file)) (hlt : node.view.epoch < v.epoch) :
    FilesBehind dir' ∧ NodeBehind dir' node := by
  have hbehind : ∀ f, dir'.handoff.path = some (.record f) →
      RecordBehind f.epoch f.members node.view.file := fun f hf => h.handoff f (hhandoff ▸ hf)
  refine ⟨fun f hf => ⟨v.file, hpath, Or.inl ?_⟩, h.base, h.running, h.own, hbehind,
    Or.inr ⟨v.file, hpath, Or.inl hlt⟩⟩
  exact Nat.lt_of_le_of_lt (hbehind f hf).le hlt

/-- The newer membership that was written is published. -/
theorem NodeBehind.publish (h : NodeBehind dir node)
    (hpath : dir.membership.path = some (.record v.file)) (hlt : node.view.epoch < v.epoch) :
    NodeBehind dir { node with view := v } where
  base := h.base.of_lt hlt
  running t ht := ⟨(h.running t ht).1, (h.running t ht).2.of_lt hlt⟩
  own hzero := absurd hzero (show v.epoch ≠ 0 by omega)
  handoff f hf := Or.inl (Nat.lt_of_le_of_lt (h.handoff f hf).le hlt)
  membership := Or.inr ⟨v.file, hpath, Or.inr ⟨rfl, rfl⟩⟩

theorem NodeBehind.startHandoff (h : NodeBehind dir node) : NodeBehind dir node.startHandoff.1 := by
  unfold LiveNode.startHandoff
  split_ifs with hbase hrunning
  · exact h
  · exact h
  · refine ⟨h.base, fun t ht => ?_, h.own, h.handoff, h.membership⟩
    obtain rfl : node.view = t := Option.some.inj ht
    exact ⟨not_le.mp hbase, Or.inr rfl⟩

/-- The newest handoff is over, and its record is written or not. -/
theorem NodeBehind.finish (h : NodeBehind dir node) {newest : ClusterView}
    (hrunning : node.running = some newest)
    (hmembership : dir'.membership.path = dir.membership.path)
    (hhandoff : dir'.handoff.path = some (.record newest.handoffFile) ∨
      dir'.handoff.path = dir.handoff.path) :
    FilesBehind dir' ∧ NodeBehind dir' { node with handoffBase := newest, running := none } := by
  obtain ⟨hlt, hbehind⟩ := h.running newest hrunning
  have hnode : ∀ f, dir'.handoff.path = some (.record f) →
      RecordBehind f.epoch f.members node.view.file := by
    intro f hf
    rcases hhandoff with hwritten | hkept
    · obtain rfl : newest.handoffFile = f := by simpa [hwritten] using hf
      exact hbehind.record
    · exact h.handoff f (hkept ▸ hf)
  have hfile : node.view.epoch = 0 ∨ ∃ r, dir'.membership.path = some (.record r) ∧
      RecordBehind node.view.epoch node.view.members r := hmembership ▸ h.membership
  refine ⟨fun f hf => ?_, hbehind, by simp, h.own, hnode, hfile⟩
  rcases hfile with hzero | ⟨r, hr, hle⟩
  · have := hbehind.le
    omega
  · exact ⟨r, hr, (hnode f hf).trans hle⟩

/-- A node that has been built, before the configured membership is applied. -/
theorem FilesBehind.newNode (h : FilesBehind dir) {held : List ClusterView}
    (hok : FilesOk fp dir held none) (hnew : newNode fp cfg dir = .ok node) :
    NodeBehind dir node := by
  obtain ⟨v, persisted, handedOff, hv, hp, hh, rfl⟩ := newNode_eq_ok hnew
  obtain ⟨hve, hvm, -⟩ := buildView_eq_ok hv
  cases persisted with
  | none =>
    have hempty : ∀ f, dir.handoff.path ≠ some (.record f) := by
      intro f hf
      obtain ⟨r, hr, -⟩ := h f hf
      rw [loadMembership_eq_none.mp hp] at hr
      cases hr
    have hnone : handedOff = none := by
      cases handedOff with
      | none => rfl
      | some => exact absurd (loadHandoff_eq_some hh).2 (hempty _)
    subst hnone
    refine ⟨Or.inr rfl, by simp, fun _ => ?_, fun f hf => absurd hf (hempty f), Or.inl hve⟩
    show cfg.nodeID ∈ v.members
    rw [hvm]
    exact cfg.self_mem
  | some w =>
    obtain ⟨hbuilt, hpath⟩ := loadMembership_eq_some hp
    have hpos : 0 < w.epoch := by
      rcases hok with ⟨hnone, -⟩ | ⟨n, w', hdir, -⟩
      · rw [hpath] at hnone
        cases hnone
      · rw [← (hdir.eq_of_load hp).2]
        exact hdir.pos
    have hhandoff : ∀ f, dir.handoff.path = some (.record f) →
        RecordBehind f.epoch f.members w.file := by
      intro f hf
      obtain ⟨r, hr, hle⟩ := h f hf
      obtain rfl : w.file = r := by simpa [hpath] using hr
      exact hle
    refine ⟨?_, by simp, fun hzero => absurd hzero hpos.ne', hhandoff,
      Or.inr ⟨w.file, hpath, Or.inr ⟨rfl, rfl⟩⟩⟩
    cases handedOff with
    | none => exact Or.inl (show v.epoch < w.epoch by omega)
    | some =>
      obtain ⟨hu, hupath⟩ := loadHandoff_eq_some hh
      rcases hhandoff _ hupath with hlt | ⟨hepoch, hmembers⟩
      · exact Or.inl hlt
      · exact Or.inr (view_ext hu.built hbuilt.built hepoch hmembers)

end

namespace Life

variable {fp : Fingerprinter} {s : Life} {node : LiveNode} {cfg : Config} {dir dir' : DataDir}

/-- What holds of the base and the view through the lives of a node. -/
structure BehindInv (s : Life) : Prop where
  files : FilesBehind s.dir
  node : ∀ node, s.node = some node → NodeBehind s.dir node

theorem BehindInv.startHandoff (h : BehindInv s) (hnode : s.node = some node) :
    BehindInv (s.startHandoff node) := by
  refine ⟨h.files, fun node' hn => ?_⟩
  cases hn
  exact (h.node node hnode).startHandoff

theorem BehindInv.run {changed : Bool} (hfiles : FilesBehind dir) (hnode : NodeBehind dir node)
    (s : Life) : BehindInv (s.run dir node changed) := by
  have hrun : BehindInv { s with dir := dir, held := node.view :: s.held, node := some node } :=
    ⟨hfiles, fun node' hn => Option.some.inj hn ▸ hnode⟩
  unfold Life.run
  split_ifs
  · exact hrun.startHandoff rfl
  · exact hrun

theorem BehindInv.start (h : BehindInv s) (hok : Inv fp s) (hstopped : s.node = none)
    (cfg : Config) (fault : Option WritePoint) : BehindInv (s.start fp cfg fault) := by
  have hfiles : FilesOk fp s.dir s.held none := hstopped ▸ hok.files
  unfold Life.start
  split
  · next e dir' hstart =>
    obtain ⟨hhandoff, hpath | ⟨cur, v, hnew, -, -, -, hlt, hpath⟩⟩ := startup_eq_error hstart
    · exact ⟨h.files.congr (congrArg AtomicFile.path hhandoff) hpath, by simp [hstopped]⟩
    · have hcur := h.files.newNode hfiles hnew
      exact ⟨(hcur.write (congrArg AtomicFile.path hhandoff) hpath hlt).1, by simp [hstopped]⟩
  · next node changed dir' hstart =>
    obtain ⟨cur, hnew, -, hnode, hhandoff, hcases⟩ := startup_eq_ok hstart
    have hcur := h.files.newNode hfiles hnew
    have hpath' := congrArg AtomicFile.path hhandoff
    rcases hcases with ⟨hview, hpath, -⟩ | ⟨-, hepoch, -, hlt, hpath⟩
    · rw [hview] at hnode
      subst hnode
      exact .run (h.files.congr hpath' hpath)
        ⟨hcur.base, hcur.running, hcur.own, hpath' ▸ hcur.handoff, hpath ▸ hcur.membership⟩ _
    · have hnewer : cur.view.epoch < node.view.epoch := hepoch ▸ hlt
      obtain ⟨hwritten, hcur'⟩ := hcur.write hpath' hpath hnewer
      rw [hnode]
      exact .run hwritten (hcur'.publish hpath hnewer) _

theorem BehindInv.setMembership (h : BehindInv s) (hnode : s.node = some node) (epoch : Nat)
    (members : Members) (claimed : String) (fault : Option WritePoint) :
    BehindInv (s.setMembership fp node epoch members claimed fault) := by
  have hbehind := h.node node hnode
  have hspec := setMembership_spec fp node.n ⟨node.view, s.dir.membership⟩ epoch members claimed
    fault
  unfold Life.setMembership
  split
  · next held hset =>
    rw [hset] at hspec
    obtain ⟨-, v, hdecide, hview, hpath⟩ | ⟨hne, -⟩ := hspec
    · obtain ⟨-, hve, -, hlt⟩ := decideMembership_eq_some hdecide
      obtain rfl : held.view = v := hview
      have hnewer : node.view.epoch < held.view.epoch := hve ▸ hlt
      obtain ⟨hwritten, hnode'⟩ : FilesBehind { s.dir with membership := held.file } ∧
          NodeBehind { s.dir with membership := held.file } node :=
        hbehind.write rfl hpath hnewer
      exact .run hwritten (hnode'.publish hpath hnewer) _
    · exact absurd rfl hne
  · next result held hnot hset =>
    rw [hset] at hspec
    have hkeep : FilesBehind { s.dir with membership := held.file } ∧
        NodeBehind { s.dir with membership := held.file } node := by
      obtain ⟨he, -⟩ | ⟨-, -, hpath | ⟨v, hdecide, hpath⟩⟩ := hspec
      · exact (hnot he).elim
      · exact ⟨h.files.congr rfl hpath, hbehind.base, hbehind.running, hbehind.own,
          hbehind.handoff, hpath ▸ hbehind.membership⟩
      · obtain ⟨-, hve, -, hlt⟩ := decideMembership_eq_some hdecide
        exact hbehind.write rfl hpath (hve ▸ hlt)
    refine ⟨hkeep.1, fun node' hn => ?_⟩
    obtain rfl := Option.some.inj (hnode.symm.trans hn)
    exact hkeep.2

theorem BehindInv.finishHandoff (h : BehindInv s) (hnode : s.node = some node)
    {newest : ClusterView} (hrunning : node.running = some newest) (fault : Option WritePoint) :
    BehindInv (s.finishHandoff node newest fault) := by
  have hpath : (s.dir.handoff.writeFileAtomic newest.handoffFile fault).2.path =
      some (.record newest.handoffFile) ∨
      (s.dir.handoff.writeFileAtomic newest.handoffFile fault).2.path = s.dir.handoff.path := by
    rw [AtomicFile.path_writeFileAtomic]
    split_ifs
    · exact Or.inl rfl
    · exact Or.inr rfl
  obtain ⟨hfiles, hnode'⟩ : FilesBehind (s.finishHandoff node newest fault).dir ∧
      NodeBehind (s.finishHandoff node newest fault).dir
        { node with handoffBase := newest, running := none } :=
    (h.node node hnode).finish hrunning rfl hpath
  exact ⟨hfiles, fun node' hn => Option.some.inj hn ▸ hnode'⟩

theorem behindInv_of_run {allowed : Life → Config → Prop} (hrun : Run fp allowed s) :
    BehindInv s := by
  induction hrun with
  | fresh => exact ⟨nofun, nofun⟩
  | start hrun hstopped cfg _ fault ih => exact ih.start (inv_of_run hrun) hstopped cfg fault
  | setMembership _ hnode epoch members claimed fault ih =>
    exact ih.setMembership hnode epoch members claimed fault
  | resume _ hnode ih => exact ih.startHandoff hnode
  | finish _ hnode hrunning fault ih => exact ih.finishHandoff hnode hrunning fault
  | stop _ ih => exact ⟨ih.files, by simp⟩

end Life

/-! ## WaitDrained -/

/-- Where a call of `WaitDrained` stands. -/
inductive WaitPoint
  | handoff
  /-- `WaitHandoff` has returned. -/
  | loading
  /-- It has read the view `v`. -/
  | checking (v : ClusterView)
  | returned

structure DrainCall where
  epoch : Nat
  point : WaitPoint

/-- A running node with a call of `WaitDrained`. -/
structure Proc where
  node : LiveNode
  /-- The epoch in each peer's latest ping reply, 0 before the first. -/
  health : Std.ExtTreeMap String Nat
  /-- The ping replies that came in, with their epochs. -/
  replies : List (String × Nat)
  call : Option DrainCall

namespace Proc

variable (p : Proc)

/-- A peer that was pinged and is a member has an entry. -/
def recordHeartbeat (peerID : String) : Proc :=
  if peerID ∈ p.node.view.members then { p with health := p.health.insertIfNew peerID 0 } else p

def recordPeerEpoch (peerID : String) (epoch : Nat) : Proc :=
  if peerID ∈ p.node.view.members then { p with health := p.health.insert peerID epoch } else p

def pruneHealth : Proc :=
  { p with health := p.health.filter fun id _ => p.node.view.members.contains id }

def allPeersAtLeast (v : ClusterView) (epoch : Nat) : Bool :=
  v.members.keys.all fun id => id = p.node.id || p.health[id]?.any (epoch ≤ ·)

/-- Where a call that has read `v` goes on. -/
def check (v : ClusterView) (epoch : Nat) : WaitPoint :=
  if p.node.id ∈ v.members ∨ p.allPeersAtLeast v epoch then .returned else .handoff

end Proc

/-- One access to what the node's goroutines share. -/
inductive ProcStep (fp : Fingerprinter) (p : Proc) : Proc → Prop
  | publish (epoch : Nat) (members : Members) (claimed : String) (v : ClusterView)
      (h : decideMembership fp p.node.n p.node.view epoch members claimed = .ok (some v)) :
      ProcStep fp p { p with node := { p.node with view := v } }
  | pruneHealth : ProcStep fp p p.pruneHealth
  | startHandoff : ProcStep fp p { p with node := p.node.startHandoff.1 }
  | finishHandoff (newest : ClusterView) (h : p.node.running = some newest) :
      ProcStep fp p { p with node := { p.node with handoffBase := newest, running := none } }
  | reply (peerID : String) (epoch : Nat) :
      ProcStep fp p { p with replies := (peerID, epoch) :: p.replies }
  | recordHeartbeat (peerID : String) : ProcStep fp p (p.recordHeartbeat peerID)
  | recordPeerEpoch (peerID : String) (epoch : Nat) (h : (peerID, epoch) ∈ p.replies) :
      ProcStep fp p (p.recordPeerEpoch peerID epoch)
  | waitDrained (epoch : Nat) : ProcStep fp p { p with call := some ⟨epoch, .handoff⟩ }
  | waitHandoff (epoch : Nat) (h : p.call = some ⟨epoch, .handoff⟩)
      (hbase : epoch ≤ p.node.handoffBase.epoch) :
      ProcStep fp p { p with call := some ⟨epoch, .loading⟩ }
  | load (epoch : Nat) (h : p.call = some ⟨epoch, .loading⟩) :
      ProcStep fp p { p with call := some ⟨epoch, .checking p.node.view⟩ }
  | check (epoch : Nat) (v : ClusterView) (h : p.call = some ⟨epoch, .checking v⟩) :
      ProcStep fp p { p with call := some ⟨epoch, p.check v epoch⟩ }

/-- What a node does from some point of its lives on. -/
inductive ProcRun (fp : Fingerprinter) : Proc → Prop
  | start {s : Life} {node : LiveNode} (hrun : Life.Run fp (fun _ _ => True) s)
      (hnode : s.node = some node) : ProcRun fp ⟨node, ∅, [], none⟩
  | step {p p' : Proc} (hrun : ProcRun fp p) (hstep : ProcStep fp p p') : ProcRun fp p'

/-- Every other member of `v` has answered a ping at `epoch` or later. -/
def Proc.SeenAt (p : Proc) (v : ClusterView) (epoch : Nat) : Prop :=
  ∀ id ∈ v.members, id ≠ p.node.id → ∃ e, epoch ≤ e ∧ (id, e) ∈ p.replies

/-- What a call has found out. -/
def Proc.Found (p : Proc) (epoch : Nat) : WaitPoint → Prop
  | .handoff => True
  | .loading => epoch ≤ p.node.handoffBase.epoch
  | .checking v => epoch ≤ p.node.handoffBase.epoch ∧ epoch ≤ v.epoch ∧ Behind v p.node.view
  | .returned => epoch ≤ p.node.handoffBase.epoch ∧ ∃ v, epoch ≤ v.epoch ∧
      Behind v p.node.view ∧ (p.node.id ∈ v.members ∨ epoch = 0 ∨ p.SeenAt v epoch)

structure Proc.Inv (p : Proc) : Prop where
  base : Behind p.node.handoffBase p.node.view
  running : ∀ t, p.node.running = some t →
    p.node.handoffBase.epoch < t.epoch ∧ Behind t p.node.view
  own : p.node.view.epoch = 0 → p.node.id ∈ p.node.view.members
  health : ∀ (id : String) (e : Nat), p.health[id]? = some e → e = 0 ∨ (id, e) ∈ p.replies
  call : ∀ epoch point, p.call = some ⟨epoch, point⟩ → p.Found epoch point

section

variable {fp : Fingerprinter} {p p' : Proc}

/-- What was found out stays so while the base and the view grow and replies come in. -/
theorem Proc.Found.mono {epoch : Nat} {point : WaitPoint} (h : p.Found epoch point)
    (hid : p'.node.id = p.node.id)
    (hbase : p.node.handoffBase.epoch ≤ p'.node.handoffBase.epoch)
    (hview : ∀ v, Behind v p.node.view → Behind v p'.node.view)
    (hreplies : ∀ r ∈ p.replies, r ∈ p'.replies) : p'.Found epoch point := by
  cases point with
  | handoff => trivial
  | loading => exact Nat.le_trans h hbase
  | checking v => exact ⟨h.1.trans hbase, h.2.1, hview v h.2.2⟩
  | returned =>
    obtain ⟨hle, v, hv, hbehind, hseen⟩ := h
    refine ⟨hle.trans hbase, v, hv, hview v hbehind, hid ▸ hseen.imp_right (Or.imp_right ?_)⟩
    intro hseen id hmem hne
    obtain ⟨e, he, hr⟩ := hseen id hmem (hid ▸ hne)
    exact ⟨e, he, hreplies _ hr⟩

theorem Proc.Inv.seenAt (h : p.Inv) {v : ClusterView} {epoch : Nat} (hpos : epoch ≠ 0)
    (hall : p.allPeersAtLeast v epoch = true) : p.SeenAt v epoch := by
  intro id hmem hne
  have hid := List.all_eq_true.mp hall id (Std.ExtTreeMap.mem_keys.mpr hmem)
  cases he : p.health[id]? with
  | none => simp [he, hne] at hid
  | some e =>
    have hle : epoch ≤ e := by simpa [he, hne] using hid
    exact ⟨e, hle, (h.health id e he).resolve_left (by omega)⟩

theorem Proc.Inv.step (h : p.Inv) (hstep : ProcStep fp p p') : p'.Inv := by
  cases hstep with
  | publish epoch members claimed v hdecide =>
    obtain ⟨-, hve, -, hlt⟩ := decideMembership_eq_some hdecide
    rw [← hve] at hlt
    refine ⟨h.base.of_lt hlt, fun t ht => ⟨(h.running t ht).1, (h.running t ht).2.of_lt hlt⟩,
      fun hzero => absurd hzero (show v.epoch ≠ 0 by omega), h.health, fun epoch point hc => ?_⟩
    exact (h.call epoch point hc).mono rfl le_rfl (fun u hu => hu.of_lt hlt) fun r hr => hr
  | pruneHealth =>
    refine ⟨h.base, h.running, h.own, fun id e he => ?_, h.call⟩
    have hhealth : p.health[id]? = some e := by
      rw [Proc.pruneHealth, Std.ExtTreeMap.getElem?_filter'] at he
      exact (Option.filter_eq_some_iff.mp he).1
    exact h.health id e hhealth
  | startHandoff =>
    have hnode : p.node.startHandoff.1 = p.node ∨
        (p.node.handoffBase.epoch < p.node.view.epoch ∧
          p.node.startHandoff.1 = { p.node with running := some p.node.view }) := by
      unfold LiveNode.startHandoff
      split_ifs with hbase
      · exact Or.inl rfl
      · exact Or.inl rfl
      · exact Or.inr ⟨not_le.mp hbase, rfl⟩
    rcases hnode with hsame | ⟨hlt, hnew⟩
    · rw [hsame]
      exact h
    · rw [hnew]
      refine ⟨h.base, fun t ht => ?_, h.own, h.health, fun epoch point hc => ?_⟩
      · obtain rfl : p.node.view = t := Option.some.inj ht
        exact ⟨hlt, Or.inr rfl⟩
      · exact (h.call epoch point hc).mono rfl le_rfl (fun _ hu => hu) fun r hr => hr
  | finishHandoff newest hrunning =>
    obtain ⟨hlt, hbehind⟩ := h.running newest hrunning
    refine ⟨hbehind, by simp, h.own, h.health, fun epoch point hc => ?_⟩
    exact (h.call epoch point hc).mono rfl hlt.le (fun _ hu => hu) fun r hr => hr
  | reply peerID epoch =>
    refine ⟨h.base, h.running, h.own, fun peer e he => ?_, fun epoch point hc => ?_⟩
    · exact (h.health peer e he).imp_right (List.mem_cons_of_mem _)
    · exact (h.call epoch point hc).mono rfl le_rfl (fun _ hu => hu)
        fun r hr => List.mem_cons_of_mem _ hr
  | recordHeartbeat =>
    unfold Proc.recordHeartbeat
    split_ifs
    · refine ⟨h.base, h.running, h.own, fun peer e he => ?_, h.call⟩
      rw [Std.ExtTreeMap.getElem?_insertIfNew] at he
      split_ifs at he
      · exact Or.inl (Option.some.inj he).symm
      · exact h.health peer e he
    · exact h
  | recordPeerEpoch peerID epoch hreply =>
    unfold Proc.recordPeerEpoch
    split_ifs
    · refine ⟨h.base, h.running, h.own, fun peer e he => ?_, h.call⟩
      rw [Std.ExtTreeMap.getElem?_insert] at he
      split_ifs at he with hpeer
      · obtain rfl : peerID = peer := by simpa using hpeer
        exact Or.inr (Option.some.inj he ▸ hreply)
      · exact h.health peer e he
    · exact h
  | waitDrained =>
    refine ⟨h.base, h.running, h.own, h.health, fun epoch' point hc => ?_⟩
    obtain ⟨-, rfl⟩ := DrainCall.mk.inj (Option.some.inj hc)
    trivial
  | waitHandoff epoch hcall hbase =>
    refine ⟨h.base, h.running, h.own, h.health, fun epoch' point hc => ?_⟩
    obtain ⟨rfl, rfl⟩ := DrainCall.mk.inj (Option.some.inj hc)
    exact hbase
  | load epoch hcall =>
    refine ⟨h.base, h.running, h.own, h.health, fun epoch' point hc => ?_⟩
    obtain ⟨rfl, rfl⟩ := DrainCall.mk.inj (Option.some.inj hc)
    have hbase : epoch ≤ p.node.handoffBase.epoch := h.call _ _ hcall
    exact ⟨hbase, hbase.trans h.base.le, Or.inr rfl⟩
  | check epoch v hcall =>
    refine ⟨h.base, h.running, h.own, h.health, fun epoch' point hc => ?_⟩
    obtain ⟨rfl, rfl⟩ := DrainCall.mk.inj (Option.some.inj hc)
    obtain ⟨hbase, hv, hbehind⟩ := h.call _ _ hcall
    unfold Proc.check
    split_ifs with hdone
    · refine ⟨hbase, v, hv, hbehind, hdone.imp_right fun hall => ?_⟩
      by_cases hzero : epoch = 0
      · exact Or.inl hzero
      · exact Or.inr (h.seenAt hzero hall)
    · trivial

theorem ProcRun.inv (hrun : ProcRun fp p) : p.Inv := by
  induction hrun with
  | start hrun hnode =>
    obtain ⟨hbase, hrunning, hown, -⟩ := (Life.behindInv_of_run hrun).node _ hnode
    exact ⟨hbase, hrunning, hown, by simp, nofun⟩
  | step _ hstep ih => exact ih.step hstep

/-- A call has returned to a node that is outside its view. If the requested epoch is at least
the view's, the node has handed off to that view, and every member of it has answered a ping
at the requested epoch or later. -/
theorem waitDrained_safe (hrun : ProcRun fp p) {epoch : Nat}
    (hcall : p.call = some ⟨epoch, .returned⟩) (houtside : p.node.id ∉ p.node.view.members)
    (hepoch : p.node.view.epoch ≤ epoch) : p.node.handoffBase = p.node.view ∧
      ∀ id ∈ p.node.view.members, ∃ e, epoch ≤ e ∧ (id, e) ∈ p.replies := by
  have h := hrun.inv
  obtain ⟨hbase, v, hv, hbehind, hseen⟩ := h.call epoch .returned hcall
  -- neither the base nor the view that was checked can be older than the view now held
  have heq : p.node.handoffBase = p.node.view := h.base.eq_of_le (hepoch.trans hbase)
  obtain rfl : v = p.node.view := hbehind.eq_of_le (hepoch.trans hv)
  refine ⟨heq, fun id hmem => ?_⟩
  rcases hseen with hmember | hzero | hseen
  · exact absurd hmember houtside
  · exact absurd (h.own (by omega)) houtside
  · exact hseen id hmem fun hid => houtside (hid ▸ hmem)

/-- A member answers a ping, and its epoch is recorded. -/
theorem ProcRun.answered (hrun : ProcRun fp p) {peerID : String}
    (hmember : peerID ∈ p.node.view.members) (epoch : Nat) :
    ProcRun fp { p with
      health := p.health.insert peerID epoch, replies := (peerID, epoch) :: p.replies } := by
  have hreply := hrun.step (.reply peerID epoch)
  have hrecord := hreply.step (.recordPeerEpoch peerID epoch List.mem_cons_self)
  rw [Proc.recordPeerEpoch, if_pos hmember] at hrecord
  exact hrecord

/-- A call whose conditions hold when it is made returns. -/
theorem ProcRun.returns (hrun : ProcRun fp p) {epoch : Nat}
    (hbase : epoch ≤ p.node.handoffBase.epoch)
    (hall : p.allPeersAtLeast p.node.view epoch = true) :
    ProcRun fp { p with call := some ⟨epoch, .returned⟩ } := by
  have hpass := (hrun.step (.waitDrained epoch)).step (.waitHandoff epoch rfl hbase)
  have hcheck : ProcRun fp { p with call := some ⟨epoch, p.check p.node.view epoch⟩ } :=
    (hpass.step (.load epoch rfl)).step (.check epoch p.node.view rfl)
  rw [Proc.check, if_pos (Or.inr hall)] at hcheck
  exact hcheck

end

/-! ## A node that leaves a cluster of three -/

def leaverConfig : Config :=
  ⟨"C", trioMembers, by decide +kernel, 2, 0⟩

/-- C has learned at epoch 1 that it is to leave, and A and B have answered at `epoch`. -/
theorem exists_leaver (epoch : Nat) : ∃ v w : ClusterView, v.epoch = 0 ∧ w.epoch = 1 ∧
    w.members = pairMembers ∧ ProcRun plainFingerprinter ⟨⟨"C", 2, w, v, none⟩,
      ((∅ : Std.ExtTreeMap String Nat).insert "A" epoch).insert "B" epoch,
      [("B", epoch), ("A", epoch)], none⟩ := by
  obtain ⟨v, -, hve, -, hlife⟩ := Life.start_first plainFingerprinter leaverConfig none
    Life.valid_trio rfl
  have hstart : ProcRun plainFingerprinter ⟨⟨"C", 2, v, v, none⟩, ∅, [], none⟩ :=
    .start (.start .fresh rfl leaverConfig trivial none) (congrArg Life.node hlife)
  obtain ⟨w, hdecide⟩ := decideMembership_newer plainFingerprinter Life.valid_pair
    (show v.epoch < 1 by omega)
  obtain ⟨-, hwe, hwm, -⟩ := decideMembership_eq_some hdecide
  refine ⟨v, w, hve, hwe, hwm, ?_⟩
  have hpublished := hstart.step (.publish 1 pairMembers "" w hdecide)
  have hA := hpublished.answered (show "A" ∈ w.members by rw [hwm]; decide +kernel) epoch
  exact hA.answered (show "B" ∈ w.members by rw [hwm]; decide +kernel) epoch

theorem leaver_allPeersAtLeast {node : LiveNode} {call : Option DrainCall} {w : ClusterView}
    (hwm : w.members = pairMembers) (epoch : Nat) : Proc.allPeersAtLeast ⟨node,
      ((∅ : Std.ExtTreeMap String Nat).insert "A" epoch).insert "B" epoch,
      [("B", epoch), ("A", epoch)], call⟩ w epoch = true := by
  have hkeys : pairMembers.keys = ["A", "B"] := by decide +kernel
  simp [Proc.allPeersAtLeast, hwm, hkeys, Std.ExtTreeMap.getElem?_insert]

theorem leaver_outside {w : ClusterView} (hwm : w.members = pairMembers) : "C" ∉ w.members := by
  rw [hwm]
  decide +kernel

/-- C has handed off to epoch 1, which A and B answered at, and asks for epoch 1. -/
theorem waitDrained_safe_trio : ∃ p : Proc, ProcRun plainFingerprinter p ∧
    p.call = some ⟨1, .returned⟩ ∧ p.node.id ∉ p.node.view.members ∧
    p.node.handoffBase = p.node.view := by
  obtain ⟨v, w, hve, hwe, hwm, hrun⟩ := exists_leaver 1
  have hstarted := hrun.step .startHandoff
  rw [show LiveNode.startHandoff ⟨"C", 2, w, v, none⟩ = (⟨"C", 2, w, v, some w⟩, true) by
    simp [LiveNode.startHandoff, hve, hwe]] at hstarted
  have hreturned := (hstarted.step (.finishHandoff w rfl)).returns hwe.ge
    (leaver_allPeersAtLeast hwm 1)
  have hsafe := waitDrained_safe hreturned rfl (leaver_outside hwm) hwe.le
  exact ⟨_, hreturned, rfl, leaver_outside hwm, hsafe.1⟩

/-- C asks for epoch 0, which A and B answered at, and has not handed off to epoch 1. -/
theorem waitDrained_early : ∃ p : Proc, ProcRun plainFingerprinter p ∧
    p.call = some ⟨0, .returned⟩ ∧ p.node.id ∉ p.node.view.members ∧
    p.node.handoffBase.epoch < p.node.view.epoch := by
  obtain ⟨v, w, hve, hwe, hwm, hrun⟩ := exists_leaver 0
  have hreturned := hrun.returns (Nat.zero_le _) (leaver_allPeersAtLeast hwm 0)
  refine ⟨_, hreturned, rfl, leaver_outside hwm, ?_⟩
  show v.epoch < w.epoch
  omega

end DistributedKV
