import DistributedKV.Handoff

/-!
# The lives of a node

A node is started with a configuration on a data directory, adopts memberships, hands its
data off, stops or crashes, and is started again, maybe with another configuration. `New`
takes the node's view from the MEMBERSHIP file and the base of its handoff from the HANDOFF
file; what has no file comes from the configuration, at epoch 0. `applyConfiguredMembership`
then offers the configured members at the configured epoch. A crash between the write of a
file and what follows it is a write whose last step fails, and then a stop.

Both files are written late : the MEMBERSHIP file only when a newer epoch is adopted, the
HANDOFF file only when a handoff is over. `startup_conflict_iff` says when a configuration
that contradicts a membership held before is refused, and `base_completed_or_first` when
the base of every handoff is one whose handoff completed or the first one;
`restart_without_conflict` and `base_never_handed_off` are lives in which nothing was
written yet.
-/

namespace DistributedKV

/-- What startup reads of a configuration. `config.Load` makes sure that the node is one of
the members. -/
structure Config where
  nodeID : String
  members : Members
  self_mem : nodeID ∈ members
  n : Nat
  epoch : Nat

namespace Config

def selfAddress (cfg : Config) : String :=
  cfg.members.getD cfg.nodeID ""

def neighborAddrs (cfg : Config) : Members :=
  cfg.members.erase cfg.nodeID

theorem insert_neighborAddrs (cfg : Config) :
    cfg.neighborAddrs.insert cfg.nodeID cfg.selfAddress = cfg.members := by
  refine Std.ExtTreeMap.ext_getElem? fun id => ?_
  rw [Std.ExtTreeMap.getElem?_insert]
  split_ifs with hid
  · obtain rfl : cfg.nodeID = id := by simpa using hid
    rw [selfAddress, Std.ExtTreeMap.getD_eq_getD_getElem?,
      Std.ExtTreeMap.getElem?_eq_some_getElem cfg.self_mem]
    rfl
  · rw [neighborAddrs, Std.ExtTreeMap.getElem?_erase, if_neg hid]

end Config

/-! ## The HANDOFF file -/

structure HandoffFile where
  epoch : Nat
  members : Members

def ClusterView.handoffFile (v : ClusterView) : HandoffFile :=
  ⟨v.epoch, v.members⟩

structure DataDir where
  membership : AtomicFile MembershipFile
  handoff : AtomicFile HandoffFile

section

variable (fp : Fingerprinter)

def loadHandoff (f : AtomicFile HandoffFile) (n : Nat) : Except LoadError (Option ClusterView) :=
  match f.path with
  | none => .ok none
  | some .corrupt => .error .corrupt
  | some (.record r) =>
    match validateMembers r.members n with
    | some e => .error (.invalid e)
    | none =>
      match buildView fp r.epoch r.members n with
      | .error e => .error (.ring e)
      | .ok v => .ok (some v)

/-! ## Startup -/

inductive StartError
  | ring (e : RingError)
  | loadMembership (e : LoadError)
  | loadHandoff (e : LoadError)
  /-- `applyConfiguredMembership` failed. -/
  | apply (e : MembershipError)
deriving DecidableEq

/-- A node that runs, or is about to. -/
structure LiveNode where
  id : String
  n : Nat
  view : ClusterView
  handoffBase : ClusterView
  /-- The target of the newest handoff, while it runs. -/
  running : Option ClusterView

/-- `New`. -/
def newNode (cfg : Config) (dir : DataDir) : Except StartError LiveNode :=
  match initialView fp cfg.nodeID cfg.selfAddress cfg.neighborAddrs cfg.n with
  | .error e => .error (.ring e)
  | .ok v =>
    match loadMembership fp dir.membership cfg.n with
    | .error e => .error (.loadMembership e)
    | .ok persisted =>
      match loadHandoff fp dir.handoff cfg.n with
      | .error e => .error (.loadHandoff e)
      | .ok handedOff => .ok ⟨cfg.nodeID, cfg.n, persisted.getD v, handedOff.getD v, none⟩

/-- `New` and `applyConfiguredMembership` : the node and whether its view changed, and the
directory. A newer membership that the node already holds is kept. -/
def startup (cfg : Config) (dir : DataDir) (fault : Option WritePoint) :
    Except StartError (LiveNode × Bool) × DataDir :=
  match newNode fp cfg dir with
  | .error e => (.error e, dir)
  | .ok node =>
    match setMembership fp cfg.n ⟨node.view, dir.membership⟩ cfg.epoch cfg.members "" fault with
    | (.error (.staleEpoch _ _), held) =>
      (.ok (node, false), { dir with membership := held.file })
    | (.error e, held) => (.error (.apply e), { dir with membership := held.file })
    | (.ok changed, held) =>
      (.ok ({ node with view := held.view }, changed), { dir with membership := held.file })

/-- `startHandoff`, and whether it starts one. The views of one life have different
epochs. -/
def LiveNode.startHandoff (node : LiveNode) : LiveNode × Bool :=
  if node.handoffBase.epoch ≥ node.view.epoch then (node, false)
  else if node.running.any (·.epoch = node.view.epoch) then (node, false)
  else ({ node with running := some node.view }, true)

/-! ## Lives -/

/-- A handoff that was started, with the member sets whose handoff had completed. -/
structure HandoffStart where
  id : String
  n : Nat
  base : ClusterView
  newest : ClusterView
  completed : List Members

/-- A data directory, the node that runs on it, and what the source does not keep. -/
structure Life where
  dir : DataDir
  node : Option LiveNode
  /-- Every view a running node has held. -/
  held : List ClusterView
  /-- The member sets whose handoff has completed. -/
  completed : List Members
  /-- The member set the node first ran with. -/
  first : Option Members
  /-- The epoch of the latest configuration. -/
  configEpoch : Nat
  starts : List HandoffStart

namespace Life

/-- An empty directory. -/
def fresh : Life :=
  ⟨⟨⟨none, none⟩, ⟨none, none⟩⟩, none, [], [], none, 0, []⟩

def startHandoff (s : Life) (node : LiveNode) : Life :=
  { s with
    node := some node.startHandoff.1
    starts := if node.startHandoff.2
      then ⟨node.id, node.n, node.handoffBase, node.view, s.completed⟩ :: s.starts
      else s.starts }

/-- The node runs with a view. -/
def run (s : Life) (dir : DataDir) (node : LiveNode) (changed : Bool) : Life :=
  let s' := { s with dir := dir, held := node.view :: s.held, node := some node }
  if changed then s'.startHandoff node else s'

def start (s : Life) (cfg : Config) (fault : Option WritePoint) : Life :=
  match startup fp cfg s.dir fault with
  | (.error _, dir) => { s with dir := dir, configEpoch := cfg.epoch }
  | (.ok (node, changed), dir) =>
    { s with
      first := some (s.first.getD node.view.members), configEpoch := cfg.epoch }.run dir node changed

def setMembership (s : Life) (node : LiveNode) (epoch : Nat) (members : Members)
    (claimedFingerprint : String) (fault : Option WritePoint) : Life :=
  match DistributedKV.setMembership fp node.n ⟨node.view, s.dir.membership⟩ epoch members
    claimedFingerprint fault with
  | (.ok true, held) =>
    s.run { s.dir with membership := held.file } { node with view := held.view } true
  | (_, held) => { s with dir := { s.dir with membership := held.file } }

/-- `finishHandoff` of the newest run. A record that can't be written is only logged. -/
def finishHandoff (s : Life) (node : LiveNode) (newest : ClusterView) (fault : Option WritePoint) :
    Life :=
  { s with
    dir := { s.dir with handoff := (s.dir.handoff.writeFileAtomic newest.handoffFile fault).2 }
    node := some { node with handoffBase := newest, running := none }
    completed := newest.members :: s.completed }

/-- What happens in the lives of a node, each start `allowed`. -/
inductive Run (allowed : Life → Config → Prop) : Life → Prop
  | fresh : Run allowed fresh
  | start {s : Life} (hrun : Run allowed s) (hstopped : s.node = none) (cfg : Config)
      (hallowed : allowed s cfg) (fault : Option WritePoint) : Run allowed (s.start fp cfg fault)
  | setMembership {s : Life} (hrun : Run allowed s) {node : LiveNode} (hnode : s.node = some node)
      (epoch : Nat) (members : Members) (claimedFingerprint : String) (fault : Option WritePoint) :
      Run allowed (s.setMembership fp node epoch members claimedFingerprint fault)
  | resume {s : Life} (hrun : Run allowed s) {node : LiveNode} (hnode : s.node = some node) :
      Run allowed (s.startHandoff node)
  | finish {s : Life} (hrun : Run allowed s) {node : LiveNode} (hnode : s.node = some node)
      {newest : ClusterView} (hrunning : node.running = some newest) (fault : Option WritePoint) :
      Run allowed (s.finishHandoff node newest fault)
  | stop {s : Life} (hrun : Run allowed s) : Run allowed { s with node := none }

end Life

/-! ## What startup reads and writes -/

variable {fp} {cfg : Config} {dir dir' : DataDir} {fault : Option WritePoint} {node : LiveNode}

theorem loadHandoff_eq_some {f : AtomicFile HandoffFile} {n : Nat} {v : ClusterView}
    (h : loadHandoff fp f n = .ok (some v)) :
    WellBuilt fp n v ∧ f.path = some (.record v.handoffFile) := by
  unfold loadHandoff at h
  split at h
  · cases h
  · cases h
  · next r hpath =>
    split at h
    · cases h
    · next hvalid =>
      split at h
      · cases h
      · next w hbuilt =>
        obtain rfl : w = v := Option.some.inj (Except.ok.inj h)
        obtain ⟨hepoch, hmembers, -⟩ := buildView_eq_ok hbuilt
        refine ⟨⟨hmembers ▸ hvalid, by rw [hepoch, hmembers]; exact hbuilt⟩, ?_⟩
        rw [hpath, ClusterView.handoffFile, hepoch, hmembers]

theorem loadHandoff_written {f : AtomicFile HandoffFile} {n : Nat} {v : ClusterView}
    (hv : WellBuilt fp n v) (hpath : f.path = some (.record v.handoffFile)) :
    loadHandoff fp f n = .ok (some v) := by
  simp [loadHandoff, hpath, ClusterView.handoffFile, hv.valid, hv.built]

theorem newNode_eq_ok (h : newNode fp cfg dir = .ok node) :
    ∃ v persisted handedOff, buildView fp 0 cfg.members cfg.n = .ok v ∧
      loadMembership fp dir.membership cfg.n = .ok persisted ∧
      loadHandoff fp dir.handoff cfg.n = .ok handedOff ∧
      node = ⟨cfg.nodeID, cfg.n, persisted.getD v, handedOff.getD v, none⟩ := by
  unfold newNode at h
  rw [initialView, cfg.insert_neighborAddrs] at h
  split at h
  · cases h
  · next v hv =>
    split at h
    · cases h
    · next persisted hp =>
      split at h
      · cases h
      · next handedOff hh => exact ⟨v, persisted, handedOff, hv, hp, hh, (Except.ok.inj h).symm⟩

theorem newNode_of_loads {v : ClusterView} {persisted handedOff : Option ClusterView}
    (hv : buildView fp 0 cfg.members cfg.n = .ok v)
    (hp : loadMembership fp dir.membership cfg.n = .ok persisted)
    (hh : loadHandoff fp dir.handoff cfg.n = .ok handedOff) : newNode fp cfg dir =
      .ok ⟨cfg.nodeID, cfg.n, persisted.getD v, handedOff.getD v, none⟩ := by
  unfold newNode
  rw [initialView, cfg.insert_neighborAddrs, hv, hp, hh]

theorem newNode_ne_apply {e : MembershipError} : newNode fp cfg dir ≠ .error (.apply e) := by
  intro h
  unfold newNode at h
  split at h
  · cases h
  · split at h
    · cases h
    · split at h <;> cases h

/-- A conflict at startup is one with the view of the new node. -/
theorem startup_eq_conflict {e : Nat} {current computed : String}
    (h : (startup fp cfg dir fault).1 = .error (.apply (.conflict e current computed))) :
    ∃ cur, newNode fp cfg dir = .ok cur ∧ validateMembers cfg.members cfg.n = none ∧
      cfg.epoch = cur.view.epoch ∧ fingerprint fp cfg.members cfg.n ≠ cur.view.fingerprint := by
  unfold startup at h
  split at h
  · next e hnew =>
    obtain rfl := Except.error.inj h
    exact absurd hnew newNode_ne_apply
  · next cur hnew =>
    refine ⟨cur, hnew, ?_⟩
    rcases setMembership_cases fp cfg.n ⟨cur.view, dir.membership⟩ cfg.epoch cfg.members "" fault
      with ⟨e, hdecide, hset⟩ | ⟨hdecide, hset⟩ | ⟨v, hdecide, ⟨step, hfault, hset⟩ | ⟨-, hset⟩⟩ <;>
      rw [hset] at h
    · cases e with
      | conflict => exact decideMembership_eq_conflict hdecide
      | _ => cases h
    · cases h
    · cases h
    · cases h

theorem startup_of_conflict (hnew : newNode fp cfg dir = .ok node)
    (hvalid : validateMembers cfg.members cfg.n = none) (hepoch : cfg.epoch = node.view.epoch)
    (hother : fingerprint fp cfg.members cfg.n ≠ node.view.fingerprint) :
    (startup fp cfg dir fault).1 = .error (.apply (.conflict cfg.epoch node.view.fingerprint
      (fingerprint fp cfg.members cfg.n))) := by
  have hdecide := (decideMembership_of_valid hvalid (Or.inl (rfl : "" = ""))).2.2 hepoch hother
  simp only [startup, hnew, setMembership, hdecide]

/-- A node that starts kept its view or took the configured one. -/
theorem startup_eq_ok {changed : Bool}
    (h : startup fp cfg dir fault = (.ok (node, changed), dir')) :
    ∃ cur, newNode fp cfg dir = .ok cur ∧ validateMembers cfg.members cfg.n = none ∧
      node = { cur with view := node.view } ∧ dir'.handoff = dir.handoff ∧
      ((node.view = cur.view ∧ dir'.membership.path = dir.membership.path ∧
        (cfg.epoch < cur.view.epoch ∨
          (cfg.epoch = cur.view.epoch ∧ fingerprint fp cfg.members cfg.n = cur.view.fingerprint))) ∨
      (WellBuilt fp cfg.n node.view ∧ node.view.epoch = cfg.epoch ∧
        node.view.members = cfg.members ∧ cur.view.epoch < cfg.epoch ∧
        dir'.membership.path = some (.record node.view.file))) := by
  unfold startup at h
  split at h
  · cases h
  · next cur hcur =>
    refine ⟨cur, hcur, ?_⟩
    rcases setMembership_cases fp cfg.n ⟨cur.view, dir.membership⟩ cfg.epoch cfg.members "" fault
      with ⟨e, hdecide, hset⟩ | ⟨hdecide, hset⟩ | ⟨v, hdecide, ⟨step, hfault, hset⟩ | ⟨-, hset⟩⟩ <;>
      rw [hset] at h
    · -- an error is fatal unless the epoch is stale
      cases e with
      | staleEpoch =>
        obtain ⟨hnode, rfl⟩ := Prod.mk.inj h
        obtain ⟨rfl, rfl⟩ := Prod.mk.inj (Except.ok.inj hnode)
        obtain ⟨hvalid, hlt⟩ := decideMembership_eq_stale hdecide
        exact ⟨hvalid, rfl, rfl, Or.inl ⟨rfl, rfl, Or.inl hlt⟩⟩
      | _ => cases h
    · obtain ⟨hnode, rfl⟩ := Prod.mk.inj h
      obtain ⟨rfl, rfl⟩ := Prod.mk.inj (Except.ok.inj hnode)
      obtain ⟨hvalid, hsame⟩ := decideMembership_eq_none hdecide
      exact ⟨hvalid, rfl, rfl, Or.inl ⟨rfl, rfl, Or.inr hsame⟩⟩
    · cases h
    · obtain ⟨hnode, rfl⟩ := Prod.mk.inj h
      obtain ⟨rfl, rfl⟩ := Prod.mk.inj (Except.ok.inj hnode)
      obtain ⟨hbuilt, hepoch, hmembers, hlt⟩ := decideMembership_eq_some hdecide
      exact ⟨hmembers ▸ hbuilt.valid, rfl, rfl, Or.inr ⟨hbuilt, hepoch, hmembers, hlt, rfl⟩⟩

/-- A start that fails leaves the files, or a membership newer than the node's. -/
theorem startup_eq_error {e : StartError} (h : startup fp cfg dir fault = (.error e, dir')) :
    dir'.handoff = dir.handoff ∧ (dir'.membership.path = dir.membership.path ∨
      ∃ cur v, newNode fp cfg dir = .ok cur ∧ WellBuilt fp cfg.n v ∧ v.epoch = cfg.epoch ∧
        v.members = cfg.members ∧ cur.view.epoch < v.epoch ∧
        dir'.membership.path = some (.record v.file)) := by
  unfold startup at h
  split at h
  · cases h
    exact ⟨rfl, Or.inl rfl⟩
  · next cur hcur =>
    have hspec := setMembership_spec fp cfg.n ⟨cur.view, dir.membership⟩ cfg.epoch cfg.members ""
      fault
    split at h
    · cases h
    · next e held hset =>
      cases h
      rw [hset] at hspec
      refine ⟨rfl, ?_⟩
      rcases hspec with ⟨he, -⟩ | ⟨-, -, hfile | ⟨v, hdecide, hfile⟩⟩
      · cases he
      · exact Or.inl hfile
      · obtain ⟨hbuilt, hepoch, hmembers, hlt⟩ := decideMembership_eq_some hdecide
        exact Or.inr ⟨cur, v, hcur, hbuilt, hepoch, hmembers, hepoch ▸ hlt, hfile⟩
    · cases h

/-! ## Files and views -/

/-- `v` is newer than `u` or the same membership; any view follows one of epoch 0. -/
def Follows (v u : ClusterView) : Prop :=
  u.epoch = 0 ∨ u.epoch < v.epoch ∨ (u.epoch = v.epoch ∧ u.members = v.members)

theorem Follows.of_lt {u v w : ClusterView} (h : Follows v u) (hlt : v.epoch < w.epoch) :
    Follows w u := by
  unfold Follows at h ⊢
  omega

/-- The MEMBERSHIP file holds `v`, and both files were written under N = `n`. -/
structure DirOk (fp : Fingerprinter) (dir : DataDir) (n : Nat) (v : ClusterView) : Prop where
  built : WellBuilt fp n v
  pos : 0 < v.epoch
  path : dir.membership.path = some (.record v.file)
  handoff : dir.handoff.path = none ∨
    ∃ u, WellBuilt fp n u ∧ dir.handoff.path = some (.record u.handoffFile)

/-- What is loaded is what the file holds, under the N it was written for. -/
theorem DirOk.eq_of_load {n m : Nat} {v w : ClusterView} (h : DirOk fp dir n v)
    (hw : loadMembership fp dir.membership m = .ok (some w)) : n = m ∧ v = w := by
  obtain ⟨hbuilt, hpath⟩ := loadMembership_eq_some hw
  have hfile : v.file = w.file := by
    have := h.path.symm.trans hpath
    simpa using this
  obtain ⟨hepoch, hmembers, hfp⟩ : v.epoch = w.epoch ∧ v.members = w.members ∧
      v.fingerprint = w.fingerprint := by
    simpa [ClusterView.file] using hfile
  rw [h.built.fingerprint_eq, hbuilt.fingerprint_eq, hmembers] at hfp
  obtain ⟨-, rfl⟩ := fingerprint_inj fp hfp
  exact ⟨rfl, view_ext h.built.built hbuilt.built hepoch hmembers⟩

/-- Nothing was written and only epoch 0 was held, or the file follows all that was held. -/
def FilesOk (fp : Fingerprinter) (dir : DataDir) (held : List ClusterView)
    (node : Option LiveNode) : Prop :=
  (dir.membership.path = none ∧ dir.handoff.path = none ∧ ∀ u ∈ held, u.epoch = 0) ∨
    ∃ n v, DirOk fp dir n v ∧ (∀ u ∈ held, Follows v u) ∧
      ∀ node', node = some node' → node'.n = n

structure NodeOk (fp : Fingerprinter) (held : List ClusterView) (node : LiveNode) : Prop where
  view : WellBuilt fp node.n node.view
  base : WellBuilt fp node.n node.handoffBase
  mem : node.view ∈ held
  follows : ∀ u ∈ held, Follows node.view u
  running : ∀ t, node.running = some t →
    WellBuilt fp node.n t ∧ 0 < t.epoch ∧ t.epoch ≤ node.view.epoch

/-- A node that has been built, before the configured membership is applied. -/
theorem FilesOk.newNode {held : List ClusterView} (h : FilesOk fp dir held none)
    (hnew : newNode fp cfg dir = .ok node) : node.n = cfg.n ∧ node.running = none ∧
      (∀ u ∈ held, Follows node.view u) ∧
      (WellBuilt fp cfg.n node.handoffBase ∨ node.handoffBase.members = cfg.members ∧
        buildView fp node.handoffBase.epoch node.handoffBase.members cfg.n = .ok node.handoffBase) ∧
      ((dir.membership.path = none ∧ dir.handoff.path = none ∧ node.view.members = cfg.members ∧
        buildView fp node.view.epoch node.view.members cfg.n = .ok node.view ∧
        node.view.epoch = 0 ∧ ∀ u ∈ held, u.epoch = 0) ∨
      DirOk fp dir cfg.n node.view) := by
  obtain ⟨v, persisted, handedOff, hv, hp, hh, rfl⟩ := newNode_eq_ok hnew
  obtain ⟨hve, hvm, -⟩ := buildView_eq_ok hv
  have hv' : buildView fp v.epoch v.members cfg.n = .ok v := by rw [hve, hvm, hv]
  have hbase : WellBuilt fp cfg.n (handedOff.getD v) ∨ (handedOff.getD v).members = cfg.members ∧
      buildView fp (handedOff.getD v).epoch (handedOff.getD v).members cfg.n =
        .ok (handedOff.getD v) := by
    cases handedOff with
    | none => exact Or.inr ⟨hvm, hv'⟩
    | some => exact Or.inl (loadHandoff_eq_some hh).1
  rcases h with ⟨hnone, hhandoff, hzero⟩ | ⟨n, w, hdir, hfollows, -⟩
  · obtain rfl : none = persisted := Except.ok.inj ((loadMembership_eq_none.mpr hnone).symm.trans hp)
    exact ⟨rfl, rfl, fun u hu => Or.inl (hzero u hu), hbase,
      Or.inl ⟨hnone, hhandoff, hvm, hv', hve, hzero⟩⟩
  · cases persisted with
    | none =>
      rw [loadMembership_eq_none, hdir.path] at hp
      cases hp
    | some =>
      obtain ⟨rfl, rfl⟩ := hdir.eq_of_load hp
      exact ⟨rfl, rfl, hfollows, hbase, Or.inr hdir⟩

theorem FilesOk.base_startup {held : List ClusterView} {changed : Bool}
    (h : FilesOk fp dir held none) (hstart : startup fp cfg dir fault = (.ok (node, changed), dir')) :
    WellBuilt fp node.n node.handoffBase := by
  obtain ⟨cur, hnew, hvalid, hnode, -⟩ := startup_eq_ok hstart
  obtain ⟨hn, -, -, hbase, -⟩ := h.newNode hnew
  rw [hnode, hn]
  exact hbase.elim id fun hb => ⟨hb.1 ▸ hvalid, hb.2⟩

/-- The files, if there are any, are for N = `n`. -/
def FilesFor (fp : Fingerprinter) (dir : DataDir) (n : Nat) : Prop :=
  (dir.membership.path = none ∧ dir.handoff.path = none) ∨ ∃ w, DirOk fp dir n w

theorem FilesOk.filesFor {held : List ClusterView} (h : FilesOk fp dir held (some node)) :
    FilesFor fp dir node.n := by
  rcases h with ⟨h1, h2, -⟩ | ⟨n, v, hdir, -, hn⟩
  · exact Or.inl ⟨h1, h2⟩
  · exact Or.inr ⟨v, hn node rfl ▸ hdir⟩

/-- A newer membership is written by a node whose N the files are for. -/
theorem FilesFor.write {held : List ClusterView} {v cur : ClusterView} {n : Nat}
    (hfiles : FilesFor fp dir n)
    (hfollows : ∀ u ∈ held, Follows cur u) (hv : WellBuilt fp n v) (hlt : cur.epoch < v.epoch)
    (hpath : dir'.membership.path = some (.record v.file))
    (hhandoff : dir'.handoff.path = dir.handoff.path) :
    DirOk fp dir' n v ∧ ∀ u ∈ held, Follows v u := by
  refine ⟨⟨hv, by omega, hpath, ?_⟩, fun u hu => (hfollows u hu).of_lt hlt⟩
  rw [hhandoff]
  rcases hfiles with ⟨-, hnone⟩ | ⟨w, hw⟩
  · exact Or.inl hnone
  · exact hw.handoff

theorem FilesOk.congr {held : List ClusterView} {node? : Option LiveNode}
    (h : FilesOk fp dir held node?) (hpath : dir'.membership.path = dir.membership.path)
    (hhandoff : dir'.handoff.path = dir.handoff.path) : FilesOk fp dir' held node? := by
  rcases h with ⟨h1, h2, h3⟩ | ⟨n, v, hdir, hrest⟩
  · exact Or.inl ⟨hpath.trans h1, hhandoff.trans h2, h3⟩
  · exact Or.inr ⟨n, v, ⟨hdir.built, hdir.pos, hpath.trans hdir.path, hhandoff ▸ hdir.handoff⟩, hrest⟩

theorem NodeOk.startHandoff {held : List ClusterView} (h : NodeOk fp held node) :
    NodeOk fp held node.startHandoff.1 := by
  unfold LiveNode.startHandoff
  split_ifs with hbase hrunning
  · exact h
  · exact h
  · exact { h with
      running := fun t ht => by
        obtain rfl : node.view = t := Option.some.inj ht
        exact ⟨h.view, by omega, le_rfl⟩ }

namespace Life

/-- What holds between two steps of a node's lives. -/
structure Inv (fp : Fingerprinter) (s : Life) : Prop where
  files : FilesOk fp s.dir s.held s.node
  node : ∀ node, s.node = some node → NodeOk fp s.held node

variable {s : Life}

theorem n_startHandoff (node : LiveNode) : node.startHandoff.1.n = node.n := by
  unfold LiveNode.startHandoff
  split_ifs <;> rfl

theorem Inv.startHandoff (h : Inv fp s) (hnode : s.node = some node) :
    Inv fp (s.startHandoff node) where
  files := by
    rcases h.files with hnone | ⟨n, v, hdir, hfollows, hn⟩
    · exact Or.inl hnone
    · refine Or.inr ⟨n, v, hdir, hfollows, fun node' he => ?_⟩
      cases he
      rw [n_startHandoff]
      exact hn node hnode
  node := by
    intro node' he
    cases he
    exact (h.node node hnode).startHandoff

theorem Inv.run {changed : Bool} (hfiles : FilesOk fp dir (node.view :: s.held) (some node))
    (hnode : NodeOk fp (node.view :: s.held) node) : Inv fp (s.run dir node changed) := by
  have hrun : Inv fp { s with dir := dir, held := node.view :: s.held, node := some node } :=
    ⟨hfiles, fun node' he => Option.some.inj he ▸ hnode⟩
  cases changed with
  | false => exact hrun
  | true => exact hrun.startHandoff rfl

theorem follows_self (v : ClusterView) : Follows v v :=
  Or.inr (Or.inr ⟨rfl, rfl⟩)

/-- The node runs with a view that was just written. -/
theorem Inv.adopted {changed : Bool} {n : Nat} (hdir : DirOk fp dir n node.view)
    (hheld : ∀ u ∈ s.held, Follows node.view u) (hn : node.n = n)
    (hbase : WellBuilt fp node.n node.handoffBase)
    (hrunning : ∀ t, node.running = some t →
      WellBuilt fp node.n t ∧ 0 < t.epoch ∧ t.epoch ≤ node.view.epoch) :
    Inv fp (s.run dir node changed) := by
  have hfollows : ∀ u ∈ node.view :: s.held, Follows node.view u :=
    List.forall_mem_cons.mpr ⟨follows_self _, hheld⟩
  refine Inv.run (Or.inr ⟨n, node.view, hdir, hfollows, fun node' he => ?_⟩)
    ⟨hn ▸ hdir.built, hbase, List.mem_cons_self, hfollows, hrunning⟩
  cases he
  exact hn

theorem Inv.start (h : Inv fp s) (hstopped : s.node = none) (cfg : Config)
    (fault : Option WritePoint) : Inv fp (s.start fp cfg fault) := by
  have hfiles : FilesOk fp s.dir s.held none := hstopped ▸ h.files
  unfold Life.start
  split
  · next e dir' hstart =>
    obtain ⟨hhandoff, hpath | ⟨cur, v, hnew, hbuilt, -, -, hlt, hpath⟩⟩ := startup_eq_error hstart
    · refine ⟨h.files.congr hpath (congrArg AtomicFile.path hhandoff), h.node⟩
    · obtain ⟨-, -, hfollows, -, hdir⟩ := hfiles.newNode hnew
      have hfor : FilesFor fp s.dir cfg.n := hdir.imp (fun hd => ⟨hd.1, hd.2.1⟩) fun hd => ⟨_, hd⟩
      obtain ⟨hok, hheld⟩ := hfor.write hfollows hbuilt hlt hpath
        (congrArg AtomicFile.path hhandoff)
      exact ⟨Or.inr ⟨cfg.n, v, hok, hheld, by simp [hstopped]⟩, by simp [hstopped]⟩
  · next node changed dir' hstart =>
    obtain ⟨cur, hnew, hvalid, hnode, hhandoff, hview⟩ := startup_eq_ok hstart
    obtain ⟨hn, hrunning, hfollows, -, hdir⟩ := hfiles.newNode hnew
    have hn' : node.n = cfg.n := by rw [hnode]; exact hn
    have hbase' := hfiles.base_startup hstart
    have hrunning' : node.running = none := by rw [hnode]; exact hrunning
    rcases hview with ⟨hkept, hpath, -⟩ | ⟨hbuilt, hve, -, hlt, hpath⟩
    · -- the view that was loaded, or the configured one at epoch 0
      have hfollows' : ∀ u ∈ node.view :: s.held, Follows node.view u :=
        List.forall_mem_cons.mpr ⟨follows_self _, fun u hu => hkept ▸ hfollows u hu⟩
      refine Inv.run ?_ ⟨?_, hbase', List.mem_cons_self, hfollows', by simp [hrunning']⟩
      · refine FilesOk.congr ?_ hpath (congrArg AtomicFile.path hhandoff)
        rcases hdir with ⟨h1, h2, -, -, hzero, hheld⟩ | hdir
        · exact Or.inl ⟨h1, h2, List.forall_mem_cons.mpr ⟨hkept ▸ hzero, hheld⟩⟩
        · refine Or.inr ⟨cfg.n, node.view, hkept ▸ hdir, hfollows', fun node' he => ?_⟩
          cases he
          exact hn'
      · rw [hn', hkept]
        rcases hdir with ⟨-, -, hmembers, hbuilt, -⟩ | hdir
        · exact ⟨hmembers ▸ hvalid, hbuilt⟩
        · exact hdir.built
    · have hfor : FilesFor fp s.dir cfg.n := hdir.imp (fun hd => ⟨hd.1, hd.2.1⟩) fun hd => ⟨_, hd⟩
      have hepoch : cur.view.epoch < node.view.epoch := hve ▸ hlt
      obtain ⟨hok, hheld⟩ := hfor.write hfollows hbuilt hepoch hpath
        (congrArg AtomicFile.path hhandoff)
      exact .adopted hok hheld hn' hbase' (by simp [hrunning'])

theorem Inv.setMembership (h : Inv fp s) (hnode : s.node = some node) (epoch : Nat)
    (members : Members) (claimed : String) (fault : Option WritePoint) :
    Inv fp (s.setMembership fp node epoch members claimed fault) := by
  have hok := h.node node hnode
  have hfor : FilesFor fp s.dir node.n := FilesOk.filesFor (hnode ▸ h.files)
  have hspec := setMembership_spec fp node.n ⟨node.view, s.dir.membership⟩ epoch members claimed
    fault
  unfold Life.setMembership
  split
  · next held hset =>
    rw [hset] at hspec
    obtain ⟨-, v, hdecide, hview, hpath⟩ | ⟨hne, -⟩ := hspec
    · obtain ⟨hbuilt, hve, -, hlt⟩ := decideMembership_eq_some hdecide
      obtain rfl : held.view = v := hview
      have hepoch : node.view.epoch < held.view.epoch := hve ▸ hlt
      obtain ⟨hdir, hheld⟩ : DirOk fp { s.dir with membership := held.file } node.n held.view ∧
          ∀ u ∈ s.held, Follows held.view u :=
        hfor.write hok.follows hbuilt hepoch hpath rfl
      refine .adopted hdir hheld rfl hok.base ?_
      intro t ht
      obtain ⟨htb, htp, htl⟩ := hok.running t ht
      exact ⟨htb, htp, htl.trans hepoch.le⟩
    · exact absurd rfl hne
  · next result held hnot hset =>
    rw [hset] at hspec
    obtain ⟨he, -⟩ | ⟨-, -, hpath | ⟨v, hdecide, hpath⟩⟩ := hspec
    · exact (hnot he).elim
    · exact ⟨h.files.congr hpath rfl, h.node⟩
    · obtain ⟨hbuilt, hve, -, hlt⟩ := decideMembership_eq_some hdecide
      have hepoch : node.view.epoch < v.epoch := hve ▸ hlt
      obtain ⟨hdir, hheld⟩ : DirOk fp { s.dir with membership := held.file } node.n v ∧
          ∀ u ∈ s.held, Follows v u :=
        hfor.write hok.follows hbuilt hepoch hpath rfl
      refine ⟨Or.inr ⟨node.n, v, hdir, hheld, fun node' he => ?_⟩, h.node⟩
      obtain rfl := Option.some.inj (hnode.symm.trans he)
      rfl

theorem Inv.finishHandoff (h : Inv fp s) (hnode : s.node = some node) {newest : ClusterView}
    (hrunning : node.running = some newest) (fault : Option WritePoint) :
    Inv fp (s.finishHandoff node newest fault) := by
  have hok := h.node node hnode
  obtain ⟨hbuilt, hpos, hle⟩ := hok.running newest hrunning
  have hnode' : NodeOk fp s.held { node with handoffBase := newest, running := none } :=
    { hok with base := hbuilt, running := by simp }
  refine ⟨?_, fun node' he => Option.some.inj he ▸ hnode'⟩
  rcases h.files with ⟨-, -, hzero⟩ | ⟨n, v, hdir, hfollows, hn⟩
  · -- a handoff runs to an epoch that was written
    have := hzero _ hok.mem
    omega
  · obtain rfl := hn node hnode
    refine Or.inr ⟨node.n, v, ⟨hdir.built, hdir.pos, hdir.path, ?_⟩, hfollows, fun node' he => ?_⟩
    · simp only [Life.finishHandoff, AtomicFile.path_writeFileAtomic]
      split_ifs
      · exact Or.inr ⟨newest, hbuilt, rfl⟩
      · exact hdir.handoff
    · cases he
      rfl

theorem inv_of_run {allowed : Life → Config → Prop} (hrun : Run fp allowed s) : Inv fp s := by
  induction hrun with
  | fresh => exact ⟨Or.inl ⟨rfl, rfl, by simp [fresh]⟩, by simp [fresh]⟩
  | start _ hstopped cfg _ fault ih => exact ih.start hstopped cfg fault
  | setMembership _ hnode epoch members claimed fault ih =>
    exact ih.setMembership hnode epoch members claimed fault
  | resume _ hnode ih => exact ih.startHandoff hnode
  | finish _ hnode hrunning fault ih => exact ih.finishHandoff hnode hrunning fault
  | stop _ ih =>
    refine ⟨?_, by simp⟩
    rcases ih.files with hnone | ⟨n, v, hdir, hfollows, -⟩
    · exact Or.inl hnone
    · exact Or.inr ⟨n, v, hdir, hfollows, by simp⟩

/-! ## A configuration that contradicts a membership held before -/

theorem exists_loadHandoff {n : Nat} {v : ClusterView} (h : DirOk fp dir n v) :
    ∃ handedOff, loadHandoff fp dir.handoff n = .ok handedOff := by
  rcases h.handoff with hnone | ⟨u, hu, hpath⟩
  · exact ⟨none, by simp [loadHandoff, hnone]⟩
  · exact ⟨some u, loadHandoff_written hu hpath⟩

/-- A configuration with the epoch of a membership that a node held on this directory, but
with other members or addresses, is refused as a conflict exactly when the MEMBERSHIP file
is of that epoch and was written for the configuration's N (and the configured members pass
the checks). -/
theorem startup_conflict_iff (hrun : Run fp (fun _ _ => True) s) {u : ClusterView}
    (hu : u ∈ s.held) (cfg : Config) (hepoch : cfg.epoch = u.epoch)
    (hother : cfg.members ≠ u.members) (fault : Option WritePoint) :
    (∃ current computed, (startup fp cfg s.dir fault).1 =
      .error (.apply (.conflict cfg.epoch current computed))) ↔
    validateMembers cfg.members cfg.n = none ∧
      ∃ r, s.dir.membership.path = some (.record r) ∧ r.epoch = cfg.epoch ∧
        r.fingerprint = fingerprint fp r.members cfg.n := by
  have h := inv_of_run hrun
  constructor
  · rintro ⟨current, computed, hstart⟩
    obtain ⟨cur, hnew, hvalid, hsame, hfp⟩ := startup_eq_conflict hstart
    obtain ⟨v, persisted, handedOff, hv, hp, -, rfl⟩ := newNode_eq_ok hnew
    cases persisted with
    | none => exact absurd (buildView_eq_ok hv).2.2.symm hfp
    | some w =>
      obtain ⟨hbuilt, hpath⟩ := loadMembership_eq_some hp
      exact ⟨hvalid, w.file, hpath, hsame.symm, hbuilt.fingerprint_eq⟩
  · rintro ⟨hvalid, r, hpath, hwe, hwfp⟩
    rcases h.files with ⟨hnone, -⟩ | ⟨n, v, hdir, hfollows, -⟩
    · rw [hnone] at hpath
      cases hpath
    · obtain rfl : v.file = r := by
        have := hdir.path.symm.trans hpath
        simpa using this
      obtain rfl : n = cfg.n :=
        (fingerprint_inj fp (hdir.built.fingerprint_eq.symm.trans hwfp)).2
      have hw := loadMembership_written hdir.built hdir.path
      -- the membership held before is the one in the file
      have hmembers : u.members = v.members := by
        have hpos := hdir.pos
        have he : v.epoch = cfg.epoch := hwe
        rcases hfollows u hu with h0 | hlt | ⟨-, hm⟩
        · omega
        · omega
        · exact hm
      have hfp : fingerprint fp cfg.members cfg.n ≠ v.fingerprint := by
        rw [hdir.built.fingerprint_eq]
        exact fun he => hother ((fingerprint_inj fp he).1.trans hmembers.symm)
      obtain ⟨initial, hinitial⟩ := exists_buildView fp 0 hvalid
      obtain ⟨handedOff, hh⟩ := exists_loadHandoff hdir
      exact ⟨_, _, startup_of_conflict (newNode_of_loads hinitial hw hh) hvalid hwe.symm hfp⟩

/-- The first start at epoch 0 writes nothing. -/
theorem startup_first (fp : Fingerprinter) (cfg : Config) (dir : DataDir) (fault : Option WritePoint)
    (hmembership : dir.membership.path = none) (hhandoff : dir.handoff.path = none)
    (hvalid : validateMembers cfg.members cfg.n = none) (hepoch : cfg.epoch = 0) :
    ∃ v, WellBuilt fp cfg.n v ∧ v.epoch = 0 ∧ v.members = cfg.members ∧
      startup fp cfg dir fault = (.ok (⟨cfg.nodeID, cfg.n, v, v, none⟩, false), dir) := by
  obtain ⟨v, hv⟩ := exists_buildView fp 0 hvalid
  obtain ⟨hve, hvm, hfp⟩ := buildView_eq_ok hv
  have hnew : newNode fp cfg dir = .ok ⟨cfg.nodeID, cfg.n, v, v, none⟩ :=
    newNode_of_loads hv
      (loadMembership_eq_none.mpr hmembership)
      (show loadHandoff fp dir.handoff cfg.n = .ok none by simp [loadHandoff, hhandoff])
  have hdecide := (decideMembership_of_valid hvalid (Or.inl (rfl : "" = ""))).2.1
    (hepoch.trans hve.symm) hfp.symm
  refine ⟨v, ⟨hvm ▸ hvalid, by rw [hve, hvm]; exact hv⟩, hve, hvm, ?_⟩
  simp only [startup, hnew, DistributedKV.setMembership, hdecide]

/-- The first start at epoch 0, as a life. -/
theorem start_first (fp : Fingerprinter) (cfg : Config) (fault : Option WritePoint)
    (hvalid : validateMembers cfg.members cfg.n = none) (hepoch : cfg.epoch = 0) :
    ∃ v, WellBuilt fp cfg.n v ∧ v.epoch = 0 ∧ v.members = cfg.members ∧
      fresh.start fp cfg fault =
        ⟨fresh.dir, some ⟨cfg.nodeID, cfg.n, v, v, none⟩, [v], [], some v.members, 0, []⟩ := by
  obtain ⟨v, hbuilt, hve, hvm, hstart⟩ := startup_first fp cfg fresh.dir fault rfl rfl hvalid hepoch
  refine ⟨v, hbuilt, hve, hvm, ?_⟩
  simp only [Life.start, hstart, hepoch]
  rfl

/-- A newer epoch in the configuration is adopted; the base is what the directory or the
configuration says. -/
theorem startup_newer (cfg : Config) (dir : DataDir) {persisted handedOff : Option ClusterView}
    {v : ClusterView}
    (hvalid : validateMembers cfg.members cfg.n = none)
    (hv : buildView fp 0 cfg.members cfg.n = .ok v)
    (hp : loadMembership fp dir.membership cfg.n = .ok persisted)
    (hh : loadHandoff fp dir.handoff cfg.n = .ok handedOff)
    (hepoch : (persisted.getD v).epoch < cfg.epoch) :
    ∃ w, WellBuilt fp cfg.n w ∧ w.epoch = cfg.epoch ∧ w.members = cfg.members ∧
      startup fp cfg dir none = (.ok (⟨cfg.nodeID, cfg.n, w, handedOff.getD v, none⟩, true),
        { dir with membership := ⟨some (.record w.file), none⟩ }) := by
  have hnew := newNode_of_loads hv hp hh
  obtain ⟨w, hdecide⟩ := decideMembership_newer fp hvalid hepoch
  obtain ⟨hbuilt, hwe, hwm, -⟩ := decideMembership_eq_some hdecide
  refine ⟨w, hbuilt, hwe, hwm, ?_⟩
  simp only [startup, hnew, DistributedKV.setMembership, hdecide]
  rfl

def pairConfig (epoch : Nat) : Config :=
  ⟨"A", pairMembers, by decide +kernel, 2, epoch⟩

def trioConfig (epoch : Nat) : Config :=
  ⟨"A", trioMembers, by decide +kernel, 2, epoch⟩

theorem valid_pair : validateMembers pairMembers 2 = none := by
  decide +kernel

theorem valid_trio : validateMembers trioMembers 2 = none := by
  decide +kernel

theorem pair_ne_trio : pairMembers ≠ trioMembers := by
  intro h
  have hc : "C" ∈ pairMembers := by
    rw [h]
    decide +kernel
  exact absurd hc (by decide +kernel)

/-- A node at epoch 1 with two members is refused a third one at that epoch. -/
theorem startup_conflict_iff_trio : ∃ (s : Life) (u : ClusterView),
    Run plainFingerprinter (fun _ _ => True) s ∧ s.node = none ∧ u ∈ s.held ∧ u.epoch = 1 ∧
      u.members = pairMembers ∧ ∃ current computed,
        (startup plainFingerprinter (trioConfig 1) s.dir none).1 =
          .error (.apply (.conflict 1 current computed)) := by
  obtain ⟨v, hv⟩ := exists_buildView plainFingerprinter 0 valid_pair
  obtain ⟨w, hbuilt, hwe, hwm, hstart⟩ := startup_newer (pairConfig 1) fresh.dir valid_pair hv
    rfl rfl (by rw [Option.getD_none, (buildView_eq_ok hv).1]; exact Nat.one_pos)
  have hrun : Run plainFingerprinter (fun _ _ => True) _ :=
    .stop (.start .fresh rfl (pairConfig 1) trivial none)
  have hheld : w ∈ (fresh.start plainFingerprinter (pairConfig 1) none).held := by
    simp only [Life.start, hstart]
    exact List.mem_cons_self
  have hfile : (fresh.start plainFingerprinter (pairConfig 1) none).dir.membership.path =
      some (.record w.file) := by
    simp only [Life.start, hstart]
    rfl
  refine ⟨_, w, hrun, rfl, hheld, hwe, hwm, ?_⟩
  refine (startup_conflict_iff hrun hheld (trioConfig 1) hwe.symm ?_ none).mpr
    ⟨valid_trio, w.file, hfile, hwe, hbuilt.fingerprint_eq⟩
  rw [hwm]
  exact pair_ne_trio.symm

/-- A node first started at epoch 0 has written nothing. Restarted at epoch 0 with a third
member it runs with three. -/
theorem restart_without_conflict : ∃ (s : Life) (u : ClusterView) (node : LiveNode),
    Run plainFingerprinter (fun _ _ => True) s ∧ s.node = none ∧ u ∈ s.held ∧ u.epoch = 0 ∧
      u.members = pairMembers ∧
      (startup plainFingerprinter (trioConfig 0) s.dir none).1 = .ok (node, false) ∧
      node.view.epoch = 0 ∧ node.view.members = trioMembers ∧ trioMembers ≠ pairMembers := by
  obtain ⟨v, -, hve, hvm, hlife⟩ := start_first plainFingerprinter (pairConfig 0) none valid_pair rfl
  obtain ⟨w, -, hwe, hwm, hrestart⟩ := startup_first plainFingerprinter (trioConfig 0) fresh.dir
    none rfl rfl valid_trio rfl
  have hrun : Run plainFingerprinter (fun _ _ => True) _ :=
    .stop (.start .fresh rfl (pairConfig 0) trivial none)
  rw [hlife] at hrun
  refine ⟨_, v, ⟨"A", 2, w, w, none⟩, hrun, rfl, List.mem_cons_self, hve, hvm, ?_, hwe, hwm,
    pair_ne_trio.symm⟩
  exact congrArg Prod.fst hrestart

/-! ## The base of a handoff -/

/-- `v`'s members have been handed off to, or the node first ran with them. -/
def Known (completed : List Members) (first : Option Members) (v : ClusterView) : Prop :=
  v.members ∈ completed ∨ first = some v.members

/-- A start on a directory with a HANDOFF file, or the first one, or one whose configured
members are known. The configured epoch never decreases. -/
def BaseKnown (s : Life) (cfg : Config) : Prop :=
  s.configEpoch ≤ cfg.epoch ∧ (s.dir.handoff.path ≠ none ∨ s.first = none ∨
    s.first = some cfg.members ∨ cfg.members ∈ s.completed)

structure BaseInv (fp : Fingerprinter) (s : Life) : Prop where
  handedOff : ∀ r, s.dir.handoff.path = some (.record r) → r.members ∈ s.completed
  /-- Before the node first runs only a start that failed has written. -/
  unborn : s.first = none → s.node = none ∧ s.starts = [] ∧ s.dir.handoff.path = none ∧
    ∀ r, s.dir.membership.path = some (.record r) → r.epoch ≤ s.configEpoch
  base : ∀ node, s.node = some node → Known s.completed s.first node.handoffBase
  starts : ∀ st ∈ s.starts, Known st.completed s.first st.base ∧ WellBuilt fp st.n st.base

theorem BaseInv.born (h : BaseInv fp s) (hnode : s.node = some node) : s.first ≠ none := by
  intro hfirst
  have hnone := (h.unborn hfirst).1
  rw [hnode] at hnone
  cases hnone

theorem handoffBase_startHandoff (node : LiveNode) :
    node.startHandoff.1.handoffBase = node.handoffBase := by
  unfold LiveNode.startHandoff
  split_ifs <;> rfl

theorem BaseInv.startHandoff (h : BaseInv fp s) (hnode : s.node = some node)
    (hbuilt : WellBuilt fp node.n node.handoffBase) : BaseInv fp (s.startHandoff node) where
  handedOff := h.handedOff
  unborn hfirst := absurd hfirst (h.born hnode)
  base node' he := by
    cases he
    rw [handoffBase_startHandoff]
    exact h.base node hnode
  starts st hst := by
    simp only [Life.startHandoff] at hst
    split_ifs at hst
    · rcases List.mem_cons.mp hst with rfl | hst
      · exact ⟨h.base node hnode, hbuilt⟩
      · exact h.starts st hst
    · exact h.starts st hst

/-- The base of a new node is in the HANDOFF file or has the configured members. -/
theorem handoffBase_newNode (hnew : newNode fp cfg dir = .ok node) :
    (∃ r, dir.handoff.path = some (.record r) ∧ node.handoffBase.members = r.members) ∨
      (dir.handoff.path = none ∧ node.handoffBase.members = cfg.members) := by
  obtain ⟨v, persisted, handedOff, hv, -, hh, rfl⟩ := newNode_eq_ok hnew
  cases handedOff with
  | none =>
    refine Or.inr ⟨?_, (buildView_eq_ok hv).2.1⟩
    unfold loadHandoff at hh
    split at hh
    · assumption
    · cases hh
    · split at hh
      · cases hh
      · split at hh <;> cases hh
  | some u => exact Or.inl ⟨u.handoffFile, (loadHandoff_eq_some hh).2, rfl⟩

/-- A node starts with the configured members unless the file is of a newer epoch. -/
theorem members_of_startup {changed : Bool}
    (h : startup fp cfg dir fault = (.ok (node, changed), dir'))
    (hfile : ∀ r, dir.membership.path = some (.record r) → r.epoch ≤ cfg.epoch) :
    node.view.members = cfg.members := by
  obtain ⟨cur, hnew, -, -, -, ⟨hkept, -, hsame⟩ | ⟨-, -, hmembers, -⟩⟩ := startup_eq_ok h
  · obtain ⟨v, persisted, handedOff, hv, hp, -, rfl⟩ := newNode_eq_ok hnew
    rw [hkept]
    cases persisted with
    | none => exact (buildView_eq_ok hv).2.1
    | some w =>
      obtain ⟨hbuilt, hpath⟩ := loadMembership_eq_some hp
      have hle : w.epoch ≤ cfg.epoch := hfile w.file hpath
      rcases hsame with hlt | ⟨-, hfp⟩
      · exact absurd hlt (not_lt.mpr hle)
      · exact (fingerprint_inj fp (hfp.trans hbuilt.fingerprint_eq)).1.symm
  · exact hmembers

theorem BaseInv.run {changed : Bool} (h : BaseInv fp { s with dir := dir, node := some node })
    (hbuilt : WellBuilt fp node.n node.handoffBase) : BaseInv fp (s.run dir node changed) := by
  have hrun : BaseInv fp { s with dir := dir, held := node.view :: s.held, node := some node } :=
    ⟨h.handedOff, h.unborn, h.base, h.starts⟩
  cases changed with
  | false => exact hrun
  | true => exact hrun.startHandoff rfl hbuilt

theorem BaseInv.start (h : BaseInv fp s) (hfiles : FilesOk fp s.dir s.held none) (cfg : Config)
    (hknown : BaseKnown s cfg) (fault : Option WritePoint) : BaseInv fp (s.start fp cfg fault) := by
  obtain ⟨hepoch, hknown⟩ := hknown
  unfold Life.start
  split
  · next e dir' hstart =>
    obtain ⟨hhandoff, hpath⟩ := startup_eq_error hstart
    refine ⟨fun r hr => h.handedOff r (hhandoff ▸ hr), fun hfirst => ?_, h.base, h.starts⟩
    obtain ⟨hnone, hstarts, hnofile, hold⟩ := h.unborn hfirst
    refine ⟨hnone, hstarts, hhandoff ▸ hnofile, fun r hr => ?_⟩
    rcases hpath with hpath | ⟨cur, v, -, -, hve, -, -, hpath⟩
    · exact (hold r (hpath ▸ hr)).trans hepoch
    · obtain rfl : v.file = r := by
        have := hpath.symm.trans hr
        simpa using this
      exact hve.le
  · next node changed dir' hstart =>
    obtain ⟨cur, hnew, -, hnode, hhandoff, -⟩ := startup_eq_ok hstart
    have hbase : Known s.completed (some (s.first.getD node.view.members)) node.handoffBase := by
      have hsame : node.handoffBase = cur.handoffBase := by rw [hnode]
      unfold Known
      rw [hsame]
      rcases handoffBase_newNode hnew with ⟨r, hr, hmembers⟩ | ⟨hnofile, hmembers⟩ <;> rw [hmembers]
      · exact Or.inl (h.handedOff r hr)
      · rcases hknown with hfile | hfirst | hfirst | hcompleted
        · exact absurd hnofile hfile
        · -- the first start, with the configured members
          have hold := (h.unborn hfirst).2.2.2
          rw [hfirst, Option.getD_none,
            members_of_startup hstart fun r hr => (hold r hr).trans hepoch]
          exact Or.inr rfl
        · rw [hfirst]
          exact Or.inr rfl
        · exact Or.inl hcompleted
    refine BaseInv.run ⟨fun r hr => h.handedOff r (hhandoff ▸ hr), nofun, ?_, fun st hst => ?_⟩
      (hfiles.base_startup hstart)
    · intro node' he
      exact Option.some.inj he ▸ hbase
    · obtain ⟨hst', hbuilt⟩ := h.starts st hst
      refine ⟨hst'.imp id fun hfirst => ?_, hbuilt⟩
      rw [hfirst]
      rfl

theorem BaseInv.setMembership (h : BaseInv fp s) (hinv : Inv fp s) (hnode : s.node = some node)
    (epoch : Nat) (members : Members) (claimed : String) (fault : Option WritePoint) :
    BaseInv fp (s.setMembership fp node epoch members claimed fault) := by
  unfold Life.setMembership
  split
  · refine BaseInv.run ⟨h.handedOff, fun hfirst => absurd hfirst (h.born hnode), ?_, h.starts⟩
      (hinv.node node hnode).base
    intro node' he
    cases he
    exact h.base node hnode
  · exact ⟨h.handedOff, fun hfirst => absurd hfirst (h.born hnode), h.base, h.starts⟩

theorem BaseInv.finishHandoff (h : BaseInv fp s) (hnode : s.node = some node)
    (newest : ClusterView) (fault : Option WritePoint) :
    BaseInv fp (s.finishHandoff node newest fault) where
  handedOff r hr := by
    simp only [Life.finishHandoff, AtomicFile.path_writeFileAtomic] at hr
    split_ifs at hr
    · obtain rfl : newest.handoffFile = r := by simpa using hr
      exact List.mem_cons_self
    · exact List.mem_cons_of_mem _ (h.handedOff r hr)
  unborn hfirst := absurd hfirst (h.born hnode)
  base node' he := by
    cases he
    exact Or.inl List.mem_cons_self
  starts := h.starts

theorem baseInv_of_run (hrun : Run fp BaseKnown s) : BaseInv fp s := by
  induction hrun with
  | fresh =>
    exact ⟨by simp [fresh], fun _ => ⟨rfl, rfl, rfl, by simp [fresh]⟩, by simp [fresh],
      by simp [fresh]⟩
  | start hrun hstopped cfg hallowed fault ih =>
    exact ih.start (hstopped ▸ (inv_of_run hrun).files) cfg hallowed fault
  | setMembership hrun hnode epoch members claimed fault ih =>
    exact ih.setMembership (inv_of_run hrun) hnode epoch members claimed fault
  | resume hrun hnode ih => exact ih.startHandoff hnode ((inv_of_run hrun).node _ hnode).base
  | finish _ hnode _ fault ih => exact ih.finishHandoff hnode _ fault
  | stop _ ih => exact ⟨ih.handedOff, fun hfirst => ⟨rfl, (ih.unborn hfirst).2⟩, nofun, ih.starts⟩

/-- When every start has a HANDOFF file or known members, the base of every handoff is known
too, and what the node's data must reach includes every owner that the base lacks. -/
theorem base_completed_or_first (hrun : Run fp BaseKnown s) {st : HandoffStart}
    (hst : st ∈ s.starts) :
    (st.base.members ∈ st.completed ∨ s.first = some st.base.members) ∧
      ∀ key owner, owner ∈ st.newest.owners st.n key → owner ≠ st.id → owner ∉ st.base.members →
        owner ∈ handoffTargets st.id st.n st.base st.newest key := by
  obtain ⟨hknown, hbuilt⟩ := (baseInv_of_run hrun).starts st hst
  exact ⟨hknown, fun key owner => mem_handoffTargets_of_new hbuilt⟩

/-- A changed view starts a handoff unless its base is as new. -/
theorem mem_starts_run (s : Life) (dir : DataDir) (hlt : node.handoffBase.epoch < node.view.epoch)
    (hidle : node.running = none) :
    ⟨node.id, node.n, node.handoffBase, node.view, s.completed⟩ ∈ (s.run dir node true).starts := by
  simp [Life.run, Life.startHandoff, LiveNode.startHandoff, not_le.mpr hlt, hidle]

/-- A third member adopted by a node with two is handed what it owns. -/
theorem base_completed_or_first_trio : ∃ (s : Life) (st : HandoffStart),
    Run plainFingerprinter BaseKnown s ∧ st ∈ s.starts ∧ st.newest.members = trioMembers ∧
      st.base.members = pairMembers ∧
      (st.base.members ∈ st.completed ∨ s.first = some st.base.members) ∧
      ∀ key, "C" ∈ st.newest.owners st.n key →
        "C" ∈ handoffTargets st.id st.n st.base st.newest key := by
  obtain ⟨v, -, hve, hvm, hlife⟩ := start_first plainFingerprinter (pairConfig 0) none valid_pair rfl
  obtain ⟨w, hdecide⟩ := decideMembership_newer plainFingerprinter valid_trio
    (show v.epoch < 1 by omega)
  obtain ⟨-, hwe, hwm, -⟩ := decideMembership_eq_some hdecide
  have hrun : Run plainFingerprinter BaseKnown _ :=
    .start .fresh rfl (pairConfig 0) ⟨le_rfl, Or.inr (Or.inl rfl)⟩ none
  rw [hlife] at hrun
  have hrun' := hrun.setMembership rfl 1 trioMembers "" none
  have hst : (⟨"A", 2, v, w, []⟩ : HandoffStart) ∈ (Life.setMembership plainFingerprinter
      ⟨fresh.dir, some ⟨"A", 2, v, v, none⟩, [v], [], some v.members, 0, []⟩ ⟨"A", 2, v, v, none⟩ 1
      trioMembers "" none).starts := by
    simp only [Life.setMembership, DistributedKV.setMembership, hdecide]
    exact mem_starts_run _ _ (show v.epoch < w.epoch by omega) rfl
  obtain ⟨hknown, htargets⟩ := base_completed_or_first hrun' hst
  refine ⟨_, _, hrun', hst, hwm, hvm, hknown, fun key hkey => ?_⟩
  refine htargets key "C" hkey (show "C" ≠ "A" by decide) ?_
  rw [hvm]
  decide +kernel

/-- A node that ran with two members and wrote nothing is restarted with a third one at epoch
1. Its handoff starts from the three, and pushes nothing that it keeps. -/
theorem base_never_handed_off : ∃ (s : Life) (st : HandoffStart),
    Run plainFingerprinter (fun s cfg => s.configEpoch ≤ cfg.epoch ∧
      cfg.members = if cfg.epoch = 0 then pairMembers else trioMembers) s ∧ st ∈ s.starts ∧
      s.first = some pairMembers ∧ st.completed = [] ∧ st.base.members = trioMembers ∧
      trioMembers ≠ pairMembers ∧ ∀ key, st.id ∈ st.newest.owners st.n key →
        handoffTargets st.id st.n st.base st.newest key = [] := by
  obtain ⟨u, -, -, hum, hlife⟩ := start_first plainFingerprinter (pairConfig 0) none valid_pair rfl
  obtain ⟨v, hv⟩ := exists_buildView plainFingerprinter 0 valid_trio
  obtain ⟨hve, hvm, -⟩ := buildView_eq_ok hv
  obtain ⟨w, hbuilt, hwe, hwm, hstart⟩ := startup_newer (trioConfig 1) fresh.dir valid_trio hv
    rfl rfl (by rw [Option.getD_none, hve]; exact Nat.one_pos)
  have hrun : Run plainFingerprinter (fun s cfg => s.configEpoch ≤ cfg.epoch ∧
      cfg.members = if cfg.epoch = 0 then pairMembers else trioMembers) _ :=
    .start .fresh rfl (pairConfig 0) ⟨le_rfl, rfl⟩ none
  rw [hlife] at hrun
  have hrestart := hrun.stop.start rfl (trioConfig 1) ⟨Nat.zero_le _, rfl⟩ none
  -- both views have the same ring
  have howners : ∀ key, v.owners 2 key = w.owners 2 key := by
    have hring := ring_of_buildView hbuilt.built
    rw [hwm] at hring
    have heq : v.ring = w.ring := Except.ok.inj ((ring_of_buildView hv).symm.trans hring)
    intro key
    rw [ClusterView.owners, ClusterView.owners, heq]
  refine ⟨_, ⟨"A", 2, v, w, []⟩, hrestart, ?_, ?_, rfl, hvm, pair_ne_trio.symm, fun key hkey => ?_⟩
  · have hnewer : v.epoch < w.epoch := by
      rw [hve, hwe]
      decide
    simp only [Life.start, hstart]
    exact mem_starts_run _ _ hnewer rfl
  · simp only [Life.start, hstart]
    exact congrArg some hum
  · have hstays : "A" ∈ w.owners 2 key := hkey
    simp only [handoffTargets, howners, hstays, if_true]
    exact List.filter_eq_nil_iff.mpr fun id hid => by simp [hid]

end Life

end

end DistributedKV
