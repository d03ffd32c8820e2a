import DistributedKV.Lives

/-!
# Memberships spread by heartbeats

Nodes announce the epoch and the fingerprint of their view in pings and in the replies to
them. A node that hears of a newer epoch fetches the membership from who announced it, and
gets whatever that node holds by then; one that hears of its own epoch with another
fingerprint notes a conflict. A view is written to the MEMBERSHIP file and then published,
under a lock that the readers of the view do not take : what a goroutine announces or
compares with is a view it loaded some time ago (`Participant.loaded`). Messages are never
lost from `sent`, so they can come late, twice or not at all.

Operators announce one membership per epoch, the parameter `announced`. Then all views and
messages are of it (`Agreed`), the files only grow (`Advances`), and `agreement` follows :
epochs never go back, nodes at one epoch agree, no conflict is noted, a published view is
what a crash would leave, and an announced one is that or older. `announced_before_publish`
is an older one.
-/

namespace DistributedKV

/-- A node that takes part. -/
structure Participant where
  cfg : Config
  /-- The published view. -/
  view : ClusterView
  /-- The view a `setMembership` has written and not published yet. -/
  pending : Option ClusterView
  /-- The views its goroutines have loaded. -/
  loaded : List ClusterView
  /-- Whether a fetch is under way. -/
  adopting : Bool
  membershipConflicts : Nat
  conflictSeen : Std.ExtTreeMap String String

structure PingInfo where
  senderID : String
  senderAddress : String
  epoch : Nat
  fingerprint : String

structure PingReply where
  nodeID : String
  epoch : Nat
  fingerprint : String

structure MembershipInfo where
  epoch : Nat
  members : Members
  fingerprint : String

namespace Participant

/-- A node that has just started with `view`. -/
def started (cfg : Config) (view : ClusterView) : Participant :=
  ⟨cfg, view, none, [], false, 0, ∅⟩

def noteConflict (p : Participant) (peerID : String) (epoch : Nat) (fingerprint : String) :
    Participant :=
  { p with
    membershipConflicts := p.membershipConflicts + 1
    conflictSeen := p.conflictSeen.insert peerID (Nat.repr epoch ++ "/" ++ fingerprint) }

/-- Starts a fetch, or drops it while one is under way. -/
def adoptFrom (p : Participant) : Participant :=
  { p with adopting := true }

/-- The ping that announces a view. -/
def ping (p : Participant) (own : ClusterView) : PingInfo :=
  ⟨p.cfg.nodeID, p.cfg.selfAddress, own.epoch, own.fingerprint⟩

/-- `pingPeer` once the reply is there. A reply from another node is ignored. -/
def pingPeer (p : Participant) (peerID : String) (cur : ClusterView) (reply : PingReply) :
    Participant :=
  if reply.nodeID ≠ peerID then p
  else if reply.epoch > cur.epoch then p.adoptFrom
  else if reply.epoch = cur.epoch ∧ reply.fingerprint ≠ cur.fingerprint then
    p.noteConflict peerID cur.epoch reply.fingerprint
  else p

def handlePing (p : Participant) (cur : ClusterView) (sender : PingInfo) :
    Participant × PingReply :=
  (if sender.epoch > cur.epoch ∧ sender.senderAddress ≠ "" then p.adoptFrom
    else if sender.epoch = cur.epoch ∧ sender.fingerprint ≠ cur.fingerprint then
      p.noteConflict sender.senderID cur.epoch sender.fingerprint
    else p,
    ⟨p.cfg.nodeID, cur.epoch, cur.fingerprint⟩)

def currentMembership (cur : ClusterView) : MembershipInfo :=
  ⟨cur.epoch, cur.members, cur.fingerprint⟩

/-- `setMembership` up to the publication. -/
def persistMembership (fp : Fingerprinter) (p : Participant) (file : AtomicFile MembershipFile)
    (epoch : Nat) (members : Members) (claimedFingerprint : String) (fault : Option WritePoint) :
    Except MembershipError Bool × Participant × AtomicFile MembershipFile :=
  match decideMembership fp p.cfg.n p.view epoch members claimedFingerprint with
  | .error e => (.error e, p, file)
  | .ok none => (.ok false, p, file)
  | .ok (some v) =>
    match writeMembership file v fault with
    | (some step, file) => (.error (.persist epoch step), p, file)
    | (none, file) => (.ok true, { p with pending := some v }, file)

/-- The rest of `setMembership`, with what `pruneHealth` forgets. -/
def publish (p : Participant) (v : ClusterView) : Participant :=
  { p with
    view := v
    pending := none
    conflictSeen := p.conflictSeen.filter fun id _ => v.members.contains id }

/-- `adoptFetched`, up to the publication. -/
def adoptFetched (fp : Fingerprinter) (p : Participant) (file : AtomicFile MembershipFile)
    (peerID : String) (info : MembershipInfo) (fault : Option WritePoint) :
    Participant × AtomicFile MembershipFile :=
  let p := { p with adopting := false }
  match p.persistMembership fp file info.epoch info.members info.fingerprint fault with
  | (.error (.conflict _ _ _), p, file) =>
    (p.noteConflict peerID info.epoch info.fingerprint, file)
  | (_, p, file) => (p, file)

/-- The two halves make `setMembership`. -/
theorem setMembership_eq (fp : Fingerprinter) (p : Participant) (file : AtomicFile MembershipFile)
    (hfree : p.pending = none) (epoch : Nat) (members : Members) (claimed : String)
    (fault : Option WritePoint) :
    setMembership fp p.cfg.n ⟨p.view, file⟩ epoch members claimed fault =
      let r := p.persistMembership fp file epoch members claimed fault
      (r.1, ⟨(r.2.1.pending.elim r.2.1 r.2.1.publish).view, r.2.2⟩) := by
  unfold setMembership persistMembership
  cases decideMembership fp p.cfg.n p.view epoch members claimed with
  | error => simp [hfree]
  | ok v? =>
    cases v? with
    | none => simp [hfree]
    | some v =>
      rcases hwrite : writeMembership file v fault with ⟨_ | step, file'⟩
      · simp [hwrite, publish]
      · simp [hwrite, hfree]

end Participant

/-! ## The cluster -/

inductive Message
  | ping (info : PingInfo)
  | reply (reply : PingReply)
  | membership (info : MembershipInfo)

/-- A data directory's MEMBERSHIP file and the node that runs there. -/
structure Site where
  file : AtomicFile MembershipFile
  node : Option Participant

structure Gossip where
  sites : String → Site
  sent : List Message

namespace Gossip

def init : Gossip :=
  ⟨fun _ => ⟨⟨none, none⟩, none⟩, []⟩

def set (s : Gossip) (i : String) (site : Site) : Gossip :=
  { s with sites := Function.update s.sites i site }

def send (s : Gossip) (m : Message) : Gossip :=
  { s with sent := m :: s.sent }

inductive Event
  /-- A node makes a view its own. -/
  | published (i : String) (v : ClusterView)
  /-- A node sends a view, or its epoch and fingerprint, to another. -/
  | announced (i : String) (v : ClusterView)
  | other

section

variable (fp : Fingerprinter) (n : Nat) (announced : Nat → Members)

/-- The steps of the cluster. A write that fails leaves the file : `syncDir`, which comes
after the rename, does not fail. -/
inductive Step (s : Gossip) : Event → Gossip → Prop
  /-- A node starts on its directory, whatever the HANDOFF file is. -/
  | start (i : String) (hstopped : (s.sites i).node = none) (cfg : Config) (hid : cfg.nodeID = i)
      (hn : cfg.n = n) (hcfg : cfg.members = announced cfg.epoch)
      (handoff : AtomicFile HandoffFile) (fault : Option WritePoint) (node : LiveNode)
      (changed : Bool) (dir : DataDir)
      (hstart : startup fp cfg ⟨(s.sites i).file, handoff⟩ fault = (.ok (node, changed), dir)) :
      Step s (.published i node.view)
        (s.set i ⟨dir.membership, some (.started cfg node.view)⟩)
  /-- A start that fails, or a crash before the node takes part. -/
  | startFails (i : String) (hstopped : (s.sites i).node = none) (cfg : Config)
      (hn : cfg.n = n) (hcfg : cfg.members = announced cfg.epoch)
      (handoff : AtomicFile HandoffFile) (fault : Option WritePoint) :
      Step s .other
        (s.set i ⟨(startup fp cfg ⟨(s.sites i).file, handoff⟩ fault).2.membership, none⟩)
  | crash (i : String) : Step s .other (s.set i ⟨(s.sites i).file, none⟩)
  /-- `POST /admin/membership`. The lock is free. -/
  | post (i : String) (p : Participant) (hnode : (s.sites i).node = some p)
      (hfree : p.pending = none) (epoch : Nat) (members : Members)
      (hmembers : members = announced epoch) (fault : Option WritePoint)
      (hfault : fault ≠ some .syncDir) (result : Except MembershipError Bool) (p' : Participant)
      (file' : AtomicFile MembershipFile)
      (hpersist : p.persistMembership fp (s.sites i).file epoch members "" fault =
        (result, p', file')) : Step s .other (s.set i ⟨file', some p'⟩)
  /-- A fetch returns what some node has sent. -/
  | adopt (i : String) (p : Participant) (hnode : (s.sites i).node = some p)
      (hfree : p.pending = none) (hadopting : p.adopting = true) (peerID : String)
      (info : MembershipInfo) (hinfo : .membership info ∈ s.sent) (fault : Option WritePoint)
      (hfault : fault ≠ some .syncDir) (p' : Participant) (file' : AtomicFile MembershipFile)
      (hadopt : p.adoptFetched fp (s.sites i).file peerID info fault = (p', file')) :
      Step s .other (s.set i ⟨file', some p'⟩)
  | fetchFails (i : String) (p : Participant) (hnode : (s.sites i).node = some p) :
      Step s .other (s.set i ⟨(s.sites i).file, some { p with adopting := false }⟩)
  | publish (i : String) (p : Participant) (hnode : (s.sites i).node = some p) (v : ClusterView)
      (hpending : p.pending = some v) :
      Step s (.published i v) (s.set i ⟨(s.sites i).file, some (p.publish v)⟩)
  | load (i : String) (p : Participant) (hnode : (s.sites i).node = some p) :
      Step s .other (s.set i ⟨(s.sites i).file, some { p with loaded := p.view :: p.loaded }⟩)
  | ping (i : String) (p : Participant) (hnode : (s.sites i).node = some p) (own : ClusterView)
      (hown : own ∈ p.loaded) : Step s (.announced i own) (s.send (.ping (p.ping own)))
  | handlePing (i : String) (p : Participant) (hnode : (s.sites i).node = some p)
      (cur : ClusterView) (hcur : cur ∈ p.loaded) (sender : PingInfo)
      (hsender : .ping sender ∈ s.sent) : Step s (.announced i cur)
        ((s.set i ⟨(s.sites i).file, some (p.handlePing cur sender).1⟩).send
          (.reply (p.handlePing cur sender).2))
  | pingPeer (i : String) (p : Participant) (hnode : (s.sites i).node = some p)
      (peerID : String) (cur : ClusterView) (hcur : cur ∈ p.loaded) (reply : PingReply)
      (hreply : .reply reply ∈ s.sent) :
      Step s .other (s.set i ⟨(s.sites i).file, some (p.pingPeer peerID cur reply)⟩)
  | currentMembership (i : String) (p : Participant) (hnode : (s.sites i).node = some p)
      (cur : ClusterView) (hcur : cur ∈ p.loaded) :
      Step s (.announced i cur) (s.send (.membership (Participant.currentMembership cur)))

inductive Run (s : Gossip) : Gossip → Prop
  | refl : Run s s
  | step {s' s'' : Gossip} {ev : Event} (hrun : Run s s') (hstep : Step fp n announced s' ev s'') :
      Run s s''

/-- What a crash would leave the node with : the view in the file, or if there is none the
epoch-0 view of the node's configuration. -/
def Loads (file : AtomicFile MembershipFile) (cfg : Config) (v : ClusterView) : Prop :=
  loadMembership fp file n = .ok (some v) ∨ (loadMembership fp file n = .ok none ∧
    initialView fp cfg.nodeID cfg.selfAddress cfg.neighborAddrs n = .ok v)

/-- What was shown is what a crash would leave, or older if it was announced. -/
def Shown (s : Gossip) : Event → Prop
  | .published i v => ∃ p, (s.sites i).node = some p ∧ Loads fp n (s.sites i).file p.cfg v
  | .announced i v => ∃ p, (s.sites i).node = some p ∧
      ∃ w, Loads fp n (s.sites i).file p.cfg w ∧ (v = w ∨ v.epoch < w.epoch)
  | .other => True

/-! ## Agreed views -/

/-- A view of the membership that was announced at its epoch. -/
structure Agreed (v : ClusterView) : Prop where
  built : WellBuilt fp n v
  members : v.members = announced v.epoch

variable {fp n announced} {v w : ClusterView} {file file' : AtomicFile MembershipFile}
  {p : Participant}

theorem Agreed.eq (hv : Agreed fp n announced v) (hw : Agreed fp n announced w)
    (h : v.epoch = w.epoch) : v = w :=
  view_ext hv.built.built hw.built.built h (by rw [hv.members, hw.members, h])

theorem Agreed.fingerprint_eq (hv : Agreed fp n announced v) :
    v.fingerprint = fingerprint fp (announced v.epoch) n := by
  rw [hv.built.fingerprint_eq, hv.members]

variable (fp n announced)

/-- What a message says is what was announced at its epoch. -/
def MessageAgreed : Message → Prop
  | .ping info => info.fingerprint = fingerprint fp (announced info.epoch) n
  | .reply reply => reply.fingerprint = fingerprint fp (announced reply.epoch) n
  | .membership info => info.members = announced info.epoch

/-- The file is not there or holds an agreed view. -/
def FileAgreed (file : AtomicFile MembershipFile) : Prop :=
  file.path = none ∨
    ∃ v, Agreed fp n announced v ∧ 0 < v.epoch ∧ file.path = some (.record v.file)

structure ParticipantOk (file : AtomicFile MembershipFile) (p : Participant) : Prop where
  n_eq : p.cfg.n = n
  view : Agreed fp n announced p.view
  loads : p.pending = none → Loads fp n file p.cfg p.view
  pending : ∀ v, p.pending = some v → Agreed fp n announced v ∧ p.view.epoch < v.epoch ∧
    file.path = some (.record v.file)
  loaded : ∀ u ∈ p.loaded, Agreed fp n announced u ∧ u.epoch ≤ p.view.epoch
  conflicts : p.membershipConflicts = 0

structure SiteOk (x : Site) : Prop where
  file : FileAgreed fp n announced x.file
  node : ∀ p, x.node = some p → ParticipantOk fp n announced x.file p

structure Inv (s : Gossip) : Prop where
  site : ∀ i, SiteOk fp n announced (s.sites i)
  sent : ∀ m ∈ s.sent, MessageAgreed fp n announced m

variable {fp n announced}

/-- The epoch in the file. -/
def fileEpoch (file : AtomicFile MembershipFile) : Nat :=
  match file.path with
  | some (.record r) => r.epoch
  | _ => 0

theorem fileEpoch_of_path (h : file.path = some (.record v.file)) : fileEpoch file = v.epoch := by
  rw [fileEpoch, h]
  rfl

theorem fileEpoch_congr (h : file.path = file'.path) : fileEpoch file = fileEpoch file' := by
  rw [fileEpoch, fileEpoch, h]

/-- A site's file and its node do not go back, also if the node is started in between. -/
structure Advances (x y : Site) : Prop where
  file : fileEpoch x.file ≤ fileEpoch y.file
  view : ∀ p q, x.node = some p → y.node = some q → p.view.epoch ≤ q.view.epoch
  started : ∀ q, x.node = none → y.node = some q → fileEpoch x.file ≤ q.view.epoch

theorem Advances.refl (x : Site) : Advances x x where
  file := le_rfl
  view p q hp hq := by
    obtain rfl := Option.some.inj (hp.symm.trans hq)
    exact le_rfl
  started q hnone hq := by
    rw [hnone] at hq
    cases hq

/-- What a running node may leave. -/
theorem Advances.of_running {x : Site} {p' : Participant} (hnode : x.node = some p)
    (hfile : fileEpoch x.file ≤ fileEpoch file') (hview : p.view.epoch ≤ p'.view.epoch) :
    Advances x ⟨file', some p'⟩ where
  file := hfile
  view q q' hq hq' := by
    obtain rfl := Option.some.inj (hnode.symm.trans hq)
    cases hq'
    exact hview
  started q hnone := by
    rw [hnode] at hnone
    cases hnone

theorem Loads.epoch_eq {cfg : Config} (h : Loads fp n file cfg v) : v.epoch = fileEpoch file := by
  rcases h with hload | ⟨hnone, hinitial⟩
  · exact (fileEpoch_of_path (loadMembership_eq_some hload).2).symm
  · rw [fileEpoch, loadMembership_eq_none.mp hnone]
    exact (buildView_eq_ok hinitial).1

theorem ParticipantOk.epoch_le (h : ParticipantOk fp n announced file p) :
    p.view.epoch ≤ fileEpoch file := by
  cases hp : p.pending with
  | none => exact (h.loads hp).epoch_eq.le
  | some v =>
    obtain ⟨-, hlt, hpath⟩ := h.pending v hp
    rw [fileEpoch_of_path hpath]
    exact hlt.le

/-- A view a goroutine has loaded is what a crash would leave, or older. -/
theorem ParticipantOk.shown (h : ParticipantOk fp n announced file p) {u : ClusterView}
    (hu : u ∈ p.loaded) : ∃ w, Loads fp n file p.cfg w ∧ (u = w ∨ u.epoch < w.epoch) := by
  obtain ⟨hagreed, hle⟩ := h.loaded u hu
  cases hp : p.pending with
  | none =>
    refine ⟨p.view, h.loads hp, ?_⟩
    rcases hle.eq_or_lt with heq | hlt
    · exact Or.inl (hagreed.eq h.view heq)
    · exact Or.inr hlt
  | some v =>
    obtain ⟨hv, hlt, hpath⟩ := h.pending v hp
    exact ⟨v, Or.inl (loadMembership_written hv.built hpath), Or.inr (hle.trans_lt hlt)⟩

/-! ## What a node does -/

theorem Loads.congr {cfg : Config} (h : Loads fp n file cfg v) (hpath : file'.path = file.path) :
    Loads fp n file' cfg v := by
  unfold Loads
  rw [loadMembership_congr hpath]
  exact h

theorem FileAgreed.congr (h : FileAgreed fp n announced file) (hpath : file'.path = file.path) :
    FileAgreed fp n announced file' := by
  unfold FileAgreed
  rw [hpath]
  exact h

/-- No conflict is seen in what an agreed message says of its epoch. -/
theorem Agreed.not_conflict (hv : Agreed fp n announced v) {epoch : Nat} {text : String}
    (htext : text = fingerprint fp (announced epoch) n) :
    ¬(epoch = v.epoch ∧ text ≠ v.fingerprint) := by
  rintro ⟨rfl, hne⟩
  exact hne (htext.trans hv.fingerprint_eq.symm)

theorem handlePing_agreed (hv : Agreed fp n announced v) (p : Participant) {sender : PingInfo}
    (hsender : MessageAgreed fp n announced (.ping sender)) :
    (p.handlePing v sender).1 = p ∨ (p.handlePing v sender).1 = p.adoptFrom := by
  simp only [Participant.handlePing, if_neg (hv.not_conflict hsender)]
  split_ifs
  · exact Or.inr rfl
  · exact Or.inl rfl

theorem pingPeer_agreed (hv : Agreed fp n announced v) (p : Participant) (peerID : String)
    {reply : PingReply} (hreply : MessageAgreed fp n announced (.reply reply)) :
    p.pingPeer peerID v reply = p ∨ p.pingPeer peerID v reply = p.adoptFrom := by
  simp only [Participant.pingPeer, if_neg (hv.not_conflict hreply)]
  split_ifs
  · exact Or.inl rfl
  · exact Or.inr rfl
  · exact Or.inl rfl

/-- An announced membership is refused or written, and never in conflict. -/
theorem persistMembership_agreed {epoch : Nat} {members : Members} {claimed : String}
    {fault : Option WritePoint} {result : Except MembershipError Bool} {p' : Participant}
    (h : p.persistMembership fp file epoch members claimed fault = (result, p', file'))
    (hn : p.cfg.n = n) (hview : Agreed fp n announced p.view) (hmembers : members = announced epoch)
    (hfault : fault ≠ some .syncDir) :
    (p' = p ∧ file'.path = file.path ∧ ∀ e a b, result ≠ .error (.conflict e a b)) ∨
      ∃ v, result = .ok true ∧ p' = { p with pending := some v } ∧ Agreed fp n announced v ∧
        p.view.epoch < v.epoch ∧ file'.path = some (.record v.file) := by
  unfold Participant.persistMembership at h
  rw [hn] at h
  split at h
  · next e hdecide =>
    obtain ⟨rfl, hrest⟩ := Prod.mk.inj h
    cases hrest
    refine Or.inl ⟨rfl, rfl, fun e' a b he => ?_⟩
    obtain rfl := Except.error.inj he
    obtain ⟨-, hepoch, hother⟩ := decideMembership_eq_conflict hdecide
    exact hview.not_conflict (congrArg (fingerprint fp · n) hmembers) ⟨hepoch, hother⟩
  · obtain ⟨rfl, hrest⟩ := Prod.mk.inj h
    cases hrest
    exact Or.inl ⟨rfl, rfl, nofun⟩
  · next v hdecide =>
    obtain ⟨hbuilt, hepoch, hvm, hlt⟩ := decideMembership_eq_some hdecide
    have herror := file.error_writeFileAtomic v.file fault
    have hpath := file.path_writeFileAtomic v.file fault
    split at h
    · next step written hwrite =>
      obtain ⟨rfl, hrest⟩ := Prod.mk.inj h
      cases hrest
      rw [writeMembership] at hwrite
      rw [hwrite] at herror hpath
      refine Or.inl ⟨rfl, ?_, nofun⟩
      rw [hpath, if_neg]
      rintro (hnone | hsync)
      · rw [hnone] at herror
        cases herror
      · exact hfault hsync
    · next written hwrite =>
      obtain ⟨rfl, hrest⟩ := Prod.mk.inj h
      cases hrest
      rw [writeMembership] at hwrite
      rw [hwrite] at herror hpath
      refine Or.inr ⟨v, rfl, rfl, ⟨hbuilt, hvm.trans (hepoch ▸ hmembers)⟩, hepoch ▸ hlt, ?_⟩
      rw [hpath, if_pos (Or.inl herror.symm)]

theorem persistMembership_newer (file : AtomicFile MembershipFile) {epoch : Nat} {members : Members}
    {claimed : String}
    (hdecide : decideMembership fp p.cfg.n p.view epoch members claimed = .ok (some v)) :
    p.persistMembership fp file epoch members claimed none =
      (.ok true, { p with pending := some v }, ⟨some (.record v.file), none⟩) := by
  simp only [Participant.persistMembership, hdecide]
  rfl

/-! ## One site after another -/

/-- What a step leaves at a site. -/
def Next (fp : Fingerprinter) (n : Nat) (announced : Nat → Members) (x y : Site) : Prop :=
  SiteOk fp n announced y ∧ Advances x y

variable {x : Site} {p' : Participant}

/-- The view stays, and so does what is written. -/
theorem SiteOk.next_quiet (h : SiteOk fp n announced x) (hnode : x.node = some p)
    (hpath : file'.path = x.file.path) (hcfg : p'.cfg = p.cfg) (hview : p'.view = p.view)
    (hpending : p'.pending = p.pending) (hloaded : ∀ u ∈ p'.loaded, u ∈ p.loaded ∨ u = p.view)
    (hconflicts : p'.membershipConflicts = p.membershipConflicts) :
    Next fp n announced x ⟨file', some p'⟩ := by
  have hp := h.node p hnode
  refine ⟨⟨h.file.congr hpath, fun q hq => ?_⟩,
    .of_running hnode (fileEpoch_congr hpath).ge (congrArg ClusterView.epoch hview).ge⟩
  · cases hq
    refine ⟨hcfg ▸ hp.n_eq, hview ▸ hp.view, fun hnone => ?_, fun v hv => ?_, fun u hu => ?_,
      hconflicts.trans hp.conflicts⟩
    · rw [hcfg, hview]
      exact (hp.loads (hpending ▸ hnone)).congr hpath
    · rw [hview, hpath]
      exact hp.pending v (hpending ▸ hv)
    · rw [hview]
      rcases hloaded u hu with hold | rfl
      · exact hp.loaded u hold
      · exact ⟨hp.view, le_rfl⟩

theorem SiteOk.next_set (h : SiteOk fp n announced x) (hnode : x.node = some p) (p' : Participant)
    (hcfg : p'.cfg = p.cfg) (hview : p'.view = p.view) (hpending : p'.pending = p.pending)
    (hloaded : ∀ u ∈ p'.loaded, u ∈ p.loaded ∨ u = p.view)
    (hconflicts : p'.membershipConflicts = p.membershipConflicts) :
    Next fp n announced x ⟨x.file, some p'⟩ :=
  h.next_quiet hnode rfl hcfg hview hpending hloaded hconflicts

theorem SiteOk.next_heard (h : SiteOk fp n announced x) (hnode : x.node = some p)
    (heard : p' = p ∨ p' = p.adoptFrom) : Next fp n announced x ⟨x.file, some p'⟩ := by
  rcases heard with rfl | rfl
  · exact h.next_set hnode _ rfl rfl rfl (fun _ => Or.inl) rfl
  · exact h.next_set hnode _ rfl rfl rfl (fun _ => Or.inl) rfl

/-- A newer view is written. -/
theorem SiteOk.next_persisted (h : SiteOk fp n announced x) (hnode : x.node = some p)
    (hv : Agreed fp n announced v) (hlt : p.view.epoch < v.epoch) (hfree : p.pending = none)
    (hpath : file'.path = some (.record v.file)) (hcfg : p'.cfg = p.cfg)
    (hview : p'.view = p.view) (hpending : p'.pending = some v) (hloaded : p'.loaded = p.loaded)
    (hconflicts : p'.membershipConflicts = p.membershipConflicts) :
    Next fp n announced x ⟨file', some p'⟩ := by
  have hp := h.node p hnode
  refine ⟨⟨Or.inr ⟨v, hv, by omega, hpath⟩, fun q hq => ?_⟩,
    .of_running hnode ?_ (congrArg ClusterView.epoch hview).ge⟩
  · cases hq
    refine ⟨hcfg ▸ hp.n_eq, hview ▸ hp.view, fun hnone => ?_, fun w hw => ?_, ?_,
      hconflicts.trans hp.conflicts⟩
    · rw [hpending] at hnone
      cases hnone
    · obtain rfl := Option.some.inj (hpending.symm.trans hw)
      exact ⟨hv, hview ▸ hlt, hpath⟩
    · rw [hview, hloaded]
      exact hp.loaded
  · -- nothing newer than the view was in the file
    rw [fileEpoch_of_path hpath, ← (hp.loads hfree).epoch_eq]
    exact hlt.le

/-- An announced membership, offered by an operator or fetched. -/
theorem SiteOk.next_persist (h : SiteOk fp n announced x) (hnode : x.node = some p)
    (hfree : p.pending = none) (adopting : Bool) {epoch : Nat} {members : Members}
    (hmembers : members = announced epoch) {claimed : String} {fault : Option WritePoint}
    (hfault : fault ≠ some .syncDir) {result : Except MembershipError Bool}
    (hpersist : Participant.persistMembership fp { p with adopting := adopting } x.file epoch members
      claimed fault = (result, p', file')) :
    Next fp n announced x ⟨file', some p'⟩ ∧ ∀ e a b, result ≠ .error (.conflict e a b) := by
  have hp := h.node p hnode
  rcases persistMembership_agreed hpersist hp.n_eq hp.view hmembers hfault with
    ⟨rfl, hpath, hconflict⟩ | ⟨v, rfl, rfl, hv, hlt, hpath⟩
  · exact ⟨h.next_quiet hnode hpath rfl rfl rfl (fun _ => Or.inl) rfl, hconflict⟩
  · exact ⟨h.next_persisted hnode hv hlt hfree hpath rfl rfl rfl rfl rfl, nofun⟩

theorem SiteOk.next_adopt (h : SiteOk fp n announced x) (hnode : x.node = some p)
    (hfree : p.pending = none) {peerID : String} {info : MembershipInfo}
    (hinfo : info.members = announced info.epoch) {fault : Option WritePoint}
    (hfault : fault ≠ some .syncDir)
    (hadopt : p.adoptFetched fp x.file peerID info fault = (p', file')) :
    Next fp n announced x ⟨file', some p'⟩ := by
  unfold Participant.adoptFetched at hadopt
  simp only at hadopt
  split at hadopt
  · next e a b p₁ file₁ hpersist =>
    exact absurd rfl ((h.next_persist hnode hfree false hinfo hfault hpersist).2 e a b)
  · next result p₁ file₁ _ hpersist =>
    cases hadopt
    exact (h.next_persist hnode hfree false hinfo hfault hpersist).1

theorem SiteOk.next_publish (h : SiteOk fp n announced x) (hnode : x.node = some p)
    (hpending : p.pending = some v) : Next fp n announced x ⟨x.file, some (p.publish v)⟩ ∧
      Loads fp n x.file p.cfg v := by
  have hp := h.node p hnode
  obtain ⟨hv, hlt, hpath⟩ := hp.pending v hpending
  have hloads : Loads fp n x.file p.cfg v := Or.inl (loadMembership_written hv.built hpath)
  refine ⟨⟨⟨h.file, fun q hq => ?_⟩, .of_running hnode le_rfl hlt.le⟩, hloads⟩
  cases hq
  refine ⟨hp.n_eq, hv, fun _ => hloads, nofun, fun u hu => ?_, hp.conflicts⟩
  exact ⟨(hp.loaded u hu).1, (hp.loaded u hu).2.trans hlt.le⟩

/-- What is loaded was announced. -/
theorem FileAgreed.agreed (h : FileAgreed fp n announced file)
    (hload : loadMembership fp file n = .ok (some w)) : Agreed fp n announced w := by
  obtain ⟨hbuilt, hpath⟩ := loadMembership_eq_some hload
  rcases h with hnone | ⟨v, hv, -, hpath'⟩
  · rw [hnone] at hpath
    cases hpath
  · have hfile : v.file = w.file := by
      have := hpath'.symm.trans hpath
      simpa using this
    obtain ⟨hepoch, hmembers, -⟩ : v.epoch = w.epoch ∧ v.members = w.members ∧
        v.fingerprint = w.fingerprint := by
      simpa [ClusterView.file] using hfile
    exact ⟨hbuilt, by rw [← hmembers, hv.members, hepoch]⟩

variable {cfg : Config} {handoff : AtomicFile HandoffFile} {fault : Option WritePoint}
  {dir : DataDir} {node : LiveNode}

/-- A new node has what a crash would leave. -/
theorem loads_newNode (hn : cfg.n = n) (hnew : newNode fp cfg ⟨file, handoff⟩ = .ok node) :
    Loads fp n file cfg node.view := by
  obtain ⟨v, persisted, handedOff, hv, hp, -, rfl⟩ := newNode_eq_ok hnew
  rw [hn] at hp
  cases persisted with
  | none =>
    refine Or.inr ⟨hp, ?_⟩
    rw [initialView, cfg.insert_neighborAddrs, ← hn]
    exact hv
  | some => exact Or.inl hp

/-- The view of a node that starts. -/
theorem FileAgreed.startup (h : FileAgreed fp n announced file) (hn : cfg.n = n)
    (hcfg : cfg.members = announced cfg.epoch) {changed : Bool}
    (hstart : startup fp cfg ⟨file, handoff⟩ fault = (.ok (node, changed), dir)) :
    FileAgreed fp n announced dir.membership ∧ Agreed fp n announced node.view ∧
      Loads fp n dir.membership cfg node.view ∧ fileEpoch file ≤ node.view.epoch := by
  obtain ⟨cur, hnew, hvalid, -, -, ⟨hkept, hpath, hsame⟩ | ⟨hbuilt, hve, hvm, hlt, hpath⟩⟩ :=
    startup_eq_ok hstart
  · have hloads := loads_newNode hn hnew
    rw [← hkept] at hloads hsame
    refine ⟨h.congr hpath, ?_, hloads.congr hpath, hloads.epoch_eq.ge⟩
    rcases hloads with hload | ⟨hnone, hinitial⟩
    · exact h.agreed hload
    · -- nothing is loaded, and the configuration is of epoch 0
      rw [initialView, cfg.insert_neighborAddrs] at hinitial
      obtain ⟨hve, hvm, -⟩ := buildView_eq_ok hinitial
      have hzero : cfg.epoch = 0 := by omega
      refine ⟨⟨hvm ▸ hn ▸ hvalid, by rw [hve, hvm]; exact hinitial⟩, ?_⟩
      rw [hvm, hcfg, hve, hzero]
  · have hagreed : Agreed fp n announced node.view := ⟨hn ▸ hbuilt, by rw [hvm, hcfg, hve]⟩
    have hold := (loads_newNode hn hnew).epoch_eq
    refine ⟨Or.inr ⟨node.view, hagreed, by omega, hpath⟩, hagreed,
      Or.inl (loadMembership_written hagreed.built hpath), by omega⟩

/-- The file a start leaves, failed or not. -/
theorem FileAgreed.file_startup (h : FileAgreed fp n announced file) (hn : cfg.n = n)
    (hcfg : cfg.members = announced cfg.epoch) (handoff : AtomicFile HandoffFile)
    (fault : Option WritePoint) :
    FileAgreed fp n announced (DistributedKV.startup fp cfg ⟨file, handoff⟩ fault).2.membership ∧
      fileEpoch file ≤
        fileEpoch (DistributedKV.startup fp cfg ⟨file, handoff⟩ fault).2.membership := by
  rcases hstart : DistributedKV.startup fp cfg ⟨file, handoff⟩ fault with ⟨e | ⟨node, changed⟩, dir⟩
  · obtain ⟨-, hpath | ⟨cur, v, hnew, hbuilt, hve, hvm, hlt, hpath⟩⟩ := startup_eq_error hstart
    · exact ⟨h.congr hpath, (fileEpoch_congr hpath).ge⟩
    · have hold := (loads_newNode hn hnew).epoch_eq
      refine ⟨Or.inr ⟨v, ⟨hn ▸ hbuilt, by rw [hvm, hcfg, hve]⟩, by omega, hpath⟩, ?_⟩
      rw [fileEpoch_of_path hpath, ← hold]
      exact hlt.le
  · obtain ⟨hfile, -, hloads, hle⟩ := h.startup hn hcfg hstart
    exact ⟨hfile, hloads.epoch_eq ▸ hle⟩

theorem SiteOk.next_crash (h : SiteOk fp n announced x) :
    Next fp n announced x ⟨x.file, none⟩ :=
  ⟨⟨h.file, nofun⟩, le_rfl, nofun, nofun⟩

theorem SiteOk.next_start (h : SiteOk fp n announced x) (hstopped : x.node = none) (hn : cfg.n = n)
    (hcfg : cfg.members = announced cfg.epoch) {changed : Bool}
    (hstart : startup fp cfg ⟨x.file, handoff⟩ fault = (.ok (node, changed), dir)) :
    Next fp n announced x ⟨dir.membership, some (.started cfg node.view)⟩ ∧
      Loads fp n dir.membership cfg node.view := by
  obtain ⟨hfile, hagreed, hloads, hle⟩ := h.file.startup hn hcfg hstart
  refine ⟨⟨⟨hfile, fun q hq => ?_⟩, hloads.epoch_eq ▸ hle, fun q q' hq => ?_, fun q hq hq' => ?_⟩,
    hloads⟩
  · cases hq
    exact ⟨hn, hagreed, fun _ => hloads, nofun, nofun, rfl⟩
  · rw [hstopped] at hq
    cases hq
  · cases hq'
    exact hle

/-! ## The whole cluster -/

variable {s s' : Gossip} {ev : Event}

theorem sites_set (s : Gossip) (i : String) (y : Site) : (s.set i y).sites i = y :=
  Function.update_self ..

/-- A step at one site. -/
theorem Inv.set (h : Inv fp n announced s) {i : String} {y : Site}
    (hnext : Next fp n announced (s.sites i) y) : Inv fp n announced (s.set i y) ∧
      ∀ j, Advances (s.sites j) ((s.set i y).sites j) := by
  refine ⟨⟨fun j => ?_, h.sent⟩, fun j => ?_⟩ <;>
    simp only [Gossip.set, Function.update_apply] <;> split_ifs with hj
  · exact hnext.1
  · exact h.site j
  · exact hj ▸ hnext.2
  · exact .refl _

theorem Inv.send (h : Inv fp n announced s) {m : Message} (hm : MessageAgreed fp n announced m) :
    Inv fp n announced (s.send m) :=
  ⟨h.site, List.forall_mem_cons.mpr ⟨hm, h.sent⟩⟩

/-- A step keeps the invariant, takes no site back and shows what may be shown. -/
theorem step_spec (h : Inv fp n announced s) (hstep : Step fp n announced s ev s') :
    Inv fp n announced s' ∧ (∀ i, Advances (s.sites i) (s'.sites i)) ∧ Shown fp n s' ev := by
  cases hstep with
  | start i hstopped cfg hid hn hcfg handoff fault node changed dir hstart =>
    obtain ⟨hnext, hloads⟩ := (h.site i).next_start hstopped hn hcfg hstart
    obtain ⟨hinv, hadv⟩ := h.set hnext
    refine ⟨hinv, hadv, .started cfg node.view, ?_⟩
    rw [sites_set]
    exact ⟨rfl, hloads⟩
  | startFails i hstopped cfg hn hcfg handoff fault =>
    obtain ⟨hfile, hle⟩ := (h.site i).file.file_startup hn hcfg handoff fault
    have hnext : Next fp n announced (s.sites i) ⟨_, none⟩ := ⟨⟨hfile, nofun⟩, hle, nofun, nofun⟩
    exact ⟨(h.set hnext).1, (h.set hnext).2, trivial⟩
  | crash i =>
    have hnext := (h.site i).next_crash
    exact ⟨(h.set hnext).1, (h.set hnext).2, trivial⟩
  | post i p hnode hfree epoch members hmembers fault hfault result p' file' hpersist =>
    have hnext := ((h.site i).next_persist hnode hfree p.adopting hmembers hfault hpersist).1
    exact ⟨(h.set hnext).1, (h.set hnext).2, trivial⟩
  | adopt i p hnode hfree hadopting peerID info hinfo fault hfault p' file' hadopt =>
    have hnext := (h.site i).next_adopt hnode hfree (h.sent _ hinfo) hfault hadopt
    exact ⟨(h.set hnext).1, (h.set hnext).2, trivial⟩
  | fetchFails i p hnode =>
    have hnext := (h.site i).next_set hnode { p with adopting := false }
      rfl rfl rfl (fun _ => Or.inl) rfl
    exact ⟨(h.set hnext).1, (h.set hnext).2, trivial⟩
  | publish i p hnode v hpending =>
    obtain ⟨hnext, hloads⟩ := (h.site i).next_publish hnode hpending
    obtain ⟨hinv, hadv⟩ := h.set hnext
    refine ⟨hinv, hadv, p.publish v, ?_⟩
    rw [sites_set]
    exact ⟨rfl, hloads⟩
  | load i p hnode =>
    have hnext := (h.site i).next_set hnode { p with loaded := p.view :: p.loaded } rfl rfl rfl
      (fun u hu => (List.mem_cons.mp hu).symm) rfl
    exact ⟨(h.set hnext).1, (h.set hnext).2, trivial⟩
  | ping i p hnode own hown =>
    have hp := (h.site i).node p hnode
    have hm : MessageAgreed fp n announced (.ping (p.ping own)) :=
      (hp.loaded own hown).1.fingerprint_eq
    exact ⟨h.send hm, fun _ => .refl _, p, hnode, hp.shown hown⟩
  | handlePing i p hnode cur hcur sender hsender =>
    have hp := (h.site i).node p hnode
    obtain ⟨hagreed, -⟩ := hp.loaded cur hcur
    have hheard := handlePing_agreed hagreed p (h.sent _ hsender)
    obtain ⟨hinv, hadv⟩ := h.set ((h.site i).next_heard hnode hheard)
    have hm : MessageAgreed fp n announced (.reply (p.handlePing cur sender).2) :=
      hagreed.fingerprint_eq
    refine ⟨hinv.send hm, hadv, (p.handlePing cur sender).1, ?_⟩
    have hcfg : (p.handlePing cur sender).1.cfg = p.cfg := by
      rcases hheard with heq | heq
      · rw [heq]
      · rw [heq]
        rfl
    rw [Gossip.send, sites_set, hcfg]
    exact ⟨rfl, hp.shown hcur⟩
  | pingPeer i p hnode peerID cur hcur reply hreply =>
    obtain ⟨hagreed, -⟩ := ((h.site i).node p hnode).loaded cur hcur
    have hnext := (h.site i).next_heard hnode (pingPeer_agreed hagreed p peerID (h.sent _ hreply))
    exact ⟨(h.set hnext).1, (h.set hnext).2, trivial⟩
  | currentMembership i p hnode cur hcur =>
    have hp := (h.site i).node p hnode
    have hm : MessageAgreed fp n announced (.membership (Participant.currentMembership cur)) :=
      (hp.loaded cur hcur).1.members
    exact ⟨h.send hm, fun _ => .refl _, p, hnode, hp.shown hcur⟩

theorem inv_of_run (hrun : Run fp n announced init s) : Inv fp n announced s := by
  induction hrun with
  | refl => exact ⟨fun i => ⟨Or.inl rfl, nofun⟩, nofun⟩
  | step _ hstep ih => exact (step_spec ih hstep).1

/-- A node that was at an epoch leaves a file of that epoch or later, and is never at an
older one. -/
theorem epoch_le_of_run (h : Inv fp n announced s) {i : String} (hnode : (s.sites i).node = some p)
    (hrun : Run fp n announced s s') : Inv fp n announced s' ∧
      p.view.epoch ≤ fileEpoch (s'.sites i).file ∧
      ∀ q, (s'.sites i).node = some q → p.view.epoch ≤ q.view.epoch := by
  induction hrun with
  | refl =>
    refine ⟨h, ((h.site i).node p hnode).epoch_le, fun q hq => ?_⟩
    obtain rfl := Option.some.inj (hnode.symm.trans hq)
    exact le_rfl
  | @step s₁ s₂ _ _ hstep ih =>
    obtain ⟨hinv, hfile, hview⟩ := ih
    obtain ⟨hinv', hadv, -⟩ := step_spec hinv hstep
    refine ⟨hinv', hfile.trans (hadv i).file, fun q hq => ?_⟩
    cases hold : (s₁.sites i).node with
    | none => exact hfile.trans ((hadv i).started q hold hq)
    | some p₁ => exact (hview p₁ hold).trans ((hadv i).view p₁ q hold hq)

/-- One membership is announced per epoch. In every state the cluster reaches : no node is
ever at an older epoch than before, also after it was restarted; nodes at one epoch have the
same members and the same ring; no node has noted a conflict; and a view that is published
next is what a crash would then leave, one that is announced is that or older. -/
theorem agreement (hrun : Run fp n announced init s) :
    (∀ s' i p q, Run fp n announced s s' → (s.sites i).node = some p →
      (s'.sites i).node = some q → p.view.epoch ≤ q.view.epoch) ∧
    (∀ i j p q, (s.sites i).node = some p → (s.sites j).node = some q →
      p.view.epoch = q.view.epoch → p.view.members = q.view.members ∧ p.view.ring = q.view.ring) ∧
    (∀ i p, (s.sites i).node = some p → p.membershipConflicts = 0) ∧
    ∀ ev s', Step fp n announced s ev s' → Shown fp n s' ev := by
  have h := inv_of_run hrun
  refine ⟨fun s' i p q hrun' hp hq => (epoch_le_of_run h hp hrun').2.2 q hq,
    fun i j p q hp hq hepoch => ?_, fun i p hp => ((h.site i).node p hp).conflicts,
    fun ev s' hstep => (step_spec h hstep).2.2⟩
  have heq := ((h.site i).node p hp).view.eq ((h.site j).node q hq).view hepoch
  rw [heq]
  exact ⟨rfl, rfl⟩

end

/-- Two members until epoch 1, then three. -/
def pairThenTrio (epoch : Nat) : Members :=
  if epoch ≤ 1 then pairMembers else trioMembers

def partnerConfig : Config :=
  ⟨"B", pairMembers, by decide +kernel, 2, 1⟩

/-- A node of the pair starts on an empty directory at epoch 1. -/
theorem start_pair (s : Gossip) (cfg : Config) (hmembers : cfg.members = pairMembers)
    (hn : cfg.n = 2) (hepoch : cfg.epoch = 1)
    (hempty : s.sites cfg.nodeID = ⟨⟨none, none⟩, none⟩) :
    ∃ v, v.epoch = 1 ∧ Step plainFingerprinter 2 pairThenTrio s (.published cfg.nodeID v)
      (s.set cfg.nodeID ⟨⟨some (.record v.file), none⟩, some (.started cfg v)⟩) := by
  have hvalid : validateMembers cfg.members cfg.n = none := by
    rw [hmembers, hn]
    exact Life.valid_pair
  obtain ⟨u, hu⟩ := exists_buildView plainFingerprinter 0 hvalid
  have hlt : u.epoch < cfg.epoch := by
    rw [(buildView_eq_ok hu).1, hepoch]
    exact Nat.one_pos
  obtain ⟨v, -, hve, -, hstart⟩ := Life.startup_newer cfg ⟨⟨none, none⟩, ⟨none, none⟩⟩ hvalid hu
    rfl rfl hlt
  refine ⟨v, hve.trans hepoch, ?_⟩
  have hcfg : cfg.members = pairThenTrio cfg.epoch := by
    rw [hmembers, hepoch]
    rfl
  have hfile : (s.sites cfg.nodeID).file = ⟨none, none⟩ := by rw [hempty]
  rw [← hfile] at hstart
  exact .start cfg.nodeID (by rw [hempty]) cfg rfl hn hcfg _ _ _ _ _ hstart

theorem Run.trans {fp : Fingerprinter} {n : Nat} {announced : Nat → Members} {s t u : Gossip}
    (h : Run fp n announced s t) (h' : Run fp n announced t u) : Run fp n announced s u := by
  induction h' with
  | refl => exact h
  | step _ hstep ih => exact ih.step hstep

/-- A node takes a newer view that it has fetched. -/
theorem adoptFetched_newer {fp : Fingerprinter} {p : Participant} {v : ClusterView}
    (file : AtomicFile MembershipFile) (peerID : String) (hv : WellBuilt fp p.cfg.n v)
    (hepoch : p.view.epoch < v.epoch) :
    p.adoptFetched fp file peerID (Participant.currentMembership v) none =
      ({ p with adopting := false, pending := some v }, ⟨some (.record v.file), none⟩) := by
  have hdecide : decideMembership fp p.cfg.n p.view v.epoch v.members v.fingerprint =
      .ok (some v) := by
    simp only [decideMembership, hv.valid, hv.built]
    rw [if_neg (by simp), if_neg (by omega), if_neg (by omega), if_neg (by omega)]
  simp only [Participant.adoptFetched, Participant.currentMembership, persistMembership_newer
    (p := { p with adopting := false }) file hdecide]

/-- Both nodes start at epoch 1. `A` is posted epoch 2 and announces it, `B` fetches it from
`A`, and the two have one ring. -/
theorem agreement_fetched : ∃ (s s' : Gossip) (q p' q' : Participant),
    Run plainFingerprinter 2 pairThenTrio init s ∧ Run plainFingerprinter 2 pairThenTrio s s' ∧
      (s.sites "B").node = some q ∧ (s'.sites "A").node = some p' ∧ (s'.sites "B").node = some q' ∧
      q.view.epoch = 1 ∧ p'.view.epoch = 2 ∧ q'.view.epoch = 2 ∧
      q.view.epoch ≤ q'.view.epoch ∧ p'.view.ring = q'.view.ring ∧ q'.membershipConflicts = 0 := by
  obtain ⟨v, hv, hfirst⟩ := start_pair init (Life.pairConfig 1) rfl rfl rfl rfl
  let a : Gossip := init.set "A" ⟨⟨some (.record v.file), none⟩,
    some (.started (Life.pairConfig 1) v)⟩
  obtain ⟨w, hw, hsecond⟩ := start_pair a partnerConfig rfl rfl rfl rfl
  let s : Gossip := a.set "B" ⟨⟨some (.record w.file), none⟩, some (.started partnerConfig w)⟩
  have hrun : Run plainFingerprinter 2 pairThenTrio init s := (Run.refl.step hfirst).step hsecond
  obtain ⟨u, hdecide⟩ := decideMembership_newer plainFingerprinter Life.valid_trio
    (show v.epoch < 2 by omega)
  obtain ⟨hbuilt, hue, hum, -⟩ := decideMembership_eq_some hdecide
  have hpersist := persistMembership_newer (p := .started (Life.pairConfig 1) v)
    ⟨some (.record v.file), none⟩ hdecide
  have haddress : ((Participant.started (Life.pairConfig 1) v).ping u).senderAddress ≠ "" := by
    simp only [Participant.ping, Participant.started]
    decide +kernel
  have h1 : Run plainFingerprinter 2 pairThenTrio s _ :=
    Run.refl.step (.post "A" _ rfl rfl 2 trioMembers rfl none (by simp) _ _ _ hpersist)
  have h2 := h1.step (.publish "A" _ rfl u rfl)
  have h3 := h2.step (.load "A" _ rfl)
  have h4 := h3.step (.currentMembership "A" _ rfl u List.mem_cons_self)
  have h5 := h4.step (.ping "A" _ rfl u List.mem_cons_self)
  have h6 := h5.step (.load "B" _ rfl)
  have h7 := h6.step (.handlePing "B" _ rfl w List.mem_cons_self _ List.mem_cons_self)
  have hnewer : w.epoch < u.epoch := by omega
  have hhears : ((⟨partnerConfig, w, none, [w], false, 0, ∅⟩ : Participant).handlePing w
      ((Participant.started (Life.pairConfig 1) v).ping u)).1 =
      ⟨partnerConfig, w, none, [w], true, 0, ∅⟩ :=
    if_pos ⟨hnewer, haddress⟩
  have h8 := h7.step (.adopt "B" ⟨partnerConfig, w, none, [w], true, 0, ∅⟩ (congrArg some hhears)
    rfl rfl "A" (Participant.currentMembership u) (by simp [send, set]) none (by simp) _ _
    (adoptFetched_newer _ _ hbuilt hnewer))
  have h9 := h8.step (.publish "B" _ rfl u rfl)
  obtain ⟨hgrows, -, -, -⟩ := agreement hrun
  obtain ⟨-, hsame, hconflicts, -⟩ := agreement (hrun.trans h9)
  exact ⟨s, _, _, _, _, hrun, h9, rfl, rfl, rfl, hw, hue, hue, hgrows _ "B" _ _ h9 rfl rfl,
    (hsame "A" "B" _ _ rfl rfl rfl).2, hconflicts "B" _ rfl⟩

/-- A node at epoch 1 that has written epoch 2 and not published it still announces epoch 1. -/
theorem announced_before_publish : ∃ (s s' : Gossip) (v w : ClusterView),
    Run plainFingerprinter 2 pairThenTrio init s ∧
      Step plainFingerprinter 2 pairThenTrio s (.announced "A" v) s' ∧
      loadMembership plainFingerprinter (s'.sites "A").file 2 = .ok (some w) ∧
      v.epoch = 1 ∧ w.epoch = 2 := by
  obtain ⟨v, hv, hstart⟩ := start_pair init (Life.pairConfig 1) rfl rfl rfl rfl
  obtain ⟨w, hdecide⟩ := decideMembership_newer plainFingerprinter Life.valid_trio
    (show v.epoch < 2 by omega)
  obtain ⟨hbuilt, hwe, -, -⟩ := decideMembership_eq_some hdecide
  have hload := (Run.refl.step hstart).step (.load "A" _ rfl)
  have hpersist := persistMembership_newer (p := ⟨Life.pairConfig 1, v, none, [v], false, 0, ∅⟩)
    ⟨some (.record v.file), none⟩ hdecide
  have hpost := hload.step (.post "A" _ rfl rfl 2 trioMembers rfl none nofun _ _ _ hpersist)
  exact ⟨_, _, v, w, hpost, .ping "A" _ rfl v List.mem_cons_self,
    loadMembership_written hbuilt rfl, hv, hwe⟩

end Gossip

end DistributedKV
