import DistributedKV.Membership

/-!
# The operator's planner

`plan` reads an observation of a KVCluster (the StatefulSet, the ConfigMap, the pods with
their admin answers, the volumes, the spec and the saved status) and returns one action and
the status to report. It finds the step of a membership change that the observation shows :
adding a pod writes the ConfigMap, then scales the StatefulSet; removing one posts the
membership without it, waits until the pod has drained, writes the ConfigMap, then scales.

`plan_sound` says once what each action rests on, and what follows about actions goes through
it : `disruptive_justified` restates it in terms of pods and volumes. `action_of_status` says
that the saved status decides no action. The saved status carries the start of a drain : it is
kept over observations that show the drain (`drain_clock_kept`), and an observation in which
no pod shows it starts the clock again (`drain_clock_restarts`).
-/

namespace DistributedKV

namespace Planner

/-! ## The KVCluster and what is rendered from it -/

inductive Phase
  /-- No status was written yet. -/
  | unset
  | pending
  | ready
  | scaling
  | drainBlocked
  | degraded
deriving DecidableEq

structure KVSpec where
  replicas : Nat
  image : String
  drainTimeout : Int

structure KVStatus where
  phase : Phase
  drainStartedAt : Option Int
deriving DecidableEq

structure KVCluster where
  name : String
  ns : String
  spec : KVSpec
  status : KVStatus

def grpcPort : Nat := 7000

def memberID (c : KVCluster) (ordinal : Nat) : String :=
  c.name ++ "-" ++ Nat.repr ordinal

def podHost (c : KVCluster) (ordinal : Nat) : String :=
  memberID c ordinal ++ "." ++ c.name ++ "." ++ c.ns ++ ".svc.cluster.local"

def memberAddress (c : KVCluster) (ordinal : Nat) : String :=
  podHost c ordinal ++ ":" ++ Nat.repr grpcPort

/-- The membership of ordinals `0..count-1`. -/
def members (c : KVCluster) : Nat → Members
  | 0 => ∅
  | count + 1 => (members c count).insert (memberID c count) (memberAddress c count)

/-- The ordinal of a member ID, if it is one of this cluster's : `strconv.Atoi` fails from
`2 ^ 63` on, and the text must be the one `strconv.Itoa` gives. -/
def ordinal (c : KVCluster) (id : String) : Option Nat :=
  let start := (c.name ++ "-").toList
  if start.isPrefixOf id.toList then
    let i := Nat.ofDigitChars 10 (id.toList.drop start.length) 0
    if i < 2 ^ 63 ∧ memberID c i = id then some i else none
  else none

/-! ## Observations -/

structure HandoffStatus where
  epoch : Nat
  done : Bool
  pending : Nat

/-- A pod's `GET /admin/membership` answer. -/
structure Membership where
  epoch : Nat
  members : Members
  handoff : HandoffStatus

/-- A pod's `GET /admin/handoff` answer. -/
structure Handoff where
  epoch : Nat
  drained : Bool
  handoff : HandoffStatus
  /-- The last epoch each peer was seen at. -/
  peers : Std.ExtTreeMap String Nat

/-- Times are in nanoseconds, 0 being Go's zero time. -/
structure PodObs where
  ordinal : Nat
  existing : Bool := false
  terminating : Bool := false
  ready : Bool := false
  since : Int := 0
  membership : Option Membership := none
  unreachableSince : Int := 0
  drain : Option Handoff := none

def PodObs.reachable (p : PodObs) : Bool :=
  p.membership.isSome

def PodObs.healthy (p : PodObs) : Bool :=
  p.existing && !p.terminating && p.ready && p.reachable

structure StatefulSetObs where
  replicas : Nat
  readyReplicas : Nat
  rolledOut : Bool
  templateCurrent : Bool

structure ConfigMapObs where
  epoch : Nat
  members : Members
  /-- Why it could not be read, or empty. -/
  invalid : String
deriving DecidableEq

structure Observation where
  now : Int
  cluster : KVCluster
  statefulSet : Option StatefulSetObs
  configMap : Option ConfigMapObs
  pods : List PodObs
  pvcs : List Nat

namespace Observation

variable (obs : Observation)

def pod (i : Nat) : PodObs :=
  obs.pods[i]?.getD { ordinal := i }

def hasPVC (i : Nat) : Bool :=
  obs.pvcs.contains i

end Observation

/-! ## Decisions -/

inductive ActionKind
  | none
  | wait
  | writeConfigMap
  | scaleStatefulSet
  | updateTemplate
  | postMembership
deriving DecidableEq

inductive Reason
  | creatingConfigMap
  | creatingStatefulSet
  | configMapMissing
  | configMapUnexpected
  | addressMismatch
  | membershipConflict
  | unexplainedDivergence
  | podUnavailable
  | addingPod
  | waitingForEpoch
  | waitingForHandoff
  | removingPod
  | draining
  | drainBlocked
  | drained
  | waitingForPodRemoval
  | waitingForVolumeRemoval
  | waitingForOldVolume
  | waitingForPods
  | rollingUpdate
  | ready
deriving DecidableEq

structure Action where
  kind : ActionKind
  reason : Reason
  requeueAfter : Int := 0
  epoch : Nat := 0
  members : Members := ∅
  replicas : Nat := 0
  ordinal : Nat := 0

structure Status where
  phase : Phase := .unset
  reason : Option Reason := none
  message : String := ""
  epoch : Nat := 0
  members : Members := ∅
  replicas : Nat := 0
  readyReplicas : Nat := 0
  drainStartedAt : Option Int := none

structure Decision where
  action : Action
  status : Status

/-- The planner's timings. -/
structure Config where
  grace : Int
  fast : Int
  slow : Int
  idle : Int

/-- Go's `%q` of a string and `%v` of a duration. -/
structure Formats where
  quote : String → String
  duration : Int → String

/-- `Round(time.Second)`. -/
def roundToSecond (d : Int) : Int :=
  let m : Int := 1000000000
  let r := (if d < 0 then -d else d) % m
  if d < 0 then if r + r < m then d + r else d - m + r
  else if r + r < m then d - r else d + m - r

/-- An epoch is a `uint64`. -/
def epochLimit : Nat := 2 ^ 64

def nextEpoch (e : Nat) : Nat := (e + 1) % epochLimit

def prevEpoch (e : Nat) : Nat := (e + (epochLimit - 1)) % epochLimit

def wait (st : Status) (phase : Phase) (reason : Reason) (after : Int) (message : String) :
    Decision :=
  ⟨{ kind := .wait, reason := reason, requeueAfter := after },
    { st with phase := phase, reason := some reason, message := message }⟩

def act (st : Status) (a : Action) (phase : Phase) (message : String) : Decision :=
  ⟨a, { st with phase := phase, reason := some a.reason, message := message }⟩

section

variable (fmt : Formats) (cfg : Config) (obs : Observation)

/-- The start of a drain is kept. -/
def degraded (st : Status) (reason : Reason) (message : String) : Decision :=
  wait { st with drainStartedAt := obs.cluster.status.drainStartedAt <|> st.drainStartedAt }
    .degraded reason cfg.idle message

def prevPhase (c : KVCluster) : Phase :=
  if c.status.phase = .unset then .pending else c.status.phase

def waitingPhase (c : KVCluster) : Phase :=
  match prevPhase c with
  | .degraded => .scaling
  | .drainBlocked => .scaling
  | phase => phase

/-- Why a member is not one this operator writes. -/
def memberError (c : KVCluster) (m : String × String) : Option String :=
  match ordinal c m.1 with
  | none => some ("member " ++ fmt.quote m.1 ++ " is not a pod of " ++ c.name)
  | some i =>
    if m.2 ≠ memberAddress c i then
      some ("member " ++ m.1 ++ " has address " ++ fmt.quote m.2 ++ ", want " ++
        fmt.quote (memberAddress c i))
    else none

/-- The size of a member set, and whether it is ordinals `0..size-1`. Go visits the members
in any order; here it is the order of their IDs. -/
def validMembers (c : KVCluster) (m : Members) : Except String (Nat × Bool) :=
  match m.toList.findSome? (memberError fmt c) with
  | some e => .error e
  | none => .ok (m.size, m = members c m.size)

/-- The ConfigMap's member count, or what to do without one. -/
def bootstrap (st : Status) : Except Decision Nat :=
  match obs.configMap with
  | none =>
    match obs.statefulSet with
    | none =>
      let m := members obs.cluster obs.cluster.spec.replicas
      .error (act st
        { kind := .writeConfigMap, reason := .creatingConfigMap, epoch := 0, members := m }
        .pending ("Creating the ConfigMap with " ++ Nat.repr m.size ++ " members at epoch 0"))
    | some _ => .error (degraded cfg obs st .configMapMissing
        ("The ConfigMap is missing while the StatefulSet exists; restore it from " ++
          "GET /admin/membership (docs/operator.md)"))
  | some cm =>
    if cm.invalid ≠ "" then
      .error (degraded cfg obs st .configMapUnexpected
        ("The ConfigMap cannot be read: " ++ cm.invalid))
    else
      match validMembers fmt obs.cluster cm.members with
      | .error e => .error (degraded cfg obs st .configMapUnexpected
          ("The ConfigMap's membership is not one the operator writes: " ++ e))
      | .ok (c, false) => .error (degraded cfg obs st .configMapUnexpected
          ("The ConfigMap's membership is not one the operator writes: members are not " ++
            obs.cluster.name ++ "-0.." ++ obs.cluster.name ++ "-" ++ toString ((c : Int) - 1)))
      | .ok (c, true) =>
        match obs.statefulSet with
        | none => .error (act st
            { kind := .scaleStatefulSet, reason := .creatingStatefulSet, replicas := c } .pending
            ("Creating the StatefulSet with " ++ Nat.repr c ++ " replicas"))
        | some _ => .ok c

/-! ## Views -/

/-- One pod's membership. -/
structure View where
  ordinal : Nat
  epoch : Nat
  members : Members

/-- The memberships of the pods that answer. -/
def collectViews (st : Status) : List Nat → Except Decision (List View)
  | [] => .ok []
  | i :: rest =>
    match (obs.pod i).membership with
    | none => collectViews st rest
    | some m =>
      match validMembers fmt obs.cluster m.members with
      | .error e => .error (degraded cfg obs st .addressMismatch
          (memberID obs.cluster i ++ " holds a membership the operator did not write: " ++ e))
      | .ok _ =>
        match collectViews st rest with
        | .error d => .error d
        | .ok views => .ok (⟨i, m.epoch, m.members⟩ :: views)

/-- The members at each epoch, or an epoch with two of them. -/
def groupByEpoch (byEpoch : Std.ExtTreeMap Nat Members) :
    List View → Except Nat (Std.ExtTreeMap Nat Members)
  | [] => .ok byEpoch
  | v :: rest =>
    if byEpoch.getD v.epoch v.members ≠ v.members then .error v.epoch
    else groupByEpoch (byEpoch.insert v.epoch v.members) rest

/-- More than one change is in flight. -/
def epochsDiverge : List Nat → Bool
  | [] => false
  | [_] => false
  | [lo, hi] => hi ≠ nextEpoch lo
  | _ => true

/-- Pods from ordinal `S` on are being removed and say nothing about the membership. -/
def readViews (st : Status) (S : Nat) : Except Decision (List View × Status) :=
  match collectViews fmt cfg obs st (List.range S) with
  | .error d => .error d
  | .ok views =>
    match groupByEpoch ∅ views with
    | .error e => .error (degraded cfg obs st .membershipConflict
        ("Two pods hold different memberships at epoch " ++ Nat.repr e))
    | .ok byEpoch =>
      if epochsDiverge byEpoch.keys then
        .error (degraded cfg obs st .unexplainedDivergence
          ("Pods hold epochs [" ++ " ".intercalate (byEpoch.keys.map Nat.repr) ++
            "]: more than one membership change in flight"))
      else
        match byEpoch.toList.getLast? with
        | none => .ok (views, st)
        | some (hi, m) => .ok (views, { st with epoch := hi, members := m })

/-- One membership : ordinals `0..size-1` at `epoch`. -/
structure Holding where
  epoch : Nat
  size : Nat
deriving DecidableEq

def View.holding (v : View) : Holding :=
  ⟨v.epoch, v.members.size⟩

def allIn (views : List View) (allowed : List Holding) : Bool :=
  views.all fun v => v.holding ∈ allowed ∧ v.members = members obs.cluster v.holding.size

def seen (views : List View) (h : Holding) : Bool :=
  views.any fun v => v.holding = h

/-! ## The steps -/

/-- Why a new pod at this ordinal would reuse an old data directory. -/
def ordinalTaken (i : Nat) : Option String :=
  if (obs.pod i).existing then
    some ("the old pod " ++ memberID obs.cluster i ++ " is still there")
  else if obs.hasPVC i then
    some ("the old volume data-" ++ memberID obs.cluster i ++ " still exists")
  else none

/-- The ConfigMap names pod `S`; create it. -/
def scaleUp (st : Status) (S : Nat) : Decision :=
  match (List.range S).find? fun i => !(obs.pod i).healthy with
  | some i => wait st .scaling .waitingForPods cfg.fast ("Adding " ++ memberID obs.cluster S ++
      ": waiting for " ++ memberID obs.cluster i ++ " before creating the pod")
  | none =>
    match ordinalTaken obs S with
    | some why => wait st .scaling .waitingForOldVolume cfg.fast
        ("Adding " ++ memberID obs.cluster S ++ ": " ++ why)
    | none => act st { kind := .scaleStatefulSet, reason := .addingPod, replicas := S + 1 }
        .scaling ("Adding " ++ memberID obs.cluster S ++ ": scaling the StatefulSet to " ++
          Nat.repr (S + 1))

/-- The members that a pod at `epoch` returned. -/
def viewAt (epoch : Nat) : Option Members :=
  obs.pods.findSome? fun pd => pd.membership.bind fun m =>
    if m.epoch = epoch then some m.members else none

/-- The pod says that it has drained at `epoch`. -/
def PodObs.drainedAt (p : PodObs) (epoch : Nat) : Bool :=
  p.drain.any (fun d => d.epoch = epoch && d.drained) &&
    p.membership.any (fun m => m.epoch = epoch)

/-- What a draining pod still has to do. -/
def drainDetail (epoch : Nat) : Option Handoff → String
  | none => "it has not answered the drain check yet"
  | some d =>
    let lagging := (d.peers.toList.filter fun p => p.2 < epoch).map Prod.fst
    Nat.repr d.handoff.pending ++ " keys still to hand off" ++
      if lagging = [] then ""
      else "; not yet seen at epoch " ++ Nat.repr epoch ++ ": " ++ ", ".intercalate lagging

/-- The membership without pod `S - 1` is out; write it once the pod has drained. -/
def drain (st : Status) (S epoch : Nat) : Decision :=
  let leaving := obs.pod (S - 1)
  let id := memberID obs.cluster (S - 1)
  if leaving.drainedAt epoch then
    act { st with drainStartedAt := none }
      { kind := .writeConfigMap, reason := .drained, epoch := epoch,
        members := (viewAt obs epoch).getD ∅ } .scaling
      ("Removing " ++ id ++ ": drained; writing the ConfigMap at epoch " ++ Nat.repr epoch ++
        " without it")
  else
    let started := obs.cluster.status.drainStartedAt.getD obs.now
    let st := { st with drainStartedAt := some started }
    let timeout := obs.cluster.spec.drainTimeout
    let waited := obs.now - started
    if timeout > 0 ∧ waited > timeout then
      wait st .drainBlocked .drainBlocked cfg.slow
        ("Removing " ++ id ++ ": not drained after " ++ fmt.duration (roundToSecond waited) ++
          " (drainTimeout " ++ fmt.duration timeout ++ "): " ++ drainDetail epoch leaving.drain ++
          "; see docs/operator.md")
    else
      wait st .scaling .draining cfg.slow
        ("Removing " ++ id ++ ": draining at epoch " ++ Nat.repr epoch ++ ": " ++
          drainDetail epoch leaving.drain)

/-- The pods whose handoff to `epoch` is not done. -/
def pendingHandoffs (views : List View) (epoch : Nat) : List Nat :=
  (views.map View.ordinal).filter fun i =>
    (obs.pod i).membership.any fun m => m.handoff.epoch < epoch || !m.handoff.done

/-- The StatefulSet is stable; act on the spec. No result is a panic : an entry is added to
the members of a pod that answered, and there may be none. -/
def changeSpec (st : Status) (sts : StatefulSetObs) (S E : Nat) : Option Decision :=
  let desired := obs.cluster.spec.replicas
  if !sts.templateCurrent then
    some (act st { kind := .updateTemplate, reason := .rollingUpdate, replicas := S } .scaling
      ("Applying the spec's pod template (image " ++ obs.cluster.spec.image ++ ")"))
  else if S < desired then
    match ordinalTaken obs S with
    | some why => some (wait st .scaling .waitingForOldVolume cfg.fast
        ("Adding " ++ memberID obs.cluster S ++ ": " ++ why))
    | none => (viewAt obs E).map fun m => act st
        { kind := .writeConfigMap, reason := .addingPod, epoch := nextEpoch E,
          members := m.insert (memberID obs.cluster S) (memberAddress obs.cluster S) } .scaling
        ("Adding " ++ memberID obs.cluster S ++ ": writing the ConfigMap at epoch " ++
          Nat.repr (nextEpoch E))
  else if S > desired then
    (obs.pod 0).membership.map fun m => act st
      { kind := .postMembership, reason := .removingPod, ordinal := 0, epoch := nextEpoch E,
        members := m.members.erase (memberID obs.cluster (S - 1)) } .scaling
      ("Removing " ++ memberID obs.cluster (S - 1) ++ ": sending the membership at epoch " ++
        Nat.repr (nextEpoch E) ++ " without it")
  else
    some (act st { kind := .none, reason := .ready, requeueAfter := cfg.idle } .ready
      (Nat.repr S ++ " members at epoch " ++ Nat.repr E ++ ", every handoff done"))

/-- Every pod that answers holds the ConfigMap's membership, `S` members at epoch `E`. -/
def converged (st : Status) (sts : StatefulSetObs) (S E : Nat) (views : List View) :
    Option Decision :=
  match obs.pods.find? fun pd => pd.ordinal ≥ S && pd.existing with
  | some pd => some (wait st .scaling .waitingForPodRemoval cfg.fast
      ("Waiting for " ++ memberID obs.cluster pd.ordinal ++ " to stop"))
  | none =>
    match obs.pvcs.find? (· ≥ S) with
    | some i => some (wait st .scaling .waitingForVolumeRemoval cfg.fast
        ("Waiting for the volume data-" ++ memberID obs.cluster i ++ " to be deleted"))
    | none =>
      if pendingHandoffs obs views E ≠ [] then
        some (wait st .scaling .waitingForHandoff cfg.slow
          ("Waiting for the handoff to epoch " ++ Nat.repr E ++ " on " ++
            ", ".intercalate ((pendingHandoffs obs views E).map (memberID obs.cluster))))
      else
        match (List.range S).find? fun i => !(obs.pod i).healthy with
        | some i => some (wait st (waitingPhase obs.cluster) .waitingForPods cfg.fast
            ("Waiting for " ++ memberID obs.cluster i ++ " to be ready"))
        | none =>
          if !sts.rolledOut || sts.readyReplicas < S then
            some (wait st .scaling .rollingUpdate cfg.fast
              "Waiting for the StatefulSet to roll out")
          else changeSpec cfg obs st sts S E

/-- What the pods may hold once the ConfigMap names pod `S`. -/
def growing (Ec S : Nat) : List Holding :=
  ⟨Ec, S + 1⟩ :: if Ec ≥ 1 then [⟨prevEpoch Ec, S⟩] else []

/-- Where an observation stands in a membership change. -/
structure Placed where
  decision : Decision
  /-- The ordinal whose ill health the step expects. -/
  exempt : Option Nat
  /-- Whether any step explains the observation. -/
  ok : Bool

def classify (st : Status) (sts : StatefulSetObs) (c Ec : Nat) (views : List View) :
    Option Placed :=
  let S := sts.replicas
  let unexplained : Placed := ⟨degraded cfg obs st .unexplainedDivergence
    ("The StatefulSet (" ++ Nat.repr S ++ " replicas), the ConfigMap (" ++ Nat.repr c ++
      " members at epoch " ++ Nat.repr Ec ++
      ") and the pods' memberships match no step of a membership change"), none, false⟩
  if c = S + 1 then
    if allIn obs views (growing Ec S) then
      some ⟨scaleUp cfg obs st S, none, true⟩
    else some unexplained
  else if c = S then
    if allIn obs views [⟨Ec, S⟩] then
      (converged cfg obs st sts S Ec views).map fun d => ⟨d, none, true⟩
    else if allIn obs views [⟨prevEpoch Ec, S - 1⟩, ⟨Ec, S⟩] ∧ Ec ≥ 1 ∧
        seen views ⟨prevEpoch Ec, S - 1⟩ then
      some ⟨wait st .scaling .waitingForEpoch cfg.fast
        ("Adding " ++ memberID obs.cluster (S - 1) ++ ": waiting for every pod to hold epoch " ++
          Nat.repr Ec), none, true⟩
    else if allIn obs views [⟨Ec, S⟩, ⟨nextEpoch Ec, S - 1⟩] ∧
        seen views ⟨nextEpoch Ec, S - 1⟩ then
      some ⟨drain fmt cfg obs st S (nextEpoch Ec), some (S - 1), true⟩
    else some unexplained
  else if c + 1 = S then
    if allIn obs views [⟨Ec, c⟩] then
      some ⟨act st { kind := .scaleStatefulSet, reason := .removingPod, replicas := c } .scaling
        ("Removing " ++ memberID obs.cluster (S - 1) ++
          ": it has drained; scaling the StatefulSet to " ++ Nat.repr c), some (S - 1), true⟩
    else some unexplained
  else some unexplained

/-! ## Plan -/

/-- Since when and how a pod is not serving. -/
def PodObs.outage (p : PodObs) : Int × String :=
  if p.ready then (p.unreachableSince, "not answering on the admin API") else (p.since, "not ready")

/-- The pod should be serving and has not been for longer than `Grace`. -/
def overGrace (i : Nat) (exempt : Option Nat) : Bool :=
  let p := obs.pod i
  some i ≠ exempt && !p.healthy && p.existing && p.outage.1 ≠ 0 &&
    obs.now - p.outage.1 > cfg.grace

def unavailable (st : Status) (S : Nat) (exempt : Option Nat) : Option Decision :=
  match (List.range S).find? fun i => overGrace cfg obs i exempt with
  | none => none
  | some i =>
    let p := obs.pod i
    some (degraded cfg obs st .podUnavailable (memberID obs.cluster i ++ " has been " ++
      p.outage.2 ++ " for " ++ fmt.duration (roundToSecond (obs.now - p.outage.1))))

/-- The step's action, unless the observation is not explained or a pod is unavailable. -/
def conclude (S : Nat) (placed : Placed) : Decision :=
  if !placed.ok then placed.decision
  else
    match unavailable fmt cfg obs placed.decision.status S placed.exempt with
    | some d => d
    | none =>
      if placed.decision.action.kind ≠ .wait then
        { placed.decision with status := { placed.decision.status with drainStartedAt := none } }
      else placed.decision

/-- `Plan`, or no result where it panics. -/
def plan : Option Decision :=
  let st : Status := match obs.statefulSet with
    | none => {}
    | some sts => { replicas := sts.replicas, readyReplicas := sts.readyReplicas }
  match bootstrap fmt cfg obs st, obs.statefulSet, obs.configMap with
  | .error d, _, _ => some d
  | .ok c, some sts, some cm =>
    match readViews fmt cfg obs st sts.replicas with
    | .error d => some d
    | .ok (views, st) =>
      (classify fmt cfg obs st sts c cm.epoch views).map (conclude fmt cfg obs sts.replicas)
  -- bootstrap has returned without one of the two
  | .ok _, _, _ => none

end

/-! ## The members of a cluster -/

section

variable {c : KVCluster} {i j k : Nat}

theorem memberID_inj : memberID c i = memberID c j ↔ i = j := by
  constructor
  · intro h
    have htext := congrArg String.toList h
    simp only [memberID, String.toList_append] at htext
    exact Nat.repr_inj.mp (String.toList_inj.mp (List.append_cancel_left htext))
  · rintro rfl
    rfl

theorem mem_members : ∀ {k : Nat}, memberID c i ∈ members c k ↔ i < k
  | 0 => by simp [members]
  | k + 1 => by
    have hid : compare (memberID c k) (memberID c i) = .eq ↔ k = i := by
      rw [Std.LawfulEqCmp.compare_eq_iff_eq, memberID_inj]
    rw [members, Std.ExtTreeMap.mem_insert, hid, mem_members]
    omega

theorem size_members : ∀ k, (members c k).size = k
  | 0 => rfl
  | k + 1 => by
    have hnew : memberID c k ∉ members c k := fun h => (mem_members.mp h).ne rfl
    rw [members, Std.ExtTreeMap.size_insert, if_neg (by simpa using hnew), size_members k]

/-- The members depend on the cluster's name and namespace only. -/
theorem members_congr (c c' : KVCluster) (hname : c'.name = c.name) (hns : c'.ns = c.ns) :
    ∀ k, members c' k = members c k
  | 0 => rfl
  | k + 1 => by
    rw [members, members, members_congr c c' hname hns k]
    simp only [memberAddress, podHost, memberID, hname, hns]

theorem members_inj (h : members c j = members c k) : j = k := by
  rw [← size_members (c := c) j, h, size_members]

theorem erase_members (c : KVCluster) (k : Nat) :
    (members c (k + 1)).erase (memberID c k) = members c k := by
  refine Std.ExtTreeMap.ext_getElem? fun id => ?_
  rw [members, Std.ExtTreeMap.getElem?_erase]
  split_ifs with hid
  · obtain rfl : memberID c k = id := by simpa using hid
    refine (Std.ExtTreeMap.getElem?_eq_none ?_).symm
    exact fun h => (mem_members.mp h).ne rfl
  · rw [Std.ExtTreeMap.getElem?_insert, if_neg hid]

theorem nextEpoch_ne (e : Nat) : nextEpoch e ≠ e := by
  unfold nextEpoch epochLimit
  omega

theorem nextEpoch_eq {e : Nat} (h : e + 1 < epochLimit) : nextEpoch e = e + 1 :=
  Nat.mod_eq_of_lt h

end

/-! ## What an action rests on -/

/-- The pods are listed by ordinal, and only pods that exist answer. -/
structure Listed (obs : Observation) : Prop where
  ordinal : ∀ (i : Nat) (p : PodObs), obs.pods[i]? = some p → p.ordinal = i
  existing : ∀ p ∈ obs.pods, p.membership.isSome → p.existing = true

/-- Every pod below `S` is healthy and holds the `S` members at `E` with its handoff done,
and there is no other pod or volume. -/
structure Stable (obs : Observation) (S E : Nat) : Prop where
  pods : ∀ i < S, (obs.pod i).healthy = true ∧ ∃ m, (obs.pod i).membership = some m ∧
    m.epoch = E ∧ m.members = members obs.cluster S ∧ E ≤ m.handoff.epoch ∧ m.handoff.done = true
  noPod : ∀ p ∈ obs.pods, S ≤ p.ordinal → p.existing = false
  noPVC : ∀ i ∈ obs.pvcs, i < S

/-- The pods below `S` that answer hold one of these memberships. -/
def Holds (obs : Observation) (S : Nat) (allowed : List Holding) : Prop :=
  ∀ i < S, ∀ m, (obs.pod i).membership = some m →
    ∃ h ∈ allowed, m.epoch = h.epoch ∧ m.members = members obs.cluster h.size

/-- The observation that an action is chosen on. -/
inductive Justified (obs : Observation) (a : Action) : Prop
  | wait (hkind : a.kind = .wait)
  | create (hkind : a.kind = .writeConfigMap) (hepoch : a.epoch = 0)
      (hmembers : a.members = members obs.cluster obs.cluster.spec.replicas)
      (hcm : obs.configMap = none) (hsts : obs.statefulSet = none)
  | createSet (hkind : a.kind = .scaleStatefulSet) {cm : ConfigMapObs}
      (hcm : obs.configMap = some cm) (hsts : obs.statefulSet = none)
      (hmembers : cm.members = members obs.cluster a.replicas)
  | stable (hkind : a.kind = .none ∨ a.kind = .updateTemplate) {sts : StatefulSetObs}
      {cm : ConfigMapObs} (hsts : obs.statefulSet = some sts) (hcm : obs.configMap = some cm)
      (hold : cm.members = members obs.cluster sts.replicas)
      (hstable : Stable obs sts.replicas cm.epoch)
  | grow (hkind : a.kind = .writeConfigMap) {sts : StatefulSetObs} {cm : ConfigMapObs}
      (hsts : obs.statefulSet = some sts) (hcm : obs.configMap = some cm)
      (hold : cm.members = members obs.cluster sts.replicas)
      (hstable : Stable obs sts.replicas cm.epoch) (hepoch : a.epoch = nextEpoch cm.epoch)
      (hmembers : a.members = members obs.cluster (sts.replicas + 1))
  | post (hkind : a.kind = .postMembership) {sts : StatefulSetObs} {cm : ConfigMapObs}
      (hsts : obs.statefulSet = some sts) (hcm : obs.configMap = some cm)
      (hold : cm.members = members obs.cluster sts.replicas)
      (hdesired : obs.cluster.spec.replicas < sts.replicas)
      (hstable : Stable obs sts.replicas cm.epoch) (hordinal : a.ordinal = 0)
      (hepoch : a.epoch = nextEpoch cm.epoch)
      (hmembers : a.members = members obs.cluster (sts.replicas - 1))
  | drained (hkind : a.kind = .writeConfigMap) {sts : StatefulSetObs} {cm : ConfigMapObs}
      (hsts : obs.statefulSet = some sts) (hcm : obs.configMap = some cm)
      (hold : cm.members = members obs.cluster sts.replicas) (hpos : 0 < sts.replicas)
      (hordinals : ∀ i < sts.replicas, ordinal obs.cluster (memberID obs.cluster i) = some i)
      (hdrained : (obs.pod (sts.replicas - 1)).drainedAt a.epoch = true)
      (hepoch : a.epoch = nextEpoch cm.epoch)
      (hmembers : a.members = members obs.cluster (sts.replicas - 1))
  | scaleUp (hkind : a.kind = .scaleStatefulSet) {sts : StatefulSetObs} {cm : ConfigMapObs}
      (hsts : obs.statefulSet = some sts) (hcm : obs.configMap = some cm)
      (hreplicas : a.replicas = sts.replicas + 1)
      (hmembers : cm.members = members obs.cluster a.replicas)
      (hhealthy : ∀ i < sts.replicas, (obs.pod i).healthy = true)
      (hfree : ordinalTaken obs sts.replicas = none)
  | scaleDown (hkind : a.kind = .scaleStatefulSet) {sts : StatefulSetObs} {cm : ConfigMapObs}
      (hsts : obs.statefulSet = some sts) (hcm : obs.configMap = some cm)
      (hreplicas : sts.replicas = a.replicas + 1)
      (hmembers : cm.members = members obs.cluster a.replicas)
      (hheld : Holds obs sts.replicas [⟨cm.epoch, a.replicas⟩])

section

variable {fmt : Formats} {cfg : Config} {obs : Observation} {st : Status} {d : Decision}
  {views : List View} {S E : Nat}

/-- The views are what the pods answer. -/
theorem collectViews_eq_ok : ∀ {l : List Nat} {views : List View},
    collectViews fmt cfg obs st l = .ok views →
    (∀ v ∈ views, v.ordinal ∈ l ∧ ∃ m, (obs.pod v.ordinal).membership = some m ∧
      v.epoch = m.epoch ∧ v.members = m.members) ∧
    ∀ i ∈ l, ∀ m, (obs.pod i).membership = some m → ⟨i, m.epoch, m.members⟩ ∈ views
  | [], views, h => by
    obtain rfl := Except.ok.inj h
    simp
  | i :: rest, views, h => by
    unfold collectViews at h
    split at h
    · next hnone =>
      obtain ⟨hviews, hall⟩ := collectViews_eq_ok h
      refine ⟨fun v hv => ?_, fun j hj m hm => ?_⟩
      · exact ⟨List.mem_cons_of_mem _ (hviews v hv).1, (hviews v hv).2⟩
      · rcases List.mem_cons.mp hj with rfl | hj
        · rw [hnone] at hm
          cases hm
        · exact hall j hj m hm
    · next m hm =>
      split at h
      · cases h
      · split at h
        · cases h
        · next views' hrest =>
          obtain rfl := Except.ok.inj h
          obtain ⟨hviews, hall⟩ := collectViews_eq_ok hrest
          refine ⟨fun v hv => ?_, fun j hj m' hm' => ?_⟩
          · rcases List.mem_cons.mp hv with rfl | hv
            · exact ⟨List.mem_cons_self, m, hm, rfl, rfl⟩
            · exact ⟨List.mem_cons_of_mem _ (hviews v hv).1, (hviews v hv).2⟩
          · rcases List.mem_cons.mp hj with rfl | hj
            · obtain rfl := Option.some.inj (hm.symm.trans hm')
              exact List.mem_cons_self
            · exact List.mem_cons_of_mem _ (hall j hj m' hm')

/-- The views of the pods below `S`. -/
def ViewsOf (obs : Observation) (S : Nat) (views : List View) : Prop :=
  (∀ v ∈ views, v.ordinal < S ∧ ∃ m, (obs.pod v.ordinal).membership = some m ∧
    v.epoch = m.epoch ∧ v.members = m.members) ∧
  ∀ i < S, ∀ m, (obs.pod i).membership = some m → ⟨i, m.epoch, m.members⟩ ∈ views

theorem readViews_eq_ok {st' : Status} (h : readViews fmt cfg obs st S = .ok (views, st')) :
    ViewsOf obs S views ∧ st'.drainStartedAt = st.drainStartedAt := by
  unfold readViews at h
  split at h
  · cases h
  · next views' hcollect =>
    have hviews : ViewsOf obs S views' := by
      obtain ⟨h1, h2⟩ := collectViews_eq_ok hcollect
      exact ⟨fun v hv => ⟨List.mem_range.mp (h1 v hv).1, (h1 v hv).2⟩,
        fun i hi => h2 i (List.mem_range.mpr hi)⟩
    split at h
    · cases h
    · split_ifs at h
      split at h
      · obtain ⟨rfl, rfl⟩ := Prod.mk.inj (Except.ok.inj h)
        exact ⟨hviews, rfl⟩
      · obtain ⟨rfl, rfl⟩ := Prod.mk.inj (Except.ok.inj h)
        exact ⟨hviews, rfl⟩

theorem ViewsOf.allIn_iff (h : ViewsOf obs S views) (allowed : List Holding) :
    allIn obs views allowed = true ↔ Holds obs S allowed := by
  simp only [allIn, List.all_eq_true, decide_eq_true_eq]
  constructor
  · intro hall i hi m hm
    obtain ⟨hin, hmembers⟩ := hall _ (h.2 i hi m hm)
    exact ⟨_, hin, rfl, hmembers⟩
  · intro hholds v hv
    obtain ⟨hlt, m, hm, hepoch, hmembers⟩ := h.1 v hv
    obtain ⟨g, hg, hge, hgm⟩ := hholds v.ordinal hlt m hm
    have hsize : v.holding = g := by
      rw [View.holding, hepoch, hge, hmembers, hgm, size_members]
    rw [hsize]
    exact ⟨hg, hmembers.trans hgm⟩

theorem ViewsOf.seen_iff (h : ViewsOf obs S views) (g : Holding) : seen views g = true ↔
    ∃ i < S, ∃ m, (obs.pod i).membership = some m ∧ m.epoch = g.epoch ∧ m.members.size = g.size := by
  simp only [seen, List.any_eq_true, decide_eq_true_eq]
  constructor
  · rintro ⟨v, hv, rfl⟩
    obtain ⟨hlt, m, hm, hepoch, hmembers⟩ := h.1 v hv
    exact ⟨v.ordinal, hlt, m, hm, hepoch.symm, by rw [View.holding, hmembers]⟩
  · rintro ⟨i, hi, m, hm, hepoch, hsize⟩
    exact ⟨_, h.2 i hi m hm, by rw [View.holding, hepoch, hsize]⟩

theorem healthy_of_find? (h : (List.range S).find? (fun i => !(obs.pod i).healthy) = none) :
    ∀ i < S, (obs.pod i).healthy = true := by
  intro i hi
  simpa using List.find?_eq_none.mp h i (List.mem_range.mpr hi)

theorem exists_membership_of_healthy {p : PodObs} (h : p.healthy = true) :
    ∃ m, p.membership = some m := by
  unfold PodObs.healthy PodObs.reachable at h
  exact Option.isSome_iff_exists.mp (Bool.and_eq_true .. ▸ h).2

/-- A pod that is listed is the pod of its ordinal. -/
theorem Listed.pod_eq (h : Listed obs) {p : PodObs} (hp : p ∈ obs.pods) :
    obs.pod p.ordinal = p := by
  obtain ⟨i, hi⟩ := List.mem_iff_getElem?.mp hp
  rw [h.ordinal i p hi, Observation.pod, hi]
  rfl

/-- A stable cluster's members are what any pod returns. -/
theorem Stable.viewAt_eq (h : Stable obs S E) (hlisted : Listed obs) {epoch : Nat} {m : Members}
    (hm : viewAt obs epoch = some m) : m = members obs.cluster S := by
  obtain ⟨pd, hpd, hfound⟩ := List.exists_of_findSome?_eq_some hm
  obtain ⟨a, ha, hif⟩ := Option.bind_eq_some_iff.mp hfound
  have hexisting := hlisted.existing pd hpd (by rw [ha]; rfl)
  have hlt : pd.ordinal < S := by
    by_contra hge
    rw [h.noPod pd hpd (not_lt.mp hge)] at hexisting
    cases hexisting
  obtain ⟨-, b, hb, -, hmembers, -⟩ := h.pods pd.ordinal hlt
  rw [hlisted.pod_eq hpd, ha] at hb
  cases hb
  split_ifs at hif
  exact (Option.some.inj hif).symm.trans hmembers

/-- A pod before the first that answers with `epoch` does not answer with it. -/
theorem viewAt_eq_of_holds {i : Nat} {allowed : List Holding} (hholds : Holds obs (i + 1) allowed)
    {epoch size : Nat} (honly : ∀ h ∈ allowed, h.epoch = epoch → h.size = size)
    (hi : (obs.pod i).membership.any (fun m => m.epoch = epoch) = true) :
    viewAt obs epoch = some (members obs.cluster size) := by
  obtain ⟨m, hm, hepoch⟩ : ∃ m, (obs.pod i).membership = some m ∧ m.epoch = epoch := by
    cases hp : (obs.pod i).membership with
    | none => simp [hp] at hi
    | some m => exact ⟨m, rfl, by simpa [hp] using hi⟩
  obtain ⟨p, hp⟩ : ∃ p, obs.pods[i]? = some p := by
    cases hp : obs.pods[i]? with
    | none => simp [Observation.pod, hp] at hm
    | some p => exact ⟨p, rfl⟩
  have hpod : obs.pod i = p := by rw [Observation.pod, hp]; rfl
  cases hview : viewAt obs epoch with
  | none =>
    have := List.findSome?_eq_none_iff.mp hview p (List.mem_of_getElem? hp)
    rw [← hpod, hm] at this
    simp [hepoch] at this
  | some =>
    obtain ⟨before, q, after, hpods, hq, hbefore⟩ := List.findSome?_eq_some_iff.mp hview
    -- the pod that is found is not after pod `i`
    have hle : before.length ≤ i := by
      by_contra hlt
      have hmem : p ∈ before := by
        rw [hpods, List.getElem?_append_left (not_le.mp hlt)] at hp
        exact List.mem_of_getElem? hp
      have := hbefore p hmem
      rw [← hpod, hm] at this
      simp [hepoch] at this
    obtain ⟨a, ha, hif⟩ := Option.bind_eq_some_iff.mp hq
    have hqpod : obs.pod before.length = q := by
      rw [Observation.pod, hpods]
      simp
    obtain ⟨h, hh, hhe, hhm⟩ := hholds before.length (by omega) a (hqpod ▸ ha)
    split_ifs at hif with hae
    rw [← Option.some.inj hif, hhm, honly h hh (hhe.symm.trans hae)]

/-- An action is justified, and a cluster that is Degraded waits. -/
structure Sound (obs : Observation) (d : Decision) : Prop where
  justified : Justified obs d.action
  degraded : d.status.phase = .degraded → d.action.kind = .wait

theorem sound_wait (obs : Observation) (st : Status) (phase : Phase) (reason : Reason) (after : Int)
    (message : String) : Sound obs (wait st phase reason after message) :=
  ⟨.wait rfl, fun _ => rfl⟩

theorem sound_act {a : Action} {phase : Phase} (hphase : phase ≠ .degraded)
    (h : Justified obs a) (st : Status) (message : String) :
    Sound obs (act st a phase message) :=
  ⟨h, fun hd => absurd hd hphase⟩

theorem sound_degraded (cfg : Config) (obs : Observation) (st : Status) (reason : Reason)
    (message : String) : Sound obs (degraded cfg obs st reason message) :=
  sound_wait ..

variable {sts : StatefulSetObs} {cm : ConfigMapObs}

theorem changeSpec_sound (hlisted : Listed obs) (hsts : obs.statefulSet = some sts)
    (hcm : obs.configMap = some cm) (hold : cm.members = members obs.cluster sts.replicas)
    (hstable : Stable obs sts.replicas cm.epoch)
    (h : changeSpec cfg obs st sts sts.replicas cm.epoch = some d) : Sound obs d := by
  unfold changeSpec at h
  simp only at h
  split_ifs at h with htemplate hup hdown
  · cases h
    exact sound_act (by decide) (.stable (Or.inr rfl) hsts hcm hold hstable) ..
  · split at h
    · cases h
      exact sound_wait ..
    · obtain ⟨m, hm, rfl⟩ := Option.map_eq_some_iff.mp h
      obtain rfl := hstable.viewAt_eq hlisted hm
      exact sound_act (by decide) (.grow rfl hsts hcm hold hstable rfl rfl) ..
  · obtain ⟨m, hm, rfl⟩ := Option.map_eq_some_iff.mp h
    obtain ⟨-, b, hb, -, hmembers, -⟩ := hstable.pods 0 (by omega)
    obtain rfl := Option.some.inj (hm.symm.trans hb)
    refine sound_act (by decide) (.post rfl hsts hcm hold hdown hstable rfl rfl ?_) ..
    obtain ⟨k, hk⟩ : ∃ k, sts.replicas = k + 1 := ⟨sts.replicas - 1, by omega⟩
    rw [hmembers, hk]
    exact erase_members obs.cluster k
  · cases h
    exact sound_act (by decide) (.stable (Or.inl rfl) hsts hcm hold hstable) ..

theorem memberID_ordinal {c : KVCluster} {id : String} {i : Nat} (h : ordinal c id = some i) :
    memberID c i = id := by
  unfold ordinal at h
  simp only at h
  split_ifs at h with hstart hid
  rw [← Option.some.inj h]
  exact hid.2

theorem members_of_validMembers {c : KVCluster} {m : Members} {size : Nat}
    (h : validMembers fmt c m = .ok (size, true)) :
    m = members c size ∧ ∀ i < size, ordinal c (memberID c i) = some i := by
  unfold validMembers at h
  split at h
  · cases h
  · next hvalid =>
    obtain ⟨rfl, heq⟩ := Prod.mk.inj (Except.ok.inj h)
    have hm : m = members c m.size := by simpa using heq
    refine ⟨hm, fun i hi => ?_⟩
    have hmem : memberID c i ∈ m := by
      rw [hm]
      exact mem_members.mpr hi
    obtain ⟨addr, haddr⟩ := Option.isSome_iff_exists.mp
      (Std.ExtTreeMap.isSome_getElem?_iff_mem.mpr hmem)
    have herror := List.findSome?_eq_none_iff.mp hvalid (memberID c i, addr)
      (Std.ExtTreeMap.mem_toList_iff_getElem?_eq_some.mpr haddr)
    unfold memberError at herror
    split at herror
    · cases herror
    · next j hj =>
      rw [hj, memberID_inj.mp (memberID_ordinal hj)]

theorem converged_sound (hlisted : Listed obs) (hsts : obs.statefulSet = some sts)
    (hcm : obs.configMap = some cm) (hold : cm.members = members obs.cluster sts.replicas)
    (hviews : ViewsOf obs sts.replicas views)
    (hholds : Holds obs sts.replicas [⟨cm.epoch, sts.replicas⟩])
    (h : converged cfg obs st sts sts.replicas cm.epoch views = some d) : Sound obs d := by
  unfold converged at h
  split at h
  · cases h
    exact sound_wait ..
  · next hpods =>
    split at h
    · cases h
      exact sound_wait ..
    · next hpvcs =>
      split at h
      · cases h
        exact sound_wait ..
      · next hpending =>
        split at h
        · cases h
          exact sound_wait ..
        · next hfind =>
          split at h
          · cases h
            exact sound_wait ..
          · refine changeSpec_sound hlisted hsts hcm hold ⟨fun i hi => ?_, ?_, ?_⟩ h
            · have hhealthy := healthy_of_find? hfind i hi
              obtain ⟨m, hm⟩ := exists_membership_of_healthy hhealthy
              obtain ⟨g, hg, hge, hgm⟩ := hholds i hi m hm
              obtain rfl := List.mem_singleton.mp hg
              -- the pod's own view is among those whose handoff was looked at
              have hdone : i ∉ pendingHandoffs obs views cm.epoch := by
                rw [not_not.mp hpending]
                exact List.not_mem_nil
              have hview : i ∈ views.map View.ordinal :=
                List.mem_map_of_mem (f := View.ordinal) (hviews.2 i hi m hm)
              simp only [pendingHandoffs, List.mem_filter, hview, hm, true_and] at hdone
              have hepoch : ¬m.handoff.epoch < cm.epoch ∧ m.handoff.done = true := by
                simpa using hdone
              exact ⟨hhealthy, m, hm, hge, hgm, not_lt.mp hepoch.1, hepoch.2⟩
            · intro p hp hge
              simpa [hge] using List.find?_eq_none.mp hpods p hp
            · intro i hi
              simpa using List.find?_eq_none.mp hpvcs i hi

theorem bootstrap_sound (h : bootstrap fmt cfg obs st = .error d) : Sound obs d := by
  unfold bootstrap at h
  split at h
  · next hcm =>
    split at h
    · next hsts =>
      obtain rfl := Except.error.inj h
      exact sound_act (by decide) (.create rfl rfl rfl hcm hsts) ..
    · obtain rfl := Except.error.inj h
      exact sound_degraded ..
  · next cm hcm =>
    split at h
    · obtain rfl := Except.error.inj h
      exact sound_degraded ..
    · split at h
      · obtain rfl := Except.error.inj h
        exact sound_degraded ..
      · obtain rfl := Except.error.inj h
        exact sound_degraded ..
      · next c hvalid =>
        split at h
        · next hsts =>
          obtain rfl := Except.error.inj h
          refine sound_act (by decide) (.createSet rfl hcm hsts ?_) ..
          exact (members_of_validMembers hvalid).1
        · cases h

/-- The steps that an observation can be placed at. -/
theorem classify_cases {c Ec : Nat} (hviews : ViewsOf obs sts.replicas views) {placed : Placed}
    (h : classify fmt cfg obs st sts c Ec views = some placed) :
    (∃ message, placed = ⟨degraded cfg obs st .unexplainedDivergence message, none, false⟩) ∨
    (c = sts.replicas + 1 ∧ placed = ⟨scaleUp cfg obs st sts.replicas, none, true⟩) ∨
    (c = sts.replicas ∧ Holds obs sts.replicas [⟨Ec, sts.replicas⟩] ∧
      ∃ d, converged cfg obs st sts sts.replicas Ec views = some d ∧ placed = ⟨d, none, true⟩) ∨
    (c = sts.replicas ∧ seen views ⟨prevEpoch Ec, sts.replicas - 1⟩ = true ∧ 1 ≤ Ec ∧ ∃ message,
      placed = ⟨wait st .scaling .waitingForEpoch cfg.fast message, none, true⟩) ∨
    (c = sts.replicas ∧
      Holds obs sts.replicas [⟨Ec, sts.replicas⟩, ⟨nextEpoch Ec, sts.replicas - 1⟩] ∧
      seen views ⟨nextEpoch Ec, sts.replicas - 1⟩ = true ∧
      placed = ⟨drain fmt cfg obs st sts.replicas (nextEpoch Ec), some (sts.replicas - 1), true⟩) ∨
    (c + 1 = sts.replicas ∧ Holds obs sts.replicas [⟨Ec, c⟩] ∧ ∃ message, placed =
      ⟨act st { kind := .scaleStatefulSet, reason := .removingPod, replicas := c } .scaling message,
        some (sts.replicas - 1), true⟩) := by
  unfold classify at h
  simp only at h
  split at h
  · next hc =>
    split at h
    · exact Or.inr (Or.inl ⟨hc, (Option.some.inj h).symm⟩)
    · exact Or.inl ⟨_, (Option.some.inj h).symm⟩
  · split at h
    · next hc =>
      split at h
      · next hheld =>
        obtain ⟨d, hd, rfl⟩ := Option.map_eq_some_iff.mp h
        exact Or.inr (Or.inr (Or.inl ⟨hc, (hviews.allIn_iff _).mp hheld, d, hd, rfl⟩))
      · split at h
        · next hwaiting =>
          exact Or.inr (Or.inr (Or.inr (Or.inl
            ⟨hc, hwaiting.2.2, hwaiting.2.1, _, (Option.some.inj h).symm⟩)))
        · split at h
          · next hdraining =>
            exact Or.inr (Or.inr (Or.inr (Or.inr (Or.inl
              ⟨hc, (hviews.allIn_iff _).mp hdraining.1, hdraining.2, (Option.some.inj h).symm⟩))))
          · exact Or.inl ⟨_, (Option.some.inj h).symm⟩
    · split at h
      · next hc =>
        split at h
        · next hheld =>
          exact Or.inr (Or.inr (Or.inr (Or.inr (Or.inr
            ⟨hc, (hviews.allIn_iff _).mp hheld, _, (Option.some.inj h).symm⟩))))
        · exact Or.inl ⟨_, (Option.some.inj h).symm⟩
      · exact Or.inl ⟨_, (Option.some.inj h).symm⟩

theorem scaleUp_sound (hsts : obs.statefulSet = some sts) (hcm : obs.configMap = some cm)
    (hc : cm.members = members obs.cluster (sts.replicas + 1)) :
    Sound obs (scaleUp cfg obs st sts.replicas) := by
  unfold scaleUp
  split
  · exact sound_wait ..
  · next hfind =>
    split
    · exact sound_wait ..
    · next hfree =>
      exact sound_act (by decide)
        (.scaleUp rfl hsts hcm rfl hc (healthy_of_find? hfind) hfree) ..

theorem drain_sound (hsts : obs.statefulSet = some sts) (hcm : obs.configMap = some cm)
    (hc : cm.members = members obs.cluster sts.replicas)
    (hordinals : ∀ i < sts.replicas, ordinal obs.cluster (memberID obs.cluster i) = some i)
    (hholds : Holds obs sts.replicas
      [⟨cm.epoch, sts.replicas⟩, ⟨nextEpoch cm.epoch, sts.replicas - 1⟩])
    (hpos : 0 < sts.replicas) :
    Sound obs (drain fmt cfg obs st sts.replicas (nextEpoch cm.epoch)) := by
  unfold drain
  simp only
  split
  · next hdrained =>
    refine sound_act (by decide) (.drained rfl hsts hcm hc hpos hordinals hdrained rfl ?_) ..
    have hmembership := (Bool.and_eq_true .. ▸ hdrained).2
    obtain ⟨k, hk⟩ : ∃ k, sts.replicas = k + 1 := ⟨sts.replicas - 1, by omega⟩
    rw [hk] at hholds hmembership ⊢
    have honly : ∀ h ∈ [(⟨cm.epoch, k + 1⟩ : Holding), ⟨nextEpoch cm.epoch, k + 1 - 1⟩],
        h.epoch = nextEpoch cm.epoch → h.size = k := by
      simp [(nextEpoch_ne cm.epoch).symm]
    exact congrArg (Option.getD · ∅) (viewAt_eq_of_holds hholds honly hmembership)
  · split <;> exact sound_wait ..

theorem classify_sound (hlisted : Listed obs) (hsts : obs.statefulSet = some sts)
    (hcm : obs.configMap = some cm) {c : Nat} (hc : cm.members = members obs.cluster c)
    (hordinals : ∀ i < c, ordinal obs.cluster (memberID obs.cluster i) = some i)
    (hviews : ViewsOf obs sts.replicas views) {placed : Placed}
    (h : classify fmt cfg obs st sts c cm.epoch views = some placed) :
    Sound obs placed.decision := by
  rcases classify_cases hviews h with ⟨_, rfl⟩ | ⟨rfl, rfl⟩ | ⟨rfl, hheld, d, hd, rfl⟩ |
    ⟨-, -, -, _, rfl⟩ | ⟨rfl, hheld, hseen, rfl⟩ | ⟨hsize, hheld, _, rfl⟩
  · exact sound_degraded ..
  · exact scaleUp_sound hsts hcm hc
  · exact converged_sound hlisted hsts hcm hc hviews hheld hd
  · exact sound_wait ..
  · obtain ⟨i, hi, -⟩ := (hviews.seen_iff _).mp hseen
    exact drain_sound hsts hcm hc hordinals hheld (by omega)
  · exact sound_act (by decide) (.scaleDown rfl hsts hcm hsize.symm hc hheld) ..

theorem bootstrap_eq_ok {c : Nat} (h : bootstrap fmt cfg obs st = .ok c) :
    ∃ cm, obs.configMap = some cm ∧ cm.members = members obs.cluster c ∧
      ∀ i < c, ordinal obs.cluster (memberID obs.cluster i) = some i := by
  unfold bootstrap at h
  split at h
  · split at h <;> cases h
  · next cm hcm =>
    split at h
    · cases h
    · split at h
      · cases h
      · cases h
      · next c' hvalid =>
        split at h
        · cases h
        · obtain rfl := Except.ok.inj h
          exact ⟨cm, hcm, members_of_validMembers hvalid⟩

theorem collectViews_eq_error : ∀ {l : List Nat}, collectViews fmt cfg obs st l = .error d →
    ∃ reason message, d = degraded cfg obs st reason message
  | i :: rest, h => by
    unfold collectViews at h
    split at h
    · exact collectViews_eq_error h
    · split at h
      · exact ⟨_, _, (Except.error.inj h).symm⟩
      · split at h
        · next d' hrest =>
          rw [Except.error.inj h] at hrest
          exact collectViews_eq_error hrest
        · cases h

theorem readViews_eq_error (h : readViews fmt cfg obs st S = .error d) :
    ∃ reason message, d = degraded cfg obs st reason message := by
  unfold readViews at h
  split at h
  · next d' hcollect =>
    obtain rfl := Except.error.inj h
    exact collectViews_eq_error hcollect
  · split at h
    · exact ⟨_, _, (Except.error.inj h).symm⟩
    · split at h
      · exact ⟨_, _, (Except.error.inj h).symm⟩
      · split at h <;> cases h

theorem unavailable_eq_some {exempt : Option Nat} (h : unavailable fmt cfg obs st S exempt = some d) :
    ∃ message, d = degraded cfg obs st .podUnavailable message := by
  unfold unavailable at h
  split at h
  · cases h
  · exact ⟨_, (Option.some.inj h).symm⟩

/-- How a decision comes about once there is a ConfigMap and a StatefulSet. -/
theorem plan_cases (h : plan fmt cfg obs = some d) :
    (∃ st, bootstrap fmt cfg obs st = .error d) ∨
    ∃ sts cm c, obs.statefulSet = some sts ∧ obs.configMap = some cm ∧
      cm.members = members obs.cluster c ∧
      (∀ i < c, ordinal obs.cluster (memberID obs.cluster i) = some i) ∧
      ((∃ st reason message, d = degraded cfg obs st reason message) ∨
      ∃ st views placed, ViewsOf obs sts.replicas views ∧ st.drainStartedAt = none ∧
        classify fmt cfg obs st sts c cm.epoch views = some placed ∧ placed.ok = true ∧
        unavailable fmt cfg obs placed.decision.status sts.replicas placed.exempt = none ∧
        d.action = placed.decision.action ∧ d.status = if placed.decision.action.kind = .wait
          then placed.decision.status
          else { placed.decision.status with drainStartedAt := none }) := by
  unfold plan at h
  simp only at h
  split at h
  · next d' _ _ hboot =>
    cases h
    exact Or.inl ⟨_, hboot⟩
  · next c sts cm hboot hsts hcm =>
    obtain ⟨cm', hcm', hc, hordinals⟩ := bootstrap_eq_ok hboot
    obtain rfl := Option.some.inj (hcm.symm.trans hcm')
    refine Or.inr ⟨sts, cm, c, hsts, hcm, hc, hordinals, ?_⟩
    split at h
    · next d' hread =>
      cases h
      obtain ⟨reason, message, rfl⟩ := readViews_eq_error hread
      exact Or.inl ⟨_, _, _, rfl⟩
    · next views st' hread =>
      obtain ⟨hviews, hdrain⟩ := readViews_eq_ok hread
      obtain ⟨placed, hplaced, hd⟩ := Option.map_eq_some_iff.mp h
      cases hok : placed.ok with
      | false =>
        obtain ⟨message, rfl⟩ := (classify_cases hviews hplaced).resolve_right fun hcases => by
          rcases hcases with ⟨-, rfl⟩ | ⟨-, -, _, -, rfl⟩ | ⟨-, -, -, _, rfl⟩ | ⟨-, -, -, rfl⟩ |
            ⟨-, -, _, rfl⟩ <;> cases hok
        exact Or.inl ⟨_, _, _, hd.symm⟩
      | true =>
        simp only [conclude, hok, Bool.not_true, Bool.false_eq_true, if_false] at hd
        split at hd
        · next d' hunavailable =>
          obtain ⟨message, rfl⟩ := unavailable_eq_some hunavailable
          exact Or.inl ⟨_, _, _, hd.symm⟩
        · next hunavailable =>
          refine Or.inr ⟨st', views, placed, hviews, ?_, hplaced, hok, hunavailable, ?_, ?_⟩
          · rw [hdrain]
            split <;> rfl
          · rw [← hd]
            split_ifs <;> rfl
          · rw [← hd]
            by_cases hwait : placed.decision.action.kind = .wait
            · rw [if_neg (not_not.mpr hwait), if_pos hwait]
            · rw [if_pos hwait, if_neg hwait]
  · cases h

/-- Every decision is sound. -/
theorem plan_sound (hlisted : Listed obs) (h : plan fmt cfg obs = some d) : Sound obs d := by
  rcases plan_cases h with ⟨st, hboot⟩ | ⟨sts, cm, c, hsts, hcm, hc, hordinals,
    ⟨st, reason, message, rfl⟩ | ⟨st, views, placed, hviews, -, hplaced, -, -, haction, hstatus⟩⟩
  · exact bootstrap_sound hboot
  · exact sound_degraded ..
  · obtain ⟨hjustified, hdegraded⟩ := classify_sound hlisted hsts hcm hc hordinals hviews hplaced
    refine ⟨haction ▸ hjustified, fun hphase => ?_⟩
    rw [haction]
    refine hdegraded ?_
    rw [hstatus] at hphase
    split_ifs at hphase <;> exact hphase

theorem ordinalTaken_eq_none {i : Nat} (h : ordinalTaken obs i = none) :
    (obs.pod i).existing = false ∧ i ∉ obs.pvcs := by
  unfold ordinalTaken at h
  split_ifs at h with hpod hpvc
  exact ⟨by simpa using hpod, by simpa [Observation.hasPVC] using hpvc⟩

theorem exists_of_drainedAt {p : PodObs} {epoch : Nat} (h : p.drainedAt epoch = true) :
    ∃ answer, p.drain = some answer ∧ answer.epoch = epoch ∧ answer.drained = true := by
  have hany := (Bool.and_eq_true .. ▸ h).1
  cases hp : p.drain with
  | none => simp [hp] at hany
  | some answer =>
    have hboth : answer.epoch = epoch ∧ answer.drained = true := by simpa [hp] using hany
    exact ⟨answer, rfl, hboth⟩

/-- What holds of any observation whose pods are listed by ordinal. A cluster reported as
Degraded is left alone. While the StatefulSet exists, with `S` replicas and the ConfigMap at
epoch `E` : the ConfigMap is written at `E + 1`, with one member more when the cluster is
stable or without pod `S - 1` when that says it has drained; a membership is posted to pod 0
at `E + 1` without pod `S - 1` when the cluster is stable; and the StatefulSet is scaled by
one to the ConfigMap's size, up onto a free ordinal when the pods are healthy, down when no
pod that answers lists the last one. -/
theorem disruptive_justified (hlisted : Listed obs)
    (hepoch : ∀ cm, obs.configMap = some cm → cm.epoch + 1 < epochLimit)
    (h : plan fmt cfg obs = some d) : (d.status.phase = .degraded → d.action.kind = .wait) ∧
    ∀ sts, obs.statefulSet = some sts →
      (d.action.kind = .writeConfigMap → ∃ cm, obs.configMap = some cm ∧
        d.action.epoch = cm.epoch + 1 ∧
        ((d.action.members = members obs.cluster (sts.replicas + 1) ∧
          Stable obs sts.replicas cm.epoch) ∨
        (0 < sts.replicas ∧ d.action.members = members obs.cluster (sts.replicas - 1) ∧
          ∃ answer, (obs.pod (sts.replicas - 1)).drain = some answer ∧
            answer.epoch = cm.epoch + 1 ∧ answer.drained = true))) ∧
      (d.action.kind = .postMembership → ∃ cm, obs.configMap = some cm ∧
        d.action.ordinal = 0 ∧ d.action.epoch = cm.epoch + 1 ∧
        d.action.members = members obs.cluster (sts.replicas - 1) ∧
        Stable obs sts.replicas cm.epoch) ∧
      (d.action.kind = .scaleStatefulSet → ∃ cm, obs.configMap = some cm ∧
        cm.members = members obs.cluster d.action.replicas ∧
        ((d.action.replicas = sts.replicas + 1 ∧
          (∀ i < sts.replicas, (obs.pod i).healthy = true) ∧
          (obs.pod sts.replicas).existing = false ∧ sts.replicas ∉ obs.pvcs) ∨
        (sts.replicas = d.action.replicas + 1 ∧ ∀ i < sts.replicas, ∀ m,
          (obs.pod i).membership = some m → memberID obs.cluster (sts.replicas - 1) ∉ m.members))) := by
  obtain ⟨hjustified, hdegraded⟩ := plan_sound hlisted h
  refine ⟨hdegraded, fun sts hsts => ?_⟩
  cases hjustified with
  | wait hkind => simp [hkind]
  | stable hkind => rcases hkind with hkind | hkind <;> simp [hkind]
  | create hkind _ _ _ hnone =>
    rw [hsts] at hnone
    cases hnone
  | createSet hkind _ hnone =>
    rw [hsts] at hnone
    cases hnone
  | grow hkind hsts' hcm _ hstable hnext hmembers =>
    obtain rfl := Option.some.inj (hsts.symm.trans hsts')
    rw [nextEpoch_eq (hepoch _ hcm)] at hnext
    exact ⟨fun _ => ⟨_, hcm, hnext, Or.inl ⟨hmembers, hstable⟩⟩, by simp [hkind], by simp [hkind]⟩
  | post hkind hsts' hcm _ _ hstable hordinal hnext hmembers =>
    obtain rfl := Option.some.inj (hsts.symm.trans hsts')
    rw [nextEpoch_eq (hepoch _ hcm)] at hnext
    exact ⟨by simp [hkind], fun _ => ⟨_, hcm, hordinal, hnext, hmembers, hstable⟩, by simp [hkind]⟩
  | drained hkind hsts' hcm _ hpos _ hdrained hnext hmembers =>
    obtain rfl := Option.some.inj (hsts.symm.trans hsts')
    rw [nextEpoch_eq (hepoch _ hcm)] at hnext
    rw [hnext] at hdrained
    exact ⟨fun _ => ⟨_, hcm, hnext, Or.inr ⟨hpos, hmembers, exists_of_drainedAt hdrained⟩⟩,
      by simp [hkind], by simp [hkind]⟩
  | scaleUp hkind hsts' hcm hreplicas hmembers hhealthy hfree =>
    obtain rfl := Option.some.inj (hsts.symm.trans hsts')
    refine ⟨by simp [hkind], by simp [hkind], fun _ => ⟨_, hcm, hmembers, Or.inl ?_⟩⟩
    exact ⟨hreplicas, hhealthy, ordinalTaken_eq_none hfree⟩
  | scaleDown hkind hsts' hcm hreplicas hmembers hheld =>
    obtain rfl := Option.some.inj (hsts.symm.trans hsts')
    refine ⟨by simp [hkind], by simp [hkind],
      fun _ => ⟨_, hcm, hmembers, Or.inr ⟨hreplicas, fun i hi m hm => ?_⟩⟩⟩
    obtain ⟨g, hg, -, hgm⟩ := hheld i hi m hm
    obtain rfl := List.mem_singleton.mp hg
    rw [hgm, mem_members, hreplicas]
    exact lt_irrefl _

end

/-! ## The saved status -/

/-- What an action does. -/
def Action.effect (a : Action) : ActionKind × Nat × Members × Nat × Nat :=
  (a.kind, a.epoch, a.members, a.replicas, a.ordinal)

def Observation.withStatus (obs : Observation) (status : KVStatus) : Observation :=
  { obs with cluster := { obs.cluster with status := status } }

/-- What a decision or an error does. -/
def effects {α : Type*} : Except Decision α → Except (ActionKind × Nat × Members × Nat × Nat) α
  | .error d => .error d.action.effect
  | .ok a => .ok a

section

variable (fmt : Formats) (cfg : Config) (obs : Observation) (status : KVStatus) (st st' : Status)

theorem members_withStatus (k : Nat) :
    members (obs.withStatus status).cluster k = members obs.cluster k :=
  members_congr obs.cluster (obs.withStatus status).cluster rfl rfl k

theorem validMembers_withStatus (m : Members) :
    validMembers fmt (obs.withStatus status).cluster m = validMembers fmt obs.cluster m := by
  unfold validMembers
  rw [members_withStatus]
  rfl

theorem allIn_withStatus (views : List View) (allowed : List Holding) :
    allIn (obs.withStatus status) views allowed = allIn obs views allowed := by
  unfold allIn
  simp only [members_withStatus]

/-- Two results with the same effects are two errors that do the same, or the same answer. -/
theorem effects_eq {α : Type*} {x y : Except Decision α} (h : effects x = effects y) :
    (∃ d d', x = .error d ∧ y = .error d' ∧ d.action.effect = d'.action.effect) ∨
      ∃ a, x = .ok a ∧ y = .ok a := by
  cases x <;> cases y <;> simp_all [effects]

theorem bootstrap_withStatus : effects (bootstrap fmt cfg (obs.withStatus status) st') =
    effects (bootstrap fmt cfg obs st) := by
  unfold bootstrap
  have hcm : (obs.withStatus status).configMap = obs.configMap := rfl
  have hsts : (obs.withStatus status).statefulSet = obs.statefulSet := rfl
  rw [hcm, hsts]
  cases obs.configMap with
  | none =>
    cases obs.statefulSet with
    | none => simp only [members_withStatus]; rfl
    | some => rfl
  | some =>
    simp only [validMembers_withStatus]
    split
    · rfl
    · split
      · rfl
      · rfl
      · cases obs.statefulSet <;> rfl

theorem collectViews_withStatus : ∀ l : List Nat,
    effects (collectViews fmt cfg (obs.withStatus status) st' l) =
      effects (collectViews fmt cfg obs st l)
  | [] => rfl
  | i :: rest => by
    have hrest := collectViews_withStatus rest
    have hpod : (obs.withStatus status).pod i = obs.pod i := rfl
    unfold collectViews
    rw [hpod]
    cases (obs.pod i).membership with
    | none => exact hrest
    | some m =>
      simp only [validMembers_withStatus]
      cases validMembers fmt obs.cluster m.members with
      | error => rfl
      | ok =>
        rcases effects_eq hrest with ⟨d, d', h, h', heffect⟩ | ⟨views, h, h'⟩
        · simp only [h, h', effects, heffect]
        · simp only [h, h']

theorem readViews_withStatus (S : Nat) : effects (readViews fmt cfg (obs.withStatus status) st S) =
    effects (readViews fmt cfg obs st S) := by
  unfold readViews
  rcases effects_eq (collectViews_withStatus fmt cfg obs status st st (List.range S)) with
    ⟨d, d', h, h', heffect⟩ | ⟨views, h, h'⟩
  · simp only [h, h', effects, heffect]
  · simp only [h, h']
    repeat' split
    all_goals rfl

theorem scaleUp_withStatus (S : Nat) : (scaleUp cfg (obs.withStatus status) st' S).action.effect =
    (scaleUp cfg obs st S).action.effect := by
  have htaken : ordinalTaken (obs.withStatus status) S = ordinalTaken obs S := rfl
  unfold scaleUp
  rw [htaken]
  change (match (List.range S).find? (fun i => !(obs.pod i).healthy) with
    | some i => _
    | none => _ : Decision).action.effect = _
  repeat' split
  all_goals rfl

theorem drain_withStatus (S epoch : Nat) :
    (drain fmt cfg (obs.withStatus status) st' S epoch).action.effect =
      (drain fmt cfg obs st S epoch).action.effect := by
  have hpod : (obs.withStatus status).pod (S - 1) = obs.pod (S - 1) := rfl
  have hview : viewAt (obs.withStatus status) epoch = viewAt obs epoch := rfl
  unfold drain
  simp only [hpod, hview]
  repeat' split
  all_goals rfl

theorem changeSpec_withStatus (sts : StatefulSetObs) (S E : Nat) :
    (changeSpec cfg (obs.withStatus status) st' sts S E).map (·.action.effect) =
      (changeSpec cfg obs st sts S E).map (·.action.effect) := by
  have hpod : (obs.withStatus status).pod 0 = obs.pod 0 := rfl
  have hview : viewAt (obs.withStatus status) E = viewAt obs E := rfl
  have htaken : ordinalTaken (obs.withStatus status) S = ordinalTaken obs S := rfl
  have hspec : (obs.withStatus status).cluster.spec = obs.cluster.spec := rfl
  unfold changeSpec
  simp only [hpod, hview, htaken, hspec]
  split
  · rfl
  · split
    · split
      · rfl
      · cases viewAt obs E <;> rfl
    · split
      · cases (obs.pod 0).membership <;> rfl
      · rfl

theorem converged_withStatus (sts : StatefulSetObs) (S E : Nat) (views : List View) :
    (converged cfg (obs.withStatus status) st' sts S E views).map (·.action.effect) =
      (converged cfg obs st sts S E views).map (·.action.effect) := by
  have hpods : (obs.withStatus status).pods = obs.pods := rfl
  have hpvcs : (obs.withStatus status).pvcs = obs.pvcs := rfl
  have hpending : pendingHandoffs (obs.withStatus status) views E = pendingHandoffs obs views E := rfl
  have hpod : ∀ i, (obs.withStatus status).pod i = obs.pod i := fun _ => rfl
  unfold converged
  simp only [hpods, hpvcs, hpending, hpod]
  repeat' split
  all_goals first | rfl | exact changeSpec_withStatus ..

theorem classify_withStatus (sts : StatefulSetObs) (c Ec : Nat) (views : List View) :
    (classify fmt cfg (obs.withStatus status) st' sts c Ec views).map
        (fun p => (p.decision.action.effect, p.exempt, p.ok)) =
      (classify fmt cfg obs st sts c Ec views).map
        (fun p => (p.decision.action.effect, p.exempt, p.ok)) := by
  unfold classify
  simp only [allIn_withStatus]
  split
  · split
    · exact congrArg (fun e => some (e, none, true)) (scaleUp_withStatus ..)
    · rfl
  · split
    · split
      · have hconverged := congrArg (Option.map fun e => (e, (none : Option Nat), true))
          (converged_withStatus cfg obs status st st' sts sts.replicas Ec views)
        simpa only [Option.map_map, Function.comp_def] using hconverged
      · split
        · rfl
        · split
          · exact congrArg (fun e => some (e, some (sts.replicas - 1), true)) (drain_withStatus ..)
          · rfl
    · split
      · split <;> rfl
      · rfl

theorem unavailable_withStatus (S : Nat) (exempt : Option Nat) :
    (unavailable fmt cfg (obs.withStatus status) st' S exempt).map (·.action.effect) =
      (unavailable fmt cfg obs st S exempt).map (·.action.effect) := by
  have hgrace : ∀ i, overGrace cfg (obs.withStatus status) i exempt = overGrace cfg obs i exempt :=
    fun _ => rfl
  unfold unavailable
  simp only [hgrace]
  split <;> rfl

theorem conclude_withStatus (S : Nat) {placed placed' : Placed}
    (heffect : placed'.decision.action.effect = placed.decision.action.effect)
    (hexempt : placed'.exempt = placed.exempt) (hok : placed'.ok = placed.ok) :
    (conclude fmt cfg (obs.withStatus status) S placed').action.effect =
      (conclude fmt cfg obs S placed).action.effect := by
  have hkind : placed'.decision.action.kind = placed.decision.action.kind :=
    congrArg Prod.fst heffect
  have hunavailable := unavailable_withStatus fmt cfg obs status placed.decision.status
    placed'.decision.status S placed.exempt
  unfold conclude
  rw [hok, hexempt]
  split
  · exact heffect
  · revert hunavailable
    cases unavailable fmt cfg (obs.withStatus status) placed'.decision.status S placed.exempt <;>
      cases unavailable fmt cfg obs placed.decision.status S placed.exempt <;> intro hunavailable
    · simp only [hkind]
      split <;> exact heffect
    · cases hunavailable
    · cases hunavailable
    · exact Option.some.inj hunavailable

/-- The saved status decides no action. -/
theorem action_of_status : (plan fmt cfg (obs.withStatus status)).map (·.action.effect) =
    (plan fmt cfg obs).map (·.action.effect) := by
  unfold plan
  have hcm : (obs.withStatus status).configMap = obs.configMap := rfl
  have hsts : (obs.withStatus status).statefulSet = obs.statefulSet := rfl
  simp only [hcm, hsts]
  generalize (match obs.statefulSet with
    | none => ({} : Status)
    | some sts => { replicas := sts.replicas, readyReplicas := sts.readyReplicas }) = st₀
  rcases effects_eq (bootstrap_withStatus fmt cfg obs status st₀ st₀) with
    ⟨d, d', h, h', heffect⟩ | ⟨c, h, h'⟩ <;> simp only [h, h']
  · exact congrArg some heffect
  cases obs.statefulSet with
  | none => rfl
  | some sts =>
    cases obs.configMap with
    | none => rfl
    | some cm =>
      rcases effects_eq (readViews_withStatus fmt cfg obs status st₀ sts.replicas) with
        ⟨d, d', h, h', heffect⟩ | ⟨⟨views, st₁⟩, h, h'⟩ <;> simp only [h, h']
      · exact congrArg some heffect
      have hplaced := classify_withStatus fmt cfg obs status st₁ st₁ sts c cm.epoch views
      revert hplaced
      rcases classify fmt cfg (obs.withStatus status) st₁ sts c cm.epoch views with _ | placed' <;>
        rcases classify fmt cfg obs st₁ sts c cm.epoch views with _ | placed <;> intro hplaced
      · rfl
      · cases hplaced
      · cases hplaced
      · obtain ⟨heffect, hrest⟩ := Prod.mk.inj (Option.some.inj hplaced)
        obtain ⟨hexempt, hok⟩ := Prod.mk.inj hrest
        exact congrArg some (conclude_withStatus fmt cfg obs status sts.replicas heffect hexempt hok)

end

/-! ## The clock of a drain -/

/-- The observation is made while pod `S - 1` drains : the ConfigMap has the `S` members at
`E`, and the pods that answer hold them or the membership without that pod. -/
structure Draining (obs : Observation) (S E : Nat) : Prop where
  statefulSet : ∃ sts, obs.statefulSet = some sts ∧ sts.replicas = S
  configMap : ∃ cm, obs.configMap = some cm ∧ cm.epoch = E ∧ cm.members = members obs.cluster S
  holds : Holds obs S [⟨E, S⟩, ⟨nextEpoch E, S - 1⟩]

/-- A pod answers with the membership without pod `S - 1`, which has not drained yet, or some
other pod has been unavailable for too long. -/
def ShowsDrain (cfg : Config) (S E : Nat) (obs : Observation) : Prop :=
  ((∃ i < S, ∃ m, (obs.pod i).membership = some m ∧ m.epoch = nextEpoch E) ∧
    (obs.pod (S - 1)).drainedAt (nextEpoch E) = false) ∨
  ∃ i < S, overGrace cfg obs i (some (S - 1)) = true

/-- What is written of a status. -/
def Status.saved (st : Status) : KVStatus :=
  ⟨st.phase, st.drainStartedAt⟩

/-- The saved status over reconciles of one drain, each of which may lose its write. -/
inductive DrainRun (fmt : Formats) (cfg : Config) (S E : Nat) (shown : Observation → Prop)
    (start : KVStatus) : KVStatus → Prop
  | refl : DrainRun fmt cfg S E shown start start
  | reconcile {status : KVStatus} (hrun : DrainRun fmt cfg S E shown start status)
      (obs : Observation) (hdraining : Draining obs S E) (hstatus : obs.cluster.status = status)
      (hshown : shown obs) (d : Decision) (hplan : plan fmt cfg obs = some d) (lost : Bool) :
      DrainRun fmt cfg S E shown start (if lost then status else d.status.saved)

section

variable {fmt : Formats} {cfg : Config} {obs : Observation} {st : Status} {d : Decision}
  {S E : Nat} {t : Int}

theorem degraded_drainStartedAt (hsaved : obs.cluster.status.drainStartedAt = some t)
    (st : Status) (reason : Reason) (message : String) :
    (degraded cfg obs st reason message).status.drainStartedAt = some t := by
  simp [degraded, wait, hsaved]

theorem drain_drainStartedAt (fmt : Formats) (cfg : Config) (st : Status)
    (hsaved : obs.cluster.status.drainStartedAt = some t) {epoch : Nat}
    (hdrained : (obs.pod (S - 1)).drainedAt epoch = false) :
    (drain fmt cfg obs st S epoch).action.kind = .wait ∧
      (drain fmt cfg obs st S epoch).status.drainStartedAt = some t := by
  unfold drain
  simp only [hdrained, Bool.false_eq_true, if_false, hsaved, Option.getD_some]
  split <;> exact ⟨rfl, rfl⟩

theorem overGrace_of_exempt {i : Nat} {exempt exempt' : Option Nat}
    (h : overGrace cfg obs i exempt = true) (hexempt : exempt' = none ∨ exempt' = exempt) :
    overGrace cfg obs i exempt' = true := by
  rcases hexempt with rfl | rfl
  · simp only [overGrace, Bool.and_eq_true] at h ⊢
    exact ⟨⟨⟨⟨by simp, h.1.1.1.2⟩, h.1.1.2⟩, h.1.2⟩, h.2⟩
  · exact h

theorem not_overGrace {exempt : Option Nat} (h : unavailable fmt cfg obs st S exempt = none) :
    ∀ i < S, overGrace cfg obs i exempt ≠ true := by
  unfold unavailable at h
  split at h
  · next hfind =>
    exact fun i hi => List.find?_eq_none.mp hfind i (List.mem_range.mpr hi)
  · cases h

theorem prevEpoch_ne (e : Nat) : prevEpoch e ≠ e ∧ prevEpoch e ≠ nextEpoch e := by
  unfold prevEpoch nextEpoch epochLimit
  omega

theorem bootstrap_eq_degraded {sts : StatefulSetObs} {cm : ConfigMapObs}
    (hsts : obs.statefulSet = some sts) (hcm : obs.configMap = some cm)
    (h : bootstrap fmt cfg obs st = .error d) :
    ∃ reason message, d = degraded cfg obs st reason message := by
  unfold bootstrap at h
  rw [hcm] at h
  simp only [hsts] at h
  split at h
  · exact ⟨_, _, (Except.error.inj h).symm⟩
  · split at h
    · exact ⟨_, _, (Except.error.inj h).symm⟩
    · exact ⟨_, _, (Except.error.inj h).symm⟩
    · cases h

/-- An observation that shows the drain keeps its start. -/
theorem plan_drainStartedAt (hdraining : Draining obs S E) (hshown : ShowsDrain cfg S E obs)
    (hsaved : obs.cluster.status.drainStartedAt = some t) (h : plan fmt cfg obs = some d) :
    d.status.drainStartedAt = some t := by
  obtain ⟨sts, hsts, rfl⟩ := hdraining.statefulSet
  obtain ⟨cm, hcm, rfl, hmembers⟩ := hdraining.configMap
  rcases plan_cases h with ⟨st, hboot⟩ | ⟨sts', cm', c, hsts', hcm', hc, -, hrest⟩
  · obtain ⟨reason, message, rfl⟩ := bootstrap_eq_degraded hsts hcm hboot
    exact degraded_drainStartedAt hsaved ..
  obtain rfl := Option.some.inj (hsts.symm.trans hsts')
  obtain rfl := Option.some.inj (hcm.symm.trans hcm')
  obtain rfl : sts.replicas = c := members_inj (hmembers.symm.trans hc)
  rcases hrest with ⟨st, reason, message, rfl⟩ |
    ⟨st, views, placed, hviews, -, hplaced, hok, havailable, -, hstatus⟩
  · exact degraded_drainStartedAt hsaved ..
  rcases classify_cases hviews hplaced with ⟨_, rfl⟩ | ⟨hsize, -⟩ | ⟨-, hheld, _, -, rfl⟩ |
    ⟨-, hseen, -, _, -⟩ | ⟨-, -, -, rfl⟩ | ⟨hsize, -⟩
  · cases hok
  · omega
  · exfalso
    rcases hshown with ⟨⟨i, hi, m, hm, hepoch⟩, -⟩ | ⟨i, hi, hover⟩
    · obtain ⟨g, hg, hnow, -⟩ := hheld i hi m hm
      obtain rfl := List.mem_singleton.mp hg
      exact nextEpoch_ne _ (hepoch.symm.trans hnow)
    · exact not_overGrace havailable i hi (overGrace_of_exempt hover (Or.inl rfl))
  · exfalso
    obtain ⟨i, hi, m, hm, hprev⟩ := (hviews.seen_iff _).mp hseen
    obtain ⟨g, hg, hnow, -⟩ := hdraining.holds i hi m hm
    have hne := prevEpoch_ne cm.epoch
    rcases List.mem_pair.mp hg with rfl | rfl
    · exact hne.1 (hprev.1.symm.trans hnow)
    · exact hne.2 (hprev.1.symm.trans hnow)
  · rcases hshown with ⟨-, hdrained⟩ | ⟨i, hi, hover⟩
    · have hkept := drain_drainStartedAt fmt cfg st hsaved hdrained
      rw [hstatus, if_pos hkept.1]
      exact hkept.2
    · exact absurd hover (not_overGrace havailable i hi)
  · omega

/-- Where every observation shows the drain, each status reported keeps the saved start. -/
theorem drain_clock_kept {start status : KVStatus} (hstart : start.drainStartedAt = some t)
    (hrun : DrainRun fmt cfg S E (ShowsDrain cfg S E) start status) :
    status.drainStartedAt = some t ∧
      ∀ obs d, Draining obs S E → obs.cluster.status = status → ShowsDrain cfg S E obs →
        plan fmt cfg obs = some d → d.status.drainStartedAt = some t := by
  have hsaved : status.drainStartedAt = some t := by
    induction hrun with
    | refl => exact hstart
    | reconcile hrun obs hdraining hstatus hshown d hplan lost ih =>
      split_ifs
      · exact ih
      · exact plan_drainStartedAt hdraining hshown (hstatus ▸ ih) hplan
  refine ⟨hsaved, fun obs d hdraining hstatus hshown hplan => ?_⟩
  exact plan_drainStartedAt hdraining hshown (hstatus ▸ hsaved) hplan

end

/-! ## Clusters of one and two pods -/

def plainFormats : Formats :=
  ⟨fun s => "\"" ++ s ++ "\"", fun d => toString d⟩

def defaultConfig : Config :=
  ⟨120000000000, 2000000000, 10000000000, 60000000000⟩

def kv (replicas : Nat) (status : KVStatus) : KVCluster :=
  ⟨"kv", "default", ⟨replicas, "kvnode:dev", 1800000000000⟩, status⟩

/-- A healthy pod that holds a membership, with its handoff done. -/
def healthyPod (c : KVCluster) (i epoch size : Nat) : PodObs :=
  { ordinal := i, existing := true, ready := true, since := 1
    membership := some ⟨epoch, members c size, ⟨epoch, true, 0⟩⟩ }

/-- One pod at epoch 0, and two are wanted. -/
def loneObservation : Observation :=
  let c := kv 2 ⟨.ready, none⟩
  ⟨5, c, some ⟨1, 1, true, true⟩, some ⟨0, members c 1, ""⟩, [healthyPod c 0 0 1], [0]⟩

theorem listed_singleton {obs : Observation} {p : PodObs} (hpods : obs.pods = [p])
    (hordinal : p.ordinal = 0) (hexisting : p.existing = true) : Listed obs := by
  constructor
  · intro i q hq
    rw [hpods] at hq
    cases i with
    | zero =>
      cases hq
      exact hordinal
    | succ => cases hq
  · intro q hq _
    rw [hpods] at hq
    obtain rfl := List.mem_singleton.mp hq
    exact hexisting

/-- The ConfigMap is written for a second pod. -/
theorem disruptive_justified_lone : ∃ d, plan plainFormats defaultConfig loneObservation = some d ∧
    d.action.kind = .writeConfigMap ∧ d.action.epoch = 1 ∧
    d.action.members = members loneObservation.cluster 2 ∧ Stable loneObservation 1 0 := by
  have hkind : (plan plainFormats defaultConfig loneObservation).map (·.action.kind) =
      some .writeConfigMap := by
    decide +kernel
  obtain ⟨d, hd, hkind⟩ := Option.map_eq_some_iff.mp hkind
  have hepoch : ∀ cm, loneObservation.configMap = some cm → cm.epoch + 1 < epochLimit := by
    intro cm hcm
    cases hcm
    decide
  obtain ⟨-, hsts⟩ := disruptive_justified (listed_singleton rfl rfl rfl) hepoch hd
  obtain ⟨cm, hcm, hnext, hcases⟩ := (hsts _ rfl).1 hkind
  cases hcm
  refine ⟨d, hd, hkind, hnext, hcases.resolve_right ?_⟩
  rintro ⟨-, -, answer, hanswer, -⟩
  cases hanswer

/-- Pod 1 drains : it has not heard of the membership without it, which pod 0 holds. Pod 0
answers or does not. -/
def drainObservation (now : Int) (status : KVStatus) (answers : Bool) : Observation :=
  let c := kv 1 status
  let pod := healthyPod c 0 1 1
  ⟨now, c, some ⟨2, 2, true, true⟩, some ⟨0, members c 2, ""⟩,
    [if answers then pod else { pod with membership := none, unreachableSince := now },
      healthyPod c 1 0 2], [0, 1]⟩

theorem draining_drainObservation (now : Int) (status : KVStatus) (answers : Bool) :
    Draining (drainObservation now status answers) 2 0 where
  statefulSet := ⟨_, rfl, rfl⟩
  configMap := ⟨_, rfl, rfl, rfl⟩
  holds := by
    intro i hi m hm
    match i, answers with
    | 0, true =>
      cases hm
      exact ⟨⟨nextEpoch 0, 1⟩, by simp, rfl, rfl⟩
    | 0, false => cases hm
    | 1, _ =>
      cases hm
      exact ⟨⟨0, 2⟩, by simp, rfl, rfl⟩

/-- The status is saved once, the next write is lost, and the start stays at 7. -/
theorem drain_clock_kept_duo : ∃ status d,
    DrainRun plainFormats defaultConfig 2 0 (ShowsDrain defaultConfig 2 0) ⟨.unset, some 7⟩ status ∧
      status.phase = .scaling ∧
      plan plainFormats defaultConfig (drainObservation 70 status true) = some d ∧
      d.status.drainStartedAt = some 7 := by
  have hfirst : (plan plainFormats defaultConfig (drainObservation 50 ⟨.unset, some 7⟩ true)).map
      (·.status.saved) = some ⟨.scaling, some 7⟩ := by
    decide +kernel
  have hnext : ∀ now ∈ [60, 70], (plan plainFormats defaultConfig
      (drainObservation now ⟨.scaling, some 7⟩ true)).isSome := by
    decide +kernel
  have hshown : ∀ now status, ShowsDrain defaultConfig 2 0 (drainObservation now status true) :=
    fun now status => Or.inl ⟨⟨0, by decide, _, rfl, rfl⟩, rfl⟩
  obtain ⟨d₁, hd₁, hsaved⟩ := Option.map_eq_some_iff.mp hfirst
  obtain ⟨d₂, hd₂⟩ := Option.isSome_iff_exists.mp (hnext 60 (by decide))
  obtain ⟨d, hd⟩ := Option.isSome_iff_exists.mp (hnext 70 (by decide))
  have h1 := DrainRun.refl.reconcile _ (draining_drainObservation 50 ⟨.unset, some 7⟩ true) rfl
    (hshown _ _) d₁ hd₁ false
  rw [if_neg Bool.false_ne_true, hsaved] at h1
  have h2 := h1.reconcile _ (draining_drainObservation 60 _ true) rfl (hshown _ _) d₂ hd₂ true
  exact ⟨_, d, h2, rfl, hd, (drain_clock_kept rfl h2).2 _ d (draining_drainObservation 70 _ true)
    rfl (hshown _ _) hd⟩

/-- Pod 0 does not answer once : the start, at 7, is dropped, and the next observation that
shows the drain counts from itself. -/
theorem drain_clock_restarts : ∃ d d',
    Draining (drainObservation 50 ⟨.scaling, some 7⟩ false) 2 0 ∧
    plan plainFormats defaultConfig (drainObservation 50 ⟨.scaling, some 7⟩ false) = some d ∧
    d.status.drainStartedAt = none ∧
    Draining (drainObservation 100 d.status.saved true) 2 0 ∧
    plan plainFormats defaultConfig (drainObservation 100 d.status.saved true) = some d' ∧
    d'.status.drainStartedAt = some 100 := by
  have hblind : (plan plainFormats defaultConfig
      (drainObservation 50 ⟨.scaling, some 7⟩ false)).map (·.status.saved) =
      some ⟨.scaling, none⟩ := by
    decide +kernel
  have hnext : (plan plainFormats defaultConfig (drainObservation 100 ⟨.scaling, none⟩ true)).map
      (·.status.drainStartedAt) = some (some 100) := by
    decide +kernel
  obtain ⟨d, hd, hsaved⟩ := Option.map_eq_some_iff.mp hblind
  obtain ⟨d', hd', hstarted⟩ := Option.map_eq_some_iff.mp hnext
  refine ⟨d, d', draining_drainObservation .., hd, congrArg KVStatus.drainStartedAt hsaved,
    draining_drainObservation .., ?_, hstarted⟩
  rw [hsaved]
  exact hd'

end Planner

end DistributedKV
