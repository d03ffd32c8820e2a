import DistributedKV.Displacement
import DistributedKV.Membership

/-!
# Faults and what they should do

The failure tests capture a cluster as a `Topology` : its pods, its quorum settings and a
ring built from the pods as a node builds its own. A `Fault` takes pods down or cuts them off
from the other members. From the placement of a key alone, `expect` says what a request for
it gets during a fault, and `unreachable` how many of its replicas a coordinator cannot
reach.

A `Topology` carries what `init` checked : its quorums are in range, its pods are in order and
have IDs of their own, and its ring is the one a node builds (`ring_of_view`).
-/

namespace DistributedKV

namespace Chaos

/-- A request's operation. -/
inductive Op
  | put
  | get
  | other (name : String)
deriving DecidableEq

/-! ## Topologies -/

/-- The part of the nodes' configuration that says how long a fault takes to be noticed and
to heal, in nanoseconds. -/
structure Timing where
  heartbeatInterval : Int64
  heartbeatTimeout : Int64
  maxMissedHeartbeats : Int64
  maxReconnectBackoff : Int64

def Timing.detection (t : Timing) : Int64 :=
  t.maxMissedHeartbeats * t.heartbeatInterval + t.heartbeatTimeout

def Timing.recovery (t : Timing) : Int64 :=
  t.maxReconnectBackoff + 2 * t.heartbeatInterval + t.heartbeatTimeout

structure Pod where
  id : String
  address : String
  node : String
  zone : String

/-- Pod ID to address. -/
def membersOf (pods : List Pod) : Members :=
  pods.foldl (fun m p => m.insert p.id p.address) ∅

/-- Every pod has an ID of its own, an address and a zone; `seen` are the IDs before. -/
def checkPods : List String → List Pod → Option String
  | _, [] => none
  | seen, p :: pods =>
    if p.id = "" ∨ p.address = "" ∨ p.zone = "" then
      some ("pod \x7bID:" ++ p.id ++ " Address:" ++ p.address ++ " Node:" ++ p.node ++
        " Zone:" ++ p.zone ++ "\x7d: id, address and zone are required")
    else if p.id ∈ seen then some ("pod " ++ p.id ++ " listed twice")
    else checkPods (p.id :: seen) pods

/-- A cluster's membership, quorum settings and placement. -/
structure Topology where
  n : Nat
  w : Nat
  r : Nat
  timing : Timing
  pods : List Pod
  ring : HashRing
  one_le_w : 1 ≤ w
  one_le_r : 1 ≤ r
  w_le_n : w ≤ n
  r_le_n : r ≤ n
  n_le_pods : n ≤ pods.length
  sorted : pods.Pairwise (·.id ≤ ·.id)
  checked : checkPods [] pods = none
  ring_eq : HashRing.fromMembers defaultVirtualNodesPerPhysical (membersOf pods).keys = .ok ring

/-- `NewRing` : the ring of the members, provided the fingerprint is theirs. -/
def newRing (fp : Fingerprinter) (members : Members) (n : Nat) (fingerprint : String) :
    Except String HashRing :=
  let want := DistributedKV.fingerprint fp members n
  if fingerprint ≠ want then
    .error ("fingerprint " ++ fp.quote fingerprint ++ ", but these members with N=" ++ Nat.repr n ++
      " give " ++ fp.quote want ++ ": the nodes' ring is not the one this tool builds")
  else
    match HashRing.fromMembers defaultVirtualNodesPerPhysical members.keys with
    | .error .emptyMemberID => .error "hashring: member id must not be empty"
    | .error (.duplicateMemberID id) => .error ("hashring: duplicate member id " ++ fp.quote id)
    | .ok ring => .ok ring

theorem fromMembers_of_newRing {fp : Fingerprinter} {members : Members} {n : Nat}
    {fingerprint : String} {ring : HashRing} (h : newRing fp members n fingerprint = .ok ring) :
    HashRing.fromMembers defaultVirtualNodesPerPhysical members.keys = .ok ring := by
  unfold newRing at h
  dsimp only at h
  split at h
  · cases h
  · split at h
    · cases h
    · cases h
    · next hring =>
      obtain rfl := Except.ok.inj h
      exact hring

/-- The checks of `init`, and what it builds. -/
def Topology.init (fp : Fingerprinter) (pods : List Pod) (n w r : Int) (fingerprint : String)
    (timing : Timing) : Except String Topology :=
  if pods.length = 0 then .error "topology: no pods"
  else if hquorum : n < 1 ∨ w < 1 ∨ r < 1 ∨ w > n ∨ r > n ∨ n > pods.length then
    .error ("topology: N=" ++ Int.repr n ++ " W=" ++ Int.repr w ++ " R=" ++ Int.repr r ++
      " with " ++ Nat.repr pods.length ++ " pods: want 1 <= W, R <= N <= pods")
  else
    let sorted := pods.insertionSort (·.id ≤ ·.id)
    match hchecked : checkPods [] sorted with
    | some err => .error ("topology: " ++ err)
    | none =>
      match hring : newRing fp (membersOf sorted) n.toNat fingerprint with
      | .error err => .error ("topology: " ++ err)
      | .ok ring =>
        .ok
          { n := n.toNat, w := w.toNat, r := r.toNat
            timing := timing, pods := sorted, ring := ring
            one_le_w := by omega
            one_le_r := by omega
            w_le_n := by omega
            r_le_n := by omega
            n_le_pods := by rw [List.length_insertionSort]; omega
            sorted := List.pairwise_insertionSort _ _
            checked := hchecked
            ring_eq := fromMembers_of_newRing hring }

namespace Topology

variable (t : Topology)

def pod (id : String) : Option Pod :=
  t.pods.find? (·.id = id)

/-- A zone's pods in ID order, if there is such a zone. -/
def zones (zone : String) : Option (List String) :=
  let pods := (t.pods.filter (·.zone = zone)).map Pod.id
  if pods = [] then none else some pods

def sortedZones : List String :=
  ((t.pods.map Pod.zone).insertionSort (· ≤ ·)).destutter (· ≠ ·)

/-- A key's preference list. -/
def replicas (key : String) : List String :=
  t.ring.getPreferenceList key t.n

/-- The quorum an operation needs. -/
def need (op : Op) : Nat :=
  if op = .get then t.r else t.w

end Topology

/-! ## Faults -/

inductive FaultKind
  | none
  /-- Unreachable from everyone, clients included. -/
  | down
  /-- Cut off from the other members; clients reach both sides. -/
  | partition
deriving DecidableEq

def FaultKind.name : FaultKind → String
  | .none => "none"
  | .down => "down"
  | .partition => "partition"

structure Fault where
  kind : FaultKind
  pods : List String
deriving DecidableEq

def Fault.text (f : Fault) : String :=
  if f.kind = .none then f.kind.name else f.kind.name ++ ":" ++ ",".intercalate f.pods

/-- `strings.Cut` at the first colon. -/
def cutColon (spec : String) : String × String :=
  (String.ofList (spec.toList.takeWhile (· ≠ ':')),
    String.ofList ((spec.toList.dropWhile (· ≠ ':')).drop 1))

/-- `strings.Split` at the commas. -/
def splitCommas (arg : String) : List String :=
  (arg.toList.splitOn ',').map String.ofList

/-- The last checks of `ParseFault`, on sorted pods without repetition. -/
def checkFault (quote : String → String) (spec : String) (t : Topology) (kind : FaultKind)
    (pods : List String) : Except String Fault :=
  let pods := (pods.insertionSort (· ≤ ·)).destutter (· ≠ ·)
  match pods.find? fun id => (t.pod id).isNone with
  | some id => .error ("fault " ++ quote spec ++ ": no member " ++ quote id)
  | none =>
    if pods.length = 0 ∨ pods.length = t.pods.length then
      .error ("fault " ++ quote spec ++ ": must name some members, not all")
    else .ok ⟨kind, pods⟩

def parseFault (quote : String → String) (spec : String) (t : Topology) : Except String Fault :=
  let (kind, arg) := cutColon spec
  let zoneFault (k : FaultKind) : Except String Fault :=
    match t.zones arg with
    | none => .error ("fault " ++ quote spec ++ ": no zone " ++ quote arg ++ " (zones: " ++
        ", ".intercalate t.sortedZones ++ ")")
    | some pods => checkFault quote spec t k pods
  if kind = "none" then
    if arg ≠ "" then .error ("fault " ++ quote spec ++ ": none takes no pods")
    else .ok ⟨.none, []⟩
  else if kind = "down" then checkFault quote spec t .down (splitCommas arg)
  else if kind = "partition" then checkFault quote spec t .partition (splitCommas arg)
  else if kind = "zone" then zoneFault .down
  else if kind = "partition-zone" then zoneFault .partition
  else .error ("fault " ++ quote spec ++
    ": want none, or down, zone, partition or partition-zone with their pods or zone")

/-! ## Predictions -/

/-- What a request is predicted to get. -/
inductive Outcome
  | ok
  /-- Too few replicas in reach. -/
  | fail
  /-- The pod the client sent it to is down. -/
  | targetDown
  /-- The target is not known, and the outcome depends on it. -/
  | unknowable
deriving DecidableEq

namespace Topology

variable (t : Topology)

/-- The replicas of the key on one side : among the fault's pods or not. -/
def reach (f : Fault) (key : String) (side : Bool) : Nat :=
  (t.replicas key).countP fun r => decide (r ∈ f.pods) == side

def outcomeOf (op : Op) (n : Nat) : Outcome :=
  if n ≥ t.need op then .ok else .fail

/-- `Expect`. An empty target is a request through the Service. -/
def expect (f : Fault) (op : Op) (key target : String) : Outcome :=
  match f.kind with
  | .none => .ok
  | .down =>
    if target ≠ "" ∧ target ∈ f.pods then .targetDown
    else t.outcomeOf op (t.reach f key false)
  | .partition =>
    if target = "" then
      let a := t.outcomeOf op (t.reach f key true)
      let b := t.outcomeOf op (t.reach f key false)
      if a = b then a else .unknowable
    else t.outcomeOf op (t.reach f key (decide (target ∈ f.pods)))

/-- `Unreachable` : -1 where the side is not known. -/
def unreachable (f : Fault) (key target : String) : Int :=
  if f.kind = .none then 0
  else if f.kind = .partition ∧ target = "" then -1
  else
    let targetIn := decide (f.kind = .partition ∧ target ∈ f.pods)
    ((t.replicas key).countP fun r =>
      (decide (f.kind = .down) && decide (r ∈ f.pods)) ||
        (decide (f.kind = .partition) && (decide (r ∈ f.pods) != targetIn)) : Nat)

/-- What a node of the topology works with. -/
def view : View :=
  ⟨t.ring, ⟨t.n, t.w, t.r⟩⟩

/-- The ring is the one a node builds from the same members. -/
theorem ring_of_view {fp : Fingerprinter} {epoch n : Nat} {v : ClusterView}
    (hv : buildView fp epoch (membersOf t.pods) n = .ok v) : v.ring = t.ring :=
  Except.ok.inj ((ring_of_buildView hv).symm.trans t.ring_eq)

theorem exists_view (fp : Fingerprinter) (epoch n : Nat) :
    ∃ v, buildView fp epoch (membersOf t.pods) n = .ok v := by
  refine ⟨⟨epoch, fingerprint fp (membersOf t.pods) n, membersOf t.pods, t.ring⟩, ?_⟩
  rw [buildView, t.ring_eq]

/-- No pod has an empty ID. -/
theorem id_ne_empty {seen : List String} :
    ∀ {pods : List Pod}, checkPods seen pods = none → ∀ p ∈ pods, p.id ≠ ""
  | [], _, p, hp => absurd hp List.not_mem_nil
  | q :: pods, h, p, hp => by
    unfold checkPods at h
    split_ifs at h with hfields hseen
    rcases List.mem_cons.mp hp with rfl | hp
    · exact fun hid => hfields (Or.inl hid)
    · exact id_ne_empty h p hp

theorem ne_empty_of_pod {id : String} (h : (t.pod id).isSome) : id ≠ "" := by
  obtain ⟨p, hp⟩ := Option.isSome_iff_exists.mp h
  have hid : p.id = id := by simpa using List.find?_some hp
  exact hid ▸ id_ne_empty t.checked p (List.mem_of_find?_eq_some hp)

end Topology

/-! ## Three pods -/

def threePodList : List Pod :=
  [⟨"A", "a:1", "m1", "z1"⟩, ⟨"B", "b:1", "m2", "z2"⟩, ⟨"C", "c:1", "m3", "z3"⟩]

theorem exists_threePodRing : ∃ ring, HashRing.fromMembers defaultVirtualNodesPerPhysical
    (membersOf threePodList).keys = .ok ring :=
  HashRing.exists_fromMembers _ _ (by decide +kernel) (by decide +kernel)

/-- Three pods in three zones, every quorum two of three. The ring is not computed. -/
noncomputable def threePods : Topology where
  n := 3
  w := 2
  r := 2
  timing := ⟨1000000000, 1000000000, 3, 5000000000⟩
  pods := threePodList
  ring := exists_threePodRing.choose
  one_le_w := by decide
  one_le_r := by decide
  w_le_n := by decide
  r_le_n := by decide
  n_le_pods := by decide
  sorted := by decide +kernel
  checked := by decide +kernel
  ring_eq := exists_threePodRing.choose_spec

end Chaos

end DistributedKV
