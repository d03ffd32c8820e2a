import DistributedKV.Lives
import DistributedKV.Planner

/-!
# The node configuration and its two readers

A node decodes the text of its configuration strictly, puts its own name in and validates it
(`load`). The operator reads the membership back from the same text, and from nothing else in
it (`parseConfigMap`). Both leave the decoding to a YAML library, each to its own version of
it, so decoding is a parameter of both. What it makes of a text is assumed only of a text that
is a whole configuration written out in block style (`Settings.ReadBy`).

`validate_eq_none_iff` says which configurations pass, and such a one is a configuration that
the model of a node starts with (`startConfig`).
-/

/-!
## Texts in block style

A small part of YAML : a text is a list of lines, each with its indentation, the dash of a
list item if it starts one, a key, and the scalar behind it, unless the key heads what is
indented below it. Plain scalars are of characters that mean nothing else to a YAML reader.
-/

namespace BlockText

/-- A plain scalar, or one in quotes. -/
inductive Scalar
  | plain (text : String)
  | quoted (text : String)
deriving DecidableEq

/-- A character of a plain scalar. -/
def plainChar (c : Char) : Bool :=
  c.isAlphanum || c == '.' || c == '-' || c == ':' || c == '/'

/-- A text that needs no quotes : it does not start like a list item and does not end like a
key. -/
def plainText (cs : List Char) : Bool :=
  cs.all plainChar && cs.head?.any (fun c => c.isAlphanum || c == '/') &&
    cs.getLast?.any (· != ':')

/-- A character that stands for itself between quotes. -/
def quotedChar (c : Char) : Bool :=
  plainChar c || c == ' '

structure Line where
  indent : Nat
  dash : Bool
  key : String
  value : Option Scalar

def Scalar.print : Scalar → List Char
  | plain text => text.toList
  | quoted text => '"' :: (text.toList ++ ['"'])

def Line.print (l : Line) : List Char :=
  List.replicate l.indent ' ' ++ ((if l.dash then ['-', ' '] else []) ++
    (l.key.toList ++ ':' :: (l.value.elim [] fun s => ' ' :: s.print)))

def print (ls : List Line) : String :=
  String.ofList (ls.flatMap fun l => l.print ++ ['\n'])

theorem print_append (ls ls' : List Line) : print (ls ++ ls') = print ls ++ print ls' := by
  refine String.toList_inj.mp ?_
  simp [print]

end BlockText

namespace DistributedKV

open BlockText (Scalar Line plainText quotedChar)
open Planner (Formats ConfigMapObs)

/-! ## The configuration -/

/-- One node in `cluster.members`. -/
structure NodeConfig.Member where
  id : String
  address : String
deriving DecidableEq

structure NodeConfig.Listen where
  grpc : String
  http : String

structure NodeConfig.Cluster where
  n : Int
  w : Int
  r : Int
  epoch : Nat
  members : List NodeConfig.Member

structure NodeConfig.Storage where
  memtableBytes : Int
  groupCommit : Option Bool

/-- Durations are in nanoseconds. -/
structure NodeConfig.Intervals where
  compaction : Int
  antiEntropy : Int
  hintDelivery : Int
  heartbeat : Int

structure NodeConfig.Timeouts where
  replication : Int
  maxReconnectBackoff : Int
  shutdown : Int
  heartbeat : Int

structure NodeConfig where
  nodeID : String
  listen : NodeConfig.Listen
  dataDir : String
  cluster : NodeConfig.Cluster
  storage : NodeConfig.Storage
  intervals : NodeConfig.Intervals
  timeouts : NodeConfig.Timeouts
  /-- `health.maxMissedHeartbeats`. -/
  maxMissedHeartbeats : Int

namespace NodeConfig

/-- On unless it is set to false. -/
def Storage.groupCommitOn (s : Storage) : Bool :=
  s.groupCommit.getD true

def applyDefaults (cfg : NodeConfig) : NodeConfig :=
  { cfg with
    intervals := { cfg.intervals with
      heartbeat := if cfg.intervals.heartbeat = 0 then 1000000000 else cfg.intervals.heartbeat }
    timeouts := { cfg.timeouts with
      heartbeat := if cfg.timeouts.heartbeat = 0 then 500000000 else cfg.timeouts.heartbeat }
    maxMissedHeartbeats := if cfg.maxMissedHeartbeats = 0 then 3 else cfg.maxMissedHeartbeats }

def Member.pair (m : Member) : String × String :=
  (m.id, m.address)

/-- Every member's address by ID. Of two entries for one ID the later one counts. -/
def memberAddrs (cfg : NodeConfig) : Members :=
  Std.ExtTreeMap.ofList (cfg.cluster.members.map Member.pair)

/-! ## Validation -/

section

variable (fmt : Formats)

/-- The loop over the members : whether the node itself is among them. `ids` and `addrs` have
been seen. -/
def checkMembers (nodeID : String) (ids addrs : List String) (selfFound : Bool) :
    List Member → Except String Bool
  | [] => .ok selfFound
  | m :: rest =>
    if '#' ∈ m.id.toList then
      .error ("config: cluster.members: id " ++ fmt.quote m.id ++ " must not contain " ++
        fmt.quote "#" ++ " (the clock-ID separator)")
    else if m.id ∈ ids then .error ("config: cluster.members: duplicate id " ++ fmt.quote m.id)
    else if m.address ∈ addrs then
      .error ("config: cluster.members: duplicate address " ++ fmt.quote m.address)
    else checkMembers nodeID (m.id :: ids) (m.address :: addrs)
      (if m.id = nodeID then true else selfFound) rest

def durations (cfg : NodeConfig) : List (String × Int) :=
  [("intervals.compaction", cfg.intervals.compaction),
   ("intervals.antiEntropy", cfg.intervals.antiEntropy),
   ("intervals.hintDelivery", cfg.intervals.hintDelivery),
   ("timeouts.replication", cfg.timeouts.replication),
   ("timeouts.maxReconnectBackoff", cfg.timeouts.maxReconnectBackoff),
   ("timeouts.shutdown", cfg.timeouts.shutdown),
   ("intervals.heartbeat", cfg.intervals.heartbeat),
   ("timeouts.heartbeat", cfg.timeouts.heartbeat)]

/-- What follows the checks of the IDs. Go visits the durations in any order; here it is the
order they are written in. -/
def validateSettings (cfg : NodeConfig) : Option String :=
  let n := cfg.cluster.n
  let w := cfg.cluster.w
  let r := cfg.cluster.r
  if cfg.dataDir = "" then some "config: dataDir is required"
  else if w < 1 ∨ w > n then
    some ("config: cluster.w must satisfy 1 <= w <= n, got w=" ++ toString w ++ " n=" ++
      toString n)
  else if r < 1 ∨ r > n then
    some ("config: cluster.r must satisfy 1 <= r <= n, got r=" ++ toString r ++ " n=" ++
      toString n)
  else if n > cfg.cluster.members.length then
    some ("config: cluster.n (" ++ toString n ++ ") exceeds len(cluster.members) (" ++
      toString cfg.cluster.members.length ++ ")")
  else match cfg.durations.find? fun d => d.2 ≤ 0 with
  | some d => some ("config: " ++ d.1 ++ " must be > 0, got " ++ fmt.duration d.2)
  | none =>
    if cfg.timeouts.heartbeat ≥ cfg.intervals.heartbeat then
      some ("config: timeouts.heartbeat (" ++ fmt.duration cfg.timeouts.heartbeat ++
        ") must be shorter than intervals.heartbeat (" ++ fmt.duration cfg.intervals.heartbeat ++
        ")")
    else if cfg.maxMissedHeartbeats ≤ 0 then
      some ("config: health.maxMissedHeartbeats must be > 0, got " ++
        toString cfg.maxMissedHeartbeats)
    else if cfg.storage.memtableBytes ≤ 0 then
      some ("config: storage.memtableBytes must be > 0, got " ++
        toString cfg.storage.memtableBytes)
    else none

def validate (cfg : NodeConfig) : Option String :=
  if cfg.nodeID = "" then some "config: nodeId is required (or set KV_NODE_ID)"
  else if '#' ∈ cfg.nodeID.toList then
    some ("config: nodeId " ++ fmt.quote cfg.nodeID ++ " must not contain " ++ fmt.quote "#" ++
      " (the clock-ID separator)")
  else match checkMembers fmt cfg.nodeID [] [] false cfg.cluster.members with
  | .error e => some e
  | .ok false => some ("config: nodeId " ++ fmt.quote cfg.nodeID ++ " is not in cluster.members")
  | .ok true => cfg.validateSettings fmt

end

/-- The rules `validate` checks. -/
structure Valid (cfg : NodeConfig) : Prop where
  nodeID_ne : cfg.nodeID ≠ ""
  nodeID_sep : '#' ∉ cfg.nodeID.toList
  self_mem : cfg.nodeID ∈ cfg.cluster.members.map Member.id
  ids_sep : ∀ m ∈ cfg.cluster.members, '#' ∉ m.id.toList
  ids_nodup : (cfg.cluster.members.map Member.id).Nodup
  addrs_nodup : (cfg.cluster.members.map Member.address).Nodup
  dataDir_ne : cfg.dataDir ≠ ""
  write_quorum : 1 ≤ cfg.cluster.w ∧ cfg.cluster.w ≤ cfg.cluster.n
  read_quorum : 1 ≤ cfg.cluster.r ∧ cfg.cluster.r ≤ cfg.cluster.n
  enough : cfg.cluster.n ≤ cfg.cluster.members.length
  durations_pos : ∀ d ∈ cfg.durations, 0 < d.2
  heartbeat_lt : cfg.timeouts.heartbeat < cfg.intervals.heartbeat
  missed_pos : 0 < cfg.maxMissedHeartbeats
  memtable_pos : 0 < cfg.storage.memtableBytes

/-! ## Configurations in block style -/

inductive TimeUnit
  | ms
  | s
  | m
deriving DecidableEq

namespace TimeUnit

def text : TimeUnit → String
  | ms => "ms"
  | s => "s"
  | m => "m"

def nanoseconds : TimeUnit → Nat
  | ms => 1000000
  | s => 1000000000
  | m => 60000000000

end TimeUnit

/-- A duration as it is written, with one unit. -/
structure Duration where
  count : Nat
  unit : TimeUnit

namespace Duration

def text (d : Duration) : String :=
  Nat.repr d.count ++ d.unit.text

def nanoseconds (d : Duration) : Nat :=
  d.count * d.unit.nanoseconds

end Duration

/-- A configuration as it is written out, with every field but `nodeId`. -/
structure Settings where
  grpc : String
  http : String
  dataDir : String
  n : Nat
  w : Nat
  r : Nat
  epoch : Nat
  members : List Member
  memtableBytes : Nat
  groupCommit : Bool
  compaction : Duration
  antiEntropy : Duration
  hintDelivery : Duration
  heartbeat : Duration
  replication : Duration
  maxReconnectBackoff : Duration
  shutdown : Duration
  heartbeatTimeout : Duration
  maxMissedHeartbeats : Nat

namespace Settings

def config (s : Settings) : NodeConfig where
  nodeID := ""
  listen := ⟨s.grpc, s.http⟩
  dataDir := s.dataDir
  cluster := ⟨s.n, s.w, s.r, s.epoch, s.members⟩
  storage := ⟨s.memtableBytes, some s.groupCommit⟩
  intervals := ⟨s.compaction.nanoseconds, s.antiEntropy.nanoseconds, s.hintDelivery.nanoseconds,
    s.heartbeat.nanoseconds⟩
  timeouts := ⟨s.replication.nanoseconds, s.maxReconnectBackoff.nanoseconds,
    s.shutdown.nanoseconds, s.heartbeatTimeout.nanoseconds⟩
  maxMissedHeartbeats := s.maxMissedHeartbeats

def top (key : String) (value : Option Scalar) : Line :=
  ⟨0, false, key, value⟩

def field (key : String) (value : Option Scalar) : Line :=
  ⟨2, false, key, value⟩

def decimal (key : String) (i : Nat) : Line :=
  field key (some (.plain (Nat.repr i)))

def duration (key : String) (d : Duration) : Line :=
  field key (some (.plain d.text))

def memberLines (m : Member) : List Line :=
  [⟨4, true, "id", some (.plain m.id)⟩, ⟨6, false, "address", some (.plain m.address)⟩]

/-- The lines above the members, the addresses to listen on in quotes. -/
def linesAbove (s : Settings) : List Line :=
  [top "listen" none, field "grpc" (some (.quoted s.grpc)), field "http" (some (.quoted s.http)),
   top "dataDir" (some (.plain s.dataDir)),
   top "cluster" none, decimal "n" s.n, decimal "w" s.w, decimal "r" s.r, decimal "epoch" s.epoch,
   field "members" none]

def linesBelow (s : Settings) : List Line :=
  [top "storage" none, decimal "memtableBytes" s.memtableBytes,
   field "groupCommit" (some (.plain (if s.groupCommit then "true" else "false"))),
   top "intervals" none, duration "compaction" s.compaction, duration "antiEntropy" s.antiEntropy,
   duration "hintDelivery" s.hintDelivery, duration "heartbeat" s.heartbeat,
   top "timeouts" none, duration "replication" s.replication,
   duration "maxReconnectBackoff" s.maxReconnectBackoff, duration "shutdown" s.shutdown,
   duration "heartbeat" s.heartbeatTimeout,
   top "health" none, decimal "maxMissedHeartbeats" s.maxMissedHeartbeats]

/-- The sections in the order of the fields. -/
def text (s : Settings) : String :=
  BlockText.print (s.linesAbove ++ (s.members.flatMap memberLines ++ s.linesBelow))

/-- A text that stands for itself without quotes. The texts of null stand for no text. -/
def Text (t : String) : Prop :=
  plainText t.toList ∧ t ∉ ["null", "Null", "NULL"]

instance (t : String) : Decidable (Text t) :=
  inferInstanceAs (Decidable (_ ∧ _))

def durations (s : Settings) : List Duration :=
  [s.compaction, s.antiEntropy, s.hintDelivery, s.heartbeat, s.replication,
    s.maxReconnectBackoff, s.shutdown, s.heartbeatTimeout]

/-- Settings whose texts need no escapes and whose numbers are in the range of their types. -/
structure Fits (s : Settings) : Prop where
  listen : s.grpc.toList.all quotedChar ∧ s.http.toList.all quotedChar
  dataDir : Text s.dataDir
  members : ∀ m ∈ s.members, Text m.id ∧ Text m.address
  ints : ∀ i ∈ [s.n, s.w, s.r, s.memtableBytes, s.maxMissedHeartbeats], i < 2 ^ 63
  epoch : s.epoch < 2 ^ 64
  durations : ∀ d ∈ s.durations, d.nanoseconds < 2 ^ 63

/-- What is assumed of a version of the YAML library that decodes texts into some Go type.
`meaning` is what the type keeps of a configuration. From the text of these settings the
library gets that : a mapping into the fields of the same names, ignoring others if it is not
strict; a plain scalar that is not a null, or one in quotes, into a string; a decimal number
into an integer; a number with a unit into a duration. -/
def ReadBy {α : Type} (decode : String → Except String α) (meaning : Settings → α)
    (s : Settings) : Prop :=
  s.Fits → decode s.text = .ok (meaning s)

/-- The part of a configuration that the operator decodes. -/
def membership (s : Settings) : Nat × List Member :=
  (s.epoch, s.members)

end Settings

/-! ## Loading -/

inductive ConfigError
  | parse (problem : String)
  | invalid (message : String)

/-- `Load` of a file with this text. `decode` is the library's strict decoding into the whole
configuration, with the error's text where it fails, and `envID` is `KV_NODE_ID`, empty when it
is not set. -/
def load (decode : String → Except String NodeConfig) (fmt : Formats) (envID text : String) :
    Except ConfigError NodeConfig :=
  match decode text with
  | .error problem => .error (.parse problem)
  | .ok decoded =>
    let cfg := applyDefaults (if envID ≠ "" then { decoded with nodeID := envID } else decoded)
    match cfg.validate fmt with
    | some e => .error (.invalid e)
    | none => .ok cfg

/-! ## The operator's reading -/

/-- The loop over the members it has decoded. -/
def collectMembers (name : String) (members : Members) : List Member → Except String Members
  | [] => .ok members
  | m :: rest =>
    if m.id ∈ members then
      .error ("ConfigMap " ++ name ++ ": member " ++ m.id ++ " is listed twice")
    else collectMembers name (members.insert m.id m.address) rest

/-- `decode` is the library's decoding of the epoch and the members, whatever else there is. -/
def parseConfigMap (decode : String → Except String (Nat × List Member)) (name : String)
    (data : Option String) : Except String (Nat × Members) :=
  match data with
  | none => .error ("ConfigMap " ++ name ++ " has no config.yaml")
  | some text =>
    match decode text with
    | .error problem =>
      .error ("ConfigMap " ++ name ++ ": config.yaml does not parse: " ++ problem)
    | .ok (epoch, members) => (collectMembers name ∅ members).map fun m => (epoch, m)

/-- What `observe` makes of the ConfigMap. -/
def configMapObs (decode : String → Except String (Nat × List Member)) (name : String)
    (data : Option String) : ConfigMapObs :=
  match parseConfigMap decode name data with
  | .error e => ⟨0, ∅, e⟩
  | .ok (epoch, members) => ⟨epoch, members, ""⟩

/-! ## What validation makes sure of -/

section

variable {fmt : Formats} {cfg : NodeConfig}

/-- What the loop over the members checks, given what it has seen. -/
def Separate (ids addrs : List String) (ms : List Member) : Prop :=
  (∀ m ∈ ms, '#' ∉ m.id.toList ∧ m.id ∉ ids ∧ m.address ∉ addrs) ∧
    (ms.map Member.id).Nodup ∧ (ms.map Member.address).Nodup

/-- The members are separate if the first is new and the others are separate from it. -/
theorem separate_cons {ids addrs : List String} {m : Member} {ms : List Member} :
    Separate ids addrs (m :: ms) ↔ ('#' ∉ m.id.toList ∧ m.id ∉ ids ∧ m.address ∉ addrs) ∧
      Separate (m.id :: ids) (m.address :: addrs) ms := by
  unfold Separate
  rw [List.forall_mem_cons]
  simp only [List.map_cons, List.nodup_cons, List.mem_map, List.mem_cons, not_or, not_exists,
    not_and]
  constructor
  · rintro ⟨⟨hm, hms⟩, ⟨hid, hids⟩, haddr, haddrs⟩
    exact ⟨hm, fun m' hm' => ⟨(hms m' hm').1, ⟨hid m' hm', (hms m' hm').2.1⟩, haddr m' hm',
      (hms m' hm').2.2⟩, hids, haddrs⟩
  · rintro ⟨hm, hms, hids, haddrs⟩
    exact ⟨⟨hm, fun m' hm' => ⟨(hms m' hm').1, (hms m' hm').2.1.2, (hms m' hm').2.2.2⟩⟩,
      ⟨fun m' hm' => (hms m' hm').2.1.1, hids⟩, fun m' hm' => (hms m' hm').2.2.1, haddrs⟩

/-- The loop ends without an error if the members are separate from each other and from those
it has seen, and then says whether the node itself was among them. -/
theorem checkMembers_eq_ok_iff {nodeID : String} : ∀ {ms : List Member} {ids addrs : List String}
    {selfFound b : Bool}, checkMembers fmt nodeID ids addrs selfFound ms = .ok b ↔
      Separate ids addrs ms ∧ b = (selfFound || ms.any fun m => m.id = nodeID)
  | [], ids, addrs, selfFound, b => by
    simp [checkMembers, Separate, eq_comm]
  | m :: ms, ids, addrs, selfFound, b => by
    have hself : ((if m.id = nodeID then true else selfFound) || ms.any fun m => m.id = nodeID) =
        (selfFound || (m :: ms).any fun m => m.id = nodeID) := by
      by_cases hm : m.id = nodeID <;> simp [hm]
    rw [checkMembers, separate_cons]
    by_cases hsep : '#' ∈ m.id.toList
    · simp [hsep]
    by_cases hid : m.id ∈ ids
    · simp [hsep, hid]
    by_cases haddr : m.address ∈ addrs
    · simp [hsep, hid, haddr]
    rw [if_neg hsep, if_neg hid, if_neg haddr, checkMembers_eq_ok_iff, hself]
    simp [hsep, hid, haddr]

/-- A check passes if it finds nothing and the checks after it pass. -/
theorem ite_error_eq_none {p : Prop} [Decidable p] {error : String} {rest : Option String} :
    (if p then some error else rest) = none ↔ ¬p ∧ rest = none := by
  split <;> simp [*]

/-- The checks behind those of the IDs, one conjunct for each. -/
theorem validateSettings_eq_none_iff : cfg.validateSettings fmt = none ↔
    cfg.dataDir ≠ "" ∧ (1 ≤ cfg.cluster.w ∧ cfg.cluster.w ≤ cfg.cluster.n) ∧
      (1 ≤ cfg.cluster.r ∧ cfg.cluster.r ≤ cfg.cluster.n) ∧
      cfg.cluster.n ≤ cfg.cluster.members.length ∧ (∀ d ∈ cfg.durations, 0 < d.2) ∧
      cfg.timeouts.heartbeat < cfg.intervals.heartbeat ∧ 0 < cfg.maxMissedHeartbeats ∧
      0 < cfg.storage.memtableBytes := by
  simp only [validateSettings, ite_error_eq_none]
  cases hfind : cfg.durations.find? fun d => d.2 ≤ 0 with
  | some d =>
    have hd : ¬0 < d.2 := by simpa using List.find?_some hfind
    simp only [reduceCtorEq, and_false, false_iff]
    rintro ⟨-, -, -, -, hpos, -⟩
    exact hd (hpos d (List.mem_of_find?_eq_some hfind))
  | none =>
    have hpos : ∀ d ∈ cfg.durations, 0 < d.2 := by simpa using hfind
    simp only [ite_error_eq_none]
    constructor
    · rintro ⟨hdir, hw, hr, hn, hbeat, hmissed, hbytes, -⟩
      exact ⟨hdir, by omega, by omega, by omega, hpos, by omega, by omega, by omega⟩
    · rintro ⟨hdir, hw, hr, hn, -, hbeat, hmissed, hbytes⟩
      exact ⟨hdir, by omega, by omega, by omega, by omega, by omega, by omega, trivial⟩

/-- `validate` accepts the configurations that keep its rules, and no others. -/
theorem validate_eq_none_iff : cfg.validate fmt = none ↔ Valid cfg := by
  rw [validate, ite_error_eq_none, ite_error_eq_none]
  constructor
  · rintro ⟨hid, hsep, hrest⟩
    split at hrest
    · cases hrest
    · cases hrest
    · next hok =>
      obtain ⟨hfine, hself⟩ := checkMembers_eq_ok_iff.mp hok
      obtain ⟨hdir, hw, hr, hn, hd, hbeat, hmissed, hbytes⟩ :=
        validateSettings_eq_none_iff.mp hrest
      exact ⟨hid, hsep, by simpa using hself, fun m hm => (hfine.1 m hm).1, hfine.2.1, hfine.2.2,
        hdir, hw, hr, hn, hd, hbeat, hmissed, hbytes⟩
  · intro h
    have hok : checkMembers fmt cfg.nodeID [] [] false cfg.cluster.members = .ok true :=
      checkMembers_eq_ok_iff.mpr ⟨⟨fun m hm => ⟨h.ids_sep m hm, by simp, by simp⟩, h.ids_nodup,
        h.addrs_nodup⟩, by simpa using h.self_mem⟩
    rw [hok]
    exact ⟨h.nodeID_ne, h.nodeID_sep, validateSettings_eq_none_iff.mpr ⟨h.dataDir_ne,
      h.write_quorum, h.read_quorum, h.enough, h.durations_pos, h.heartbeat_lt, h.missed_pos,
      h.memtable_pos⟩⟩

/-- A valid configuration leaves nothing to the defaults. -/
theorem Valid.applyDefaults_eq (h : Valid cfg) : cfg.applyDefaults = cfg := by
  have hbeat : 0 < cfg.intervals.heartbeat :=
    h.durations_pos ("intervals.heartbeat", _) (by simp [durations])
  have hping : 0 < cfg.timeouts.heartbeat :=
    h.durations_pos ("timeouts.heartbeat", _) (by simp [durations])
  simp [applyDefaults, hbeat.ne', hping.ne', h.missed_pos.ne']

/-! ## A validated configuration starts a node -/

/-- Where no ID is listed twice, the map has the members listed and no others. -/
theorem getElem?_addrs {ms : List Member} (h : (ms.map Member.id).Nodup) {id addr : String} :
    (Std.ExtTreeMap.ofList (ms.map Member.pair) : Members)[id]? = some addr ↔
      ⟨id, addr⟩ ∈ ms := by
  have hfst : (ms.map Member.pair).map Prod.fst = ms.map Member.id := by
    simp [Member.pair, Function.comp_def]
  have hpair : (ms.map Member.pair).Pairwise fun a b => ¬compare a.1 b.1 = .eq := by
    rw [List.Nodup, List.pairwise_map] at h
    rw [List.pairwise_map]
    exact h.imp fun hne => by simpa [Member.pair] using hne
  by_cases hid : id ∈ ms.map Member.id
  · obtain ⟨m, hm, rfl⟩ := List.mem_map.mp hid
    rw [Std.ExtTreeMap.getElem?_ofList_of_mem (by simp) hpair (List.mem_map_of_mem hm)]
    constructor
    · rintro ⟨⟩
      exact hm
    · intro hmem
      have heq := List.inj_on_of_nodup_map h hm hmem rfl
      rw [heq]
  · rw [Std.ExtTreeMap.getElem?_ofList_of_contains_eq_false (by rw [hfst]; simpa using hid)]
    simp only [reduceCtorEq, false_iff]
    exact fun hmem => hid (List.mem_map_of_mem hmem)

/-- The node itself is one of the members. -/
theorem Valid.self_mem_addrs (h : Valid cfg) : cfg.nodeID ∈ cfg.memberAddrs := by
  obtain ⟨m, hm, hid⟩ := List.mem_map.mp h.self_mem
  rw [Std.ExtTreeMap.mem_iff_isSome_getElem?, ← hid, memberAddrs,
    (getElem?_addrs h.ids_nodup).mpr hm]
  rfl

/-- What `openNode` takes from a validated configuration. -/
def startConfig (cfg : NodeConfig) (h : Valid cfg) : Config :=
  ⟨cfg.nodeID, cfg.memberAddrs, h.self_mem_addrs, cfg.cluster.n.toNat, cfg.cluster.epoch⟩

end

/-! ## What the operator makes of a text -/

/-- Without a name listed twice, the loop collects every member. -/
theorem collectMembers_eq_ok (name : String) : ∀ {ms : List Member} {seen : Members},
    (ms.map Member.id).Nodup → (∀ m ∈ ms, m.id ∉ seen) →
      collectMembers name seen ms = .ok (seen.insertMany (ms.map Member.pair))
  | [], seen, _, _ => by simp [collectMembers]
  | m :: ms, seen, hnodup, hseen => by
    rw [List.map_cons, List.nodup_cons] at hnodup
    rw [collectMembers, if_neg (hseen m List.mem_cons_self), collectMembers_eq_ok name hnodup.2]
    · rw [List.map_cons, Std.ExtTreeMap.insertMany_cons]
      rfl
    · intro m' hm'
      have hne : m'.id ≠ m.id := fun he => hnodup.1 (he ▸ List.mem_map_of_mem hm')
      rw [Std.ExtTreeMap.mem_insert]
      simp [hne.symm, hseen m' (List.mem_cons_of_mem _ hm')]

/-- The operator observes the epoch and the members of settings it can read, where no member is
listed twice. -/
theorem configMapObs_text {decode : String → Except String (Nat × List Member)} {s : Settings}
    (hread : s.ReadBy decode Settings.membership) (hs : s.Fits)
    (hnodup : (s.members.map Member.id).Nodup) (name : String) :
    configMapObs decode name (some s.text) = ⟨s.epoch, s.config.memberAddrs, ""⟩ := by
  have hcollect : collectMembers name ∅ s.members = .ok _ :=
    collectMembers_eq_ok name hnodup (by simp)
  simp only [configMapObs, parseConfigMap, hread hs, Settings.membership, hcollect, Except.map,
    memberAddrs, Settings.config, Std.ExtTreeMap.ofList_eq_insertMany_empty]

end NodeConfig

end DistributedKV
