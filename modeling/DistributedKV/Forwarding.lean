import DistributedKV.DataStore
import DistributedKV.FanOut

/-!
# Forwarded writes

A node that is no replica of a key hands a Put to the replicas of its own view, one after
the other (`forwardPut`). The receiving server runs `CoordinatePut`, which checks ownership
under its own view before anything else and coordinates the write itself. The forwarding
loop goes on to the next replica on two codes only, and the server's mapping of errors to
codes has to keep them for writes that touched no store.

Errors are trees of wrapped and joined Go errors (`GoError`), with `errors.Is` and
`status.Code` as functions on them. What a write does anywhere is a list of `WriteEvent`s.
`retryable_of_answer` is the contract between the server and the loop : a code that lets
the loop go on comes with no event. `forwardPut_spec` carries it through the loop.
-/

namespace DistributedKV

/-! ## Errors and their codes -/

/-- The gRPC status codes. -/
inductive Code
  | ok | canceled | unknown | invalidArgument | deadlineExceeded | notFound | alreadyExists
  | permissionDenied | resourceExhausted | failedPrecondition | aborted | outOfRange
  | unimplemented | internal | unavailable | dataLoss | unauthenticated
deriving DecidableEq

def Code.name : Code → String
  | .ok => "OK"
  | .canceled => "Canceled"
  | .unknown => "Unknown"
  | .invalidArgument => "InvalidArgument"
  | .deadlineExceeded => "DeadlineExceeded"
  | .notFound => "NotFound"
  | .alreadyExists => "AlreadyExists"
  | .permissionDenied => "PermissionDenied"
  | .resourceExhausted => "ResourceExhausted"
  | .failedPrecondition => "FailedPrecondition"
  | .aborted => "Aborted"
  | .outOfRange => "OutOfRange"
  | .unimplemented => "Unimplemented"
  | .internal => "Internal"
  | .unavailable => "Unavailable"
  | .dataLoss => "DataLoss"
  | .unauthenticated => "Unauthenticated"

/-- The error values that are compared with `errors.Is`. -/
inductive Sentinel
  | notReplica
  | canceled
  | deadlineExceeded
deriving DecidableEq

def Sentinel.text : Sentinel → String
  | .notReplica => "not a replica for this key"
  | .canceled => "context canceled"
  | .deadlineExceeded => "context deadline exceeded"

/-- A Go error : a sentinel, a plain text, a status, an error wrapped with `%w`, or two
joined errors. -/
inductive GoError
  | sentinel (s : Sentinel)
  | plain (text : String)
  | status (code : Code) (text : String)
  | wrap (text : String) (inner : GoError)
  | join (first second : GoError)

namespace GoError

/-- `errors.Is`. -/
def is (target : Sentinel) : GoError → Bool
  | .sentinel s => s = target
  | .plain _ => false
  | .status _ _ => false
  | .wrap _ inner => inner.is target
  | .join first second => first.is target || second.is target

/-- The first status in the tree. -/
def status? : GoError → Option Code
  | .sentinel _ => none
  | .plain _ => none
  | .status code _ => some code
  | .wrap _ inner => inner.status?
  | .join first second => first.status? <|> second.status?

/-- `status.Code` of an error that is not nil. -/
def code (e : GoError) : Code :=
  e.status?.getD .unknown

def text : GoError → String
  | .sentinel s => s.text
  | .plain text => text
  | .status code text => "rpc error: code = " ++ code.name ++ " desc = " ++ text
  | .wrap text inner => text ++ ": " ++ inner.text
  | .join first second => first.text ++ "\n" ++ second.text

end GoError

/-- How `errors.Join` of a list is printed. -/
def joinText : List GoError → String
  | [] => "<nil>"
  | errs => "\n".intercalate (errs.map GoError.text)

/-- `status.FromContextError` of an error that is not nil. -/
def fromContextError (e : GoError) : GoError :=
  if e.is .deadlineExceeded then .status .deadlineExceeded e.text
  else if e.is .canceled then .status .canceled e.text
  else .status .unknown e.text

/-! ## Coordinating -/

/-- What a write does on some node. -/
inductive WriteEvent
  /-- A non-replica starts forwarding. -/
  | forward (node : String)
  /-- The coordinator reads its store. -/
  | read (node : String)
  /-- The coordinator versions the write and stores it. -/
  | version (node : String) (item : DataItem)
  /-- A replica stores the coordinator's item. -/
  | replicate (node : String) (item : DataItem)
  | restore (node : String)

/-- The node that touches its store as coordinator. -/
def WriteEvent.coordinator : WriteEvent → Option String
  | .read node => some node
  | .version node _ => some node
  | .restore node => some node
  | .forward _ => none
  | .replicate _ _ => none

def WriteEvent.isVersion : WriteEvent → Bool
  | .version _ _ => true
  | _ => false

def WriteEvent.isForward : WriteEvent → Bool
  | .forward _ => true
  | _ => false

/-- What a `putAsReplica` meets : the node's store when it reads and when it writes, the
replicas that store the item, how the fan-out ends, and what the store's errors say. -/
structure Coordination where
  readStore : DataStore
  readFaults : Faults
  readError : String
  writeStore : DataStore
  writeFaults : Faults
  stored : List String
  exit : FanOut.Exit
  tally : Tally
  /-- Whether the caller's deadline passed, or it canceled. -/
  deadline : Bool
  restoreError : Option String

namespace Forward

variable (quote : String → String) (key value : String) (context : Option Snapshot)

def quorumError (v : View) (peers : List String) (tally : Tally) : GoError :=
  .plain ("write quorum not reached for key " ++ quote key ++ ": " ++
    Nat.repr tally.successes ++ "/" ++ Nat.repr (peers.length + 1) ++ " acks, need W=" ++
    Nat.repr v.quorum.W)

/-- The error of a `putAsReplica`, nil as `none`, and what it does. -/
def putAsReplica (v : View) (node : String) (peers : List String) (c : Coordination) :
    Option GoError × List WriteEvent :=
  match c.readStore.get c.readFaults key with
  | none =>
    (some (.wrap ("local read failed for key " ++ quote key) (.plain c.readError)), [.read node])
  | some _ =>
    match c.writeStore.put c.writeFaults key value context with
    | (none, _) =>
      (some (.plain ("local write failed for key " ++ quote key ++ ": storage error (see log)")),
        [.read node])
    | (some item, _) =>
      let sent := (peers.filter (· ∈ c.stored)).map (WriteEvent.replicate · item)
      let events := .read node :: .version node item :: sent
      match c.exit with
      | .reached => (none, events)
      | .canceled =>
        (some (.wrap ("put canceled for key " ++ quote key)
          (.sentinel (if c.deadline then .deadlineExceeded else .canceled))), events)
      | .impossible =>
        let quorumErr := quorumError quote key v peers c.tally
        let result := match c.restoreError with
          | none => quorumErr
          | some err => .join quorumErr
            (.wrap ("rollback of local write for key " ++ quote key ++ " failed") (.plain err))
        (some result, events ++ [.restore node])

/-- `Node.CoordinatePut` : the refusal comes before any store access. -/
def coordinatePut (v : View) (node : String) (c : Coordination) :
    Option GoError × List WriteEvent :=
  match isReplicaFor v node key with
  | (false, _) =>
    (some (.wrap ("node " ++ node ++ ", key " ++ quote key) (.sentinel .notReplica)), [])
  | (true, peers) => putAsReplica quote key value context v node peers c

/-- A node that receives a forwarded write. -/
structure Receiver where
  node : String
  view : View
  /-- Whether the server has a coordinator. -/
  coord : Bool
  /-- Why the value can't be read, if it can't. -/
  badValue : Option String
  coordination : Coordination

/-- `Server.CoordinatePut`. -/
def serverCoordinatePut (r : Receiver) : Option GoError × List WriteEvent :=
  if r.coord = false then
    (some (.status .unimplemented "this server does not coordinate writes"), [])
  else match r.badValue with
  | some err =>
    (some (.status .invalidArgument ("invalid value for key " ++ quote key ++ ": " ++ err)), [])
  | none =>
    match coordinatePut quote key value context r.view r.node r.coordination with
    | (none, events) => (none, events)
    | (some err, events) =>
      if err.is .notReplica then (some (.status .failedPrecondition err.text), events)
      else if err.is .canceled || err.is .deadlineExceeded then
        (some (fromContextError err), events)
      else (some (.status .internal
        ("coordinated write for key " ++ quote key ++ " failed: " ++ err.text)), events)

/-! ## Forwarding -/

/-- The codes the transport itself reports. -/
inductive TransportCode
  | canceled | unknown | deadlineExceeded | permissionDenied | resourceExhausted
  | unimplemented | internal | unavailable | unauthenticated
deriving DecidableEq

def TransportCode.code : TransportCode → Code
  | .canceled => .canceled
  | .unknown => .unknown
  | .deadlineExceeded => .deadlineExceeded
  | .permissionDenied => .permissionDenied
  | .resourceExhausted => .resourceExhausted
  | .unimplemented => .unimplemented
  | .internal => .internal
  | .unavailable => .unavailable
  | .unauthenticated => .unauthenticated

inductive Delivery
  /-- The request never reached the server. -/
  | undelivered (code : TransportCode) (text : String)
  /-- The server's answer came back. -/
  | answered
  /-- The request was delivered, but its answer was not. -/
  | unanswered (code : TransportCode) (text : String)

/-- What the forwarding node meets at one replica. -/
structure Attempt where
  /-- Marked dead by heartbeats. -/
  dead : Bool
  /-- Why there is no connection, if there is none. -/
  clientError : Option String
  delivery : Delivery
  /-- The node at the replica's address. -/
  receiver : Receiver

/-- `Client.CoordinatePut`, on a value that may not marshal. -/
def Attempt.call (marshalError : Option String) (a : Attempt) :
    Option GoError × List WriteEvent :=
  match marshalError with
  | some err => (some (.wrap ("convert value for key " ++ quote key) (.plain err)), [])
  | none =>
    match a.delivery with
    | .undelivered code text => (some (.status code.code text), [])
    | .answered => serverCoordinatePut quote key value context a.receiver
    | .unanswered code text =>
      (some (.status code.code text), (serverCoordinatePut quote key value context a.receiver).2)

/-- The loop over the replicas, the `i`-th attempt as `attempts i` says. -/
def forwardPut (marshalError : Option String) (attempts : Nat → Attempt) :
    Nat → List GoError → List String → Option GoError × List WriteEvent
  | _, failures, [] =>
    (some (.status .unavailable ("forward put for key " ++ quote key ++
      ": no replica accepted the write: " ++ joinText failures)), [])
  | i, failures, replicaID :: rest =>
    let replica := "replica " ++ quote replicaID
    if (attempts i).dead then
      forwardPut marshalError attempts (i + 1)
        (failures ++ [.plain (replica ++ ": marked dead by heartbeats")]) rest
    else match (attempts i).clientError with
    | some err =>
      forwardPut marshalError attempts (i + 1) (failures ++ [.wrap replica (.plain err)]) rest
    | none =>
      match (attempts i).call quote key value context marshalError with
      | (none, events) => (none, events)
      | (some err, events) =>
        if err.code ≠ .unavailable ∧ err.code ≠ .failedPrecondition then
          (some (.wrap ("forward put for key " ++ quote key ++ " to replica " ++ quote replicaID)
            err), events)
        else
          let (result, later) := forwardPut marshalError attempts (i + 1)
            (failures ++ [.wrap replica err]) rest
          (result, events ++ later)

/-- `Node.Put`. -/
def nodePut (v : View) (node : String) (c : Coordination) (marshalError : Option String)
    (attempts : Nat → Attempt) : Option GoError × List WriteEvent :=
  match isReplicaFor v node key with
  | (true, peers) => putAsReplica quote key value context v node peers c
  | (false, replicas) =>
    let (result, events) := forwardPut quote key value context marshalError attempts 0 [] replicas
    (result, .forward node :: events)

/-! ## One coordinator -/

variable {quote key value context}

/-- Only `node` acts as coordinator, it versions the write at most once, and nobody
forwards it. -/
structure ByOne (node : String) (events : List WriteEvent) : Prop where
  coordinator : ∀ e ∈ events, ∀ x, e.coordinator = some x → x = node
  version : events.countP WriteEvent.isVersion ≤ 1
  forward : ∀ e ∈ events, e.isForward = false

theorem ByOne.nil (node : String) : ByOne node [] :=
  ⟨by simp, by simp, by simp⟩

theorem ByOne.read (node : String) : ByOne node [.read node] :=
  ⟨by simp [WriteEvent.coordinator], by simp [WriteEvent.isVersion], by simp [WriteEvent.isForward]⟩

theorem ByOne.written (node : String) (item : DataItem) (peers : List String)
    (last : List WriteEvent) (hlast : ∀ e ∈ last, e = .restore node) :
    ByOne node (.read node :: .version node item :: peers.map (.replicate · item) ++ last) where
  coordinator := by
    intro e he x hx
    simp only [List.cons_append, List.mem_cons, List.mem_append, List.mem_map] at he
    rcases he with rfl | rfl | ⟨p, -, rfl⟩ | he
    · exact (Option.some.inj hx).symm
    · exact (Option.some.inj hx).symm
    · cases hx
    · rw [hlast e he] at hx
      exact (Option.some.inj hx).symm
  version := by
    have hsent : (peers.map (WriteEvent.replicate · item)).countP WriteEvent.isVersion = 0 := by
      simp [WriteEvent.isVersion]
    have hrest : last.countP WriteEvent.isVersion = 0 :=
      List.countP_eq_zero.mpr fun e he => by simp [hlast e he, WriteEvent.isVersion]
    rw [List.countP_append, hrest, List.countP_cons_of_neg (by simp [WriteEvent.isVersion]),
      List.countP_cons_of_pos (by rfl), hsent]
  forward := by
    intro e he
    simp only [List.cons_append, List.mem_cons, List.mem_append, List.mem_map] at he
    rcases he with rfl | rfl | ⟨p, -, rfl⟩ | he
    · rfl
    · rfl
    · rfl
    · rw [hlast e he]
      rfl

theorem byOne_putAsReplica (v : View) (node : String) (peers : List String) (c : Coordination) :
    ByOne node (putAsReplica quote key value context v node peers c).2 := by
  unfold putAsReplica
  split
  · exact .read node
  · split
    · exact .read node
    · next item _ _ =>
      have hstands := ByOne.written node item (peers.filter (· ∈ c.stored)) [] (by simp)
      rw [List.append_nil] at hstands
      split
      · exact hstands
      · exact hstands
      · exact .written node item _ _ (by simp)

/-- No error of a write that was coordinated says that the node is no replica. -/
theorem not_notReplica_of_putAsReplica {v : View} {node : String} {peers : List String}
    {c : Coordination} {err : GoError}
    (h : (putAsReplica quote key value context v node peers c).1 = some err) :
    err.is .notReplica = false := by
  unfold putAsReplica at h
  split at h
  · cases h
    rfl
  · split at h
    · cases h
      rfl
    · split at h
      · cases h
      · cases h
        cases c.deadline <;> rfl
      · cases h
        cases c.restoreError <;> rfl

variable (quote key value context)

/-- A refusal comes before any event. -/
theorem coordinatePut_spec (v : View) (node : String) (c : Coordination) :
    ByOne node (coordinatePut quote key value context v node c).2 ∧
      ∀ err, (coordinatePut quote key value context v node c).1 = some err →
        err.is .notReplica = true → (coordinatePut quote key value context v node c).2 = [] := by
  unfold coordinatePut
  split
  · exact ⟨.nil node, fun _ _ _ => rfl⟩
  · refine ⟨byOne_putAsReplica .., fun err herr his => ?_⟩
    rw [not_notReplica_of_putAsReplica herr] at his
    cases his

/-- The codes on which the loop goes on to the next replica. -/
def Retryable (err : GoError) : Prop :=
  err.code = .unavailable ∨ err.code = .failedPrecondition

theorem not_retryable_fromContextError (err : GoError) : ¬Retryable (fromContextError err) := by
  unfold fromContextError Retryable
  split_ifs <;> simp [GoError.code, GoError.status?]

/-- A server's error that the loop takes for a write that never started is one. -/
theorem retryable_of_answer (r : Receiver) :
    ByOne r.node (serverCoordinatePut quote key value context r).2 ∧
      ∀ err, (serverCoordinatePut quote key value context r).1 = some err → Retryable err →
        (serverCoordinatePut quote key value context r).2 = [] := by
  obtain ⟨hone, hrefused⟩ :=
    coordinatePut_spec quote key value context r.view r.node r.coordination
  unfold serverCoordinatePut
  split
  · exact ⟨.nil _, fun _ _ _ => rfl⟩
  · split
    · exact ⟨.nil _, fun _ _ _ => rfl⟩
    · split
      · next events heq =>
        rw [heq] at hone
        exact ⟨hone, fun err herr => by cases herr⟩
      · next err events heq =>
        rw [heq] at hone hrefused
        split_ifs with hnot hctx
        · obtain rfl : events = [] := hrefused err rfl hnot
          exact ⟨.nil _, fun _ _ _ => rfl⟩
        · refine ⟨hone, fun e he hretry => ?_⟩
          cases he
          exact absurd hretry (not_retryable_fromContextError err)
        · refine ⟨hone, fun e he hretry => ?_⟩
          cases he
          simp [Retryable, GoError.code, GoError.status?] at hretry

/-- The transport reports Unavailable only for requests it did not deliver. -/
def Attempt.Honest (a : Attempt) : Prop :=
  ∀ text, a.delivery ≠ .unanswered .unavailable text

theorem call_spec (marshalError : Option String) {a : Attempt} (hhonest : a.Honest) :
    ByOne a.receiver.node (a.call quote key value context marshalError).2 ∧
      ∀ err, (a.call quote key value context marshalError).1 = some err → Retryable err →
        (a.call quote key value context marshalError).2 = [] := by
  unfold Attempt.call
  split
  · exact ⟨.nil _, fun _ _ _ => rfl⟩
  · split
    · exact ⟨.nil _, fun _ _ _ => rfl⟩
    · exact retryable_of_answer quote key value context a.receiver
    · next code text hdelivery =>
      refine ⟨(retryable_of_answer quote key value context a.receiver).1, fun err herr hretry => ?_⟩
      cases herr
      -- Of the transport's own codes only Unavailable lets the loop go on.
      have hcode : code = .unavailable := by
        cases code <;> simp [Retryable, GoError.code, GoError.status?, TransportCode.code] at hretry ⊢
      exact absurd (hcode ▸ hdelivery) (hhonest text)

/-- One node coordinates at most, and a loop that ends with Unavailable has done nothing. -/
theorem forwardPut_spec (marshalError : Option String) {attempts : Nat → Attempt}
    (hhonest : ∀ i, (attempts i).Honest) :
    ∀ (replicas : List String) (i : Nat) (failures : List GoError),
      (∃ node, ByOne node
        (forwardPut quote key value context marshalError attempts i failures replicas).2) ∧
      ∀ err, (forwardPut quote key value context marshalError attempts i failures replicas).1 =
          some err → err.code = .unavailable →
        (forwardPut quote key value context marshalError attempts i failures replicas).2 = []
  | [], i, failures => ⟨⟨"", .nil _⟩, fun _ _ _ => rfl⟩
  | replicaID :: rest, i, failures => by
    obtain ⟨hone, hretry⟩ := call_spec quote key value context marshalError (hhonest i)
    unfold forwardPut
    dsimp only
    split
    · exact forwardPut_spec marshalError hhonest rest (i + 1) _
    · split
      · exact forwardPut_spec marshalError hhonest rest (i + 1) _
      · split
        · next events hcall =>
          rw [hcall] at hone
          exact ⟨⟨_, hone⟩, fun err herr => by cases herr⟩
        · next err events hcall =>
          rw [hcall] at hone hretry
          split_ifs with hcode
          · refine ⟨⟨_, hone⟩, fun e he hunavailable => ?_⟩
            cases he
            exact absurd hunavailable hcode.1
          · -- The loop goes on, so this attempt has done nothing.
            have hretryable : Retryable err := by
              unfold Retryable
              tauto
            obtain rfl : events = [] := hretry err rfl hretryable
            exact forwardPut_spec marshalError hhonest rest (i + 1) _

/-- A Put through a node that is no replica : one node coordinates at most, the write is
versioned at most once and forwarded once, and if the error is Unavailable no store was
touched. -/
theorem versioned_at_most_once (v : View) (node : String) (c : Coordination)
    (marshalError : Option String) (attempts : Nat → Attempt)
    (hreplica : (isReplicaFor v node key).1 = false) (hhonest : ∀ i, (attempts i).Honest) :
    (∃ coordinator, ∀ e ∈ (nodePut quote key value context v node c marshalError attempts).2,
      ∀ x, e.coordinator = some x → x = coordinator) ∧
    (nodePut quote key value context v node c marshalError attempts).2.countP
      WriteEvent.isVersion ≤ 1 ∧
    (nodePut quote key value context v node c marshalError attempts).2.filter
      WriteEvent.isForward = [.forward node] ∧
    ∀ err, (nodePut quote key value context v node c marshalError attempts).1 = some err →
      err.code = .unavailable →
        (nodePut quote key value context v node c marshalError attempts).2 = [.forward node] := by
  obtain ⟨⟨coordinator, hone⟩, hnothing⟩ := forwardPut_spec quote key value context marshalError
    hhonest (isReplicaFor v node key).2 0 []
  have hput : nodePut quote key value context v node c marshalError attempts =
      ((forwardPut quote key value context marshalError attempts 0 []
        (isReplicaFor v node key).2).1, .forward node :: (forwardPut quote key value context
          marshalError attempts 0 [] (isReplicaFor v node key).2).2) := by
    unfold nodePut
    rw [show isReplicaFor v node key = (false, (isReplicaFor v node key).2) from
      Prod.ext hreplica rfl]
  rw [hput]
  refine ⟨⟨coordinator, ?_⟩, ?_, ?_, fun err herr hcode => by rw [hnothing err herr hcode]⟩
  · intro e he x hx
    rcases List.mem_cons.mp he with rfl | he
    · cases hx
    · exact hone.coordinator e he x hx
  · rw [List.countP_cons_of_neg (by simp [WriteEvent.isVersion])]
    exact hone.version
  · rw [List.filter_cons_of_pos rfl, List.filter_eq_nil_iff.mpr]
    exact fun e he => by simp [hone.forward e he]

/-- Two replicas of every key. -/
def pairView : View :=
  ⟨⟨[1, 2], ((∅ : Std.ExtTreeMap UInt32 String).insert 1 "B").insert 2 "C", 1⟩, ⟨2, 1, 1⟩⟩

/-- A coordinator with an empty store that needs no other replica. -/
def emptyCoordination (node : String) : Coordination where
  readStore := ⟨node, node, ⟨MemTable.new 1000, none, []⟩⟩
  readFaults := noFaults
  readError := ""
  writeStore := ⟨node, node, ⟨MemTable.new 1000, none, []⟩⟩
  writeFaults := noFaults
  stored := []
  exit := .reached
  tally := ⟨1, 0⟩
  deadline := false
  restoreError := none

/-- The first replica can't be reached, the second one answers. -/
def secondAnswers (i : Nat) : Attempt where
  dead := false
  clientError := none
  delivery := if i = 0 then .undelivered .unavailable "connection refused" else .answered
  receiver := ⟨"B", pairView, true, none, emptyCoordination "B"⟩

theorem versioned_at_most_once_secondAnswers :
    (nodePut id "k" "1" none pairView "A" (emptyCoordination "A") none secondAnswers).2.countP
        WriteEvent.isVersion = 1 ∧
      ∃ coordinator, ∀ e ∈ (nodePut id "k" "1" none pairView "A" (emptyCoordination "A") none
        secondAnswers).2, ∀ x, e.coordinator = some x → x = coordinator :=
  ⟨by decide +kernel, (versioned_at_most_once id "k" "1" none pairView "A" (emptyCoordination "A")
    none secondAnswers (by decide +kernel) fun i text => by
      simp only [secondAnswers]
      split_ifs <;> simp).1⟩

end Forward

end DistributedKV
