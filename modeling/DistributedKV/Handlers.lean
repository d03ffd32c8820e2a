import DistributedKV.Wal
import DistributedKV.TreeWalk
import DistributedKV.AntiEntropy
import DistributedKV.Forwarding

/-!
# What a message can do to a node

The handlers of the replication service and `RunAntiEntropy`, with every partial operation
of the Go code on the way kept partial (`Go`). A server has no recovering interceptor, so a
handler that panics takes its node down.

Three messages can do that. A peer's bucket count goes to `merkle.Build` as it is, which
panics on all but the powers of four, and to `BucketFor`, which divides by it. A peer's
tree is compared with the local one by position, whatever its bucket count and its number
of nodes. `answer_returns_iff` says of every call, on every store, when it returns
(`Harmless`).

Where the calls do return they are the total functions of the other modules
(`getPreferenceList_eq`, `build_eq`, `nodeCoordinatePut_eq`).
-/

open Panics

namespace DistributedKV

/-! ## Messages -/

/-- `pb.DataItem`. -/
structure ProtoItem where
  value : RawMessage
  vectorClock : Snapshot
  lastUpdatedBy : String
  isDeleted : Bool

structure ReplicateRequest where
  key : String
  items : List ProtoItem

structure ReplicateResponse where
  accepted : Bool

structure FetchItemRequest where
  key : String

structure FetchItemResponse where
  items : List ProtoItem
  found : Bool

structure GetMerkleTreeRequest where
  numBuckets : Int32

structure GetMerkleTreeResponse where
  numBuckets : Int32
  nodes : List (List UInt8)

structure GetBucketKeysRequest where
  bucketIndex : Int32
  numBuckets : Int32

structure GetBucketKeysResponse where
  keys : List String

structure CoordinatePutRequest where
  key : String
  value : RawMessage
  context : Option Snapshot

/-- A SHA-256 digest. -/
structure Digest where
  bytes : List UInt8
  length_bytes : bytes.length = 32
deriving DecidableEq

/-- `copy` into a zeroed digest : a short slice leaves zeros, a long one is cut. -/
def Digest.copy (b : List UInt8) : Digest :=
  ⟨(b ++ List.replicate 32 0).take 32, by simp⟩

instance : Inhabited Digest :=
  ⟨.copy []⟩

/-- What the standard library does : `%q`, SHA-256, and `encoding/json` on values. A stored
value came from JSON, so writing it does not fail; reading says why it fails. -/
structure Externals where
  quote : String → String
  sha256 : ByteArray → Digest
  marshal : String → RawMessage
  unmarshal : RawMessage → Except String String

def Externals.hasher (x : Externals) : Hasher Digest :=
  ⟨x.sha256, fun d => ⟨d.bytes.toArray⟩⟩

/-- The errors a call meets at its store. -/
structure StoreErrors where
  listing : Option String
  reading : String → Option String

/-- A failed write, and whether the store has halted its writes. -/
structure WriteError where
  halted : Bool
  text : String

namespace Handlers

/-- Whether a call that ends in `err` fails. -/
def faultsOf (err : Option String) : Faults :=
  ⟨err.isSome, err.isSome⟩

/-- `DataStore.Keys`, failing with `err`. -/
def keys (ds : DataStore) (err : Option String) : Except GoError (List String) :=
  match ds.keys (faultsOf err) with
  | none => .error (.plain (err.getD ""))
  | some keys => .ok keys

/-- `DataStore.Get`, failing with `err`. -/
def get (ds : DataStore) (err : Option String) (key : String) : Except GoError (List DataItem) :=
  match ds.get (faultsOf err) key with
  | none => .error (.plain (err.getD ""))
  | some items => .ok items

/-! ## The tree -/

/-- The three ways to refuse a bucket count. -/
def validateBucketCount (numBuckets : Int) : Option GoError :=
  let n := numBuckets.toNat
  if numBuckets < 1 then
    some (.plain ("merkle: numBuckets must be positive, got " ++ toString numBuckets))
  else if n &&& (n - 1) ≠ 0 then
    some (.plain ("merkle: numBuckets must be a power of 2, got " ++ toString numBuckets))
  else if n.log2 % 2 ≠ 0 then
    some (.plain ("merkle: numBuckets must be 4^k (exponent of 2 must be even), got " ++
      toString numBuckets ++ " (exponent " ++ toString n.log2 ++ ")"))
  else none

def bucketFor (key : String) (numBuckets : Int) : Go Int :=
  rem (hashKey key).toNat numBuckets

/-- One round of the loop that deals the keys out. -/
def addToBucket (numBuckets : Int) (bucketKeys : List (List String)) (k : String) :
    Go (List (List String)) := do
  let b ← bucketFor k numBuckets
  let keys ← Panics.get bucketKeys b
  Panics.set bucketKeys b (keys ++ [k])

section Tree

variable (x : Externals) (ds : DataStore) (errs : StoreErrors)

/-- What the hash of a bucket takes in of one key. -/
def keyContents (key : String) : Except GoError (String × List String) :=
  match get ds (errs.reading key) key with
  | .error err => .error (.wrap ("merkle: read " ++ x.quote key) err)
  | .ok items => .ok (key, itemStrings items)

def hashBucketContents (bucketKeys : List String) : Except GoError Digest := do
  let contents ← (bucketKeys.insertionSort (· ≤ ·)).mapM (keyContents x ds errs)
  return x.hasher.sum (contentsText contents).toUTF8

/-- The loop over the leaves. -/
def fillLeaves (numBuckets : Nat) (bucketKeys : List (List String)) :
    List Nat → List Digest → Go (Except GoError (List Digest))
  | [], nodes => return .ok nodes
  | b :: bs, nodes => do
    let keys ← Panics.get bucketKeys b
    match hashBucketContents x ds errs keys with
    | .error err => return .error err
    | .ok leaf => do
      let nodes ← Panics.set nodes (leafIndex b numBuckets) leaf
      fillLeaves numBuckets bucketKeys bs nodes

/-- One round of the loop over the internal nodes. -/
def combineAt (nodes : List Digest) (i : Nat) : Go (List Digest) := do
  let left ← Panics.get nodes (2 * i + 1 : Nat)
  let right ← Panics.get nodes (2 * i + 2 : Nat)
  Panics.set nodes i (combineHashes x.hasher left right)

/-- `merkle.Build`. -/
def build (numBuckets : Int) : Go (Except GoError (Tree Digest)) :=
  match validateBucketCount numBuckets with
  | some err => .error (.raised err.text)
  | none =>
    match keys ds errs.listing with
    | .error err => return .error (.wrap "merkle: list keys" err)
    | .ok allKeys => do
      let n := numBuckets.toNat
      let bucketKeys ← allKeys.foldlM (addToBucket numBuckets) (List.replicate n [])
      match ← fillLeaves x ds errs n bucketKeys (List.range n)
          (List.replicate (2 * n - 1) default) with
      | .error err => return .error err
      | .ok nodes => do
        let nodes ← (List.range (n - 1)).reverse.foldlM (combineAt x) nodes
        return .ok ⟨n, nodes⟩

end Tree

def toProtoTree (t : Tree Digest) : GetMerkleTreeResponse :=
  ⟨.ofInt t.numBuckets, t.nodes.map Digest.bytes⟩

def fromProtoTree (resp : GetMerkleTreeResponse) : PeerTree Digest :=
  ⟨resp.numBuckets.toInt, resp.nodes.map Digest.copy⟩

/-! ## The ring -/

/-- The loop of `GetPreferenceList`. -/
def collectNodes (hr : HashRing) (index replicationFactor : Nat) :
    List Nat → List String → Go (List String)
  | [], preferenceList => return preferenceList
  | i :: is, preferenceList => do
    let currentIdx ← rem (index + i : Nat) hr.ring.length
    let pos ← Panics.get hr.ring currentIdx
    let nodeID := hr.nodeMap.getD pos ""
    if nodeID ∈ preferenceList then collectNodes hr index replicationFactor is preferenceList
    else
      let preferenceList' := preferenceList ++ [nodeID]
      if preferenceList'.length = replicationFactor then return preferenceList'
      else collectNodes hr index replicationFactor is preferenceList'

def getPreferenceList (hr : HashRing) (key : String) (replicationFactor : Nat) :
    Go (List String) :=
  if hr.ring.length = 0 then return []
  else
    let found := Search.search hr.ring.length fun i => hashKey key ≤ hr.ring.getD i 0
    let index := if found ≥ hr.ring.length then 0 else found
    collectNodes hr index replicationFactor (List.range hr.ring.length) []

def isReplicaFor (v : View) (self key : String) : Go (Bool × List String) := do
  let preferenceList ← getPreferenceList v.ring key v.quorum.N
  return (decide (self ∈ preferenceList), preferenceList.filter (· ≠ self))

def sharesReplicaSet (v : View) (self key peerID : String) : Go Bool := do
  let preferenceList ← getPreferenceList v.ring key v.quorum.N
  return preferenceList.any (· = self) && preferenceList.any (· = peerID)

/-! ## The handlers -/

/-- A node while it handles a request. -/
structure Server where
  ds : DataStore
  errs : StoreErrors
  /-- How the merge of the `i`-th item of a request fails. -/
  merging : Nat → Option WriteError
  node : String
  view : View
  /-- Whether the server has a coordinator. -/
  coord : Bool
  coordination : Coordination

section Convert

variable (x : Externals)

def unmarshalValue (b : RawMessage) : Except GoError String :=
  match x.unmarshal b with
  | .error err => .error (.wrap "unmarshal value" (.plain err))
  | .ok value => .ok value

def toProtoDataItem (item : DataItem) : ProtoItem :=
  ⟨x.marshal item.value, item.vectorClock.snapshot, item.lastUpdatedBy, item.isDeleted⟩

def fromProtoDataItem (p : ProtoItem) : Except GoError DataItem :=
  match unmarshalValue x p.value with
  | .error err => .error err
  | .ok value => .ok ⟨value, .fromSnapshot p.vectorClock, p.lastUpdatedBy, p.isDeleted⟩

end Convert

section Serve

variable (x : Externals) (s : Server)

/-- The loop of `Replicate`. What it merged before a failure stays merged. -/
def replicateItems (key : String) :
    Nat → DataStore → List ProtoItem → Except GoError ReplicateResponse × DataStore
  | _, ds, [] => (.ok ⟨true⟩, ds)
  | i, ds, protoItem :: rest =>
    match fromProtoDataItem x protoItem with
    | .error err =>
      (.error (.status .invalidArgument
        ("invalid item for key " ++ x.quote key ++ ": " ++ err.text)), ds)
    | .ok item =>
      match s.merging i with
      | some err =>
        if err.halted then
          (.error (.status .unavailable ("cannot persist item for key " ++ x.quote key ++
            " until this node restarts: " ++ err.text)), ds)
        else
          (.error (.status .internal
            ("failed to persist item for key " ++ x.quote key ++ ": " ++ err.text)), ds)
      | none => replicateItems key (i + 1) (ds.mergeReplicated noFaults key item).2 rest

def replicate (req : ReplicateRequest) : Go (Except GoError ReplicateResponse × DataStore) :=
  if req.items.length = 0 then
    return (.error (.status .invalidArgument "items must not be empty"), s.ds)
  else return replicateItems x s req.key 0 s.ds req.items

def getMerkleTree (req : GetMerkleTreeRequest) : Go (Except GoError GetMerkleTreeResponse) := do
  match ← build x s.ds s.errs req.numBuckets.toInt with
  | .error err => return .error (.status .internal ("failed to build merkle tree: " ++ err.text))
  | .ok tree => return .ok (toProtoTree tree)

def getBucketKeys (req : GetBucketKeysRequest) : Go (Except GoError GetBucketKeysResponse) :=
  match keys s.ds s.errs.listing with
  | .error err => return .error (.status .internal ("failed to list keys: " ++ err.text))
  | .ok allKeys => do
    let keys ← keep (fun k => do
      let b ← bucketFor k req.numBuckets.toInt
      return decide (b = req.bucketIndex.toInt)) allKeys
    return .ok ⟨keys⟩

def fetchItem (req : FetchItemRequest) : Go (Except GoError FetchItemResponse) :=
  match get s.ds (s.errs.reading req.key) req.key with
  | .error err =>
    return .error (.status .internal
      ("failed to read key " ++ x.quote req.key ++ ": " ++ err.text))
  | .ok items =>
    if items.isEmpty then return .ok ⟨[], false⟩
    else return .ok ⟨items.map (toProtoDataItem x), true⟩

/-- `Node.CoordinatePut`. -/
def nodeCoordinatePut (key value : String) (context : Option Snapshot) :
    Go (Option GoError × List WriteEvent) := do
  match ← isReplicaFor s.view s.node key with
  | (false, _) =>
    return (some (.wrap ("node " ++ s.node ++ ", key " ++ x.quote key)
      (.sentinel .notReplica)), [])
  | (true, peers) =>
    return Forward.putAsReplica x.quote key value context s.view s.node peers s.coordination

def coordinatePut (req : CoordinatePutRequest) : Go (Option GoError × List WriteEvent) :=
  if s.coord = false then
    return (some (.status .unimplemented "this server does not coordinate writes"), [])
  else
    match unmarshalValue x req.value with
    | .error err =>
      return (some (.status .invalidArgument
        ("invalid value for key " ++ x.quote req.key ++ ": " ++ err.text)), [])
    | .ok value => do
      match ← nodeCoordinatePut x s req.key value (contextFromProto req.context) with
      | (none, events) => return (none, events)
      | (some err, events) =>
        if err.is .notReplica then return (some (.status .failedPrecondition err.text), events)
        else if err.is .canceled || err.is .deadlineExceeded then
          return (some (fromContextError err), events)
        else return (some (.status .internal
          ("coordinated write for key " ++ x.quote req.key ++ " failed: " ++ err.text)), events)

end Serve

/-! ## Anti-entropy -/

/-- What `reconcileBucket` meets at one key. -/
structure KeyContact where
  /-- The store when the key is read. -/
  store : DataStore
  reading : Option String
  reply : Except GoError FetchItemResponse
  /-- How the `i`-th merge fails. -/
  merging : Nat → Option String
  pushing : Option GoError

/-- What `reconcileBucket` meets. -/
structure BucketContact where
  view : View
  /-- The store when its keys are listed. -/
  store : DataStore
  listing : Option String
  reply : Except GoError GetBucketKeysResponse
  /-- A map is ranged over in any order. -/
  order : List String → List String
  keys : String → KeyContact

/-- What `RunAntiEntropy` meets. -/
structure Contact where
  self : String
  peerID : String
  store : DataStore
  errs : StoreErrors
  dialing : Option String
  reply : Except GoError GetMerkleTreeResponse
  buckets : Nat → BucketContact

/-- What a reconciliation returns, merged, and pushed to the peer. -/
structure Report where
  err : Option GoError
  pulled : List (String × DataItem)
  pushed : List (String × DataItem)

def Report.andThen (r : Report) (next : Report) : Report :=
  ⟨next.err, r.pulled ++ next.pulled, r.pushed ++ next.pushed⟩

section Reconcile

variable (x : Externals)

/-- `Client.FetchItem`. -/
def clientFetchItem (key : String) :
    Except GoError FetchItemResponse → Except GoError (List DataItem)
  | .error err => .error err
  | .ok resp =>
    if resp.found = false then .ok []
    else resp.items.mapM fun p =>
      match fromProtoDataItem x p with
      | .error err => .error (.wrap ("convert response item for key " ++ x.quote key) err)
      | .ok item => .ok item

/-- The loop that merges the peer's versions. -/
def install (key : String) (merging : Nat → Option String) : Nat → List DataItem → Report
  | _, [] => ⟨none, [], []⟩
  | i, item :: rest =>
    match merging i with
    | some err =>
      ⟨some (.wrap ("install reconciled " ++ x.quote key ++ " locally") (.plain err)), [], []⟩
    | none => Report.andThen ⟨none, [(key, item)], []⟩ (install key merging (i + 1) rest)

def push (key peerID : String) (pushing : Option GoError) (toPush : List DataItem) : Report :=
  if toPush.length = 0 then ⟨none, [], []⟩
  else
    match pushing with
    | some err =>
      ⟨some (.wrap ("push reconciled " ++ x.quote key ++ " to " ++ x.quote peerID) err), [], []⟩
    | none => ⟨none, [], toPush.map (Prod.mk key)⟩

def reconcileKey (peerID key : String) (c : KeyContact) : Report :=
  match get c.store c.reading key with
  | .error err => ⟨some (.wrap ("read local " ++ x.quote key) err), [], []⟩
  | .ok localItems =>
    match clientFetchItem x key c.reply with
    | .error err =>
      ⟨some (.wrap ("fetch " ++ x.quote key ++ " from " ++ x.quote peerID) err), [], []⟩
    | .ok remoteItems =>
      let pulled := install x key c.merging 0 (missingFrom localItems remoteItems)
      match pulled.err with
      | some _ => pulled
      | none => pulled.andThen (push x key peerID c.pushing (missingFrom remoteItems localItems))

def reconcileKeys (peerID : String) (contact : String → KeyContact) : List String → Report
  | [] => ⟨none, [], []⟩
  | key :: rest =>
    let r := reconcileKey x peerID key (contact key)
    match r.err with
    | some _ => r
    | none => r.andThen (reconcileKeys peerID contact rest)

def reconcileBucket (self peerID : String) (bucketIdx : Nat) (c : BucketContact) : Go Report :=
  match keys c.store c.listing with
  | .error err => return ⟨some (.wrap "list local keys" err), [], []⟩
  | .ok allLocalKeys => do
    let localKeys ← keep (fun k => do
      let b ← bucketFor k antiEntropyNumBuckets
      return decide (b = bucketIdx)) allLocalKeys
    match c.reply with
    | .error err => return ⟨some err, [], []⟩
    | .ok resp => do
      let allKeys ← keep (sharesReplicaSet c.view self · peerID) (localKeys ++ resp.keys)
      return reconcileKeys x peerID c.keys (c.order allKeys.dedup)

def reconcileBuckets (c : Contact) : List Nat → Go Report
  | [] => return ⟨none, [], []⟩
  | bucketIdx :: rest => do
    let r ← reconcileBucket x c.self c.peerID bucketIdx (c.buckets bucketIdx)
    match r.err with
    | some err =>
      return { r with err := some (.wrap ("reconcile bucket " ++ toString bucketIdx ++
        " with " ++ x.quote c.peerID) err) }
    | none => do
      let next ← reconcileBuckets c rest
      return r.andThen next

def runAntiEntropy (c : Contact) : Go Report := do
  match ← build x c.store c.errs antiEntropyNumBuckets with
  | .error err => return ⟨some (.wrap "build local merkle tree" err), [], []⟩
  | .ok localTree =>
    match c.dialing with
    | some err =>
      return ⟨some (.wrap ("dial " ++ x.quote c.peerID ++ " for anti-entropy") (.plain err)),
        [], []⟩
    | none =>
      match c.reply with
      | .error err =>
        return ⟨some (.wrap ("fetch merkle tree from " ++ x.quote c.peerID) err), [], []⟩
      | .ok resp => do
        let diverged ← divergentBuckets localTree (fromProtoTree resp)
        reconcileBuckets x c diverged

end Reconcile

/-! ## Where the calls are total -/

/-- On a ring that is not empty every position of the loop is taken modulo its length. -/
theorem collectNodes_eq {hr : HashRing} (hne : hr.ring.length ≠ 0) (index replicationFactor : Nat) :
    ∀ (is : List Nat) (preferenceList : List String),
      collectNodes hr index replicationFactor is preferenceList =
        .ok (HashRing.collectNodes replicationFactor preferenceList (is.map fun i =>
          hr.nodeMap.getD (hr.ring.getD ((index + i) % hr.ring.length) 0) ""))
  | [], _ => rfl
  | i :: is, preferenceList => by
    have hlt : (index + i) % hr.ring.length < hr.ring.length := Nat.mod_lt _ (by omega)
    have hpos := List.getElem?_eq_getElem hlt
    rw [collectNodes, rem_natCast _ hne, ok_bind, get_natCast hpos, ok_bind, List.map_cons,
      HashRing.collectNodes, List.getD_eq_getElem?_getD, hpos, Option.getD_some]
    simp only [collectNodes_eq hne index replicationFactor is, pure_eq_ok]
    split
    · rfl
    · split <;> rfl

theorem getPreferenceList_eq (hr : HashRing) (key : String) (replicationFactor : Nat) :
    getPreferenceList hr key replicationFactor =
      .ok (hr.getPreferenceList key replicationFactor) := by
  unfold getPreferenceList
  split
  · next hempty =>
    rw [HashRing.getPreferenceList, HashRing.preferenceListFrom, HashRing.walk, hempty]
    rfl
  · next hne => exact collectNodes_eq hne _ _ _ _

theorem isReplicaFor_eq (v : View) (self key : String) :
    isReplicaFor v self key = .ok (DistributedKV.isReplicaFor v self key) := by
  rw [isReplicaFor, getPreferenceList_eq]
  rfl

theorem sharesReplicaSet_eq (v : View) (self key peerID : String) :
    sharesReplicaSet v self key peerID =
      .ok (DistributedKV.sharesReplicaSet v self key peerID) := by
  rw [sharesReplicaSet, getPreferenceList_eq]
  rfl

theorem nodeCoordinatePut_eq (x : Externals) (s : Server) (key value : String)
    (context : Option Snapshot) :
    nodeCoordinatePut x s key value context =
      .ok (Forward.coordinatePut x.quote key value context s.view s.node s.coordination) := by
  rw [nodeCoordinatePut, isReplicaFor_eq, ok_bind, Forward.coordinatePut]
  split <;> simp_all

/-- The node as the receiver of a forwarded write whose value reads as `value`. -/
def Server.receiver (s : Server) (value : Except GoError String) : Forward.Receiver where
  node := s.node
  view := s.view
  coord := s.coord
  badValue := match value with
    | .error err => some err.text
    | .ok _ => none
  coordination := s.coordination

theorem coordinatePut_eq (x : Externals) (s : Server) (req : CoordinatePutRequest) :
    coordinatePut x s req = .ok (Forward.serverCoordinatePut x.quote req.key
      ((unmarshalValue x req.value).toOption.getD "") (contextFromProto req.context)
      (s.receiver (unmarshalValue x req.value))) := by
  unfold coordinatePut Forward.serverCoordinatePut Server.receiver
  cases hvalue : unmarshalValue x req.value with
  | error => split <;> rfl
  | ok value =>
    simp only [nodeCoordinatePut_eq, ok_bind, Except.toOption, Option.getD_some]
    rcases Forward.coordinatePut x.quote req.key value (contextFromProto req.context) s.view s.node
      s.coordination with ⟨_ | err, events⟩
    · split <;> rfl
    · simp only
      split_ifs <;> rfl

/-! ## Bucket counts -/

theorem validateBucketCount_natCast (n : Nat) :
    validateBucketCount n = none ↔ DistributedKV.validateBucketCount n = true := by
  simp only [validateBucketCount, Int.toNat_natCast, DistributedKV.validateBucketCount]
  split_ifs <;> simp_all
  omega

theorem validateBucketCount_iff_four_pow (n : Nat) :
    DistributedKV.validateBucketCount n = true ↔ ∃ k : Nat, n = 4 ^ k := by
  have hpow : ∀ k : Nat, 4 ^ k = 2 ^ (2 * k) := fun k => (pow_mul 2 2 k).symm
  simp only [DistributedKV.validateBucketCount, Bool.and_eq_true, decide_eq_true_eq]
  constructor
  · rintro ⟨⟨hpos, hand⟩, heven⟩
    obtain ⟨e, rfl⟩ := (Nat.and_sub_one_eq_zero_iff_isPowerOfTwo (by omega)).mp hand
    rw [Nat.log2_two_pow] at heven
    obtain ⟨k, rfl⟩ := Nat.dvd_of_mod_eq_zero heven
    exact ⟨k, (hpow k).symm⟩
  · rintro ⟨k, rfl⟩
    have hpos : 1 ≤ 4 ^ k := Nat.one_le_pow _ _ (by decide)
    refine ⟨⟨hpos, (Nat.and_sub_one_eq_zero_iff_isPowerOfTwo (by omega)).mpr ⟨_, hpow k⟩⟩, ?_⟩
    rw [hpow, Nat.log2_two_pow, Nat.mul_mod_right]

theorem validateBucketCount_eq_none_iff (numBuckets : Int) :
    validateBucketCount numBuckets = none ↔ ∃ k : Nat, numBuckets = 4 ^ k := by
  by_cases hneg : numBuckets < 0
  · have hrefused : validateBucketCount numBuckets ≠ none := by
      rw [validateBucketCount, if_pos (by omega)]
      exact Option.some_ne_none _
    refine iff_of_false hrefused fun ⟨k, hk⟩ => ?_
    have : (0 : Int) ≤ 4 ^ k := by positivity
    omega
  · obtain ⟨n, rfl⟩ := Int.eq_ofNat_of_zero_le (not_lt.mp hneg)
    rw [validateBucketCount_natCast, validateBucketCount_iff_four_pow]
    exact exists_congr fun k => by exact_mod_cast Iff.rfl

theorem bucketFor_natCast (key : String) {n : Nat} (hn : n ≠ 0) :
    bucketFor key n = .ok (DistributedKV.bucketFor key n : Nat) :=
  rem_natCast _ hn

/-! ## Building a tree -/

/-- The keys dealt out to their buckets. -/
def dealt (n : Nat) (keys : List String) : List (List String) :=
  (List.range n).map fun b => keys.filter fun k => DistributedKV.bucketFor k n = b

theorem getElem?_dealt {n b : Nat} (keys : List String) (hb : b < n) :
    (dealt n keys)[b]? = some (keys.filter fun k => DistributedKV.bucketFor k n = b) := by
  simp [dealt, hb]

theorem addToBucket_dealt {n : Nat} (hn : n ≠ 0) (keys : List String) (k : String) :
    addToBucket n (dealt n keys) k = .ok (dealt n (keys ++ [k])) := by
  have hb : DistributedKV.bucketFor k n < n := Nat.mod_lt _ (by omega)
  rw [addToBucket, bucketFor_natCast k hn, ok_bind, get_natCast (getElem?_dealt keys hb), ok_bind,
    set_natCast _ (by simpa [dealt] using hb)]
  congr 1
  refine List.ext_getElem? fun b => ?_
  by_cases hlt : b < n
  · rw [getElem?_dealt _ hlt, List.getElem?_set, List.filter_append]
    by_cases hk : DistributedKV.bucketFor k n = b
    · simp [hk, dealt, hlt]
    · simp [hk, getElem?_dealt keys hlt]
  · simp [dealt, hlt]

theorem foldlM_addToBucket {n : Nat} (hn : n ≠ 0) : ∀ (keys before : List String),
    keys.foldlM (addToBucket n) (dealt n before) = .ok (dealt n (before ++ keys))
  | [], before => by simp
  | k :: keys, before => by
    rw [List.foldlM_cons, addToBucket_dealt hn, ok_bind, foldlM_addToBucket hn keys]
    simp

theorem dealt_nil (n : Nat) : dealt n [] = List.replicate n [] := by
  simp [dealt, List.map_const']

theorem toOption_mapM {α β ε : Type} (f : α → Except ε β) : ∀ l : List α,
    (l.mapM f).toOption = l.mapM fun a => (f a).toOption
  | [] => rfl
  | a :: l => by
    rw [List.mapM_cons, List.mapM_cons, ← toOption_mapM f l]
    cases f a with
    | error => rfl
    | ok => cases l.mapM f <;> rfl

section Tree

variable (x : Externals) (ds : DataStore) (errs : StoreErrors)

/-- Leaf after leaf is stored behind the nodes before it. -/
theorem fillLeaves_eq {n : Nat} (allKeys : List String) : ∀ (m j : Nat) (front : List Digest),
    j + m = n → front.length = n - 1 + j →
    fillLeaves x ds errs n (dealt n allKeys) (List.range' j m)
        (front ++ List.replicate m default) =
      .ok (((List.range' j m).mapM fun b => hashBucketContents x ds errs
        (allKeys.filter fun k => DistributedKV.bucketFor k n = b)).map (front ++ ·))
  | 0, j, front, _, _ => by
    simp [fillLeaves, Except.map, pure, Except.pure]
  | m + 1, j, front, hj, hfront => by
    rw [List.range'_succ, fillLeaves, get_natCast (getElem?_dealt allKeys (by omega)), ok_bind,
      List.mapM_cons]
    cases hashBucketContents x ds errs
      (allKeys.filter fun k => DistributedKV.bucketFor k n = j) with
    | error err => rfl
    | ok leaf =>
      have hset : (front ++ List.replicate (m + 1) default).set (leafIndex j n) leaf =
          (front ++ [leaf]) ++ List.replicate m default := by
        rw [leafIndex, ← hfront, List.set_append_right _ _ le_rfl]
        simp [List.replicate_succ]
      simp only
      rw [set_natCast _ (by simp [leafIndex, hfront]), ok_bind, hset,
        fillLeaves_eq allKeys m (j + 1) (front ++ [leaf]) (by omega) (by simp; omega)]
      cases (List.range' (j + 1) m).mapM fun b => hashBucketContents x ds errs
        (allKeys.filter fun k => DistributedKV.bucketFor k n = b) with
      | error err => rfl
      | ok leaves =>
        simp only [List.append_assoc]
        rfl

/-- Node after node is stored in front of the ones after it. -/
theorem foldlM_combineAt {n : Nat} : ∀ (k : Nat) (rear : List Digest), k + 1 ≤ n →
    k + rear.length = 2 * n - 1 →
    (List.range k).reverse.foldlM (combineAt x) (List.replicate k default ++ rear) =
      .ok ((List.range k).reverse.foldl (fun nodes i => combineHashes x.hasher
        (nodes.getD i default) (nodes.getD (i + 1) default) :: nodes) rear)
  | 0, _, _, _ => rfl
  | k + 1, rear, hk, hlen => by
    have hget : ∀ i, i < rear.length →
        (List.replicate (k + 1) default ++ rear)[k + 1 + i]? = some (rear.getD i default) := by
      intro i hi
      rw [List.getElem?_append_right (by simp), List.length_replicate, Nat.add_sub_cancel_left,
        List.getD_eq_getElem?_getD, List.getElem?_eq_getElem hi, Option.getD_some]
    have hset : ∀ d : Digest, (List.replicate (k + 1) default ++ rear).set k d =
        List.replicate k default ++ d :: rear := by
      intro d
      rw [List.replicate_succ', List.append_assoc, List.set_append_right _ _ (by simp)]
      simp
    have hlt : k < (List.replicate (k + 1) default ++ rear).length := by
      rw [List.length_append, List.length_replicate]
      omega
    have hleft := get_natCast (hget k (by omega))
    have hright := get_natCast (hget (k + 1) (by omega))
    rw [List.range_succ, List.reverse_append, List.reverse_singleton, List.singleton_append,
      List.foldlM_cons, List.foldl_cons, combineAt, show 2 * k + 1 = k + 1 + k by omega,
      show 2 * k + 2 = k + 1 + (k + 1) by omega, hleft, ok_bind, hright, ok_bind,
      set_natCast _ hlt, ok_bind, hset,
      foldlM_combineAt (n := n) k _ (by omega) (by rw [List.length_cons]; omega)]

/-- Whether the keys of a bucket can be read is all that the errors decide. -/
theorem toOption_hashBucketContents (bucketKeys : List String) :
    (hashBucketContents x ds errs bucketKeys).toOption =
      DistributedKV.hashBucketContents x.hasher (fun k => faultsOf (errs.reading k)) ds
        bucketKeys := by
  have hread : ∀ key, (ds.get (faultsOf (errs.reading key)) key).map
      (fun items => (key, itemStrings items)) = (keyContents x ds errs key).toOption := by
    intro key
    unfold keyContents get
    cases ds.get (faultsOf (errs.reading key)) key <;> rfl
  rw [hashBucketContents, DistributedKV.hashBucketContents, funext hread, ← toOption_mapM]
  cases (bucketKeys.insertionSort (· ≤ ·)).mapM (keyContents x ds errs) <;> rfl

/-- On a power of four the tree is built, or a read fails, as `DistributedKV.build` says. -/
theorem build_eq {n : Nat} (hn : DistributedKV.validateBucketCount n = true) :
    ∃ r, build x ds errs n = .ok r ∧
      r.toOption = (DistributedKV.build x.hasher (faultsOf errs.listing)
        (fun k => faultsOf (errs.reading k)) ds n).toOption := by
  have hvalid := (validateBucketCount_natCast n).mpr hn
  have hpos : n ≠ 0 := by
    rintro rfl
    exact absurd hn (by decide)
  unfold build DistributedKV.build keys
  rw [hvalid, if_neg (by simp [hn])]
  cases ds.keys (faultsOf errs.listing) with
  | none => exact ⟨_, rfl, rfl⟩
  | some allKeys =>
    have hdealt := foldlM_addToBucket hpos allKeys []
    have hfill := fillLeaves_eq x ds errs allKeys n 0 (List.replicate (n - 1) default)
      (Nat.zero_add n) (by simp)
    rw [dealt_nil, List.nil_append] at hdealt
    rw [← List.replicate_add, show n - 1 + n = 2 * n - 1 by omega, ← List.range_eq_range'] at hfill
    simp only [Int.toNat_natCast, hdealt, ok_bind, hfill, ← toOption_hashBucketContents,
      ← toOption_mapM]
    cases hleaves : (List.range n).mapM fun b => hashBucketContents x ds errs
      (allKeys.filter fun k => DistributedKV.bucketFor k n = b) with
    | error err => exact ⟨_, rfl, rfl⟩
    | ok leaves =>
      have hlen : leaves.length = n := by
        have hsome := congrArg Except.toOption hleaves
        rw [toOption_mapM] at hsome
        simpa using (getElem?_mapM hsome).1
      refine ⟨.ok ⟨n, internalNodes x.hasher leaves⟩, ?_, rfl⟩
      simp only [Except.map]
      rw [foldlM_combineAt (n := n) x (n - 1) leaves (by omega) (by omega), ok_bind,
        internalNodes, hlen]
      rfl

theorem build_returns_iff (numBuckets : Int) :
    Returns (build x ds errs numBuckets) ↔ ∃ k : Nat, numBuckets = 4 ^ k := by
  rw [← validateBucketCount_eq_none_iff]
  constructor
  · intro h
    by_contra hne
    obtain ⟨err, herr⟩ := Option.ne_none_iff_exists'.mp hne
    rw [build, herr] at h
    exact not_returns_error _ h
  · intro h
    obtain ⟨k, rfl⟩ := (validateBucketCount_eq_none_iff numBuckets).mp h
    have hn := (validateBucketCount_iff_four_pow (4 ^ k)).mpr ⟨k, rfl⟩
    obtain ⟨r, hr, -⟩ := build_eq x ds errs hn
    exact ⟨r, by exact_mod_cast hr⟩

end Tree

/-! ## Reconciling -/

theorem reconcileBucket_returns (x : Externals) (self peerID : String) (bucketIdx : Nat)
    (c : BucketContact) : Returns (reconcileBucket x self peerID bucketIdx c) := by
  unfold reconcileBucket
  split
  · exact returns_ok _
  · next allLocalKeys _ =>
    have hlocal : keep (fun k => do
        let b ← bucketFor k antiEntropyNumBuckets
        return decide (b = bucketIdx)) allLocalKeys =
          .ok (keysOfBucket allLocalKeys bucketIdx) := by
      refine keep_ok fun k _ => ?_
      rw [bucketFor_natCast k (by decide), ok_bind]
      simp [pure_eq_ok]
    rw [hlocal, ok_bind]
    split
    · exact returns_ok _
    · rw [keep_ok fun k _ => sharesReplicaSet_eq c.view self k peerID, ok_bind]
      exact returns_ok _

theorem reconcileBuckets_returns (x : Externals) (c : Contact) :
    ∀ diverged : List Nat, Returns (reconcileBuckets x c diverged)
  | [] => returns_ok _
  | bucketIdx :: rest => by
    obtain ⟨r, hr⟩ := reconcileBucket_returns x c.self c.peerID bucketIdx (c.buckets bucketIdx)
    obtain ⟨next, hnext⟩ := reconcileBuckets_returns x c rest
    rw [reconcileBuckets, hr, ok_bind, hnext]
    split <;> exact returns_ok _

/-- Unless something failed before, the reply is a tree of as many buckets, with a node
wherever the comparison comes to. -/
def Contact.Harmless (x : Externals) (c : Contact) : Prop :=
  ∀ (tree : Tree Digest) (resp : GetMerkleTreeResponse),
    DistributedKV.build x.hasher (faultsOf c.errs.listing) (fun k => faultsOf (c.errs.reading k))
      c.store antiEntropyNumBuckets = .ok tree → c.dialing = none → c.reply = .ok resp →
    resp.numBuckets.toInt = antiEntropyNumBuckets ∧
      ∀ j, Reached tree (resp.nodes.map Digest.copy) 0 j → j < resp.nodes.length

/-- Only a reply that is not harmless makes the round panic. -/
theorem runAntiEntropy_returns_iff (x : Externals) (c : Contact) :
    Returns (runAntiEntropy x c) ↔ c.Harmless x := by
  obtain ⟨r, hr, htree⟩ := build_eq x c.store c.errs (n := antiEntropyNumBuckets) (by decide)
  rw [runAntiEntropy, hr, ok_bind, Contact.Harmless]
  cases hbuilt : DistributedKV.build x.hasher (faultsOf c.errs.listing)
    (fun k => faultsOf (c.errs.reading k)) c.store antiEntropyNumBuckets with
  | error e =>
    rw [hbuilt] at htree
    cases r with
    | error => exact iff_of_true (returns_ok _) fun _ _ h => by cases h
    | ok => cases htree
  | ok tree =>
    rw [hbuilt] at htree
    cases r with
    | error => cases htree
    | ok tree' =>
      obtain rfl := Option.some.inj htree
      obtain ⟨hcount, hfull⟩ := length_nodes_of_build hbuilt
      cases hdial : c.dialing with
      | some => exact iff_of_true (returns_ok _) fun _ _ _ h => by cases h
      | none =>
        cases hreply : c.reply with
        | error => exact iff_of_true (returns_ok _) fun _ _ _ _ h => by cases h
        | ok resp =>
          have hpos : tree'.numBuckets ≠ 0 := by rw [hcount]; decide
          have hdiverged := divergentBuckets_returns_iff hpos (by rw [hcount, hfull])
            (fromProtoTree resp)
          rw [hcount, fromProtoTree, List.length_map] at hdiverged
          change Returns (divergentBuckets tree' (fromProtoTree resp) >>= reconcileBuckets x c) ↔ _
          rw [returns_bind]
          constructor
          · rintro ⟨diverged, hd, -⟩ tree resp htree - hresp
            cases htree
            cases hresp
            exact hdiverged.mp ⟨diverged, hd⟩
          · intro h
            obtain ⟨diverged, hd⟩ := hdiverged.mpr (h tree' resp rfl rfl rfl)
            exact ⟨diverged, hd, reconcileBuckets_returns x c diverged⟩

/-! ## Every call -/

/-- It panics on every bucket count that is no power of four, -/
theorem getMerkleTree_returns_iff (x : Externals) (s : Server) (req : GetMerkleTreeRequest) :
    Returns (getMerkleTree x s req) ↔ ∃ k : Nat, req.numBuckets.toInt = 4 ^ k := by
  rw [← build_returns_iff x s.ds s.errs, getMerkleTree, returns_bind]
  constructor
  · rintro ⟨r, hr, -⟩
    exact ⟨r, hr⟩
  · rintro ⟨r, hr⟩
    refine ⟨r, hr, ?_⟩
    split <;> exact returns_ok _

/-- and this one on 0, if it comes to put a key in a bucket. -/
theorem getBucketKeys_returns_iff (s : Server) (req : GetBucketKeysRequest) :
    Returns (getBucketKeys s req) ↔
      req.numBuckets.toInt ≠ 0 ∨ s.errs.listing ≠ none ∨ s.ds.persister.keys = [] := by
  unfold getBucketKeys keys DataStore.keys faultsOf
  cases s.errs.listing with
  | some err => exact iff_of_true (returns_ok _) (.inr (.inl (Option.some_ne_none err)))
  | none =>
    simp only [Option.isSome_none, Bool.false_eq_true, if_false]
    by_cases hzero : req.numBuckets.toInt = 0
    · cases hkeys : s.ds.persister.keys with
      | nil => exact iff_of_true (returns_ok _) (.inr (.inr rfl))
      | cons =>
        simp only [keep, bucketFor, rem, hzero, if_pos, error_bind]
        simp
    · have htest : ∀ k ∈ s.ds.persister.keys, (do
          let b ← bucketFor k req.numBuckets.toInt
          return decide (b = req.bucketIndex.toInt)) =
            .ok (decide (((hashKey k).toNat : Int).tmod req.numBuckets.toInt =
              req.bucketIndex.toInt)) := by
        intro k _
        rw [bucketFor, rem, if_neg hzero, ok_bind, pure_eq_ok]
      rw [keep_ok htest, ok_bind]
      exact iff_of_true (returns_ok _) (.inl hzero)

/-- A message to a node, or a round of anti-entropy and all that comes back to it. -/
inductive Call
  | replicate (req : ReplicateRequest)
  | fetchItem (req : FetchItemRequest)
  | getMerkleTree (req : GetMerkleTreeRequest)
  | getBucketKeys (req : GetBucketKeysRequest)
  | coordinatePut (req : CoordinatePutRequest)
  | runAntiEntropy (c : Contact)

inductive Answer
  | replicate (result : Except GoError ReplicateResponse × DataStore)
  | fetchItem (result : Except GoError FetchItemResponse)
  | getMerkleTree (result : Except GoError GetMerkleTreeResponse)
  | getBucketKeys (result : Except GoError GetBucketKeysResponse)
  | coordinatePut (result : Option GoError × List WriteEvent)
  | runAntiEntropy (result : Report)

def answer (x : Externals) (s : Server) : Call → Go Answer
  | .replicate req => .replicate <$> replicate x s req
  | .fetchItem req => .fetchItem <$> fetchItem x s req
  | .getMerkleTree req => .getMerkleTree <$> getMerkleTree x s req
  | .getBucketKeys req => .getBucketKeys <$> getBucketKeys s req
  | .coordinatePut req => .coordinatePut <$> coordinatePut x s req
  | .runAntiEntropy c => .runAntiEntropy <$> runAntiEntropy x c

/-- The calls that do not panic. -/
def Harmless (x : Externals) (s : Server) : Call → Prop
  | .replicate _ => True
  | .fetchItem _ => True
  | .getMerkleTree req => ∃ k : Nat, req.numBuckets.toInt = 4 ^ k
  | .getBucketKeys req =>
    req.numBuckets.toInt ≠ 0 ∨ s.errs.listing ≠ none ∨ s.ds.persister.keys = []
  | .coordinatePut _ => True
  | .runAntiEntropy c => c.Harmless x

/-- A call of a server, on any store and whatever the peer sent, returns exactly if it is
harmless. Every other one panics. -/
theorem answer_returns_iff (x : Externals) (s : Server) (call : Call) :
    Returns (answer x s call) ↔ Harmless x s call := by
  cases call with
  | replicate =>
    refine iff_of_true (returns_map.mpr ?_) trivial
    unfold replicate
    split <;> exact returns_ok _
  | fetchItem =>
    refine iff_of_true (returns_map.mpr ?_) trivial
    unfold fetchItem
    split
    · exact returns_ok _
    · split <;> exact returns_ok _
  | getMerkleTree req => exact returns_map.trans (getMerkleTree_returns_iff x s req)
  | getBucketKeys req => exact returns_map.trans (getBucketKeys_returns_iff s req)
  | coordinatePut req =>
    exact iff_of_true (returns_map.mpr ⟨_, coordinatePut_eq x s req⟩) trivial
  | runAntiEntropy c => exact returns_map.trans (runAntiEntropy_returns_iff x c)

/-- A library that hashes everything to zeros and reads no value. -/
def plainExternals : Externals :=
  ⟨id, fun _ => default, fun _ => null, fun _ => .error "invalid"⟩

def noErrors : StoreErrors :=
  ⟨none, fun _ => none⟩

/-- A node that holds one key. -/
def oneKeyServer : Server where
  ds := storeWith "1" ∅
  errs := noErrors
  merging := fun _ => none
  node := "Z"
  view := Forward.pairView
  coord := true
  coordination := Forward.emptyCoordination "Z"

/-- A round of that node with a peer that replies `resp` and then nothing. -/
def contactWith (resp : GetMerkleTreeResponse) : Contact where
  self := "Z"
  peerID := "Y"
  store := storeWith "1" ∅
  errs := noErrors
  dialing := none
  reply := .ok resp
  buckets := fun _ =>
    ⟨Forward.pairView, storeWith "1" ∅, none, .ok ⟨[]⟩, id,
      fun _ => ⟨storeWith "1" ∅, none, .ok ⟨[], false⟩, fun _ => none, none⟩⟩

/-- The empty message, as protobuf decodes it, takes a node down in each of the three. -/
theorem empty_message_panics :
    answer plainExternals oneKeyServer (.getMerkleTree ⟨0⟩) =
        .error (.raised "merkle: numBuckets must be positive, got 0") ∧
      answer plainExternals oneKeyServer (.getBucketKeys ⟨0, 0⟩) = .error .divideByZero ∧
      ¬Returns (answer plainExternals oneKeyServer (.runAntiEntropy (contactWith ⟨0, []⟩))) ∧
      ¬Returns (answer plainExternals oneKeyServer (.runAntiEntropy (contactWith ⟨16, []⟩))) := by
  have hround : ∀ numBuckets : Int32, ¬Returns (answer plainExternals oneKeyServer
      (.runAntiEntropy (contactWith ⟨numBuckets, []⟩))) := by
    intro numBuckets h
    have hharmless := (runAntiEntropy_returns_iff _ _).mp (returns_map.mp h)
    obtain ⟨tree, htree⟩ := exists_build plainExternals.hasher (storeWith "1" ∅)
      antiEntropyNumBuckets (by decide)
    exact absurd ((hharmless tree _ htree rfl rfl).2 0 (.here 0)) (Nat.not_lt_zero 0)
  exact ⟨rfl, rfl, hround 0, hround 16⟩

end Handlers

end DistributedKV
