import DistributedKV.Search

/-!
# The hash ring and preference lists

Consistent hashing with virtual nodes : a member's virtual nodes are hashed to positions,
a position two of them share goes to the lower ID, and a key's preference list is the
first distinct members met clockwise from the key's own hash.

`nodup_getPreferenceList` and `length_getPreferenceList_le` are what quorums rest on : the
replicas of a key are distinct, and no more than the replication factor.
-/

namespace DistributedKV

/-- FNV-1a over the bytes of a string. -/
def hashKey (key : String) : UInt32 :=
  key.toUTF8.data.toList.foldl (fun h b => (h ^^^ b.toUInt32) * 16777619) 2166136261

structure HashRing where
  /-- The positions taken. -/
  ring : List UInt32
  /-- Who holds each of them. -/
  nodeMap : Std.ExtTreeMap UInt32 String
  virtualNodesPerPhysical : Nat

/-- Why a member set makes no ring. -/
inductive RingError
  | emptyMemberID
  | duplicateMemberID (id : String)
deriving DecidableEq

namespace HashRing

def new (virtualNodesPerPhysical : Nat) : HashRing :=
  { ring := [], nodeMap := ∅, virtualNodesPerPhysical := virtualNodesPerPhysical }

section Placing

/-! The hash is a parameter of how members are placed; the ring's own is `hashKey`. -/

variable (hash : String → UInt32)

/-- Claim the position of one virtual node. -/
def placeVirtual (nodeID : String) (hr : HashRing) (i : Nat) : HashRing :=
  let pos := hash (nodeID ++ "-" ++ toString i)
  match hr.nodeMap[pos]? with
  | some existing =>
    if nodeID < existing then { hr with nodeMap := hr.nodeMap.insert pos nodeID } else hr
  | none => { hr with nodeMap := hr.nodeMap.insert pos nodeID, ring := hr.ring ++ [pos] }

def place (hr : HashRing) (nodeID : String) : HashRing :=
  (List.range hr.virtualNodesPerPhysical).foldl (placeVirtual hash nodeID) hr

def sortRing (hr : HashRing) : HashRing :=
  { hr with ring := hr.ring.insertionSort (· ≤ ·) }

/-- Member IDs are not empty and not repeated. -/
def checkMembers : List String → List String → Option RingError
  | _, [] => none
  | seen, id :: ids =>
    if id = "" then some .emptyMemberID
    else if id ∈ seen then some (.duplicateMemberID id)
    else checkMembers (id :: seen) ids

def fromMembersWith (virtualNodesPerPhysical : Nat) (ids : List String) :
    Except RingError HashRing :=
  match checkMembers [] ids with
  | some e => .error e
  | none => .ok (ids.foldl (place hash) (new virtualNodesPerPhysical)).sortRing

def addNode (hr : HashRing) (nodeID : String) : HashRing :=
  (place hash hr nodeID).sortRing

end Placing

/-- `NewHashRingFromMembers`. -/
def fromMembers : Nat → List String → Except RingError HashRing :=
  fromMembersWith hashKey

theorem checkMembers_eq_none : ∀ {ids seen : List String}, "" ∉ ids → ids.Nodup →
    (∀ id ∈ ids, id ∉ seen) → checkMembers seen ids = none
  | [], _, _, _, _ => rfl
  | id :: ids, seen, hne, hnd, hseen => by
    obtain ⟨hid, hnd⟩ := List.nodup_cons.mp hnd
    have hid' : id ≠ "" := fun he => hne (he ▸ List.mem_cons_self)
    have hnew : id ∉ seen := hseen id List.mem_cons_self
    rw [checkMembers, if_neg hid', if_neg hnew]
    refine checkMembers_eq_none (fun h => hne (List.mem_cons_of_mem _ h)) hnd fun i hi hmem => ?_
    rcases List.mem_cons.mp hmem with rfl | hmem
    · exact hid hi
    · exact hseen i (List.mem_cons_of_mem _ hi) hmem

/-- The loop of `GetPreferenceList` over the nodes met clockwise. -/
def collectNodes (replicationFactor : Nat) : List String → List String → List String
  | preferenceList, [] => preferenceList
  | preferenceList, nodeID :: rest =>
    if nodeID ∈ preferenceList then collectNodes replicationFactor preferenceList rest
    else
      let preferenceList' := preferenceList ++ [nodeID]
      if preferenceList'.length = replicationFactor then preferenceList'
      else collectNodes replicationFactor preferenceList' rest

/-- The nodes met clockwise from the first position at or after `target`. -/
def walk (hr : HashRing) (target : UInt32) : List String :=
  let found := Search.search hr.ring.length fun i => target ≤ hr.ring.getD i 0
  let index := if found ≥ hr.ring.length then 0 else found
  (List.range hr.ring.length).map fun i =>
    hr.nodeMap.getD (hr.ring.getD ((index + i) % hr.ring.length) 0) ""

def preferenceListFrom (hr : HashRing) (target : UInt32) (replicationFactor : Nat) : List String :=
  collectNodes replicationFactor [] (hr.walk target)

def getPreferenceList (hr : HashRing) (key : String) (replicationFactor : Nat) : List String :=
  hr.preferenceListFrom (hashKey key) replicationFactor

theorem collectNodes_spec {replicationFactor : Nat} : ∀ {nodes preferenceList : List String},
    preferenceList.Nodup → preferenceList.length < replicationFactor →
      (collectNodes replicationFactor preferenceList nodes).Nodup ∧
        (collectNodes replicationFactor preferenceList nodes).length ≤ replicationFactor
  | [], preferenceList, hnd, hlen => ⟨hnd, hlen.le⟩
  | nodeID :: rest, preferenceList, hnd, hlen => by
    unfold collectNodes
    split
    · exact collectNodes_spec hnd hlen
    · next hnew =>
      have hnd' : (preferenceList ++ [nodeID]).Nodup := by
        refine List.nodup_append.mpr ⟨hnd, List.nodup_singleton _, fun a ha b hb he => hnew ?_⟩
        rwa [← List.mem_singleton.mp hb, ← he]
      have hlen' : (preferenceList ++ [nodeID]).length = preferenceList.length + 1 := by simp
      simp only
      split
      · next hfull => exact ⟨hnd', hfull.le⟩
      · next hfull => exact collectNodes_spec hnd' (by omega)

/-- No node is listed twice. -/
theorem nodup_getPreferenceList (hr : HashRing) (key : String) {replicationFactor : Nat}
    (h : 1 ≤ replicationFactor) : (hr.getPreferenceList key replicationFactor).Nodup :=
  (collectNodes_spec List.nodup_nil h).1

theorem length_getPreferenceList_le (hr : HashRing) (key : String) {replicationFactor : Nat}
    (h : 1 ≤ replicationFactor) :
    (hr.getPreferenceList key replicationFactor).length ≤ replicationFactor :=
  (collectNodes_spec List.nodup_nil h).2

/-! ## The nodes of a ring -/

/-- Every position is held, by one of `ids`. -/
structure HeldBy (ids : List String) (hr : HashRing) : Prop where
  held : ∀ pos ∈ hr.ring, pos ∈ hr.nodeMap
  mem : ∀ (pos : UInt32) (id : String), hr.nodeMap[pos]? = some id → id ∈ ids

theorem heldBy_placeVirtual {hash : String → UInt32} {ids : List String} {hr : HashRing}
    {nodeID : String} (h : HeldBy ids hr) (hid : nodeID ∈ ids) (i : Nat) :
    HeldBy ids (placeVirtual hash nodeID hr i) := by
  have hinsert : ∀ (pos p : UInt32) (id : String),
      (hr.nodeMap.insert pos nodeID)[p]? = some id → id ∈ ids := by
    intro pos p id hp
    rw [Std.ExtTreeMap.getElem?_insert] at hp
    split_ifs at hp with he
    · exact Option.some.inj hp ▸ hid
    · exact h.mem p id hp
  unfold placeVirtual
  dsimp only
  split
  · split_ifs
    · exact ⟨fun p hp => Std.ExtTreeMap.mem_insert.mpr (Or.inr (h.held p hp)), hinsert _⟩
    · exact h
  · refine ⟨fun p hp => Std.ExtTreeMap.mem_insert.mpr ?_, hinsert _⟩
    rcases List.mem_append.mp hp with hp | hp
    · exact Or.inr (h.held p hp)
    · exact Or.inl (by simp [List.mem_singleton.mp hp])

theorem heldBy_place {hash : String → UInt32} {ids : List String} {nodeID : String}
    (hid : nodeID ∈ ids) : ∀ {l : List Nat} {hr : HashRing}, HeldBy ids hr →
      HeldBy ids (l.foldl (placeVirtual hash nodeID) hr)
  | [], _, h => h
  | i :: l, hr, h => by
    rw [List.foldl_cons]
    exact heldBy_place hid (heldBy_placeVirtual h hid i)

theorem heldBy_foldl_place (hash : String → UInt32) {ids : List String} :
    ∀ {l : List String} {hr : HashRing}, l ⊆ ids → HeldBy ids hr →
      HeldBy ids (l.foldl (place hash) hr)
  | [], _, _, h => h
  | id :: l, hr, hl, h => by
    obtain ⟨hid, hl⟩ := List.cons_subset.mp hl
    rw [List.foldl_cons]
    exact heldBy_foldl_place hash hl (heldBy_place hid h)

theorem mem_of_mem_collectNodes {replicationFactor : Nat} {id : String} :
    ∀ {nodes preferenceList : List String},
      id ∈ collectNodes replicationFactor preferenceList nodes → id ∈ preferenceList ∨ id ∈ nodes
  | [], _, h => Or.inl h
  | nodeID :: rest, preferenceList, h => by
    have hsnoc : id ∈ preferenceList ++ [nodeID] → id ∈ preferenceList ∨ id ∈ nodeID :: rest := by
      intro hmem
      rcases List.mem_append.mp hmem with hmem | hmem
      · exact Or.inl hmem
      · exact Or.inr (List.mem_singleton.mp hmem ▸ List.mem_cons_self)
    unfold collectNodes at h
    dsimp only at h
    split_ifs at h
    · exact (mem_of_mem_collectNodes h).imp_right (List.mem_cons_of_mem _)
    · exact hsnoc h
    · rcases mem_of_mem_collectNodes h with h | h
      · exact hsnoc h
      · exact Or.inr (List.mem_cons_of_mem _ h)

/-- The owners of a key are members. -/
theorem mem_of_mem_getPreferenceList {virtualNodesPerPhysical : Nat} {ids : List String}
    {hr : HashRing} {key id : String} {replicationFactor : Nat}
    (h : fromMembers virtualNodesPerPhysical ids = .ok hr)
    (hid : id ∈ hr.getPreferenceList key replicationFactor) : id ∈ ids := by
  have hheld : HeldBy ids hr := by
    unfold fromMembers fromMembersWith at h
    split at h
    · cases h
    · obtain rfl := Except.ok.inj h
      have hplaced := heldBy_foldl_place hashKey (List.Subset.refl ids)
        (show HeldBy ids (new virtualNodesPerPhysical) from ⟨by simp [new], by simp [new]⟩)
      exact ⟨fun p hp => hplaced.held p (List.mem_insertionSort (· ≤ ·) |>.mp hp), hplaced.mem⟩
  have hvalue : ∀ pos ∈ hr.ring, hr.nodeMap.getD pos "" ∈ ids := by
    intro pos hpos
    refine hheld.mem pos _ ?_
    rw [Std.ExtTreeMap.getD_eq_getD_getElem?,
      Std.ExtTreeMap.getElem?_eq_some_getElem (hheld.held pos hpos)]
    rfl
  rcases mem_of_mem_collectNodes hid with hmem | hmem
  · cases hmem
  · obtain ⟨i, hi, rfl⟩ := List.mem_map.mp hmem
    have hlen : 0 < hr.ring.length := by
      have := List.mem_range.mp hi
      omega
    refine hvalue _ ?_
    rw [List.getD_eq_getElem _ _ (Nat.mod_lt _ hlen)]
    exact List.getElem_mem _

end HashRing

end DistributedKV
