import DistributedKV.Circle
import DistributedKV.HashRing

/-!
# What a ring is, whatever order its members came in

Every node builds its own ring, and nodes route by agreeing on it without a word. `Placed`
says what a ring holds after some virtual nodes have claimed their positions, in terms of the
set of the claims alone : each claimed position once, and the least of its claimants as its
owner. Placing a virtual node adds its claim to the set (`placed_placeVirtual`), so two rings
over the same claims are the same up to the order of their positions (`Placed.nodeMap_eq`),
and sorting removes that too.

The list a key gets is read off the sorted ring. The binary search and the loop modulo its
length go round the positions from the key's hash (`walk_eq_clockwise`), and the loop that
drops repeated owners keeps the first of each (`collectNodes_eq_take`).
-/

namespace DistributedKV

namespace HashRing

/-- One of the member's virtual nodes hashes to the position. -/
def Claims (hash : String → UInt32) (virtualNodesPerPhysical : Nat) (id : String)
    (pos : UInt32) : Prop :=
  ∃ i < virtualNodesPerPhysical, hash (id ++ "-" ++ toString i) = pos

/-- The owner of a position. -/
def owner (hr : HashRing) (pos : UInt32) : String :=
  hr.nodeMap.getD pos ""

/-- The positions from `target` on, and then those before it. -/
def clockwise (hr : HashRing) (target : UInt32) : List UInt32 :=
  hr.ring.filter (target ≤ ·) ++ hr.ring.filter (· < target)

/-! ## Placing members -/

/-- The members with a virtual node in `claims` at the position. -/
def claimants (hash : String → UInt32) (claims : Set (String × Nat)) (pos : UInt32) :
    Set String :=
  {m | ∃ i, (m, i) ∈ claims ∧ hash (m ++ "-" ++ toString i) = pos}

/-- What the virtual nodes in `claims` leave of a ring. -/
structure Placed (hash : String → UInt32) (claims : Set (String × Nat)) (hr : HashRing) :
    Prop where
  nodup : hr.ring.Nodup
  mem_ring : ∀ pos, pos ∈ hr.ring ↔ pos ∈ hr.nodeMap
  claimed : ∀ pos m, m ∈ claimants hash claims pos → pos ∈ hr.nodeMap
  least : ∀ pos id, hr.nodeMap[pos]? = some id → IsLeast (claimants hash claims pos) id

section Placing

variable {hash : String → UInt32} {claims : Set (String × Nat)} {hr hr' : HashRing}

theorem claimants_insert (nodeID : String) (i : Nat) (pos : UInt32) :
    claimants hash (insert (nodeID, i) claims) pos =
      if hash (nodeID ++ "-" ++ toString i) = pos then insert nodeID (claimants hash claims pos)
      else claimants hash claims pos := by
  ext m
  simp only [claimants, Set.mem_ofPred_eq, Set.mem_insert_iff, Prod.mk.injEq]
  split
  · next hpos =>
    constructor
    · rintro ⟨j, ⟨rfl, rfl⟩ | hj, heq⟩
      · exact .inl rfl
      · exact .inr ⟨j, hj, heq⟩
    · rintro (rfl | ⟨j, hj, heq⟩)
      · exact ⟨i, .inl ⟨rfl, rfl⟩, hpos⟩
      · exact ⟨j, .inr hj, heq⟩
  · next hpos =>
    constructor
    · rintro ⟨j, ⟨rfl, rfl⟩ | hj, heq⟩
      · exact absurd heq hpos
      · exact ⟨j, hj, heq⟩
    · rintro ⟨j, hj, heq⟩
      exact ⟨j, .inr hj, heq⟩

theorem placed_new (hash : String → UInt32) (virtualNodesPerPhysical : Nat) :
    Placed hash ∅ (new virtualNodesPerPhysical) where
  nodup := List.nodup_nil
  mem_ring := by simp [new]
  claimed := by simp [claimants]
  least := by simp [new]

/-- A virtual node that none of the claimants of its position comes before takes it. -/
theorem Placed.insert (h : Placed hash claims hr) {nodeID : String} {i : Nat} {pos : UInt32}
    (hpos : hash (nodeID ++ "-" ++ toString i) = pos)
    (hleast : nodeID ∈ lowerBounds (claimants hash claims pos)) {ring : List UInt32}
    (hnd : ring.Nodup) (hring : ∀ p, p ∈ ring ↔ p = pos ∨ p ∈ hr.ring) :
    Placed hash (insert (nodeID, i) claims)
      { hr with nodeMap := hr.nodeMap.insert pos nodeID, ring := ring } where
  nodup := hnd
  mem_ring p := by
    rw [Std.ExtTreeMap.mem_insert, hring, h.mem_ring, Std.LawfulEqCmp.compare_eq_iff_eq, eq_comm]
  claimed p m hm := by
    rw [Std.ExtTreeMap.mem_insert, Std.LawfulEqCmp.compare_eq_iff_eq]
    rw [claimants_insert, hpos] at hm
    split_ifs at hm with hp
    · exact .inl hp
    · exact .inr (h.claimed p m hm)
  least p id hid := by
    rw [claimants_insert, hpos]
    rw [Std.ExtTreeMap.getElem?_insert] at hid
    simp only [Std.LawfulEqCmp.compare_eq_iff_eq] at hid
    split_ifs at hid ⊢ with hp
    · cases hid
      refine ⟨Set.mem_insert _ _, Set.forall_mem_insert.mpr ⟨le_rfl, ?_⟩⟩
      rw [← hp]
      exact hleast
    · exact h.least p id hid

/-- One virtual node takes a free position, or the position of a greater owner. -/
theorem placed_placeVirtual (h : Placed hash claims hr) (nodeID : String) (i : Nat) :
    Placed hash (insert (nodeID, i) claims) (placeVirtual hash nodeID hr i) := by
  unfold placeVirtual
  dsimp only
  split
  · next existing hexisting =>
    have hexists := h.least _ _ hexisting
    have hmem : hash (nodeID ++ "-" ++ toString i) ∈ hr.nodeMap :=
      Std.ExtTreeMap.mem_iff_isSome_getElem?.mpr (by rw [hexisting]; rfl)
    split
    · next hlt =>
      refine h.insert rfl (fun m hm => hlt.le.trans (hexists.2 hm)) h.nodup fun p => ?_
      exact ⟨.inr, fun hp => hp.elim (fun hp => hp ▸ (h.mem_ring _).mpr hmem) id⟩
    · next hge =>
      refine ⟨h.nodup, h.mem_ring, fun p m hm => ?_, fun p id hid => ?_⟩
      · rw [claimants_insert] at hm
        split_ifs at hm with hp
        · exact hp ▸ hmem
        · exact h.claimed p m hm
      · rw [claimants_insert]
        split_ifs with hp
        · obtain rfl : existing = id := by
            rw [hp, hid] at hexisting
            exact (Option.some.inj hexisting).symm
          rw [hp] at hexists
          exact ⟨Set.mem_insert_of_mem _ hexists.1,
            Set.forall_mem_insert.mpr ⟨not_lt.mp hge, hexists.2⟩⟩
        · exact h.least p id hid
  · next hnone =>
    have hfree : hash (nodeID ++ "-" ++ toString i) ∉ hr.nodeMap := by
      rw [Std.ExtTreeMap.mem_iff_isSome_getElem?, hnone]
      exact Bool.false_ne_true
    refine h.insert rfl (fun m hm => absurd (h.claimed _ m hm) hfree) ?_ fun p => ?_
    · refine List.nodup_append.mpr ⟨h.nodup, List.nodup_singleton _, fun a ha b hb he => hfree ?_⟩
      rw [← List.mem_singleton.mp hb, ← he]
      exact (h.mem_ring a).mp ha
    · rw [List.mem_append, List.mem_singleton, or_comm]

theorem placed_foldl_placeVirtual (nodeID : String) : ∀ (l : List Nat) {claims : Set (String × Nat)}
    {hr : HashRing}, Placed hash claims hr →
    Placed hash (claims ∪ {c | c.1 = nodeID ∧ c.2 ∈ l}) (l.foldl (placeVirtual hash nodeID) hr)
  | [], claims, hr, h => by simpa using h
  | i :: l, claims, hr, h => by
    have hclaims : claims ∪ {c | c.1 = nodeID ∧ c.2 ∈ i :: l} =
        insert (nodeID, i) claims ∪ {c | c.1 = nodeID ∧ c.2 ∈ l} := by
      ext ⟨m, j⟩
      simp only [Set.mem_union, Set.mem_ofPred_eq, List.mem_cons, Set.mem_insert_iff,
        Prod.mk.injEq]
      tauto
    rw [hclaims, List.foldl_cons]
    exact placed_foldl_placeVirtual nodeID l (placed_placeVirtual h nodeID i)

theorem virtualNodes_foldl_placeVirtual (nodeID : String) : ∀ (l : List Nat) (hr : HashRing),
    (l.foldl (placeVirtual hash nodeID) hr).virtualNodesPerPhysical = hr.virtualNodesPerPhysical
  | [], hr => rfl
  | i :: l, hr => by
    rw [List.foldl_cons, virtualNodes_foldl_placeVirtual nodeID l]
    unfold placeVirtual
    dsimp only
    split
    · split <;> rfl
    · rfl

theorem placed_sortRing (h : Placed hash claims hr) : Placed hash claims hr.sortRing :=
  { h with
    nodup := ((List.perm_insertionSort (· ≤ ·) hr.ring).nodup_iff).mpr h.nodup
    mem_ring := fun pos => (List.mem_insertionSort (· ≤ ·)).trans (h.mem_ring pos) }

/-- The members in `ids` have been placed, with the same number of virtual nodes each. -/
structure RingOf (hash : String → UInt32) (v : Nat) (ids : List String) (hr : HashRing) :
    Prop where
  count : hr.virtualNodesPerPhysical = v
  placed : Placed hash {c | c.1 ∈ ids ∧ c.2 < v} hr

variable {v : Nat} {ids ids' : List String}

theorem ringOf_new (hash : String → UInt32) (v : Nat) : RingOf hash v [] (new v) :=
  ⟨rfl, by simpa using placed_new hash v⟩

theorem ringOf_place (h : RingOf hash v ids hr) (id : String) :
    RingOf hash v (ids ++ [id]) (place hash hr id) := by
  have hclaims : {c : String × Nat | c.1 ∈ ids ++ [id] ∧ c.2 < v} =
      {c | c.1 ∈ ids ∧ c.2 < v} ∪
        {c | c.1 = id ∧ c.2 ∈ List.range hr.virtualNodesPerPhysical} := by
    ext c
    simp only [h.count, Set.mem_union, Set.mem_ofPred_eq, List.mem_append, List.mem_singleton,
      List.mem_range]
    tauto
  refine ⟨(virtualNodes_foldl_placeVirtual id _ hr).trans h.count, ?_⟩
  rw [hclaims]
  exact placed_foldl_placeVirtual id _ h.placed

theorem ringOf_sortRing (h : RingOf hash v ids hr) : RingOf hash v ids hr.sortRing :=
  ⟨h.count, placed_sortRing h.placed⟩

theorem ringOf_foldl {add : HashRing → String → HashRing}
    (hadd : ∀ {ids hr}, RingOf hash v ids hr → ∀ id, RingOf hash v (ids ++ [id]) (add hr id)) :
    ∀ (l : List String) {ids : List String} {hr : HashRing}, RingOf hash v ids hr →
      RingOf hash v (ids ++ l) (l.foldl add hr)
  | [], ids, hr, h => by simpa using h
  | id :: l, ids, hr, h => by
    have hrest := ringOf_foldl hadd l (hadd h id)
    rwa [List.append_assoc, List.singleton_append] at hrest

theorem ringOf_built (hash : String → UInt32) (v : Nat) (ids : List String) :
    RingOf hash v ids (ids.foldl (place hash) (new v)).sortRing :=
  ringOf_sortRing (ringOf_foldl (fun h => ringOf_place h) ids (ringOf_new hash v))

theorem sorted_sortRing (hr : HashRing) : hr.sortRing.ring.Pairwise (· ≤ ·) :=
  List.pairwise_insertionSort _ _

theorem sorted_foldl_addNode : ∀ (l : List String) {hr : HashRing}, hr.ring.Pairwise (· ≤ ·) →
    (l.foldl (addNode hash) hr).ring.Pairwise (· ≤ ·)
  | [], _, h => h
  | id :: l, hr, _ => by
    rw [List.foldl_cons]
    exact sorted_foldl_addNode l (sorted_sortRing _)

theorem Placed.getElem?_eq_some (h : Placed hash claims hr) {pos : UInt32} {id : String} :
    hr.nodeMap[pos]? = some id ↔ IsLeast (claimants hash claims pos) id := by
  refine ⟨h.least pos id, fun hleast => ?_⟩
  have hmem := h.claimed pos id hleast.1
  rw [Std.ExtTreeMap.mem_iff_isSome_getElem?] at hmem
  obtain ⟨id', hget⟩ := Option.isSome_iff_exists.mp hmem
  rw [hget, (h.least pos id' hget).unique hleast]

/-- The claims tell the owner of every position. -/
theorem Placed.nodeMap_eq (h : Placed hash claims hr) (h' : Placed hash claims hr') :
    hr.nodeMap = hr'.nodeMap := by
  refine Std.ExtTreeMap.ext_getElem? fun pos => Option.ext fun id => ?_
  rw [h.getElem?_eq_some, h'.getElem?_eq_some]

/-- A sorted ring is told by the set of its members. -/
theorem RingOf.eq (h : RingOf hash v ids hr) (h' : RingOf hash v ids' hr')
    (hids : ∀ id, id ∈ ids ↔ id ∈ ids') (hsorted : hr.ring.Pairwise (· ≤ ·))
    (hsorted' : hr'.ring.Pairwise (· ≤ ·)) : hr = hr' := by
  have hclaims : {c : String × Nat | c.1 ∈ ids ∧ c.2 < v} = {c | c.1 ∈ ids' ∧ c.2 < v} := by
    simp only [hids]
  have hplaced := h'.placed
  rw [← hclaims] at hplaced
  have hmap := h.placed.nodeMap_eq hplaced
  have hring : hr.ring = hr'.ring := by
    refine List.Perm.eq_of_pairwise' hsorted hsorted' ?_
    refine (List.perm_ext_iff_of_nodup h.placed.nodup hplaced.nodup).mpr fun pos => ?_
    rw [h.placed.mem_ring, hplaced.mem_ring, hmap]
  have hcount : hr.virtualNodesPerPhysical = hr'.virtualNodesPerPhysical :=
    h.count.trans h'.count.symm
  cases hr
  cases hr'
  simp_all

end Placing

/-! ## The preference list -/

theorem walk_eq_clockwise {hr : HashRing} (hsorted : hr.ring.Pairwise (· ≤ ·)) (target : UInt32) :
    hr.walk target = (hr.clockwise target).map hr.owner := by
  have hsplit := Search.filter_search (l := hr.ring) (p := fun pos => target ≤ pos) 0
    (hsorted.imp fun hab ha => by
      simp only [decide_eq_true_eq] at ha ⊢
      exact UInt32.le_trans ha hab)
  have hbefore : hr.ring.filter (· < target) = hr.ring.filter fun pos => !decide (target ≤ pos) :=
    List.filter_congr fun pos _ => by simp [← UInt32.not_le]
  have hround : ∀ index, (List.range hr.ring.length).map (fun i =>
      hr.nodeMap.getD (hr.ring.getD ((index + i) % hr.ring.length) 0) "") =
      (hr.ring.rotate index).map hr.owner := by
    intro index
    rw [← Circle.map_range_rotate hr.ring 0 index, List.map_map]
    rfl
  rw [clockwise, hbefore, hsplit.1, hsplit.2, walk, hround]
  refine congrArg _ ?_
  split
  · next hall =>
    rw [List.rotate_zero, List.drop_of_length_le hall, List.take_of_length_le hall, List.nil_append]
  · next hlt => exact List.rotate_eq_drop_append_take (Nat.le_of_not_ge hlt)

/-- The loop keeps the first of each owner it meets, until it has enough. -/
theorem collectNodes_eq_take {replicationFactor : Nat} : ∀ (nodes preferenceList : List String),
    preferenceList.length < replicationFactor →
    collectNodes replicationFactor preferenceList nodes = preferenceList ++
      (nodes.filter (· ∉ preferenceList)).eraseDups.take
        (replicationFactor - preferenceList.length)
  | [], preferenceList, _ => by simp [collectNodes]
  | nodeID :: rest, preferenceList, hlen => by
    rw [collectNodes]
    split
    · next hmem =>
      rw [List.filter_cons_of_neg (by simpa using hmem)]
      exact collectNodes_eq_take rest preferenceList hlen
    · next hnew =>
      have hfilter : rest.filter (· ∉ preferenceList ++ [nodeID]) =
          (rest.filter (· ∉ preferenceList)).filter fun b => !b == nodeID := by
        rw [List.filter_filter]
        refine List.filter_congr fun b _ => Bool.eq_iff_iff.mpr ?_
        simp [and_comm]
      obtain ⟨k, hk⟩ : ∃ k, replicationFactor - preferenceList.length = k + 1 :=
        ⟨replicationFactor - preferenceList.length - 1, by omega⟩
      have hnext : replicationFactor - (preferenceList ++ [nodeID]).length = k := by
        rw [List.length_append, List.length_singleton]
        omega
      rw [List.filter_cons_of_pos (by simpa using hnew), List.eraseDups_cons, ← hfilter, hk,
        List.take_succ_cons]
      dsimp only
      split
      · next hfull =>
        obtain rfl : k = 0 := by omega
        rw [List.take_zero]
      · next hmore =>
        rw [List.length_append, List.length_singleton] at hmore
        rw [collectNodes_eq_take rest _ (by rw [List.length_append, List.length_singleton]; omega),
          hnext, List.append_assoc, List.singleton_append]

theorem preferenceListFrom_eq {hr : HashRing} (hsorted : hr.ring.Pairwise (· ≤ ·))
    (target : UInt32) {replicationFactor : Nat} (hN : 1 ≤ replicationFactor) :
    hr.preferenceListFrom target replicationFactor =
      ((hr.clockwise target).map hr.owner).eraseDups.take replicationFactor := by
  rw [preferenceListFrom, walk_eq_clockwise hsorted, collectNodes_eq_take _ _ hN]
  simp

theorem mem_clockwise {hr : HashRing} {target pos : UInt32} :
    pos ∈ hr.clockwise target ↔ pos ∈ hr.ring := by
  rw [clockwise, List.mem_append, List.mem_filter, List.mem_filter, ← and_or_left]
  refine and_iff_left ?_
  simp only [decide_eq_true_eq]
  exact (em (target ≤ pos)).imp_right UInt32.not_le.mp

theorem claimants_ids (hash : String → UInt32) (v : Nat) (ids : List String) (pos : UInt32) :
    claimants hash {c | c.1 ∈ ids ∧ c.2 < v} pos = {m | m ∈ ids ∧ Claims hash v m pos} := by
  ext m
  simp only [claimants, Claims, Set.mem_ofPred_eq]
  constructor
  · rintro ⟨i, ⟨hm, hi⟩, heq⟩
    exact ⟨hm, i, hi, heq⟩
  · rintro ⟨hm, i, hi, heq⟩
    exact ⟨i, ⟨hm, hi⟩, heq⟩

section Owners

variable {hash : String → UInt32} {v : Nat} {ids : List String} {hr : HashRing}

theorem RingOf.isLeast_owner (h : RingOf hash v ids hr) {pos : UInt32} (hpos : pos ∈ hr.ring) :
    IsLeast {m | m ∈ ids ∧ Claims hash v m pos} (hr.owner pos) := by
  have hmem := (h.placed.mem_ring pos).mp hpos
  have hget : hr.nodeMap[pos]? = some (hr.owner pos) := by
    rw [owner, Std.ExtTreeMap.getD_eq_getD_getElem?, Std.ExtTreeMap.getElem?_eq_some_getElem hmem]
    rfl
  rw [← claimants_ids]
  exact h.placed.least pos _ hget

theorem RingOf.mem_ring_iff (h : RingOf hash v ids hr) {pos : UInt32} :
    pos ∈ hr.ring ↔ ∃ m ∈ ids, Claims hash v m pos := by
  constructor
  · intro hpos
    exact ⟨_, (h.isLeast_owner hpos).1⟩
  · rintro ⟨m, hm⟩
    refine (h.placed.mem_ring pos).mpr (h.placed.claimed pos m ?_)
    rw [claimants_ids]
    exact hm

/-- As many distinct owners are met going round as members own a position. -/
theorem RingOf.length_owners (h : RingOf hash v ids hr) (hnd : ids.Nodup) (target : UInt32) :
    ((hr.clockwise target).map hr.owner).eraseDups.length =
      (ids.filter fun id => decide (∃ pos ∈ hr.ring, hr.owner pos = id)).length := by
  refine List.Perm.length_eq ((List.perm_ext_iff_of_nodup (Circle.nodup_eraseDups _)
    (hnd.filter _)).mpr fun id => ?_)
  rw [List.mem_eraseDups, List.mem_map, List.mem_filter, decide_eq_true_eq]
  simp only [mem_clockwise]
  refine (and_iff_right_of_imp ?_).symm
  rintro ⟨pos, hpos, rfl⟩
  exact (h.isLeast_owner hpos).1.1

end Owners

/-- The ring of a member set, for any hash : the order of the IDs makes no difference, nor
whether they are added one by one; a position belongs to the least member that claims it;
and a key's list is the first distinct owners met clockwise from its hash. -/
theorem fromMembersWith_spec (hash : String → UInt32) (v : Nat) {ids : List String}
    (hnd : ids.Nodup) (hne : "" ∉ ids) :
    ∃ hr : HashRing,
      (∀ ids' : List String, ids'.Perm ids → fromMembersWith hash v ids' = .ok hr ∧
        ids'.foldl (addNode hash) (new v) = hr) ∧
      hr.ring.Pairwise (· < ·) ∧
      (∀ pos, pos ∈ hr.ring ↔ ∃ m ∈ ids, Claims hash v m pos) ∧
      (∀ pos id, hr.nodeMap[pos]? = some id ↔ IsLeast {m | m ∈ ids ∧ Claims hash v m pos} id) ∧
      ∀ (key : String) (N : Nat), 1 ≤ N →
        hr.preferenceListFrom (hash key) N =
            ((hr.clockwise (hash key)).map hr.owner).eraseDups.take N ∧
          (hr.preferenceListFrom (hash key) N).Nodup ∧
          (hr.preferenceListFrom (hash key) N).length =
            min N (ids.filter fun id => decide (∃ pos ∈ hr.ring, hr.owner pos = id)).length := by
  have hbuilt := ringOf_built hash v
  have hadded : ∀ ids' : List String, RingOf hash v ids' (ids'.foldl (addNode hash) (new v)) :=
    fun ids' => ringOf_foldl (fun h id => ringOf_sortRing (ringOf_place h id)) ids'
      (ringOf_new hash v)
  have hring := hbuilt ids
  have hsorted := sorted_sortRing (ids.foldl (place hash) (new v))
  refine ⟨(ids.foldl (place hash) (new v)).sortRing, fun ids' hperm => ⟨?_, ?_⟩, ?_, fun pos => ?_,
    fun pos id => ?_, fun key N hN => ⟨preferenceListFrom_eq hsorted _ hN, ?_, ?_⟩⟩
  · have hcheck : checkMembers [] ids' = none :=
      checkMembers_eq_none (mt hperm.mem_iff.mp hne) (hperm.nodup_iff.mpr hnd) (by simp)
    rw [fromMembersWith, hcheck]
    exact congrArg _ ((hbuilt ids').eq hring (fun _ => hperm.mem_iff) (sorted_sortRing _) hsorted)
  · exact (hadded ids').eq hring (fun _ => hperm.mem_iff)
      (sorted_foldl_addNode ids' List.Pairwise.nil) hsorted
  · refine (hsorted.and hring.placed.nodup).imp fun hab => ?_
    exact UInt32.lt_of_le_of_ne hab.1 hab.2
  · exact hring.mem_ring_iff
  · rw [hring.placed.getElem?_eq_some, claimants_ids]
  · rw [preferenceListFrom_eq hsorted _ hN]
    exact (Circle.nodup_eraseDups _).sublist (List.take_sublist ..)
  · rw [preferenceListFrom_eq hsorted _ hN, List.length_take, hring.length_owners hnd]

/-- Three members, two of which claim one position when the hash tells only the first
letters apart. -/
theorem fromMembersWith_spec_collision :
    let hash : String → UInt32 := fun s => if s.startsWith "C" then 7 else 3
    ∃ hr : HashRing, fromMembersWith hash 2 ["C", "B", "A"] = .ok hr ∧
      ["A", "B", "C"].foldl (addNode hash) (new 2) = hr ∧
      hr.preferenceListFrom (hash "C1") 3 = ["C", "A"] := by
  intro hash
  have hnd : ["A", "B", "C"].Nodup := by decide
  obtain ⟨hr, hsame, -, -, -, -⟩ := fromMembersWith_spec hash 2 hnd (by decide)
  have hring := (hsame ["C", "B", "A"] (by decide)).2
  refine ⟨hr, (hsame ["C", "B", "A"] (by decide)).1, (hsame ["A", "B", "C"] (by decide)).2, ?_⟩
  rw [← hring]
  decide +kernel

end HashRing

end DistributedKV
