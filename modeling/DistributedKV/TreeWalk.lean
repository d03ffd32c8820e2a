import DistributedKV.Panics
import DistributedKV.Merkle

/-!
# Comparing two trees

`walk` goes down from the root into the subtrees whose hashes disagree, and notes the
leaves it comes to. It takes the other tree by position, whatever its length, so a tree that
is too short makes it panic (`walk_returns_iff`).

Between two trees that `Build` made it finds what differs. A node of a built tree is the
hash of its two children (`combined_of_build`), so with no two pairs of hashes combined alike
equal nodes stand over equal leaves (`leaf_eq_of_node_eq`), and what the walk skips is equal.
The buckets under node `2^d + j - 1` are those from `j * 2^m` up to `(j + 1) * 2^m`, with `m`
levels left, and `walk_eq` follows the recursion down these ranges : the buckets that differ,
in order.
-/

open Panics

namespace DistributedKV

variable {Hash : Type}

/-- A tree as a peer describes it. Nothing ties the nodes to the bucket count. -/
structure PeerTree (Hash : Type) where
  numBuckets : Int
  nodes : List Hash

def isLeafIndex (nodeIndex numBuckets : Nat) : Bool :=
  numBuckets ≤ nodeIndex + 1

def bucketIndexOfLeaf (nodeIndex numBuckets : Nat) : Nat :=
  nodeIndex - (numBuckets - 1)

def walk [DecidableEq Hash] (mine : Tree Hash) (theirs : List Hash) (nodeIndex : Nat)
    (diverged : List Nat) : Go (List Nat) := do
  let a ← Panics.get mine.nodes nodeIndex
  let b ← Panics.get theirs nodeIndex
  if a = b then return diverged
  else if _h : isLeafIndex nodeIndex mine.numBuckets then
    return diverged ++ [bucketIndexOfLeaf nodeIndex mine.numBuckets]
  else do
    let diverged ← walk mine theirs (2 * nodeIndex + 1) diverged
    walk mine theirs (2 * nodeIndex + 2) diverged
termination_by mine.numBuckets - nodeIndex
decreasing_by all_goals simp only [isLeafIndex, decide_eq_true_eq] at _h; omega

def divergentBuckets [DecidableEq Hash] (mine : Tree Hash) (theirs : PeerTree Hash) :
    Go (List Nat) :=
  if (mine.numBuckets : Int) ≠ theirs.numBuckets then
    .error (.raised "merkle: cannot compare trees built with different NumBuckets")
  else walk mine theirs.nodes 0 []

/-! ## Where a comparison comes to -/

/-- A comparison of two trees from position `i` comes to position `j`. -/
inductive Reached (mine : Tree Hash) (theirs : List Hash) : Nat → Nat → Prop
  | here (i : Nat) : Reached mine theirs i i
  | left {i j : Nat} (hinner : ¬isLeafIndex i mine.numBuckets)
      (hdiffer : mine.nodes[i]? ≠ theirs[i]?) (h : Reached mine theirs (2 * i + 1) j) :
      Reached mine theirs i j
  | right {i j : Nat} (hinner : ¬isLeafIndex i mine.numBuckets)
      (hdiffer : mine.nodes[i]? ≠ theirs[i]?) (h : Reached mine theirs (2 * i + 2) j) :
      Reached mine theirs i j

/-- A comparison stops where the nodes agree, and at a leaf. -/
theorem eq_of_reached {mine : Tree Hash} {theirs : List Hash} {i j : Nat}
    (h : Reached mine theirs i j)
    (hstop : isLeafIndex i mine.numBuckets ∨ mine.nodes[i]? = theirs[i]?) : j = i := by
  cases h with
  | here => rfl
  | left hinner hdiffer | right hinner hdiffer => exact (hstop.elim hinner hdiffer).elim

theorem walk_returns_iff [DecidableEq Hash] {mine : Tree Hash}
    (hfull : mine.nodes.length = 2 * mine.numBuckets - 1) (theirs : List Hash) (i : Nat)
    (diverged : List Nat) (hi : i < mine.nodes.length) :
    Returns (walk mine theirs i diverged) ↔
      ∀ j, Reached mine theirs i j → j < theirs.length := by
  have ha := List.getElem?_eq_getElem hi
  rw [walk, get_natCast ha, ok_bind]
  by_cases hlt : i < theirs.length
  · have hb := List.getElem?_eq_getElem hlt
    rw [get_natCast hb, ok_bind]
    by_cases hsame : mine.nodes[i] = theirs[i]
    · rw [if_pos hsame]
      refine iff_of_true (returns_ok _) fun j hj => ?_
      rwa [eq_of_reached hj (.inr (by rw [ha, hb, hsame]))]
    · rw [if_neg hsame]
      by_cases hleaf : isLeafIndex i mine.numBuckets
      · rw [dif_pos hleaf]
        refine iff_of_true (returns_ok _) fun j hj => ?_
        rwa [eq_of_reached hj (.inl hleaf)]
      · have hdiffer : mine.nodes[i]? ≠ theirs[i]? := by
          rwa [ha, hb, ne_eq, Option.some_inj]
        have hinner : i + 1 < mine.numBuckets := by simpa [isLeafIndex] using hleaf
        have hleft := walk_returns_iff hfull theirs (2 * i + 1) diverged (by omega)
        have hright := fun d => walk_returns_iff hfull theirs (2 * i + 2) d (by omega)
        rw [dif_neg hleaf, returns_bind]
        constructor
        · rintro ⟨d, hd, hreturns⟩ j hj
          cases hj with
          | here => exact hlt
          | left _ _ h => exact hleft.mp ⟨d, hd⟩ j h
          | right _ _ h => exact (hright d).mp hreturns j h
        · intro h
          obtain ⟨d, hd⟩ := hleft.mpr fun j hj => h j (.left hleaf hdiffer hj)
          exact ⟨d, hd, (hright d).mpr fun j hj => h j (.right hleaf hdiffer hj)⟩
  · refine iff_of_false (fun h => hlt ?_) fun h => hlt (h i (.here i))
    obtain ⟨b, hb, -⟩ := returns_bind.mp h
    exact returns_get_natCast.mp ⟨b, hb⟩
termination_by mine.numBuckets - i

theorem divergentBuckets_returns_iff [DecidableEq Hash] {mine : Tree Hash}
    (hpos : mine.numBuckets ≠ 0)
    (hfull : mine.nodes.length = 2 * mine.numBuckets - 1) (theirs : PeerTree Hash) :
    Returns (divergentBuckets mine theirs) ↔
      theirs.numBuckets = mine.numBuckets ∧
        ∀ j, Reached mine theirs.nodes 0 j → j < theirs.nodes.length := by
  unfold divergentBuckets
  split
  · next hne => exact iff_of_false (not_returns_error _) fun h => hne h.1.symm
  · next heq =>
    rw [walk_returns_iff hfull _ _ _ (by omega)]
    exact (and_iff_right (not_not.mp heq).symm).symm

/-! ## Trees that were built -/

def Tree.node [Inhabited Hash] (t : Tree Hash) (i : Nat) : Hash :=
  t.nodes.getD i default

/-- As many nodes as `Build` allots, and each inner one the hash of its children. -/
structure Tree.Combined [Inhabited Hash] (h : Hasher Hash) (t : Tree Hash) : Prop where
  length_nodes : t.nodes.length = 2 * t.numBuckets - 1
  combine : ∀ i, i + 1 < t.numBuckets →
    t.node i = combineHashes h (t.node (2 * i + 1)) (t.node (2 * i + 2))

section Built

variable [Inhabited Hash] {h : Hasher Hash}

/-- The loop that fills the inner nodes, from the last one down : what was there stays
behind the new nodes, and every new node combines its children. -/
theorem foldl_combineHashes (h : Hasher Hash) : ∀ (n : Nat) (rear : List Hash),
    n + 1 ≤ rear.length → ∀ nodes, (List.range n).reverse.foldl (fun nodes i =>
      combineHashes h (nodes.getD i default) (nodes.getD (i + 1) default) :: nodes) rear = nodes →
    nodes.drop n = rear ∧ ∀ i < n, nodes.getD i default =
      combineHashes h (nodes.getD (2 * i + 1) default) (nodes.getD (2 * i + 2) default)
  | 0, rear, _, nodes, hnodes => by
    simp only [List.range_zero, List.reverse_nil, List.foldl_nil] at hnodes
    exact ⟨by rw [← hnodes, List.drop_zero], fun i hi => absurd hi (Nat.not_lt_zero i)⟩
  | n + 1, rear, hlen, nodes, hnodes => by
    simp only [List.range_succ, List.reverse_append, List.reverse_singleton, List.singleton_append,
      List.foldl_cons] at hnodes
    obtain ⟨hdrop, hcombine⟩ := foldl_combineHashes h n _
      (by rw [List.length_cons]; omega) nodes hnodes
    have hget : ∀ k, nodes.getD (n + k) default =
        (combineHashes h (rear.getD n default) (rear.getD (n + 1) default) :: rear).getD k
          default := by
      intro k
      rw [← hdrop, List.getD_eq_getElem?_getD, List.getD_eq_getElem?_getD, List.getElem?_drop]
    refine ⟨by rw [← List.drop_drop, hdrop, List.drop_one, List.tail_cons], fun i hi => ?_⟩
    rcases Nat.lt_succ_iff_lt_or_eq.mp hi with hi | rfl
    · exact hcombine i hi
    · have hfirst := hget 0
      have hleft := hget (i + 1)
      have hright := hget (i + 2)
      rw [Nat.add_zero, List.getD_cons_zero] at hfirst
      rw [List.getD_cons_succ, ← Nat.add_assoc, ← Nat.two_mul] at hleft hright
      rw [hfirst, hleft, hright]

theorem combined_of_build {listing : Faults} {reading : String → Faults} {ds : DataStore}
    {numBuckets : Nat} {t : Tree Hash} (ht : build h listing reading ds numBuckets = .ok t) :
    t.Combined h := by
  obtain ⟨hcount, hlength⟩ := length_nodes_of_build ht
  obtain ⟨leaves, hlen, rfl, -⟩ := leaves_of_build ht
  refine ⟨hlength, fun i hi => ?_⟩
  have hi : i + 1 < leaves.length := by rw [hlen]; exact hi
  obtain ⟨-, hcombine⟩ := foldl_combineHashes h (leaves.length - 1) leaves (by omega) _ rfl
  exact hcombine i (by omega)

variable {t u : Tree Hash}

theorem get_node (ht : t.Combined h) {i : Nat} (hi : i < 2 * t.numBuckets - 1) :
    Panics.get t.nodes i = .ok (t.node i) := by
  have hi : i < t.nodes.length := by rw [ht.length_nodes]; exact hi
  rw [get_natCast (List.getElem?_eq_getElem hi), Tree.node, List.getD_eq_getElem?_getD,
    List.getElem?_eq_getElem hi, Option.getD_some]

/-- Equal nodes stand over equal leaves. -/
theorem leaf_eq_of_node_eq (hinj : Function.Injective2 (combineHashes h)) (ht : t.Combined h)
    (hu : u.Combined h) : ∀ (m d : Nat), t.numBuckets = 2 ^ (d + m) → u.numBuckets = 2 ^ (d + m) →
    ∀ j < 2 ^ d, t.node (2 ^ d + j - 1) = u.node (2 ^ d + j - 1) →
    ∀ b, j * 2 ^ m ≤ b → b < (j + 1) * 2 ^ m → t.leaf b = u.leaf b
  | 0, d, hn, hn', j, _, heq, b, hlow, hhigh => by
    obtain rfl : b = j := by omega
    rw [Nat.add_zero] at hn hn'
    have hpos := Nat.two_pow_pos d
    have hindex : 2 ^ d - 1 + b = 2 ^ d + b - 1 := by omega
    rw [Tree.leaf, Tree.leaf, leafIndex, leafIndex, hn, hn', hindex]
    exact heq
  | m + 1, d, hn, hn', j, hj, heq, b, hlow, hhigh => by
    have hpos := Nat.two_pow_pos d
    have hinner : 2 ^ d + j - 1 + 1 < 2 ^ (d + (m + 1)) := by
      have : 2 ^ (d + 1) ≤ 2 ^ (d + (m + 1)) := Nat.pow_le_pow_right (by decide) (by omega)
      rw [pow_succ] at this
      omega
    rw [ht.combine _ (by rw [hn]; exact hinner), hu.combine _ (by rw [hn']; exact hinner)] at heq
    obtain ⟨hleft, hright⟩ := hinj heq
    have hdepth : d + (m + 1) = d + 1 + m := by omega
    rw [hdepth] at hn hn'
    rw [pow_succ] at hlow hhigh
    have hchild : 2 * (2 ^ d + j - 1) + 1 = 2 ^ (d + 1) + 2 * j - 1 := by rw [pow_succ]; omega
    have hchild' : 2 * (2 ^ d + j - 1) + 2 = 2 ^ (d + 1) + (2 * j + 1) - 1 := by
      rw [pow_succ]; omega
    have hwidth : 2 * j < 2 ^ (d + 1) ∧ 2 * j + 1 < 2 ^ (d + 1) := by rw [pow_succ]; omega
    rw [hchild] at hleft
    rw [hchild'] at hright
    rcases Nat.lt_or_ge b ((2 * j + 1) * 2 ^ m) with hb | hb
    · exact leaf_eq_of_node_eq hinj ht hu m (d + 1) hn hn' (2 * j) hwidth.1 hleft b
        (by linarith) hb
    · exact leaf_eq_of_node_eq hinj ht hu m (d + 1) hn hn' (2 * j + 1) hwidth.2 hright b hb
        (by linarith)

/-- One step of the walk, on built trees. -/
theorem walk_node [DecidableEq Hash] (ht : t.Combined h) (hu : u.Combined h)
    (hsame : u.numBuckets = t.numBuckets) {i : Nat} (hi : i < 2 * t.numBuckets - 1)
    (diverged : List Nat) : walk t u.nodes i diverged =
      if t.node i = u.node i then .ok diverged
      else if isLeafIndex i t.numBuckets then
        .ok (diverged ++ [bucketIndexOfLeaf i t.numBuckets])
      else walk t u.nodes (2 * i + 1) diverged >>= walk t u.nodes (2 * i + 2) := by
  rw [walk, get_node ht hi, get_node hu (by rw [hsame]; exact hi), ok_bind, ok_bind]
  split
  · rfl
  · split <;> rfl

/-- The leaves under a node that differ, in order. -/
theorem walk_eq [DecidableEq Hash] (hinj : Function.Injective2 (combineHashes h))
    (ht : t.Combined h) (hu : u.Combined h) : ∀ (m d : Nat), t.numBuckets = 2 ^ (d + m) →
    u.numBuckets = 2 ^ (d + m) → ∀ j < 2 ^ d, ∀ diverged : List Nat,
    walk t u.nodes (2 ^ d + j - 1) diverged =
      .ok (diverged ++ (List.range' (j * 2 ^ m) (2 ^ m)).filter fun b => t.leaf b ≠ u.leaf b)
  | 0, d, hn, hn', j, hj, diverged => by
    have hpos := Nat.two_pow_pos d
    rw [Nat.add_zero] at hn hn'
    have hindex : 2 ^ d - 1 + j = 2 ^ d + j - 1 := by omega
    have hleaf : isLeafIndex (2 ^ d + j - 1) t.numBuckets = true := by
      simp only [isLeafIndex, hn, decide_eq_true_eq]
      omega
    have hbucket : bucketIndexOfLeaf (2 ^ d + j - 1) t.numBuckets = j := by
      rw [bucketIndexOfLeaf, hn]
      omega
    have hnode : ∀ {v : Tree Hash}, v.numBuckets = 2 ^ d → v.leaf j = v.node (2 ^ d + j - 1) := by
      intro v hv
      rw [Tree.leaf, leafIndex, hv, hindex]
      rfl
    rw [walk_node ht hu (by rw [hn, hn']) (by omega), if_pos hleaf, hbucket, ← hnode hn,
      ← hnode hn', pow_zero, Nat.mul_one, List.range'_one, List.filter_singleton]
    by_cases heq : t.leaf j = u.leaf j
    · simp [heq]
    · simp [heq]
  | m + 1, d, hn, hn', j, hj, diverged => by
    have hpos := Nat.two_pow_pos d
    have hdouble : 2 ^ (d + 1) = 2 ^ d * 2 := pow_succ 2 d
    have hbelow : 2 ^ (d + 1) ≤ 2 ^ (d + (m + 1)) := Nat.pow_le_pow_right (by decide) (by omega)
    have hleaf : ¬isLeafIndex (2 ^ d + j - 1) t.numBuckets = true := by
      simp only [isLeafIndex, hn, decide_eq_true_eq]
      omega
    rw [walk_node ht hu (by rw [hn, hn']) (by omega), if_neg hleaf]
    split
    · next heq =>
      -- nothing is looked at below equal nodes, and nothing differs there
      have hnone : (List.range' (j * 2 ^ (m + 1)) (2 ^ (m + 1))).filter
          (fun b => decide (t.leaf b ≠ u.leaf b)) = [] := by
        refine List.filter_eq_nil_iff.mpr fun b hb => ?_
        obtain ⟨hlow, hhigh⟩ := List.mem_range'_1.mp hb
        simpa using leaf_eq_of_node_eq hinj ht hu (m + 1) d hn hn' j hj heq b hlow
          (by rw [Nat.add_mul, Nat.one_mul]; exact hhigh)
      rw [hnone, List.append_nil]
    · have hdepth : d + (m + 1) = d + 1 + m := by omega
      rw [hdepth] at hn hn'
      have hleft : 2 * (2 ^ d + j - 1) + 1 = 2 ^ (d + 1) + 2 * j - 1 := by omega
      have hright : 2 * (2 ^ d + j - 1) + 2 = 2 ^ (d + 1) + (2 * j + 1) - 1 := by omega
      have hsplit : List.range' (j * 2 ^ (m + 1)) (2 ^ (m + 1)) =
          List.range' (2 * j * 2 ^ m) (2 ^ m) ++ List.range' ((2 * j + 1) * 2 ^ m) (2 ^ m) := by
        have hstart : (2 * j + 1) * 2 ^ m = 2 * j * 2 ^ m + 1 * 2 ^ m := by ring
        have hlow : j * 2 ^ (m + 1) = 2 * j * 2 ^ m := by ring
        have hlen : 2 ^ (m + 1) = 2 ^ m + 2 ^ m := by ring
        rw [hstart, hlow, hlen, Nat.one_mul, ← List.range'_append_1]
      rw [hleft, walk_eq hinj ht hu m (d + 1) hn hn' (2 * j) (by omega), ok_bind, hright,
        walk_eq hinj ht hu m (d + 1) hn hn' (2 * j + 1) (by omega), hsplit, List.filter_append,
        List.append_assoc]

/-- With no two pairs of hashes combined alike, the comparison of two built trees returns the
buckets whose leaves differ, in order, and nothing when the roots agree. -/
theorem divergentBuckets_eq [DecidableEq Hash] (hinj : Function.Injective2 (combineHashes h))
    {k : Nat} {listing listing' : Faults} {reading reading' : String → Faults} {a b : DataStore}
    (ht : build h listing reading a (4 ^ k) = .ok t)
    (hu : build h listing' reading' b (4 ^ k) = .ok u) :
    divergentBuckets t ⟨u.numBuckets, u.nodes⟩ =
        .ok ((List.range (4 ^ k)).filter fun bucket => t.leaf bucket ≠ u.leaf bucket) ∧
      (t.nodes[0]? = u.nodes[0]? → divergentBuckets t ⟨u.numBuckets, u.nodes⟩ = .ok []) := by
  obtain ⟨hcount, -⟩ := length_nodes_of_build ht
  obtain ⟨hcount', -⟩ := length_nodes_of_build hu
  have hpow : 4 ^ k = 2 ^ (0 + 2 * k) := by rw [Nat.zero_add, pow_mul]; rfl
  have hwalk := walk_eq hinj (combined_of_build ht) (combined_of_build hu) (2 * k) 0
    (by rw [hcount, hpow]) (by rw [hcount', hpow]) 0 (by decide)
  have heq : divergentBuckets t ⟨u.numBuckets, u.nodes⟩ = walk t u.nodes 0 [] := by
    rw [divergentBuckets, if_neg (by rw [hcount, hcount']; exact not_not.mpr rfl)]
  refine ⟨?_, fun hroot => ?_⟩
  · rw [heq, hpow, List.range_eq_range', Nat.zero_add]
    simpa using hwalk []
  · have hlen : 0 < 2 * t.numBuckets - 1 := by
      rw [hcount, hpow]
      have := Nat.two_pow_pos (0 + 2 * k)
      omega
    have hnode : t.node 0 = u.node 0 := by
      rw [Tree.node, Tree.node, List.getD_eq_getElem?_getD, List.getD_eq_getElem?_getD, hroot]
    rw [heq, walk_node (combined_of_build ht) (combined_of_build hu) (by rw [hcount, hcount'])
      hlen, if_pos hnode]

/-- Bytes with a mark before each and one after the last. -/
def markedBytes : List UInt8 → List UInt8
  | [] => [0]
  | b :: l => 1 :: b :: markedBytes l

theorem markedBytes_inj : ∀ {l l' r r' : List UInt8},
    markedBytes l ++ r = markedBytes l' ++ r' → l = l' ∧ r = r'
  | [], [], r, r', heq => ⟨rfl, by simpa [markedBytes] using heq⟩
  | [], b :: l', r, r', heq => by simp [markedBytes] at heq
  | b :: l, [], r, r', heq => by simp [markedBytes] at heq
  | b :: l, b' :: l', r, r', heq => by
    simp only [markedBytes, List.cons_append, List.cons.injEq, true_and] at heq
    obtain ⟨rfl, hrest⟩ := markedBytes_inj heq.2
    exact ⟨by rw [heq.1], hrest⟩

/-- The bytes themselves as their digest, written with marks. -/
def markedHasher : Hasher ByteArray :=
  ⟨id, fun hash => ⟨(markedBytes hash.data.toList).toArray⟩⟩

theorem combineHashes_markedHasher_inj : Function.Injective2 (combineHashes markedHasher) := by
  intro left left' right right' heq
  have heq := congrArg (fun bytes : ByteArray => bytes.data.toList) heq
  simp only [combineHashes, markedHasher, id, ByteArray.data_append, Array.toList_append] at heq
  obtain ⟨hleft, hright⟩ := markedBytes_inj heq
  obtain ⟨hright, -⟩ := markedBytes_inj (congrArg (· ++ []) hright)
  exact ⟨ByteArray.ext (Array.toList_inj.mp hleft), ByteArray.ext (Array.toList_inj.mp hright)⟩

/-- Two stores of one key with different values differ in the bucket of the key. -/
theorem divergentBuckets_storeWith :
    ∃ t u, build markedHasher noFaults (fun _ => noFaults) (storeWith "1" plainContext) (4 ^ 1) =
        .ok t ∧
      build markedHasher noFaults (fun _ => noFaults) (storeWith "2" plainContext) (4 ^ 1) = .ok u ∧
      divergentBuckets t ⟨u.numBuckets, u.nodes⟩ = .ok [bucketFor "k" 4] := by
  obtain ⟨t, ht⟩ := exists_build markedHasher (storeWith "1" plainContext) (4 ^ 1) rfl
  obtain ⟨u, hu⟩ := exists_build markedHasher (storeWith "2" plainContext) (4 ^ 1) rfl
  refine ⟨t, u, ht, hu, ?_⟩
  rw [(divergentBuckets_eq combineHashes_markedHasher_inj ht hu).1]
  have htexts : (List.range (4 ^ 1)).filter (fun b =>
      contentsText (bucketContents (storeWith "1" plainContext) (4 ^ 1) b) ≠
        contentsText (bucketContents (storeWith "2" plainContext) (4 ^ 1) b)) =
      [bucketFor "k" 4] := by decide +kernel
  rw [← htexts]
  refine congrArg _ (List.filter_congr fun b hb => ?_)
  have hb := List.mem_range.mp hb
  rw [leaf_of_build ht hb, leaf_of_build hu hb]
  exact decide_eq_decide.mpr (not_congr String.toByteArray_inj)

end Built

end DistributedKV
