import DistributedKV.Coverage
import DistributedKV.Listing
import DistributedKV.AntiEntropy
import DistributedKV.TreeWalk

/-!
# Anti-entropy over the whole cluster

A node's round goes through its peers one after another. With each it builds the tree of its
own store, has the peer build one, compares the two and reconciles the buckets that differ
(`AntiEntropyStep`). A tree is read key by key while others write, and any number of rounds
run at the same time, next to all the other steps of the cluster (`Repair`).

What a store covers only grows as long as nothing is rolled back. So what was read is never
more than what is there, and never less than what was there at the start, and `exchanged`
follows : when a round has reconciled with a peer, each of the two covers everything the other
one held of a shared key when the round began, whatever was written in the meantime.

If nothing but anti-entropy runs (`Calm`), every version anywhere comes from a replica of its
key (`Everywhere`), and `converged` follows : once every two replicas of a key have been
reconciled, in whichever order and however interleaved, all replicas have the maximal clocks
of what they held together. Then nothing moves any more (`settled`).
-/

open Maxima

namespace DistributedKV

open DataItem (vectorClock)
open Cluster (forall_mem_concat forall_mem_set)

variable {Hash : Type}

/-! ## Trees that are built while others write -/

/-- A tree under construction : the keys left to read, and what was read. -/
structure TreeBuild where
  todo : List String
  seen : List (String × List DataItem)

/-- Bucket after bucket, the keys of each one sorted. -/
def readOrder (keys : List String) (numBuckets : Nat) : List String :=
  (List.range numBuckets).flatMap fun b =>
    (keys.filter fun k => bucketFor k numBuckets = b).insertionSort (· ≤ ·)

def TreeBuild.start (keys : List String) : TreeBuild :=
  ⟨readOrder keys antiEntropyNumBuckets, []⟩

/-- What is hashed for a bucket. -/
def bucketReads (seen : List (String × List DataItem)) (numBuckets bucket : Nat) :
    List (String × List String) :=
  (seen.filter fun p => bucketFor p.1 numBuckets = bucket).map fun p => (p.1, itemStrings p.2)

/-- The tree over what was read. -/
def treeOf [Inhabited Hash] (h : Hasher Hash) (numBuckets : Nat)
    (seen : List (String × List DataItem)) : Tree Hash :=
  ⟨numBuckets, internalNodes h ((List.range numBuckets).map fun b =>
    h.sum (contentsText (bucketReads seen numBuckets b)).toUTF8)⟩

/-! ## Calls and rounds -/

/-- How far a `RunAntiEntropy` is. -/
inductive AntiEntropyPhase
  | listing
  | building (tree : TreeBuild)
  /-- The local tree is built, over `mine`. -/
  | asking (mine : List (String × List DataItem))
  /-- The peer builds its tree. -/
  | serving (mine : List (String × List DataItem)) (tree : TreeBuild)
  | comparing (mine theirs : List (String × List DataItem))
  /-- The buckets left, and the one that is being reconciled. -/
  | reconciling (todo : List Nat) (current : Option Reconcile)
  | returned (err : Bool)

/-- One step of a `RunAntiEntropy` on the stores. Every step may fail instead. -/
inductive AntiEntropyStep [Inhabited Hash] [DecidableEq Hash] (h : Hasher Hash) (v : View)
    (self peer : String) (stores : String → DataStore) :
    AntiEntropyPhase → (String → DataStore) → AntiEntropyPhase → Prop
  | listLocal (faults : Faults) (keys : List String)
      (hkeys : (stores self).keys faults = some keys) :
      AntiEntropyStep h v self peer stores .listing stores (.building (.start keys))
  | readLocal (faults : Faults) (key : String) (todo : List String)
      (seen : List (String × List DataItem)) (items : List DataItem)
      (hread : (stores self).get faults key = some items) :
      AntiEntropyStep h v self peer stores (.building ⟨key :: todo, seen⟩) stores
        (.building ⟨todo, seen ++ [(key, items)]⟩)
  | builtLocal (seen : List (String × List DataItem)) :
      AntiEntropyStep h v self peer stores (.building ⟨[], seen⟩) stores (.asking seen)
  | listRemote (faults : Faults) (mine : List (String × List DataItem)) (keys : List String)
      (hkeys : (stores peer).keys faults = some keys) :
      AntiEntropyStep h v self peer stores (.asking mine) stores (.serving mine (.start keys))
  | readRemote (faults : Faults) (mine : List (String × List DataItem)) (key : String)
      (todo : List String) (seen : List (String × List DataItem)) (items : List DataItem)
      (hread : (stores peer).get faults key = some items) :
      AntiEntropyStep h v self peer stores (.serving mine ⟨key :: todo, seen⟩) stores
        (.serving mine ⟨todo, seen ++ [(key, items)]⟩)
  | builtRemote (mine seen : List (String × List DataItem)) :
      AntiEntropyStep h v self peer stores (.serving mine ⟨[], seen⟩) stores (.comparing mine seen)
  | compare (mine theirs : List (String × List DataItem)) (diverged : List Nat)
      (hdiverged : divergentBuckets (treeOf h antiEntropyNumBuckets mine)
        ⟨antiEntropyNumBuckets, (treeOf h antiEntropyNumBuckets theirs).nodes⟩ = .ok diverged) :
      AntiEntropyStep h v self peer stores (.comparing mine theirs) stores
        (.reconciling diverged none)
  | nextBucket (bucket : Nat) (todo : List Nat) :
      AntiEntropyStep h v self peer stores (.reconciling (bucket :: todo) none) stores
        (.reconciling todo (some (Reconcile.start self peer bucket)))
  | bucketStep (todo : List Nat) (r r' : Reconcile) (stores' : String → DataStore)
      (hstep : ReconcileStep v stores r stores' r') :
      AntiEntropyStep h v self peer stores (.reconciling todo (some r)) stores'
        (.reconciling todo (some r'))
  | bucketDone (todo : List Nat) (r : Reconcile) (hreturned : r.phase = .returned false) :
      AntiEntropyStep h v self peer stores (.reconciling todo (some r)) stores
        (.reconciling todo none)
  | done : AntiEntropyStep h v self peer stores (.reconciling [] none) stores (.returned false)
  | fail (phase : AntiEntropyPhase) :
      AntiEntropyStep h v self peer stores phase stores (.returned true)

/-- Every member but the node itself. -/
def coReplicantPeers (members : List String) (self : String) : List String :=
  members.filter (· ≠ self)

/-- A `runAntiEntropyRound` : the peers left, the call under way, and the peers a call with
which returned nil. -/
structure Round where
  self : String
  todo : List String
  current : Option (String × AntiEntropyPhase)
  reconciled : List String
  /-- The stores when the round began. -/
  began : String → DataStore

def Round.start (members : List String) (self : String) (stores : String → DataStore) : Round :=
  ⟨self, coReplicantPeers members self, none, [], stores⟩

/-- Peers come in any order, and one that is marked dead is skipped. A failed call is only
logged. A canceled round starts no further call. -/
inductive RoundStep [Inhabited Hash] [DecidableEq Hash] (h : Hasher Hash) (v : View)
    (stores : String → DataStore) (r : Round) : (String → DataStore) → Round → Prop
  | visit (peer : String) (hidle : r.current = none) (hpeer : peer ∈ r.todo) :
      RoundStep h v stores r stores
        { r with todo := r.todo.erase peer, current := some (peer, .listing) }
  | skip (peer : String) (hidle : r.current = none) (hpeer : peer ∈ r.todo) :
      RoundStep h v stores r stores { r with todo := r.todo.erase peer }
  | call (peer : String) (phase phase' : AntiEntropyPhase) (stores' : String → DataStore)
      (hcurrent : r.current = some (peer, phase))
      (hstep : AntiEntropyStep h v r.self peer stores phase stores' phase') :
      RoundStep h v stores r stores' { r with current := some (peer, phase') }
  | succeeded (peer : String) (hcurrent : r.current = some (peer, .returned false)) :
      RoundStep h v stores r stores
        { r with current := none, reconciled := peer :: r.reconciled }
  | failed (peer : String) (hcurrent : r.current = some (peer, .returned true)) :
      RoundStep h v stores r stores { r with current := none }
  | cancel (hidle : r.current = none) : RoundStep h v stores r stores { r with todo := [] }

/-- A cluster in which any number of rounds are under way. -/
structure Repair where
  cluster : Cluster
  rounds : List Round

/-! ## The trees that are compared -/

section Trees

variable [Inhabited Hash] {h : Hasher Hash}

/-- The reads of one bucket, in the order they are made. -/
theorem filter_readOrder (keys : List String) {numBuckets bucket : Nat} (hb : bucket < numBuckets) :
    (readOrder keys numBuckets).filter (fun k => bucketFor k numBuckets = bucket) =
      (keys.filter fun k => bucketFor k numBuckets = bucket).insertionSort (· ≤ ·) := by
  have hmem : ∀ b, ∀ k ∈ (keys.filter fun k => bucketFor k numBuckets = b).insertionSort (· ≤ ·),
      bucketFor k numBuckets = b := by
    intro b k hk
    simpa using (List.mem_filter.mp ((List.mem_insertionSort _).mp hk)).2
  have hother : ∀ bs : List Nat, bucket ∉ bs → (bs.flatMap fun b => ((keys.filter fun k =>
      bucketFor k numBuckets = b).insertionSort (· ≤ ·)).filter fun k =>
        bucketFor k numBuckets = bucket) = [] := by
    refine fun bs hbs => List.flatMap_eq_nil_iff.mpr fun b hb => List.filter_eq_nil_iff.mpr ?_
    intro k hk
    simpa [hmem b k hk] using fun heq : b = bucket => hbs (heq ▸ hb)
  obtain ⟨before, behind, hrange⟩ := List.append_of_mem (List.mem_range.mpr hb)
  have hnodup : (before ++ bucket :: behind).Nodup := hrange ▸ List.nodup_range
  obtain ⟨hbefore, hbehind⟩ : bucket ∉ before ∧ bucket ∉ behind := by
    simpa using (List.nodup_middle.mp hnodup).notMem
  rw [readOrder, List.filter_flatMap, hrange, List.flatMap_append, List.flatMap_cons,
    hother before hbefore, hother behind hbehind, List.nil_append, List.append_nil]
  exact List.filter_eq_self.mpr fun k hk => by simp [hmem bucket k hk]

/-- A store that is read in one go gives the tree that `build` gives. -/
theorem treeOf_eq_build {listing : Faults} {reading : String → Faults} {ds : DataStore}
    {numBuckets : Nat} {t : Tree Hash} (ht : build h listing reading ds numBuckets = .ok t) :
    treeOf h numBuckets ((readOrder ds.persister.keys numBuckets).map fun k => (k, ds.versions k)) =
      t := by
  obtain ⟨leaves, hlen, rfl, hleaf⟩ := leaves_of_build ht
  have hleaves : (List.range numBuckets).map (fun b => h.sum (contentsText (bucketReads
      ((readOrder ds.persister.keys numBuckets).map fun k => (k, ds.versions k))
      numBuckets b)).toUTF8) = leaves := by
    refine List.ext_getElem? fun b => ?_
    by_cases hb : b < numBuckets
    · rw [hleaf b hb, List.getElem?_map, List.getElem?_range hb, Option.map_some, bucketReads,
        List.filter_map, List.map_map, bucketContents, bucketKeys, ← filter_readOrder _ hb]
      rfl
    · rw [List.getElem?_eq_none (by simpa using hb), List.getElem?_eq_none (by omega)]
  rw [treeOf, hleaves]

theorem leaf_treeOf {numBuckets bucket : Nat} (seen : List (String × List DataItem))
    (hb : bucket < numBuckets) : (treeOf h numBuckets seen).leaf bucket =
      h.sum (contentsText (bucketReads seen numBuckets bucket)).toUTF8 := by
  obtain ⟨inner, hinner, heq⟩ := internalNodes_eq_append h ((List.range numBuckets).map fun b =>
    h.sum (contentsText (bucketReads seen numBuckets b)).toUTF8)
  rw [List.length_map, List.length_range] at hinner
  have hindex : inner.length ≤ numBuckets - 1 + bucket := by omega
  rw [Tree.leaf, leafIndex, treeOf, heq, List.getD_eq_getElem?_getD,
    List.getElem?_append_right hindex, hinner, Nat.add_sub_cancel_left, List.getElem?_map,
    List.getElem?_range hb]
  rfl

theorem combined_treeOf (numBuckets : Nat) (seen : List (String × List DataItem)) :
    (treeOf h numBuckets seen).Combined h := by
  obtain ⟨inner, hinner, heq⟩ := internalNodes_eq_append h ((List.range numBuckets).map fun b =>
    h.sum (contentsText (bucketReads seen numBuckets b)).toUTF8)
  rw [List.length_map, List.length_range] at hinner
  refine ⟨?_, fun i hi => ?_⟩
  · simp only [treeOf, heq, List.length_append, hinner, List.length_map, List.length_range]
    omega
  · have hi : i + 1 < numBuckets := hi
    obtain ⟨-, hcombine⟩ := foldl_combineHashes h (numBuckets - 1)
      ((List.range numBuckets).map fun b =>
        h.sum (contentsText (bucketReads seen numBuckets b)).toUTF8)
      (by rw [List.length_map, List.length_range]; omega) _ rfl
    have := hcombine i (by omega)
    simpa [Tree.node, treeOf, internalNodes] using this

/-- The comparison gives the buckets whose reads are hashed differently. -/
theorem divergentBuckets_treeOf [DecidableEq Hash]
    (hcombine : Function.Injective2 (combineHashes h))
    (mine theirs : List (String × List DataItem)) :
    divergentBuckets (treeOf h antiEntropyNumBuckets mine)
        ⟨antiEntropyNumBuckets, (treeOf h antiEntropyNumBuckets theirs).nodes⟩ =
      .ok ((List.range antiEntropyNumBuckets).filter fun b =>
        h.sum (contentsText (bucketReads mine antiEntropyNumBuckets b)).toUTF8 ≠
          h.sum (contentsText (bucketReads theirs antiEntropyNumBuckets b)).toUTF8) := by
  have hwalk := walk_eq hcombine (combined_treeOf antiEntropyNumBuckets mine)
    (combined_treeOf antiEntropyNumBuckets theirs) 4 0 rfl rfl 0 (by decide) []
  have hsame : ((treeOf h antiEntropyNumBuckets mine).numBuckets : Int) = antiEntropyNumBuckets :=
    rfl
  rw [divergentBuckets, if_neg (not_not.mpr hsame)]
  refine hwalk.trans (congrArg _ ?_)
  rw [List.nil_append, List.range_eq_range']
  refine List.filter_congr fun b hb => ?_
  have hb : b < antiEntropyNumBuckets := by simpa [antiEntropyNumBuckets] using hb
  rw [leaf_treeOf _ hb, leaf_treeOf _ hb]

end Trees

/-! ## What a reconciliation passes on -/

/-- A read that the text of its leaf determines. -/
structure ClearRead (p : String × List DataItem) : Prop where
  key : PlainKey p.1
  some : p.2 ≠ []
  versions : ∀ x ∈ p.2, Readable x

/-- A store that lists what it holds, all of it readable in the texts of the leaves. -/
structure Clear (ds : DataStore) : Prop where
  filled : ds.persister.Filled
  keys : ∀ key, ds.versions key ≠ [] → PlainKey key
  versions : ∀ key, ∀ x ∈ ds.versions key, Readable x

section Passing

-- `mine₀` and `theirs₀` are what the two sides hold at the start, `mine` and `theirs` now
variable (v : View) (me peer : String) (mine₀ theirs₀ mine theirs : String → List DataItem)

/-- Each side covers what the other one held at the start. -/
def Passed (key : String) : Prop :=
  Below vectorClock (mine₀ key) (theirs key) ∧ Below vectorClock (theirs₀ key) (mine key)

/-- What a tree was built from : no less than was held at the start, no more than is held
now. -/
structure TreeReads (held₀ held : String → List DataItem) (todo : List String)
    (seen : List (String × List DataItem)) : Prop where
  complete : ∀ key, held₀ key ≠ [] → key ∈ todo ∨ key ∈ seen.map Prod.fst
  left : ∀ key ∈ todo, held key ≠ []
  clear : ∀ p ∈ seen, ClearRead p
  atLeast : ∀ p ∈ seen, Below vectorClock (held₀ p.1) p.2
  atMost : ∀ p ∈ seen, Below vectorClock p.2 (held p.1)

/-- What is known of a `reconcileBucket` among other writes, in each phase. -/
def Carries (bucket : Nat) : ReconcilePhase → Prop
  | .listing => True
  | .listed localKeys =>
    ∀ key, bucketFor key antiEntropyNumBuckets = bucket → mine₀ key ≠ [] → key ∈ localKeys
  | .nextKey todo => ∀ key, InScope v me peer bucket key → key ∉ todo →
    Passed mine₀ theirs₀ mine theirs key
  | .read key todo localItems =>
    (∀ k, InScope v me peer bucket k → k ∉ todo → k ≠ key → Passed mine₀ theirs₀ mine theirs k) ∧
    Below vectorClock (mine₀ key) localItems ∧ Below vectorClock localItems (mine key)
  | .pulling key todo localItems remoteItems rest =>
    (∀ k, InScope v me peer bucket k → k ∉ todo → k ≠ key → Passed mine₀ theirs₀ mine theirs k) ∧
    (Below vectorClock (mine₀ key) localItems ∧ Below vectorClock localItems (mine key)) ∧
    (Below vectorClock (theirs₀ key) remoteItems ∧ Below vectorClock remoteItems (theirs key)) ∧
    Below vectorClock (missingFrom localItems remoteItems) (mine key ++ rest)
  | .pushing key todo rest =>
    (∀ k, InScope v me peer bucket k → k ∉ todo → k ≠ key → Passed mine₀ theirs₀ mine theirs k) ∧
    Below vectorClock (theirs₀ key) (mine key) ∧
    Below vectorClock (mine₀ key) (theirs key ++ rest)
  | .returned err => err = false → ∀ key, InScope v me peer bucket key →
    Passed mine₀ theirs₀ mine theirs key

/-- What is known of a `RunAntiEntropy` among other writes, in each phase. -/
def Brings : AntiEntropyPhase → Prop
  | .listing => True
  | .building tree => TreeReads mine₀ mine tree.todo tree.seen
  | .asking seen => TreeReads mine₀ mine [] seen
  | .serving seen tree =>
    TreeReads mine₀ mine [] seen ∧ TreeReads theirs₀ theirs tree.todo tree.seen
  | .comparing seen seen' => TreeReads mine₀ mine [] seen ∧ TreeReads theirs₀ theirs [] seen'
  | .reconciling todo none => ∀ key, sharesReplicaSet v me key peer = true →
    bucketFor key antiEntropyNumBuckets ∉ todo → Passed mine₀ theirs₀ mine theirs key
  | .reconciling todo (some r) => (r.self = me ∧ r.peer = peer) ∧
    (∀ key, sharesReplicaSet v me key peer = true →
      bucketFor key antiEntropyNumBuckets ∉ todo → bucketFor key antiEntropyNumBuckets ≠ r.bucket →
      Passed mine₀ theirs₀ mine theirs key) ∧
    Carries v me peer mine₀ theirs₀ mine theirs r.bucket r.phase
  | .returned err => err = false → ∀ key, sharesReplicaSet v me key peer = true →
    Passed mine₀ theirs₀ mine theirs key

variable {v me peer mine₀ theirs₀ mine theirs} {mine' theirs' : String → List DataItem}

theorem Passed.mono {key : String} (h : Passed mine₀ theirs₀ mine theirs key)
    (hmine : Below vectorClock (mine key) (mine' key))
    (htheirs : Below vectorClock (theirs key) (theirs' key)) :
    Passed mine₀ theirs₀ mine' theirs' key :=
  ⟨h.1.trans htheirs, h.2.trans hmine⟩

theorem passed_of_nil {key : String} (hmine : mine₀ key = []) (htheirs : theirs₀ key = []) :
    Passed mine₀ theirs₀ mine theirs key := by
  rw [Passed, hmine, htheirs]
  exact ⟨nil_below _, nil_below _⟩

theorem ne_nil_of_below {a b : List DataItem} (h : Below vectorClock a b) (ha : a ≠ []) :
    b ≠ [] := by
  rintro rfl
  exact ha (below_nil h)

theorem TreeReads.mono {held₀ held held' : String → List DataItem} {todo : List String}
    {seen : List (String × List DataItem)} (h : TreeReads held₀ held todo seen)
    (hheld : ∀ key, Below vectorClock (held key) (held' key)) : TreeReads held₀ held' todo seen :=
  { h with
    left := fun key hkey => ne_nil_of_below (hheld key) (h.left key hkey)
    atMost := fun p hp => (h.atMost p hp).trans (hheld p.1) }

theorem Carries.mono {bucket : Nat} {phase : ReconcilePhase}
    (h : Carries v me peer mine₀ theirs₀ mine theirs bucket phase)
    (hmine : ∀ key, Below vectorClock (mine key) (mine' key))
    (htheirs : ∀ key, Below vectorClock (theirs key) (theirs' key)) :
    Carries v me peer mine₀ theirs₀ mine' theirs' bucket phase := by
  have hpassed : ∀ {key}, Passed mine₀ theirs₀ mine theirs key →
      Passed mine₀ theirs₀ mine' theirs' key := fun h => h.mono (hmine _) (htheirs _)
  cases phase with
  | listing => trivial
  | listed => exact h
  | nextKey => exact fun key hkey hnot => hpassed (h key hkey hnot)
  | read key =>
    obtain ⟨hother, hlow, hhigh⟩ := h
    exact ⟨fun k hk hnot hne => hpassed (hother k hk hnot hne), hlow, hhigh.trans (hmine key)⟩
  | pulling key todo localItems remoteItems rest =>
    obtain ⟨hother, ⟨hlow, hhigh⟩, ⟨hlow', hhigh'⟩, hrest⟩ := h
    exact ⟨fun k hk hnot hne => hpassed (hother k hk hnot hne), ⟨hlow, hhigh.trans (hmine key)⟩,
      ⟨hlow', hhigh'.trans (htheirs key)⟩, hrest.trans ((hmine key).append_mono (.refl rest))⟩
  | pushing key todo rest =>
    obtain ⟨hother, hlow, hrest⟩ := h
    exact ⟨fun k hk hnot hne => hpassed (hother k hk hnot hne), hlow.trans (hmine key),
      hrest.trans ((htheirs key).append_mono (.refl rest))⟩
  | returned => exact fun herr key hkey => hpassed (h herr key hkey)

theorem Brings.mono {phase : AntiEntropyPhase}
    (h : Brings v me peer mine₀ theirs₀ mine theirs phase)
    (hmine : ∀ key, Below vectorClock (mine key) (mine' key))
    (htheirs : ∀ key, Below vectorClock (theirs key) (theirs' key)) :
    Brings v me peer mine₀ theirs₀ mine' theirs' phase := by
  have hpassed : ∀ {key}, Passed mine₀ theirs₀ mine theirs key →
      Passed mine₀ theirs₀ mine' theirs' key := fun h => h.mono (hmine _) (htheirs _)
  cases phase with
  | listing => trivial
  | building | asking => exact TreeReads.mono h hmine
  | serving | comparing => exact ⟨h.1.mono hmine, h.2.mono htheirs⟩
  | reconciling todo current =>
    cases current with
    | none => exact fun key hkey hnot => hpassed (h key hkey hnot)
    | some =>
      obtain ⟨hnames, hother, hcarries⟩ := h
      exact ⟨hnames, fun key hkey hnot hne => hpassed (hother key hkey hnot hne),
        hcarries.mono hmine htheirs⟩
  | returned => exact fun herr key hkey => hpassed (h herr key hkey)

/-- What is missing makes up for what one side lacks. -/
theorem below_missingFrom (set incoming : List DataItem) :
    Below vectorClock incoming (set ++ missingFrom set incoming) := by
  intro c hc
  rw [covers_append, covers_missingFrom]
  exact Or.inr hc

/-- A key that neither side lists was on neither side at the start. -/
theorem passed_of_not_listed {bucket : Nat} {localKeys remoteKeys : List String}
    (hlocal : ∀ key, bucketFor key antiEntropyNumBuckets = bucket → mine₀ key ≠ [] →
      key ∈ localKeys)
    (hremote : ∀ key, bucketFor key antiEntropyNumBuckets = bucket → theirs₀ key ≠ [] →
      key ∈ remoteKeys) {key : String} (hkey : InScope v me peer bucket key)
    (hnot : key ∉ sharedKeys v me peer (localKeys ++ remoteKeys)) :
    Passed mine₀ theirs₀ mine theirs key := by
  have hkeys : key ∉ localKeys ++ remoteKeys := fun hmem =>
    hnot (List.mem_dedup.mpr (List.mem_filter.mpr ⟨hmem, hkey.2⟩))
  rw [List.mem_append, not_or] at hkeys
  refine passed_of_nil ?_ ?_
  · by_contra hne
    exact hkeys.1 (hlocal key hkey.1 hne)
  · by_contra hne
    exact hkeys.2 (hremote key hkey.1 hne)

/-- The key that is being worked on is done. -/
theorem passed_finish {bucket : Nat} {key : String} {todo : List String}
    (hother : ∀ k, InScope v me peer bucket k → k ∉ todo → k ≠ key →
      Passed mine₀ theirs₀ mine theirs k) (hkey : Passed mine₀ theirs₀ mine theirs key) :
    ∀ k, InScope v me peer bucket k → k ∉ todo → Passed mine₀ theirs₀ mine theirs k := by
  intro k hk hnot
  by_cases hkk : k = key
  · rwa [hkk]
  · exact hother k hk hnot hkk

end Passing

theorem DataStore.covers_versions_mergeReplicated {ds ds' : DataStore} {faults : Faults}
    {key : String} {item : DataItem} (h : ds.mergeReplicated faults key item = (true, ds')) :
    Covers vectorClock (ds'.versions key) item.vectorClock :=
  ((DataStore.versions_mergeReplicated h).2 _).mpr (Or.inr le_rfl)

/-- Whatever a reconciliation does, every store keeps covering what it covered. -/
theorem ReconcileStep.grows {v : View} {stores stores' : String → DataStore} {r r' : Reconcile}
    (h : ReconcileStep v stores r stores' r') (node key : String) :
    Below vectorClock ((stores node).versions key) ((stores' node).versions key) := by
  intro c hc
  rw [DataStore.covers_versions] at hc ⊢
  exact h.covers hc

section Calls

variable {v : View} {me peer : String} {mine₀ theirs₀ : String → List DataItem}
  {stores stores' : String → DataStore}

theorem carries_step {r r' : Reconcile} (hself : r.self = me) (hpeer : r.peer = peer)
    (hmine : ∀ key, Below vectorClock (mine₀ key) ((stores me).versions key))
    (htheirs : ∀ key, Below vectorClock (theirs₀ key) ((stores peer).versions key))
    (h : Carries v me peer mine₀ theirs₀ (stores me).versions (stores peer).versions r.bucket
      r.phase)
    (hstep : ReconcileStep v stores r stores' r') :
    Carries v me peer mine₀ theirs₀ (stores' me).versions (stores' peer).versions r.bucket
      r'.phase := by
  subst hself hpeer
  have hgrown := h.mono (hstep.grows r.self) (hstep.grows r.peer)
  cases hstep with
  | listLocal faults keys hphase hkeys =>
    exact fun key hb hne => mem_keysOfBucket hkeys hb (ne_nil_of_below (hmine key) hne)
  | listRemote faults localKeys keys hphase hkeys =>
    rw [hphase] at h
    exact fun key hkey hnot => passed_of_not_listed h
      (fun k hb hne => mem_keysOfBucket hkeys hb (ne_nil_of_below (htheirs k) hne)) hkey hnot
  | readLocal faults todo key items hphase hkey hread =>
    rw [hphase] at h
    rw [DataStore.get_eq_some hread]
    refine ⟨fun k hk hnot hne => h k hk fun hmem => hnot ?_, hmine key, .refl _⟩
    exact (List.mem_erase_of_ne hne).mpr hmem
  | fetch faults todo key localItems items hphase hread =>
    rw [hphase] at h
    rw [DataStore.get_eq_some hread]
    refine ⟨h.1, h.2, ⟨htheirs key, .refl _⟩, ?_⟩
    exact below_of_subset fun x hx => List.mem_append_right _ hx
  | pull faults todo key localItems remoteItems rest item ds hphase hmerge =>
    rw [hphase] at hgrown
    obtain ⟨hother, hlocal, hremote, hrest⟩ := hgrown
    refine ⟨hother, hlocal, hremote, hrest.of_covers_cons ?_⟩
    rw [Function.update_self]
    exact DataStore.covers_versions_mergeReplicated hmerge
  | skipPush todo key localItems remoteItems hphase hnone =>
    rw [hphase] at h
    obtain ⟨hother, ⟨hlow, hhigh⟩, ⟨hlow', hhigh'⟩, hrest⟩ := h
    rw [List.append_nil] at hrest
    have hcovered : Below vectorClock localItems remoteItems := by
      simpa [hnone] using below_missingFrom remoteItems localItems
    refine passed_finish hother ⟨(hlow.trans hcovered).trans hhigh', hlow'.trans ?_⟩
    exact (below_missingFrom localItems remoteItems).trans (append_below.mpr ⟨hhigh, hrest⟩)
  | push todo key localItems remoteItems hphase =>
    rw [hphase] at h
    obtain ⟨hother, ⟨hlow, hhigh⟩, ⟨hlow', hhigh'⟩, hrest⟩ := h
    rw [List.append_nil] at hrest
    refine ⟨hother, hlow'.trans ?_, hlow.trans ?_⟩
    · exact (below_missingFrom localItems remoteItems).trans (append_below.mpr ⟨hhigh, hrest⟩)
    · exact (below_missingFrom remoteItems localItems).trans (hhigh'.append_mono (.refl _))
  | merge faults todo key rest item ds hphase hmerge =>
    rw [hphase] at hgrown
    obtain ⟨hother, hlow, hrest⟩ := hgrown
    refine ⟨hother, hlow, hrest.of_covers_cons ?_⟩
    rw [Function.update_self]
    exact DataStore.covers_versions_mergeReplicated hmerge
  | pushed todo key hphase =>
    rw [hphase] at h
    obtain ⟨hother, hlow, hrest⟩ := h
    rw [List.append_nil] at hrest
    exact passed_finish hother ⟨hrest, hlow⟩
  | done hphase =>
    rw [hphase] at h
    exact fun _ key hkey => h key hkey (List.not_mem_nil)
  | fail => exact fun herr => absurd herr (by decide)

/-- The keys of a store that lists what it holds are about to be read. -/
theorem treeReads_start {ds : DataStore} {held₀ : String → List DataItem} {faults : Faults}
    {keys : List String} (hclear : Clear ds)
    (hheld : ∀ key, Below vectorClock (held₀ key) (ds.versions key))
    (hkeys : ds.keys faults = some keys) :
    TreeReads held₀ ds.versions (TreeBuild.start keys).todo (TreeBuild.start keys).seen := by
  have hmem : ∀ key, key ∈ readOrder keys antiEntropyNumBuckets ↔ ds.versions key ≠ [] := by
    intro key
    have hbucket : bucketFor key antiEntropyNumBuckets < antiEntropyNumBuckets :=
      Nat.mod_lt _ (by decide)
    have hlisted := Layers.mem_keys_iff hclear.filled key
    rw [DataStore.keys_eq_some hkeys]
    simp [readOrder, List.mem_flatMap, hbucket, hlisted, DataStore.versions]
  refine ⟨fun key hne => Or.inl ?_, fun key hkey => (hmem key).mp hkey, ?_, ?_, ?_⟩
  · exact (hmem key).mpr (ne_nil_of_below (hheld key) hne)
  all_goals exact fun p hp => absurd hp List.not_mem_nil

theorem TreeReads.read {ds : DataStore} {held₀ : String → List DataItem} {faults : Faults}
    {key : String} {todo : List String} {seen : List (String × List DataItem)}
    {items : List DataItem} (h : TreeReads held₀ ds.versions (key :: todo) seen) (hclear : Clear ds)
    (hheld : ∀ key, Below vectorClock (held₀ key) (ds.versions key))
    (hread : ds.get faults key = some items) :
    TreeReads held₀ ds.versions todo (seen ++ [(key, items)]) := by
  obtain rfl := DataStore.get_eq_some hread
  have hne := h.left key List.mem_cons_self
  refine ⟨fun k hk => ?_, fun k hk => h.left k (List.mem_cons_of_mem _ hk), ?_, ?_, ?_⟩
  · rw [List.map_append, List.mem_append]
    rcases h.complete k hk with hmem | hmem
    · rcases List.mem_cons.mp hmem with rfl | hmem
      · exact Or.inr (Or.inr (List.mem_singleton_self _))
      · exact Or.inl hmem
    · exact Or.inr (Or.inl hmem)
  · exact forall_mem_concat h.clear
      ⟨hclear.keys key hne, hne, fun x hx => hclear.versions key x hx⟩
  · exact forall_mem_concat h.atLeast (hheld key)
  · exact forall_mem_concat h.atMost (.refl _)

theorem readableKey_of_clearRead {seen : List (String × List DataItem)}
    (h : ∀ p ∈ seen, ClearRead p) (numBuckets bucket : Nat) :
    ∀ c ∈ bucketReads seen numBuckets bucket, ReadableKey c := by
  intro c hc
  obtain ⟨p, hp, rfl⟩ := List.mem_map.mp hc
  have hclear := h p (List.mem_filter.mp hp).1
  refine ⟨hclear.key, ?_, fun s hs => ?_⟩
  · obtain ⟨x, hx⟩ := List.exists_mem_of_ne_nil _ hclear.some
    exact List.ne_nil_of_mem (mem_itemStrings.mpr ⟨x, hx, rfl⟩)
  · obtain ⟨x, hx, rfl⟩ := mem_itemStrings.mp hs
    exact ⟨x, hclear.versions x hx, rfl⟩

/-- What one side held at the start of a bucket that is hashed alike, the other side holds. -/
theorem below_of_bucketReads_eq {held₀ held held₀' held' : String → List DataItem}
    {seen seen' : List (String × List DataItem)} (h : TreeReads held₀ held [] seen)
    (h' : TreeReads held₀' held' [] seen') {key : String}
    (heq : bucketReads seen antiEntropyNumBuckets (bucketFor key antiEntropyNumBuckets) =
      bucketReads seen' antiEntropyNumBuckets (bucketFor key antiEntropyNumBuckets)) :
    Below vectorClock (held₀ key) (held' key) := by
  intro c hc
  have hne : held₀ key ≠ [] := ne_nil_of_covers hc
  obtain ⟨p, hp, rfl⟩ := List.mem_map.mp ((h.complete key hne).resolve_left List.not_mem_nil)
  have hmem : (p.1, itemStrings p.2) ∈
      bucketReads seen' antiEntropyNumBuckets (bucketFor p.1 antiEntropyNumBuckets) := by
    rw [← heq]
    exact List.mem_map.mpr ⟨p, List.mem_filter.mpr ⟨hp, by simp⟩, rfl⟩
  obtain ⟨q, hq, hqp⟩ := List.mem_map.mp hmem
  obtain ⟨hkey, hitems⟩ := Prod.mk.inj hqp
  have hq := (List.mem_filter.mp hq).1
  have hsame := versions_of_itemStrings (h'.clear q hq).versions (h.clear p hp).versions hitems
  have hcov : Covers vectorClock q.2 c :=
    (h.atLeast p hp c hc).mono fun x hx => (Multiset.coe_eq_coe.mp hsame).mem_iff.mpr hx
  rw [← hkey]
  exact h'.atMost q hq c hcov

variable [Inhabited Hash] [DecidableEq Hash] {h : Hasher Hash}

/-- The buckets that are not reconciled need not be. -/
theorem passed_of_not_divergent (hsum : Function.Injective h.sum)
    (hcombine : Function.Injective2 (combineHashes h)) {mine theirs : String → List DataItem}
    {seen seen' : List (String × List DataItem)} (hseen : TreeReads mine₀ mine [] seen)
    (hseen' : TreeReads theirs₀ theirs [] seen') {diverged : List Nat}
    (hdiverged : divergentBuckets (treeOf h antiEntropyNumBuckets seen)
      ⟨antiEntropyNumBuckets, (treeOf h antiEntropyNumBuckets seen').nodes⟩ = .ok diverged)
    {key : String} (hnot : bucketFor key antiEntropyNumBuckets ∉ diverged) :
    Passed mine₀ theirs₀ mine theirs key := by
  rw [divergentBuckets_treeOf hcombine] at hdiverged
  obtain rfl := Except.ok.inj hdiverged
  have hbucket : bucketFor key antiEntropyNumBuckets < antiEntropyNumBuckets :=
    Nat.mod_lt _ (by decide)
  simp only [List.mem_filter, List.mem_range, hbucket, true_and, decide_eq_true_eq, ne_eq,
    not_not] at hnot
  have htext := congrArg String.toList (String.toByteArray_inj.mp (hsum hnot))
  have heq := contentsText_inj (readableKey_of_clearRead hseen.clear _ _)
    (readableKey_of_clearRead hseen'.clear _ _) htext
  exact ⟨below_of_bucketReads_eq hseen hseen' heq, below_of_bucketReads_eq hseen' hseen heq.symm⟩

theorem AntiEntropyStep.grows {phase phase' : AntiEntropyPhase}
    (hstep : AntiEntropyStep h v me peer stores phase stores' phase') (node key : String) :
    Below vectorClock ((stores node).versions key) ((stores' node).versions key) := by
  cases hstep with
  | bucketStep todo r r' _ hstep => exact hstep.grows node key
  | _ => exact .refl _

theorem brings_step (hsum : Function.Injective h.sum)
    (hcombine : Function.Injective2 (combineHashes h)) (hclear : ∀ node, Clear (stores node))
    (hmine : ∀ key, Below vectorClock (mine₀ key) ((stores me).versions key))
    (htheirs : ∀ key, Below vectorClock (theirs₀ key) ((stores peer).versions key))
    {phase phase' : AntiEntropyPhase}
    (hb : Brings v me peer mine₀ theirs₀ (stores me).versions (stores peer).versions phase)
    (hstep : AntiEntropyStep h v me peer stores phase stores' phase') :
    Brings v me peer mine₀ theirs₀ (stores' me).versions (stores' peer).versions phase' := by
  cases hstep with
  | listLocal faults keys hkeys => exact treeReads_start (hclear me) hmine hkeys
  | readLocal faults key todo seen items hread =>
    exact TreeReads.read hb (hclear me) hmine hread
  | builtLocal => exact hb
  | listRemote faults seen keys hkeys =>
    exact ⟨hb, treeReads_start (hclear peer) htheirs hkeys⟩
  | readRemote faults seen key todo seen' items hread =>
    exact ⟨hb.1, hb.2.read (hclear peer) htheirs hread⟩
  | builtRemote => exact hb
  | compare seen seen' diverged hdiverged =>
    exact fun key _ hnot => passed_of_not_divergent hsum hcombine hb.1 hb.2 hdiverged hnot
  | nextBucket =>
    refine ⟨⟨rfl, rfl⟩, fun key hkey hnot hne => hb key hkey ?_, trivial⟩
    rw [List.mem_cons, not_or]
    exact ⟨hne, hnot⟩
  | bucketStep todo r r' _ hstep =>
    obtain ⟨⟨hself, hpeer⟩, hother, hcarries⟩ := hb
    have hnames : r'.self = r.self ∧ r'.peer = r.peer ∧ r'.bucket = r.bucket := by
      cases hstep <;> exact ⟨rfl, rfl, rfl⟩
    refine ⟨⟨hnames.1.trans hself, hnames.2.1.trans hpeer⟩, fun key hkey hnot hne => ?_, ?_⟩
    · exact (hother key hkey hnot (hnames.2.2 ▸ hne)).mono (hstep.grows me key)
        (hstep.grows peer key)
    · rw [hnames.2.2]
      exact carries_step hself hpeer hmine htheirs hcarries hstep
  | bucketDone todo r hreturned =>
    obtain ⟨-, hother, hcarries⟩ := hb
    rw [hreturned] at hcarries
    intro key hkey hnot
    by_cases hbucket : bucketFor key antiEntropyNumBuckets = r.bucket
    · exact hcarries rfl key ⟨hbucket, hkey⟩
    · exact hother key hkey hnot hbucket
  | done => exact fun _ key hkey => hb key hkey List.not_mem_nil
  | fail => exact fun herr => absurd herr (by decide)

end Calls

/-! ## Rounds among other writes -/

section Rounds

variable [Inhabited Hash] [DecidableEq Hash] {h : Hasher Hash} {v : View}
  {stores stores' : String → DataStore} {r r' : Round}

/-- What is known of a round. -/
structure RoundOk (v : View) (stores : String → DataStore) (r : Round) : Prop where
  grown : ∀ node key, Below vectorClock ((r.began node).versions key) ((stores node).versions key)
  reconciled : ∀ peer ∈ r.reconciled, ∀ key, sharesReplicaSet v r.self key peer = true →
    Passed (r.began r.self).versions (r.began peer).versions (stores r.self).versions
      (stores peer).versions key
  current : ∀ peer phase, r.current = some (peer, phase) →
    Brings v r.self peer (r.began r.self).versions (r.began peer).versions
      (stores r.self).versions (stores peer).versions phase

theorem RoundOk.mono (hok : RoundOk v stores r)
    (hgrown : ∀ node key, Below vectorClock ((stores node).versions key)
      ((stores' node).versions key)) : RoundOk v stores' r where
  grown := fun node key => (hok.grown node key).trans (hgrown node key)
  reconciled := fun peer hpeer key hkey =>
    (hok.reconciled peer hpeer key hkey).mono (hgrown r.self key) (hgrown peer key)
  current := fun peer phase hcurrent =>
    (hok.current peer phase hcurrent).mono (hgrown r.self) (hgrown peer)

theorem RoundStep.grows (hstep : RoundStep h v stores r stores' r') (node key : String) :
    Below vectorClock ((stores node).versions key) ((stores' node).versions key) := by
  cases hstep with
  | call peer phase phase' _ hcurrent hstep => exact hstep.grows node key
  | _ => exact .refl _

theorem roundOk_start (members : List String) (self : String) :
    RoundOk v stores (Round.start members self stores) :=
  ⟨fun _ _ => .refl _, by simp [Round.start], by simp [Round.start]⟩

theorem roundOk_step (hsum : Function.Injective h.sum)
    (hcombine : Function.Injective2 (combineHashes h)) (hclear : ∀ node, Clear (stores node))
    (hok : RoundOk v stores r) (hstep : RoundStep h v stores r stores' r') :
    RoundOk v stores' r' := by
  have hmono := hok.mono hstep.grows
  cases hstep with
  | visit =>
    refine { hok with current := fun peer' phase hcurrent => ?_ }
    obtain ⟨-, rfl⟩ := Prod.mk.inj (Option.some.inj hcurrent)
    trivial
  | skip => exact { hok with }
  | call peer phase phase' _ hcurrent hstep =>
    refine { hmono with current := fun peer' phase'' hsome => ?_ }
    obtain ⟨rfl, rfl⟩ := Prod.mk.inj (Option.some.inj hsome)
    exact brings_step hsum hcombine hclear (hok.grown r.self) (hok.grown peer)
      (hok.current peer phase hcurrent) hstep
  | succeeded peer hcurrent =>
    refine { hok with reconciled := fun peer' hpeer' key hkey => ?_, current := by simp }
    rcases List.mem_cons.mp hpeer' with rfl | hpeer'
    · exact hok.current peer' _ hcurrent rfl key hkey
    · exact hok.reconciled peer' hpeer' key hkey
  | failed => exact { hok with current := by simp }
  | cancel => exact { hok with }

end Rounds

namespace Repair

variable [Inhabited Hash] [DecidableEq Hash] {h : Hasher Hash} {v : View} {members : List String}
  {s t u : Repair}

def stores (s : Repair) : String → DataStore :=
  s.cluster.stores

/-- A step of the cluster, or of one round. -/
inductive Step (h : Hasher Hash) (v : View) (members : List String) (s : Repair) :
    Event → Repair → Prop
  | cluster (e : Event) (c : Cluster) (hstep : Cluster.Step v s.cluster e c) :
      Step h v members s e { s with cluster := c }
  | begin (self : String) :
      Step h v members s .other
        { s with rounds := s.rounds ++ [Round.start members self s.stores] }
  | round (i : Nat) (r r' : Round) (stores : String → DataStore) (hr : s.rounds[i]? = some r)
      (hstep : RoundStep h v s.stores r stores r') :
      Step h v members s .other ⟨{ s.cluster with stores := stores }, s.rounds.set i r'⟩

/-- Steps without a rollback, in which flushes, compactions and restarts lose nothing and
every store stays clear. -/
inductive Reaches (h : Hasher Hash) (v : View) (members : List String) (s : Repair) : Repair → Prop
  | refl : Reaches h v members s s
  | step {t u : Repair} {e : Event} (hreach : Reaches h v members s t) (he : ∀ key, e.Keeps key)
      (hclear : ∀ node, Clear (t.stores node)) (hstep : Step h v members t e u) :
      Reaches h v members s u

theorem Step.grows {e : Event} (hstep : Step h v members s e t) (he : ∀ key, e.Keeps key)
    (node key : String) :
    Below vectorClock ((s.stores node).versions key) ((t.stores node).versions key) := by
  cases hstep with
  | cluster e c hstep =>
    intro c hc
    rw [DataStore.covers_versions] at hc ⊢
    exact Cluster.covers_step hstep (he key) hc
  | begin => exact .refl _
  | round i r r' stores hr hstep => exact hstep.grows node key

theorem Reaches.grows (hreach : Reaches h v members s t) (node key : String) :
    Below vectorClock ((s.stores node).versions key) ((t.stores node).versions key) := by
  induction hreach with
  | refl => exact .refl _
  | step hreach he hclear hstep ih => exact ih.trans (hstep.grows he node key)

/-- Every round began with what was there before, and is as far as it should be. -/
theorem roundOk_of_reaches (hsum : Function.Injective h.sum)
    (hcombine : Function.Injective2 (combineHashes h)) (hstart : s.rounds = [])
    (hreach : Reaches h v members s t) : ∀ r ∈ t.rounds, RoundOk v t.stores r ∧
      ∀ node key, Below vectorClock ((s.stores node).versions key)
        ((r.began node).versions key) := by
  induction hreach with
  | refl => simp [hstart]
  | step hreach he hclear hstep ih =>
    have hbelow := hstep.grows he
    cases hstep with
    | cluster => exact fun r hr => ⟨(ih r hr).1.mono hbelow, (ih r hr).2⟩
    | begin self => exact forall_mem_concat ih ⟨roundOk_start members self, hreach.grows⟩
    | round i r r' stores hr hstep =>
      obtain ⟨hok, hbegan⟩ := ih r (List.mem_of_getElem? hr)
      have hkept : r'.began = r.began := by cases hstep <;> rfl
      refine forall_mem_set (fun q hq => ⟨(ih q hq).1.mono hbelow, (ih q hq).2⟩)
        ⟨roundOk_step hsum hcombine hclear hok hstep, ?_⟩
      rwa [hkept]

end Repair

/-! ## When nothing else writes -/

theorem DataStore.filled_mergeReplicated {ds ds' : DataStore} {faults : Faults} {key : String}
    {item : DataItem} {ok : Bool} (hfilled : ds.persister.Filled)
    (h : ds.mergeReplicated faults key item = (ok, ds')) : ds'.persister.Filled := by
  unfold DataStore.mergeReplicated at h
  split at h
  · exact (Prod.mk.inj h).2 ▸ hfilled
  · rw [← (Prod.mk.inj h).2]
    exact ⟨hfilled.active.put key item, hfilled.flushing⟩

/-- What a reconciliation has in hand is of shared keys, and all of it satisfies `Q`. -/
def ReconcilePhase.Holding (shared : String → Prop) (Q : String → DataItem → Prop) :
    ReconcilePhase → Prop
  | .listing => True
  | .listed _ => True
  | .nextKey todo => ∀ k ∈ todo, shared k
  | .read key todo localItems => (∀ k ∈ key :: todo, shared k) ∧ ∀ x ∈ localItems, Q key x
  | .pulling key todo localItems remoteItems rest => (∀ k ∈ key :: todo, shared k) ∧
    (∀ x ∈ localItems, Q key x) ∧ (∀ x ∈ remoteItems, Q key x) ∧ ∀ x ∈ rest, Q key x
  | .pushing key todo rest => (∀ k ∈ key :: todo, shared k) ∧ ∀ x ∈ rest, Q key x
  | .returned _ => True

/-- Every version of a key in a store where the key is in scope satisfies `Q`. -/
def StoresHold (scope : String → String → Prop) (Q : String → DataItem → Prop)
    (stores : String → DataStore) : Prop :=
  ∀ node key, scope node key → ∀ x ∈ (stores node).versions key, Q key x

section Holding

variable {v : View} {scope : String → String → Prop} {Q : String → DataItem → Prop}
  {stores stores' : String → DataStore} {r r' : Reconcile}

theorem StoresHold.merge (h : StoresHold scope Q stores) {node key : String} {faults : Faults}
    {item : DataItem} {ds : DataStore}
    (hmerge : (stores node).mergeReplicated faults key item = (true, ds)) (hitem : Q key item) :
    StoresHold scope Q (Function.update stores node ds) := by
  intro n k hscope x hx
  by_cases hn : n = node
  · subst hn
    rw [Function.update_self] at hx
    rcases DataStore.mem_versions_mergeReplicated hmerge hx with hx | ⟨rfl, rfl⟩
    · exact h n k hscope x hx
    · exact hitem
  · rw [Function.update_of_ne hn] at hx
    exact h n k hscope x hx

/-- Versions are only copied, between nodes that share the key. -/
theorem holding_step
    (hscope : ∀ a b key, sharesReplicaSet v a key b = true → scope a key ∧ scope b key)
    (hstores : StoresHold scope Q stores)
    (h : r.phase.Holding (fun key => sharesReplicaSet v r.self key r.peer = true) Q)
    (hstep : ReconcileStep v stores r stores' r') :
    StoresHold scope Q stores' ∧
      r'.phase.Holding (fun key => sharesReplicaSet v r'.self key r'.peer = true) Q := by
  cases hstep with
  | listLocal | done | fail => exact ⟨hstores, trivial⟩
  | listRemote =>
    refine ⟨hstores, fun k hk => ?_⟩
    simpa using (List.mem_filter.mp (List.mem_dedup.mp hk)).2
  | readLocal faults todo key items hphase hkey hread =>
    rw [hphase] at h
    refine ⟨hstores, fun k hk => ?_, ?_⟩
    · rcases List.mem_cons.mp hk with rfl | hk
      · exact h k hkey
      · exact h k (List.mem_of_mem_erase hk)
    · rw [DataStore.get_eq_some hread]
      exact hstores r.self key (hscope _ _ _ (h key hkey)).1
  | fetch faults todo key localItems items hphase hread =>
    rw [hphase] at h
    obtain ⟨hkeys, hlocal⟩ := h
    have hremote : ∀ x ∈ items, Q key x := by
      rw [DataStore.get_eq_some hread]
      exact hstores r.peer key (hscope _ _ _ (hkeys key List.mem_cons_self)).2
    exact ⟨hstores, hkeys, hlocal, hremote, fun x hx => hremote x (mem_missingFrom.mp hx).1⟩
  | pull faults todo key localItems remoteItems rest item ds hphase hmerge =>
    rw [hphase] at h
    obtain ⟨hkeys, hlocal, hremote, hrest⟩ := h
    obtain ⟨hitem, hrest⟩ := List.forall_mem_cons.mp hrest
    exact ⟨hstores.merge hmerge hitem, hkeys, hlocal, hremote, hrest⟩
  | skipPush todo key localItems remoteItems hphase | pushed todo key hphase =>
    rw [hphase] at h
    exact ⟨hstores, fun k hk => h.1 k (List.mem_cons_of_mem _ hk)⟩
  | push todo key localItems remoteItems hphase =>
    rw [hphase] at h
    exact ⟨hstores, h.1, fun x hx => h.2.1 x (mem_missingFrom.mp hx).1⟩
  | merge faults todo key rest item ds hphase hmerge =>
    rw [hphase] at h
    obtain ⟨hkeys, hrest⟩ := h
    obtain ⟨hitem, hrest⟩ := List.forall_mem_cons.mp hrest
    exact ⟨hstores.merge hmerge hitem, hkeys, hrest⟩

theorem filled_step (hfilled : ∀ node, (stores node).persister.Filled)
    (hstep : ReconcileStep v stores r stores' r') : ∀ node, (stores' node).persister.Filled := by
  have hupdate : ∀ {n : String} {ds : DataStore}, ds.persister.Filled →
      ∀ node, (Function.update stores n ds node).persister.Filled := by
    intro n ds hds node
    by_cases hn : node = n
    · rw [hn, Function.update_self]
      exact hds
    · rw [Function.update_of_ne hn]
      exact hfilled node
  cases hstep with
  | pull faults todo key localItems remoteItems rest item ds hphase hmerge
  | merge faults todo key rest item ds hphase hmerge =>
    exact hupdate (DataStore.filled_mergeReplicated (hfilled _) hmerge)
  | _ => exact hfilled

end Holding

namespace Repair

variable [Inhabited Hash] [DecidableEq Hash] {h : Hasher Hash} {v : View} {members : List String}
  {s t u : Repair}

/-- The states that rounds alone lead to. Flushes, compactions and restarts go on : they leave
a node with other layers that read the same. -/
inductive Calm (h : Hasher Hash) (v : View) (members : List String) (s : Repair) : Repair → Prop
  | refl : Calm h v members s s
  | begin {t : Repair} (self : String) (hcalm : Calm h v members s t) :
      Calm h v members s { t with rounds := t.rounds ++ [Round.start members self t.stores] }
  | round {t : Repair} (i : Nat) (r r' : Round) (stores : String → DataStore)
      (hcalm : Calm h v members s t) (hr : t.rounds[i]? = some r)
      (hstep : RoundStep h v t.stores r stores r') :
      Calm h v members s ⟨{ t.cluster with stores := stores }, t.rounds.set i r'⟩
  | maintain {t : Repair} (node : String) (layers : Layers) (hcalm : Calm h v members s t)
      (hsame : ∀ key, layers.getAll key = (t.stores node).persister.getAll key)
      (hfilled : layers.Filled) :
      Calm h v members s
        { t with cluster := t.cluster.setStore node { t.stores node with persister := layers } }

/-- A round's step leaves the stores and its reconciliation as they are, starts one, or takes
a step of it. -/
theorem round_cases {stores stores' : String → DataStore} {r r' : Round}
    (hstep : RoundStep h v stores r stores' r') :
    (stores' = stores ∧ ∀ peer todo rec, r'.current = some (peer, .reconciling todo (some rec)) →
      r.current = some (peer, .reconciling todo (some rec)) ∨
        ∃ bucket, rec = Reconcile.start r.self peer bucket) ∨
    ∃ peer todo rec rec', r.current = some (peer, .reconciling todo (some rec)) ∧
      r'.current = some (peer, .reconciling todo (some rec')) ∧
      ReconcileStep v stores rec stores' rec' := by
  cases hstep with
  | visit | succeeded | failed =>
    exact Or.inl ⟨rfl, by simp⟩
  | skip | cancel =>
    exact Or.inl ⟨rfl, fun _ _ _ hcurrent => Or.inl hcurrent⟩
  | call peer phase phase' _ hcurrent hstep =>
    cases hstep with
    | nextBucket bucket =>
      refine Or.inl ⟨rfl, fun peer' todo' rec hsome => Or.inr ⟨bucket, ?_⟩⟩
      obtain ⟨rfl, hphase⟩ := Prod.mk.inj (Option.some.inj hsome)
      exact (Option.some.inj (AntiEntropyPhase.reconciling.inj hphase).2).symm
    | bucketStep todo rec rec' _ hstep => exact Or.inr ⟨peer, todo, rec, rec', hcurrent, rfl, hstep⟩
    | _ => exact Or.inl ⟨rfl, by simp⟩

/-- All versions in scope, in the stores and on the way, satisfy `Q`. -/
structure Everywhere (v : View) (scope : String → String → Prop) (Q : String → DataItem → Prop)
    (s : Repair) : Prop where
  stores : StoresHold scope Q s.stores
  rounds : ∀ r ∈ s.rounds, ∀ peer todo rec,
    r.current = some (peer, .reconciling todo (some rec)) →
    rec.phase.Holding (fun key => sharesReplicaSet v rec.self key rec.peer = true) Q

theorem everywhere_of_calm (scope : String → String → Prop) (Q : String → DataItem → Prop)
    (hscope : ∀ a b key, sharesReplicaSet v a key b = true → scope a key ∧ scope b key)
    (hstart : s.rounds = []) (hstores : StoresHold scope Q s.stores)
    (hcalm : Calm h v members s t) : Everywhere v scope Q t := by
  induction hcalm with
  | refl => exact ⟨hstores, by simp [hstart]⟩
  | begin self hcalm ih => exact ⟨ih.stores, forall_mem_concat ih.rounds (by simp [Round.start])⟩
  | round i r r' stores hcalm hr hstep ih =>
    have hround := ih.rounds r (List.mem_of_getElem? hr)
    rcases round_cases hstep with ⟨rfl, hcurrent⟩ | ⟨peer, todo, rec, rec', hrec, hrec', hstep⟩
    · refine ⟨ih.stores, forall_mem_set ih.rounds fun peer todo rec hsome => ?_⟩
      rcases hcurrent peer todo rec hsome with hold | ⟨bucket, rfl⟩
      · exact hround peer todo rec hold
      · trivial
    · obtain ⟨hnew, hholding⟩ := holding_step hscope ih.stores (hround _ _ _ hrec) hstep
      refine ⟨hnew, forall_mem_set ih.rounds fun peer' todo' rec'' hsome => ?_⟩
      obtain ⟨-, hphase⟩ := Prod.mk.inj (Option.some.inj (hrec'.symm.trans hsome))
      obtain rfl := Option.some.inj (AntiEntropyPhase.reconciling.inj hphase).2
      exact hholding
  | maintain node layers hcalm hsame hfilled ih =>
    refine ⟨fun n key hin x hx => ih.stores n key hin x ?_, ih.rounds⟩
    rw [← DataStore.versions_update hsame n key]
    exact hx

theorem filled_of_calm (hfilled : ∀ node, (s.stores node).persister.Filled)
    (hcalm : Calm h v members s t) : ∀ node, (t.stores node).persister.Filled := by
  induction hcalm with
  | refl => exact hfilled
  | begin self hcalm ih => exact ih
  | round i r r' stores hcalm hr hstep ih =>
    rcases round_cases hstep with ⟨rfl, -⟩ | ⟨peer, todo, rec, rec', -, -, hstep⟩
    · exact ih
    · exact filled_step ih hstep
  | maintain node layers hcalm hsame hnew ih =>
    intro n
    by_cases hn : n = node
    · subst hn
      simpa [stores, Cluster.setStore] using hnew
    · simpa [stores, Cluster.setStore, Function.update_of_ne hn] using ih n

theorem clear_of_calm (hstart : s.rounds = []) (hclear : ∀ node, Clear (s.stores node))
    (hcalm : Calm h v members s t) : ∀ node, Clear (t.stores node) := by
  have hall := everywhere_of_calm (fun _ _ => True) (fun key x => PlainKey key ∧ Readable x)
    (fun _ _ _ _ => ⟨trivial, trivial⟩) hstart
    (fun node key _ x hx =>
      ⟨(hclear node).keys key (List.ne_nil_of_mem hx), (hclear node).versions key x hx⟩) hcalm
  refine fun node => ⟨filled_of_calm (fun n => (hclear n).filled) hcalm node, fun key hne => ?_,
    fun key x hx => (hall.stores node key trivial x hx).2⟩
  obtain ⟨x, hx⟩ := List.exists_mem_of_ne_nil _ hne
  exact (hall.stores node key trivial x hx).1

/-- A calm run is one of those in which nothing is rolled back. -/
theorem reaches_of_calm (hstart : s.rounds = []) (hclear : ∀ node, Clear (s.stores node))
    (hcalm : Calm h v members s t) : Reaches h v members s t := by
  induction hcalm with
  | refl => exact .refl
  | begin self hcalm ih =>
    exact .step (e := .other) ih (fun _ => trivial) (clear_of_calm hstart hclear hcalm)
      (.begin self)
  | round i r r' stores hcalm hr hstep ih =>
    exact .step (e := .other) ih (fun _ => trivial) (clear_of_calm hstart hclear hcalm)
      (.round i r r' stores hr hstep)
  | maintain node layers hcalm hsame hfilled ih =>
    refine .step (e := .maintain _ layers) ih (fun key c hc => ?_)
      (clear_of_calm hstart hclear hcalm) (.cluster _ _ (.maintain node layers))
    rw [hsame]
    exact hc

theorem sharesReplicaSet_iff {self key peer : String} : sharesReplicaSet v self key peer = true ↔
    self ∈ v.preferenceList key ∧ peer ∈ v.preferenceList key := by
  simp [sharesReplicaSet]

end Repair

/-! ## Replicas that agree -/

section Still

-- `held` is what every node held at the start
variable {v : View} {held : String → String → List DataItem} {stores stores' : String → DataStore}
  {r r' : Reconcile}

/-- Only what was held at the start was read, and nothing of it is missing anywhere. -/
def ReconcilePhase.Still (v : View) (held : String → String → List DataItem) (self peer : String) :
    ReconcilePhase → Prop
  | .listing => True
  | .listed _ => True
  | .nextKey todo => ∀ k ∈ todo, sharesReplicaSet v self k peer = true
  | .read key todo localItems =>
    (∀ k ∈ key :: todo, sharesReplicaSet v self k peer = true) ∧ localItems = held self key
  | .pulling key todo localItems remoteItems rest =>
    (∀ k ∈ key :: todo, sharesReplicaSet v self k peer = true) ∧ localItems = held self key ∧
    remoteItems = held peer key ∧ rest = []
  | .pushing _ _ _ => False
  | .returned _ => True

/-- A reconciliation that has sent nothing either way. -/
structure Reconcile.Still (v : View) (held : String → String → List DataItem) (r : Reconcile) :
    Prop where
  pulled : r.pulled = []
  pushed : r.pushed = []
  phase : r.phase.Still v held r.self r.peer

/-- Where sharing nodes cover the same, a step merges nothing. -/
theorem still_step
    (hagree : ∀ a b key, sharesReplicaSet v a key b = true →
      Below vectorClock (held a key) (held b key) ∧ Below vectorClock (held b key) (held a key))
    (hheld : ∀ node key, (stores node).versions key = held node key) (h : r.Still v held)
    (hstep : ReconcileStep v stores r stores' r') : stores' = stores ∧ r'.Still v held := by
  obtain ⟨hpulled, hpushed, hphase⟩ := h
  cases hstep with
  | listLocal | done | fail => exact ⟨rfl, hpulled, hpushed, trivial⟩
  | listRemote =>
    refine ⟨rfl, hpulled, hpushed, fun k hk => ?_⟩
    simpa using (List.mem_filter.mp (List.mem_dedup.mp hk)).2
  | readLocal faults todo key items hp hkey hread =>
    rw [hp] at hphase
    refine ⟨rfl, hpulled, hpushed, fun k hk => ?_, ?_⟩
    · rcases List.mem_cons.mp hk with rfl | hk
      · exact hphase k hkey
      · exact hphase k (List.mem_of_mem_erase hk)
    · rw [DataStore.get_eq_some hread, hheld]
  | fetch faults todo key localItems items hp hread =>
    rw [hp] at hphase
    obtain ⟨hkeys, hlocal⟩ := hphase
    have hremote : items = held r.peer key := by rw [DataStore.get_eq_some hread, hheld]
    refine ⟨rfl, hpulled, hpushed, hkeys, hlocal, hremote, missingFrom_eq_nil ?_⟩
    rw [hlocal, hremote]
    exact (hagree _ _ _ (hkeys key List.mem_cons_self)).2
  | pull faults todo key localItems remoteItems rest item ds hp =>
    rw [hp] at hphase
    exact absurd hphase.2.2.2 (List.cons_ne_nil _ _)
  | skipPush todo key localItems remoteItems hp =>
    rw [hp] at hphase
    exact ⟨rfl, hpulled, hpushed, fun k hk => hphase.1 k (List.mem_cons_of_mem _ hk)⟩
  | push todo key localItems remoteItems hp hsome =>
    rw [hp] at hphase
    obtain ⟨hkeys, rfl, rfl, -⟩ := hphase
    exact absurd (missingFrom_eq_nil (hagree _ _ _ (hkeys key List.mem_cons_self)).1) hsome
  | merge faults todo key rest item ds hp =>
    rw [hp] at hphase
    exact hphase.elim
  | pushed todo key hp =>
    rw [hp] at hphase
    exact hphase.elim

end Still

theorem below_of_clocksOf_eq {a b : List DataItem} (h : clocksOf a = clocksOf b) :
    Below vectorClock a b := by
  refine below_iff.mpr fun x hx => ?_
  have hin : x.vectorClock.entry ∈ clocksOf b := h ▸ ⟨x, hx, rfl⟩
  obtain ⟨y, hy, heq⟩ := hin
  refine ⟨y, hy, fun n => ?_⟩
  rw [heq]
  exact UInt32.le_refl _

namespace Repair

variable [Inhabited Hash] [DecidableEq Hash] {h : Hasher Hash} {v : View} {members : List String}
  {s t u : Repair}

/-- `Z` holds one version, `B` nothing, and no round is under way. -/
def loneVersion : Repair :=
  ⟨⟨Function.update (fun _ => ⟨"B", "B", ⟨MemTable.new 1000, none, []⟩⟩) "Z"
    (storeWith "1" plainContext), [], [], [], [], []⟩, []⟩

theorem clear_storeWith : Clear (storeWith "1" plainContext) where
  filled := ⟨(MemTable.filled_new 1000).put "k" _, fun m hm => by cases hm⟩
  keys := by
    intro key hne
    by_cases hkey : key = "k"
    · rw [hkey]
      unfold PlainKey
      decide
    · exact absurd (versions_storeWith_of_ne _ _ hkey) hne
  versions := by
    intro key x hx
    by_cases hkey : key = "k"
    · subst hkey
      exact (legible_storeWith "1" (by unfold JSONText; decide)).versions "k" rfl x hx
    · rw [versions_storeWith_of_ne _ _ hkey] at hx
      cases hx

theorem clear_loneVersion (node : String) : Clear (loneVersion.stores node) := by
  by_cases hnode : node = "Z"
  · rw [hnode]
    exact clear_storeWith
  · have hempty : ∀ key, (loneVersion.stores node).versions key = [] := by
      intro key
      simp [loneVersion, stores, Function.update_of_ne hnode, DataStore.versions, Layers.getAll_eq,
        Layers.items, Layers.flushingItems, Maxima.keepMax]
    refine ⟨?_, fun key hne => absurd (hempty key) hne, fun key x hx => ?_⟩
    · simp only [loneVersion, stores, Function.update_of_ne hnode]
      exact ⟨MemTable.filled_new 1000, by simp⟩
    · rw [hempty key] at hx
      cases hx

/-- Only a round of `Z` is under way, in a call with `B`. -/
def Calling (phase : AntiEntropyPhase) (stores : String → DataStore) : Prop :=
  ∃ t, Calm markedHasher twoNodes ["Z", "B"] loneVersion t ∧ t.stores = stores ∧
    t.rounds = [⟨"Z", [], some ("B", phase), [], loneVersion.stores⟩]

theorem Calling.step {phase phase' : AntiEntropyPhase} {stores stores' : String → DataStore}
    (hcall : Calling phase stores)
    (hstep : AntiEntropyStep markedHasher twoNodes "Z" "B" stores phase stores' phase') :
    Calling phase' stores' := by
  obtain ⟨t, hcalm, rfl, hrounds⟩ := hcall
  refine ⟨_, .round 0 _ _ stores' hcalm (by rw [hrounds]; rfl) (.call "B" phase phase' stores' rfl
    hstep), rfl, ?_⟩
  rw [hrounds]
  rfl

/-- A whole round of `Z` : the trees differ in the bucket of the key, and the version is
pushed. -/
theorem calm_loneVersion : ∃ t, Calm markedHasher twoNodes ["Z", "B"] loneVersion t ∧
    ∃ r ∈ t.rounds, r.self = "Z" ∧ "B" ∈ r.reconciled := by
  let item : DataItem := ⟨"1", VectorClock.buildFromContext plainContext "Z", "Z", false⟩
  have hdiverged : divergentBuckets (treeOf markedHasher antiEntropyNumBuckets [("k", [item])])
      ⟨antiEntropyNumBuckets, (treeOf markedHasher antiEntropyNumBuckets []).nodes⟩ =
      .ok [bucketFor "k" 16] := by
    have htexts : (List.range antiEntropyNumBuckets).filter (fun b =>
        contentsText (bucketReads [("k", [item])] antiEntropyNumBuckets b) ≠
          contentsText (bucketReads [] antiEntropyNumBuckets b)) = [bucketFor "k" 16] := by
      decide +kernel
    rw [divergentBuckets_treeOf combineHashes_markedHasher_inj, ← htexts]
    refine congrArg _ (List.filter_congr fun b _ => ?_)
    exact decide_eq_decide.mpr (not_congr String.toByteArray_inj)
  have h1 : Calling .listing loneVersion.stores :=
    ⟨_, .round 0 _ _ _ (.begin "Z" .refl) rfl (.visit "B" rfl (by decide)), rfl, rfl⟩
  have horder : TreeBuild.start ["k"] = ⟨["k"], []⟩ :=
    congrArg (TreeBuild.mk · []) (by decide +kernel : readOrder ["k"] 16 = ["k"])
  have h2 := h1.step (.listLocal noFaults ["k"] rfl)
  rw [horder] at h2
  have h3 := h2.step (.readLocal noFaults "k" [] [] [item] rfl)
  have h4 := h3.step (.builtLocal _)
  have h5 := h4.step (.listRemote noFaults _ [] rfl)
  have h6 := h5.step (.builtRemote _ [])
  have h7 := h6.step (.compare _ _ _ hdiverged)
  have h8 := h7.step (.nextBucket _ _)
  have h9 := h8.step (.bucketStep _ _ _ _ (.listLocal noFaults ["k"] rfl rfl))
  have h10 := h9.step (.bucketStep _ _ _ _ (.listRemote noFaults _ [] rfl rfl))
  have h11 := h10.step (.bucketStep _ _ _ _
    (.readLocal noFaults _ "k" [item] rfl (by decide +kernel) rfl))
  have h12 := h11.step (.bucketStep _ _ _ _ (.fetch noFaults _ "k" _ [] rfl rfl))
  have h13 := h12.step (.bucketStep _ _ _ _ (.push _ "k" _ _ rfl (by decide +kernel)))
  have h14 := h13.step (.bucketStep _ _ _ _ (.merge noFaults _ "k" [] item _ rfl rfl))
  have h15 := h14.step (.bucketStep _ _ _ _ (.pushed _ "k" rfl))
  have hlast : (sharedKeys twoNodes "Z" "B" (keysOfBucket ["k"] (bucketFor "k" 16) ++
      keysOfBucket [] (bucketFor "k" 16))).erase "k" = [] := by
    decide +kernel
  have h16 := h15.step (.bucketStep _ _ _ _ (.done (congrArg ReconcilePhase.nextKey hlast)))
  have h17 := h16.step (.bucketDone _ _ rfl)
  obtain ⟨t, hcalm, -, hrounds⟩ := h17.step .done
  have h18 := Calm.round 0 _ _ _ hcalm (by rw [hrounds]; rfl) (.succeeded "B" rfl)
  refine ⟨_, h18, ⟨"Z", [], none, ["B"], loneVersion.stores⟩, ?_, rfl, List.mem_cons_self⟩
  rw [hrounds]
  exact List.mem_cons_self

/-! ## What rounds achieve -/

/-- In any interleaving without rollbacks : when a round has reconciled with a peer, each of
the two has, for every version of a shared key the other one held when the round began, one
whose clock is at or after it. -/
theorem exchanged (hsum : Function.Injective h.sum)
    (hcombine : Function.Injective2 (combineHashes h)) (hstart : s.rounds = [])
    (hreach : Reaches h v members s t) {r : Round} (hr : r ∈ t.rounds) {peer key : String}
    (hpeer : peer ∈ r.reconciled) (hshared : sharesReplicaSet v r.self key peer = true) :
    (∀ x ∈ (r.began r.self).versions key, ∃ w ∈ (t.stores peer).versions key,
      x.vectorClock.compare w.vectorClock = .equal ∨
        x.vectorClock.compare w.vectorClock = .before) ∧
    ∀ x ∈ (r.began peer).versions key, ∃ w ∈ (t.stores r.self).versions key,
      x.vectorClock.compare w.vectorClock = .equal ∨
        x.vectorClock.compare w.vectorClock = .before := by
  obtain ⟨hto, hfrom⟩ :=
    (roundOk_of_reaches hsum hcombine hstart hreach r hr).1.reconciled peer hpeer key hshared
  have hcompare : ∀ {a b : List DataItem}, Below vectorClock a b → ∀ x ∈ a, ∃ w ∈ b,
      x.vectorClock.compare w.vectorClock = .equal ∨
        x.vectorClock.compare w.vectorClock = .before := by
    intro a b hab x hx
    obtain ⟨w, hw, hle⟩ := below_iff.mp hab x hx
    exact ⟨w, hw, VectorClock.le_iff_compare.mp hle⟩
  exact ⟨hcompare hto, hcompare hfrom⟩

/-- What a round passes on : the version that only `Z` had is at `B`. -/
theorem exchanged_loneVersion : ∃ t, Reaches markedHasher twoNodes ["Z", "B"] loneVersion t ∧
    ∃ r ∈ t.rounds, "B" ∈ r.reconciled ∧ ∀ x ∈ (r.began "Z").versions "k",
      ∃ w ∈ (t.stores "B").versions "k", x.vectorClock.compare w.vectorClock = .equal ∨
        x.vectorClock.compare w.vectorClock = .before := by
  obtain ⟨t, hcalm, r, hr, hself, hpeer⟩ := calm_loneVersion
  have hreach := reaches_of_calm rfl clear_loneVersion hcalm
  have hshared : sharesReplicaSet twoNodes r.self "k" "B" = true := by
    rw [hself]
    decide +kernel
  refine ⟨t, hreach, r, hr, hpeer, ?_⟩
  rw [← hself]
  exact (exchanged (fun _ _ heq => heq) combineHashes_markedHasher_inj rfl hreach hr hpeer
    hshared).1

/-- Nothing but anti-entropy runs, and every two replicas of a key have been reconciled by a
round of one of them. Then all replicas have the same clocks, the maximal ones of what they
held together at the start. -/
theorem converged (hsum : Function.Injective h.sum)
    (hcombine : Function.Injective2 (combineHashes h)) (hstart : s.rounds = [])
    (hclear : ∀ node, Clear (s.stores node)) (hcalm : Calm h v members s t) {key : String}
    (hpairs : ∀ p ∈ v.preferenceList key, ∀ q ∈ v.preferenceList key, p ≠ q →
      ∃ r ∈ t.rounds, r.self = p ∧ q ∈ r.reconciled ∨ r.self = q ∧ p ∈ r.reconciled)
    {p : String} (hp : p ∈ v.preferenceList key) :
    clocksOf ((t.stores p).versions key) = maximalClocks
      {f | ∃ q ∈ v.preferenceList key, f ∈ clocksOf ((s.stores q).versions key)} := by
  have hreach := reaches_of_calm hstart hclear hcalm
  have hrounds := roundOk_of_reaches hsum hcombine hstart hreach
  have hspread : ∀ p ∈ v.preferenceList key, ∀ q ∈ v.preferenceList key,
      Below vectorClock ((s.stores p).versions key) ((t.stores q).versions key) := by
    intro p hp q hq
    by_cases hpq : p = q
    · rw [hpq]
      exact hreach.grows q key
    obtain ⟨r, hr, hside⟩ := hpairs p hp q hq hpq
    obtain ⟨hok, hbegan⟩ := hrounds r hr
    refine (hbegan p key).trans ?_
    rcases hside with ⟨rfl, hrec⟩ | ⟨rfl, hrec⟩
    · exact (hok.reconciled q hrec key (sharesReplicaSet_iff.mpr ⟨hp, hq⟩)).1
    · exact (hok.reconciled p hrec key (sharesReplicaSet_iff.mpr ⟨hq, hp⟩)).2
  have hsource : ∀ q ∈ v.preferenceList key, Below vectorClock ((t.stores q).versions key)
      ((v.preferenceList key).flatMap fun q => (s.stores q).versions key) := by
    have hall := everywhere_of_calm (fun node k => node ∈ v.preferenceList k)
      (fun k x => Covers vectorClock
        ((v.preferenceList k).flatMap fun q => (s.stores q).versions k) x.vectorClock)
      (fun a b k hshared => sharesReplicaSet_iff.mp hshared) hstart
      (fun node k hin x hx => ⟨x, List.mem_flatMap.mpr ⟨node, hin, hx⟩, le_rfl⟩) hcalm
    exact fun q hq => below_iff.mpr (hall.stores q key hq)
  have hcov : ∀ c, Covers vectorClock ((t.stores p).versions key) c ↔
      Covers vectorClock ((v.preferenceList key).flatMap fun q => (s.stores q).versions key) c ∨
        Covers vectorClock [] c := by
    intro c
    rw [covers_iff_of_spread hspread hsource hp c, or_iff_left]
    rintro ⟨x, hx, -⟩
    cases hx
  rw [clocksOf_eq_maximal hcov]
  congr 1
  ext f
  simp only [clocksOf, Set.mem_union, Set.mem_ofPred_eq, List.mem_flatMap]
  constructor
  · rintro (⟨x, ⟨q, hq, hx⟩, rfl⟩ | ⟨x, hx, -⟩)
    · exact ⟨q, hq, x, hx, rfl⟩
    · cases hx
  · rintro ⟨q, hq, x, hx, rfl⟩
    exact Or.inl ⟨x, ⟨q, hq, hx⟩, rfl⟩

theorem converged_loneVersion : ∃ t, Calm markedHasher twoNodes ["Z", "B"] loneVersion t ∧
    ∀ p ∈ twoNodes.preferenceList "k", clocksOf ((t.stores p).versions "k") =
      maximalClocks {f | ∃ q ∈ twoNodes.preferenceList "k",
        f ∈ clocksOf ((loneVersion.stores q).versions "k")} := by
  obtain ⟨t, hcalm, r, hr, hself, hpeer⟩ := calm_loneVersion
  have hlist : ∀ p ∈ twoNodes.preferenceList "k", p = "Z" ∨ p = "B" := by decide +kernel
  refine ⟨t, hcalm, fun p hp => converged (fun _ _ heq => heq) combineHashes_markedHasher_inj rfl
    clear_loneVersion hcalm (fun p hp q hq hne => ⟨r, hr, ?_⟩) hp⟩
  rcases hlist p hp with rfl | rfl <;> rcases hlist q hq with rfl | rfl
  · exact absurd rfl hne
  · exact Or.inl ⟨hself, hpeer⟩
  · exact Or.inr ⟨hself, hpeer⟩
  · exact absurd rfl hne

/-- While all replicas of every key have the same clocks, anti-entropy moves no version in
either direction, whichever hash values collide, and every read stays the same. -/
theorem settled (hstart : s.rounds = [])
    (hagree : ∀ key, ∀ p ∈ v.preferenceList key, ∀ q ∈ v.preferenceList key,
      clocksOf ((s.stores p).versions key) = clocksOf ((s.stores q).versions key))
    (hcalm : Calm h v members s t) :
    (∀ node key, (t.stores node).versions key = (s.stores node).versions key) ∧
      ∀ r ∈ t.rounds, ∀ peer todo rec, r.current = some (peer, .reconciling todo (some rec)) →
        rec.pulled = [] ∧ rec.pushed = [] := by
  have hbelow : ∀ a b key, sharesReplicaSet v a key b = true →
      Below vectorClock ((s.stores a).versions key) ((s.stores b).versions key) ∧
        Below vectorClock ((s.stores b).versions key) ((s.stores a).versions key) := by
    intro a b key hshared
    obtain ⟨ha, hb⟩ := sharesReplicaSet_iff.mp hshared
    exact ⟨below_of_clocksOf_eq (hagree key a ha b hb), below_of_clocksOf_eq (hagree key b hb a ha)⟩
  have hstill : (∀ node key, (t.stores node).versions key = (s.stores node).versions key) ∧
      ∀ r ∈ t.rounds, ∀ peer todo rec, r.current = some (peer, .reconciling todo (some rec)) →
        rec.Still v fun node => (s.stores node).versions := by
    induction hcalm with
    | refl => exact ⟨fun _ _ => rfl, by simp [hstart]⟩
    | begin self hcalm ih => exact ⟨ih.1, forall_mem_concat ih.2 (by simp [Round.start])⟩
    | round i r r' stores hcalm hr hstep ih =>
      have hround := ih.2 r (List.mem_of_getElem? hr)
      rcases round_cases hstep with ⟨rfl, hcurrent⟩ | ⟨peer, todo, rec, rec', hrec, hrec', hstep⟩
      · refine ⟨ih.1, forall_mem_set ih.2 fun peer todo rec hsome => ?_⟩
        rcases hcurrent peer todo rec hsome with hold | ⟨bucket, rfl⟩
        · exact hround peer todo rec hold
        · exact ⟨rfl, rfl, trivial⟩
      · obtain ⟨rfl, hkept⟩ := still_step hbelow ih.1 (hround _ _ _ hrec) hstep
        refine ⟨ih.1, forall_mem_set ih.2 fun peer' todo' rec'' hsome => ?_⟩
        obtain ⟨-, hphase⟩ := Prod.mk.inj (Option.some.inj (hrec'.symm.trans hsome))
        obtain rfl := Option.some.inj (AntiEntropyPhase.reconciling.inj hphase).2
        exact hkept
    | maintain node layers hcalm hsame hfilled ih =>
      exact ⟨fun n key => (DataStore.versions_update hsame n key).trans (ih.1 n key), ih.2⟩
  exact ⟨hstill.1, fun r hr peer todo rec hcurrent =>
    ⟨(hstill.2 r hr peer todo rec hcurrent).pulled, (hstill.2 r hr peer todo rec hcurrent).pushed⟩⟩

/-- Both nodes hold the version, and a round of `Z` is under way. -/
theorem settled_storeWith : ∃ t, Calm markedHasher twoNodes ["Z", "B"]
      ⟨⟨fun _ => storeWith "1" plainContext, [], [], [], [], []⟩, []⟩ t ∧ t.rounds ≠ [] ∧
    ∀ node key, (t.stores node).versions key = (storeWith "1" plainContext).versions key := by
  have h0 : Calm markedHasher twoNodes ["Z", "B"]
    ⟨⟨fun _ => storeWith "1" plainContext, [], [], [], [], []⟩, []⟩ _ := .begin "Z" .refl
  have h1 := Calm.round 0 _ _ _ h0 rfl (.visit "B" rfl (by decide))
  exact ⟨_, h1, List.cons_ne_nil _ _, (settled rfl (fun _ _ _ _ _ => rfl) h1).1⟩

end Repair

end DistributedKV
