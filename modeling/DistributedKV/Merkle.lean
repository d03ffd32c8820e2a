import DistributedKV.DataStore
import DistributedKV.HashRing
import DistributedKV.Delimiters

/-!
# The Merkle tree of a store

A store's keys fall into buckets, and a leaf of the tree is the hash of everything in one
bucket : every key, and the text of each of its versions, each ended by a NUL byte. The
text of a version puts its JSON value, its clock, its updater and its deletion mark between
fixed markers. Nothing is escaped.

So the text determines what was written as long as no field contains the marker that ends
it (`canonicalItemString_inj`, `contentsText_inj`), and `leaf_eq_iff` : two stores that
keep to this (`Legible`) have the same leaf exactly when they hold the same in the bucket.
Clients choose keys and the names of clock entries, and a name may contain the text of a
counter and a blank (`leaf_eq_of_different_clocks`).
-/

open Delimiters

namespace DistributedKV

/-- SHA-256, and the bytes of a digest. -/
structure Hasher (Hash : Type*) where
  sum : ByteArray → Hash
  bytes : Hash → ByteArray

/-- A complete binary tree as a flat array : node `i` has the children `2i+1` and `2i+2`, and
the last `numBuckets` nodes are the leaves. -/
structure Tree (Hash : Type*) where
  numBuckets : Nat
  nodes : List Hash

inductive BuildError
  /-- The source panics : a malformed bucket count is a programming error. -/
  | bucketCount
  | read
deriving DecidableEq

/-- The count is a power of four. -/
def validateBucketCount (numBuckets : Nat) : Bool :=
  1 ≤ numBuckets && numBuckets &&& (numBuckets - 1) = 0 && numBuckets.log2 % 2 = 0

def leafIndex (bucketIndex numBuckets : Nat) : Nat :=
  numBuckets - 1 + bucketIndex

def bucketFor (key : String) (numBuckets : Nat) : Nat :=
  (hashKey key).toNat % numBuckets

/-- The parts of a clock, as the format verb of the source prints a slice. -/
def formatSlice (parts : List String) : String :=
  "[" ++ " ".intercalate parts ++ "]"

def canonicalItemString (item : DataItem) : String :=
  let vc := item.vectorClock.snapshot
  let vcParts := vc.keys.map fun node => node ++ ":" ++ toString (vc.at node)
  "value=" ++ item.value ++ "|vc=\x7b" ++ formatSlice vcParts ++ "\x7d|by=" ++ item.lastUpdatedBy ++
    "|deleted=" ++ toString item.isDeleted

def itemStrings (items : List DataItem) : List String :=
  (items.map canonicalItemString).insertionSort (· ≤ ·)

/-- What is written into the hash of a bucket. -/
def contentsText : List (String × List String) → String
  | [] => ""
  | (key, strings) :: rest =>
    key ++ "\x00" ++ String.join (strings.map (· ++ "\x00")) ++ contentsText rest

variable {Hash : Type*}

/-- `reading` says which keys cannot be read. -/
def hashBucketContents (h : Hasher Hash) (reading : String → Faults) (ds : DataStore)
    (bucketKeys : List String) : Option Hash :=
  let contents := (bucketKeys.insertionSort (· ≤ ·)).mapM fun key =>
    (ds.get (reading key) key).map fun items => (key, itemStrings items)
  contents.map fun l => h.sum (contentsText l).toUTF8

def combineHashes (h : Hasher Hash) (left right : Hash) : Hash :=
  h.sum (h.bytes left ++ h.bytes right)

/-- The internal nodes, bottom up : node `i` is put in front of the nodes after it. -/
def internalNodes [Inhabited Hash] (h : Hasher Hash) (leaves : List Hash) : List Hash :=
  (List.range (leaves.length - 1)).reverse.foldl
    (fun nodes i => combineHashes h (nodes.getD i default) (nodes.getD (i + 1) default) :: nodes)
    leaves

def build [Inhabited Hash] (h : Hasher Hash) (listing : Faults) (reading : String → Faults)
    (ds : DataStore) (numBuckets : Nat) : Except BuildError (Tree Hash) :=
  if validateBucketCount numBuckets = false then .error .bucketCount
  else
    match ds.keys listing with
    | none => .error .read
    | some allKeys =>
      let leaves := (List.range numBuckets).mapM fun b =>
        hashBucketContents h reading ds (allKeys.filter fun k => bucketFor k numBuckets = b)
      match leaves with
      | none => .error .read
      | some leaves => .ok ⟨numBuckets, internalNodes h leaves⟩

def Tree.leaf [Inhabited Hash] (t : Tree Hash) (bucketIndex : Nat) : Hash :=
  t.nodes.getD (leafIndex bucketIndex t.numBuckets) default

/-! ## Reading the text of a version back -/

/-- What a counter is printed as. -/
def CounterText (d : List Char) : Prop :=
  ∃ n : UInt32, d = (toString n).toList

theorem digits_of_counterText {d : List Char} (h : CounterText d) : ∀ c ∈ d, c.isDigit := by
  obtain ⟨n, rfl⟩ := h
  intro c hc
  have hc : c ∈ Nat.toDigits 10 n.toNat := by
    simpa [toString, Nat.repr] using hc
  exact Nat.isDigit_of_mem_toDigits (by decide) (by decide) hc

/-- `encoding/json` writes a bar only inside a string, and closes its strings. -/
def JSONText (s : String) : Prop :=
  Closed '|' .outside s.toList

/-- A version whose clock's names and updater do not contain the markers that end them. -/
structure Readable (item : DataItem) : Prop where
  json : JSONText item.value
  names : ∀ node ∈ item.vectorClock.state, ¬Splits ':' ' ' CounterText node.toList ∧
    ¬"]\x7d|by=".toList <:+: node.toList
  updater : ∀ deleted : Bool,
    ¬("|deleted=" ++ toString deleted ++ "\x00").toList <:+: item.lastUpdatedBy.toList

/-- The parts of a clock's text. -/
def clockParts (vc : Snapshot) : List (List Char × List Char) :=
  vc.toList.map fun p => (p.1.toList, (toString p.2).toList)

theorem toList_eq_keys (vc : Snapshot) : vc.toList = vc.keys.map fun node => (node, vc.at node) := by
  rw [← Std.ExtTreeMap.map_fst_toList_eq_keys, List.map_map]
  conv_lhs => rw [← List.map_id vc.toList]
  refine List.map_congr_left fun p hp => ?_
  have := entry_of_mem_toList (c := ⟨vc⟩) (n := p.1) (x := p.2) hp
  exact Prod.ext rfl this.symm

theorem clockParts_inj {vc vc' : Snapshot} (h : clockParts vc = clockParts vc') : vc = vc' := by
  have hinj : Function.Injective fun p : String × UInt32 =>
      (p.1.toList, (toString p.2).toList) := by
    rintro ⟨n, x⟩ ⟨n', x'⟩ hp
    obtain ⟨hn, hx⟩ := Prod.mk.inj hp
    have hn : n = n' := String.toList_inj.mp hn
    have hx : x.toNat.repr = x'.toNat.repr := String.toList_inj.mp hx
    rw [hn, UInt32.toNat_inj.mp (Nat.repr_inj.mp hx)]
  exact Std.ExtTreeMap.ext_toList (List.Perm.of_eq (hinj.list_map h))

theorem toList_formatSlice (vc : Snapshot) :
    (formatSlice (vc.keys.map fun node => node ++ ":" ++ toString (vc.at node))).toList =
      '[' :: (joined ':' ' ' (clockParts vc) ++ [']']) := by
  simp only [formatSlice, joined, clockParts, toList_eq_keys, List.map_map, String.toList_append,
    String.toList_intercalate, Function.comp_def]
  simp

/-- The text of a version followed by a NUL byte, with the markers in view. -/
theorem toList_canonicalItemString (item : DataItem) (x : List Char) :
    (canonicalItemString item).toList ++ '\x00' :: x =
      "value=".toList ++ (item.value.toList ++ '|' :: ("vc=\x7b[".toList ++
        (joined ':' ' ' (clockParts item.vectorClock.state) ++ ']' :: ("\x7d|by=".toList ++
          (item.lastUpdatedBy.toList ++
            '|' :: (("deleted=" ++ toString item.isDeleted ++ "\x00").toList ++ x)))))) := by
  simp only [canonicalItemString, VectorClock.snapshot, String.toList_append, toList_formatSlice]
  simp

/-- The parts of its clock are texts of such names, each with a counter. -/
theorem Readable.parts {item : DataItem} (h : Readable item) :
    ∀ p ∈ clockParts item.vectorClock.state, (¬Splits ':' ' ' CounterText p.1 ∧ CounterText p.2) ∧
      ¬"]\x7d|by=".toList <:+: p.1 := by
  intro p hp
  obtain ⟨q, hq, rfl⟩ := List.mem_map.mp hp
  have hnode : q.1 ∈ item.vectorClock.state := by
    rw [← Std.ExtTreeMap.mem_keys, ← Std.ExtTreeMap.map_fst_toList_eq_keys]
    exact List.mem_map.mpr ⟨q, hq, rfl⟩
  exact ⟨⟨(h.names q.1 hnode).1, q.2, rfl⟩, (h.names q.1 hnode).2⟩

/-- The clock's text does not contain the marker after it. -/
theorem Readable.not_infix_joined {item : DataItem} (h : Readable item) :
    ¬(']' :: "\x7d|by=".toList) <:+: joined ':' ' ' (clockParts item.vectorClock.state) := by
  intro hoccurs
  have hdigits : ∀ p ∈ clockParts item.vectorClock.state, ']' ∉ p.2 := fun p hp hmem =>
    absurd (digits_of_counterText (h.parts p hp).1.2 _ hmem) (by decide)
  obtain ⟨p, hp, hin⟩ := exists_infix_of_joined (c := ']') List.mem_cons_self (by decide)
    (by decide) hdigits hoccurs
  exact (h.parts p hp).2 hin

/-- A clock is read back from its text. -/
theorem Readable.clock_inj {item item' : DataItem} (h : Readable item) (h' : Readable item')
    (hj : joined ':' ' ' (clockParts item.vectorClock.state) =
      joined ':' ' ' (clockParts item'.vectorClock.state)) :
    item.vectorClock.state = item'.vectorClock.state := by
  refine clockParts_inj (joined_inj (by decide) (fun d hd => ⟨fun hc => ?_, fun hc => ?_⟩)
    (fun p hp => (h.parts p hp).1) (fun p hp => (h'.parts p hp).1) hj)
  · exact absurd (digits_of_counterText hd _ hc) (by decide)
  · exact absurd (digits_of_counterText hd _ hc) (by decide)

/-- A readable version and what follows it are read back from the text. -/
theorem canonicalItemString_inj {item item' : DataItem} {x x' : List Char} (h : Readable item)
    (h' : Readable item') (heq : (canonicalItemString item).toList ++ '\x00' :: x =
      (canonicalItemString item').toList ++ '\x00' :: x') : item = item' ∧ x = x' := by
  rw [toList_canonicalItemString, toList_canonicalItemString] at heq
  obtain ⟨hvalue, heq⟩ := closed_inj h.json h'.json (List.append_cancel_left heq)
  obtain ⟨hclock, heq⟩ := delimiter_inj (by decide) (by decide) (List.append_cancel_left heq)
    h.not_infix_joined h'.not_infix_joined
  have hmark : ∀ deleted : Bool, '|' ∉ ("deleted=" ++ toString deleted ++ "\x00").toList := by decide
  have hupdater : ∀ {i : DataItem}, Readable i → ∀ deleted : Bool,
      ¬('|' :: ("deleted=" ++ toString deleted ++ "\x00").toList) <:+: i.lastUpdatedBy.toList := by
    intro i hi deleted
    simpa using hi.updater deleted
  obtain ⟨hby, heq⟩ := delimiter_inj (hmark _) (hmark _) (List.append_cancel_left heq)
    (hupdater h _) (hupdater h' _)
  obtain ⟨value, ⟨state⟩, updater, deleted⟩ := item
  obtain ⟨value', ⟨state'⟩, updater', deleted'⟩ := item'
  obtain rfl : value = value' := String.toList_inj.mp hvalue
  obtain rfl : state = state' := h.clock_inj h' hclock
  obtain rfl : updater = updater' := String.toList_inj.mp hby
  cases deleted <;> cases deleted'
  · exact ⟨rfl, List.append_cancel_left heq⟩
  · simp [toString] at heq
  · simp [toString] at heq
  · exact ⟨rfl, List.append_cancel_left heq⟩

/-! ## Reading a bucket back -/

/-- A key that does not look like the start of a version, nor contains one. -/
def PlainKey (key : String) : Prop :=
  ¬"\x00value=".toList <:+: '\x00' :: key.toList

/-- A key with the texts of readable versions, at least one. -/
structure ReadableKey (c : String × List String) : Prop where
  key : PlainKey c.1
  versions : c.2 ≠ []
  readable : ∀ s ∈ c.2, ∃ item, Readable item ∧ s = canonicalItemString item

/-- The texts of a key's versions, each ended by a NUL byte. -/
def stringsText (strings : List String) : List Char :=
  strings.flatMap fun s => s.toList ++ ['\x00']

theorem toList_join_map (strings : List String) :
    (String.join (strings.map (· ++ "\x00"))).toList = stringsText strings := by
  simp [stringsText, String.toList_join, List.flatMap_map]

theorem toList_contentsText_cons (key : String) (strings : List String)
    (rest : List (String × List String)) :
    (contentsText ((key, strings) :: rest)).toList =
      key.toList ++ '\x00' :: (stringsText strings ++ (contentsText rest).toList) := by
  rw [contentsText]
  simp only [String.toList_append, toList_join_map]
  simp

theorem value_isPrefix (item : DataItem) (x : List Char) :
    "value=".toList <+: (canonicalItemString item).toList ++ '\x00' :: x := by
  rw [toList_canonicalItemString]
  exact List.prefix_append ..

/-- Versions end where no further version begins. -/
theorem stringsText_inj {r r' : List Char} (hr : ¬"value=".toList <+: r)
    (hr' : ¬"value=".toList <+: r') : ∀ {l l' : List String},
    (∀ s ∈ l, ∃ item, Readable item ∧ s = canonicalItemString item) →
    (∀ s ∈ l', ∃ item, Readable item ∧ s = canonicalItemString item) →
    stringsText l ++ r = stringsText l' ++ r' → l = l' ∧ r = r'
  | [], [], _, _, h => ⟨rfl, h⟩
  | [], s :: l', _, hl', h => by
    obtain ⟨item, -, rfl⟩ := hl' s List.mem_cons_self
    refine absurd ?_ hr
    have h : r = (canonicalItemString item).toList ++ '\x00' :: (stringsText l' ++ r') := by
      simpa [stringsText] using h
    rw [h]
    exact value_isPrefix ..
  | s :: l, [], hl, _, h => by
    obtain ⟨item, -, rfl⟩ := hl s List.mem_cons_self
    refine absurd ?_ hr'
    have h : (canonicalItemString item).toList ++ '\x00' :: (stringsText l ++ r) = r' := by
      simpa [stringsText] using h
    rw [← h]
    exact value_isPrefix ..
  | s :: l, s' :: l', hl, hl', h => by
    obtain ⟨⟨item, hitem, rfl⟩, htail⟩ := List.forall_mem_cons.mp hl
    obtain ⟨⟨item', hitem', rfl⟩, htail'⟩ := List.forall_mem_cons.mp hl'
    have h : (canonicalItemString item).toList ++ '\x00' :: (stringsText l ++ r) =
        (canonicalItemString item').toList ++ '\x00' :: (stringsText l' ++ r') := by
      simpa [stringsText] using h
    obtain ⟨rfl, hrest⟩ := canonicalItemString_inj hitem hitem' h
    obtain ⟨rfl, hr⟩ := stringsText_inj hr hr' htail htail' hrest
    exact ⟨rfl, hr⟩

/-- What follows the versions of a key is another key, which is not taken for a version. -/
theorem not_value_isPrefix : ∀ {l : List (String × List String)}, (∀ c ∈ l, ReadableKey c) →
    ¬"value=".toList <+: (contentsText l).toList
  | [], _ => by simp [contentsText]
  | (key, strings) :: rest, hl => by
    intro h
    rw [toList_contentsText_cons] at h
    obtain ⟨t, h⟩ := h
    refine (hl _ List.mem_cons_self).key ?_
    rcases List.append_eq_append_iff.mp h with ⟨e, hkey, -⟩ | ⟨e, hkey, he⟩
    · exact ⟨[], e, by simp [hkey]⟩
    · cases e with
      | nil => exact ⟨[], [], by simpa using hkey⟩
      | cons =>
        obtain ⟨rfl, -⟩ := List.cons.inj he
        have : '\x00' ∈ "value=".toList := by rw [hkey]; simp
        exact absurd this (by decide)

/-- The contents of a bucket are read back from what is hashed. -/
theorem contentsText_inj : ∀ {l l' : List (String × List String)},
    (∀ c ∈ l, ReadableKey c) → (∀ c ∈ l', ReadableKey c) →
    (contentsText l).toList = (contentsText l').toList → l = l'
  | [], [], _, _, _ => rfl
  | [], (key, strings) :: l', _, _, h => by
    rw [toList_contentsText_cons] at h
    simp [contentsText] at h
  | (key, strings) :: l, [], _, _, h => by
    rw [toList_contentsText_cons] at h
    simp [contentsText] at h
  | (key, strings) :: l, (key', strings') :: l', hl, hl', h => by
    obtain ⟨hc, htail⟩ := List.forall_mem_cons.mp hl
    obtain ⟨hc', htail'⟩ := List.forall_mem_cons.mp hl'
    rw [toList_contentsText_cons, toList_contentsText_cons] at h
    -- a key is followed by a version, so it ends at the first marker of one
    have hfirst : ∀ {k : String} {ss : List String}, ReadableKey (k, ss) → ∀ r : List Char,
        ∃ z, stringsText ss ++ r = "value=".toList ++ z := by
      intro k ss hk r
      cases ss with
      | nil => exact absurd rfl hk.versions
      | cons s ss =>
        obtain ⟨item, -, hs⟩ := hk.readable s List.mem_cons_self
        obtain ⟨z, hz⟩ := value_isPrefix item (stringsText ss ++ r)
        exact ⟨z, by rw [hz, hs]; simp [stringsText]⟩
    obtain ⟨z, hz⟩ := hfirst hc (contentsText l).toList
    obtain ⟨z', hz'⟩ := hfirst hc' (contentsText l').toList
    have hplain : ∀ {k : String}, PlainKey k → ¬('\x00' :: "value=".toList) <:+: k.toList :=
      fun hk hin => hk (hin.trans (List.suffix_cons ..).isInfix)
    rw [hz, hz'] at h
    obtain ⟨hkey, hrest⟩ := delimiter_inj (by decide) (by decide) h (hplain hc.key) (hplain hc'.key)
    rw [← hz, ← hz'] at hrest
    obtain ⟨hstrings, hend⟩ := stringsText_inj (not_value_isPrefix htail)
      (not_value_isPrefix htail') hc.readable hc'.readable hrest
    have hstrings : strings = strings' := hstrings
    rw [String.toList_inj.mp hkey, hstrings, contentsText_inj htail htail' hend]

/-! ## Leaves -/

/-- The keys a store lists in a bucket. -/
def bucketKeys (ds : DataStore) (numBuckets bucket : Nat) : List String :=
  ds.persister.keys.filter fun k => bucketFor k numBuckets = bucket

/-- What a store's bucket is hashed from. -/
def bucketContents (ds : DataStore) (numBuckets bucket : Nat) : List (String × List String) :=
  ((bucketKeys ds numBuckets bucket).insertionSort (· ≤ ·)).map fun key =>
    (key, itemStrings (ds.versions key))

theorem hashBucketContents_eq {h : Hasher Hash} {reading : String → Faults} {ds : DataStore}
    {keys : List String} {hash : Hash} (hh : hashBucketContents h reading ds keys = some hash) :
    hash = h.sum (contentsText ((keys.insertionSort (· ≤ ·)).map fun key =>
      (key, itemStrings (ds.versions key)))).toUTF8 := by
  obtain ⟨l, hl, rfl⟩ := Option.map_eq_some_iff.mp hh
  have hmap : ∀ {keys : List String} {l : List (String × List String)},
      keys.mapM (fun key => (ds.get (reading key) key).map fun items =>
        (key, itemStrings items)) = some l →
      l = keys.map fun key => (key, itemStrings (ds.versions key)) := by
    intro keys
    induction keys with
    | nil => intro l hl; simpa using hl.symm
    | cons key keys ih =>
      intro l hl
      simp only [List.mapM_cons, Option.bind_eq_bind, Option.pure_def,
        Option.bind_eq_some_iff] at hl
      obtain ⟨c, hc, rest, hrest, hl⟩ := hl
      obtain ⟨items, hget, rfl⟩ := Option.map_eq_some_iff.mp hc
      rw [← Option.some.inj hl, ih hrest, DataStore.get_eq_some hget]
      rfl
  rw [hmap hl]

/-- The internal nodes stand in front of the leaves. -/
theorem internalNodes_eq_append [Inhabited Hash] (h : Hasher Hash) (leaves : List Hash) :
    ∃ inner : List Hash, inner.length = leaves.length - 1 ∧
      internalNodes h leaves = inner ++ leaves := by
  have hfold : ∀ (is : List Nat) (nodes : List Hash), ∃ inner : List Hash,
      inner.length = is.length ∧
      is.foldl (fun nodes i => combineHashes h (nodes.getD i default)
        (nodes.getD (i + 1) default) :: nodes) nodes = inner ++ nodes := by
    intro is
    induction is with
    | nil => exact fun nodes => ⟨[], rfl, rfl⟩
    | cons i is ih =>
      intro nodes
      obtain ⟨inner, hlen, hin⟩ := ih (combineHashes h (nodes.getD i default)
        (nodes.getD (i + 1) default) :: nodes)
      refine ⟨inner ++ [combineHashes h (nodes.getD i default) (nodes.getD (i + 1) default)],
        by simp [hlen], ?_⟩
      rw [List.foldl_cons, hin, List.append_assoc]
      rfl
  obtain ⟨inner, hlen, hin⟩ := hfold (List.range (leaves.length - 1)).reverse leaves
  exact ⟨inner, by simpa using hlen, hin⟩

theorem getElem?_mapM {β γ : Type*} {f : β → Option γ} : ∀ {l : List β} {r : List γ},
    l.mapM f = some r → r.length = l.length ∧ ∀ (i : Nat) (b : β), l[i]? = some b → r[i]? = f b
  | [], r, hr => by
    obtain rfl : r = [] := by simpa using hr.symm
    exact ⟨rfl, by simp⟩
  | b :: l, r, hr => by
    simp only [List.mapM_cons, Option.bind_eq_bind, Option.pure_def,
      Option.bind_eq_some_iff] at hr
    obtain ⟨c, hc, rest, hrest, hr⟩ := hr
    cases hr
    obtain ⟨hlen, hget⟩ := getElem?_mapM hrest
    refine ⟨by simp [hlen], fun i b' hb' => ?_⟩
    cases i with
    | zero =>
      obtain rfl : b = b' := by simpa using hb'
      simp [hc]
    | succ i => simpa using hget i b' (by simpa using hb')

/-- A tree that was built : over the hashes of the buckets' contents. -/
theorem leaves_of_build [Inhabited Hash] {h : Hasher Hash} {listing : Faults}
    {reading : String → Faults} {ds : DataStore} {numBuckets : Nat} {t : Tree Hash}
    (ht : build h listing reading ds numBuckets = .ok t) :
    ∃ leaves : List Hash, leaves.length = numBuckets ∧ t = ⟨numBuckets, internalNodes h leaves⟩ ∧
      ∀ b < numBuckets, leaves[b]? =
        some (h.sum (contentsText (bucketContents ds numBuckets b)).toUTF8) := by
  unfold build at ht
  split at ht
  · cases ht
  · split at ht
    · cases ht
    · next allKeys hkeys =>
      simp only at ht
      split at ht
      · cases ht
      · next leaves hleaves =>
        obtain ⟨hlen, hget⟩ := getElem?_mapM hleaves
        rw [List.length_range] at hlen
        refine ⟨leaves, hlen, (Except.ok.inj ht).symm, fun b hb => ?_⟩
        have hleaf := hget b b (by simp [hb])
        rw [List.getElem?_eq_getElem (by rw [hlen]; exact hb)] at hleaf ⊢
        rw [hashBucketContents_eq hleaf.symm, DataStore.keys_eq_some hkeys]
        rfl

/-- A leaf is the hash of its bucket's contents. -/
theorem leaf_of_build [Inhabited Hash] {h : Hasher Hash} {listing : Faults}
    {reading : String → Faults} {ds : DataStore} {numBuckets bucket : Nat} {t : Tree Hash}
    (ht : build h listing reading ds numBuckets = .ok t) (hb : bucket < numBuckets) :
    t.leaf bucket = h.sum (contentsText (bucketContents ds numBuckets bucket)).toUTF8 := by
  obtain ⟨leaves, hlen, rfl, hleaf⟩ := leaves_of_build ht
  obtain ⟨inner, hinner, heq⟩ := internalNodes_eq_append h leaves
  have hindex : inner.length ≤ numBuckets - 1 + bucket := by omega
  rw [Tree.leaf, leafIndex, heq, List.getD_eq_getElem?_getD, List.getElem?_append_right hindex,
    hinner, hlen, Nat.add_sub_cancel_left, hleaf bucket hb, Option.getD_some]

/-- A tree has its leaves, and one node less above them. -/
theorem length_nodes_of_build [Inhabited Hash] {h : Hasher Hash} {listing : Faults}
    {reading : String → Faults} {ds : DataStore} {numBuckets : Nat} {t : Tree Hash}
    (ht : build h listing reading ds numBuckets = .ok t) :
    t.numBuckets = numBuckets ∧ t.nodes.length = 2 * numBuckets - 1 := by
  obtain ⟨leaves, hlen, rfl, -⟩ := leaves_of_build ht
  obtain ⟨inner, hinner, heq⟩ := internalNodes_eq_append h leaves
  rw [heq, List.length_append]
  exact ⟨rfl, by omega⟩

/-- Both stores list the same keys in the bucket, with the same versions. -/
def SameContents (a b : DataStore) (numBuckets bucket : Nat) : Prop :=
  ∀ key, bucketFor key numBuckets = bucket →
    (key ∈ a.persister.keys ↔ key ∈ b.persister.keys) ∧
      (a.versions key : Multiset DataItem) = (b.versions key : Multiset DataItem)

/-- No key, clock entry name or updater in the bucket contains a marker that ends it, and
values are JSON. A listed key has a version. -/
structure Legible (ds : DataStore) (numBuckets bucket : Nat) : Prop where
  listed : ∀ key ∈ ds.persister.keys, bucketFor key numBuckets = bucket → ds.versions key ≠ []
  keys : ∀ key ∈ ds.persister.keys, bucketFor key numBuckets = bucket → PlainKey key
  versions : ∀ key, bucketFor key numBuckets = bucket → ∀ v ∈ ds.versions key, Readable v

theorem mem_bucketKeys {ds : DataStore} {numBuckets bucket : Nat} {key : String} :
    key ∈ bucketKeys ds numBuckets bucket ↔
      key ∈ ds.persister.keys ∧ bucketFor key numBuckets = bucket := by
  simp [bucketKeys]

theorem mem_itemStrings {items : List DataItem} {s : String} :
    s ∈ itemStrings items ↔ ∃ v ∈ items, canonicalItemString v = s := by
  simp [itemStrings]

theorem Legible.contents {ds : DataStore} {numBuckets bucket : Nat}
    (h : Legible ds numBuckets bucket) : ∀ c ∈ bucketContents ds numBuckets bucket, ReadableKey c := by
  intro c hc
  obtain ⟨key, hkey, rfl⟩ := List.mem_map.mp hc
  obtain ⟨hmem, hbucket⟩ := mem_bucketKeys.mp ((List.mem_insertionSort _).mp hkey)
  refine ⟨h.keys key hmem hbucket, fun hnil => h.listed key hmem hbucket ?_, fun s hs => ?_⟩
  · have hlen := congrArg List.length hnil
    simpa [itemStrings] using hlen
  · obtain ⟨v, hv, rfl⟩ := mem_itemStrings.mp hs
    exact ⟨v, h.versions key hbucket v hv, rfl⟩

theorem insertionSort_eq_of_perm {l l' : List String} (h : l.Perm l') :
    l.insertionSort (· ≤ ·) = l'.insertionSort (· ≤ ·) :=
  List.Perm.eq_of_pairwise' (List.pairwise_insertionSort _ _) (List.pairwise_insertionSort _ _)
    (((List.perm_insertionSort _ _).trans h).trans (List.perm_insertionSort _ _).symm)

/-- Versions are read back from their sorted texts. -/
theorem versions_of_itemStrings {l l' : List DataItem} (hl : ∀ v ∈ l, Readable v)
    (hl' : ∀ v ∈ l', Readable v) (h : itemStrings l = itemStrings l') :
    (l : Multiset DataItem) = (l' : Multiset DataItem) := by
  have hinj : Set.InjOn canonicalItemString {v | Readable v} := by
    intro v hv w hw he
    have htext : (canonicalItemString v).toList ++ '\x00' :: [] =
        (canonicalItemString w).toList ++ '\x00' :: [] := by rw [he]
    exact (canonicalItemString_inj hv hw htext).1
  have : Nonempty DataItem := ⟨⟨"", ⟨∅⟩, "", false⟩⟩
  have hperm : (l.map canonicalItemString).Perm (l'.map canonicalItemString) :=
    ((List.perm_insertionSort (· ≤ ·) _).symm.trans (List.Perm.of_eq h)).trans
      (List.perm_insertionSort _ _)
  -- readable versions are recovered from their texts one by one
  have hback : ∀ {k : List DataItem}, (∀ v ∈ k, Readable v) →
      (k.map canonicalItemString).map (Function.invFunOn canonicalItemString {v | Readable v}) =
        k := by
    intro k hk
    rw [List.map_map]
    conv_rhs => rw [← List.map_id k]
    exact List.map_congr_left fun v hv => hinj.leftInvOn_invFunOn (hk v hv)
  have := hperm.map (Function.invFunOn canonicalItemString {v | Readable v})
  rw [hback hl, hback hl'] at this
  exact Multiset.coe_eq_coe.mpr this

/-- Equal contents are hashed alike. -/
theorem bucketContents_eq_of_same {a b : DataStore} {numBuckets bucket : Nat}
    (h : SameContents a b numBuckets bucket) :
    bucketContents a numBuckets bucket = bucketContents b numBuckets bucket := by
  have hkeys : (bucketKeys a numBuckets bucket).Perm (bucketKeys b numBuckets bucket) := by
    refine (List.perm_ext_iff_of_nodup ((Layers.nodup_keys _).filter _)
      ((Layers.nodup_keys _).filter _)).mpr ?_
    intro key
    rw [← bucketKeys, ← bucketKeys, mem_bucketKeys, mem_bucketKeys]
    exact and_congr_left fun hbucket => (h key hbucket).1
  rw [bucketContents, bucketContents, insertionSort_eq_of_perm hkeys]
  refine List.map_congr_left fun key hkey => ?_
  have hbucket := (mem_bucketKeys.mp ((List.mem_insertionSort _).mp hkey)).2
  have hitems : itemStrings (a.versions key) = itemStrings (b.versions key) :=
    insertionSort_eq_of_perm ((Multiset.coe_eq_coe.mp (h key hbucket).2).map _)
  rw [hitems]

/-- Contents that are hashed alike are equal, for legible stores. -/
theorem same_of_bucketContents_eq {a b : DataStore} {numBuckets bucket : Nat}
    (ha : Legible a numBuckets bucket) (hb : Legible b numBuckets bucket)
    (h : bucketContents a numBuckets bucket = bucketContents b numBuckets bucket) :
    SameContents a b numBuckets bucket := by
  have hsorted := congrArg (List.map Prod.fst) h
  simp only [bucketContents, List.map_map, Function.comp_def, List.map_id'] at hsorted
  have hmem : ∀ key, key ∈ bucketKeys a numBuckets bucket ↔ key ∈ bucketKeys b numBuckets bucket := by
    intro key
    rw [← List.mem_insertionSort (· ≤ ·), hsorted, List.mem_insertionSort]
  intro key hbucket
  have hkey : key ∈ a.persister.keys ↔ key ∈ b.persister.keys := by
    simpa [mem_bucketKeys, hbucket] using hmem key
  refine ⟨hkey, ?_⟩
  by_cases hin : key ∈ a.persister.keys
  · have hc : (key, itemStrings (a.versions key)) ∈ bucketContents b numBuckets bucket := by
      rw [← h]
      exact List.mem_map.mpr
        ⟨key, (List.mem_insertionSort _).mpr (mem_bucketKeys.mpr ⟨hin, hbucket⟩), rfl⟩
    obtain ⟨key', -, he⟩ := List.mem_map.mp hc
    obtain ⟨rfl, hstrings⟩ := Prod.mk.inj he
    exact versions_of_itemStrings (ha.versions _ hbucket) (hb.versions _ hbucket) hstrings.symm
  · have hnone : ∀ {ds : DataStore}, key ∉ ds.persister.keys → ds.versions key = [] := by
      intro ds hds
      refine List.eq_nil_iff_forall_not_mem.mpr fun v hv => hds ?_
      exact Layers.mem_keys_of_mem_getAll (DataStore.mem_versions.mp hv)
    rw [hnone hin, hnone (mt hkey.mpr hin)]

/-- With no two byte strings hashed alike, legible stores have the same leaf for a bucket
exactly when they hold the same keys in it with the same versions. -/
theorem leaf_eq_iff [Inhabited Hash] {h : Hasher Hash} (hinj : Function.Injective h.sum)
    {listing listing' : Faults} {reading reading' : String → Faults} {a b : DataStore}
    {numBuckets bucket : Nat} {t t' : Tree Hash}
    (ht : build h listing reading a numBuckets = .ok t)
    (ht' : build h listing' reading' b numBuckets = .ok t') (hbucket : bucket < numBuckets)
    (ha : Legible a numBuckets bucket) (hb : Legible b numBuckets bucket) :
    t.leaf bucket = t'.leaf bucket ↔ SameContents a b numBuckets bucket := by
  rw [leaf_of_build ht hbucket, leaf_of_build ht' hbucket]
  constructor
  · intro heq
    have htext := String.toByteArray_inj.mp (hinj heq)
    exact same_of_bucketContents_eq ha hb
      (contentsText_inj ha.contents hb.contents (congrArg String.toList htext))
  · intro hsame
    rw [bucketContents_eq_of_same hsame]

/-- A tree is built whenever the store can be read. -/
theorem exists_build [Inhabited Hash] (h : Hasher Hash) (ds : DataStore) (numBuckets : Nat)
    (hn : validateBucketCount numBuckets = true) :
    ∃ t, build h noFaults (fun _ => noFaults) ds numBuckets = .ok t := by
  have hread : ∀ keys : List String, ∃ l, keys.mapM (fun key =>
      (ds.get noFaults key).map fun items => (key, itemStrings items)) = some l := by
    intro keys
    induction keys with
    | nil => exact ⟨[], rfl⟩
    | cons key keys ih =>
      obtain ⟨l, hl⟩ := ih
      exact ⟨(key, itemStrings (ds.versions key)) :: l, by rw [List.mapM_cons, hl]; rfl⟩
  have hleaves : ∀ bs : List Nat, ∃ leaves, bs.mapM (fun b =>
      hashBucketContents h (fun _ => noFaults) ds
        (ds.persister.keys.filter fun k => bucketFor k numBuckets = b)) = some leaves := by
    intro bs
    induction bs with
    | nil => exact ⟨[], rfl⟩
    | cons b bs ih =>
      obtain ⟨leaves, hl⟩ := ih
      obtain ⟨l, hread⟩ := hread
        ((ds.persister.keys.filter fun k => bucketFor k numBuckets = b).insertionSort (· ≤ ·))
      refine ⟨h.sum (contentsText l).toUTF8 :: leaves, ?_⟩
      rw [List.mapM_cons, hl, hashBucketContents, hread]
      rfl
  obtain ⟨leaves, hl⟩ := hleaves (List.range numBuckets)
  have hkeys : ds.keys noFaults = some ds.persister.keys := rfl
  refine ⟨⟨numBuckets, internalNodes h leaves⟩, ?_⟩
  unfold build
  rw [if_neg (by simp [hn]), hkeys]
  simp only [hl]

/-- The bytes themselves as their digest. -/
def bytesHasher : Hasher ByteArray :=
  ⟨id, id⟩

/-- What a node `Z` holds after one Put of `value` with a client's context. -/
def storeWith (value : String) (context : Snapshot) : DataStore :=
  ((⟨"Z", "Z", ⟨MemTable.new 1000, none, []⟩⟩ : DataStore).put noFaults "k" value (some context)).2

/-- Two events of other nodes. -/
def plainContext : Snapshot :=
  ((∅ : Snapshot).insert "A" 1).insert "B" 2

theorem keys_storeWith (value : String) (context : Snapshot) :
    (storeWith value context).persister.keys = ["k"] := by
  rfl

theorem versions_storeWith (value : String) (context : Snapshot) :
    (storeWith value context).versions "k" =
      [⟨value, VectorClock.buildFromContext context "Z", "Z", false⟩] := by
  rfl

theorem versions_storeWith_of_ne (value : String) (context : Snapshot) {key : String}
    (h : key ≠ "k") : (storeWith value context).versions key = [] := by
  have hput : (storeWith value context).persister = Layers.put ⟨MemTable.new 1000, none, []⟩ "k"
      ⟨value, VectorClock.buildFromContext context "Z", "Z", false⟩ := rfl
  rw [DataStore.versions, hput, Layers.getAll_put_of_ne _ _ h, Layers.getAll_eq]
  simp [Layers.items, Layers.flushingItems, Maxima.keepMax]

theorem legible_storeWith (value : String) (h : JSONText value) :
    Legible (storeWith value plainContext) 16 (bucketFor "k" 16) where
  listed := by
    intro key hkey _
    rw [keys_storeWith, List.mem_singleton] at hkey
    rw [hkey, versions_storeWith]
    simp
  keys := by
    intro key hkey _
    rw [keys_storeWith, List.mem_singleton] at hkey
    rw [hkey]
    unfold PlainKey
    decide
  versions := by
    intro key _ v hv
    by_cases hkey : key = "k"
    · rw [hkey, versions_storeWith, List.mem_singleton] at hv
      subst hv
      refine ⟨h, fun node hnode => ?_, fun deleted hin => ?_⟩
      · have hkeys : (VectorClock.buildFromContext plainContext "Z").state.keys =
            ["A", "B", "Z"] := by decide +kernel
        have hnode : node ∈ ["A", "B", "Z"] := by
          rw [← hkeys]
          exact Std.ExtTreeMap.mem_keys.mpr hnode
        have hplain : ∀ n ∈ ["A", "B", "Z"], ':' ∉ n.toList ∧ ¬"]\x7d|by=".toList <:+: n.toList := by
          decide
        exact ⟨not_splits_of_not_mem (hplain node hnode).1, (hplain node hnode).2⟩
      · have hmark : ∀ deleted : Bool,
            ¬("|deleted=" ++ toString deleted ++ "\x00").toList <:+: "Z".toList := by decide
        exact hmark deleted hin
    · rw [versions_storeWith_of_ne value plainContext hkey] at hv
      cases hv

/-- Two stores that differ in one value have different leaves. -/
theorem leaf_eq_iff_storeWith :
    ∃ t t', build bytesHasher noFaults (fun _ => noFaults) (storeWith "1" plainContext) 16 = .ok t ∧
      build bytesHasher noFaults (fun _ => noFaults) (storeWith "2" plainContext) 16 = .ok t' ∧
      t.leaf (bucketFor "k" 16) ≠ t'.leaf (bucketFor "k" 16) := by
  obtain ⟨t, ht⟩ := exists_build bytesHasher (storeWith "1" plainContext) 16 rfl
  obtain ⟨t', ht'⟩ := exists_build bytesHasher (storeWith "2" plainContext) 16 rfl
  refine ⟨t, t', ht, ht', fun heq => ?_⟩
  have hsame := (leaf_eq_iff (h := bytesHasher) (fun _ _ he => he) ht ht' (by decide +kernel)
    (legible_storeWith "1" (by unfold JSONText; decide))
    (legible_storeWith "2" (by unfold JSONText; decide))).mp heq
  have := (hsame "k" rfl).2
  simp [versions_storeWith] at this

/-- A clock with an entry named `A:1 B` is written like one with an entry `A` and an entry
`B` : two stores that hold different versions have the same tree. -/
theorem leaf_eq_of_different_clocks :
    let a := storeWith "1" plainContext
    let b := storeWith "1" ((∅ : Snapshot).insert "A:1 B" 2)
    ∃ t t', build bytesHasher noFaults (fun _ => noFaults) a 16 = .ok t ∧
      build bytesHasher noFaults (fun _ => noFaults) b 16 = .ok t' ∧
      t.leaf (bucketFor "k" 16) = t'.leaf (bucketFor "k" 16) ∧
      ¬SameContents a b 16 (bucketFor "k" 16) := by
  intro a b
  obtain ⟨t, ht⟩ := exists_build bytesHasher a 16 rfl
  obtain ⟨t', ht'⟩ := exists_build bytesHasher b 16 rfl
  refine ⟨t, t', ht, ht', ?_, fun hsame => ?_⟩
  · rw [leaf_of_build ht (by decide +kernel), leaf_of_build ht' (by decide +kernel)]
    have htext : contentsText (bucketContents a 16 (bucketFor "k" 16)) =
        contentsText (bucketContents b 16 (bucketFor "k" 16)) := by decide +kernel
    rw [htext]
  · have hone := (hsame "k" rfl).2
    have hne : (a.versions "k") ≠ (b.versions "k") := by decide +kernel
    refine hne ?_
    rw [versions_storeWith, versions_storeWith] at hone ⊢
    simpa using hone

end DistributedKV
