import Mathlib

/-!
# Vector clocks

A clock maps node IDs to `uint32` counters, a missing entry counting as zero.
`compareSnapshots` walks the entries of both clocks and sets two flags; the order
`c ≤ d` on clocks is entrywise, and `compare_eq_before`, `compare_eq_after`,
`compare_eq_equal` and `compare_eq_concurrent` read each verdict off that order. Two
clocks may be below each other without being equal as maps (an explicit zero entry), so
clocks form a preorder only.

Counters wrap around : `lt_buildFromContext` has the bound under which a clock built on
top of a context is strictly above it.
-/

namespace DistributedKV

/-- The verdict of comparing two clocks. -/
inductive Relation
  | equal
  | before
  | after
  | concurrent
deriving DecidableEq, Repr

/-- A plain map from node IDs to counters : a snapshot of a clock, or a causal context. -/
abbrev Snapshot := Std.ExtTreeMap String UInt32

/-- Go's map read : a missing entry is zero. -/
def Snapshot.at (s : Snapshot) (node : String) : UInt32 :=
  s.getD node 0

/-- A vector clock, guarded by its own mutex in the source. -/
structure VectorClock where
  state : Snapshot
deriving DecidableEq

namespace VectorClock

def new : VectorClock :=
  ⟨∅⟩

/-- The counter of one node. -/
def entry (c : VectorClock) (node : String) : UInt32 :=
  c.state.at node

def increment (vc : VectorClock) (nodeID : String) : VectorClock :=
  ⟨vc.state.insert nodeID (vc.state.at nodeID + 1)⟩

def snapshot (vc : VectorClock) : Snapshot :=
  vc.state

/-- Rebuild a clock verbatim. -/
def fromSnapshot (state : Snapshot) : VectorClock :=
  ⟨state⟩

/-- Seed a clock from a context, then count one event of `nodeID` on top. -/
def buildFromContext (context : Snapshot) (nodeID : String) : VectorClock :=
  (fromSnapshot context).increment nodeID

end VectorClock

/-- The two flags of `compareSnapshots` after looking at one more node. -/
def compareStep (this other : Snapshot) (flags : Bool × Bool) (node : String) : Bool × Bool :=
  if this.at node > other.at node then (true, flags.2)
  else if this.at node < other.at node then (flags.1, true)
  else flags

/-- Compare two clocks over the union of their nodes. -/
def compareSnapshots (this other : Snapshot) : Relation :=
  let seen := (this.keys ++ other.keys).dedup
  match seen.foldl (compareStep this other) (false, false) with
  | (true, false) => .after
  | (false, true) => .before
  | (false, false) => .equal
  | (true, true) => .concurrent

def VectorClock.compare (vc other : VectorClock) : Relation :=
  compareSnapshots vc.snapshot other.snapshot

/-! ## The entrywise order -/

namespace VectorClock

instance : LE VectorClock :=
  ⟨fun c d => ∀ node, c.entry node ≤ d.entry node⟩

theorem le_def {c d : VectorClock} : c ≤ d ↔ ∀ node, c.entry node ≤ d.entry node :=
  Iff.rfl

instance : Preorder VectorClock where
  le_refl c node := UInt32.le_refl (c.entry node)
  le_trans _ _ _ hab hbc node := UInt32.le_trans (hab node) (hbc node)

theorem not_le_iff {c d : VectorClock} : ¬c ≤ d ↔ ∃ node, d.entry node < c.entry node := by
  rw [le_def, not_forall]
  exact exists_congr fun node => UInt32.not_le

end VectorClock

theorem foldl_compareStep (this other : Snapshot) : ∀ (nodes : List String) (flags : Bool × Bool),
    nodes.foldl (compareStep this other) flags =
      (flags.1 || nodes.any fun n => this.at n > other.at n,
       flags.2 || nodes.any fun n => this.at n < other.at n)
  | [], _ => by simp
  | node :: nodes, flags => by
    rw [List.foldl_cons, foldl_compareStep this other nodes]
    unfold compareStep
    by_cases hgt : this.at node > other.at node
    · have hlt : ¬this.at node < other.at node := UInt32.lt_asymm hgt
      simp [hgt, hlt]
    · by_cases hlt : this.at node < other.at node <;> simp [hgt, hlt]

/-- A node in neither map reads zero on both sides, so the union of the keys is enough. -/
theorem any_seen {this other : Snapshot} {p : String → Bool}
    (hp : ∀ n, p n = true → this.at n ≠ other.at n) :
    (this.keys ++ other.keys).dedup.any p = true ↔ ∃ n, p n = true := by
  constructor
  · intro h
    obtain ⟨n, -, hn⟩ := List.any_eq_true.mp h
    exact ⟨n, hn⟩
  · rintro ⟨n, hn⟩
    refine List.any_eq_true.mpr ⟨n, ?_, hn⟩
    rw [List.mem_dedup, List.mem_append, Std.ExtTreeMap.mem_keys, Std.ExtTreeMap.mem_keys]
    by_contra hmem
    rw [not_or] at hmem
    apply hp n hn
    rw [Snapshot.at, Snapshot.at, Std.ExtTreeMap.getD_eq_fallback hmem.1,
      Std.ExtTreeMap.getD_eq_fallback hmem.2]

/-- The two flags say which side has a larger entry somewhere. -/
theorem compareSnapshots_flags (c d : VectorClock) :
    let seen := (c.state.keys ++ d.state.keys).dedup
    seen.foldl (compareStep c.state d.state) (false, false) =
      (seen.any fun n => c.state.at n > d.state.at n,
       seen.any fun n => c.state.at n < d.state.at n) ∧
    ((seen.any fun n => c.state.at n > d.state.at n) = true ↔ ¬c ≤ d) ∧
    ((seen.any fun n => c.state.at n < d.state.at n) = true ↔ ¬d ≤ c) := by
  refine ⟨by simp [foldl_compareStep], ?_, ?_⟩
  · rw [any_seen (fun n hn => (UInt32.ne_of_lt (by simpa using hn)).symm),
      VectorClock.not_le_iff]
    simp [VectorClock.entry]
  · rw [any_seen (fun n hn => UInt32.ne_of_lt (by simpa using hn)), VectorClock.not_le_iff]
    simp [VectorClock.entry]

namespace VectorClock

/-- The verdict as a function of the order. -/
theorem compare_spec (c d : VectorClock) :
    (c.compare d = .equal ↔ c ≤ d ∧ d ≤ c) ∧ (c.compare d = .before ↔ c ≤ d ∧ ¬d ≤ c) ∧
    (c.compare d = .after ↔ ¬c ≤ d ∧ d ≤ c) ∧ (c.compare d = .concurrent ↔ ¬c ≤ d ∧ ¬d ≤ c) := by
  obtain ⟨hflags, hgt, hlt⟩ := compareSnapshots_flags c d
  dsimp only [compare, compareSnapshots, snapshot]
  rw [hflags]
  revert hgt hlt
  generalize (List.any _ _ : Bool) = isThisGreater
  generalize (List.any _ _ : Bool) = isOtherGreater
  intro hgt hlt
  cases isThisGreater <;> cases isOtherGreater <;> simp_all

theorem compare_eq_equal {c d : VectorClock} : c.compare d = .equal ↔ c ≤ d ∧ d ≤ c :=
  (compare_spec c d).1

theorem compare_eq_before {c d : VectorClock} : c.compare d = .before ↔ c < d :=
  (compare_spec c d).2.1.trans lt_iff_le_not_ge.symm

theorem compare_eq_after {c d : VectorClock} : c.compare d = .after ↔ d < c :=
  (compare_spec c d).2.2.1.trans (and_comm.trans lt_iff_le_not_ge.symm)

theorem compare_eq_concurrent {c d : VectorClock} :
    c.compare d = .concurrent ↔ ¬c ≤ d ∧ ¬d ≤ c :=
  (compare_spec c d).2.2.2

theorem le_iff_compare {c d : VectorClock} :
    c ≤ d ↔ c.compare d = .equal ∨ c.compare d = .before := by
  rw [compare_eq_equal, compare_eq_before, lt_iff_le_not_ge]
  tauto

instance : DecidableLE VectorClock := fun _ _ =>
  decidable_of_iff _ le_iff_compare.symm

instance : DecidableLT VectorClock := fun _ _ =>
  decidable_of_iff _ compare_eq_before

/-! ## Building clocks -/

@[simp] theorem entry_fromSnapshot (s : Snapshot) (node : String) :
    (fromSnapshot s).entry node = s.at node :=
  rfl

theorem entry_increment (c : VectorClock) (nodeID node : String) :
    (c.increment nodeID).entry node =
      if node = nodeID then c.entry nodeID + 1 else c.entry node := by
  simp only [entry, increment, Snapshot.at, Std.ExtTreeMap.getD_insert, Std.compare_eq_iff_eq]
  simp only [eq_comm]

theorem entry_buildFromContext (context : Snapshot) (nodeID node : String) :
    (buildFromContext context nodeID).entry node =
      if node = nodeID then context.at nodeID + 1 else context.at node := by
  simp [buildFromContext, entry_increment]

/-- The largest value of a counter; one more wraps around to zero. -/
def counterMax : UInt32 :=
  4294967295

theorem lt_add_one_of_ne {x : UInt32} (h : x ≠ counterMax) : x < x + 1 := by
  rw [UInt32.lt_iff_toNat_lt, UInt32.toNat_add]
  have hx := x.toNat_lt
  have hne : x.toNat ≠ 4294967295 := fun he => h (UInt32.toNat_inj.mp he)
  simp only [UInt32.toNat_one] at *
  omega

@[simp] theorem counterMax_add_one : counterMax + 1 = 0 :=
  rfl

/-- Unless the counter of `nodeID` is at its end, the built clock is strictly above its
context. -/
theorem lt_buildFromContext {context : Snapshot} {nodeID : String}
    (h : context.at nodeID ≠ counterMax) :
    fromSnapshot context < buildFromContext context nodeID := by
  refine lt_iff_le_not_ge.mpr ⟨fun node => ?_, fun hge => ?_⟩
  · rw [entry_buildFromContext]
    split
    · next hn =>
      subst hn
      exact UInt32.le_of_lt (lt_add_one_of_ne h)
    · exact UInt32.le_refl _
  · have := hge nodeID
    rw [entry_buildFromContext, if_pos rfl] at this
    exact UInt32.not_le.mpr (lt_add_one_of_ne h) this

end VectorClock

end DistributedKV
