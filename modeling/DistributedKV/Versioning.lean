import DistributedKV.Maxima
import DistributedKV.VectorClock

/-!
# Versions and sibling resolution

A stored version is a `DataItem`; a key holds a list of them. `resolve` folds one incoming
version into such a list, `mergeSiblings` folds a whole list into another, and
`unionVectorClock` is the causal context of a list.

With versions compared by their clocks, `resolve` is one insertion of `Maxima`
(`resolve_eq_insertMax`), so merging folds a concatenation (`mergeSiblings_keepMax`) and
the laws of that library apply. `resolve_canonical` says what a fold keeps, in whatever
groups and order the versions come. `union_supersedes_iff` has the exact condition under
which a clock built on the union of a list lies above all of it.
-/

open Maxima

namespace DistributedKV

/-- One version of a key. `value` is the JSON text every path of the source turns the
value into. -/
structure DataItem where
  value : String
  vectorClock : VectorClock
  lastUpdatedBy : String
  isDeleted : Bool
deriving DecidableEq

/-- One round of the loop of `resolve` : the survivors so far, and whether the incoming
version survives. -/
def resolveStep (incoming : DataItem) (acc : List DataItem × Bool) (item : DataItem) :
    List DataItem × Bool :=
  match item.vectorClock.compare incoming.vectorClock with
  | .concurrent => (acc.1 ++ [item], acc.2)
  | .after => (acc.1 ++ [item], false)
  | .before => acc
  | .equal => (acc.1 ++ [item], false)

/-- Fold an incoming version against the existing ones. -/
def resolve (existing : List DataItem) (incoming : DataItem) : List DataItem :=
  let r := existing.foldl (resolveStep incoming) ([], true)
  if r.2 then r.1 ++ [incoming] else r.1

/-- Fold a second sibling list into a first. -/
def mergeSiblings (a b : List DataItem) : List DataItem :=
  b.foldl resolve a

def unionStep (union : Snapshot) (nv : String × UInt32) : Snapshot :=
  if nv.2 > union.at nv.1 then union.insert nv.1 nv.2 else union

/-- The entrywise maximum of the clocks of a list. -/
def unionVectorClock (items : List DataItem) : Snapshot :=
  items.foldl (fun union item => item.vectorClock.snapshot.toList.foldl unionStep union) ∅

open DataItem (vectorClock)

/-! ## Resolution is insertion -/

theorem foldl_resolveStep (incoming : DataItem) : ∀ (l : List DataItem) (acc : List DataItem × Bool),
    l.foldl (resolveStep incoming) acc =
      (acc.1 ++ l.filter fun y => ¬y.vectorClock < incoming.vectorClock,
       acc.2 && !l.any fun y => incoming.vectorClock ≤ y.vectorClock)
  | [], acc => by simp
  | item :: l, acc => by
    rw [List.foldl_cons, foldl_resolveStep incoming l]
    unfold resolveStep
    have hspec := VectorClock.compare_spec item.vectorClock incoming.vectorClock
    cases hrel : item.vectorClock.compare incoming.vectorClock <;>
      simp_all [lt_iff_le_not_ge]

/-- What survives of the existing versions is what is not Before the incoming one, which
is appended unless an existing one is After or Equal. -/
theorem resolve_eq_insertMax (existing : List DataItem) (incoming : DataItem) :
    resolve existing incoming = insertMax vectorClock existing incoming := by
  unfold resolve insertMax
  rw [foldl_resolveStep]
  by_cases h : existing.any fun y => incoming.vectorClock ≤ y.vectorClock <;> simp [h]

theorem mergeSiblings_eq_foldl (a b : List DataItem) :
    mergeSiblings a b = b.foldl (insertMax vectorClock) a := by
  have : resolve = insertMax vectorClock := by
    funext existing incoming
    exact resolve_eq_insertMax existing incoming
  rw [mergeSiblings, this]

/-- Merging loses nothing that either side covers. -/
theorem covers_mergeSiblings {a b : List DataItem} {c : VectorClock}
    (h : Covers vectorClock a c ∨ Covers vectorClock b c) :
    Covers vectorClock (mergeSiblings a b) c := by
  rw [mergeSiblings_eq_foldl]
  exact Covers.foldl_insertMax h

theorem mem_of_mem_mergeSiblings {a b : List DataItem} {w : DataItem}
    (h : w ∈ mergeSiblings a b) : w ∈ a ∨ w ∈ b := by
  rw [mergeSiblings_eq_foldl] at h
  exact mem_of_mem_foldl_insertMax h

theorem mergeSiblings_nil (b : List DataItem) : mergeSiblings [] b = keepMax vectorClock b :=
  mergeSiblings_eq_foldl [] b

theorem mergeSiblings_keepMax (a b : List DataItem) :
    mergeSiblings (keepMax vectorClock a) b = keepMax vectorClock (a ++ b) := by
  rw [mergeSiblings_eq_foldl, keepMax_append]

/-! ## What a fold keeps -/

/-- The versions of `rest`, which follow `earlier`, that are not Before any version of `all`
and not Equal to an earlier one. -/
def survivorsFrom (all : List DataItem) : List DataItem → List DataItem → List DataItem
  | _, [] => []
  | earlier, v :: rest =>
    if (∃ w ∈ all, v.vectorClock.compare w.vectorClock = .before) ∨
        ∃ w ∈ earlier, v.vectorClock.compare w.vectorClock = .equal then
      survivorsFrom all (earlier ++ [v]) rest
    else v :: survivorsFrom all (earlier ++ [v]) rest

/-- What a list of versions stands for, in its order. -/
def survivors (versions : List DataItem) : List DataItem :=
  survivorsFrom versions [] versions

theorem survivorsFrom_eq_firstMaxima (all : List DataItem) : ∀ earlier rest : List DataItem,
    survivorsFrom all earlier rest = firstMaxima vectorClock all earlier rest
  | _, [] => rfl
  | earlier, v :: rest => by
    rw [survivorsFrom, firstMaxima, survivorsFrom_eq_firstMaxima all (earlier ++ [v]) rest]
    simp only [VectorClock.compare_eq_before, VectorClock.compare_eq_equal]

theorem foldl_resolve_eq_keepMax (versions : List DataItem) :
    versions.foldl resolve [] = keepMax vectorClock versions :=
  mergeSiblings_nil versions

theorem entry_eq_of_equiv {c d : VectorClock} (h : c ≤ d ∧ d ≤ c) : c.entry = d.entry :=
  funext fun node => UInt32.le_antisymm (h.1 node) (h.2 node)

/-- Lists that cover the same clocks keep the same counters. -/
theorem counters_keepMax_eq {l l' : List DataItem}
    (h : ∀ c, Covers vectorClock l c ↔ Covers vectorClock l' c) :
    {c | ∃ v ∈ keepMax vectorClock l, v.vectorClock.entry = c} =
      {c | ∃ v ∈ keepMax vectorClock l', v.vectorClock.entry = c} := by
  ext c
  constructor
  · rintro ⟨v, hv, rfl⟩
    obtain ⟨w, hw, hequiv⟩ := exists_equiv_of_mem_keepMax h hv
    exact ⟨w, hw, (entry_eq_of_equiv hequiv).symm⟩
  · rintro ⟨v, hv, rfl⟩
    obtain ⟨w, hw, hequiv⟩ := exists_equiv_of_mem_keepMax (fun c => (h c).symm) hv
    exact ⟨w, hw, (entry_eq_of_equiv hequiv).symm⟩

/-- Folding a list of versions is canonical : it keeps the versions that are not Before any
other and not Equal to an earlier one, in order, and these are pairwise concurrent. The list
may be cut into groups that are merged first, and the counters that are kept depend only on
which versions the list has. -/
theorem resolve_canonical (versions : List DataItem) :
    versions.foldl resolve [] = survivors versions ∧
    (survivors versions).Pairwise (fun v w =>
      v.vectorClock.compare w.vectorClock = .concurrent) ∧
    (∀ groups : List (List DataItem), groups.flatten = versions →
      (groups.map fun group => group.foldl resolve []).foldl mergeSiblings [] =
        survivors versions) ∧
    ∀ versions' : List DataItem, (∀ v, v ∈ versions' ↔ v ∈ versions) →
      {c | ∃ v ∈ versions'.foldl resolve [], v.vectorClock.entry = c} =
        {c | ∃ v ∈ versions.foldl resolve [], v.vectorClock.entry = c} := by
  have hfold : survivors versions = keepMax vectorClock versions := by
    rw [survivors, survivorsFrom_eq_firstMaxima, ← keepMax_eq_firstMaxima]
  rw [hfold]
  refine ⟨foldl_resolve_eq_keepMax versions, ?_, ?_, ?_⟩
  · refine (antichain_keepMax versions).imp fun {v w} h => ?_
    exact VectorClock.compare_eq_concurrent.mpr h
  · rintro groups rfl
    have hmerge : mergeSiblings = fun acc group => group.foldl (insertMax vectorClock) acc := by
      funext a b
      exact mergeSiblings_eq_foldl a b
    rw [hmerge, funext foldl_resolve_eq_keepMax]
    exact foldl_keepMax_groups groups []
  · intro versions' h
    rw [foldl_resolve_eq_keepMax, foldl_resolve_eq_keepMax]
    exact counters_keepMax_eq fun c => by simp only [Covers, h]

/-! ## The union of the clocks -/

theorem at_unionStep (u : Snapshot) (nv : String × UInt32) (n : String) :
    (unionStep u nv).at n = if n = nv.1 ∧ nv.2 > u.at nv.1 then nv.2 else u.at n := by
  unfold unionStep
  split
  · next h =>
    simp only [Snapshot.at, Std.ExtTreeMap.getD_insert, Std.compare_eq_iff_eq] at h ⊢
    simp [h, eq_comm]
  · next h => simp [h]

/-- The inner loop raises each entry to the largest counter met for it. -/
theorem at_foldl_unionStep (n : String) : ∀ (l : List (String × UInt32)) (u : Snapshot),
    u.at n ≤ (l.foldl unionStep u).at n ∧
    (∀ nv ∈ l, nv.1 = n → nv.2 ≤ (l.foldl unionStep u).at n) ∧
    ((l.foldl unionStep u).at n = u.at n ∨ ∃ nv ∈ l, nv.1 = n ∧ (l.foldl unionStep u).at n = nv.2)
  | [], u => ⟨UInt32.le_refl _, by simp, Or.inl rfl⟩
  | nv :: l, u => by
    obtain ⟨hge, hall, hsome⟩ := at_foldl_unionStep n l (unionStep u nv)
    rw [List.foldl_cons]
    rw [at_unionStep] at hge hsome
    refine ⟨?_, ?_, ?_⟩
    · split at hge
      · next h => exact UInt32.le_trans (UInt32.le_of_lt (h.1 ▸ h.2)) hge
      · exact hge
    · intro mv hmv hn
      rcases List.mem_cons.mp hmv with rfl | hmv
      · split at hge
        · exact hge
        · next h =>
          have : mv.2 ≤ u.at mv.1 := UInt32.not_lt.mp fun hlt => h ⟨hn.symm, hlt⟩
          exact UInt32.le_trans (hn ▸ this) hge
      · exact hall mv hmv hn
    · rcases hsome with hsome | ⟨mv, hmv, hn, he⟩
      · split at hsome
        · next h => exact Or.inr ⟨nv, List.mem_cons_self, h.1.symm, hsome⟩
        · exact Or.inl hsome
      · exact Or.inr ⟨mv, List.mem_cons_of_mem _ hmv, hn, he⟩

theorem mem_toList_of_entry {c : VectorClock} {n : String} (h : c.entry n ≠ 0) :
    (n, c.entry n) ∈ c.snapshot.toList := by
  rw [Std.ExtTreeMap.mem_toList_iff_getElem?_eq_some]
  have hd : c.entry n = (c.state[n]?).getD 0 := Std.ExtTreeMap.getD_eq_getD_getElem?
  cases hg : c.state[n]? with
  | none => exact absurd (by rw [hd, hg]; rfl) h
  | some => rw [hd, VectorClock.snapshot, hg]; rfl

theorem entry_of_mem_toList {c : VectorClock} {n : String} {x : UInt32}
    (h : (n, x) ∈ c.snapshot.toList) : c.entry n = x := by
  rw [Std.ExtTreeMap.mem_toList_iff_getElem?_eq_some] at h
  change c.state[n]? = some x at h
  rw [VectorClock.entry, Snapshot.at, Std.ExtTreeMap.getD_eq_getD_getElem?, h]
  rfl

/-- The outer loop, from any union so far : an upper bound of every entry, and attained. -/
theorem at_foldl_union (n : String) : ∀ (items : List DataItem) (u : Snapshot),
    let r := items.foldl (fun union item => item.vectorClock.snapshot.toList.foldl unionStep union) u
    u.at n ≤ r.at n ∧ (∀ v ∈ items, v.vectorClock.entry n ≤ r.at n) ∧
      (r.at n = u.at n ∨ ∃ v ∈ items, v.vectorClock.entry n = r.at n)
  | [], u => ⟨UInt32.le_refl _, by simp, Or.inl rfl⟩
  | v :: items, u => by
    obtain ⟨hge, hall, hsome⟩ := at_foldl_union n items
      (v.vectorClock.snapshot.toList.foldl unionStep u)
    obtain ⟨hge', hall', hsome'⟩ := at_foldl_unionStep n v.vectorClock.snapshot.toList u
    refine ⟨UInt32.le_trans hge' hge, fun w hw => ?_, ?_⟩
    · rcases List.mem_cons.mp hw with rfl | hw
      · by_cases hz : w.vectorClock.entry n = 0
        · rw [hz]
          exact UInt32.zero_le
        · exact UInt32.le_trans (hall' _ (mem_toList_of_entry hz) rfl) hge
      · exact hall w hw
    · rcases hsome with hsome | ⟨w, hw, he⟩
      · rcases hsome' with hsome' | ⟨⟨m, x⟩, hmv, rfl, he⟩
        · exact Or.inl (hsome.trans hsome')
        · refine Or.inr ⟨v, List.mem_cons_self, ?_⟩
          rw [entry_of_mem_toList hmv, List.foldl_cons, hsome, he]
      · exact Or.inr ⟨w, List.mem_cons_of_mem _ hw, he⟩

theorem le_unionVectorClock {items : List DataItem} {v : DataItem} (hv : v ∈ items) :
    v.vectorClock ≤ VectorClock.fromSnapshot (unionVectorClock items) :=
  fun n => (at_foldl_union n items ∅).2.1 v hv

theorem unionVectorClock_attained (items : List DataItem) (n : String) :
    (unionVectorClock items).at n = 0 ∨
      ∃ v ∈ items, v.vectorClock.entry n = (unionVectorClock items).at n :=
  (at_foldl_union n items ∅).2.2

/-- A clock built on the union lies above every version exactly when no version has the
builder's counter at its end. -/
theorem union_supersedes_iff (items : List DataItem) (nodeID : String) :
    (∀ v ∈ items,
      v.vectorClock < VectorClock.buildFromContext (unionVectorClock items) nodeID) ↔
      ∀ v ∈ items, v.vectorClock.entry nodeID ≠ VectorClock.counterMax := by
  constructor
  · intro h v hv hmax
    have hle := (h v hv).le nodeID
    have hu := le_unionVectorClock hv nodeID
    rw [hmax, VectorClock.entry_fromSnapshot] at hu
    have hu' : (unionVectorClock items).at nodeID = VectorClock.counterMax := by
      refine UInt32.le_antisymm ?_ hu
      rw [UInt32.le_iff_toNat_le]
      have := ((unionVectorClock items).at nodeID).toNat_lt
      change _ ≤ 4294967295
      omega
    rw [VectorClock.entry_buildFromContext, if_pos rfl, hu', hmax] at hle
    exact absurd hle (by decide)
  · intro h v hv
    refine lt_of_le_of_lt (le_unionVectorClock hv) (VectorClock.lt_buildFromContext fun hmax => ?_)
    rcases unionVectorClock_attained items nodeID with h0 | ⟨w, hw, he⟩
    · rw [h0] at hmax
      exact absurd hmax (by decide)
    · exact h w hw (he.trans hmax)

end DistributedKV
