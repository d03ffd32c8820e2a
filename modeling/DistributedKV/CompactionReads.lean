import DistributedKV.Strata
import DistributedKV.Layers
import DistributedKV.Catalog

/-!
# What readers see of compactions

The tables registered by flushes are the history; every table in use, flushed or merged,
stands for a stretch of it, and reading the visible tables must give the history's own
fold, with its order and its tie winners. How far a table reaches is not written
anywhere : `Extents` is the bookkeeping of the proof, and `Reads` the invariant that ties
it to a catalog. `reads_step` carries it over every step of the catalog.

One thing can go wrong. A crash or a failed Remove leaves a merged table live beside its
run, under the stamp of the run's newest table. A later run that starts behind such a
table gets a merged table with the same stamp, and the next Open may put the two the other
way round. `Absorbed` asks that the tables so passed over add nothing to the run. In runs
that select only absorbing runs, compaction is invisible (`getAll_of_run`);
`compaction_changes_read` is a run without it.
-/

open Maxima Strata

namespace DistributedKV

open DataItem (vectorClock)

/-! ## Tables as pieces of the history -/

/-- The versions of a key in every registered table. -/
def strata (hist : List SSTable) (key : String) : List (Stratum DataItem) :=
  hist.map fun t => ⟨stampOf t.id, itemsOf t.entries key⟩

/-- The stretch of the history each table stands for. -/
structure Extents where
  need : SSTable → Nat
  lo : SSTable → Nat

namespace Extents

def piece (g : Extents) (key : String) (t : SSTable) : Piece DataItem :=
  ⟨stampOf t.id, g.need t, g.lo t, itemsOf t.entries key⟩

def set (g : Extents) (t : SSTable) (need lo : Nat) : Extents :=
  { need := Function.update g.need t need, lo := Function.update g.lo t lo }

/-- The lowest stamp reached from `m` by reading tables. -/
def lowest (g : Extents) (m : Nat) (l : List SSTable) : Nat :=
  l.foldl (fun m t => min m (g.lo t)) m

variable {g g' : Extents}

@[simp] theorem need_set_self (t : SSTable) (need lo : Nat) : (g.set t need lo).need t = need :=
  Function.update_self ..

@[simp] theorem lo_set_self (t : SSTable) (need lo : Nat) : (g.set t need lo).lo t = lo :=
  Function.update_self ..

theorem set_of_ne {t u : SSTable} (h : u ≠ t) (need lo : Nat) :
    (g.set t need lo).need u = g.need u ∧ (g.set t need lo).lo u = g.lo u :=
  ⟨Function.update_of_ne h .., Function.update_of_ne h ..⟩

theorem reach_pieces (key : String) : ∀ (l : List SSTable) (m : Nat),
    reach m (l.map (g.piece key)) = g.lowest m l
  | [], _ => rfl
  | _ :: l, _ => reach_pieces key l _

theorem lowest_le_iff {m n : Nat} {l : List SSTable} :
    g.lowest m l ≤ n ↔ m ≤ n ∨ ∃ t ∈ l, g.lo t ≤ n := by
  rw [← reach_pieces "", reach_le_iff]
  simp [piece]

theorem lowest_congr : ∀ {l : List SSTable} {m : Nat}, (∀ t ∈ l, g'.lo t = g.lo t) →
    g'.lowest m l = g.lowest m l
  | [], _, _ => rfl
  | t :: l, m, h => by
    have hrest := lowest_congr (l := l) (m := min m (g.lo t))
      fun u hu => h u (List.mem_cons_of_mem _ hu)
    simp only [lowest, List.foldl_cons, h t List.mem_cons_self] at hrest ⊢
    exact hrest

theorem items_pieces (key : String) : ∀ l : List SSTable,
    Strata.items (l.map (g.piece key)) = tableItems l key
  | [] => rfl
  | t :: l => by
    rw [tableItems_cons, ← items_pieces key l]
    rfl

end Extents

theorem above_strata_zero (hist : List SSTable) (key : String) :
    above (strata hist key) 0 = tableItems hist key := by
  simp [above, strata, tableItems, List.flatMap_map]

/-- Every table of `S` finds what it needs among tables of `S` with newer stamps, and
together they reach the whole history. -/
structure Supports (hist : List SSTable) (g : Extents) (S : Set SSTable) : Prop where
  needs : ∀ t ∈ S, ∀ u ∈ hist, g.need t ≤ stampOf u.id →
    ∃ q ∈ S, stampOf t.id < stampOf q.id ∧ g.lo q ≤ stampOf u.id
  total : ∀ u ∈ hist, ∃ q ∈ S, g.lo q ≤ stampOf u.id

/-- Tables in order of their stamps that support each other read as the history. -/
theorem read_eq {hist l : List SSTable} {g : Extents} {key : String}
    (hhist : hist.Pairwise fun t u => stampOf u.id ≤ stampOf t.id)
    (hl : l.Pairwise fun t u => stampOf u.id ≤ stampOf t.id)
    (hfills : ∀ t ∈ l, Fills vectorClock (strata hist key) (g.piece key t))
    (hsup : Supports hist g {t | t ∈ l}) :
    keepMax vectorClock (tableItems l key) = keepMax vectorClock (tableItems hist key) := by
  rw [← Extents.items_pieces (g := g), ← above_strata_zero]
  refine keepMax_pieces (List.pairwise_map.mpr hhist) (List.pairwise_map.mpr hl) ?_ ⟨?_, ?_⟩
  · exact List.forall_mem_map.mpr hfills
  · intro p hp s hs hneed
    obtain ⟨t, ht, rfl⟩ := List.mem_map.mp hp
    obtain ⟨u, hu, rfl⟩ := List.mem_map.mp hs
    obtain ⟨q, hq, htop, hlo⟩ := hsup.needs t ht u hu hneed
    exact ⟨g.piece key q, List.mem_map_of_mem hq, htop, hlo⟩
  · intro s hs
    obtain ⟨u, hu, rfl⟩ := List.mem_map.mp hs
    obtain ⟨q, hq, hlo⟩ := hsup.total u hu
    exact ⟨g.piece key q, List.mem_map_of_mem hq, hlo⟩

/-- A merged table takes the place of its run. -/
theorem Supports.replace {hist : List SSTable} {g : Extents} {S S' : Set SSTable}
    {merged : SSTable} (h : Supports hist g S) (run : List SSTable) (hmerged : merged ∈ S')
    (hkept : ∀ t ∈ S, t ∈ run ∨ t ∈ S') (hback : ∀ t ∈ S', t ∈ S ∨ t = merged)
    (hbelow : ∀ t ∈ run, stampOf t.id ≤ stampOf merged.id ∧ g.lo merged ≤ g.lo t)
    (hneeds : ∀ u ∈ hist, g.need merged ≤ stampOf u.id →
      ∃ q ∈ S, stampOf merged.id < stampOf q.id ∧ g.lo q ≤ stampOf u.id) :
    Supports hist g S' := by
  -- whatever a table of the run supports, the merged table supports
  have hswap : ∀ q ∈ S, ∃ q' ∈ S', stampOf q.id ≤ stampOf q'.id ∧ g.lo q' ≤ g.lo q := by
    intro q hq
    rcases hkept q hq with hrun | hq'
    · exact ⟨merged, hmerged, hbelow q hrun⟩
    · exact ⟨q, hq', le_rfl, le_rfl⟩
  constructor
  · intro t ht u hu hneed
    obtain ⟨q, hq, htop, hlo⟩ : ∃ q ∈ S, stampOf t.id < stampOf q.id ∧ g.lo q ≤ stampOf u.id := by
      rcases hback t ht with ht | rfl
      · exact h.needs t ht u hu hneed
      · exact hneeds u hu hneed
    obtain ⟨q', hq', hstamp, hlo'⟩ := hswap q hq
    exact ⟨q', hq', by omega, by omega⟩
  · intro u hu
    obtain ⟨q, hq, hlo⟩ := h.total u hu
    obtain ⟨q', hq', -, hlo'⟩ := hswap q hq
    exact ⟨q', hq', by omega⟩

/-- A new table enters the history and the set. -/
theorem Supports.register {hist : List SSTable} {g : Extents} {S : Set SSTable} {sst : SSTable}
    (h : Supports hist g S) (hhist : ∀ u ∈ hist, stampOf u.id < stampOf sst.id)
    (hS : ∀ t ∈ S, stampOf t.id < stampOf sst.id) (hneed : g.need sst = stampOf sst.id + 1)
    (hlo : g.lo sst = stampOf sst.id) : Supports (sst :: hist) g (insert sst S) := by
  constructor
  · rintro t (rfl | ht) u hu hle
    · rcases List.mem_cons.mp hu with rfl | hu
      · omega
      · have := hhist u hu
        omega
    · rcases List.mem_cons.mp hu with rfl | hu
      · exact ⟨u, Set.mem_insert _ _, hS t ht, hlo.le⟩
      · obtain ⟨q, hq, hrest⟩ := h.needs t ht u hu hle
        exact ⟨q, Set.mem_insert_of_mem _ hq, hrest⟩
  · intro u hu
    rcases List.mem_cons.mp hu with rfl | hu
    · exact ⟨u, Set.mem_insert _ _, hlo.le⟩
    · obtain ⟨q, hq, hrest⟩ := h.total u hu
      exact ⟨q, Set.mem_insert_of_mem _ hq, hrest⟩

theorem Supports.congr {hist : List SSTable} {g g' : Extents} {S : Set SSTable}
    (h : Supports hist g S)
    (heq : ∀ t ∈ S, g'.need t = g.need t ∧ g'.lo t = g.lo t) : Supports hist g' S := by
  constructor
  · intro t ht u hu hle
    rw [(heq t ht).1] at hle
    obtain ⟨q, hq, hstamp, hlo⟩ := h.needs t ht u hu hle
    exact ⟨q, hq, hstamp, by rwa [(heq q hq).2]⟩
  · intro u hu
    obtain ⟨q, hq, hlo⟩ := h.total u hu
    exact ⟨q, hq, by rwa [(heq q hq).2]⟩

/-! ## The invariant -/

/-- Read in front of the run, the tables of `front` with the stamp of the run's newest
table change nothing. -/
def Absorbed (front run : List SSTable) : Prop :=
  ∀ newest ∈ run.head?, ∀ key, keepMax vectorClock
    (tableItems (front.filter (fun t => stampOf t.id = stampOf newest.id) ++ run) key) =
      keepMax vectorClock (tableItems run key)

namespace Catalog

def InUse (c : Catalog) (t : SSTable) : Prop :=
  t ∈ c.live ∨ t ∈ c.visible

/-- A live merged table that can take the place of its run. -/
structure Replaces (c : Catalog) (g : Extents) (run : List SSTable) (merged : SSTable) : Prop where
  live : merged ∈ c.live
  notMem : merged ∉ run
  newest : ∃ t ∈ run.head?, stampOf merged.id = stampOf t.id
  below : ∀ t ∈ run, stampOf t.id ≤ stampOf merged.id ∧ g.lo merged ≤ g.lo t
  support : ∀ u ∈ c.history, g.need merged ≤ stampOf u.id →
    ∃ q ∈ c.visible, stampOf merged.id < stampOf q.id ∧ g.lo q ≤ stampOf u.id

def MergingReads (c : Catalog) (g : Extents) : Prop :=
  match c.merging with
  | .none => True
  | .selected run => ∃ front back, c.visible = front ++ run ++ back ∧ Absorbed front run
  | .listed run merged | .unlisted run merged => c.Replaces g run merged

/-- The visible tables, and the live ones, read as the history. -/
structure Reads (c : Catalog) (g : Extents) : Prop where
  history_sorted : c.history.Pairwise fun t u => stampOf u.id ≤ stampOf t.id
  bounded : ∀ t, c.InUse t → ∃ u ∈ c.history, g.need t ≤ stampOf u.id + 1
  fills : ∀ t, c.InUse t → ∀ key, Fills vectorClock (strata c.history key) (g.piece key t)
  visible_sorted : c.visible.Pairwise fun t u => stampOf u.id ≤ stampOf t.id
  visible_supports : Supports c.history g {t | t ∈ c.visible}
  live_supports : Supports c.history g c.live
  dominated : ∀ t ∈ c.visible, ∃ q ∈ c.live, stampOf t.id ≤ stampOf q.id ∧ g.lo q ≤ g.lo t
  merging : c.MergingReads g

variable {c : Catalog} {g g' : Extents}

/-- Only the extents of tables the catalog knows matter. -/
theorem Reads.congr (h : c.Reads g)
    (heq : ∀ t, c.Uses t → g'.need t = g.need t ∧ g'.lo t = g.lo t) : c.Reads g' where
  history_sorted := h.history_sorted
  bounded := fun t ht => by
    rw [(heq t (ht.elim (Or.inr ∘ Or.inl) (Or.inr ∘ Or.inr ∘ Or.inl))).1]
    exact h.bounded t ht
  fills := fun t ht key => by
    have := heq t (ht.elim (Or.inr ∘ Or.inl) (Or.inr ∘ Or.inr ∘ Or.inl))
    rw [Extents.piece, this.1, this.2]
    exact h.fills t ht key
  visible_sorted := h.visible_sorted
  visible_supports := h.visible_supports.congr fun t ht => heq t (Or.inr (Or.inr (Or.inl ht)))
  live_supports := h.live_supports.congr fun t ht => heq t (Or.inr (Or.inl ht))
  dominated := fun t ht => by
    obtain ⟨q, hq, hstamp, hlo⟩ := h.dominated t ht
    refine ⟨q, hq, hstamp, ?_⟩
    rwa [(heq q (Or.inr (Or.inl hq))).2, (heq t (Or.inr (Or.inr (Or.inl ht)))).2]
  merging := by
    have hreplaces : ∀ run merged, c.merging.run = run → c.Replaces g run merged →
        c.Replaces g' run merged := by
      rintro run merged hrun ⟨hlive, hnot, hnewest, hbelow, hsupport⟩
      have hm := heq merged (Or.inr (Or.inl hlive))
      refine ⟨hlive, hnot, hnewest, fun t ht => ?_, fun u hu hle => ?_⟩
      · rw [hm.2, (heq t (Or.inr (Or.inr (Or.inr (hrun ▸ ht))))).2]
        exact hbelow t ht
      · rw [hm.1] at hle
        obtain ⟨q, hq, hstamp, hlo⟩ := hsupport u hu hle
        exact ⟨q, hq, hstamp, by rwa [(heq q (Or.inr (Or.inr (Or.inl hq)))).2]⟩
    have hm := h.merging
    unfold MergingReads at hm ⊢
    cases hc : c.merging with
    | none => trivial
    | selected => rwa [hc] at hm
    | listed run merged | unlisted run merged =>
      rw [hc] at hm
      exact hreplaces run merged (by rw [hc]; rfl) hm

/-- A registered table, newer than all others, is a piece of its own. -/
theorem Reads.register (h : c.Reads g) {sst : SSTable}
    (hnew : ∀ t, c.Uses t → stampOf t.id < stampOf sst.id)
    (hneed : g.need sst = stampOf sst.id + 1) (hlo : g.lo sst = stampOf sst.id) :
    Reads { c with
      history := sst :: c.history, live := insert sst c.live, visible := sst :: c.visible } g := by
  have hhist : ∀ t ∈ c.history, stampOf t.id < stampOf sst.id := fun t ht => hnew t (Or.inl ht)
  have hlive : ∀ t ∈ c.live, stampOf t.id < stampOf sst.id :=
    fun t ht => hnew t (Or.inr (Or.inl ht))
  have hvisible : ∀ t ∈ c.visible, stampOf t.id < stampOf sst.id :=
    fun t ht => hnew t (Or.inr (Or.inr (Or.inl ht)))
  have huse : ∀ t, InUse { c with
      history := sst :: c.history, live := insert sst c.live, visible := sst :: c.visible } t →
      t = sst ∨ c.InUse t := by
    rintro t ((rfl | ht) | ht)
    · exact Or.inl rfl
    · exact Or.inr (Or.inl ht)
    · exact (List.mem_cons.mp ht).imp_right Or.inr
  refine ⟨?_, fun t ht => ?_, fun t ht key => ?_, ?_, ?_, ?_, ?_, ?_⟩
  · exact List.pairwise_cons.mpr ⟨fun t ht => (hhist t ht).le, h.history_sorted⟩
  · rcases huse t ht with rfl | ht
    · exact ⟨t, List.mem_cons_self, hneed.le⟩
    · obtain ⟨u, hu, hle⟩ := h.bounded t ht
      exact ⟨u, List.mem_cons_of_mem _ hu, hle⟩
  · rcases huse t ht with rfl | ht
    · rw [Extents.piece, hneed, hlo]
      exact fills_new (List.forall_mem_map.mpr hhist)
    · obtain ⟨u, hu, hle⟩ := h.bounded t ht
      exact (h.fills t ht key).newer (hle.trans (hhist u hu))
  · exact List.pairwise_cons.mpr ⟨fun t ht => (hvisible t ht).le, h.visible_sorted⟩
  · have hset : {t | t ∈ sst :: c.visible} = insert sst {t | t ∈ c.visible} := by
      ext t
      simp
    rw [hset]
    exact h.visible_supports.register hhist hvisible hneed hlo
  · exact h.live_supports.register hhist hlive hneed hlo
  · intro t ht
    rcases List.mem_cons.mp ht with rfl | ht
    · exact ⟨t, Set.mem_insert _ _, le_rfl, le_rfl⟩
    · obtain ⟨q, hq, hrest⟩ := h.dominated t ht
      exact ⟨q, Set.mem_insert_of_mem _ hq, hrest⟩
  · have hreplaces : ∀ phase run merged, c.Replaces g run merged → Replaces
        ⟨sst :: c.history, insert sst c.live, sst :: c.visible, phase⟩ g run merged := by
      rintro phase run merged ⟨hl, hnot, hnewest, hbelow, hsupport⟩
      refine ⟨Set.mem_insert_of_mem _ hl, hnot, hnewest, hbelow, fun u hu hle => ?_⟩
      rcases List.mem_cons.mp hu with rfl | hu
      · exact ⟨u, List.mem_cons_self, hlive merged hl, hlo.le⟩
      · obtain ⟨q, hq, hrest⟩ := hsupport u hu hle
        exact ⟨q, List.mem_cons_of_mem _ hq, hrest⟩
    have hm := h.merging
    unfold MergingReads at hm ⊢
    cases hc : c.merging with
    | none => trivial
    | selected =>
      rw [hc] at hm
      obtain ⟨front, back, hvis, habs⟩ := hm
      refine ⟨sst :: front, back, by simp [hvis], fun newest hnewest key => ?_⟩
      -- the new table's stamp is not the run's
      have hmem : newest ∈ c.visible := by
        rw [hvis]
        exact List.mem_append_left _ (List.mem_append_right _ (List.mem_of_mem_head? hnewest))
      have hne : ¬stampOf sst.id = stampOf newest.id := (hvisible newest hmem).ne'
      rw [List.filter_cons_of_neg (by simpa using hne)]
      exact habs newest hnewest key
    | listed run merged | unlisted run merged =>
      rw [hc] at hm
      exact hreplaces _ run merged hm

theorem Reads.unlist (h : c.Reads g) {run : List SSTable} {merged : SSTable}
    (hc : c.merging = .listed run merged) :
    Reads { c with live := c.live \ {t | t ∈ run}, merging := .unlisted run merged } g := by
  have hm : c.Replaces g run merged := by
    have := h.merging
    rwa [MergingReads, hc] at this
  have hmerged : merged ∈ c.live \ {t | t ∈ run} := ⟨hm.live, hm.notMem⟩
  have huse : ∀ t, InUse { c with live := c.live \ {t | t ∈ run}, merging := .unlisted run merged } t →
      c.InUse t := fun t ht => ht.imp_left And.left
  exact {
    history_sorted := h.history_sorted
    bounded := fun t ht => h.bounded t (huse t ht)
    fills := fun t ht => h.fills t (huse t ht)
    visible_sorted := h.visible_sorted
    visible_supports := h.visible_supports
    live_supports := h.live_supports.replace run hmerged
      (fun t ht => or_iff_not_imp_left.mpr fun hnot => ⟨ht, hnot⟩) (fun t ht => Or.inl ht.1) hm.below
      (h.live_supports.needs merged hm.live)
    dominated := by
      intro t ht
      obtain ⟨q, hq, hstamp, hlo⟩ := h.dominated t ht
      by_cases hrun : q ∈ run
      · obtain ⟨hq', hlo'⟩ := hm.below q hrun
        exact ⟨merged, hmerged, hstamp.trans hq', hlo'.trans hlo⟩
      · exact ⟨q, ⟨hq, hrun⟩, hstamp, hlo⟩
    merging := ⟨hmerged, hm.notMem, hm.newest, hm.below, hm.support⟩ }

theorem Reads.swap (h : c.Reads g) {run front back : List SSTable} {merged : SSTable}
    (hc : c.merging = .unlisted run merged)
    (hvis : c.visible = front ++ run ++ back) :
    Reads { c with visible := front ++ merged :: back, merging := .none } g := by
  have hm : c.Replaces g run merged := by
    have := h.merging
    rwa [MergingReads, hc] at this
  obtain ⟨newest, hhead, hstamp⟩ := hm.newest
  have hnewest : newest ∈ run := List.mem_of_mem_head? hhead
  have hmem : ∀ t ∈ front ++ merged :: back, t ∈ c.visible ∨ t = merged := by
    intro t ht
    simp only [hvis, List.mem_append, List.mem_cons] at ht ⊢
    tauto
  have huse : ∀ t, InUse { c with visible := front ++ merged :: back, merging := .none } t →
      c.InUse t := by
    rintro t (ht | ht)
    · exact Or.inl ht
    · rcases hmem t ht with ht | rfl
      · exact Or.inr ht
      · exact Or.inl hm.live
  have hsorted := h.visible_sorted
  rw [hvis] at hsorted
  obtain ⟨hfrontrun, hback, hlast⟩ := List.pairwise_append.mp hsorted
  obtain ⟨hfront, -, hmid⟩ := List.pairwise_append.mp hfrontrun
  exact {
    history_sorted := h.history_sorted
    bounded := fun t ht => h.bounded t (huse t ht)
    fills := fun t ht => h.fills t (huse t ht)
    visible_sorted := by
      refine List.pairwise_append.mpr ⟨hfront, List.pairwise_cons.mpr ⟨fun u hu => ?_, hback⟩, ?_⟩
      · rw [hstamp]
        exact hlast newest (List.mem_append_right _ hnewest) u hu
      · intro t ht u hu
        rcases List.mem_cons.mp hu with rfl | hu
        · rw [hstamp]
          exact hmid t ht newest hnewest
        · exact hlast t (List.mem_append_left _ ht) u hu
    visible_supports := h.visible_supports.replace run (by simp) (fun t ht => by
      simp only [Set.mem_ofPred_eq, hvis, List.mem_append, List.mem_cons] at ht ⊢
      tauto) hmem hm.below hm.support
    live_supports := h.live_supports
    dominated := by
      intro t ht
      rcases hmem t ht with ht | rfl
      · exact h.dominated t ht
      · exact ⟨t, hm.live, le_rfl, le_rfl⟩
    merging := trivial }

theorem Reads.reload (h : c.Reads g) {tables : List SSTable} (hmem : ∀ t, t ∈ tables ↔ t ∈ c.live)
    (hsorted : tables.Pairwise fun t u => stampOf u.id ≤ stampOf t.id) :
    Reads { c with visible := tables, merging := .none } g where
  history_sorted := h.history_sorted
  bounded := fun t ht => h.bounded t (Or.inl (ht.elim id (hmem t).mp))
  fills := fun t ht => h.fills t (Or.inl (ht.elim id (hmem t).mp))
  visible_sorted := hsorted
  visible_supports := by
    have hset : {t | t ∈ tables} = c.live := Set.ext hmem
    rw [hset]
    exact h.live_supports
  live_supports := h.live_supports
  dominated := fun t ht => ⟨t, (hmem t).mp ht, le_rfl, le_rfl⟩
  merging := trivial

/-- The table merged from an absorbing run stands for everything from the newest table of
the run down to the lowest stamp the run reaches. -/
theorem Reads.fills_merged (h : c.Reads g) {front back rest : List SSTable} {newest merged : SSTable}
    {m : Nat} (hvis : c.visible = front ++ (newest :: rest) ++ back)
    (habs : Absorbed front (newest :: rest)) (hstamp : stampOf merged.id = stampOf newest.id)
    (hentries : merged.entries = merge (newest :: rest)) (hneed : g.need merged = m)
    (hm : ∀ t ∈ front, stampOf newest.id < stampOf t.id → m ≤ g.lo t)
    (hlo : g.lo merged = g.lowest m
      (front.filter (fun t => stampOf t.id = stampOf newest.id) ++ (newest :: rest)))
    (key : String) : Fills vectorClock (strata c.history key) (g.piece key merged) := by
  set newer := front.filter fun t => stampOf newest.id < stampOf t.id
  set same := front.filter fun t => stampOf t.id = stampOf newest.id with hsame
  have hsorted := h.visible_sorted
  have hfront : newer ++ same = front := by
    rw [hvis, List.append_assoc] at hsorted
    obtain ⟨hf, -, hle⟩ := List.pairwise_append.mp hsorted
    exact filter_lt_append_filter_eq hf fun t ht => hle t ht newest (by simp)
  have hmerge : Fills vectorClock (strata c.history key) ⟨stampOf newest.id, m,
      reach m (same.map (g.piece key) ++ (newest :: rest).map (g.piece key)),
      keepMax vectorClock (Strata.items ((newest :: rest).map (g.piece key)))⟩ := by
    refine fills_merge (List.pairwise_map.mpr h.history_sorted) ?_ ?_ ?_
    · rw [← List.map_append]
      refine List.forall_mem_map.mpr fun t ht => h.fills t (Or.inr ?_) key
      rw [hvis, ← hfront]
      simp only [List.mem_append] at ht ⊢
      tauto
    · -- a piece's support has a newer stamp, so it stands among the tables read before it
      intro a p b hsplit s hs hle
      obtain ⟨u, hu, rfl⟩ := List.mem_map.mp hs
      rw [← List.map_append, List.map_eq_append_iff] at hsplit
      obtain ⟨a', tb, htables, rfl, htb⟩ := hsplit
      obtain ⟨t, b', rfl, rfl, rfl⟩ := List.map_eq_cons_iff.mp htb
      have hsplit' : c.visible = newer ++ a' ++ t :: (b' ++ back) := by
        rw [hvis, ← hfront, List.append_assoc newer, htables]
        simp
      obtain ⟨q, hq, htop, hlo'⟩ := h.visible_supports.needs t
        (by simp [hsplit']) u hu hle
      rw [Extents.reach_pieces, Extents.lowest_le_iff]
      rcases List.mem_append.mp
        (mem_front_of_lt (f := fun t : SSTable => stampOf t.id) hsorted hsplit' hq htop) with hq | hq
      · obtain ⟨hqf, hlt⟩ := List.mem_filter.mp hq
        exact Or.inl ((hm q hqf (by simpa using hlt)).trans hlo')
      · exact Or.inr ⟨q, hq, hlo'⟩
    · rw [Extents.items_pieces, Extents.items_pieces, ← tableItems_append]
      exact habs newest rfl key
  rw [← List.map_append, Extents.reach_pieces, Extents.items_pieces, ← itemsOf_merge] at hmerge
  rw [Extents.piece, hstamp, hneed, hlo, hentries]
  exact hmerge

/-- The newest flush so far. -/
theorem Reads.exists_top (h : c.Reads g) {t : SSTable} (ht : t ∈ c.visible) :
    ∃ top ∈ c.history, ∀ u ∈ c.history, stampOf u.id ≤ stampOf top.id := by
  obtain ⟨u, hu, -⟩ := h.bounded t (Or.inr ht)
  obtain ⟨top, older, hhist⟩ := List.exists_cons_of_ne_nil (List.ne_nil_of_mem hu)
  have hsorted := h.history_sorted
  rw [hhist] at hsorted ⊢
  refine ⟨top, List.mem_cons_self, fun u hu => ?_⟩
  rcases List.mem_cons.mp hu with rfl | hu
  · exact le_rfl
  · exact (List.pairwise_cons.mp hsorted).1 u hu

/-- The first table of a run has its newest stamp. -/
theorem Reads.le_newest (h : c.Reads g) {front back rest : List SSTable} {newest t : SSTable}
    (hvis : c.visible = front ++ (newest :: rest) ++ back) (ht : t ∈ newest :: rest) :
    stampOf t.id ≤ stampOf newest.id := by
  have hsorted := h.visible_sorted
  rw [hvis] at hsorted
  obtain ⟨hfront, -, -⟩ := List.pairwise_append.mp hsorted
  rcases List.mem_cons.mp ht with rfl | ht
  · exact le_rfl
  · exact (List.pairwise_cons.mp (List.pairwise_append.mp hfront).2.1).1 t ht

/-- What newer tables of `front` reach goes on to the newest flush, or is in one of them. -/
theorem exists_newer_of_lowest {front : List SSTable} {top u : SSTable} {stamp : Nat}
    (hmax : stampOf u.id ≤ stampOf top.id) (hle : g.lowest (stampOf top.id + 1)
      (front.filter fun t => stamp < stampOf t.id) ≤ stampOf u.id) :
    ∃ q ∈ front, stamp < stampOf q.id ∧ g.lo q ≤ stampOf u.id := by
  rcases Extents.lowest_le_iff.mp hle with hle | ⟨q, hq, hlo⟩
  · omega
  · obtain ⟨hqf, hlt⟩ := List.mem_filter.mp hq
    exact ⟨q, hqf, by simpa using hlt, hlo⟩

/-- A listed table whose piece is filled, and needs what newer visible tables support. -/
theorem Reads.insertLive (h : c.Reads g) {run : List SSTable} {merged : SSTable}
    (hbounded : ∃ u ∈ c.history, g.need merged ≤ stampOf u.id + 1)
    (hfills : ∀ key, Fills vectorClock (strata c.history key) (g.piece key merged))
    (hsupport : ∀ u ∈ c.history, g.need merged ≤ stampOf u.id → ∃ q ∈ c.visible,
      stampOf merged.id < stampOf q.id ∧ g.lo q ≤ stampOf u.id)
    (hmerging : MergingReads { c with
      live := insert merged c.live, merging := .listed run merged } g) :
    Reads { c with live := insert merged c.live, merging := .listed run merged } g := by
  have huse : ∀ t, InUse { c with
      live := insert merged c.live, merging := .listed run merged } t → t = merged ∨ c.InUse t := by
    rintro t ((rfl | ht) | ht)
    · exact Or.inl rfl
    · exact Or.inr (Or.inl ht)
    · exact Or.inr (Or.inr ht)
  refine ⟨h.history_sorted, fun t ht => ?_, fun t ht key => ?_, h.visible_sorted,
    h.visible_supports, ?_, fun t ht => ?_, hmerging⟩
  · exact (huse t ht).elim (fun he => he ▸ hbounded) (h.bounded t)
  · exact (huse t ht).elim (fun he => he ▸ hfills key) fun ht => h.fills t ht key
  · refine h.live_supports.replace [] (Set.mem_insert _ _)
      (fun t ht => Or.inr (Set.mem_insert_of_mem _ ht)) (fun t ht => ht.symm) (by simp)
      fun u hu hle => ?_
    obtain ⟨q, hq, hlt, hlo⟩ := hsupport u hu hle
    obtain ⟨q', hq', hstamp', hlo'⟩ := h.dominated q hq
    exact ⟨q', hq', by omega, by omega⟩
  · obtain ⟨q, hq, hrest⟩ := h.dominated t ht
    exact ⟨q, Set.mem_insert_of_mem _ hq, hrest⟩

theorem Reads.list (h : c.Reads g) {newest merged : SSTable} {rest : List SSTable}
    (hc : c.merging = .selected (newest :: rest)) (hstamp : stampOf merged.id = stampOf newest.id)
    (hentries : merged.entries = merge (newest :: rest))
    (hfresh : ∀ t, c.Uses t → t.id ≠ merged.id) : ∃ g', Reads { c with
      live := insert merged c.live, merging := .listed (newest :: rest) merged } g' := by
  obtain ⟨front, back, hvis, habs⟩ : ∃ front back, c.visible = front ++ (newest :: rest) ++ back ∧
      Absorbed front (newest :: rest) := by
    have := h.merging
    rwa [MergingReads, hc] at this
  have hvisible : ∀ t ∈ newest :: rest, t ∈ c.visible := fun t ht => by
    rw [hvis]
    exact List.mem_append_left _ (List.mem_append_right _ ht)
  obtain ⟨top, htop, hmax⟩ := h.exists_top (hvisible newest List.mem_cons_self)
  -- what newer visible tables reach, and how far the run continues it
  set newer := front.filter fun t => stampOf newest.id < stampOf t.id with hnewer
  set same := front.filter fun t => stampOf t.id = stampOf newest.id with hsame
  set m := g.lowest (stampOf top.id + 1) newer with hmdef
  set r := g.lowest m (same ++ (newest :: rest)) with hr
  have hagree : ∀ t, c.Uses t →
      (g.set merged m r).need t = g.need t ∧ (g.set merged m r).lo t = g.lo t :=
    fun t ht => Extents.set_of_ne (fun he => hfresh t ht (congrArg SSTable.id he)) m r
  have huses : ∀ t ∈ c.visible, c.Uses t := fun t ht => Or.inr (Or.inr (Or.inl ht))
  have hfrontvis : ∀ t ∈ front, t ∈ c.visible := fun t ht => by simp [hvis, ht]
  have h' := h.congr hagree
  have hsupport : ∀ u ∈ c.history, (g.set merged m r).need merged ≤ stampOf u.id → ∃ q ∈ c.visible,
      stampOf merged.id < stampOf q.id ∧ (g.set merged m r).lo q ≤ stampOf u.id := by
    intro u hu hle
    rw [Extents.need_set_self] at hle
    obtain ⟨q, hq, hlt, hlo⟩ := exists_newer_of_lowest (hmax u hu) hle
    refine ⟨q, hfrontvis q hq, hstamp ▸ hlt, ?_⟩
    rwa [(hagree q (huses q (hfrontvis q hq))).2]
  have hfills : ∀ key, Fills vectorClock (strata c.history key)
      ((g.set merged m r).piece key merged) := by
    refine h'.fills_merged hvis habs hstamp hentries (Extents.need_set_self ..) (fun t ht hlt => ?_) ?_
    · rw [(hagree t (huses t (hfrontvis t ht))).2]
      exact Extents.lowest_le_iff.mpr (Or.inr ⟨t, by simpa [hnewer] using ⟨ht, hlt⟩, le_rfl⟩)
    · rw [Extents.lo_set_self, Extents.lowest_congr]
      intro t ht
      refine (hagree t (huses t ?_)).2
      rcases List.mem_append.mp ht with ht | ht
      · exact hfrontvis t (List.mem_filter.mp ht).1
      · exact hvisible t ht
  refine ⟨g.set merged m r, h'.insertLive ⟨top, htop, ?_⟩ hfills hsupport ⟨Set.mem_insert _ _,
    fun hmem => ?_, ⟨newest, rfl, hstamp⟩, fun t ht => ⟨?_, ?_⟩, hsupport⟩⟩
  · simpa using Extents.lowest_le_iff.mpr (Or.inl le_rfl)
  · exact hfresh merged (huses merged (hvisible merged hmem)) rfl
  · exact hstamp ▸ h.le_newest hvis ht
  · rw [Extents.lo_set_self, (hagree t (huses t (hvisible t ht))).2]
    exact Extents.lowest_le_iff.mpr (Or.inr ⟨t, List.mem_append_right _ ht, le_rfl⟩)

/-- Every step of the catalog that selects absorbing runs keeps the invariant. -/
theorem reads_step {c' : Catalog} (h : c.Reads g) (hstep : c.Step Absorbed c') : ∃ g', c'.Reads g' := by
  cases hstep with
  | stay => exact ⟨g, h⟩
  | register sst hnew =>
    refine ⟨g.set sst (stampOf sst.id + 1) (stampOf sst.id), Reads.register (h.congr fun t ht =>
      Extents.set_of_ne (fun he => ?_) _ _) hnew (by simp) (by simp)⟩
    exact absurd (hnew t ht) (by rw [he]; exact lt_irrefl _)
  | select front run back hne hok hvis => exact ⟨g, { h with merging := ⟨front, back, hvis, hok⟩ }⟩
  | list newest rest merged hc hstamp hentries hfresh => exact h.list hc hstamp hentries hfresh
  | unlist run merged hc => exact ⟨g, h.unlist hc⟩
  | swap run merged front back hc hvis =>
    exact ⟨g, h.swap hc hvis⟩
  | abandon => exact ⟨g, { h with merging := trivial }⟩
  | reload tables hmem hsorted => exact ⟨g, h.reload hmem hsorted⟩

end Catalog

/-! ## Runs -/

namespace TableStore

/-- A step with an all-or-nothing MANIFEST call that, if it selects a run, selects one that
absorbs the tables in front of it with its newest stamp. -/
def SelectsAbsorbed (s : TableStore) (a : TableAct) : Prop :=
  s.AllOrNothing a ∧ (a = .compactSelect → ∀ front back,
    s.sstables = front ++ selectTierForCompaction s.sstables ++ back →
    Absorbed front (selectTierForCompaction s.sstables))

variable {fileSize : List Entry → Nat} {hist : List SSTable} {s : TableStore}

theorem reads_create : (catalog [] create).Reads ⟨fun _ => 0, fun _ => 0⟩ where
  history_sorted := List.Pairwise.nil
  bounded := by
    rintro t (⟨-, ht⟩ | ht)
    · simp [create] at ht
    · simp [catalog, visibleTables, create, FlushPhase.pending] at ht
  fills := by
    rintro t (⟨-, ht⟩ | ht)
    · simp [create] at ht
    · simp [catalog, visibleTables, create, FlushPhase.pending] at ht
  visible_sorted := List.Pairwise.nil
  visible_supports := ⟨fun _ _ _ hu => (List.not_mem_nil hu).elim,
    fun _ hu => (List.not_mem_nil hu).elim⟩
  live_supports := ⟨fun _ _ _ hu => (List.not_mem_nil hu).elim,
    fun _ hu => (List.not_mem_nil hu).elim⟩
  dominated := by simp [catalog, visibleTables, create, FlushPhase.pending]
  merging := trivial

theorem reads_of_run (h : Run fileSize SelectsAbsorbed hist s) :
    LiveInv hist s ∧ ∃ g, (catalog hist s).Reads g := by
  induction h with
  | start => exact ⟨liveInv_create, _, reads_create⟩
  | @step hist s s' a hrun ha hstep ih =>
    obtain ⟨hinv, g, hreads⟩ := ih
    have hstep' := step_sound hstep
    refine ⟨liveInv_step hinv ha.1 hstep', Catalog.reads_step hreads
      (catalog_step hinv ha.1 hstep' fun hsel front back hsplit newest hnewest key => ?_)⟩
    -- a registered table in front has a newer stamp than the run
    have hpending : s.flush.pending.filter (fun t => stampOf t.id = stampOf newest.id) = [] := by
      refine List.filter_eq_nil_iff.mpr fun t ht => ?_
      cases hf : s.flush with
      | registered sst =>
        obtain rfl : t = sst := by simpa [hf, FlushPhase.pending] using ht
        have hmem : newest ∈ s.sstables := mem_of_selected rfl newest (List.mem_of_mem_head? hnewest)
        have := hinv.flush_newest t (by rw [hf]; rfl) newest (List.mem_append_left _ hmem)
        simpa using this.ne'
      | _ => simp [hf, FlushPhase.pending] at ht
    rw [List.filter_append, hpending, List.nil_append]
    exact ha.2 hsel front back hsplit newest hnewest key

/-- Layers whose tables read alike read alike. -/
theorem getAll_tables (active : MemTable) (flushing : Option MemTable) {a b : List SSTable}
    {key : String}
    (h : keepMax vectorClock (tableItems a key) = keepMax vectorClock (tableItems b key)) :
    Layers.getAll ⟨active, flushing, a⟩ key = Layers.getAll ⟨active, flushing, b⟩ key :=
  Layers.getAll_congr (keepMax_append_congr rfl (keepMax_append_congr rfl h))

/-- The tables readers see, and those an Open loads, read as the registered ones. -/
theorem keepMax_of_run (h : Run fileSize SelectsAbsorbed hist s) (key : String) :
    keepMax vectorClock (tableItems s.visibleTables key) =
        keepMax vectorClock (tableItems hist key) ∧
      ∃ tables, loadLiveSSTables s.manifest s.files = .ok tables ∧
        keepMax vectorClock (tableItems tables key) = keepMax vectorClock (tableItems hist key) := by
  obtain ⟨hinv, g, hreads⟩ := reads_of_run h
  obtain ⟨tables, hload, hlive, -, hsorted⟩ := loadLiveSSTables_spec hinv
  have hreload := hreads.reload hlive hsorted
  refine ⟨?_, tables, hload, ?_⟩
  · exact read_eq hreads.history_sorted hreads.visible_sorted
      (fun t ht => hreads.fills t (Or.inr ht) key) hreads.visible_supports
  · exact read_eq hreload.history_sorted hreload.visible_sorted
      (fun t ht => hreload.fills t (Or.inr ht) key) hreload.visible_supports

/-- Compaction is invisible in runs that select absorbing runs : under any memtables every
read gives exactly what the registered tables give, in memory and after a reload, whatever
was compacted, failed or reopened in between. -/
theorem getAll_of_run (h : Run fileSize SelectsAbsorbed hist s) (active : MemTable)
    (flushing : Option MemTable) (key : String) :
    Layers.getAll ⟨active, flushing, s.visibleTables⟩ key =
        Layers.getAll ⟨active, flushing, hist⟩ key ∧
      ∃ tables, loadLiveSSTables s.manifest s.files = .ok tables ∧
        Layers.getAll ⟨active, flushing, tables⟩ key =
          Layers.getAll ⟨active, flushing, hist⟩ key := by
  obtain ⟨hvisible, tables, hload, hreload⟩ := keepMax_of_run h key
  exact ⟨getAll_tables _ _ hvisible, tables, hload, getAll_tables _ _ hreload⟩

/-- A run none of whose tables shares its stamp with a table in front absorbs trivially. -/
theorem absorbed_of_nodup {front run back l : List SSTable} (hl : l = front ++ run ++ back)
    (hnd : (l.map fun t => stampOf t.id).Nodup) : Absorbed front run := by
  intro newest hnewest key
  have hnone : front.filter (fun t => stampOf t.id = stampOf newest.id) = [] := by
    refine List.filter_eq_nil_iff.mpr fun t ht => ?_
    rw [hl, List.append_assoc, List.map_append, List.nodup_append] at hnd
    have hmem : stampOf newest.id ∈ (run ++ back).map fun t => stampOf t.id :=
      List.mem_map.mpr ⟨newest, List.mem_append_left _ (List.mem_of_mem_head? hnewest), rfl⟩
    simpa using hnd.2.2 _ (List.mem_map.mpr ⟨t, ht, rfl⟩) _ hmem
  rw [hnone, List.nil_append]

/-- All or nothing, with no two tables under one stamp. -/
def NoSharedStamp (s : TableStore) (a : TableAct) : Prop :=
  s.AllOrNothing a ∧ (s.sstables.map fun t => stampOf t.id).Nodup

instance (s : TableStore) (a : TableAct) : Decidable (s.NoSharedStamp a) :=
  inferInstanceAs (Decidable (_ ∧ _))

def itemAt (value : String) (nodes : List String) : DataItem :=
  ⟨value, nodes.foldl VectorClock.increment ⟨∅⟩, "A", false⟩

/-- A file of 400 bytes an entry. -/
def entrySize (entries : List Entry) : Nat :=
  400 * entries.length

/-- Four flushes of a key overwritten under one clock, and a compaction. -/
def overwriting : List TableAct :=
  flushOne 1700000000000000001 (itemAt "1" ["A"]) ++
    flushOne 1700000000000000002 (itemAt "2" ["A"]) ++
    flushOne 1700000000000000003 (itemAt "3" ["A"]) ++
    flushOne 1700000000000000004 (itemAt "4" ["A"]) ++ compactAll 4

theorem run_overwriting : ∃ hist s, Run entrySize SelectsAbsorbed hist s ∧ hist.length = 4 ∧
    s.visibleTables.length = 1 := by
  have h : (runActs entrySize NoSharedStamp [] create overwriting).map
      (fun r => (r.1.length, r.2.visibleTables.length)) = some (4, 1) := by
    decide +kernel
  obtain ⟨⟨hist, s⟩, hs, hlen⟩ := Option.map_eq_some_iff.mp h
  refine ⟨hist, s, (Run.start.runActs hs).mono fun s a ha => ⟨ha.1, fun _ front back hl => ?_⟩,
    congrArg Prod.fst hlen, congrArg Prod.snd hlen⟩
  exact absorbed_of_nodup hl ha.2

theorem getAll_overwriting : ∃ (hist : List SSTable) (s : TableStore),
    hist.length = 4 ∧ s.visibleTables.length = 1 ∧
    Layers.getAll ⟨MemTable.new 1000, none, s.visibleTables⟩ "k" =
      Layers.getAll ⟨MemTable.new 1000, none, hist⟩ "k" := by
  obtain ⟨hist, s, hrun, hhist, hvisible⟩ := run_overwriting
  exact ⟨hist, s, hhist, hvisible, (getAll_of_run hrun _ _ _).1⟩

/-- Three concurrent versions of a key. -/
def siblings (key : String) : List Entry :=
  [⟨key, itemAt "1" ["A"]⟩, ⟨key, itemAt "2" ["B"]⟩, ⟨key, itemAt "3" ["C"]⟩]

/-- A version that supersedes them. -/
def superseding (key : String) : Entry :=
  ⟨key, itemAt "4" ["A", "B", "C"]⟩

/-- Ten flushes, oldest first. The third and the fourth hold a version of `k` each, with
one clock. -/
def tenFlushes : List TableAct :=
  flushOne 1700000000000000001 (itemAt "first" ["A"]) ++
    flushAll 1700000000000000002 [⟨"x", itemAt "" ["A"]⟩] ++
    flushOne 1700000000000000003 (itemAt "old" ["A", "A"]) ++
    flushAll 1700000000000000004 (⟨"k", itemAt "new" ["A", "A"]⟩ :: siblings "p") ++
    flushAll 1700000000000000005 [⟨"y", itemAt "" ["A"]⟩] ++
    flushAll 1700000000000000006 [⟨"z", itemAt "" ["A"]⟩] ++
    flushAll 1700000000000000007 (superseding "p" :: siblings "q") ++
    flushAll 1700000000000000008 (siblings "p") ++ flushAll 1700000000000000009 (siblings "p") ++
    flushAll 1700000000000000010 (siblings "p" ++ [superseding "q"])

/-- A compaction of the four newest tables whose Remove fails, two more flushes, a
compaction of the six newest that a crash ends before its Remove, and further compactions
and reopens. In the end `..12_c_c` holds the newer version of `k` and `..12_c_c_c` the
older one. -/
def reordering : List TableAct :=
  tenFlushes ++ [.compactSelect, .compactWrite, .compactAdd 100 true, .compactRemove 0 false] ++
    flushAll 1700000000000000011 (siblings "p") ++ flushAll 1700000000000000012 (siblings "p") ++
    [.compactSelect, .compactWrite, .compactAdd 100 true, .reopen] ++
    compactAll 4 ++ compactAll 4 ++ compactAll 4 ++ [.reopen] ++ compactAll 4 ++ [.reopen]

/-- The newer of two versions with one clock wins when the flushed tables are read, and
loses after compactions and reopens whose MANIFEST calls are all or nothing. -/
theorem compaction_changes_read : ∃ hist s, Run entrySize AllOrNothing hist s ∧
    (Layers.getAll ⟨MemTable.new 1000, none, hist⟩ "k").map DataItem.value = ["new"] ∧
    (Layers.getAll ⟨MemTable.new 1000, none, s.visibleTables⟩ "k").map DataItem.value = ["old"] := by
  have h : (runActs entrySize AllOrNothing [] create reordering).map
      (fun r => ((Layers.getAll ⟨MemTable.new 1000, none, r.1⟩ "k").map DataItem.value,
        (Layers.getAll ⟨MemTable.new 1000, none, r.2.visibleTables⟩ "k").map DataItem.value)) =
      some (["new"], ["old"]) := by
    decide +kernel
  obtain ⟨⟨hist, s⟩, hs, hread⟩ := Option.map_eq_some_iff.mp h
  exact ⟨hist, s, Run.start.runActs hs, congrArg Prod.fst hread, congrArg Prod.snd hread⟩

end TableStore

end DistributedKV
