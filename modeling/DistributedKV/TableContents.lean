import DistributedKV.Catalog

/-!
# What the tables hold

Whatever was compacted, left behind or reloaded, the tables readers see and the live
tables hold versions of the registered tables only, and cover all of them
(`sameClocks_of_run`). Unlike the exact order of a read this needs nothing but
all-or-nothing MANIFEST calls.
-/

open Maxima

namespace DistributedKV

open DataItem (vectorClock)

/-- Versions out of `b` that cover everything in `b`. -/
structure SameClocks (a b : List DataItem) : Prop where
  mem : ∀ w ∈ a, w ∈ b
  covers : ∀ w ∈ b, Covers vectorClock a w.vectorClock

namespace SameClocks

variable {a a' b b' : List DataItem}

theorem refl (a : List DataItem) : SameClocks a a :=
  ⟨fun _ => id, fun w hw => ⟨w, hw, le_rfl⟩⟩

theorem covers_iff (h : SameClocks a b) {c : VectorClock} :
    Covers vectorClock a c ↔ Covers vectorClock b c := by
  constructor
  · exact fun hc => hc.mono h.mem
  · rintro ⟨w, hw, hle⟩
    exact (h.covers w hw).of_le hle

theorem append (h : SameClocks a b) (h' : SameClocks a' b') : SameClocks (a ++ a') (b ++ b') where
  mem := fun w hw => by
    rcases List.mem_append.mp hw with hw | hw
    · exact List.mem_append_left _ (h.mem w hw)
    · exact List.mem_append_right _ (h'.mem w hw)
  covers := fun w hw => by
    rw [covers_append]
    rcases List.mem_append.mp hw with hw | hw
    · exact Or.inl (h.covers w hw)
    · exact Or.inr (h'.covers w hw)

theorem trans {c : List DataItem} (h : SameClocks a b) (h' : SameClocks b c) : SameClocks a c where
  mem := fun w hw => h'.mem w (h.mem w hw)
  covers := fun w hw => h.covers_iff.mpr (h'.covers w hw)

theorem keepMax (a : List DataItem) : SameClocks (keepMax vectorClock a) a where
  mem := fun _ => mem_of_mem_keepMax
  covers := fun w hw => covers_keepMax.mpr ⟨w, hw, le_rfl⟩

end SameClocks

namespace Catalog

/-- The visible tables, and the live ones, hold what the registered tables hold; so does a
merged table for its run. -/
structure Holds (c : Catalog) (key : String) : Prop where
  visible : SameClocks (tableItems c.visible key) (tableItems c.history key)
  live_mem : ∀ t ∈ c.live, ∀ w ∈ itemsOf t.entries key, w ∈ tableItems c.history key
  live_covers : ∀ w ∈ tableItems c.history key,
    ∃ t ∈ c.live, Covers vectorClock (itemsOf t.entries key) w.vectorClock
  run_mem : ∀ w ∈ tableItems c.merging.run key, w ∈ tableItems c.history key
  listed : ∀ run merged, c.merging = .listed run merged →
    merged ∈ c.live ∧ merged ∉ run ∧ merged.entries = merge run
  unlisted : ∀ run merged, c.merging = .unlisted run merged → merged.entries = merge run

variable {c : Catalog} {key : String}

theorem Holds.abandon (h : c.Holds key) : Holds { c with merging := .none } key :=
  { h with run_mem := by simp [Merging.run], listed := nofun, unlisted := nofun }

theorem Holds.select (h : c.Holds key) {front run back : List SSTable}
    (hvis : c.visible = front ++ run ++ back) : Holds { c with merging := .selected run } key :=
  { h with
    run_mem := fun w hw => h.visible.mem w (by
      rw [hvis, tableItems_append, tableItems_append]
      exact List.mem_append_left _ (List.mem_append_right _ hw))
    listed := nofun
    unlisted := nofun }

theorem Holds.register (h : c.Holds key) (sst : SSTable) :
    Holds { c with history := sst :: c.history, live := insert sst c.live
                   visible := sst :: c.visible } key where
  visible := (SameClocks.refl _).append h.visible
  live_mem := by
    rintro t (rfl | ht) w hw
    · exact List.mem_append_left _ hw
    · exact List.mem_append_right _ (h.live_mem t ht w hw)
  live_covers := by
    intro w hw
    rcases List.mem_append.mp hw with hw | hw
    · exact ⟨sst, Or.inl rfl, w, hw, le_rfl⟩
    · obtain ⟨t, ht, hcov⟩ := h.live_covers w hw
      exact ⟨t, Or.inr ht, hcov⟩
  run_mem := fun w hw => List.mem_append_right _ (h.run_mem w hw)
  listed := fun run merged hm =>
    have hl := h.listed run merged hm
    ⟨Or.inr hl.1, hl.2⟩
  unlisted := h.unlisted

theorem sameClocks_merge {merged : SSTable} {run : List SSTable}
    (h : merged.entries = merge run) (key : String) :
    SameClocks (itemsOf merged.entries key) (tableItems run key) := by
  rw [h, itemsOf_merge]
  exact SameClocks.keepMax _

theorem Holds.list (h : c.Holds key) {newest merged : SSTable} {rest : List SSTable}
    (hsel : c.merging = .selected (newest :: rest))
    (hentries : merged.entries = merge (newest :: rest))
    (hfresh : ∀ t, c.Uses t → t.id ≠ merged.id) :
    Holds { c with live := insert merged c.live
                   merging := .listed (newest :: rest) merged } key where
  visible := h.visible
  live_mem := by
    have hrun := h.run_mem
    rw [hsel] at hrun
    rintro t (rfl | ht) w hw
    · exact hrun w ((sameClocks_merge hentries key).mem w hw)
    · exact h.live_mem t ht w hw
  live_covers := fun w hw => by
    obtain ⟨t, ht, hcov⟩ := h.live_covers w hw
    exact ⟨t, Or.inr ht, hcov⟩
  run_mem := by
    have hrun := h.run_mem
    rw [hsel] at hrun
    exact hrun
  listed := by
    rintro run m hm
    cases hm
    refine ⟨Or.inl rfl, fun hmem => ?_, hentries⟩
    refine hfresh merged (Or.inr (Or.inr (Or.inr ?_))) rfl
    rw [hsel]
    exact hmem
  unlisted := nofun

/-- The merged table covers what the run covered. -/
theorem Holds.unlist (h : c.Holds key) {run : List SSTable} {merged : SSTable}
    (hlisted : c.merging = .listed run merged) :
    Holds { c with live := c.live \ {t | t ∈ run}, merging := .unlisted run merged } key where
  visible := h.visible
  live_mem := fun t ht => h.live_mem t ht.1
  live_covers := by
    obtain ⟨hlive, hnot, hentries⟩ := h.listed run merged hlisted
    intro w hw
    obtain ⟨t, ht, hcov⟩ := h.live_covers w hw
    by_cases hrun : t ∈ run
    · refine ⟨merged, ⟨hlive, hnot⟩, (sameClocks_merge hentries key).covers_iff.mpr ?_⟩
      exact hcov.mono fun v hv => mem_tableItems.mpr ⟨t, hrun, hv⟩
    · exact ⟨t, ⟨ht, hrun⟩, hcov⟩
  run_mem := by
    have hrun := h.run_mem
    rw [hlisted] at hrun
    exact hrun
  listed := nofun
  unlisted := by
    rintro run' m hm
    cases hm
    exact (h.listed run merged hlisted).2.2

theorem Holds.swap (h : c.Holds key) {run front back : List SSTable} {merged : SSTable}
    (hunlisted : c.merging = .unlisted run merged) (hvis : c.visible = front ++ run ++ back) :
    Holds { c with visible := front ++ merged :: back, merging := .none } key :=
  { h.abandon with
    visible := by
      refine SameClocks.trans ?_ h.visible
      rw [hvis, tableItems_append, tableItems_cons, tableItems_append, tableItems_append,
        List.append_assoc]
      exact (SameClocks.refl _).append
        ((sameClocks_merge (h.unlisted run merged hunlisted) key).append (SameClocks.refl _)) }

theorem Holds.reload (h : c.Holds key) {tables : List SSTable}
    (hmem : ∀ t, t ∈ tables ↔ t ∈ c.live) :
    Holds { c with visible := tables, merging := .none } key :=
  { h.abandon with
    visible := by
      constructor
      · intro w hw
        obtain ⟨t, ht, hw⟩ := mem_tableItems.mp hw
        exact h.live_mem t ((hmem t).mp ht) w hw
      · intro w hw
        obtain ⟨t, ht, v, hv, hle⟩ := h.live_covers w hw
        exact ⟨v, mem_tableItems.mpr ⟨t, (hmem t).mpr ht, hv⟩, hle⟩ }

/-- No step of the catalog loses a clock. -/
theorem holds_step {ok : List SSTable → List SSTable → Prop} {c' : Catalog} (h : c.Holds key)
    (hstep : c.Step ok c') : c'.Holds key := by
  cases hstep with
  | stay => exact h
  | register sst => exact h.register sst
  | select front run back hne hok hvis => exact h.select hvis
  | list newest rest merged hsel hstamp hentries hfresh => exact h.list hsel hentries hfresh
  | unlist run merged hlisted => exact h.unlist hlisted
  | swap run merged front back hunlisted hvis => exact h.swap hunlisted hvis
  | abandon => exact h.abandon
  | reload tables hmem => exact h.reload hmem

end Catalog

namespace TableStore

variable {fileSize : List Entry → Nat} {hist : List SSTable} {s : TableStore}

theorem holds_create (key : String) : (catalog [] create).Holds key where
  visible := SameClocks.refl _
  live_mem := by
    rintro t ⟨-, hfile⟩
    simp [create] at hfile
  live_covers := by simp [catalog]
  run_mem := by simp [catalog, create, CompactPhase.merging, Merging.run]
  listed := nofun
  unlisted := nofun

theorem holds_of_run (h : Run fileSize AllOrNothing hist s) (key : String) :
    LiveInv hist s ∧ (catalog hist s).Holds key := by
  induction h with
  | start => exact ⟨liveInv_create, holds_create key⟩
  | step hrun ha hstep ih =>
    have hstep' := step_sound hstep
    have hcatalog : Catalog.Step (fun _ _ => True) _ _ :=
      catalog_step ih.1 ha hstep' fun _ _ _ _ => trivial
    exact ⟨liveInv_step ih.1 ha hstep', Catalog.holds_step ih.2 hcatalog⟩

/-- What readers see of the tables, and what an Open loads, covers exactly what the
registered tables cover, with versions of theirs; and the Open succeeds. -/
theorem sameClocks_of_run (h : Run fileSize AllOrNothing hist s) (key : String) :
    SameClocks (tableItems s.visibleTables key) (tableItems hist key) ∧
    ∃ tables, loadLiveSSTables s.manifest s.files = .ok tables ∧
      SameClocks (tableItems tables key) (tableItems hist key) := by
  obtain ⟨hinv, hholds⟩ := holds_of_run h key
  obtain ⟨tables, hload, hlive, -⟩ := loadLiveSSTables_spec hinv
  exact ⟨hholds.visible, tables, hload, (hholds.reload hlive).visible⟩

end TableStore

end DistributedKV
