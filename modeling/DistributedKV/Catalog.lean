import DistributedKV.TableStore

/-!
# The live tables as a set

When every MANIFEST append is all or nothing, the bytes of the MANIFEST, the files and
the phases of `TableStore` come down to a catalog : the tables registered so far, the set
of live tables, the tables readers see, and how far a compaction has got. `Catalog.Step`
says what can happen to it, and `catalog_step` that every step of the store is one of
these, or none. Invariants about what readers see are proved on the catalog.

Stamps order the IDs as the engine sorts them (`stampOf_le_of_le`), so a reload gives the
live tables in non-increasing order of their stamps (`loadLiveSSTables_spec`).
-/

namespace DistributedKV

/-! ## Stamps and the order of IDs -/

/-- The timestamp inside an ID. -/
def stampOf (id : String) : Nat :=
  ((id.toList.drop 4).take 19).foldl (fun n c => 10 * n + (c.toNat - 48)) 0

theorem foldl_digits : ∀ {width n : Nat} (acc : Nat), n < 10 ^ width →
    (digits width n).foldl (fun n c => 10 * n + (c.toNat - 48)) acc = acc * 10 ^ width + n
  | 0, n, acc, h => by
    simp only [pow_zero, Nat.lt_one_iff] at h
    simp [digits, h]
  | width + 1, n, acc, h => by
    have hdiv : n / 10 < 10 ^ width := by omega
    rw [digits, List.foldl_append, foldl_digits acc hdiv]
    simp only [List.foldl_cons, List.foldl_nil]
    rw [Nat.toNat_digitChar_of_lt_ten (Nat.mod_lt _ (by omega)), pow_succ]
    have := Nat.div_add_mod n 10
    rw [Nat.mul_add, ← Nat.mul_assoc, Nat.mul_comm 10 acc, Nat.mul_assoc, Nat.mul_comm 10 (10 ^ width)]
    omega

theorem take_drop_name {d : List Char} (hd : d.length = 19) (rest : List Char) :
    ((['s', 's', 't', '_'] ++ d ++ rest).drop 4).take 19 = d := by
  rw [List.append_assoc]
  change (d ++ rest).take 19 = d
  rw [← hd, List.take_left]

theorem stampOf_tableID {ts : Nat} (h : ts < 10 ^ 19) (n : Nat) : stampOf (tableID ts n) = ts := by
  rw [stampOf, toList_tableID, take_drop_name (length_digits 19 ts), foldl_digits 0 h, Nat.zero_mul,
    Nat.zero_add]

theorem digitChar_lt {a b : Nat} (hab : a < b) (hb : b < 10) :
    Nat.digitChar a < Nat.digitChar b := by
  rw [Char.lt_def, UInt32.lt_iff_toNat_lt]
  have ha' := Nat.toNat_digitChar_of_lt_ten (hab.trans hb)
  have hb' := Nat.toNat_digitChar_of_lt_ten hb
  simp only [Char.toNat] at ha' hb'
  omega

/-- Numbers of one width are ordered as their digits are, whatever follows. -/
theorem digits_append_lt : ∀ {width a b : Nat}, a < b → b < 10 ^ width → ∀ x y : List Char,
    digits width a ++ x < digits width b ++ y
  | 0, a, b, hab, hb, _, _ => by
    simp only [pow_zero] at hb
    omega
  | width + 1, a, b, hab, hb, x, y => by
    rw [digits, digits, List.append_assoc, List.append_assoc]
    rcases Nat.lt_or_ge (a / 10) (b / 10) with hlt | hge
    · exact digits_append_lt hlt (by omega) _ _
    · have heq : a / 10 = b / 10 := by omega
      rw [heq]
      refine List.append_left_lt (List.cons_lt_cons_iff.mpr (Or.inl (digitChar_lt ?_ ?_)))
      · omega
      · exact Nat.mod_lt _ (by omega)

/-- IDs that sort no later have no later stamps. -/
theorem stampOf_le_of_le {ts ts' n n' : Nat} (hts : ts < 10 ^ 19)
    (h : tableID ts n ≤ tableID ts' n') : ts ≤ ts' := by
  by_contra hlt
  have hstr : tableID ts' n' < tableID ts n := by
    rw [String.lt_iff, toList_tableID, toList_tableID, List.append_assoc, List.append_assoc]
    exact List.append_left_lt (digits_append_lt (by omega) hts _ _)
  exact absurd h (not_le_of_gt hstr)

theorem NamedBy.stampOf_le {clock n : Nat} {id : String} (h : NamedBy clock n id) :
    stampOf id ≤ clock := by
  obtain ⟨ts, rfl, hts, hc⟩ := h
  rw [stampOf_tableID hts]
  exact hc

/-! ## All or nothing -/

/-- A text of complete lines that can be replayed. -/
structure Clean (file : List Char) : Prop where
  start : AtLineStart file
  opens : ∃ live, replay file = .ok live

theorem clean_nil : Clean [] :=
  ⟨Or.inl rfl, ∅, rfl⟩

theorem atLineStart_append_bytes {file : List Char} (h : AtLineStart file) (c : Call) :
    AtLineStart (file ++ c.bytes) := by
  by_cases hc : c = .remove []
  · subst hc
    simpa [Call.bytes] using h
  · right
    rw [Call.bytes_eq hc]
    simp

section Clean

variable {file : List Char} {c : Call}

/-- A call that writes all of its line or nothing of it. -/
theorem Clean.append (h : Clean file) (hc : c.Valid) {written : Nat}
    (hw : c.bytes.length ≤ written ∨ written = 0) : Clean (file ++ c.bytes.take written) := by
  obtain ⟨live, hlive⟩ := h.opens
  refine ⟨?_, _, replay_call h.start hlive hc written⟩
  rcases hw with hw | rfl
  · rw [List.take_of_length_le hw]
    exact atLineStart_append_bytes h.start c
  · simpa using h.start

theorem Clean.listed_call (h : Clean file) (hc : c.Valid) {written : Nat}
    (hw : c.bytes.length ≤ written) {x : String} :
    Listed (file ++ c.bytes.take written) x ↔ ∃ live, replay file = .ok live ∧ x ∈ c.apply live := by
  obtain ⟨live, hlive⟩ := h.opens
  have hcall := replay_call h.start hlive hc written
  rw [if_pos hw] at hcall
  simp [Listed, hcall, hlive]

theorem Clean.listed_add (h : Clean file) {id x : String} (hid : ValidID id) {written : Nat}
    (hw : (Call.add id).bytes.length ≤ written) :
    Listed (file ++ (Call.add id).bytes.take written) x ↔ Listed file x ∨ x = id := by
  rw [h.listed_call (c := .add id) hid hw]
  obtain ⟨live, hlive⟩ := h.opens
  simp only [Listed, hlive, Except.ok.injEq, exists_eq_left', Call.apply,
    Std.ExtTreeSet.mem_insert, Std.compare_eq_iff_eq, eq_comm (a := id)]
  exact or_comm

theorem Clean.listed_remove (h : Clean file) {ids : List String} {x : String}
    (hids : ∀ id ∈ ids, ValidID id) {written : Nat}
    (hw : (Call.remove ids).bytes.length ≤ written) :
    Listed (file ++ (Call.remove ids).bytes.take written) x ↔ Listed file x ∧ x ∉ ids := by
  rw [h.listed_call (c := .remove ids) hids hw]
  obtain ⟨live, hlive⟩ := h.opens
  simp [Listed, hlive, Call.apply, mem_foldl_erase]

end Clean

namespace TableStore

/-- A MANIFEST call writes its whole line and returns nil, or writes nothing and fails. -/
def AllOrNothing (s : TableStore) (a : TableAct) : Prop :=
  ∀ call ∈ s.manifestCall a, if call.2.2 then call.1.bytes.length ≤ call.2.1 else call.2.1 = 0

instance (s : TableStore) (a : TableAct) : Decidable (s.AllOrNothing a) :=
  inferInstanceAs (Decidable (∀ call ∈ s.manifestCall a, _))

theorem AllOrNothing.written {s : TableStore} {a : TableAct} (h : s.AllOrNothing a)
    {c : Call} {written : Nat} {ok : Bool} (hcall : s.manifestCall a = some (c, written, ok)) :
    (ok = true ∧ c.bytes.length ≤ written) ∨ (ok = false ∧ written = 0) := by
  have := h (c, written, ok) hcall
  cases ok with
  | true => exact Or.inl ⟨rfl, by simpa using this⟩
  | false => exact Or.inr ⟨rfl, by simpa using this⟩

section Calls

variable {s : TableStore} {run : List SSTable} {sst merged : SSTable} {written : Nat} {ok : Bool}

theorem AllOrNothing.flushAdd (h : s.AllOrNothing (.flushAdd written ok))
    (hf : s.flush = .written sst) :
    (ok = true ∧ (Call.add sst.id).bytes.length ≤ written) ∨ (ok = false ∧ written = 0) :=
  h.written (by simp [manifestCall, hf])

theorem AllOrNothing.compactAdd (h : s.AllOrNothing (.compactAdd written ok))
    (hc : s.compact = .written run merged) :
    (ok = true ∧ (Call.add merged.id).bytes.length ≤ written) ∨ (ok = false ∧ written = 0) :=
  h.written (by simp [manifestCall, hc])

theorem AllOrNothing.compactRemove (h : s.AllOrNothing (.compactRemove written ok))
    (hc : s.compact = .added run merged) :
    (ok = true ∧ (Call.remove (run.map SSTable.id)).bytes.length ≤ written) ∨
      (ok = false ∧ written = 0) :=
  h.written (by simp [manifestCall, hc])

end Calls

theorem AllOrNothing.noOrphanedLine {s : TableStore} {a : TableAct} (h : s.AllOrNothing a) :
    s.NoOrphanedLine a := by
  refine ⟨fun call hcall hok => by simpa [hok] using h call hcall, ?_⟩
  unfold leavesOrphan
  split
  · next written =>
    split
    · next run merged hc =>
      have := h (.add merged.id, written, false) (by simp [manifestCall, hc])
      have hpos : 0 < (Call.add merged.id).bytes.length := by simp [Call.bytes, Call.line]
      simp only [Bool.false_eq_true, if_false] at this
      simpa [this] using List.length_pos_iff.mp hpos
    · rfl
  · rfl

end TableStore

/-! ## The catalog -/

/-- How far a compaction has got with its run. -/
inductive Merging
  | none
  | selected (run : List SSTable)
  /-- The merged table is live beside its run. -/
  | listed (run : List SSTable) (merged : SSTable)
  /-- The merged table is live instead of its run; readers still use the run. -/
  | unlisted (run : List SSTable) (merged : SSTable)

def Merging.run : Merging → List SSTable
  | .none => []
  | .selected run | .listed run _ | .unlisted run _ => run

/-- The tables registered so far and those readers see, newest first, and the set of live
ones. -/
structure Catalog where
  history : List SSTable
  live : Set SSTable
  visible : List SSTable
  merging : Merging

namespace Catalog

/-- A table the catalog knows. -/
def Uses (c : Catalog) (t : SSTable) : Prop :=
  t ∈ c.history ∨ t ∈ c.live ∨ t ∈ c.visible ∨ t ∈ c.merging.run

/-- What can happen to a catalog. `ok front run` is asked of a selected run and the tables
in front of it. -/
inductive Step (ok : List SSTable → List SSTable → Prop) (c : Catalog) : Catalog → Prop
  | stay : Step ok c c
  | register (sst : SSTable) (hstamp : ∀ t, c.Uses t → stampOf t.id < stampOf sst.id) :
      Step ok c { c with
        history := sst :: c.history, live := insert sst c.live, visible := sst :: c.visible }
  | select (front run back : List SSTable) (hne : run ≠ []) (hok : ok front run)
      (hvis : c.visible = front ++ run ++ back) :
      Step ok c { c with merging := .selected run }
  | list (newest : SSTable) (rest : List SSTable) (merged : SSTable)
      (h : c.merging = .selected (newest :: rest)) (hstamp : stampOf merged.id = stampOf newest.id)
      (hentries : merged.entries = merge (newest :: rest))
      (hfresh : ∀ t, c.Uses t → t.id ≠ merged.id) :
      Step ok c { c with
        live := insert merged c.live, merging := .listed (newest :: rest) merged }
  | unlist (run : List SSTable) (merged : SSTable) (h : c.merging = .listed run merged) :
      Step ok c { c with live := c.live \ {t | t ∈ run}, merging := .unlisted run merged }
  | swap (run : List SSTable) (merged : SSTable) (front back : List SSTable)
      (h : c.merging = .unlisted run merged) (hvis : c.visible = front ++ run ++ back) :
      Step ok c { c with visible := front ++ merged :: back, merging := .none }
  | abandon : Step ok c { c with merging := .none }
  | reload (tables : List SSTable) (hmem : ∀ t, t ∈ tables ↔ t ∈ c.live)
      (hsorted : tables.Pairwise fun t u => stampOf u.id ≤ stampOf t.id) :
      Step ok c { c with visible := tables, merging := .none }

end Catalog

/-! ## The catalog of a store -/

/-- A compaction as the catalog sees it. -/
def CompactPhase.merging : CompactPhase → Merging
  | .idle | .unregistered _ | .swapped _ => .none
  | .selected run | .written run _ => .selected run
  | .added run merged => .listed run merged
  | .removed run merged => .unlisted run merged

/-- The run and the merged table that is in use for it. -/
def CompactPhase.result : CompactPhase → Option (List SSTable × SSTable)
  | .idle | .selected _ | .unregistered _ | .swapped _ => none
  | .written run merged | .added run merged | .removed run merged => some (run, merged)

/-- The table a flush has written. -/
def FlushPhase.table : FlushPhase → Option SSTable
  | .idle | .started _ | .failed _ => none
  | .written sst | .registered sst => some sst

/-- The table a flush has registered and not yet prepended. -/
def FlushPhase.pending : FlushPhase → List SSTable
  | .idle | .started _ | .written _ | .failed _ => []
  | .registered sst => [sst]

namespace TableStore

/-- A table the MANIFEST lists, as its file has it. -/
def IsLive (s : TableStore) (t : SSTable) : Prop :=
  Listed s.manifest t.id ∧ s.files[t.id]? = some t

/-- The tables readers see, and in front of them one that is registered and about to be
prepended. -/
def visibleTables (s : TableStore) : List SSTable :=
  s.flush.pending ++ s.sstables

def catalog (hist : List SSTable) (s : TableStore) : Catalog :=
  { history := hist, live := {t | s.IsLive t}, visible := s.visibleTables
    merging := s.compact.merging }

/-- What holds between steps that write all of a MANIFEST line or nothing : the tables in
use are those of their files, a flush's table is newer than all others, and a merged table
is the fold of its run under the run's newest stamp. -/
structure LiveInv (hist : List SSTable) (s : TableStore) : Prop where
  filesInv : FilesInv s
  clean : Clean s.manifest
  hist_named : ∀ t ∈ hist, NamedBy s.clock 0 t.id
  table_file : ∀ t ∈ s.sstables, s.files[t.id]? = some t
  table_nodup : (s.sstables.map SSTable.id).Nodup
  flush_file : ∀ sst, s.flush.table = some sst → s.files[sst.id]? = some sst
  flush_newest : ∀ sst, s.flush.table = some sst →
    ∀ t ∈ s.sstables ++ s.compact.run, stampOf t.id < stampOf sst.id
  written_newest : ∀ sst, s.flush = .written sst →
    (∀ t ∈ hist, stampOf t.id < stampOf sst.id) ∧
      ∀ id, Listed s.manifest id → stampOf id < stampOf sst.id
  registered_listed : ∀ sst, s.flush = .registered sst → Listed s.manifest sst.id
  run_tables : ∀ t ∈ s.compact.merging.run, t ∈ s.sstables
  merged_fresh : ∀ m, s.compact.merged = some m → ∀ t ∈ s.sstables, t.id ≠ m.id
  result_spec : ∀ run m, s.compact.result = some (run, m) → s.files[m.id]? = some m ∧
    ∃ newest rest, run = newest :: rest ∧ stampOf m.id = stampOf newest.id ∧ m.entries = merge run
  swapped_gone : ∀ run, s.compact = .swapped run → ∀ t ∈ s.sstables, ∀ u ∈ run, t.id ≠ u.id

theorem liveInv_create : LiveInv [] create where
  filesInv := filesInv_create
  clean := clean_nil
  hist_named := by simp
  table_file := by simp [create]
  table_nodup := by simp [create]
  flush_file := by simp [create, FlushPhase.table]
  flush_newest := by simp [create, FlushPhase.table]
  written_newest := by simp [create]
  registered_listed := by simp [create]
  run_tables := by simp [create, CompactPhase.merging, Merging.run]
  merged_fresh := by simp [create]
  result_spec := by simp [create, CompactPhase.result]
  swapped_gone := by simp [create]

theorem getElem?_insert_of_ne {files : Files} {sst : SSTable} {id : String} (h : id ≠ sst.id) :
    (files.insert sst.id sst)[id]? = files[id]? := by
  rw [Std.ExtTreeMap.getElem?_insert, if_neg]
  rw [Std.compare_eq_iff_eq]
  exact h.symm

theorem getElem?_unlink_of_ne {files : Files} {sst : SSTable} {gone : Bool} {id : String}
    (h : id ≠ sst.id) : (unlink files sst gone)[id]? = files[id]? := by
  unfold unlink
  split
  · rw [Std.ExtTreeMap.getElem?_erase, if_neg]
    rw [Std.compare_eq_iff_eq]
    exact h.symm
  · rfl

/-- Only the listed files matter for which tables are live. -/
theorem isLive_congr {s s' : TableStore} (hm : s'.manifest = s.manifest)
    (hf : ∀ id, Listed s.manifest id → s'.files[id]? = s.files[id]?) (t : SSTable) :
    s'.IsLive t ↔ s.IsLive t := by
  unfold IsLive
  rw [hm]
  exact and_congr_right fun hl => by rw [hf _ hl]

theorem ne_id_of_stampOf_lt {t u : SSTable} (h : stampOf t.id < stampOf u.id) : t.id ≠ u.id :=
  fun he => absurd h (by rw [he]; exact lt_irrefl _)

section LiveInv

variable {hist : List SSTable} {s : TableStore}

@[simp] theorem append_zero (c : Call) : s.append c 0 = s.manifest := by
  simp [append]

theorem mem_files_of_some {files : Files} {id : String} {t : SSTable} (h : files[id]? = some t) :
    id ∈ files :=
  Std.ExtTreeMap.mem_iff_isSome_getElem?.mpr (by simp [h])

theorem FilesInv.flush_named (h : FilesInv s) {sst : SSTable} (hsst : s.flush.table = some sst) :
    NamedBy s.clock 0 sst.id := by
  cases hf : s.flush with
  | written t =>
    obtain rfl : t = sst := by simpa [hf, FlushPhase.table] using hsst
    exact (h.flush_file t hf).2.1
  | registered t =>
    obtain rfl : t = sst := by simpa [hf, FlushPhase.table] using hsst
    exact h.registered_named t hf
  | idle | started | failed => simp [hf, FlushPhase.table] at hsst

theorem CompactPhase.merged_of_result {phase : CompactPhase} {run : List SSTable} {m : SSTable}
    (h : phase.result = some (run, m)) : phase.merged = some m ∧ phase.merging.run = run := by
  cases phase <;>
    simp_all [CompactPhase.result, CompactPhase.merged, CompactPhase.merging, Merging.run]

/-- A new file, for a flush or left behind by one. -/
theorem LiveInv.newFile (h : LiveInv hist s) (sst : SSTable) {ts : Nat} (hid : sst.id = tableID ts 0)
    (hts : ValidStamp ts) (hclock : s.clock < ts) (phase : FlushPhase)
    (hphase : phase = .written sst ∨ phase = .failed sst.entries) :
    LiveInv hist { s with files := s.files.insert sst.id sst, flush := phase, clock := ts } := by
  have hnew : ∀ id ∈ s.files, id ≠ sst.id := fun id hmem => by
    obtain ⟨n, hn⟩ := h.filesInv.files_named id hmem
    exact hid ▸ hn.ne_flushID hts hclock
  have hstamp : stampOf sst.id = ts := by rw [hid, stampOf_tableID hts.2]
  have htable : ∀ t, phase.table = some t → t = sst := fun t ht => by
    rcases hphase with rfl | rfl
    · exact (Option.some.inj ht).symm
    · cases ht
  exact {
    filesInv := h.filesInv.newFile sst hid hts hclock phase hphase
    clean := h.clean
    hist_named := fun t ht => (h.hist_named t ht).mono hclock.le
    table_file := fun t ht => (getElem?_insert_of_ne (hnew _ (mem_files_of_some
      (h.table_file t ht)))).trans (h.table_file t ht)
    table_nodup := h.table_nodup
    flush_file := by
      intro t ht
      rw [htable t ht]
      exact Std.ExtTreeMap.getElem?_insert_self
    flush_newest := by
      intro t ht u hu
      obtain ⟨n, hn⟩ := h.filesInv.used_named u hu
      rw [htable t ht, hstamp]
      exact hn.stampOf_le.trans_lt hclock
    written_newest := by
      rintro t (ht : phase = .written t)
      rw [htable t (by rw [ht]; rfl), hstamp]
      refine ⟨fun u hu => (h.hist_named u hu).stampOf_le.trans_lt hclock, fun id hl => ?_⟩
      obtain ⟨n, hn⟩ := h.filesInv.files_named id (h.filesInv.listed_files id hl)
      exact hn.stampOf_le.trans_lt hclock
    registered_listed := by
      rintro t (ht : phase = .registered t)
      rcases hphase with rfl | rfl <;> cases ht
    run_tables := h.run_tables
    merged_fresh := h.merged_fresh
    result_spec := fun run m hm => by
      obtain ⟨hfile, hspec⟩ := h.result_spec run m hm
      exact ⟨(getElem?_insert_of_ne (hnew _ (mem_files_of_some hfile))).trans hfile, hspec⟩
    swapped_gone := h.swapped_gone }

/-- A flush enters a phase without a file. -/
theorem LiveInv.setFlush (h : LiveInv hist s) {phase : FlushPhase} {clock : Nat}
    (hphase : phase.table = none) (hclock : s.clock ≤ clock) :
    LiveInv hist { s with flush := phase, clock := clock } :=
  have hnot : ∀ sst, phase ≠ .written sst ∧ phase ≠ .registered sst := fun sst =>
    ⟨fun he => by simp [he, FlushPhase.table] at hphase,
      fun he => by simp [he, FlushPhase.table] at hphase⟩
  { h with
    filesInv := h.filesInv.setFlush (fun sst => (hnot sst).1) (fun sst => (hnot sst).2) hclock
    hist_named := fun t ht => (h.hist_named t ht).mono hclock
    flush_file := by simp [hphase]
    flush_newest := by simp [hphase]
    written_newest := fun sst hsst => absurd hsst (hnot sst).1
    registered_listed := fun sst hsst => absurd hsst (hnot sst).2 }

theorem LiveInv.flushAdd (h : LiveInv hist s) {sst : SSTable} (hsst : s.flush = .written sst)
    {written : Nat} (hw : (Call.add sst.id).bytes.length ≤ written) :
    LiveInv (sst :: hist) { s with
      manifest := s.append (.add sst.id) written, flush := .registered sst } := by
  have htable : s.flush.table = some sst := by rw [hsst]; rfl
  have hnamed := h.filesInv.flush_named htable
  exact { h with
    filesInv := h.filesInv.flushAdd hsst written true
    clean := h.clean.append (c := .add sst.id) hnamed.validID (Or.inl hw)
    hist_named := List.forall_mem_cons.mpr ⟨hnamed, h.hist_named⟩
    flush_file := by
      rintro t ⟨⟩
      exact h.flush_file sst htable
    flush_newest := by
      rintro t ⟨⟩
      exact h.flush_newest sst htable
    written_newest := by simp
    registered_listed := by
      rintro t ⟨⟩
      exact (h.clean.listed_add hnamed.validID hw).mpr (Or.inr rfl) }

theorem LiveInv.flushDone (h : LiveInv hist s) {sst : SSTable} (hsst : s.flush = .registered sst) :
    LiveInv hist { s with sstables := sst :: s.sstables, flush := .idle } := by
  have htable : s.flush.table = some sst := by rw [hsst]; rfl
  have hnewest := h.flush_newest sst htable
  exact { h with
    filesInv := h.filesInv.flushDone hsst
    table_file := List.forall_mem_cons.mpr ⟨h.flush_file sst htable, h.table_file⟩
    table_nodup := by
      rw [List.map_cons, List.nodup_cons]
      refine ⟨fun hmem => ?_, h.table_nodup⟩
      obtain ⟨t, ht, he⟩ := List.mem_map.mp hmem
      exact ne_id_of_stampOf_lt (hnewest t (List.mem_append_left _ ht)) he
    flush_file := by simp [FlushPhase.table]
    flush_newest := by simp [FlushPhase.table]
    written_newest := by simp
    registered_listed := by simp
    run_tables := fun t ht => List.mem_cons_of_mem _ (h.run_tables t ht)
    merged_fresh := by
      intro m hm
      obtain ⟨n, hn⟩ := h.filesInv.merged_named m hm
      exact List.forall_mem_cons.mpr
        ⟨(h.filesInv.flush_named htable).ne_of_compacted hn, h.merged_fresh m hm⟩
    swapped_gone := by
      intro run hrun
      refine List.forall_mem_cons.mpr ⟨fun u hu => ?_, h.swapped_gone run hrun⟩
      exact (ne_id_of_stampOf_lt (hnewest u (List.mem_append_right _ (by rwa [hrun])))).symm }

/-- A compaction enters a phase without a merged table. -/
theorem LiveInv.setCompact (h : LiveInv hist s) {phase : CompactPhase}
    (hfiles : FilesInv { s with compact := phase })
    (hrun : ∀ t ∈ phase.run, t ∈ s.sstables ++ s.compact.run)
    (htables : ∀ t ∈ phase.merging.run, t ∈ s.sstables) (hmerged : phase.merged = none)
    (hswapped : ∀ run, phase = .swapped run → ∀ t ∈ s.sstables, ∀ u ∈ run, t.id ≠ u.id) :
    LiveInv hist { s with compact := phase } :=
  { h with
    filesInv := hfiles
    flush_newest := fun sst hsst t ht => h.flush_newest sst hsst t (by
      rcases List.mem_append.mp ht with ht | ht
      · exact List.mem_append_left _ ht
      · exact hrun t ht)
    run_tables := htables
    merged_fresh := fun m hm => by simp [hmerged] at hm
    result_spec := fun run m hm => by simp [(CompactPhase.merged_of_result hm).1] at hmerged
    swapped_gone := hswapped }

theorem LiveInv.compactIdle (h : LiveInv hist s) (hfiles : FilesInv { s with compact := .idle }) :
    LiveInv hist { s with compact := .idle } :=
  h.setCompact hfiles (by simp [CompactPhase.run])
    (by simp [CompactPhase.merging, Merging.run]) rfl (by simp)

theorem stampOf_mergedTable (h : FilesInv s) {newest : SSTable} {rest : List SSTable}
    (hsel : s.compact = .selected (newest :: rest)) (fileSize : List Entry → Nat) :
    stampOf (mergedTable fileSize s.files (newest :: rest) newest).id = stampOf newest.id := by
  obtain ⟨n, ts, hid, hts, -⟩ := h.used_named newest (by simp [hsel, CompactPhase.run])
  obtain ⟨j, hj, -⟩ := compactedID_spec s.files (n := n) hts
  have hmerged : (mergedTable fileSize s.files (newest :: rest) newest).id =
      compactedID s.files (tableID ts n) := by
    rw [← hid]
    rfl
  rw [hmerged, hj, hid, stampOf_tableID hts, stampOf_tableID hts]

theorem LiveInv.mergedFile (h : LiveInv hist s) {newest : SSTable} {rest : List SSTable}
    (hsel : s.compact = .selected (newest :: rest)) (fileSize : List Entry → Nat) :
    LiveInv hist { s with
      files := s.files.insert (mergedTable fileSize s.files (newest :: rest) newest).id
        (mergedTable fileSize s.files (newest :: rest) newest)
      compact := .written (newest :: rest)
        (mergedTable fileSize s.files (newest :: rest) newest) } := by
  obtain ⟨hfree, n, hnamed⟩ := h.filesInv.mergedTable_named hsel fileSize
  have hstamp := stampOf_mergedTable h.filesInv hsel fileSize
  have hentries : (mergedTable fileSize s.files (newest :: rest) newest).entries =
    merge (newest :: rest) := rfl
  generalize mergedTable fileSize s.files (newest :: rest) newest = merged at *
  have hne : ∀ id ∈ s.files, id ≠ merged.id := fun id hid he => hfree (he ▸ hid)
  have hnewest := h.flush_newest
  have htables := h.run_tables
  rw [hsel] at hnewest htables
  exact { h with
    filesInv := h.filesInv.mergedFile hsel hfree hnamed
    table_file := fun t ht => (getElem?_insert_of_ne (hne _ (mem_files_of_some
      (h.table_file t ht)))).trans (h.table_file t ht)
    flush_file := fun sst hsst => (getElem?_insert_of_ne (hne _ (mem_files_of_some
      (h.flush_file sst hsst)))).trans (h.flush_file sst hsst)
    flush_newest := hnewest
    run_tables := htables
    merged_fresh := by
      rintro m ⟨⟩ t ht
      exact hne _ (mem_files_of_some (h.table_file t ht))
    result_spec := by
      rintro run m ⟨⟩
      exact ⟨Std.ExtTreeMap.getElem?_insert_self, newest, rest, rfl, hstamp, hentries⟩
    swapped_gone := by simp }

theorem LiveInv.compactAdd (h : LiveInv hist s) {run : List SSTable} {merged : SSTable}
    (hc : s.compact = .written run merged) {written : Nat}
    (hw : (Call.add merged.id).bytes.length ≤ written) :
    LiveInv hist { s with
      manifest := s.append (.add merged.id) written, compact := .added run merged } := by
  obtain ⟨n, hnamed⟩ := h.filesInv.merged_named merged (by simp [hc, CompactPhase.merged])
  obtain ⟨hfile, newest, rest, hrun, hstamp, hentries⟩ :=
    h.result_spec run merged (by simp [hc, CompactPhase.result])
  have hnewest := h.flush_newest
  have htables := h.run_tables
  rw [hc] at hnewest htables
  have hlisted : ∀ id, Listed (s.append (.add merged.id) written) id ↔
      Listed s.manifest id ∨ id = merged.id := fun id => h.clean.listed_add hnamed.validID hw
  exact { h with
    filesInv := h.filesInv.compactAdd hc written true (by simp)
    clean := h.clean.append (c := .add merged.id) hnamed.validID (Or.inl hw)
    flush_newest := hnewest
    written_newest := by
      intro sst hsst
      refine ⟨(h.written_newest sst hsst).1, fun id hl => ?_⟩
      rcases (hlisted id).mp hl with hl | rfl
      · exact (h.written_newest sst hsst).2 id hl
      · rw [hstamp]
        exact hnewest sst (by rw [hsst]; rfl) newest (by simp [CompactPhase.run, hrun])
    registered_listed := fun sst hsst => (hlisted _).mpr (Or.inl (h.registered_listed sst hsst))
    run_tables := htables
    merged_fresh := fun m hm => h.merged_fresh m (by rw [hc]; exact hm)
    result_spec := by
      rintro run' m ⟨⟩
      exact ⟨hfile, newest, rest, hrun, hstamp, hentries⟩
    swapped_gone := by simp }

/-- The failed Add left no line; the merged file is still to be deleted. -/
theorem LiveInv.compactAddFail (h : LiveInv hist s) {run : List SSTable} {merged : SSTable}
    (hc : s.compact = .written run merged) :
    LiveInv hist { s with compact := .unregistered merged } := by
  have hpos : 0 < (Call.add merged.id).bytes.length := by simp [Call.bytes, Call.line]
  have hfiles := h.filesInv.compactAdd hc 0 false (fun _ => hpos)
  simp only [append_zero, Bool.false_eq_true, if_false] at hfiles
  exact { h with
    filesInv := hfiles
    flush_newest := fun sst hsst t ht =>
      h.flush_newest sst hsst t (List.mem_append_left _ (by simpa [CompactPhase.run] using ht))
    run_tables := by simp [CompactPhase.merging, Merging.run]
    merged_fresh := fun m hm => h.merged_fresh m (by rw [hc]; exact hm)
    result_spec := by simp [CompactPhase.result]
    swapped_gone := by simp }

/-- Deleting a file that nothing in use has. -/
theorem LiveInv.unlinkFile (h : LiveInv hist s) {t : SSTable} {gone : Bool}
    (hfiles : FilesInv { s with files := unlink s.files t gone })
    (htables : ∀ u ∈ s.sstables, u.id ≠ t.id)
    (hflush : ∀ sst, s.flush.table = some sst → sst.id ≠ t.id) (hresult : s.compact.result = none) :
    LiveInv hist { s with files := unlink s.files t gone } :=
  { h with
    filesInv := hfiles
    table_file := fun u hu => (getElem?_unlink_of_ne (htables u hu)).trans (h.table_file u hu)
    flush_file := fun sst hsst => (getElem?_unlink_of_ne (hflush sst hsst)).trans
      (h.flush_file sst hsst)
    result_spec := fun run m hm => by simp [hresult] at hm }

theorem LiveInv.run_validID (h : LiveInv hist s) : ∀ id ∈ s.compact.run.map SSTable.id, ValidID id := by
  intro id hid
  obtain ⟨t, ht, rfl⟩ := List.mem_map.mp hid
  obtain ⟨n, hn⟩ := h.filesInv.used_named t (List.mem_append_right _ ht)
  exact hn.validID

theorem LiveInv.compactRemove (h : LiveInv hist s) {run : List SSTable} {merged : SSTable}
    (hc : s.compact = .added run merged) {written : Nat}
    (hw : (Call.remove (run.map SSTable.id)).bytes.length ≤ written) :
    LiveInv hist { s with
      manifest := s.append (.remove (run.map SSTable.id)) written
      compact := .removed run merged } := by
  have hids := h.run_validID
  have hnewest := h.flush_newest
  have htables := h.run_tables
  rw [hc] at hids hnewest htables
  have hlisted : ∀ id, Listed (s.append (.remove (run.map SSTable.id)) written) id ↔
      Listed s.manifest id ∧ id ∉ run.map SSTable.id := fun id => h.clean.listed_remove hids hw
  exact { h with
    filesInv := h.filesInv.compactRemove hc written true (fun _ => hw)
    clean := h.clean.append (c := .remove (run.map SSTable.id)) hids (Or.inl hw)
    flush_newest := hnewest
    written_newest := fun sst hsst =>
      (h.written_newest sst hsst).imp_right fun hlt id hl => hlt id ((hlisted id).mp hl).1
    registered_listed := by
      intro sst hsst
      refine (hlisted _).mpr ⟨h.registered_listed sst hsst, fun hmem => ?_⟩
      obtain ⟨t, ht, he⟩ := List.mem_map.mp hmem
      exact ne_id_of_stampOf_lt
        (hnewest sst (by rw [hsst]; rfl) t (List.mem_append_right _ ht)) he
    run_tables := htables
    merged_fresh := fun m hm => h.merged_fresh m (by rw [hc]; exact hm)
    result_spec := fun run m hm => h.result_spec run m (by rw [hc]; exact hm)
    swapped_gone := by simp }

theorem LiveInv.compactSwap (h : LiveInv hist s) {run front back : List SSTable} {merged : SSTable}
    (hc : s.compact = .removed run merged) (htables : s.sstables = front ++ run ++ back)
    (hfiles : FilesInv { s with sstables := front ++ merged :: back, compact := .swapped run }) :
    LiveInv hist { s with sstables := front ++ merged :: back, compact := .swapped run } := by
  obtain ⟨hfile, newest, rest, hrun, hstamp, -⟩ :=
    h.result_spec run merged (by simp [hc, CompactPhase.result])
  have hfresh := h.merged_fresh merged (by simp [hc, CompactPhase.merged])
  have hnewest := h.flush_newest
  have hnodup := h.table_nodup
  rw [hc] at hnewest
  rw [htables] at hnodup hfresh hnewest
  have hmem : ∀ t ∈ front ++ merged :: back, t = merged ∨ (t ∈ front ∨ t ∈ back) := by
    intro t ht
    simp only [List.mem_append, List.mem_cons] at ht
    tauto
  have hkept : ∀ t, t ∈ front ∨ t ∈ back → t ∈ front ++ run ++ back := by
    intro t ht
    simp only [List.mem_append]
    tauto
  exact { h with
    filesInv := hfiles
    table_file := by
      intro t ht
      rcases hmem t ht with rfl | ht
      · exact hfile
      · exact h.table_file t (htables ▸ hkept t ht)
    table_nodup := by
      rw [List.map_append, List.map_cons, List.nodup_middle, List.nodup_cons, ← List.map_append]
      constructor
      · intro hmem
        obtain ⟨t, ht, he⟩ := List.mem_map.mp hmem
        exact hfresh t (hkept t (List.mem_append.mp ht)) he
      · refine hnodup.sublist (List.Sublist.map _ ?_)
        exact (List.sublist_append_left front run).append (List.Sublist.refl back)
    flush_newest := by
      intro sst hsst t ht
      rcases List.mem_append.mp ht with ht | ht
      · rcases hmem t ht with rfl | ht
        · rw [hstamp]
          exact hnewest sst hsst newest
            (List.mem_append_right _ (hrun ▸ List.mem_cons_self))
        · exact hnewest sst hsst t (List.mem_append_left _ (hkept t ht))
      · exact hnewest sst hsst t (List.mem_append_right _ ht)
    run_tables := by simp [CompactPhase.merging, Merging.run]
    merged_fresh := by simp [CompactPhase.merged]
    result_spec := by simp [CompactPhase.result]
    swapped_gone := by
      rintro _ ⟨⟩ t ht u hu
      rcases hmem t ht with rfl | ht
      · exact (hfresh u (by simp [hu])).symm
      · -- the IDs of `front ++ run ++ back` are distinct
        intro he
        simp only [List.map_append, List.nodup_append, List.mem_append, List.mem_map] at hnodup
        rcases ht with ht | ht
        · exact hnodup.1.2.2 _ ⟨t, ht, rfl⟩ _ ⟨u, hu, rfl⟩ he
        · exact hnodup.2.2 _ (Or.inr ⟨u, hu, rfl⟩) _ ⟨t, ht, rfl⟩ he.symm }

/-! ## Loading the live tables -/

/-- IDs that all have a file load to their tables. -/
theorem loadTables_eq_ok {files : Files}
    (hid : ∀ (id : String) (t : SSTable), files[id]? = some t → t.id = id) :
    ∀ {ids : List String}, (∀ id ∈ ids, id ∈ files) → ∃ tables, loadTables files ids = .ok tables ∧
      tables.map SSTable.id = ids ∧ ∀ t ∈ tables, files[t.id]? = some t
  | [], _ => ⟨[], rfl, rfl, by simp⟩
  | id :: ids, h => by
    obtain ⟨t, ht⟩ := Option.isSome_iff_exists.mp
      (Std.ExtTreeMap.mem_iff_isSome_getElem?.mp (h id List.mem_cons_self))
    obtain ⟨tables, hload, hmap, hfiles⟩ :=
      loadTables_eq_ok hid fun id' hid' => h id' (List.mem_cons_of_mem _ hid')
    refine ⟨t :: tables, ?_, ?_, ?_⟩
    · simp [loadTables, ht, hload, Except.map]
    · rw [List.map_cons, hid id t ht, hmap]
    · exact List.forall_mem_cons.mpr ⟨by rw [hid id t ht, ht], hfiles⟩

/-- An Open succeeds and loads exactly the live tables, in non-increasing order of their
stamps. -/
theorem loadLiveSSTables_spec (h : LiveInv hist s) : ∃ tables,
    loadLiveSSTables s.manifest s.files = .ok tables ∧ (∀ t, t ∈ tables ↔ s.IsLive t) ∧
    (tables.map SSTable.id).Nodup ∧ tables.Pairwise fun t u => stampOf u.id ≤ stampOf t.id := by
  obtain ⟨live, hlive⟩ := h.clean.opens
  set ids := (live.toList.insertionSort (· ≤ ·)).reverse with hids
  have hmem : ∀ id, id ∈ ids ↔ Listed s.manifest id := by
    intro id
    rw [hids, List.mem_reverse, List.mem_insertionSort, Std.ExtTreeSet.mem_toList]
    simp [Listed, hlive]
  have hnd : ids.Nodup := by
    rw [hids, List.nodup_reverse, (List.perm_insertionSort _ _).nodup_iff]
    exact live.distinct_toList.imp fun hne he => hne (Std.compare_eq_iff_eq.mpr he)
  have hsorted : ids.Pairwise fun a b => b ≤ a := by
    rw [hids, List.pairwise_reverse]
    exact List.pairwise_insertionSort _ _
  have hall : ∀ id ∈ ids, id ∈ s.files := fun id hid => h.filesInv.listed_files id ((hmem id).mp hid)
  obtain ⟨tables, hload, hmap, hfiles⟩ := loadTables_eq_ok h.filesInv.files_id hall
  refine ⟨tables, ?_, fun t => ⟨fun ht => ⟨?_, hfiles t ht⟩, fun ht => ?_⟩, hmap ▸ hnd, ?_⟩
  · rw [loadLiveSSTables, hlive]
    exact hload
  · exact (hmem _).mp (hmap ▸ List.mem_map_of_mem ht)
  · have hid : t.id ∈ tables.map SSTable.id := hmap ▸ (hmem _).mpr ht.1
    obtain ⟨u, hu, he⟩ := List.mem_map.mp hid
    have := hfiles u hu
    rw [he, ht.2] at this
    exact Option.some.inj this ▸ hu
  · rw [← hmap, List.pairwise_map] at hsorted
    refine hsorted.imp_of_mem fun {t u} ht hu hle => ?_
    obtain ⟨n, ts, hid, hts, -⟩ := h.filesInv.files_named t.id (mem_files_of_some (hfiles t ht))
    obtain ⟨n', ts', hid', hts', -⟩ := h.filesInv.files_named u.id (mem_files_of_some (hfiles u hu))
    rw [hid, hid'] at hle ⊢
    rw [stampOf_tableID hts, stampOf_tableID hts']
    exact stampOf_le_of_le hts' hle

theorem LiveInv.reopen (h : LiveInv hist s) {tables : List SSTable}
    (hload : loadLiveSSTables s.manifest s.files = .ok tables) :
    LiveInv hist { s with sstables := tables, flush := .idle, compact := .idle } := by
  obtain ⟨tables', hload', hlive, hnd, -⟩ := loadLiveSSTables_spec h
  obtain rfl : tables' = tables := by simpa [hload'] using hload
  exact { h with
    filesInv := h.filesInv.reopen hload
    table_file := fun t ht => ((hlive t).mp ht).2
    table_nodup := hnd
    flush_file := by simp [FlushPhase.table]
    flush_newest := by simp [FlushPhase.table]
    written_newest := by simp
    registered_listed := by simp
    run_tables := by simp [CompactPhase.merging, Merging.run]
    merged_fresh := by simp [CompactPhase.merged]
    result_spec := by simp [CompactPhase.result]
    swapped_gone := by simp }

/-- A selected run is in use. -/
theorem mem_of_selected {run : List SSTable} (hrun : selectTierForCompaction s.sstables = run) :
    ∀ t ∈ run, t ∈ s.sstables := by
  intro t ht
  rcases selectTierForCompaction_infix s.sstables with hnil | ⟨hin, -⟩
  · simp [← hrun, hnil] at ht
  · exact hin.subset (hrun ▸ ht)

/-- The flush's table is none a compaction deletes. -/
theorem LiveInv.flush_ne_doomed (h : LiveInv hist s) {sst t : SSTable}
    (hsst : s.flush.table = some sst) (ht : t ∈ s.compact.doomed) : sst.id ≠ t.id := by
  rcases mem_doomed ht with ht | ht
  · exact (ne_id_of_stampOf_lt (h.flush_newest sst hsst t (List.mem_append_right _ ht))).symm
  · obtain ⟨n, hn⟩ := h.filesInv.merged_named t ht
    exact (h.filesInv.flush_named hsst).ne_of_compacted hn

theorem liveInv_step {fileSize : List Entry → Nat} {s' : TableStore} {a : TableAct}
    (h : LiveInv hist s) (ha : s.AllOrNothing a) (hstep : Step fileSize s a s') :
    LiveInv (s.recordFlush hist a) s' := by
  have hfiles := filesInv_step h.filesInv ha.noOrphanedLine hstep
  cases hstep with
  | flushStart => exact h.setFlush rfl le_rfl
  | flushWrite entries ts hf hw hts hclock =>
    exact h.newFile ⟨flushID ts, entries, fileSize entries⟩ (flushID_eq_tableID ts) hts hclock _
      (Or.inl rfl)
  | flushWriteFail entries ts left hf hts hclock =>
    cases left with
    | false => exact h.setFlush rfl hclock.le
    | true =>
      exact h.newFile ⟨flushID ts, entries, fileSize entries⟩ (flushID_eq_tableID ts) hts hclock _
        (Or.inr rfl)
  | flushAdd sst written ok hf =>
    rcases ha.flushAdd hf with ⟨rfl, hw⟩ | ⟨rfl, rfl⟩
    · simp only [recordFlush, hf, if_true]
      exact h.flushAdd hf hw
    · simp only [append_zero, Bool.false_eq_true, if_false]
      exact h.setFlush rfl le_rfl
  | flushDone sst hf => exact h.flushDone hf
  | flushPutBack => exact h.setFlush rfl le_rfl
  | compactSelect newest rest hc hrun =>
    have hmem := mem_of_selected hrun
    exact h.setCompact hfiles (fun t ht => List.mem_append_left _ (hmem t ht)) hmem rfl (by simp)
  | compactWrite newest rest hc => exact h.mergedFile hc fileSize
  | compactWriteFail newest rest left hc =>
    cases left with
    | false => exact h.compactIdle hfiles
    | true => exact (h.mergedFile hc fileSize).compactIdle hfiles
  | compactAdd run merged written ok hc =>
    rcases ha.compactAdd hc with ⟨rfl, hw⟩ | ⟨rfl, rfl⟩
    · exact h.compactAdd hc hw
    · simp only [append_zero, Bool.false_eq_true, if_false]
      exact h.compactAddFail hc
  | compactUnlink merged gone hc =>
    have hdoomed : merged ∈ s.compact.doomed := by simp [hc, CompactPhase.doomed]
    exact (h.unlinkFile (h.filesInv.unlinkDoomed hdoomed gone (by simp [hc]))
      (h.merged_fresh merged (by simp [hc, CompactPhase.merged]))
      (fun sst hsst => h.flush_ne_doomed hsst hdoomed)
      (by simp [hc, CompactPhase.result])).compactIdle hfiles
  | compactRemove run merged written ok hc =>
    rcases ha.compactRemove hc with ⟨rfl, hw⟩ | ⟨rfl, rfl⟩
    · exact h.compactRemove hc hw
    · simp only [append_zero, Bool.false_eq_true, if_false] at hfiles ⊢
      exact h.compactIdle hfiles
  | compactSwap run merged swapped hc hswap =>
    obtain ⟨front, back, htables, rfl⟩ := replaceRun_eq_some hswap
    exact h.compactSwap hc htables hfiles
  | compactNoSwap | compactDone => exact h.compactIdle hfiles
  | compactDelete src rest gone hc =>
    have hdoomed : src ∈ s.compact.doomed := by simp [hc, CompactPhase.doomed]
    have hgone := h.swapped_gone _ hc
    refine (h.unlinkFile (h.filesInv.unlinkDoomed hdoomed gone (by simp [hc]))
      (fun u hu => hgone u hu src List.mem_cons_self)
      (fun sst hsst => h.flush_ne_doomed hsst hdoomed)
      (by simp [hc, CompactPhase.result])).setCompact hfiles (fun t ht => ?_)
      (by simp [CompactPhase.merging, Merging.run]) rfl ?_
    · exact List.mem_append_right _ (by simpa [hc, CompactPhase.run] using Or.inr ht)
    · rintro _ ⟨⟩ t ht u hu
      exact hgone t ht u (List.mem_cons_of_mem _ hu)
  | reopen tables hload => exact h.reopen hload

/-! ## Every step is a step of the catalog -/

variable {ok : List SSTable → List SSTable → Prop}

theorem catalog_eq {live : Set SSTable} {visible : List SSTable} {merging : Merging}
    {s' : TableStore} (hlive : ∀ t, s'.IsLive t ↔ t ∈ live) (hvisible : s'.visibleTables = visible)
    (hmerging : s'.compact.merging = merging) :
    catalog hist s' = ⟨hist, live, visible, merging⟩ := by
  have hset : {t | s'.IsLive t} = live := Set.ext hlive
  rw [catalog, hset, hvisible, hmerging]

/-- The catalog sees nothing of a step that changes neither what is live, nor what is
visible, nor how far the compaction is. -/
theorem catalog_stay {s' : TableStore} (hlive : ∀ t, s'.IsLive t ↔ s.IsLive t)
    (hvisible : s'.visibleTables = s.visibleTables)
    (hmerging : s'.compact.merging = s.compact.merging) :
    (catalog hist s).Step ok (catalog hist s') := by
  have heq : catalog hist s' = catalog hist s := catalog_eq hlive hvisible hmerging
  rw [heq]
  exact .stay

theorem catalog_abandon {s' : TableStore} (hlive : ∀ t, s'.IsLive t ↔ s.IsLive t)
    (hvisible : s'.visibleTables = s.visibleTables)
    (hmerging : s'.compact.merging = .none) : (catalog hist s).Step ok (catalog hist s') := by
  have heq : catalog hist s' = { catalog hist s with merging := .none } :=
    catalog_eq hlive hvisible hmerging
  rw [heq]
  exact .abandon

/-- A file under a name that is not listed does not matter. -/
theorem isLive_insert (h : LiveInv hist s) (sst : SSTable) (hfree : sst.id ∉ s.files)
    {s' : TableStore} (hm : s'.manifest = s.manifest) (hf : s'.files = s.files.insert sst.id sst)
    (t : SSTable) : s'.IsLive t ↔ s.IsLive t :=
  isLive_congr hm (fun id hl => by
    rw [hf]
    exact getElem?_insert_of_ne fun he => hfree (he ▸ h.filesInv.listed_files id hl)) t

theorem isLive_unlink (h : LiveInv hist s) {doomed : SSTable} (hdoomed : doomed ∈ s.compact.doomed)
    {gone : Bool} {s' : TableStore} (hm : s'.manifest = s.manifest)
    (hf : s'.files = unlink s.files doomed gone) (t : SSTable) : s'.IsLive t ↔ s.IsLive t :=
  isLive_congr hm (fun id hl => by
    rw [hf]
    exact getElem?_unlink_of_ne fun he => h.filesInv.doomed_unlisted doomed hdoomed (he ▸ hl)) t

/-- A complete ADD line makes one more table live. -/
theorem isLive_add (h : LiveInv hist s) {sst : SSTable} (hid : ValidID sst.id)
    (hfile : s.files[sst.id]? = some sst) {written : Nat}
    (hw : (Call.add sst.id).bytes.length ≤ written) {s' : TableStore}
    (hm : s'.manifest = s.append (.add sst.id) written) (hf : s'.files = s.files) (t : SSTable) :
    s'.IsLive t ↔ t ∈ insert sst {t | s.IsLive t} := by
  rw [IsLive, hm, hf, append, h.clean.listed_add hid hw]
  constructor
  · rintro ⟨hl | he, ht⟩
    · exact Or.inr ⟨hl, ht⟩
    · rw [he, hfile] at ht
      exact Or.inl (Option.some.inj ht).symm
  · rintro (rfl | ⟨hl, ht⟩)
    · exact ⟨Or.inr rfl, hfile⟩
    · exact ⟨Or.inl hl, ht⟩

theorem FilesInv.flushID_free (h : FilesInv s) {ts : Nat} (hts : ValidStamp ts)
    (hclock : s.clock < ts) : flushID ts ∉ s.files := by
  intro hmem
  obtain ⟨n, hn⟩ := h.files_named _ hmem
  exact hn.ne_flushID hts hclock rfl

theorem LiveInv.uses_older (h : LiveInv hist s) {sst t : SSTable} (hsst : s.flush = .written sst)
    (ht : (catalog hist s).Uses t) : stampOf t.id < stampOf sst.id := by
  have hnewest := h.flush_newest sst (by rw [hsst]; rfl)
  rcases ht with ht | ht | ht | ht
  · exact (h.written_newest sst hsst).1 t ht
  · exact (h.written_newest sst hsst).2 _ ht.1
  · exact hnewest t (List.mem_append_left _ (by
      simpa [catalog, visibleTables, hsst, FlushPhase.pending] using ht))
  · exact hnewest t (List.mem_append_left _ (h.run_tables t ht))

/-- A merged table about to be listed is new to the catalog. -/
theorem LiveInv.merged_new (h : LiveInv hist s) {run : List SSTable} {merged t : SSTable}
    (hc : s.compact = .written run merged) (ht : (catalog hist s).Uses t) : t.id ≠ merged.id := by
  have hmerged : s.compact.merged = some merged := by rw [hc]; rfl
  obtain ⟨n, hn⟩ := h.filesInv.merged_named merged hmerged
  have hfresh := h.merged_fresh merged hmerged
  rcases ht with ht | ht | ht | ht
  · exact (h.hist_named t ht).ne_of_compacted hn
  · intro he
    exact h.filesInv.doomed_unlisted merged (by simp [hc, CompactPhase.doomed]) (he ▸ ht.1)
  · rcases List.mem_append.mp ht with ht | ht
    · cases hf : s.flush with
      | registered sst =>
        obtain rfl : t = sst := by simpa [hf, FlushPhase.pending] using ht
        exact (h.filesInv.registered_named t hf).ne_of_compacted hn
      | _ => simp [hf, FlushPhase.pending] at ht
    · exact hfresh t ht
  · exact hfresh t (h.run_tables t ht)

/-- For a live table and a run in use, having an ID of the run is being in it. -/
theorem LiveInv.mem_run_iff (h : LiveInv hist s) {t : SSTable} (ht : s.IsLive t) :
    t.id ∈ s.compact.merging.run.map SSTable.id ↔ t ∈ s.compact.merging.run := by
  refine ⟨fun hid => ?_, fun hmem => List.mem_map_of_mem hmem⟩
  obtain ⟨u, hu, he⟩ := List.mem_map.mp hid
  have hfile := h.table_file u (h.run_tables u hu)
  rw [he, ht.2] at hfile
  exact Option.some.inj hfile ▸ hu

theorem LiveInv.isLive_remove (h : LiveInv hist s) {run : List SSTable} {merged : SSTable}
    (hc : s.compact = .added run merged) {written : Nat}
    (hw : (Call.remove (run.map SSTable.id)).bytes.length ≤ written) (t : SSTable) :
    IsLive { s with
      manifest := s.append (.remove (run.map SSTable.id)) written
      compact := .removed run merged } t ↔ t ∈ {t | s.IsLive t} \ {t | t ∈ run} := by
  have hids : ∀ id ∈ run.map SSTable.id, ValidID id := by
    have := h.run_validID
    rwa [hc] at this
  have hmem : s.IsLive t → t.id ∈ run.map SSTable.id → t ∈ run := fun ht => by
    have := h.mem_run_iff ht
    rw [hc] at this
    exact this.mp
  rw [IsLive, append, h.clean.listed_remove hids hw]
  constructor
  · rintro ⟨⟨hl, hnot⟩, hfile⟩
    exact ⟨⟨hl, hfile⟩, fun ht => hnot (List.mem_map_of_mem ht)⟩
  · rintro ⟨hlive, hnot⟩
    exact ⟨⟨hlive.1, fun hid => hnot (hmem hlive hid)⟩, hlive.2⟩

/-- A flush's Add registers its table, or leaves all as it was. -/
theorem LiveInv.catalog_flushAdd (h : LiveInv hist s) {sst : SSTable} {written : Nat} {added : Bool}
    (hf : s.flush = .written sst) (ha : s.AllOrNothing (.flushAdd written added)) :
    (catalog hist s).Step ok (catalog (s.recordFlush hist (.flushAdd written added)) { s with
      manifest := s.append (.add sst.id) written
      flush := if added then .registered sst else .failed sst.entries }) := by
  have htable : s.flush.table = some sst := by rw [hf]; rfl
  have hvisible : s.visibleTables = s.sstables := by simp [visibleTables, hf, FlushPhase.pending]
  rcases ha.flushAdd hf with ⟨rfl, hw⟩ | ⟨rfl, rfl⟩
  · have heq : catalog (s.recordFlush hist (.flushAdd written true)) { s with
          manifest := s.append (.add sst.id) written, flush := .registered sst } =
        ⟨sst :: hist, insert sst {t | s.IsLive t}, sst :: s.visibleTables, s.compact.merging⟩ := by
      simp only [recordFlush, hf]
      exact catalog_eq (isLive_add h (h.filesInv.flush_named htable).validID
        (h.flush_file sst htable) hw rfl rfl) (by rw [hvisible]; rfl) rfl
    simp only [if_true]
    rw [heq]
    exact .register sst fun t ht => h.uses_older hf ht
  · refine catalog_stay (fun t => ?_) (by rw [hvisible]; rfl) rfl
    simp only [append_zero]
    exact Iff.rfl

theorem catalog_select {newest : SSTable} {rest : List SSTable}
    (hrun : selectTierForCompaction s.sstables = newest :: rest)
    (hok : ∀ front back, s.sstables = front ++ selectTierForCompaction s.sstables ++ back →
      ok (s.flush.pending ++ front) (selectTierForCompaction s.sstables)) :
    (catalog hist s).Step ok (catalog hist { s with compact := .selected (newest :: rest) }) := by
  obtain ⟨front, back, hsplit⟩ : ∃ front back, s.sstables = front ++ (newest :: rest) ++ back := by
    rcases selectTierForCompaction_infix s.sstables with hnil | ⟨⟨front, back, hin⟩, -⟩
    · simp [hnil] at hrun
    · exact ⟨front, back, by rw [← hrun, hin]⟩
  have hok' := hok front back (by rw [hrun, hsplit])
  rw [hrun] at hok'
  refine .select (s.flush.pending ++ front) (newest :: rest) back (by simp) hok' ?_
  simp [catalog, visibleTables, hsplit]

/-- A compaction's Add lists the merged table, or the compaction is given up. -/
theorem LiveInv.catalog_compactAdd (h : LiveInv hist s) {run : List SSTable} {merged : SSTable}
    {written : Nat} {added : Bool} (hc : s.compact = .written run merged)
    (ha : s.AllOrNothing (.compactAdd written added)) :
    (catalog hist s).Step ok (catalog hist { s with
      manifest := s.append (.add merged.id) written
      compact := if added then .added run merged else .unregistered merged }) := by
  obtain ⟨n, hnamed⟩ := h.filesInv.merged_named merged (by simp [hc, CompactPhase.merged])
  obtain ⟨hfile, newest, rest, rfl, hstamp, hentries⟩ :=
    h.result_spec run merged (by simp [hc, CompactPhase.result])
  rcases ha.compactAdd hc with ⟨rfl, hw⟩ | ⟨rfl, rfl⟩
  · have heq : catalog hist { s with
          manifest := s.append (.add merged.id) written
          compact := .added (newest :: rest) merged } =
        ⟨hist, insert merged {t | s.IsLive t}, s.visibleTables,
          .listed (newest :: rest) merged⟩ :=
      catalog_eq (isLive_add h hnamed.validID hfile hw rfl rfl) rfl rfl
    simp only [if_true]
    rw [heq]
    exact .list newest rest merged (by simp [catalog, hc, CompactPhase.merging]) hstamp hentries
      fun t ht => h.merged_new hc ht
  · refine catalog_abandon (fun t => ?_) rfl rfl
    simp only [append_zero]
    exact Iff.rfl

/-- Its Remove takes the run off the list, or the compaction is given up. -/
theorem LiveInv.catalog_compactRemove (h : LiveInv hist s) {run : List SSTable} {merged : SSTable}
    {written : Nat} {removed : Bool} (hc : s.compact = .added run merged)
    (ha : s.AllOrNothing (.compactRemove written removed)) :
    (catalog hist s).Step ok (catalog hist { s with
      manifest := s.append (.remove (run.map SSTable.id)) written
      compact := if removed then .removed run merged else .idle }) := by
  rcases ha.compactRemove hc with ⟨rfl, hw⟩ | ⟨rfl, rfl⟩
  · have heq : catalog hist { s with
          manifest := s.append (.remove (run.map SSTable.id)) written
          compact := .removed run merged } =
        ⟨hist, {t | s.IsLive t} \ {t | t ∈ run}, s.visibleTables, .unlisted run merged⟩ :=
      catalog_eq (h.isLive_remove hc hw) rfl rfl
    simp only [if_true]
    rw [heq]
    exact .unlist run merged (by simp [catalog, hc, CompactPhase.merging])
  · refine catalog_abandon (fun t => ?_) rfl rfl
    simp only [append_zero]
    exact Iff.rfl

theorem catalog_swap {run swapped : List SSTable} {merged : SSTable}
    (hc : s.compact = .removed run merged) (hswap : replaceRun run merged s.sstables = some swapped) :
    (catalog hist s).Step ok
      (catalog hist { s with sstables := swapped, compact := .swapped run }) := by
  obtain ⟨front, back, htables, rfl⟩ := replaceRun_eq_some hswap
  have heq : catalog hist { s with sstables := front ++ merged :: back, compact := .swapped run } =
      ⟨hist, {t | s.IsLive t}, (s.flush.pending ++ front) ++ merged :: back, .none⟩ :=
    catalog_eq (fun _ => Iff.rfl) (by simp [visibleTables]) rfl
  rw [heq]
  exact .swap run merged (s.flush.pending ++ front) back
    (by simp [catalog, hc, CompactPhase.merging]) (by simp [catalog, visibleTables, htables])

/-- A step whose MANIFEST call is all or nothing is a step of the catalog. -/
theorem catalog_step {fileSize : List Entry → Nat} {s' : TableStore} {a : TableAct}
    (h : LiveInv hist s) (ha : s.AllOrNothing a) (hstep : Step fileSize s a s')
    (hok : a = .compactSelect → ∀ front back,
      s.sstables = front ++ selectTierForCompaction s.sstables ++ back →
      ok (s.flush.pending ++ front) (selectTierForCompaction s.sstables)) :
    (catalog hist s).Step ok (catalog (s.recordFlush hist a) s') := by
  cases hstep with
  | flushStart entries hf | flushDone sst hf | flushPutBack entries hf =>
    exact catalog_stay (fun _ => Iff.rfl) (by simp [visibleTables, hf, FlushPhase.pending]) rfl
  | flushWrite entries ts hf hw hts hclock =>
    exact catalog_stay (isLive_insert h ⟨flushID ts, entries, fileSize entries⟩
      (h.filesInv.flushID_free hts hclock) rfl rfl)
      (by simp [visibleTables, hf, FlushPhase.pending]) rfl
  | flushWriteFail entries ts left hf hts hclock =>
    have hvisible : ∀ files : Files, visibleTables { s with
        files := files, flush := .failed entries, clock := ts } = s.visibleTables := by
      simp [visibleTables, hf, FlushPhase.pending]
    cases left with
    | false => exact catalog_stay (fun _ => Iff.rfl) (hvisible _) rfl
    | true =>
      exact catalog_stay (isLive_insert h ⟨flushID ts, entries, fileSize entries⟩
        (h.filesInv.flushID_free hts hclock) rfl rfl)
        (hvisible _) rfl
  | flushAdd sst written added hf => exact h.catalog_flushAdd hf ha
  | compactSelect newest rest hc hrun => exact catalog_select hrun (hok rfl)
  | compactWrite newest rest hc =>
    exact catalog_stay (isLive_insert h _ (h.filesInv.mergedTable_named hc fileSize).1 rfl rfl) rfl
      (by rw [hc]; rfl)
  | compactWriteFail newest rest left hc =>
    cases left with
    | false => exact catalog_abandon (fun _ => Iff.rfl) rfl rfl
    | true =>
      exact catalog_abandon (isLive_insert h _ (h.filesInv.mergedTable_named hc fileSize).1 rfl rfl)
        rfl rfl
  | compactAdd run merged written added hc => exact h.catalog_compactAdd hc ha
  | compactUnlink merged gone hc | compactDelete src rest gone hc =>
    exact catalog_stay (isLive_unlink h (by simp [hc, CompactPhase.doomed]) rfl rfl) rfl
      (by rw [hc]; rfl)
  | compactRemove run merged written removed hc => exact h.catalog_compactRemove hc ha
  | compactSwap run merged swapped hc hswap => exact catalog_swap hc hswap
  | compactNoSwap => exact catalog_abandon (fun _ => Iff.rfl) rfl rfl
  | compactDone gone hc => exact catalog_stay (fun _ => Iff.rfl) rfl (by rw [hc]; rfl)
  | reopen tables hload =>
    obtain ⟨tables', hload', hlive, -, hsorted⟩ := loadLiveSSTables_spec h
    obtain rfl : tables' = tables := by simpa [hload'] using hload
    exact .reload tables' hlive hsorted

end LiveInv

end TableStore

end DistributedKV
