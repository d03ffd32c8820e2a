import DistributedKV.Compaction
import DistributedKV.Manifest

/-!
# SSTable files, the MANIFEST, and who writes them

The table side of the engine : the `.sst` files, the text of the MANIFEST, the SSTables
in memory, and the two activities that change them. A flush writes a file and adds its ID
to the MANIFEST before the SSTable is used; a compaction selects a run, writes the merged
file, adds it, removes the run's IDs, swaps it in, and deletes the run's files. Each of
these is a step of its own, any of them may fail, and `reopen`, after a crash or a close,
may come between any two.

IDs are `sst_` and a timestamp of nineteen digits that grows with every flush, over
restarts too, followed by one `_c` per compaction. How large a file its entries make is
left open.

`filesInv_of_run` : as long as no failed Add of a compaction leaves its complete line in
the file, every ID a replay of the MANIFEST yields has its file, so no Open fails on a
missing SSTable (`open_finds_files`). `orphaned_line_breaks_open` is the run with such a
line.
-/

namespace DistributedKV

/-! ## IDs -/

/-- The last `width` decimal digits of a number. -/
def digits : Nat → Nat → List Char
  | 0, _ => []
  | width + 1, n => digits width (n / 10) ++ [Nat.digitChar (n % 10)]

/-- Nanoseconds since 1970, from 2001 to 2286. -/
def ValidStamp (ts : Nat) : Prop :=
  10 ^ 18 ≤ ts ∧ ts < 10 ^ 19

instance (ts : Nat) : Decidable (ValidStamp ts) :=
  inferInstanceAs (Decidable (_ ∧ _))

/-- The ID `sstable.Write` makes of the time. -/
def flushID (ts : Nat) : String :=
  String.ofList (['s', 's', 't', '_'] ++ digits 19 ts)

/-- A flush's ID after `n` compactions. -/
def tableID (ts n : Nat) : String :=
  match n with
  | 0 => flushID ts
  | n + 1 => tableID ts n ++ "_c"

/-- The `.sst` files of the data directory by ID. -/
abbrev Files := Std.ExtTreeMap String SSTable

/-- The loop of `compactedID`, cut off after `fuel` extensions. -/
def compactedLoop (files : Files) : Nat → String → String
  | 0, id => id
  | fuel + 1, id => if id ∈ files then compactedLoop files fuel (id ++ "_c") else id

/-- The merged table's ID : the newest source's with `_c` until no file has the name. -/
def compactedID (files : Files) (newestSourceID : String) : String :=
  compactedLoop files files.size (newestSourceID ++ "_c")

theorem flushID_eq_tableID (ts : Nat) : flushID ts = tableID ts 0 :=
  rfl

theorem length_digits : ∀ width n, (digits width n).length = width
  | 0, _ => rfl
  | width + 1, n => by simp [digits, length_digits width]

theorem digitChar_inj {a b : Nat} (ha : a < 10) (hb : b < 10)
    (h : Nat.digitChar a = Nat.digitChar b) : a = b := by
  have := congrArg Char.toNat h
  rw [Nat.toNat_digitChar_of_lt_ten ha, Nat.toNat_digitChar_of_lt_ten hb] at this
  omega

theorem digits_inj : ∀ {width n m : Nat}, n < 10 ^ width → m < 10 ^ width →
    digits width n = digits width m → n = m
  | 0, n, m, hn, hm, _ => by
    simp only [pow_zero] at hn hm
    omega
  | width + 1, n, m, hn, hm, h => by
    obtain ⟨hdigits, hlast⟩ := List.append_inj h (by simp [length_digits])
    have hdiv := digits_inj (by omega) (by omega) hdigits
    have hmod := digitChar_inj (Nat.mod_lt _ (by omega)) (Nat.mod_lt _ (by omega))
      (List.singleton_inj.mp hlast)
    omega

theorem toList_tableID (ts : Nat) : ∀ n, (tableID ts n).toList =
    ['s', 's', 't', '_'] ++ digits 19 ts ++ (List.replicate n ['_', 'c']).flatten
  | 0 => by simp [tableID, flushID]
  | n + 1 => by
    have hsuffix : "_c".toList = ['_', 'c'] := by decide
    rw [tableID, String.toList_append, toList_tableID ts n, hsuffix, List.append_assoc,
      List.replicate_succ', List.flatten_append]
    rfl

theorem tableID_inj {ts ts' n n' : Nat} (hts : ts < 10 ^ 19) (hts' : ts' < 10 ^ 19)
    (h : tableID ts n = tableID ts' n') : ts = ts' ∧ n = n' := by
  have hlist := congrArg String.toList h
  rw [toList_tableID, toList_tableID] at hlist
  have hlen := congrArg List.length hlist
  simp only [List.length_append, length_digits, List.length_flatten, List.map_replicate,
    List.sum_replicate, List.length_cons, List.length_nil] at hlen
  obtain ⟨hfront, -⟩ := List.append_inj hlist (by simp [length_digits])
  obtain ⟨-, hdigits⟩ := List.append_inj hfront rfl
  exact ⟨digits_inj hts hts' hdigits, by simpa using hlen⟩

theorem visible_digits {c : Char} : ∀ {width n : Nat}, c ∈ digits width n →
    33 ≤ c.toNat ∧ c.toNat ≤ 126
  | 0, _, h => by simp [digits] at h
  | width + 1, n, h => by
    rcases List.mem_append.mp h with h | h
    · exact visible_digits h
    · obtain rfl := List.mem_singleton.mp h
      have hlt : n % 10 < 10 := Nat.mod_lt _ (by omega)
      rw [Nat.toNat_digitChar_of_lt_ten hlt]
      omega

theorem validID_tableID (ts n : Nat) : ValidID (tableID ts n) := by
  refine ⟨by simp [toList_tableID], fun c hc => ?_⟩
  rw [toList_tableID] at hc
  rcases List.mem_append.mp hc with hc | hc
  · rcases List.mem_append.mp hc with hc | hc
    · simp only [List.mem_cons, List.not_mem_nil, or_false] at hc
      rcases hc with rfl | rfl | rfl | rfl <;> decide
    · exact visible_digits hc
  · simp only [List.mem_flatten, List.mem_replicate] at hc
    obtain ⟨l, ⟨-, rfl⟩, hc⟩ := hc
    simp only [List.mem_cons, List.not_mem_nil, or_false] at hc
    rcases hc with rfl | rfl <;> decide

theorem compactedLoop_spec (files : Files) (ts : Nat) : ∀ fuel n, ∃ j,
    compactedLoop files fuel (tableID ts n) = tableID ts (n + j) ∧
    (∀ i < j, tableID ts (n + i) ∈ files) ∧ (tableID ts (n + j) ∉ files ∨ j = fuel)
  | 0, n => ⟨0, rfl, by simp, Or.inr rfl⟩
  | fuel + 1, n => by
    unfold compactedLoop
    split
    · next hmem =>
      obtain ⟨j, hloop, hall, hend⟩ := compactedLoop_spec files ts fuel (n + 1)
      have hshift : ∀ i, n + 1 + i = n + (i + 1) := by omega
      refine ⟨j + 1, ?_, fun i hi => ?_, ?_⟩
      · rw [← hshift]
        exact hloop
      · cases i with
        | zero => exact hmem
        | succ i => exact hshift i ▸ hall i (by omega)
      · rw [← hshift]
        exact hend.imp_right (by omega)
    · next hmem => exact ⟨0, rfl, by simp, Or.inl hmem⟩

/-- The loop of `compactedID` ends at a free name : the directory has fewer files than
the names it tries. -/
theorem compactedID_spec (files : Files) {ts n : Nat} (hts : ts < 10 ^ 19) :
    ∃ j, compactedID files (tableID ts n) = tableID ts (n + 1 + j) ∧
      compactedID files (tableID ts n) ∉ files := by
  obtain ⟨j, hloop, hall, hend⟩ := compactedLoop_spec files ts files.size (n + 1)
  refine ⟨j, hloop, ?_⟩
  change compactedLoop files files.size (tableID ts (n + 1)) ∉ files
  rw [hloop]
  rcases hend with hfree | rfl
  · exact hfree
  · intro hmem
    -- all of size + 1 distinct names would be files
    have hsub : (List.range (files.size + 1)).map (fun i => tableID ts (n + 1 + i)) ⊆ files.keys := by
      intro id hid
      obtain ⟨i, hi, rfl⟩ := List.mem_map.mp hid
      rw [Std.ExtTreeMap.mem_keys]
      rcases Nat.lt_succ_iff_lt_or_eq.mp (List.mem_range.mp hi) with hi | rfl
      · exact hall i hi
      · exact hmem
    have hnd : ((List.range (files.size + 1)).map fun i => tableID ts (n + 1 + i)).Nodup :=
      List.nodup_range.map fun a b hab => by
        have := (tableID_inj hts hts hab).2
        omega
    have hle := (hnd.subperm hsub).length_le
    rw [Std.ExtTreeMap.length_keys, List.length_map, List.length_range] at hle
    omega

/-! ## State and steps -/

/-- Where a flush stands. -/
inductive FlushPhase
  | idle
  /-- The frozen memtable's entries are taken. -/
  | started (entries : List Entry)
  /-- The file is complete on disk. -/
  | written (sst : SSTable)
  /-- The MANIFEST has it; readers do not yet. -/
  | registered (sst : SSTable)
  /-- An error; the entries are still to be put back. -/
  | failed (entries : List Entry)
deriving DecidableEq

/-- Where a compaction stands. -/
inductive CompactPhase
  | idle
  | selected (run : List SSTable)
  /-- The merged file is complete on disk. -/
  | written (run : List SSTable) (merged : SSTable)
  /-- The Add failed; the merged file is about to be deleted. -/
  | unregistered (merged : SSTable)
  /-- The MANIFEST has the merged table and the run. -/
  | added (run : List SSTable) (merged : SSTable)
  /-- The MANIFEST has the merged table only. -/
  | removed (run : List SSTable) (merged : SSTable)
  /-- Readers use the merged table; these files are still to be deleted. -/
  | swapped (run : List SSTable)
deriving DecidableEq

structure TableStore where
  manifest : List Char
  files : Files
  sstables : List SSTable
  flush : FlushPhase
  compact : CompactPhase
  /-- The latest timestamp used for an ID. -/
  clock : Nat

/-- Why an Open fails. -/
inductive OpenError
  | manifest (e : LineError)
  | missingSSTable (id : String)
deriving DecidableEq

/-- Load the live SSTables, newest ID first, from the sorted IDs. -/
def loadTables (files : Files) : List String → Except OpenError (List SSTable)
  | [] => .ok []
  | id :: ids =>
    match files[id]? with
    | none => .error (.missingSSTable id)
    | some sst => (loadTables files ids).map (sst :: ·)

/-- `loadLiveSSTables` : the IDs of the MANIFEST, sorted, and each one's file. -/
def loadLiveSSTables (manifest : List Char) (files : Files) : Except OpenError (List SSTable) :=
  match replay manifest with
  | .error e => .error (.manifest e)
  | .ok live => loadTables files (live.toList.insertionSort (· ≤ ·)).reverse

/-- What `WriteWithID` accepts : some entries, sorted by key. -/
def Writable (entries : List Entry) : Prop :=
  entries ≠ [] ∧ entries.Pairwise fun a b => a.key ≤ b.key

instance (entries : List Entry) : Decidable (Writable entries) :=
  inferInstanceAs (Decidable (_ ∧ _))

/-- One step. `written` is how many bytes of a MANIFEST line reach the file, `ok` whether
the call returns nil; `left` whether a failed write nevertheless left its complete file;
`gone` whether a file could be deleted. -/
inductive TableAct
  | flushStart (entries : List Entry)
  | flushWrite (ts : Nat)
  | flushWriteFail (ts : Nat) (left : Bool)
  | flushAdd (written : Nat) (ok : Bool)
  | flushFinish
  | compactSelect
  | compactWrite
  | compactWriteFail (left : Bool)
  | compactAdd (written : Nat) (ok : Bool)
  | compactUnlink (gone : Bool)
  | compactRemove (written : Nat) (ok : Bool)
  | compactSwap
  | compactDelete (gone : Bool)
  | reopen
deriving DecidableEq

namespace TableStore

def create : TableStore :=
  { manifest := [], files := ∅, sstables := [], flush := .idle, compact := .idle, clock := 0 }

/-- Append to the MANIFEST what of a call's line reaches it. -/
def append (s : TableStore) (c : Call) (written : Nat) : List Char :=
  s.manifest ++ c.bytes.take written

/-- The files after deleting one, if it could be deleted. -/
def unlink (files : Files) (sst : SSTable) (gone : Bool) : Files :=
  if gone then files.erase sst.id else files

/-- The merged table of a run. -/
def mergedTable (fileSize : List Entry → Nat) (files : Files) (run : List SSTable)
    (newest : SSTable) : SSTable :=
  { id := compactedID files newest.id, entries := merge run, size := fileSize (merge run) }

/-- The table side of one step; nothing when the step cannot happen here. -/
def step (fileSize : List Entry → Nat) (s : TableStore) : TableAct → Option TableStore
  | .flushStart entries =>
    match s.flush with
    | .idle => some { s with flush := .started entries }
    | _ => none
  | .flushWrite ts =>
    match s.flush with
    | .started entries =>
      if Writable entries ∧ ValidStamp ts ∧ s.clock < ts then
        let sst : SSTable := ⟨flushID ts, entries, fileSize entries⟩
        some { s with files := s.files.insert sst.id sst, flush := .written sst, clock := ts }
      else none
    | _ => none
  | .flushWriteFail ts left =>
    match s.flush with
    | .started entries =>
      if ValidStamp ts ∧ s.clock < ts then
        let sst : SSTable := ⟨flushID ts, entries, fileSize entries⟩
        some { s with
          files := if left then s.files.insert sst.id sst else s.files
          flush := .failed entries, clock := ts }
      else none
    | _ => none
  | .flushAdd written ok =>
    match s.flush with
    | .written sst =>
      some { s with
        manifest := s.append (.add sst.id) written
        flush := if ok then .registered sst else .failed sst.entries }
    | _ => none
  | .flushFinish =>
    match s.flush with
    | .registered sst => some { s with sstables := sst :: s.sstables, flush := .idle }
    | .failed _ => some { s with flush := .idle }
    | _ => none
  | .compactSelect =>
    match s.compact with
    | .idle =>
      match selectTierForCompaction s.sstables with
      | [] => none
      | newest :: rest => some { s with compact := .selected (newest :: rest) }
    | _ => none
  | .compactWrite =>
    match s.compact with
    | .selected (newest :: rest) =>
      let merged := mergedTable fileSize s.files (newest :: rest) newest
      if Writable merged.entries then
        some { s with
          files := s.files.insert merged.id merged
          compact := .written (newest :: rest) merged }
      else none
    | _ => none
  | .compactWriteFail left =>
    match s.compact with
    | .selected (newest :: rest) =>
      let merged := mergedTable fileSize s.files (newest :: rest) newest
      some { s with
        files := if left then s.files.insert merged.id merged else s.files
        compact := .idle }
    | _ => none
  | .compactAdd written ok =>
    match s.compact with
    | .written run merged =>
      some { s with
        manifest := s.append (.add merged.id) written
        compact := if ok then .added run merged else .unregistered merged }
    | _ => none
  | .compactUnlink gone =>
    match s.compact with
    | .unregistered merged => some { s with files := unlink s.files merged gone, compact := .idle }
    | _ => none
  | .compactRemove written ok =>
    match s.compact with
    | .added run merged =>
      some { s with
        manifest := s.append (.remove (run.map SSTable.id)) written
        compact := if ok then .removed run merged else .idle }
    | _ => none
  | .compactSwap =>
    match s.compact with
    | .removed run merged =>
      match replaceRun run merged s.sstables with
      | some swapped => some { s with sstables := swapped, compact := .swapped run }
      | none => some { s with compact := .idle }
    | _ => none
  | .compactDelete gone =>
    match s.compact with
    | .swapped [] => some { s with compact := .idle }
    | .swapped (src :: rest) =>
      some { s with files := unlink s.files src gone, compact := .swapped rest }
    | _ => none
  | .reopen =>
    match loadLiveSSTables s.manifest s.files with
    | .ok tables => some { s with sstables := tables, flush := .idle, compact := .idle }
    | .error _ => none

/-! ## What a step can do -/

/-- Every possible step with its guard and its result. -/
inductive Step (fileSize : List Entry → Nat) (s : TableStore) : TableAct → TableStore → Prop
  | flushStart (entries) (h : s.flush = .idle) :
      Step fileSize s (.flushStart entries) { s with flush := .started entries }
  | flushWrite (entries ts) (h : s.flush = .started entries) (hw : Writable entries)
      (hts : ValidStamp ts) (hclock : s.clock < ts) :
      Step fileSize s (.flushWrite ts) { s with
        files := s.files.insert (flushID ts) ⟨flushID ts, entries, fileSize entries⟩
        flush := .written ⟨flushID ts, entries, fileSize entries⟩, clock := ts }
  | flushWriteFail (entries ts left) (h : s.flush = .started entries)
      (hts : ValidStamp ts) (hclock : s.clock < ts) :
      Step fileSize s (.flushWriteFail ts left) { s with
        files := if left then s.files.insert (flushID ts) ⟨flushID ts, entries, fileSize entries⟩
          else s.files
        flush := .failed entries, clock := ts }
  | flushAdd (sst written ok) (h : s.flush = .written sst) :
      Step fileSize s (.flushAdd written ok) { s with
        manifest := s.append (.add sst.id) written
        flush := if ok then .registered sst else .failed sst.entries }
  | flushDone (sst) (h : s.flush = .registered sst) :
      Step fileSize s .flushFinish { s with sstables := sst :: s.sstables, flush := .idle }
  | flushPutBack (entries) (h : s.flush = .failed entries) :
      Step fileSize s .flushFinish { s with flush := .idle }
  | compactSelect (newest rest) (h : s.compact = .idle)
      (hrun : selectTierForCompaction s.sstables = newest :: rest) :
      Step fileSize s .compactSelect { s with compact := .selected (newest :: rest) }
  | compactWrite (newest rest) (h : s.compact = .selected (newest :: rest))
      (hw : Writable (merge (newest :: rest))) :
      Step fileSize s .compactWrite { s with
        files := s.files.insert (mergedTable fileSize s.files (newest :: rest) newest).id
          (mergedTable fileSize s.files (newest :: rest) newest)
        compact := .written (newest :: rest)
          (mergedTable fileSize s.files (newest :: rest) newest) }
  | compactWriteFail (newest rest left) (h : s.compact = .selected (newest :: rest)) :
      Step fileSize s (.compactWriteFail left) { s with
        files := if left then s.files.insert (mergedTable fileSize s.files (newest :: rest) newest).id
          (mergedTable fileSize s.files (newest :: rest) newest) else s.files
        compact := .idle }
  | compactAdd (run merged written ok) (h : s.compact = .written run merged) :
      Step fileSize s (.compactAdd written ok) { s with
        manifest := s.append (.add merged.id) written
        compact := if ok then .added run merged else .unregistered merged }
  | compactUnlink (merged gone) (h : s.compact = .unregistered merged) :
      Step fileSize s (.compactUnlink gone) { s with
        files := unlink s.files merged gone, compact := .idle }
  | compactRemove (run merged written ok) (h : s.compact = .added run merged) :
      Step fileSize s (.compactRemove written ok) { s with
        manifest := s.append (.remove (run.map SSTable.id)) written
        compact := if ok then .removed run merged else .idle }
  | compactSwap (run merged swapped) (h : s.compact = .removed run merged)
      (hswap : replaceRun run merged s.sstables = some swapped) :
      Step fileSize s .compactSwap { s with sstables := swapped, compact := .swapped run }
  | compactNoSwap (run merged) (h : s.compact = .removed run merged)
      (hswap : replaceRun run merged s.sstables = none) :
      Step fileSize s .compactSwap { s with compact := .idle }
  | compactDone (gone) (h : s.compact = .swapped []) :
      Step fileSize s (.compactDelete gone) { s with compact := .idle }
  | compactDelete (src rest gone) (h : s.compact = .swapped (src :: rest)) :
      Step fileSize s (.compactDelete gone) { s with
        files := unlink s.files src gone, compact := .swapped rest }
  | reopen (tables) (h : loadLiveSSTables s.manifest s.files = .ok tables) :
      Step fileSize s .reopen { s with sstables := tables, flush := .idle, compact := .idle }

theorem step_sound {fileSize : List Entry → Nat} {s s' : TableStore} {a : TableAct}
    (h : s.step fileSize a = some s') : Step fileSize s a s' := by
  cases a with
  | flushStart entries =>
    simp only [step] at h
    split at h
    · next hf => exact Option.some.inj h ▸ .flushStart entries hf
    · cases h
  | flushWrite ts =>
    simp only [step] at h
    split at h
    · next entries hf =>
      split at h
      · next hg => exact Option.some.inj h ▸ .flushWrite entries ts hf hg.1 hg.2.1 hg.2.2
      · cases h
    · cases h
  | flushWriteFail ts left =>
    simp only [step] at h
    split at h
    · next entries hf =>
      split at h
      · next hg => exact Option.some.inj h ▸ .flushWriteFail entries ts left hf hg.1 hg.2
      · cases h
    · cases h
  | flushAdd written ok =>
    simp only [step] at h
    split at h
    · next sst hf => exact Option.some.inj h ▸ .flushAdd sst written ok hf
    · cases h
  | flushFinish =>
    simp only [step] at h
    split at h
    · next sst hf => exact Option.some.inj h ▸ .flushDone sst hf
    · next entries hf => exact Option.some.inj h ▸ .flushPutBack entries hf
    · cases h
  | compactSelect =>
    simp only [step] at h
    split at h
    · next hc =>
      split at h
      · cases h
      · next newest rest hrun => exact Option.some.inj h ▸ .compactSelect newest rest hc hrun
    · cases h
  | compactWrite =>
    simp only [step] at h
    split at h
    · next newest rest hc =>
      split at h
      · next hw => exact Option.some.inj h ▸ .compactWrite newest rest hc hw
      · cases h
    · cases h
  | compactWriteFail left =>
    simp only [step] at h
    split at h
    · next newest rest hc => exact Option.some.inj h ▸ .compactWriteFail newest rest left hc
    · cases h
  | compactAdd written ok =>
    simp only [step] at h
    split at h
    · next run merged hc => exact Option.some.inj h ▸ .compactAdd run merged written ok hc
    · cases h
  | compactUnlink gone =>
    simp only [step] at h
    split at h
    · next merged hc => exact Option.some.inj h ▸ .compactUnlink merged gone hc
    · cases h
  | compactRemove written ok =>
    simp only [step] at h
    split at h
    · next run merged hc => exact Option.some.inj h ▸ .compactRemove run merged written ok hc
    · cases h
  | compactSwap =>
    simp only [step] at h
    split at h
    · next run merged hc =>
      split at h
      · next swapped hs => exact Option.some.inj h ▸ .compactSwap run merged swapped hc hs
      · next hs => exact Option.some.inj h ▸ .compactNoSwap run merged hc hs
    · cases h
  | compactDelete gone =>
    simp only [step] at h
    split at h
    · next hc => exact Option.some.inj h ▸ .compactDone gone hc
    · next src rest hc => exact Option.some.inj h ▸ .compactDelete src rest gone hc
    · cases h
  | reopen =>
    simp only [step] at h
    split at h
    · next tables hl => exact Option.some.inj h ▸ .reopen tables hl
    · cases h

/-- The tables registered in the MANIFEST so far, newest first, after one more step. -/
def recordFlush (s : TableStore) (hist : List SSTable) : TableAct → List SSTable
  | .flushAdd _ true =>
    match s.flush with
    | .written sst => sst :: hist
    | _ => hist
  | _ => hist

/-- A run from an empty directory in which every step is allowed where it happens, with
the tables registered so far. -/
inductive Run (fileSize : List Entry → Nat) (allowed : TableStore → TableAct → Prop) :
    List SSTable → TableStore → Prop
  | start : Run fileSize allowed [] create
  | step {hist : List SSTable} {s s' : TableStore} {a : TableAct}
      (hrun : Run fileSize allowed hist s) (ha : allowed s a)
      (hstep : s.step fileSize a = some s') : Run fileSize allowed (s.recordFlush hist a) s'

theorem Run.mono {fileSize : List Entry → Nat} {allowed allowed' : TableStore → TableAct → Prop}
    (himp : ∀ s a, allowed s a → allowed' s a) {hist : List SSTable} {s : TableStore}
    (h : Run fileSize allowed hist s) : Run fileSize allowed' hist s := by
  induction h with
  | start => exact .start
  | step hrun ha hstep ih => exact ih.step (himp _ _ ha) hstep

/-- The MANIFEST call a step makes, with how much of its line is written and whether it
returns nil. -/
def manifestCall (s : TableStore) : TableAct → Option (Call × Nat × Bool)
  | .flushAdd written ok =>
    match s.flush with
    | .written sst => some (.add sst.id, written, ok)
    | _ => none
  | .compactAdd written ok =>
    match s.compact with
    | .written _ merged => some (.add merged.id, written, ok)
    | _ => none
  | .compactRemove written ok =>
    match s.compact with
    | .added run _ => some (.remove (run.map SSTable.id), written, ok)
    | _ => none
  | _ => none

/-- A MANIFEST call returns nil only once its whole line is in the file. -/
def Possible (s : TableStore) (a : TableAct) : Prop :=
  ∀ call ∈ s.manifestCall a, call.2.2 = true → call.1.bytes.length ≤ call.2.1

instance (s : TableStore) (a : TableAct) : Decidable (s.Possible a) :=
  inferInstanceAs (Decidable (∀ call ∈ s.manifestCall a, _))

/-- Take the steps one after another, each allowed where it happens, and collect the
tables registered. -/
def runActs (fileSize : List Entry → Nat) (allowed : TableStore → TableAct → Prop)
    [∀ s a, Decidable (allowed s a)] :
    List SSTable → TableStore → List TableAct → Option (List SSTable × TableStore)
  | hist, s, [] => some (hist, s)
  | hist, s, a :: acts =>
    if allowed s a then
      (s.step fileSize a).bind fun s' => runActs fileSize allowed (s.recordFlush hist a) s' acts
    else none

theorem Run.runActs {fileSize : List Entry → Nat} {allowed : TableStore → TableAct → Prop}
    [∀ s a, Decidable (allowed s a)] : ∀ {acts : List TableAct} {hist hist' : List SSTable}
    {s s' : TableStore}, Run fileSize allowed hist s →
    TableStore.runActs fileSize allowed hist s acts = some (hist', s') → Run fileSize allowed hist' s'
  | [], hist, hist', s, s', hrun, h => by
    obtain ⟨rfl, rfl⟩ : hist = hist' ∧ s = s' := by simpa [TableStore.runActs] using h
    exact hrun
  | a :: acts, hist, hist', s, s', hrun, h => by
    simp only [TableStore.runActs] at h
    split at h
    · next ha =>
      obtain ⟨s₁, hstep, hrest⟩ := Option.bind_eq_some_iff.mp h
      exact Run.runActs (hrun.step ha hstep) hrest
    · simp at h

/-! ## Every listed SSTable has its file -/

/-- A compaction's Add fails although its complete line reaches the file. -/
def leavesOrphan (s : TableStore) : TableAct → Bool
  | .compactAdd written false =>
    match s.compact with
    | .written _ merged => (Call.add merged.id).bytes.length ≤ written
    | _ => false
  | _ => false

/-- A possible step that leaves no orphaned line. -/
def NoOrphanedLine (s : TableStore) (a : TableAct) : Prop :=
  s.Possible a ∧ s.leavesOrphan a = false

instance (s : TableStore) (a : TableAct) : Decidable (s.NoOrphanedLine a) :=
  inferInstanceAs (Decidable (_ ∧ _))

end TableStore

/-- The run a compaction works on. -/
def CompactPhase.run : CompactPhase → List SSTable
  | .idle | .unregistered _ => []
  | .selected run | .written run _ | .added run _ | .removed run _ | .swapped run => run

/-- The merged table of a compaction. -/
def CompactPhase.merged : CompactPhase → Option SSTable
  | .idle | .selected _ | .swapped _ => none
  | .written _ merged | .unregistered merged | .added _ merged | .removed _ merged => some merged

/-- The tables whose files a compaction may be about to delete. -/
def CompactPhase.doomed : CompactPhase → List SSTable
  | .idle | .selected _ | .added _ _ => []
  | .written _ merged | .unregistered merged => [merged]
  | .removed run _ | .swapped run => run

/-- An ID made at or before `clock`, compacted `n` times. -/
def NamedBy (clock : Nat) (n : Nat) (id : String) : Prop :=
  ∃ ts, id = tableID ts n ∧ ts < 10 ^ 19 ∧ ts ≤ clock

theorem NamedBy.mono {clock clock' n : Nat} {id : String} (h : NamedBy clock n id)
    (hle : clock ≤ clock') : NamedBy clock' n id := by
  obtain ⟨ts, hid, hts, hc⟩ := h
  exact ⟨ts, hid, hts, hc.trans hle⟩

theorem NamedBy.validID {clock n : Nat} {id : String} (h : NamedBy clock n id) : ValidID id := by
  obtain ⟨ts, rfl, -⟩ := h
  exact validID_tableID ts n

/-- A later flush's ID is new. -/
theorem NamedBy.ne_flushID {clock n ts : Nat} {id : String} (h : NamedBy clock n id)
    (hts : ValidStamp ts) (hlt : clock < ts) : id ≠ flushID ts := by
  obtain ⟨ts', rfl, hts', hc⟩ := h
  rw [flushID_eq_tableID]
  intro heq
  have := (tableID_inj hts' hts.2 heq).1
  omega

theorem NamedBy.ne_of_compacted {clock clock' n : Nat} {id id' : String} (h : NamedBy clock 0 id)
    (h' : NamedBy clock' (n + 1) id') : id ≠ id' := by
  obtain ⟨ts, rfl, hts, -⟩ := h
  obtain ⟨ts', rfl, hts', -⟩ := h'
  intro heq
  have := (tableID_inj hts hts' heq).2
  omega

namespace TableStore

/-- What holds between steps : every ID in use is named by its time, every file is under
its own ID, what the MANIFEST lists has a file, and so have the table being flushed and
the merged table; nothing a compaction may delete is listed or is being flushed. -/
structure FilesInv (s : TableStore) : Prop where
  files_named : ∀ id ∈ s.files, ∃ n, NamedBy s.clock n id
  files_id : ∀ (id : String) (sst : SSTable), s.files[id]? = some sst → sst.id = id
  used_named : ∀ sst ∈ s.sstables ++ s.compact.run, ∃ n, NamedBy s.clock n sst.id
  merged_named : ∀ merged, s.compact.merged = some merged → ∃ n, NamedBy s.clock (n + 1) merged.id
  listed_files : ∀ id, Listed s.manifest id → id ∈ s.files
  written_file : ∀ run merged, s.compact = .written run merged → merged.id ∈ s.files
  doomed_unlisted : ∀ sst ∈ s.compact.doomed, ¬Listed s.manifest sst.id
  flush_file : ∀ sst, s.flush = .written sst → sst.id ∈ s.files ∧ NamedBy s.clock 0 sst.id ∧
    ∀ t ∈ s.sstables ++ s.compact.run, t.id ≠ sst.id
  registered_named : ∀ sst, s.flush = .registered sst → NamedBy s.clock 0 sst.id

theorem filesInv_create : FilesInv create where
  files_named := by simp [create]
  files_id := by simp [create]
  used_named := by simp [create, CompactPhase.run]
  merged_named := by simp [create, CompactPhase.merged]
  listed_files := by
    rintro id ⟨live, h, hid⟩
    obtain rfl : (∅ : Live) = live := by simpa [create, replay, completePart] using h
    simp at hid
  written_file := by simp [create]
  doomed_unlisted := by simp [create, CompactPhase.doomed]
  flush_file := by simp [create]
  registered_named := by simp [create]

theorem files_id_insert {files : Files} {sst : SSTable}
    (h : ∀ (id : String) (t : SSTable), files[id]? = some t → t.id = id) :
    ∀ (id : String) (t : SSTable), (files.insert sst.id sst)[id]? = some t → t.id = id := by
  intro id t ht
  rw [Std.ExtTreeMap.getElem?_insert] at ht
  split at ht
  · next he => exact Option.some.inj ht ▸ Std.compare_eq_iff_eq.mp he
  · exact h id t ht

theorem mem_unlink {files : Files} {sst : SSTable} {gone : Bool} {id : String} :
    id ∈ unlink files sst gone ↔ id ∈ files ∧ (gone = true → id ≠ sst.id) := by
  unfold unlink
  cases gone with
  | false => simp
  | true =>
    rw [if_pos rfl, Std.ExtTreeMap.mem_erase, ne_eq, Std.compare_eq_iff_eq, eq_comm (a := sst.id)]
    tauto

theorem files_id_unlink {files : Files} {sst : SSTable} {gone : Bool}
    (h : ∀ (id : String) (t : SSTable), files[id]? = some t → t.id = id) :
    ∀ (id : String) (t : SSTable), (unlink files sst gone)[id]? = some t → t.id = id := by
  intro id t ht
  unfold unlink at ht
  cases gone with
  | false => exact h id t ht
  | true =>
    simp only [if_true] at ht
    rw [Std.ExtTreeMap.getElem?_erase] at ht
    split at ht
    · simp at ht
    · exact h id t ht

/-- What a loaded list of tables is made of. -/
theorem mem_loadTables {files : Files} : ∀ {ids : List String} {tables : List SSTable},
    loadTables files ids = .ok tables →
      ∀ sst ∈ tables, ∃ id ∈ ids, files[id]? = some sst
  | [], tables, h => by
    obtain rfl : [] = tables := by simpa [loadTables] using h
    simp
  | id :: ids, tables, h => by
    simp only [loadTables] at h
    split at h
    · simp at h
    · next sst hsst =>
      cases hrest : loadTables files ids with
      | error => simp [hrest, Except.map] at h
      | ok rest =>
        obtain rfl : sst :: rest = tables := by simpa [hrest, Except.map] using h
        intro t ht
        rcases List.mem_cons.mp ht with rfl | ht
        · exact ⟨id, List.mem_cons_self, hsst⟩
        · obtain ⟨id', hid', ht'⟩ := mem_loadTables hrest t ht
          exact ⟨id', List.mem_cons_of_mem _ hid', ht'⟩

theorem mem_replaceRun {run l swapped : List SSTable} {merged : SSTable}
    (h : replaceRun run merged l = some swapped) : ∀ t ∈ swapped, t ∈ l ∨ t = merged := by
  obtain ⟨front, back, rfl, rfl⟩ := replaceRun_eq_some h
  intro t ht
  simp only [List.mem_append, List.mem_cons] at ht ⊢
  tauto

section FilesInv

variable {s : TableStore}

/-- A new file under a new name, for a flush or left behind by one. -/
theorem FilesInv.newFile (h : FilesInv s) (sst : SSTable) {ts : Nat} (hid : sst.id = tableID ts 0)
    (hts : ValidStamp ts) (hclock : s.clock < ts) (phase : FlushPhase)
    (hphase : phase = .written sst ∨ phase = .failed sst.entries) :
    FilesInv { s with files := s.files.insert sst.id sst, flush := phase, clock := ts } where
  files_named := by
    intro id hmem
    rcases Std.ExtTreeMap.mem_insert.mp hmem with he | hmem
    · exact ⟨0, ts, (Std.compare_eq_iff_eq.mp he).symm.trans hid, hts.2, le_rfl⟩
    · obtain ⟨n, hn⟩ := h.files_named id hmem
      exact ⟨n, hn.mono hclock.le⟩
  files_id := files_id_insert h.files_id
  used_named := fun t ht => (h.used_named t ht).imp fun _ hn => hn.mono hclock.le
  merged_named := fun m hm => (h.merged_named m hm).imp fun _ hn => hn.mono hclock.le
  listed_files := fun id hl => Std.ExtTreeMap.mem_insert.mpr (Or.inr (h.listed_files id hl))
  written_file := fun run m hm => Std.ExtTreeMap.mem_insert.mpr (Or.inr (h.written_file run m hm))
  doomed_unlisted := h.doomed_unlisted
  flush_file := by
    intro t (ht : phase = .written t)
    obtain rfl : sst = t := by
      rcases hphase with rfl | rfl
      · exact FlushPhase.written.inj ht
      · cases ht
    refine ⟨Std.ExtTreeMap.mem_insert_self, ⟨ts, hid, hts.2, le_rfl⟩, fun t ht => ?_⟩
    obtain ⟨n, hn⟩ := h.used_named t ht
    exact hid ▸ hn.ne_flushID hts hclock
  registered_named := by
    intro t (ht : phase = .registered t)
    rcases hphase with rfl | rfl <;> cases ht

/-- Leaving or entering a phase of the flush that has no file of its own. -/
theorem FilesInv.setFlush (h : FilesInv s) {phase : FlushPhase} {clock : Nat}
    (hw : ∀ sst, phase ≠ .written sst) (hr : ∀ sst, phase ≠ .registered sst)
    (hclock : s.clock ≤ clock) : FilesInv { s with flush := phase, clock := clock } where
  files_named := fun id hid => (h.files_named id hid).imp fun _ hn => hn.mono hclock
  files_id := h.files_id
  used_named := fun t ht => (h.used_named t ht).imp fun _ hn => hn.mono hclock
  merged_named := fun m hm => (h.merged_named m hm).imp fun _ hn => hn.mono hclock
  listed_files := h.listed_files
  written_file := h.written_file
  doomed_unlisted := h.doomed_unlisted
  flush_file := fun sst hsst => absurd hsst (hw sst)
  registered_named := fun sst hsst => absurd hsst (hr sst)

theorem mem_doomed {phase : CompactPhase} {t : SSTable} (h : t ∈ phase.doomed) :
    t ∈ phase.run ∨ phase.merged = some t := by
  cases phase <;> simp_all [CompactPhase.doomed, CompactPhase.run, CompactPhase.merged]

/-- The table being flushed is none that a compaction may delete. -/
theorem FilesInv.doomed_ne_flush (h : FilesInv s) {sst t : SSTable} (hsst : s.flush = .written sst)
    (ht : t ∈ s.compact.doomed) : t.id ≠ sst.id := by
  obtain ⟨-, hnamed, hne⟩ := h.flush_file sst hsst
  rcases mem_doomed ht with ht | ht
  · exact hne t (List.mem_append_right _ ht)
  · obtain ⟨n, hn⟩ := h.merged_named t ht
    exact (hnamed.ne_of_compacted hn).symm

theorem FilesInv.flushAdd (h : FilesInv s) {sst : SSTable} (hsst : s.flush = .written sst)
    (written : Nat) (ok : Bool) :
    FilesInv { s with
      manifest := s.append (.add sst.id) written
      flush := if ok then .registered sst else .failed sst.entries } where
  files_named := h.files_named
  files_id := h.files_id
  used_named := h.used_named
  merged_named := h.merged_named
  listed_files := by
    obtain ⟨hfile, hnamed, -⟩ := h.flush_file sst hsst
    intro id hl
    rcases listed_append_add hnamed.validID hl with hl | ⟨rfl, -⟩
    · exact h.listed_files id hl
    · exact hfile
  written_file := h.written_file
  doomed_unlisted := by
    obtain ⟨-, hnamed, -⟩ := h.flush_file sst hsst
    intro t ht hl
    rcases listed_append_add hnamed.validID hl with hl | ⟨he, -⟩
    · exact h.doomed_unlisted t ht hl
    · exact h.doomed_ne_flush hsst ht he
  flush_file := by
    intro t ht
    cases ok <;> simp at ht
  registered_named := by
    intro t ht
    cases ok with
    | false => simp at ht
    | true =>
      obtain rfl : sst = t := by simpa using ht
      exact (h.flush_file sst hsst).2.1

theorem FilesInv.flushDone (h : FilesInv s) {sst : SSTable} (hsst : s.flush = .registered sst) :
    FilesInv { s with sstables := sst :: s.sstables, flush := .idle } :=
  { h with
    used_named := by
      intro t ht
      rcases List.mem_cons.mp ht with rfl | ht
      · exact ⟨0, h.registered_named t hsst⟩
      · exact h.used_named t ht
    flush_file := by simp
    registered_named := by simp }

/-- A compaction enters a phase that works on tables in use and deletes nothing new. -/
theorem FilesInv.setCompact (h : FilesInv s) {phase : CompactPhase}
    (hrun : ∀ t ∈ phase.run, t ∈ s.sstables ++ s.compact.run)
    (hmerged : phase.merged = none) (hdoomed : ∀ t ∈ phase.doomed, t ∈ s.compact.doomed) :
    FilesInv { s with compact := phase } :=
  have hused : ∀ t ∈ s.sstables ++ phase.run, t ∈ s.sstables ++ s.compact.run := by
    intro t ht
    rcases List.mem_append.mp ht with ht | ht
    · exact List.mem_append_left _ ht
    · exact hrun t ht
  { h with
    used_named := fun t ht => h.used_named t (hused t ht)
    merged_named := fun m hm => by simp [hmerged] at hm
    written_file := by
      rintro run m (hm : phase = _)
      simp [hm, CompactPhase.merged] at hmerged
    doomed_unlisted := fun t ht => h.doomed_unlisted t (hdoomed t ht)
    flush_file := fun sst hsst =>
      (h.flush_file sst hsst).imp_right fun hf => hf.imp_right fun hne t ht => hne t (hused t ht) }

/-- The merged file under a free name, kept or left behind by a failed write. -/
theorem FilesInv.mergedFile (h : FilesInv s) {run : List SSTable} {merged : SSTable} {n : Nat}
    (hsel : s.compact = .selected run) (hfree : merged.id ∉ s.files)
    (hnamed : NamedBy s.clock (n + 1) merged.id) :
    FilesInv { s with
      files := s.files.insert merged.id merged, compact := .written run merged } where
  files_named := by
    intro id hid
    rcases Std.ExtTreeMap.mem_insert.mp hid with he | hid
    · exact ⟨n + 1, Std.compare_eq_iff_eq.mp he ▸ hnamed⟩
    · exact h.files_named id hid
  files_id := files_id_insert h.files_id
  used_named := by
    have := h.used_named
    rwa [hsel] at this
  merged_named := by
    rintro m ⟨⟩
    exact ⟨n, hnamed⟩
  listed_files := fun id hl => Std.ExtTreeMap.mem_insert.mpr (Or.inr (h.listed_files id hl))
  written_file := by
    rintro _ m ⟨⟩
    exact Std.ExtTreeMap.mem_insert_self
  doomed_unlisted := by
    intro t ht hl
    obtain rfl := List.mem_singleton.mp ht
    exact hfree (h.listed_files _ hl)
  flush_file := by
    intro sst hsst
    obtain ⟨hfile, hname, hne⟩ := h.flush_file sst hsst
    rw [hsel] at hne
    exact ⟨Std.ExtTreeMap.mem_insert.mpr (Or.inr hfile), hname, hne⟩
  registered_named := h.registered_named

theorem FilesInv.compactAdd (h : FilesInv s) {run : List SSTable} {merged : SSTable}
    (hc : s.compact = .written run merged) (written : Nat) (ok : Bool)
    (hfail : ok = false → written < (Call.add merged.id).bytes.length) :
    FilesInv { s with
      manifest := s.append (.add merged.id) written
      compact := if ok then .added run merged else .unregistered merged } := by
  obtain ⟨n, hnamed⟩ := h.merged_named merged (by simp [hc, CompactPhase.merged])
  have hused := h.used_named
  have hdoomed := h.doomed_unlisted
  have hflush := h.flush_file
  rw [hc] at hused hdoomed hflush
  have hlisted : ∀ id, Listed (s.append (.add merged.id) written) id → id ∈ s.files := by
    intro id hl
    rcases listed_append_add hnamed.validID hl with hl | ⟨rfl, -⟩
    · exact h.listed_files id hl
    · exact h.written_file run merged hc
  cases ok with
  | true =>
    exact { h with
      used_named := hused
      merged_named := by
        rintro m ⟨⟩
        exact ⟨n, hnamed⟩
      listed_files := hlisted
      written_file := by simp
      doomed_unlisted := by simp [CompactPhase.doomed]
      flush_file := hflush }
  | false =>
    exact { h with
      used_named := fun t ht => hused t (by simpa [CompactPhase.run] using Or.inl ht)
      merged_named := by
        rintro m ⟨⟩
        exact ⟨n, hnamed⟩
      listed_files := hlisted
      written_file := by simp
      doomed_unlisted := by
        intro t ht hl
        obtain rfl := List.mem_singleton.mp ht
        rcases listed_append_add hnamed.validID hl with hl | ⟨-, hlen⟩
        · exact hdoomed t (List.mem_singleton.mpr rfl) hl
        · exact absurd (hfail rfl) (not_lt.mpr hlen)
      flush_file := fun sst hsst => (hflush sst hsst).imp_right fun hf =>
        hf.imp_right fun hne t ht => hne t (by simpa [CompactPhase.run] using Or.inl ht) }

/-- Deleting a file that a compaction may delete. -/
theorem FilesInv.unlinkDoomed (h : FilesInv s) {t : SSTable} (ht : t ∈ s.compact.doomed)
    (gone : Bool) (hnot : ∀ run merged, s.compact ≠ .written run merged) :
    FilesInv { s with files := unlink s.files t gone } :=
  { h with
    files_named := fun id hid => h.files_named id (mem_unlink.mp hid).1
    files_id := files_id_unlink h.files_id
    listed_files := fun id hl => mem_unlink.mpr ⟨h.listed_files id hl, fun _ he =>
      h.doomed_unlisted t ht (he ▸ hl)⟩
    written_file := fun run merged hm => absurd hm (hnot run merged)
    flush_file := by
      intro sst hsst
      obtain ⟨hfile, hrest⟩ := h.flush_file sst hsst
      exact ⟨mem_unlink.mpr ⟨hfile, fun _ he => h.doomed_ne_flush hsst ht he.symm⟩, hrest⟩ }

theorem FilesInv.compactRemove (h : FilesInv s) {run : List SSTable} {merged : SSTable}
    (hc : s.compact = .added run merged) (written : Nat) (ok : Bool)
    (hok : ok = true → (Call.remove (run.map SSTable.id)).bytes.length ≤ written) :
    FilesInv { s with
      manifest := s.append (.remove (run.map SSTable.id)) written
      compact := if ok then .removed run merged else .idle } := by
  have hused := h.used_named
  have hflush := h.flush_file
  have hmerged := h.merged_named merged (by simp [hc, CompactPhase.merged])
  rw [hc] at hused hflush
  have hids : ∀ id ∈ run.map SSTable.id, ValidID id := by
    intro id hid
    obtain ⟨t, ht, rfl⟩ := List.mem_map.mp hid
    obtain ⟨n, hn⟩ := hused t (List.mem_append_right _ ht)
    exact hn.validID
  have hlisted : ∀ id, Listed (s.append (.remove (run.map SSTable.id)) written) id → id ∈ s.files :=
    fun id hl => h.listed_files id (listed_append_remove hids hl).1
  cases ok with
  | true =>
    exact { h with
      used_named := hused
      merged_named := by
        rintro m ⟨⟩
        exact hmerged
      listed_files := hlisted
      written_file := by simp
      doomed_unlisted := fun t ht hl =>
        (listed_append_remove hids hl).2 (hok rfl) (List.mem_map.mpr ⟨t, ht, rfl⟩)
      flush_file := hflush }
  | false =>
    exact { h with
      used_named := fun t ht => hused t (by simpa [CompactPhase.run] using Or.inl ht)
      merged_named := by simp [CompactPhase.merged]
      listed_files := hlisted
      written_file := by simp
      doomed_unlisted := by simp [CompactPhase.doomed]
      flush_file := fun sst hsst => (hflush sst hsst).imp_right fun hf =>
        hf.imp_right fun hne t ht => hne t (by simpa [CompactPhase.run] using Or.inl ht) }

theorem FilesInv.compactSwap (h : FilesInv s) {run swapped : List SSTable} {merged : SSTable}
    (hc : s.compact = .removed run merged)
    (hswap : replaceRun run merged s.sstables = some swapped) :
    FilesInv { s with sstables := swapped, compact := .swapped run } := by
  have hused := h.used_named
  have hdoomed := h.doomed_unlisted
  have hflush := h.flush_file
  obtain ⟨n, hnamed⟩ := h.merged_named merged (by simp [hc, CompactPhase.merged])
  rw [hc] at hused hdoomed hflush
  have hmem : ∀ t ∈ swapped ++ run, t ∈ s.sstables ++ run ∨ t = merged := by
    intro t ht
    rcases List.mem_append.mp ht with ht | ht
    · exact (mem_replaceRun hswap t ht).imp_left (List.mem_append_left _)
    · exact Or.inl (List.mem_append_right _ ht)
  exact { h with
    used_named := by
      intro t ht
      rcases hmem t ht with ht | rfl
      · exact hused t ht
      · exact ⟨n + 1, hnamed⟩
    merged_named := by simp [CompactPhase.merged]
    written_file := by simp
    doomed_unlisted := hdoomed
    flush_file := by
      intro sst hsst
      obtain ⟨hfile, hname, hne⟩ := hflush sst hsst
      refine ⟨hfile, hname, fun t ht => ?_⟩
      rcases hmem t ht with ht | rfl
      · exact hne t ht
      · exact (hname.ne_of_compacted hnamed).symm }

theorem FilesInv.reopen (h : FilesInv s) {tables : List SSTable}
    (hload : loadLiveSSTables s.manifest s.files = .ok tables) :
    FilesInv { s with sstables := tables, flush := .idle, compact := .idle } :=
  { h with
    used_named := by
      intro t ht
      rw [CompactPhase.run, List.append_nil] at ht
      unfold loadLiveSSTables at hload
      split at hload
      · simp at hload
      · obtain ⟨id, -, hfile⟩ := mem_loadTables hload t ht
        rw [h.files_id id t hfile]
        exact h.files_named id (Std.ExtTreeMap.mem_iff_isSome_getElem?.mpr (by simp [hfile]))
    merged_named := by simp [CompactPhase.merged]
    written_file := by simp
    doomed_unlisted := by simp [CompactPhase.doomed]
    flush_file := by simp
    registered_named := by simp }

/-- The name and place of the merged table of a selected run. -/
theorem FilesInv.mergedTable_named (h : FilesInv s) {newest : SSTable} {rest : List SSTable}
    (hsel : s.compact = .selected (newest :: rest)) (fileSize : List Entry → Nat) :
    (mergedTable fileSize s.files (newest :: rest) newest).id ∉ s.files ∧
      ∃ n, NamedBy s.clock (n + 1) (mergedTable fileSize s.files (newest :: rest) newest).id := by
  obtain ⟨n, ts, hid, hts, hclock⟩ := h.used_named newest (by simp [hsel, CompactPhase.run])
  obtain ⟨j, hj, hfree⟩ := compactedID_spec s.files (n := n) hts
  have hmerged : (mergedTable fileSize s.files (newest :: rest) newest).id =
      compactedID s.files (tableID ts n) := by
    rw [← hid]
    rfl
  rw [hmerged]
  refine ⟨hfree, n + j, ts, ?_, hts, hclock⟩
  rw [hj, show n + 1 + j = n + j + 1 by omega]

theorem filesInv_step {fileSize : List Entry → Nat} {s' : TableStore} {a : TableAct}
    (h : FilesInv s) (ha : s.NoOrphanedLine a) (hstep : Step fileSize s a s') : FilesInv s' := by
  cases hstep with
  | flushStart => exact h.setFlush (by simp) (by simp) le_rfl
  | flushWrite entries ts hf hw hts hclock =>
    exact h.newFile ⟨flushID ts, entries, fileSize entries⟩ (flushID_eq_tableID ts) hts hclock _
      (Or.inl rfl)
  | flushWriteFail entries ts left hf hts hclock =>
    cases left with
    | false => exact h.setFlush (by simp) (by simp) hclock.le
    | true =>
      exact h.newFile ⟨flushID ts, entries, fileSize entries⟩ (flushID_eq_tableID ts) hts hclock _
        (Or.inr rfl)
  | flushAdd sst written ok hf => exact h.flushAdd hf written ok
  | flushDone sst hf => exact h.flushDone hf
  | flushPutBack => exact h.setFlush (by simp) (by simp) le_rfl
  | compactSelect newest rest hc hrun =>
    refine h.setCompact (fun t ht => ?_) rfl (by simp [CompactPhase.doomed])
    rcases selectTierForCompaction_infix s.sstables with hnil | ⟨hin, -⟩
    · simp [hnil] at hrun
    · exact List.mem_append_left _ (hin.subset (hrun ▸ ht))
  | compactWrite newest rest hc =>
    obtain ⟨hfree, n, hnamed⟩ := h.mergedTable_named hc fileSize
    exact h.mergedFile hc hfree hnamed
  | compactWriteFail newest rest left hc =>
    obtain ⟨hfree, n, hnamed⟩ := h.mergedTable_named hc fileSize
    cases left with
    | false => exact h.setCompact (by simp [CompactPhase.run]) rfl (by simp [CompactPhase.doomed])
    | true =>
      exact (h.mergedFile hc hfree hnamed).setCompact (by simp [CompactPhase.run]) rfl
        (by simp [CompactPhase.doomed])
  | compactAdd run merged written ok hc =>
    refine h.compactAdd hc written ok fun hok => ?_
    subst hok
    simpa [leavesOrphan, hc] using ha.2
  | compactUnlink merged gone hc =>
    exact (h.unlinkDoomed (by simp [hc, CompactPhase.doomed]) gone (by simp [hc])).setCompact
      (by simp [CompactPhase.run]) rfl (by simp [CompactPhase.doomed])
  | compactRemove run merged written ok hc =>
    exact h.compactRemove hc written ok fun hok =>
      ha.1 (.remove (run.map SSTable.id), written, ok) (by simp [manifestCall, hc]) hok
  | compactSwap run merged swapped hc hswap => exact h.compactSwap hc hswap
  | compactNoSwap run | compactDone =>
    exact h.setCompact (by simp [CompactPhase.run]) rfl (by simp [CompactPhase.doomed])
  | compactDelete src rest gone hc =>
    refine (h.unlinkDoomed (t := src) (by simp [hc, CompactPhase.doomed]) gone
      (by simp [hc])).setCompact (fun t ht => ?_) rfl fun t ht => ?_
    · exact List.mem_append_right _ (by
        simpa [hc, CompactPhase.run] using Or.inr ht)
    · simpa [hc, CompactPhase.doomed] using Or.inr ht
  | reopen tables hload => exact h.reopen hload

end FilesInv

theorem filesInv_of_run {fileSize : List Entry → Nat} {hist : List SSTable} {s : TableStore}
    (h : Run fileSize NoOrphanedLine hist s) : FilesInv s := by
  induction h with
  | start => exact filesInv_create
  | step hrun ha hstep ih => exact filesInv_step ih ha (step_sound hstep)

theorem missing_of_loadTables {files : Files} {id : String} : ∀ {ids : List String},
    loadTables files ids = .error (.missingSSTable id) → id ∈ ids ∧ id ∉ files
  | [], h => by simp [loadTables] at h
  | id' :: ids, h => by
    simp only [loadTables] at h
    split at h
    · next hnone =>
      obtain rfl : id' = id := by simpa using h
      exact ⟨List.mem_cons_self, by simpa using hnone⟩
    · cases hrest : loadTables files ids with
      | ok => simp [hrest, Except.map] at h
      | error e =>
        obtain rfl : e = .missingSSTable id := by simpa [hrest, Except.map] using h
        exact (missing_of_loadTables hrest).imp_left (List.mem_cons_of_mem _)

/-- In every run without an orphaned line, every ID the MANIFEST yields has its file, and
no Open fails on a missing SSTable. -/
theorem open_finds_files {fileSize : List Entry → Nat} {hist : List SSTable} {s : TableStore}
    (h : Run fileSize NoOrphanedLine hist s) :
    (∀ live, replay s.manifest = .ok live → ∀ id ∈ live, id ∈ s.files) ∧
      ∀ id, loadLiveSSTables s.manifest s.files ≠ .error (.missingSSTable id) := by
  have hfiles : ∀ live, replay s.manifest = .ok live → ∀ id ∈ live, id ∈ s.files :=
    fun live hlive id hid => (filesInv_of_run h).listed_files id ⟨live, hlive, hid⟩
  refine ⟨hfiles, fun id hload => ?_⟩
  unfold loadLiveSSTables at hload
  split at hload
  · simp at hload
  · next live hlive =>
    obtain ⟨hmem, hnot⟩ := missing_of_loadTables hload
    rw [List.mem_reverse, List.mem_insertionSort] at hmem
    exact hnot (hfiles live hlive id (Std.ExtTreeSet.mem_toList.mp hmem))

/-- A whole flush, its line written completely. -/
def flushAll (ts : Nat) (entries : List Entry) : List TableAct :=
  [.flushStart entries, .flushWrite ts, .flushAdd 100 true, .flushFinish]

/-- A whole flush of one version. -/
def flushOne (ts : Nat) (v : DataItem) : List TableAct :=
  flushAll ts [⟨"k", v⟩]

/-- A whole compaction of a run of `n` tables. -/
def compactAll (n : Nat) : List TableAct :=
  [.compactSelect, .compactWrite, .compactAdd 100 true, .compactRemove 1000 true, .compactSwap] ++
    List.replicate (n + 1) (.compactDelete true)

/-- Four flushes and a compaction up to its Add, which fails at the fsync with so many bytes
of its line written, so that the merged file is deleted. -/
def failedCompaction (written : Nat) (v : DataItem) : List TableAct :=
  flushOne 1700000000000000001 v ++ flushOne 1700000000000000002 v ++
    flushOne 1700000000000000003 v ++ flushOne 1700000000000000004 v ++
    [.compactSelect, .compactWrite, .compactAdd written false, .compactUnlink true]

def sampleItem : DataItem :=
  ⟨"v", VectorClock.buildFromContext ∅ "A", "A", false⟩

/-- A compaction fails with nothing of its line written, the next one goes through, and the
directory is opened again. -/
theorem open_finds_files_recompacted : ∃ s : TableStore,
    s.sstables.length = 1 ∧ s.files.size = 1 ∧
      ∀ id, loadLiveSSTables s.manifest s.files ≠ .error (.missingSSTable id) := by
  have h : (runActs (fun _ => 100) NoOrphanedLine [] create
      (failedCompaction 0 sampleItem ++ compactAll 4 ++ [.reopen])).map
      (fun r => (r.2.sstables.length, r.2.files.size)) = some (1, 1) := by
    decide +kernel
  obtain ⟨⟨hist, s⟩, hs, hx⟩ := Option.map_eq_some_iff.mp h
  obtain ⟨hlen, hsize⟩ := Prod.mk.inj hx
  exact ⟨s, hlen, hsize, (open_finds_files (Run.start.runActs hs)).2⟩

/-- The orphaned line : the MANIFEST lists the merged table whose file is gone, and the
next Open fails. -/
theorem orphaned_line_breaks_open : ∃ hist s, Run (fun _ => 100) Possible hist s ∧
    loadLiveSSTables s.manifest s.files =
      .error (.missingSSTable "sst_1700000000000000004_c") := by
  have h : (runActs (fun _ => 100) Possible [] create (failedCompaction 100 sampleItem)).map
      (fun r => loadLiveSSTables r.2.manifest r.2.files) =
      some (.error (.missingSSTable "sst_1700000000000000004_c")) := by
    decide +kernel
  obtain ⟨⟨hist, s⟩, hs, hload⟩ := Option.map_eq_some_iff.mp h
  exact ⟨hist, s, Run.start.runActs hs, hload⟩

end TableStore

end DistributedKV
