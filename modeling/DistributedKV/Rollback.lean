import DistributedKV.CompactionReads
import DistributedKV.Durability

/-!
# Rollbacks across crashes

A Restore that returned nil has made its items all that readers see of the key. It stays
so over flushes, deleted segments and crashes as long as the records an Open replays have
the Restore after everything older (`AfterRestore`), or nothing older at all
(`SinceRestore`). Deletions go oldest first, so that holds of the segments that were never
deleted.

It is lost when a crash undoes the deletion of a segment from before the Restore and not
that of the Restore's own : `rolledBack_write_returns`. `read_rolledBack` is the case that
no crash does so.

`Rolled` is the invariant. The registered tables are newer ones that hold only the
Restore's items and versions put since, in front of older ones that the items cover. The
items themselves are covered by the memtables and the newer tables; the segments that may
be deleted are those without which the newer tables cover them.
-/

open Maxima

namespace DistributedKV

open DataItem (vectorClock)

/-- Steps of a compaction. -/
def TableAct.compacts : TableAct → Bool
  | .compactSelect | .compactWrite | .compactWriteFail _ | .compactAdd _ _ | .compactUnlink _
  | .compactRemove _ _ | .compactSwap | .compactDelete _ => true
  | _ => false

namespace Engine

/-- Of the key, the records only put versions from `r.2`. -/
def SinceRestore (key : String) (r : List DataItem × List DataItem) (entries : List WalEntry) :
    Prop :=
  ∀ e ∈ entries, e.key = key → ∃ x ∈ r.2, e = .put key x

/-- The Restore of `r.1` is there, and after it only versions from `r.2` are put. -/
def AfterRestore (key : String) (r : List DataItem × List DataItem) (entries : List WalEntry) :
    Prop :=
  ∃ front back, entries = front ++ .restore key r.1 :: back ∧ SinceRestore key r back

section Records

variable {key : String} {r r' : List DataItem × List DataItem} {a b : List WalEntry}

theorem sinceRestore_append :
    SinceRestore key r (a ++ b) ↔ SinceRestore key r a ∧ SinceRestore key r b :=
  List.forall_mem_append

theorem SinceRestore.mono (h : SinceRestore key r a) (hle : ∀ x ∈ r.2, x ∈ r'.2) :
    SinceRestore key r' a :=
  fun e he hk => (h e he hk).imp fun x hx => ⟨hle x hx.1, hx.2⟩

theorem SinceRestore.sublist (h : SinceRestore key r b) (hs : a.Sublist b) : SinceRestore key r a :=
  fun e he => h e (hs.mem he)

theorem AfterRestore.mono (h : AfterRestore key r a) (h1 : r'.1 = r.1) (hle : ∀ x ∈ r.2, x ∈ r'.2) :
    AfterRestore key r' a := by
  obtain ⟨front, back, rfl, hback⟩ := h
  exact ⟨front, back, by rw [h1], hback.mono hle⟩

theorem AfterRestore.append (h : AfterRestore key r a) (hb : SinceRestore key r b) :
    AfterRestore key r (a ++ b) := by
  obtain ⟨front, back, rfl, hback⟩ := h
  exact ⟨front, back ++ b, by simp, sinceRestore_append.mpr ⟨hback, hb⟩⟩

theorem AfterRestore.append_left (h : AfterRestore key r b) (a : List WalEntry) :
    AfterRestore key r (a ++ b) := by
  obtain ⟨front, back, rfl, hback⟩ := h
  exact ⟨a ++ front, back, by simp, hback⟩

/-- What is left when the front is cut off still has the Restore, or only what came after. -/
theorem AfterRestore.right (h : AfterRestore key r (a ++ b)) :
    AfterRestore key r b ∨ SinceRestore key r b := by
  obtain ⟨front, back, heq, hback⟩ := h
  rcases List.append_eq_append_iff.mp heq with ⟨c, rfl, hb⟩ | ⟨c, rfl, hb⟩
  · exact Or.inl ⟨c, back, hb, hback⟩
  · cases c with
    | nil => exact Or.inl ⟨[], back, by simpa using hb.symm, hback⟩
    | cons =>
      cases hb
      exact Or.inr (sinceRestore_append.mp hback).2

theorem AfterRestore.not_since (h : AfterRestore key r a) (hsub : ∀ e ∈ a, e ∈ b) :
    ¬SinceRestore key r b := by
  obtain ⟨front, back, rfl, -⟩ := h
  intro hb
  obtain ⟨x, -, hx⟩ := hb (.restore key r.1) (hsub _ (by simp)) rfl
  cases hx

theorem SinceRestore.not_restores (h : SinceRestore key r a) : ∀ e ∈ a, restores key e = false := by
  intro e he
  cases e with
  | put => rfl
  | restore k =>
    by_contra hk
    have hk : k = key := by simpa [restores] using hk
    obtain ⟨x, -, hx⟩ := h _ he hk
    cases hx

theorem SinceRestore.putsOf (h : SinceRestore key r a) : ∀ x ∈ putsOf key a, x ∈ r.2 := by
  intro x hx
  obtain ⟨y, hy, he⟩ := h _ (mem_putsOf.mp hx) rfl
  cases he
  exact hy

theorem sinceRestore_of_puts (h : ∀ e ∈ a, restores key e = false)
    (hputs : ∀ x ∈ Engine.putsOf key a, x ∈ r.2) : SinceRestore key r a := by
  intro e he hk
  cases e with
  | put k item =>
    obtain rfl : k = key := hk
    exact ⟨item, hputs item (mem_putsOf.mpr he), rfl⟩
  | restore k =>
    obtain rfl : k = key := hk
    simpa [restores] using h _ he

end Records

/-! ## The invariant -/

/-- Each version of `l` is covered by `items`. -/
def Covered (items l : List DataItem) : Prop :=
  ∀ w ∈ l, Covers vectorClock items w.vectorClock

/-- Only the Restore's items and versions put since. -/
def Only (r : List DataItem × List DataItem) (l : List DataItem) : Prop :=
  ∀ w ∈ l, w ∈ r.1 ∨ w ∈ r.2

/-- The fsynced records on disk. -/
def onDisk (s : Engine) : List WalEntry :=
  s.sealed.flatMap Segment.records ++ s.current.records

/-- Those that a deletion through segment `n` leaves. -/
def beyond (s : Engine) (n : Nat) : List WalEntry :=
  (s.sealed.dropWhile (·.seq ≤ n)).flatMap Segment.records ++ s.current.records

/-- The segments through `n` may go : the Restore is in a later one, or the newer tables
cover its items. -/
def Spared (key : String) (r : List DataItem × List DataItem) (s : Engine) (post : List SSTable)
    (n : Nat) : Prop :=
  AfterRestore key r (s.beyond n) ∨ Covered (tableItems post key) r.1

/-- The memtable was frozen before the Restore; none of the tables is newer. -/
structure FrozenBefore (key : String) (r : List DataItem × List DataItem) (s : Engine)
    (post : List SSTable) (f : MemTable × Nat) : Prop where
  covered : Covered r.1 (f.1.current key)
  post_nil : post = []
  active : Covered (s.active.current key) r.1
  spared : Spared key r s post f.2

/-- The memtable was frozen with the Restore in it, or after. -/
structure FrozenSince (key : String) (r : List DataItem × List DataItem) (s : Engine)
    (post : List SSTable) (f : MemTable × Nat) : Prop where
  only : Only r (f.1.current key)
  covers : Covered (f.1.current key ++ tableItems post key) r.1
  registered : ∀ sst, s.tables.flush = .registered sst → Covered (tableItems post key) r.1

/-- How a Restore of the key that returned nil lives on. `post` are the tables flushed with
it or after it, `old` the others. -/
structure Rolled (key : String) (r : List DataItem × List DataItem) (t : Trace) (s : Engine)
    (post old : List SSTable) : Prop where
  tables : t.tables = post ++ old
  old_covered : Covered r.1 (tableItems old key)
  post_only : Only r (tableItems post key)
  active_only : Only r (s.active.current key)
  unfrozen : s.flushing = none → Covered (s.active.current key ++ tableItems post key) r.1
  frozen : ∀ f ∈ s.flushing, FrozenBefore key r s post f ∨ FrozenSince key r s post f
  batch : ∀ b, s.writer = .logging b ∨ s.writer = .logged b → SinceRestore key r b
  tail : SinceRestore key r s.current.tail
  disk : AfterRestore key r s.onDisk ∨
    (SinceRestore key r s.onDisk ∧ Covered (tableItems post key) r.1)
  due : ∀ n ∈ s.deletions, Spared key r s post n

section Lists

variable {r r' : List DataItem × List DataItem} {a b c : List DataItem}

theorem covered_append_right : Covered a (b ++ c) ↔ Covered a b ∧ Covered a c :=
  List.forall_mem_append

theorem Covered.mono (h : Covered a c) (hsub : ∀ w ∈ a, w ∈ b) : Covered b c :=
  fun w hw => (h w hw).mono hsub

theorem Covered.trans (h : Covered a b) (h' : Covered b c) : Covered a c := by
  intro w hw
  obtain ⟨v, hv, hle⟩ := h' w hw
  exact (h v hv).of_le hle

theorem only_append : Only r (a ++ b) ↔ Only r a ∧ Only r b :=
  List.forall_mem_append

theorem Only.mono (h : Only r a) (h1 : r'.1 = r.1) (hle : ∀ x ∈ r.2, x ∈ r'.2) : Only r' a :=
  fun w hw => (h w hw).imp (h1 ▸ ·) (hle w)

theorem Only.subset (h : Only r b) (hsub : ∀ w ∈ a, w ∈ b) : Only r a :=
  fun w hw => h w (hsub w hw)

end Lists

variable {fileSize : List Entry → Nat} {maxBytes : Int} {key : String}
  {r r' : List DataItem × List DataItem} {t t' : Trace} {s s' : Engine} {a : EngineAct}
  {post old : List SSTable}

theorem Spared.mono {n : Nat} (h : Spared key r s post n) (h1 : r'.1 = r.1)
    (hle : ∀ x ∈ r.2, x ∈ r'.2) : Spared key r' s post n := by
  rcases h with h | h
  · exact Or.inl (h.mono h1 hle)
  · exact Or.inr (h1 ▸ h)

/-- More versions have been put since. -/
theorem Rolled.mono (h : Rolled key r t s post old) (h1 : r'.1 = r.1) (hle : ∀ x ∈ r.2, x ∈ r'.2)
    (ht : t'.tables = t.tables) : Rolled key r' t' s post old where
  tables := ht.trans h.tables
  old_covered := h1 ▸ h.old_covered
  post_only := h.post_only.mono h1 hle
  active_only := h.active_only.mono h1 hle
  unfrozen := h1 ▸ h.unfrozen
  frozen := fun f hf => by
    rcases h.frozen f hf with hf | hf
    · exact Or.inl ⟨h1 ▸ hf.covered, hf.post_nil, h1 ▸ hf.active, hf.spared.mono h1 hle⟩
    · exact Or.inr ⟨hf.only.mono h1 hle, h1 ▸ hf.covers, h1 ▸ hf.registered⟩
  batch := fun b hb => (h.batch b hb).mono hle
  tail := h.tail.mono hle
  disk := by
    rcases h.disk with hd | ⟨hd, hc⟩
    · exact Or.inl (hd.mono h1 hle)
    · exact Or.inr ⟨hd.mono hle, h1 ▸ hc⟩
  due := fun n hn => (h.due n hn).mono h1 hle

/-! ## Steps of the log -/

/-- Records that only put versions since the Restore may follow what is on disk. -/
theorem Rolled.extend (h : Rolled key r t s post old) (hshape : Shape s) {extra : List WalEntry}
    (hextra : SinceRestore key r extra) (hactive : s'.active = s.active)
    (hflushing : s'.flushing = s.flushing) (htables : s'.tables = s.tables)
    (hdeletions : s'.deletions = s.deletions) (hdisk : s'.onDisk = s.onDisk ++ extra)
    (hbeyond : ∀ n < s.current.seq, s'.beyond n = s.beyond n ++ extra)
    (hbatch : ∀ b, s'.writer = .logging b ∨ s'.writer = .logged b → SinceRestore key r b)
    (htail : SinceRestore key r s'.current.tail) : Rolled key r t s' post old := by
  have hspared : ∀ n < s.current.seq, Spared key r s post n → Spared key r s' post n := by
    intro n hn hs
    rcases hs with hs | hs
    · exact Or.inl (hbeyond n hn ▸ hs.append hextra)
    · exact Or.inr hs
  refine ⟨h.tables, h.old_covered, h.post_only, hactive ▸ h.active_only, ?_, ?_, hbatch, htail, ?_,
    ?_⟩
  · rw [hflushing, hactive]
    exact h.unfrozen
  · intro f hf
    rw [hflushing] at hf
    rcases h.frozen f hf with hb | hb
    · exact Or.inl ⟨hb.covered, hb.post_nil, hactive ▸ hb.active,
        hspared _ (hshape.flushing_lt f hf) hb.spared⟩
    · exact Or.inr ⟨hb.only, hb.covers, htables ▸ hb.registered⟩
  · rw [hdisk]
    rcases h.disk with hd | ⟨hd, hc⟩
    · exact Or.inl (hd.append hextra)
    · exact Or.inr ⟨sinceRestore_append.mpr ⟨hd, hextra⟩, hc⟩
  · intro n hn
    rw [hdeletions] at hn
    exact hspared n (hshape.deletions_lt n hn) (h.due n hn)

theorem sinceRestore_nil : SinceRestore key r [] :=
  nofun

theorem Rolled.log (h : Rolled key r t s post old) (hshape : Shape s) {batch : List WalEntry}
    (hbatch : SinceRestore key r batch) :
    Rolled key r t
      { s with current := { s.current with tail := batch }, writer := .logging batch } post old := by
  refine h.extend hshape sinceRestore_nil rfl rfl rfl rfl (List.append_nil _).symm
    (fun _ _ => (List.append_nil _).symm) (fun b hb => ?_) hbatch
  obtain rfl : batch = b := by simpa using hb
  exact hbatch

theorem Rolled.sync (h : Rolled key r t s post old) (hshape : Shape s) {batch : List WalEntry}
    (hw : s.writer = .logging batch) :
    Rolled key r t { s with
      current := { s.current with records := s.current.records ++ batch, tail := [] }
      writer := .logged batch } post old := by
  have hbatch := h.batch batch (Or.inl hw)
  refine h.extend hshape hbatch rfl rfl rfl rfl (by simp [onDisk]) (fun _ _ => by simp [beyond])
    (fun b hb => ?_) sinceRestore_nil
  obtain rfl : batch = b := by simpa using hb
  exact hbatch

theorem Rolled.setWriter (h : Rolled key r t s post old) {phase : WriterPhase}
    (hphase : ∀ b, phase ≠ .logging b ∧ phase ≠ .logged b) :
    Rolled key r t { s with writer := phase } post old :=
  { h with
    frozen := fun f hf => (h.frozen f hf).imp
      (fun hb => ⟨hb.covered, hb.post_nil, hb.active, hb.spared⟩)
      fun hb => ⟨hb.only, hb.covers, hb.registered⟩
    batch := fun b hb => (hb.elim (hphase b).1 (hphase b).2).elim }

theorem Rolled.nextSegment (h : Rolled key r t s post old) (hshape : Shape s) :
    Rolled key r t s.nextSegment post old := by
  refine h.extend hshape sinceRestore_nil rfl rfl rfl rfl (by simp [onDisk, Engine.nextSegment])
    (fun n hn => ?_) h.batch sinceRestore_nil
  have hkept : ¬s.current.seq ≤ n := Nat.not_le.mpr hn
  simp only [beyond, Engine.nextSegment, List.append_nil, List.dropWhile_append]
  split
  · next hnil =>
    rw [List.isEmpty_iff.mp hnil]
    simp [hkept]
  · simp

/-- A batch that restores the key nowhere only adds versions put since. -/
theorem Rolled.apply (h : Rolled key r t s post old) {batch : List WalEntry}
    (hw : s.writer = .logged batch) {phase : WriterPhase}
    (hphase : ∀ b, phase ≠ .logging b ∧ phase ≠ .logged b) :
    Rolled key r t
      { s with active := (s.layers.applyBatch batch).1.active, writer := phase } post old := by
  have hbatch := h.batch batch (Or.inr hw)
  have hactive : (s.layers.applyBatch batch).1.active = batch.foldl MemTable.apply s.active := by
    rw [applyBatch_layers]
    rfl
  have hsame := sameClocks_apply s.active hbatch.not_restores
  rw [← hactive] at hsame
  have hmono : Covered ((s.layers.applyBatch batch).1.active.current key) (s.active.current key) :=
    (covered_append_right.mp hsame.covers).1
  have h' := h.setWriter hphase
  refine { h' with active_only := ?_, unfrozen := fun hnone => ?_, frozen := fun f hf => ?_ }
  · refine Only.subset (only_append.mpr ⟨h.active_only, fun w hw => Or.inr ?_⟩) hsame.mem
    exact hbatch.putsOf w hw
  · refine Covered.trans ?_ (h.unfrozen hnone)
    refine covered_append_right.mpr ⟨hmono.mono fun w hw => List.mem_append_left _ hw, ?_⟩
    exact fun w hw => ⟨w, List.mem_append_right _ hw, le_rfl⟩
  · rcases h'.frozen f hf with hb | hb
    · exact Or.inl ⟨hb.covered, hb.post_nil, hmono.trans hb.active, hb.spared⟩
    · exact Or.inr ⟨hb.only, hb.covers, hb.registered⟩

/-! ## Flushes and deletions -/

theorem Rolled.freeze (h : Rolled key r t s post old) (hshape : Shape s) {sealedSeg : Nat}
    (hw : s.writer = .rotated sealedSeg) :
    Rolled key r t { s with
      flushing := some (s.active, sealedSeg), active := .new s.active.maxBytes
      writer := .idle } post old := by
  have hdid := hshape.writer
  simp only [WriterDid, hw] at hdid
  have hflush := hshape.flush
  refine { h with
    active_only := by simp [Only]
    unfrozen := by simp
    frozen := fun f hf => ?_
    batch := by simp }
  obtain rfl : (s.active, sealedSeg) = f := by simpa using hf
  refine Or.inr ⟨h.active_only, h.unfrozen hdid.2.2.1, fun sst hsst => ?_⟩
  -- with nothing frozen no flush is under way
  rw [show s.tables.flush = .registered sst from hsst, hdid.2.2.1] at hflush
  obtain ⟨f, hf, -⟩ := hflush
  simp at hf

/-- A step of the tables that registers nothing. -/
theorem Rolled.setTables (h : Rolled key r t s post old) {tables : TableStore}
    (hreg : ∀ sst, tables.flush = .registered sst → s.tables.flush = .registered sst) :
    Rolled key r t { s with tables := tables } post old :=
  { h with
    frozen := fun f hf => by
      rcases h.frozen f hf with hb | hb
      · exact Or.inl ⟨hb.covered, hb.post_nil, hb.active, hb.spared⟩
      · exact Or.inr ⟨hb.only, hb.covers, fun sst hsst => hb.registered sst (hreg sst hsst)⟩ }

/-- The frozen memtable's table is registered : it is an old one, or the newest of those
that came after the Restore. -/
theorem Rolled.register (h : Rolled key r t s post old) {sst : SSTable} {f : MemTable × Nat}
    (hf : s.flushing = some f) (hsst : sst.entries = f.1.snapshot) (tables : TableStore) :
    ∃ post' old', Rolled key r { t with tables := sst :: t.tables } { s with tables := tables }
      post' old' := by
  have hitems : itemsOf sst.entries key = f.1.current key := by
    rw [hsst, MemTable.itemsOf_snapshot]
  have honly : ∀ g ∈ s.flushing, g = f := fun g hg => Option.some.inj (hg.symm.trans hf)
  rcases h.frozen f hf with hb | hb
  · obtain rfl := hb.post_nil
    refine ⟨[], sst :: old, { h with
      tables := by simp [h.tables]
      old_covered := ?_
      frozen := fun g hg => honly g hg ▸ Or.inl ⟨hb.covered, rfl, hb.active, hb.spared⟩ }⟩
    rw [tableItems_cons, hitems]
    exact covered_append_right.mpr ⟨hb.covered, h.old_covered⟩
  · have hpost : Covered (tableItems (sst :: post) key) r.1 := by
      rw [tableItems_cons, hitems]
      exact hb.covers
    refine ⟨sst :: post, old, { h with
      tables := by simp [h.tables]
      post_only := ?_
      unfrozen := fun hnone => by simp [hf] at hnone
      frozen := fun g hg => honly g hg ▸ Or.inr ⟨hb.only, ?_, fun _ _ => hpost⟩
      disk := h.disk.imp_right fun hd => ⟨hd.1, hpost⟩
      due := fun _ _ => Or.inr hpost }⟩
    · rw [tableItems_cons, hitems]
      exact only_append.mpr ⟨hb.only, h.post_only⟩
    · exact hpost.mono fun w hw => List.mem_append_right _ hw

theorem Rolled.flushDone (h : Rolled key r t s post old) {f : MemTable × Nat} {sst : SSTable}
    (hf : s.flushing = some f) (hsst : s.tables.flush = .registered sst) (tables : TableStore) :
    Rolled key r t { s with
      tables := tables, flushing := none, deletions := s.deletions ++ [f.2] } post old := by
  refine { h with
    unfrozen := fun _ => ?_
    frozen := by simp
    due := fun n hn => ?_ }
  · rcases h.frozen f hf with hb | hb
    · exact hb.active.mono fun w hw => List.mem_append_left _ hw
    · exact (hb.registered sst hsst).mono fun w hw => List.mem_append_right _ hw
  · rcases List.mem_append.mp hn with hn | hn
    · exact h.due n hn
    · obtain rfl := List.mem_singleton.mp hn
      rcases h.frozen f hf with hb | hb
      · exact hb.spared
      · exact Or.inr (hb.registered sst hsst)

/-- A memtable from before the Restore is put back without effect, a later one as what it
is. -/
theorem Rolled.flushFailed (h : Rolled key r t s post old) {f : MemTable × Nat}
    (hf : s.flushing = some f) (tables : TableStore) :
    Rolled key r t { s with
      tables := tables, active := s.active.putBackOlder f.1.snapshot, flushing := none }
      post old := by
  have hcurrent : (s.active.putBackOlder f.1.snapshot).current key =
      mergeSiblings (s.active.current key) (f.1.current key) := by
    rw [MemTable.current_putBackOlder, MemTable.itemsOf_snapshot]
  have hsame := sameClocks_mergeSiblings (s.active.current key) (f.1.current key)
  obtain ⟨hactive, hfrozen⟩ := covered_append_right.mp hsame.covers
  refine { h with active_only := ?_, unfrozen := fun _ => ?_, frozen := by simp }
  · rw [hcurrent]
    rcases h.frozen f hf with hb | hb
    · intro w hw
      rw [mergeSiblings_eq_foldl] at hw
      exact h.active_only w
        (mem_of_mem_foldl_insertMax_of_covers (hb.active.trans hb.covered) hw)
    · exact Only.subset (only_append.mpr ⟨h.active_only, hb.only⟩) hsame.mem
  · rw [hcurrent]
    rcases h.frozen f hf with hb | hb
    · exact (hactive.trans hb.active).mono fun w hw => List.mem_append_left _ hw
    · refine Covered.trans (covered_append_right.mpr ⟨?_, ?_⟩) hb.covers
      · exact hfrozen.mono fun w hw => List.mem_append_left _ hw
      · exact fun w hw => ⟨w, List.mem_append_right _ hw, le_rfl⟩

theorem dropWhile_of_forall {p : Segment → Bool} {a b : List Segment} (h : ∀ x ∈ a, p x = true) :
    (a ++ b).dropWhile p = b.dropWhile p := by
  rw [List.dropWhile_append, List.dropWhile_eq_nil_iff.mpr h]
  simp

/-- Of what a deletion leaves, one that goes further leaves a part from the end. -/
theorem exists_beyond (s : Engine) {m n : Nat} (h : m ≤ n) :
    ∃ front, s.beyond m = front ++ s.beyond n := by
  have hdrop : s.sealed.dropWhile (·.seq ≤ n) =
      (s.sealed.dropWhile (·.seq ≤ m)).dropWhile (·.seq ≤ n) := by
    nth_rewrite 1 [← List.takeWhile_append_dropWhile (p := (·.seq ≤ m)) (l := s.sealed)]
    refine dropWhile_of_forall fun seg hseg => ?_
    have hle : seg.seq ≤ m := by simpa using List.mem_takeWhile_imp hseg
    simpa using hle.trans h
  refine ⟨((s.sealed.dropWhile (·.seq ≤ m)).takeWhile (·.seq ≤ n)).flatMap Segment.records, ?_⟩
  rw [beyond, beyond, hdrop, ← List.append_assoc, ← List.flatMap_append,
    List.takeWhile_append_dropWhile]

theorem exists_onDisk (s : Engine) (n : Nat) : ∃ front, s.onDisk = front ++ s.beyond n := by
  refine ⟨(s.sealed.takeWhile (·.seq ≤ n)).flatMap Segment.records, ?_⟩
  rw [onDisk, beyond, ← List.append_assoc, ← List.flatMap_append,
    List.takeWhile_append_dropWhile]

/-- Segments go from the front, and only if they may. -/
theorem Rolled.deleteThrough (h : Rolled key r t s post old) {due seq : Nat}
    (hdue : s.deletions[due]? = some seq) (count : Nat) :
    Rolled key r t { s with
      sealed := s.sealed.drop ((s.sealed.takeWhile (·.seq ≤ seq)).take count).length
      deleted := s.deleted ++ (s.sealed.takeWhile (·.seq ≤ seq)).take count
      deletions := s.deletions.eraseIdx due } post old := by
  obtain ⟨doomed, rest, hd, hdrop, hsealed, hdoomed⟩ := deleteThrough_split s.sealed seq count
  rw [hd, hdrop]
  generalize hs' : ({ s with
    sealed := rest, deleted := s.deleted ++ doomed
    deletions := s.deletions.eraseIdx due } : Engine) = s'
  have hdisk : s.onDisk = doomed.flatMap Segment.records ++ s'.onDisk := by
    subst hs'
    simp [onDisk, hsealed]
  have hbeyond : ∀ m, seq ≤ m → s.beyond m = s'.beyond m := by
    intro m hm
    subst hs'
    simp only [beyond, hsealed]
    rw [dropWhile_of_forall fun seg hseg => by simpa using (hdoomed seg hseg).trans hm]
  have hspared : ∀ m, Spared key r s post m → Spared key r s' post m := by
    intro m hm
    rcases h.due seq (List.mem_of_getElem? hdue) with ha | hc
    · rcases Nat.le_total m seq with hle | hle
      · obtain ⟨front, hfront⟩ := exists_beyond s' hle
        exact Or.inl (hfront ▸ (hbeyond seq le_rfl ▸ ha).append_left front)
      · exact hm.imp_left (hbeyond m hle ▸ ·)
    · exact Or.inr hc
  have hwriter : s'.writer = s.writer ∧ s'.active = s.active ∧ s'.flushing = s.flushing ∧
      s'.tables = s.tables ∧ s'.current = s.current ∧ s'.deletions = s.deletions.eraseIdx due := by
    subst hs'
    exact ⟨rfl, rfl, rfl, rfl, rfl, rfl⟩
  obtain ⟨hw, hactive, hflushing, htables, hcurrent, hdeletions⟩ := hwriter
  refine ⟨h.tables, h.old_covered, h.post_only, hactive ▸ h.active_only, ?_, fun f hf => ?_,
    hw ▸ h.batch, hcurrent ▸ h.tail, ?_, fun m hm => ?_⟩
  · rw [hflushing, hactive]
    exact h.unfrozen
  · rw [hflushing] at hf
    rcases h.frozen f hf with hb | hb
    · exact Or.inl ⟨hb.covered, hb.post_nil, hactive ▸ hb.active, hspared _ hb.spared⟩
    · exact Or.inr ⟨hb.only, hb.covers, htables ▸ hb.registered⟩
  · rcases h.due seq (List.mem_of_getElem? hdue) with ha | hc
    · obtain ⟨front, hfront⟩ := exists_onDisk s' seq
      exact Or.inl (hfront ▸ (hbeyond seq le_rfl ▸ ha).append_left front)
    · rcases h.disk with hd | ⟨hd, -⟩
      · exact (hdisk ▸ hd).right.imp_right fun hsince => ⟨hsince, hc⟩
      · exact Or.inr ⟨(sinceRestore_append.mp (hdisk ▸ hd)).2, hc⟩
  · rw [hdeletions] at hm
    exact hspared m (h.due m (List.mem_of_mem_eraseIdx hm))

/-! ## A Restore that returned nil -/

/-- What `settle` keeps is the last Restore of the key in the batch, read back as it was
given, with the versions put after it. -/
theorem settle_spec {key : String} {r : List DataItem × List DataItem} :
    ∀ (batch : List WalEntry) (l : Layers) (r₀ : Option (List DataItem × List DataItem)),
    settle key (batch.zip (l.applyBatch batch).2.2) r₀ = some r →
    (∃ p, r₀ = some p ∧ (∀ e ∈ batch, restores key e = false) ∧
      r = (p.1, p.2 ++ putsOf key batch)) ∨
    ∃ front back, batch = front ++ .restore key r.1 :: back ∧
      (∀ e ∈ back, restores key e = false) ∧ r.2 = putsOf key back ∧
      ((l.applyBatch front).1.restore key r.1).getAll key = r.1
  | [], l, r₀, h => Or.inl ⟨r, by simpa [settle, Layers.applyBatch] using h, by simp, by simp [putsOf]⟩
  | .put k item :: batch, l, r₀, h => by
    rcases settle_spec batch (l.applyEntry (.put k item)).1 _ h with
      ⟨p, hp, hnone, hr⟩ | ⟨front, back, rfl, hback, hputs, hread⟩
    · left
      by_cases hk : k = key
      · subst hk
        obtain ⟨q, rfl, rfl⟩ : ∃ q, r₀ = some q ∧ (q.1, q.2 ++ [item]) = p := by simpa using hp
        exact ⟨q, rfl, List.forall_mem_cons.mpr ⟨rfl, hnone⟩, by simp [hr, putsOf]⟩
      · simp only [hk, if_false] at hp
        exact ⟨p, hp, List.forall_mem_cons.mpr ⟨rfl, hnone⟩, by simp [hr, putsOf, hk]⟩
    · exact Or.inr ⟨.put k item :: front, back, rfl, hback, hputs, hread⟩
  | .restore k items :: batch, l, r₀, h => by
    rcases settle_spec batch (l.applyEntry (.restore k items)).1 _ h with
      ⟨p, hp, hnone, hr⟩ | ⟨front, back, rfl, hback, hputs, hread⟩
    · by_cases hk : k = key
      · subst hk
        simp only [if_true] at hp
        split at hp
        · next hok =>
          cases hp
          exact Or.inr ⟨[], batch, by simp [hr], hnone, by simp [hr],
            by simpa [hr, Layers.applyBatch] using hok⟩
        · cases hp
      · simp only [hk, if_false] at hp
        refine Or.inl ⟨p, hp, List.forall_mem_cons.mpr ⟨by simp [restores, hk], hnone⟩, ?_⟩
        simp [hr, putsOf]
    · exact Or.inr ⟨.restore k items :: front, back, rfl, hback, hputs, hread⟩

/-- Right after it the items cover everything else the key has, in memtables and tables. -/
theorem rolled_of_restore (hshape : Shape s)
    (htables : TableStore.Run fileSize TableStore.AllOrNothing t.tables s.tables)
    {batch : List WalEntry} (hw : s.writer = .logged batch)
    (hr : settle key (batch.zip (s.layers.applyBatch batch).2.2) none = some r)
    {phase : WriterPhase} (hphase : ∀ b, phase ≠ .logging b ∧ phase ≠ .logged b)
    (ht : t'.tables = t.tables) :
    Rolled key r t'
      { s with active := (s.layers.applyBatch batch).1.active, writer := phase } [] t.tables := by
  rcases settle_spec batch s.layers none hr with ⟨p, hp, -⟩ | ⟨front, back, rfl, hback, hputs, hread⟩
  · cases hp
  have hdid := hshape.writer
  simp only [WriterDid, hw] at hdid
  obtain ⟨-, htail, before, hbefore⟩ := hdid
  have hsince : SinceRestore key r back := sinceRestore_of_puts hback fun x hx => hputs ▸ hx
  -- what the read back said about the other layers
  have hcovered : Covered r.1 (s.layers.flushingItems key ++ tableItems s.tables.sstables key) := by
    intro w hw
    rw [← hread, Layers.covers_getAll, applyBatch_layers]
    exact ⟨w, List.mem_append_right _ hw, le_rfl⟩
  have hall : Covered r.1 (s.layers.flushingItems key ++ tableItems t.tables key) :=
    hcovered.trans (sameClocks_tables hshape htables key).covers
  obtain ⟨hfrozen, hold⟩ := covered_append_right.mp hall
  have hactive : (s.layers.applyBatch (front ++ .restore key r.1 :: back)).1.active =
      back.foldl MemTable.apply ((front.foldl MemTable.apply s.active).replace key r.1) := by
    rw [applyBatch_layers, List.foldl_append, List.foldl_cons]
    rfl
  have hsame := sameClocks_apply ((front.foldl MemTable.apply s.active).replace key r.1) hback
  rw [← hactive, MemTable.current_replace, if_pos rfl, ← hputs] at hsame
  have hitems := (covered_append_right.mp hsame.covers).1
  have hafter : ∀ a : List WalEntry, AfterRestore key r (a ++ s.current.records) := by
    intro a
    refine ⟨a ++ before ++ front, back, ?_, hsince⟩
    rw [← hbefore]
    simp
  refine ⟨ht, hold, by simp [Only], fun w hw => List.mem_append.mp (hsame.mem w hw), fun _ => ?_,
    fun f hf => Or.inl ⟨?_, rfl, hitems, Or.inl (hafter _)⟩, fun b hb => ?_, ?_, Or.inl (hafter _),
    fun n _ => Or.inl (hafter _)⟩
  · exact hitems.mono fun w hw => List.mem_append_left _ hw
  · have hf : s.flushing = some f := hf
    have hf' : s.layers.flushingItems key = f.1.current key := by
      simp [layers, Layers.flushingItems, hf]
    exact hf' ▸ hfrozen
  · exact (hb.elim (hphase b).1 (hphase b).2).elim
  · rw [htail]
    exact sinceRestore_nil

/-! ## Crashes -/

/-- If a crash brings segments back, the records an Open will find have the key's latest
Restore after everything older, or nothing older. -/
def ReturnsInOrder (key : String) (t : Trace) (s : Engine) : EngineAct → Prop
  | .reopen kept back => back = [] ∨ ∀ r ∈ t.rolledBack key,
      AfterRestore key r ((listSegments (s.disk kept back)).flatMap Segment.records) ∨
        SinceRestore key r ((listSegments (s.disk kept back)).flatMap Segment.records)
  | _ => True

/-- Neither a compaction nor a WAL failure. -/
def flushesOnly : EngineAct → Bool
  | .table a => !a.compacts
  | .walFail _ => false
  | _ => true

/-- MANIFEST calls are all or nothing, nothing is compacted, no WAL write or fsync fails, and
crashes bring segments back in order. -/
def KeepsRollback (key : String) (t : Trace) (s : Engine) (a : EngineAct) : Prop :=
  s.AllOrNothing a ∧ flushesOnly a = true ∧ ReturnsInOrder key t s a

theorem entries_sealed_openLog (disk : List Segment) :
    (openLog disk).2.1.flatMap Segment.records = (openLog disk).1 := by
  simp only [openLog]
  induction listSegments disk with
  | nil => rfl
  | cons seg l ih =>
    rw [List.filter_cons, List.flatMap_cons, ← ih]
    split
    · rfl
    · next hseg => simp_all

/-- Nothing comes back : the segments are replayed in their order. -/
theorem entries_openLog_nil (hshape : Shape s) (kept : Nat) :
    (listSegments (s.disk kept [])).flatMap Segment.records =
      s.onDisk ++ s.current.tail.take kept := by
  have hsorted : (s.disk kept []).Pairwise fun a b => a.seq ≤ b.seq := by
    refine List.pairwise_append.mpr ⟨hshape.sealed_sorted, List.pairwise_singleton .., ?_⟩
    intro seg hseg c hc
    obtain rfl := List.mem_singleton.mp hc
    exact (hshape.sealed_lt seg hseg).le
  rw [listSegments, hsorted.insertionSort_eq]
  simp [disk, onDisk, Segment.afterCrash]

/-- The records to be replayed have the Restore after everything older, or nothing older
and then the newer tables cover its items. -/
theorem Rolled.replayed (h : Rolled key r t s post old) (hshape : Shape s) {kept : Nat}
    {back : List Segment} (hr : t.rolledBack key = some r)
    (hback : ReturnsInOrder key t s (.reopen kept back)) :
    AfterRestore key r (openLog (s.disk kept back)).1 ∨
      (SinceRestore key r (openLog (s.disk kept back)).1 ∧ Covered (tableItems post key) r.1) := by
  rcases hback with rfl | hback
  · have hentries : (openLog (s.disk kept [])).1 = s.onDisk ++ s.current.tail.take kept :=
      entries_openLog_nil hshape kept
    have htail : SinceRestore key r (s.current.tail.take kept) :=
      h.tail.sublist (List.take_sublist ..)
    rw [hentries]
    rcases h.disk with hd | ⟨hd, hc⟩
    · exact Or.inl (hd.append htail)
    · exact Or.inr ⟨sinceRestore_append.mpr ⟨hd, htail⟩, hc⟩
  · rcases hback r hr with ha | hsince
    · exact Or.inl ha
    · rcases h.disk with hd | ⟨-, hc⟩
      · refine absurd hsince (hd.not_since fun e he => ?_)
        refine mem_openLog.mpr ?_
        rcases List.mem_append.mp he with he | he
        · obtain ⟨seg, hseg, he⟩ := List.mem_flatMap.mp he
          exact ⟨seg, by simp [Engine.disk, hseg], he⟩
        · exact ⟨s.current.afterCrash kept, by simp [Engine.disk], List.mem_append_left _ he⟩
      · exact Or.inr ⟨hsince, hc⟩

theorem Rolled.reopen (h : Rolled key r t s post old) (hshape : Shape s) {kept : Nat}
    {back : List Segment} (hr : t.rolledBack key = some r)
    (hback : ReturnsInOrder key t s (.reopen kept back)) (tables : TableStore)
    (ht : t'.tables = t.tables) :
    Rolled key r t' (s.reopened kept back tables) post old := by
  have hreplayed := h.replayed hshape hr hback
  -- what the replay leaves of the key
  have hactive : Only r (((openLog (s.disk kept back)).1.foldl MemTable.apply
        (.new s.active.maxBytes)).current key) ∧
      Covered (((openLog (s.disk kept back)).1.foldl MemTable.apply
        (.new s.active.maxBytes)).current key ++ tableItems post key) r.1 := by
    rcases hreplayed with ⟨front, rest, hentries, hrest⟩ | ⟨hsince, hc⟩
    · have hsame := sameClocks_apply ((front.foldl MemTable.apply
        (.new s.active.maxBytes)).replace key r.1) hrest.not_restores
      rw [MemTable.current_replace, if_pos rfl] at hsame
      rw [hentries, List.foldl_append, List.foldl_cons]
      refine ⟨fun w hw => (List.mem_append.mp (hsame.mem w hw)).imp_right (hrest.putsOf w), ?_⟩
      exact (covered_append_right.mp hsame.covers).1.mono fun w hw => List.mem_append_left _ hw
    · have hsame := sameClocks_apply (.new s.active.maxBytes) hsince.not_restores
      rw [MemTable.current_new, List.nil_append] at hsame
      exact ⟨fun w hw => Or.inr (hsince.putsOf w (hsame.mem w hw)),
        hc.mono fun w hw => List.mem_append_right _ hw⟩
  refine ⟨ht.trans h.tables, h.old_covered, h.post_only, hactive.1, fun _ => hactive.2, by simp,
    by simp, sinceRestore_nil, ?_, by simp⟩
  simpa [onDisk, entries_sealed_openLog] using hreplayed

/-! ## Runs -/

/-- The tables take a step; it may register the frozen memtable's table. -/
theorem Rolled.table (h : Rolled key r t s post old) (hshape : Shape s) {b : TableAct}
    {tables : TableStore} (hb : b.background = true ∨ ∃ entries, b = .flushStart entries)
    (hstep : s.tables.step fileSize b = some tables) :
    ∃ post' old', Rolled key r { t with tables := s.tables.recordFlush t.tables b }
      { s with tables := tables } post' old' := by
  cases TableStore.step_sound hstep with
  | flushAdd sst written ok hf =>
    cases ok with
    | false => exact ⟨post, old, h.setTables (by simp)⟩
    | true =>
      have hflush := hshape.flush
      rw [hf] at hflush
      obtain ⟨f, hfl, hentries⟩ := hflush
      simpa [TableStore.recordFlush, hf] using h.register hfl hentries _
  | flushDone | flushPutBack | reopen => simp [TableAct.background] at hb
  | flushStart | flushWrite | flushWriteFail => exact ⟨post, old, h.setTables (by simp)⟩
  | _ => exact ⟨post, old, h.setTables fun _ => id⟩

theorem rolled_step (hshape : Shape s)
    (htables : TableStore.Run fileSize TableStore.AllOrNothing t.tables s.tables)
    (ih : ∀ r, t.rolledBack key = some r → ∃ post old, Rolled key r t s post old)
    (ha : KeepsRollback key t s a) (hstep : Step fileSize s a s') (r : List DataItem × List DataItem)
    (hr : (record t s a).rolledBack key = some r) :
    ∃ post old, Rolled key r (record t s a) s' post old := by
  cases hstep with
  | log batch =>
    obtain ⟨hputs, p, hp, rfl⟩ : (∀ e ∈ batch, restores key e = false) ∧
        ∃ p, t.rolledBack key = some p ∧ (p.1, p.2 ++ putsOf key batch) = r := by
      simpa [record, tableAct] using hr
    obtain ⟨post, old, h⟩ := ih p hp
    have h' : Rolled key (p.1, p.2 ++ putsOf key batch) (record t s (.log batch)) s post old :=
      h.mono rfl (fun x hx => List.mem_append_left _ hx) rfl
    refine ⟨post, old, h'.log hshape (sinceRestore_of_puts hputs fun x hx => ?_)⟩
    exact List.mem_append_right _ hx
  | sync batch hw =>
    obtain ⟨post, old, h⟩ := ih r hr
    exact ⟨post, old, h.sync hshape hw⟩
  | walFail => cases ha.2.1
  | apply batch hw =>
    have hphase : ∀ b, (if (s.layers.applyBatch batch).2.1 ∧ s.flushing = none then
        WriterPhase.swapping else .idle) ≠ .logging b ∧
        (if (s.layers.applyBatch batch).2.1 ∧ s.flushing = none then
          WriterPhase.swapping else .idle) ≠ .logged b := by
      intro b
      split <;> simp
    have hrecord : (record t s .apply).tables = t.tables := by
      rw [record_tables]
      rfl
    simp only [record, tableAct, hw] at hr
    split at hr
    · exact ⟨[], t.tables, rolled_of_restore hshape htables hw hr hphase hrecord⟩
    · obtain ⟨post, old, h⟩ := ih r hr
      exact ⟨post, old, (h.mono rfl (fun x hx => hx) hrecord).apply hw hphase⟩
  | rotateFailed =>
    obtain ⟨post, old, h⟩ := ih r hr
    exact ⟨post, old, h.setWriter (by simp)⟩
  | rotateCloseFailed | rotateOk =>
    obtain ⟨post, old, h⟩ := ih r hr
    exact ⟨post, old, (h.nextSegment hshape).setWriter (by simp)⟩
  | freeze sealedSeg hw =>
    obtain ⟨post, old, h⟩ := ih r hr
    exact ⟨post, old, h.freeze hshape hw⟩
  | flushStart frozen seq tables hf ht =>
    have hrecord : record t s .flushStart = { t with
        tables := s.tables.recordFlush t.tables (.flushStart frozen.snapshot) } := by
      simp [record, tableAct, hf]
    rw [hrecord] at hr ⊢
    obtain ⟨post, old, h⟩ := ih r hr
    exact h.table hshape (Or.inr ⟨_, rfl⟩) ht
  | table b tables hb ht =>
    obtain ⟨post, old, h⟩ := ih r hr
    exact h.table hshape (Or.inl hb) ht
  | flushDone sst frozen seq tables hp hf =>
    obtain ⟨post, old, h⟩ := ih r hr
    exact ⟨post, old, h.flushDone hf hp tables⟩
  | flushFailed entries frozen seq tables hp =>
    obtain ⟨post, old, h⟩ := ih r hr
    have hflush := hshape.flush
    rw [hp] at hflush
    obtain ⟨f, hf', rfl⟩ := hflush
    exact ⟨post, old, h.flushFailed hf' tables⟩
  | deleteThrough due count seq hd =>
    obtain ⟨post, old, h⟩ := ih r hr
    exact ⟨post, old, h.deleteThrough hd count⟩
  | reopen kept back tables =>
    obtain ⟨post, old, h⟩ := ih r hr
    exact ⟨post, old, h.reopen hshape hr ha.2.2 tables rfl⟩

theorem rolled_of_run (h : Run fileSize maxBytes (KeepsRollback key) t s) :
    ∀ r, t.rolledBack key = some r → ∃ post old, Rolled key r t s post old := by
  induction h with
  | start => exact nofun
  | step hrun ha hstep ih =>
    have htables := hrun.tables TableStore.AllOrNothing fun _ _ _ ha => ha.1
    exact rolled_step (shape_of_run hrun) htables ih ha (step_sound hstep)

/-- Without compactions there is no selection to speak of. -/
theorem KeepsRollback.selectsAbsorbed (h : KeepsRollback key t s a) :
    ∀ b ∈ s.tableAct a, TableStore.SelectsAbsorbed s.tables b := by
  refine fun b hb => ⟨h.1 b hb, ?_⟩
  rintro rfl
  have hflushes := h.2.1
  cases a with
  | table b =>
    obtain rfl : b = .compactSelect := by simpa [tableAct] using hb
    cases hflushes
  | _ => simp [tableAct] at hb

/-- With nothing frozen, readers see the Restore's items and versions put since. -/
theorem Rolled.read (h : Rolled key r t s post old)
    (htables : TableStore.Run fileSize TableStore.SelectsAbsorbed t.tables s.tables)
    (hnone : s.flushing = none) (hidle : s.tables.flush = .idle) :
    Only r (s.layers.getAll key) := by
  have hvisible : s.tables.visibleTables = s.tables.sstables := by
    simp [TableStore.visibleTables, hidle, FlushPhase.pending]
  have hread := (TableStore.getAll_of_run htables s.active none key).1
  have hcovered := h.unfrozen hnone
  have hlayers : s.layers = ⟨s.active, none, s.tables.visibleTables⟩ := by
    rw [layers, hnone, hvisible]
    rfl
  rw [hlayers, hread, Layers.getAll_eq]
  have hitems : Layers.items ⟨s.active, none, t.tables⟩ key =
      (s.active.current key ++ tableItems post key) ++ tableItems old key := by
    simp [Layers.items, Layers.flushingItems, h.tables, tableItems_append]
  rw [hitems, keepMax_append_of_covers (hcovered.trans h.old_covered)]
  exact (only_append.mpr ⟨h.active_only, h.post_only⟩).subset fun w hw => mem_of_mem_keepMax hw

/-- A rolled-back write stays rolled back as long as crashes bring deleted segments back in
order : after a crash at any step, an Open succeeds and of a key whose latest Restore
returned nil only that Restore's items and versions put since are read. -/
theorem read_rolledBack (h : Run fileSize maxBytes (KeepsRollback key) t s)
    (hr : t.rolledBack key = some r) (kept : Nat) (back : List Segment)
    (hback : ∀ seg ∈ back, seg ∈ s.deleted)
    (horder : ReturnsInOrder key t s (.reopen kept back)) :
    ∃ s', s.step fileSize (.reopen kept back) = some s' ∧
      ∀ w ∈ s'.layers.getAll key, w ∈ r.1 ∨ w ∈ r.2 := by
  obtain ⟨s', hstep⟩ := reopen_succeeds h (fun _ _ _ ha => ha.1) kept hback
  have hreopen : KeepsRollback key t s (.reopen kept back) :=
    ⟨by simp [AllOrNothing, tableAct, TableStore.AllOrNothing, TableStore.manifestCall], rfl, horder⟩
  have h' := h.step hreopen hstep
  obtain ⟨post, old, hrolled⟩ := rolled_of_run h' r hr
  have hidle : s'.flushing = none ∧ s'.tables.flush = .idle := by
    cases step_sound hstep with
    | reopen kept back tables hb ht => exact ⟨rfl, flush_idle_of_reopen ht⟩
  exact ⟨s', hstep, hrolled.read (h'.tables _ fun _ _ _ ha => ha.selectsAbsorbed) hidle.1 hidle.2⟩

/-! ## A crash out of order -/

/-- Crashes bring nothing back. -/
def BringsNothingBack (_ : Trace) (s : Engine) (a : EngineAct) : Prop :=
  s.AllOrNothing a ∧ flushesOnly a = true ∧ ∀ kept back, a = .reopen kept back → back = []

instance (t : Trace) (s : Engine) (a : EngineAct) : Decidable (BringsNothingBack t s a) :=
  match a with
  | .reopen kept back =>
    decidable_of_iff (s.AllOrNothing (.reopen kept back) ∧ back = [])
      ⟨fun h => ⟨h.1, rfl, fun _ _ he => by cases he; exact h.2⟩, fun h => ⟨h.1, h.2.2 _ _ rfl⟩⟩
  | .log _ | .sync | .walFail _ | .apply | .rotate _ | .freeze | .flushStart | .table _
  | .flushFinish | .deleteThrough _ _ =>
    decidable_of_iff (s.AllOrNothing _ ∧ flushesOnly _ = true)
      ⟨fun h => ⟨h.1, h.2, nofun⟩, fun h => ⟨h.1, h.2.1⟩⟩

theorem BringsNothingBack.keepsRollback (key : String) (h : BringsNothingBack t s a) :
    KeepsRollback key t s a := by
  refine ⟨h.1, h.2.1, ?_⟩
  cases a with
  | reopen kept back => exact Or.inl (h.2.2 kept back rfl)
  | _ => trivial

/-- A Put in one segment, its rollback in the next; both are flushed with another Put and
their segments deleted. -/
def rolledBackPut : List EngineAct :=
  commitActs [.put "k" (firstVersion "x" "A")] ++ [.reopen 0 []] ++ commitActs [.restore "k" []] ++
    commitActs [.put "j" (firstVersion "y" "B")] ++ flushActs (10 ^ 18) ++ [.deleteThrough 0 2]

/-- The first segment alone comes back, and with it the write. -/
theorem rolledBack_write_returns : ∃ (t : Trace) (s s' : Engine) (seg : Segment),
    Run (fun _ => 0) 1 BringsNothingBack t s ∧ t.rolledBack "k" = some ([], []) ∧
    seg ∈ s.deleted ∧ s.step (fun _ => 0) (.reopen 0 [seg]) = some s' ∧
    s'.layers.getAll "k" = [firstVersion "x" "A"] := by
  obtain ⟨r, hr, hrolled, hread⟩ : ∃ r, runActs (fun _ => 0) BringsNothingBack .empty (create 1)
      rolledBackPut = some r ∧ r.1.rolledBack "k" = some ([], []) ∧
      ∃ seg ∈ r.2.deleted.head?, (r.2.step (fun _ => 0) (.reopen 0 [seg])).map
        (fun s' => s'.layers.getAll "k") = some [firstVersion "x" "A"] := by
    refine ⟨_, rfl, ?_, ?_⟩ <;> decide +kernel
  obtain ⟨seg, hseg, hread⟩ := hread
  obtain ⟨s', hs', hread⟩ := Option.map_eq_some_iff.mp hread
  exact ⟨r.1, r.2, s', seg, Run.start.runActs hr, hrolled, List.mem_of_mem_head? hseg, hs', hread⟩

/-- Both segments come back, and the write stays rolled back. -/
theorem read_rolledBack_both : ∃ (t : Trace) (s : Engine), t.rolledBack "k" = some ([], []) ∧
    s.deleted.length = 2 ∧ ∃ s', s.step (fun _ => 0) (.reopen 0 s.deleted) = some s' ∧
      s'.layers.getAll "k" = [] := by
  obtain ⟨r, hr, hrolled, hdeleted, hentries⟩ : ∃ r, runActs (fun _ => 0) BringsNothingBack .empty
      (create 1) rolledBackPut = some r ∧ r.1.rolledBack "k" = some ([], []) ∧
      r.2.deleted.length = 2 ∧
      (listSegments (r.2.disk 0 r.2.deleted)).flatMap Segment.records =
        [.put "k" (firstVersion "x" "A"), .restore "k" [], .put "j" (firstVersion "y" "B")] := by
    refine ⟨_, rfl, ?_, ?_, ?_⟩ <;> decide +kernel
  have hrun : Run (fun _ => 0) 1 (KeepsRollback "k") r.1 r.2 :=
    (Run.start.runActs hr).mono fun _ _ _ ha => ha.keepsRollback "k"
  obtain ⟨s', hs', hread⟩ := read_rolledBack hrun hrolled 0 r.2.deleted (fun _ => id)
    (Or.inr fun p hp => Or.inl (by
      obtain rfl := Option.some.inj (hrolled.symm.trans hp)
      exact hentries ▸ ⟨[.put "k" (firstVersion "x" "A")], [.put "j" (firstVersion "y" "B")], rfl,
        by simp [SinceRestore, WalEntry.key]⟩))
  exact ⟨r.1, r.2, hrolled, hdeleted, s', hs', List.eq_nil_iff_forall_not_mem.mpr (by simpa using hread)⟩

end Engine

end DistributedKV
