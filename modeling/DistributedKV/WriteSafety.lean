import DistributedKV.WritePath

/-!
# Files and segments of the write path

In every run whose payloads fit their headers the files hold what the engine's segments say
(`Files`) : sealed and deleted ones byte for byte, the current one up to a tail that was not
fsynced and may end in a torn record. So an Open reads from the bytes what `Engine`'s own
Open takes from the segments (`opened_eq`), and a run of the write path is a run of the
engine (`engine_step`).

Of the acknowledged writes, those of one segment are among its records, in commit order
(`Acked`), and no two segments share a number (`Numbered`); `acked_sublist_flatMap` puts the
segments together. Requests move from place to place and none is in two (`requests_step`).
-/

open Framing

namespace DistributedKV

namespace WritePath

variable {c : Codec WalEntry} {fileSize : List Entry → Nat} {maxBytes : Int}
  {s s' : WritePath} {a : WriteAct}

/-! ## Files and segments -/

/-- The file of a segment that is fsynced throughout. -/
def fileOf (c : Codec WalEntry) (seg : Segment) : WalFile :=
  ⟨seg.seq, encodeAll c seg.records, (encodeAll c seg.records).length⟩

/-- The file holds the segment's records, fsynced, and behind them its tail and perhaps a
torn record. -/
structure Holds (c : Codec WalEntry) (f : WalFile) (seg : Segment) : Prop where
  seq : f.seq = seg.seq
  synced : f.synced = (encodeAll c seg.records).length
  synced_le : f.synced ≤ f.bytes.length
  bytes : ∃ batch, (∀ e ∈ seg.records ++ batch, c.Fits e) ∧
    f.bytes <+: encodeAll c (seg.records ++ batch)
  replayed : ∃ validEnd, Framing.replay c f.bytes = .ok (seg.records ++ seg.tail, validEnd)

theorem replay_encodeAll {es : List WalEntry} (h : ∀ e ∈ es, c.Fits e) :
    Framing.replay c (encodeAll c es) = .ok (es, (encodeAll c es).length) := by
  obtain ⟨k, hk, -, hmax⟩ := replay_of_prefix h List.prefix_rfl
  have hall : es = es.take k :=
    List.IsPrefix.eq_of_length_le (hmax es [] (by simp) le_rfl) (by simp)
  rwa [← hall] at hk

theorem holds_of_whole {f : WalFile} {seg : Segment} (hseq : f.seq = seg.seq)
    (hsynced : f.synced = (encodeAll c seg.records).length)
    (hbytes : f.bytes = encodeAll c (seg.records ++ seg.tail))
    (hfits : ∀ e ∈ seg.records ++ seg.tail, c.Fits e) : Holds c f seg where
  seq := hseq
  synced := hsynced
  synced_le := by
    rw [hsynced, hbytes, encodeAll_append, List.length_append]
    exact Nat.le_add_right _ _
  bytes := ⟨seg.tail, hfits, hbytes ▸ List.prefix_rfl⟩
  replayed := ⟨_, hbytes ▸ replay_encodeAll hfits⟩

/-- Of a file that was cut behind its fsynced bytes, the fsynced records are read and some
of the tail. -/
theorem Holds.cut {f : WalFile} {seg : Segment} (h : Holds c f seg) {bytes : List UInt8}
    (hstarts : bytes <+: f.bytes) (hle : f.synced ≤ bytes.length) :
    ∃ kept, Framing.replay c bytes = .ok (seg.records ++ seg.tail.take kept,
        (encodeAll c (seg.records ++ seg.tail.take kept)).length) ∧
      encodeAll c (seg.records ++ seg.tail.take kept) <+: bytes ∧
      ∀ e ∈ seg.records ++ seg.tail.take kept, c.Fits e := by
  obtain ⟨batch, hfits, hbatch⟩ := h.bytes
  obtain ⟨k, hk, hwhole, hmax⟩ := replay_of_prefix hfits (hstarts.trans hbatch)
  obtain ⟨n, hn, -, hmaxn⟩ := replay_of_prefix hfits hbatch
  obtain ⟨validEnd, hreplayed⟩ := h.replayed
  have htail : seg.records ++ seg.tail = (seg.records ++ batch).take n :=
    congrArg Prod.fst (Except.ok.inj (hreplayed.symm.trans hn))
  -- the cut keeps every fsynced record
  obtain ⟨rest, hrest⟩ := hmax seg.records batch rfl (h.synced ▸ hle)
  -- and has no more than the file had
  have hle' := hmaxn _ _ (List.take_append_drop k (seg.records ++ batch)).symm
    (hwhole.length_le.trans hstarts.length_le)
  rw [← hrest, ← htail, List.prefix_append_right_inj] at hle'
  have heq : (seg.records ++ batch).take k = seg.records ++ seg.tail.take rest.length := by
    rw [← hrest, ← List.prefix_iff_eq_take.mp hle']
  rw [heq] at hk hwhole
  exact ⟨rest.length, hk, hwhole, fun e he => hfits e (List.mem_of_mem_take (heq ▸ he))⟩

theorem replayFile_fileOf {seg : Segment} (h : ∀ e ∈ seg.records, c.Fits e) :
    (fileOf c seg).replayFile c = some (fileOf c seg, seg.records) := by
  simp [WalFile.replayFile, fileOf, replay_encodeAll h]

/-- What a crash leaves of the current file is replayed and cut back to whole records. -/
theorem Holds.replayFile {f : WalFile} {seg : Segment} (h : Holds c f seg) (kept : Nat) :
    ∃ k, (f.afterCrash kept).replayFile c =
        some (fileOf c (seg.afterCrash k), (seg.afterCrash k).records) ∧
      ∀ e ∈ (seg.afterCrash k).records, c.Fits e := by
  obtain ⟨k, hreplay, ⟨torn, htorn⟩, hfits⟩ := h.cut (List.take_prefix (f.synced + kept) f.bytes)
    (by rw [List.length_take]; exact le_min (Nat.le_add_right _ _) h.synced_le)
  refine ⟨k, ?_, hfits⟩
  rw [← htorn] at hreplay
  simp only [WalFile.replayFile, WalFile.afterCrash, ← htorn, hreplay, List.take_left, fileOf,
    Segment.afterCrash, h.seq]

theorem mapM_map_some {α β γ : Type*} {f : β → Option γ} {h : α → β} {g : α → γ} :
    ∀ {l : List α}, (∀ a ∈ l, f (h a) = some (g a)) → (l.map h).mapM f = some (l.map g)
  | [], _ => rfl
  | a :: l, hall => by
    rw [List.forall_mem_cons] at hall
    simp [hall.1, mapM_map_some hall.2]

/-! ## Numbers of segments -/

/-- No two segments, deleted ones included, have one number. -/
structure Numbered (e : Engine) : Prop where
  lt : ∀ seg ∈ e.sealed ++ e.deleted, seg.seq < e.current.seq
  nodup : ((e.sealed ++ e.deleted).map Segment.seq).Nodup

variable {e e' : Engine} {b : EngineAct}

theorem Numbered.congr (h : Numbered e) (hsealed : e'.sealed = e.sealed)
    (hdeleted : e'.deleted = e.deleted) (hseq : e'.current.seq = e.current.seq) : Numbered e' :=
  ⟨by rw [hsealed, hdeleted, hseq]; exact h.lt, by rw [hsealed, hdeleted]; exact h.nodup⟩

theorem Numbered.nextSegment (h : Numbered e) : Numbered e.nextSegment := by
  have hperm : (e.nextSegment.sealed ++ e.nextSegment.deleted).Perm
      (e.current :: (e.sealed ++ e.deleted)) := by
    simp [Engine.nextSegment]
  refine ⟨fun seg hseg => ?_, ((hperm.map Segment.seq).nodup_iff).mpr ?_⟩
  · rcases List.mem_cons.mp (hperm.mem_iff.mp hseg) with rfl | hseg
    · exact Nat.lt_succ_self _
    · exact (h.lt seg hseg).trans (Nat.lt_succ_self _)
  · refine List.nodup_cons.mpr ⟨fun hmem => ?_, h.nodup⟩
    obtain ⟨seg, hseg, heq⟩ := List.mem_map.mp hmem
    exact (h.lt seg hseg).ne heq

/-- The segments an Open finds, with those that stay deleted, are the old ones. -/
theorem perm_disk (e : Engine) (kept : Nat) (back : List Nat) :
    (e.disk kept (e.deleted.filter (·.seq ∈ back)) ++ e.deleted.filter (·.seq ∉ back)).Perm
      (e.current.afterCrash kept :: (e.sealed ++ e.deleted)) := by
  have hdeleted := List.filter_append_perm (fun seg : Segment => decide (seg.seq ∈ back)) e.deleted
  simp only [Engine.disk, List.append_assoc, List.singleton_append]
  refine (List.perm_append_comm_assoc _ _ _).trans ?_
  refine (List.Perm.append_left _ (List.perm_middle.trans (List.Perm.cons _ ?_))).trans
    List.perm_middle
  simpa using hdeleted

theorem numbered_disk (h : Numbered e) (kept : Nat) (back : List Nat) :
    ((e.disk kept (e.deleted.filter (·.seq ∈ back)) ++ e.deleted.filter (·.seq ∉ back)).map
      Segment.seq).Nodup := by
  refine (((perm_disk e kept back).map Segment.seq).nodup_iff).mpr ?_
  refine List.nodup_cons.mpr ⟨fun hmem => ?_, h.nodup⟩
  obtain ⟨seg, hseg, heq⟩ := List.mem_map.mp hmem
  exact (h.lt seg hseg).ne heq

theorem listSegments_perm (disk : List Segment) : (listSegments disk).Perm disk :=
  List.perm_insertionSort _ _

/-- The number of the segment an Open starts is beyond all it found. -/
theorem lt_next (disk : List Segment) : ∀ seg ∈ disk, seg.seq < (openLog disk).2.2 :=
  fun seg hseg => (Engine.le_foldl_next _ 1).2 seg (Engine.mem_listSegments.mpr hseg)

/-- The only deletions an Open undoes are those of whole numbers. -/
def BringsNumbers (e : Engine) (b : EngineAct) : Prop :=
  ∀ kept back, b = .reopen kept back → ∃ numbers : List Nat,
    back = e.deleted.filter (·.seq ∈ numbers)

theorem filter_not_mem_filter {α : Type*} [DecidableEq α] (p : α → Bool) (l : List α) :
    l.filter (· ∉ l.filter p) = l.filter (!p ·) :=
  List.filter_congr fun a ha => by simp [ha]

theorem numbered_step (h : Numbered e) (hb : BringsNumbers e b) (hstep : Engine.Step fileSize e b e') :
    Numbered e' := by
  cases hstep with
  | rotateCloseFailed | rotateOk => exact h.nextSegment.congr rfl rfl rfl
  | deleteThrough due count seq =>
    obtain ⟨doomed, rest, hdoomed, hdrop, hsealed, -⟩ :=
      Engine.deleteThrough_split e.sealed seq count
    have hperm : (rest ++ (e.deleted ++ doomed)).Perm (e.sealed ++ e.deleted) := by
      rw [hsealed, List.append_assoc, ← List.append_assoc rest]
      exact List.perm_append_comm
    rw [hdoomed, hdrop]
    exact ⟨fun seg hseg => h.lt seg (hperm.mem_iff.mp hseg),
      ((hperm.map Segment.seq).nodup_iff).mpr h.nodup⟩
  | reopen kept back =>
    obtain ⟨numbers, rfl⟩ := hb kept back rfl
    have hnodup := numbered_disk h kept numbers
    rw [← (((listSegments_perm _).append_right _).map Segment.seq).nodup_iff] at hnodup
    have hdeleted : e.deleted.filter (· ∉ e.deleted.filter (·.seq ∈ numbers)) =
        e.deleted.filter (·.seq ∉ numbers) := by
      rw [filter_not_mem_filter]
      simp
    refine ⟨fun seg hseg => ?_, ?_⟩
    · rcases List.mem_append.mp hseg with hseg | hseg
      · exact ((Engine.openLog_spec _).2 seg hseg).2
      · have hlt := h.lt seg (List.mem_append_right _ (List.mem_filter.mp hseg).1)
        exact hlt.trans (lt_next _ (e.current.afterCrash kept) (by simp [Engine.disk]))
    · rw [Engine.reopened, hdeleted]
      exact hnodup.sublist ((List.filter_sublist.append_right _).map Segment.seq)
  | _ => exact h.congr rfl rfl rfl

/-! ## Acknowledged records -/

/-- The acknowledged records of one segment, in commit order. -/
def ackedIn (acked : List (Nat × WalEntry)) (seq : Nat) : List WalEntry :=
  (acked.filter (·.1 = seq)).map Prod.snd

/-- The batch that is fsynced and not yet applied. -/
def inFlight (e : Engine) : List WalEntry :=
  match e.writer with
  | .logged batch => batch
  | _ => []

/-- Acknowledged records are among those of their segment, in order. -/
structure Acked (acked : List (Nat × WalEntry)) (e : Engine) : Prop where
  sorted : acked.Pairwise fun p q => p.1 ≤ q.1
  le : ∀ p ∈ acked, p.1 ≤ e.current.seq
  old : ∀ seg ∈ e.sealed ++ e.deleted, (ackedIn acked seg.seq).Sublist seg.records
  current : ∃ settled, settled ++ inFlight e = e.current.records ∧
    (ackedIn acked e.current.seq).Sublist settled

variable {acked : List (Nat × WalEntry)}

theorem ackedIn_of_lt {n : Nat} (h : ∀ p ∈ acked, p.1 < n) : ackedIn acked n = [] := by
  rw [ackedIn, List.filter_eq_nil_iff.mpr fun p hp => by simpa using (h p hp).ne]
  rfl

theorem Acked.current_records (h : Acked acked e) :
    (ackedIn acked e.current.seq).Sublist e.current.records := by
  obtain ⟨settled, heq, hsub⟩ := h.current
  exact hsub.trans (heq ▸ List.sublist_append_left _ _)

theorem Acked.congr (h : Acked acked e) (hsealed : e'.sealed = e.sealed)
    (hdeleted : e'.deleted = e.deleted) (hseq : e'.current.seq = e.current.seq)
    (hrecords : e'.current.records = e.current.records) (hflight : inFlight e' = inFlight e) :
    Acked acked e' :=
  ⟨h.sorted, hseq ▸ h.le, by rw [hsealed, hdeleted]; exact h.old,
    by rw [hseq, hrecords, hflight]; exact h.current⟩

theorem Acked.nextSegment (h : Acked acked e) {phase : WriterPhase}
    (hphase : ∀ b, phase ≠ .logged b) : Acked acked { e.nextSegment with writer := phase } := by
  have hlt : ∀ p ∈ acked, p.1 < e.current.seq + 1 := fun p hp => Nat.lt_succ_of_le (h.le p hp)
  refine ⟨h.sorted, fun p hp => (hlt p hp).le, fun seg hseg => ?_, [], ?_, ?_⟩
  · simp only [Engine.nextSegment, List.mem_append, List.mem_singleton] at hseg
    rcases hseg with (hseg | rfl) | hseg
    · exact h.old seg (List.mem_append_left _ hseg)
    · exact h.current_records
    · exact h.old seg (List.mem_append_right _ hseg)
  · cases phase <;> simp_all [inFlight, Engine.nextSegment]
  · simp [Engine.nextSegment, ackedIn_of_lt hlt]

/-- Every step but the one that applies a batch. -/
theorem acked_step (h : Acked acked e) (hb : b ≠ .apply)
    (hstep : Engine.Step fileSize e b e') : Acked acked e' := by
  cases hstep with
  | log batch hidle => exact h.congr rfl rfl rfl rfl (by simp [inFlight, hidle])
  | sync batch hw =>
    obtain ⟨settled, heq, hsub⟩ := h.current
    have hsettled : settled = e.current.records := by simpa [inFlight, hw] using heq
    exact ⟨h.sorted, h.le, h.old, e.current.records, rfl, hsettled ▸ hsub⟩
  | walFail batch kept hw | rotateFailed hw | freeze sealedSeg hw =>
    exact h.congr rfl rfl rfl rfl (by simp [inFlight, hw])
  | apply => exact absurd rfl hb
  | rotateCloseFailed | rotateOk => exact h.nextSegment (by simp)
  | deleteThrough due count seq =>
    obtain ⟨doomed, rest, hdoomed, hdrop, hsealed, -⟩ :=
      Engine.deleteThrough_split e.sealed seq count
    rw [hdoomed, hdrop]
    refine ⟨h.sorted, h.le, fun seg hseg => h.old seg ?_, h.current⟩
    simp only [hsealed, List.mem_append] at hseg ⊢
    tauto
  | reopen kept back t hback =>
    have hnext : ∀ p ∈ acked, p.1 < (openLog (e.disk kept back)).2.2 := fun p hp =>
      (h.le p hp).trans_lt (lt_next _ (e.current.afterCrash kept) (by simp [Engine.disk]))
    refine ⟨h.sorted, fun p hp => (hnext p hp).le, fun seg hseg => ?_, [], rfl, ?_⟩
    · rcases List.mem_append.mp hseg with hseg | hseg
      · have hseg := ((Engine.openLog_spec _).2 seg hseg).1
        simp only [Engine.disk, List.mem_append, List.mem_singleton] at hseg
        rcases hseg with (hseg | hseg) | rfl
        · exact h.old seg (List.mem_append_right _ (hback seg hseg))
        · exact h.old seg (List.mem_append_left _ hseg)
        · exact h.current_records.trans (List.sublist_append_left _ _)
      · exact h.old seg (List.mem_append_right _ (List.mem_filter.mp hseg).1)
    · rw [ackedIn_of_lt hnext]
  | _ => exact h.congr rfl rfl rfl rfl rfl

theorem ackedIn_append (acked new : List (Nat × WalEntry)) (seq : Nat) :
    ackedIn (acked ++ new) seq = ackedIn acked seq ++ ackedIn new seq := by
  simp [ackedIn]

/-- The batch is applied, and of its records some are acknowledged. -/
theorem acked_apply (h : Acked acked e) (hnum : Numbered e)
    (hstep : Engine.Step fileSize e .apply e') {new : List WalEntry} (hnew : new.Sublist (inFlight e)) :
    Acked (acked ++ new.map fun entry => (e.current.seq, entry)) e' := by
  cases hstep with
  | apply =>
    have hin : ∀ seq, ackedIn (new.map fun entry => (e.current.seq, entry)) seq =
        if e.current.seq = seq then new else [] := by
      intro seq
      rw [ackedIn, List.filter_map, List.map_map]
      split
      · next heq => simp [heq, Function.comp_def]
      · next hne => simp [hne, Function.comp_def]
    refine ⟨List.pairwise_append.mpr ⟨h.sorted, ?_, fun p hp q hq => ?_⟩, fun p hp => ?_,
      fun seg hseg => ?_, e.current.records, ?_, ?_⟩
    · exact List.pairwise_map.mpr (List.pairwise_of_forall fun _ _ => le_rfl)
    · obtain ⟨entry, -, rfl⟩ := List.mem_map.mp hq
      exact h.le p hp
    · rcases List.mem_append.mp hp with hp | hp
      · exact h.le p hp
      · obtain ⟨entry, -, rfl⟩ := List.mem_map.mp hp
        exact le_rfl
    · rw [ackedIn_append, hin, if_neg (hnum.lt seg hseg).ne', List.append_nil]
      exact h.old seg hseg
    · simp only [inFlight]
      split <;> simp_all
      next hsplit => split at hsplit <;> cases hsplit
    · obtain ⟨settled, heq, hsub⟩ := h.current
      rw [ackedIn_append, hin, if_pos rfl, ← heq]
      exact hsub.append hnew

/-- Sorted by segment, what is acknowledged in some segments is acknowledged in the first
and then in the others. -/
theorem filter_mem_cons (hsorted : acked.Pairwise fun p q => p.1 ≤ q.1) {n : Nat} {ns : List Nat}
    (hlt : ∀ m ∈ ns, n < m) :
    acked.filter (·.1 ∈ n :: ns) = acked.filter (·.1 = n) ++ acked.filter (·.1 ∈ ns) := by
  induction acked with
  | nil => rfl
  | cons p acked ih =>
    rw [List.pairwise_cons] at hsorted
    have ih := ih hsorted.2
    by_cases hp : p.1 = n
    · have hns : p.1 ∉ ns := fun hmem => (hlt _ hmem).ne' hp
      rw [List.filter_cons_of_pos (by simp [hp]), List.filter_cons_of_pos (by simp [hp]),
        List.filter_cons_of_neg (by simpa using hns), ih, List.cons_append]
    · by_cases hns : p.1 ∈ ns
      · -- everything behind is beyond the first segment
        have hnone : acked.filter (·.1 = n) = [] := List.filter_eq_nil_iff.mpr fun q hq => by
          have := hsorted.1 q hq
          have := hlt _ hns
          simp only [decide_eq_true_eq]
          omega
        rw [List.filter_cons_of_pos (by simp [hns]), List.filter_cons_of_neg (by simpa using hp),
          List.filter_cons_of_pos (by simpa using hns), ih, hnone, List.nil_append, List.nil_append]
      · rw [List.filter_cons_of_neg (by simp [hp, hns]), List.filter_cons_of_neg (by simpa using hp),
          List.filter_cons_of_neg (by simpa using hns), ih]

/-- Acknowledged records of a row of segments are among all their records, in order. -/
theorem acked_sublist_flatMap (hsorted : acked.Pairwise fun p q => p.1 ≤ q.1) :
    ∀ {segments : List Segment}, (segments.map Segment.seq).Pairwise (· < ·) →
    (∀ seg ∈ segments, (ackedIn acked seg.seq).Sublist seg.records) →
    ((acked.filter (·.1 ∈ segments.map Segment.seq)).map Prod.snd).Sublist
      (segments.flatMap Segment.records)
  | [], _, _ => by simp
  | seg :: segments, hlt, h => by
    rw [List.map_cons, List.pairwise_cons] at hlt
    rw [List.forall_mem_cons] at h
    rw [List.map_cons, filter_mem_cons hsorted hlt.1, List.map_append, List.flatMap_cons]
    exact h.1.append (acked_sublist_flatMap hsorted hlt.2 h.2)

/-! ## Opening the files -/

/-- The requests a committer has in hand. -/
def batchOf : Committer → List Request
  | .receiving => []
  | .filling batch | .ready batch => batch

/-- The requests of a commit that have no outcome yet. -/
def undecided : CommitPhase → List Request
  | .running batch => batch
  | _ => []

/-- The requests since the last Open, wherever they are. -/
def requests (s : WritePath) : Multiset Request :=
  s.pending + (s.queue + (s.carried.toList + (batchOf s.committer +
    (undecided s.commit + s.decided.map Prod.fst))))

theorem outcome_unique (hids : (s.requests.map Request.id).Nodup) {r : Request} {o o' : Outcome}
    (ho : (r, o) ∈ s.decided) (ho' : (r, o') ∈ s.decided) : o = o' := by
  have hnodup : ((s.decided.map Prod.fst).map Request.id).Nodup := by
    have hle : ((s.decided.map Prod.fst : List Request) : Multiset Request) ≤ s.requests := by
      simp only [requests, ← add_assoc]
      exact Multiset.le_add_left _ _
    exact Multiset.coe_nodup.mp (Multiset.nodup_of_le (Multiset.map_le_map hle) hids)
  rw [List.map_map] at hnodup
  exact congrArg Prod.snd (List.inj_on_of_nodup_map hnodup ho ho' rfl)

/-- The files hold what the engine's segments say. -/
structure Files (c : Codec WalEntry) (s : WritePath) : Prop where
  sealed : s.sealed = s.engine.sealed.map (fileOf c)
  deleted : s.deleted = s.engine.deleted.map (fileOf c)
  fits : ∀ seg ∈ s.engine.sealed ++ s.engine.deleted, ∀ e ∈ seg.records, c.Fits e
  current : Holds c s.current s.engine.current
  whole : s.engine.halted = false →
    s.current.bytes = encodeAll c (s.engine.current.records ++ s.engine.current.tail)
  fits_requests : ∀ r ∈ s.requests, c.Fits r.entry
  commit : ∀ entries, s.engine.writer = .logging entries ∨ s.engine.writer = .logged entries →
    ∃ batch, s.commit = .running batch ∧ batch.map Request.entry = entries

/-- An Open after any crash reads the segments' records, and of the current tail some. -/
theorem Files.open_eq (h : Files c s) (hnum : Numbered s.engine) (kept : Nat) (back : List Nat) :
    ∃ k, openFiles c (s.disk kept back) =
        some ((listSegments (s.engine.disk k (s.engine.deleted.filter (·.seq ∈ back)))).map
          fun seg => (fileOf c seg, seg.records)) ∧
      ∀ seg ∈ s.engine.disk k (s.engine.deleted.filter (·.seq ∈ back)),
        ∀ e ∈ seg.records, c.Fits e := by
  obtain ⟨k, hreplay, hfits⟩ := h.current.replayFile kept
  have hseq := h.current.seq
  generalize hD : s.engine.disk k (s.engine.deleted.filter (·.seq ∈ back)) = D
  -- the file that stands for each segment; only the current one may be torn
  let image : Segment → WalFile := fun seg =>
    if seg.seq = s.engine.current.seq then s.current.afterCrash kept else fileOf c seg
  have himage : ∀ seg, (image seg).seq = seg.seq := by
    intro seg
    simp only [image]
    split
    · next heq => exact hseq.trans heq.symm
    · rfl
  have hold : ∀ seg ∈ s.engine.sealed ++ s.engine.deleted, image seg = fileOf c seg :=
    fun seg hseg => if_neg (hnum.lt seg hseg).ne
  have hdisk : s.disk kept back = D.map image := by
    have hdeleted : s.deleted.filter (·.seq ∈ back) =
        (s.engine.deleted.filter (·.seq ∈ back)).map image := by
      rw [h.deleted, List.filter_map]
      refine List.map_congr_left fun seg hseg => (hold seg ?_).symm
      exact List.mem_append_right _ (List.mem_filter.mp hseg).1
    have hsealed : s.sealed = s.engine.sealed.map image := by
      rw [h.sealed]
      exact List.map_congr_left fun seg hseg => (hold seg (List.mem_append_left _ hseg)).symm
    rw [WritePath.disk, hdeleted, hsealed, ← hD, Engine.disk]
    simp [image, Segment.afterCrash]
  have hmem : ∀ seg ∈ D, seg ∈ s.engine.sealed ++ s.engine.deleted ∨
      seg = s.engine.current.afterCrash k := by
    intro seg hseg
    simp only [← hD, Engine.disk, List.mem_append, List.mem_filter, List.mem_singleton] at hseg ⊢
    tauto
  refine ⟨k, ?_, fun seg hseg => ?_⟩
  · have hsort : (D.map image).insertionSort (fun a b => a.seq ≤ b.seq) =
        (listSegments D).map image := by
      rw [listSegments]
      exact (List.map_insertionSort _ _ image D fun a _ b _ => by simp [himage]).symm
    rw [openFiles, hdisk, hsort, hD]
    refine mapM_map_some fun seg hseg => ?_
    rcases hmem seg (Engine.mem_listSegments.mp hseg) with hseg | rfl
    · rw [hold seg hseg]
      exact replayFile_fileOf (h.fits seg hseg)
    · rw [← hreplay]
      simp [image, Segment.afterCrash]
  · rcases hmem seg (hD ▸ hseg) with hseg | rfl
    · exact h.fits seg hseg
    · exact hfits

theorem tail_of_mem_disk (hshape : Engine.Shape e) {k : Nat} {back : List Nat} {seg : Segment}
    (hseg : seg ∈ e.disk k (e.deleted.filter (·.seq ∈ back))) : seg.tail = [] := by
  simp only [Engine.disk, List.mem_append, List.mem_filter, List.mem_singleton] at hseg
  rcases hseg with (hseg | hseg) | rfl
  · exact hshape.deleted_tail seg hseg.1
  · exact hshape.sealed_tail seg hseg
  · rfl

/-- What the Open makes of the files is what the engine's own Open makes of the segments. -/
theorem opened_eq (hshape : Engine.Shape s.engine) {t : TableStore} (k : Nat) (back : List Nat)
    (ht : s.engine.tables.step fileSize .reopen = some t) :
    s.engine.step fileSize (.reopen k (s.engine.deleted.filter (·.seq ∈ back))) =
      some (s.opened t back
        ((listSegments (s.engine.disk k (s.engine.deleted.filter (·.seq ∈ back)))).map
          fun seg => (fileOf c seg, seg.records))) := by
  have hguard : ∀ seg ∈ s.engine.deleted.filter (·.seq ∈ back), seg ∈ s.engine.deleted :=
    fun seg hseg => (List.mem_filter.mp hseg).1
  have hdeleted := filter_not_mem_filter (fun seg : Segment => decide (seg.seq ∈ back))
    s.engine.deleted
  have htail : ∀ seg ∈ listSegments (s.engine.disk k (s.engine.deleted.filter (·.seq ∈ back))),
      (⟨seg.seq, seg.records, []⟩ : Segment) = seg := by
    intro seg hseg
    rw [← tail_of_mem_disk hshape (Engine.mem_listSegments.mp hseg)]
  simp only [Engine.step, if_pos hguard, ht, Option.map_some, opened, Engine.reopened, openLog]
  generalize listSegments (s.engine.disk k (s.engine.deleted.filter (·.seq ∈ back))) = segs at htail
  have hsealed : ((segs.map fun seg => (fileOf c seg, seg.records)).filter (·.2 ≠ [])).map
      (fun f => (⟨f.1.seq, f.2, []⟩ : Segment)) = segs.filter (·.records ≠ []) := by
    rw [List.filter_map, List.map_map]
    exact (List.map_congr_left fun seg hseg => htail seg (List.mem_filter.mp hseg).1).trans
      (List.map_id _)
  rw [hsealed, hdeleted]
  simp [List.flatMap_map, List.foldl_map, fileOf]

/-! ## Steps -/

/-- An entry the step submits has a payload below `2 ^ 32` bytes that reads back. -/
def FittingEntries (c : Codec WalEntry) (_ : WritePath) (a : WriteAct) : Prop :=
  ∀ entry, a = .submit entry → c.Fits entry

/-- Requests move; nothing else changes. -/
theorem Files.move (h : Files c s) (hengine : s'.engine = s.engine) (hcurrent : s'.current = s.current)
    (hsealed : s'.sealed = s.sealed) (hdeleted : s'.deleted = s.deleted)
    (hrequests : ∀ r ∈ s'.requests, c.Fits r.entry)
    (hcommit : ∀ entries, s.engine.writer = .logging entries ∨ s.engine.writer = .logged entries →
      s'.commit = s.commit) : Files c s' where
  sealed := by rw [hsealed, hengine, h.sealed]
  deleted := by rw [hdeleted, hengine, h.deleted]
  fits := hengine ▸ h.fits
  current := by rw [hcurrent, hengine]; exact h.current
  whole := by rw [hcurrent, hengine]; exact h.whole
  fits_requests := hrequests
  commit := fun entries he => by
    rw [hengine] at he
    rw [hcommit entries he]
    exact h.commit entries he

/-- A commit that is not running has nothing in the log that is not applied. -/
theorem Files.commit_of_free (h : Files c s) (hcommit : ∀ batch, s.commit ≠ .running batch)
    {entries : List WalEntry}
    (he : s.engine.writer = .logging entries ∨ s.engine.writer = .logged entries) : False := by
  obtain ⟨batch, hbatch, -⟩ := h.commit entries he
  exact hcommit batch hbatch

theorem not_writing_of_halted (hshape : Engine.Shape e) (hhalted : e.halted = true)
    {entries : List WalEntry} (he : e.writer = .logging entries ∨ e.writer = .logged entries) :
    False := by
  have hdid := hshape.writer
  rcases he with he | he <;> simp [Engine.WriterDid, he, hhalted] at hdid

/-- The engine takes a step that touches neither the log nor what the commit is doing. -/
theorem Files.setEngine (h : Files c s) (hsealed : e.sealed = s.engine.sealed)
    (hdeleted : e.deleted = s.engine.deleted) (hcurrent : e.current = s.engine.current)
    (hhalted : e.halted = s.engine.halted)
    (hwriter : e.writer = s.engine.writer ∨ ∀ entries, e.writer ≠ .logging entries ∧
      e.writer ≠ .logged entries) : Files c { s with engine := e } where
  sealed := by simpa [hsealed] using h.sealed
  deleted := by simpa [hdeleted] using h.deleted
  fits := by simpa [hsealed, hdeleted] using h.fits
  current := by simpa [hcurrent] using h.current
  whole := by simpa [hcurrent, hhalted] using h.whole
  fits_requests := h.fits_requests
  commit := fun entries he => by
    rcases hwriter with hw | hw
    · exact h.commit entries (by simpa [hw] using he)
    · exact (he.elim (hw entries).1 (hw entries).2).elim

theorem Files.fits_current (h : Files c s) : ∀ e ∈ s.engine.current.records, c.Fits e := by
  obtain ⟨batch, hfits, -⟩ := h.current.bytes
  exact fun e he => hfits e (List.mem_append_left _ he)

theorem Files.fits_batch (h : Files c s) {batch : List Request} (hrun : s.commit = .running batch) :
    ∀ e ∈ batch.map Request.entry, c.Fits e := by
  intro e he
  obtain ⟨r, hr, rfl⟩ := List.mem_map.mp he
  exact h.fits_requests r (by simp [requests, undecided, hrun, hr])

theorem Files.write (h : Files c s) (hshape : Engine.Shape s.engine) {batch : List Request}
    (hrun : s.commit = .running batch)
    (hstep : Engine.Step fileSize s.engine (.log (batch.map Request.entry)) e) :
    Files c { s with
      engine := e
      current := { s.current with
        bytes := s.current.bytes ++ encodeAll c (batch.map Request.entry) } } := by
  cases hstep with
  | log _ hidle hhalt =>
    have hdid := hshape.writer
    simp only [Engine.WriterDid, hidle, hhalt] at hdid
    have htail : s.engine.current.tail = [] := by simpa using hdid
    have hbytes := h.whole hhalt
    rw [htail, List.append_nil] at hbytes
    have hbytes' : s.current.bytes ++ encodeAll c (batch.map Request.entry) =
        encodeAll c (s.engine.current.records ++ batch.map Request.entry) := by
      rw [hbytes, encodeAll_append]
    refine ⟨h.sealed, h.deleted, h.fits, holds_of_whole h.current.seq h.current.synced hbytes' ?_,
      fun _ => hbytes', h.fits_requests, fun entries he => ?_⟩
    · exact List.forall_mem_append.mpr ⟨h.fits_current, h.fits_batch hrun⟩
    · exact ⟨batch, hrun, by simpa using he⟩

theorem Files.fsync (h : Files c s) (hshape : Engine.Shape s.engine)
    (hstep : Engine.Step fileSize s.engine .sync e) :
    Files c { s with
      engine := e, current := { s.current with synced := s.current.bytes.length } } := by
  cases hstep with
  | sync entries hw =>
    have hdid := hshape.writer
    simp only [Engine.WriterDid, hw] at hdid
    have hbytes := h.whole hdid.1
    rw [hdid.2] at hbytes
    obtain ⟨batch, hrun, hbatch⟩ := h.commit entries (Or.inl hw)
    refine ⟨h.sealed, h.deleted, h.fits, holds_of_whole h.current.seq (by rw [hbytes]) ?_ ?_,
      fun _ => ?_, h.fits_requests, fun entries' he => ?_⟩
    · simpa using hbytes
    · simpa [hbatch] using List.forall_mem_append.mpr ⟨h.fits_current, h.fits_batch hrun⟩
    · simpa using hbytes
    · exact ⟨batch, hrun, by simpa [hbatch] using he⟩

/-- After a failed write the file ends in some whole records of the batch and perhaps a torn
one. -/
theorem Files.walFail (h : Files c s) (hshape : Engine.Shape s.engine) {batch : List Request}
    (hrun : s.commit = .running batch) (written : Nat) {decided : List (Request × Outcome)}
    (hstep : Engine.Step fileSize s.engine
      (.walFail (complete c (batch.map Request.entry) written)) e)
    (hs' : s' = { s with
      engine := e
      current := { s.current with bytes := s.current.bytes.take (s.current.synced + written) }
      commit := .done batch
      decided := decided })
    (hrequests : ∀ r ∈ s'.requests, c.Fits r.entry) : Files c s' := by
  subst hs'
  cases hstep with
  | walFail entries _ hw =>
    have hdid := hshape.writer
    simp only [Engine.WriterDid, hw] at hdid
    obtain ⟨batch', hrun', rfl⟩ := h.commit entries (Or.inl hw)
    obtain rfl : batch = batch' := CommitPhase.running.inj (hrun.symm.trans hrun')
    have hfits := h.fits_batch hrun
    have hcut := List.take_prefix written (encodeAll c (batch.map Request.entry))
    have hbytes : s.current.bytes.take (s.current.synced + written) =
        encodeAll c s.engine.current.records ++
          (encodeAll c (batch.map Request.entry)).take written := by
      rw [h.whole hdid.1, hdid.2, encodeAll_append, h.current.synced, List.take_append,
        List.take_of_length_le (Nat.le_add_right _ _)]
      simp
    obtain ⟨k, hk, -⟩ := replayFrom_of_prefix hfits hcut
    have hcomplete : (batch.map Request.entry).take
        (complete c (batch.map Request.entry) written) = (batch.map Request.entry).take k := by
      simp only [complete, Framing.replay, hk, List.length_take]
      rw [List.take_eq_take_iff]
      omega
    refine ⟨h.sealed, h.deleted, h.fits, ⟨h.current.seq, h.current.synced, ?_,
      ⟨batch.map Request.entry, List.forall_mem_append.mpr ⟨h.fits_current, hfits⟩, ?_⟩, ?_⟩,
      by simp, hrequests, by simp⟩
    · rw [hbytes, h.current.synced, List.length_append]
      exact Nat.le_add_right _ _
    · rw [hbytes, encodeAll_append]
      exact (List.prefix_append_right_inj _).mpr hcut
    · rw [hbytes, Framing.replay, replayFrom_encodeAll_append h.fits_current, hk, hcomplete]
      exact ⟨_, rfl⟩

/-- The current file is fsynced throughout when the log rotates. -/
theorem Files.rotate (h : Files c s) (hshape : Engine.Shape s.engine)
    (hw : s.engine.writer = .swapping) {phase : WriterPhase}
    (hphase : ∀ entries, phase ≠ .logging entries ∧ phase ≠ .logged entries) :
    Files c { s with
      engine := { s.engine.nextSegment with writer := phase }
      sealed := s.sealed ++ [s.current], current := ⟨s.current.seq + 1, [], 0⟩ } := by
  have hdid := hshape.writer
  simp only [Engine.WriterDid, hw] at hdid
  have hbytes := h.whole hdid.1
  rw [hdid.2.1, List.append_nil] at hbytes
  have hfile : s.current = fileOf c s.engine.current := by
    have hseq := h.current.seq
    have hsynced := h.current.synced
    cases hcur : s.current
    simp_all [fileOf]
  refine ⟨?_, h.deleted, fun seg hseg => ?_, ?_, fun _ => rfl, h.fits_requests, fun entries he => ?_⟩
  · simp [h.sealed, hfile, Engine.nextSegment]
  · simp only [Engine.nextSegment, List.mem_append, List.mem_singleton] at hseg
    rcases hseg with (hseg | rfl) | hseg
    · exact h.fits seg (List.mem_append_left _ hseg)
    · exact h.fits_current
    · exact h.fits seg (List.mem_append_right _ hseg)
  · refine holds_of_whole ?_ rfl rfl (by simp [Engine.nextSegment])
    simp [Engine.nextSegment, h.current.seq]
  · exact (he.elim (hphase entries).1 (hphase entries).2).elim

theorem Files.deleteThrough (h : Files c s) {due count seq : Nat}
    (hseq : s.engine.deletions[due]? = some seq)
    (hstep : Engine.Step fileSize s.engine (.deleteThrough due count) e) :
    Files c { s with
      engine := e
      sealed := s.sealed.drop ((s.sealed.takeWhile (·.seq ≤ seq)).take count).length
      deleted := s.deleted ++ (s.sealed.takeWhile (·.seq ≤ seq)).take count } := by
  cases hstep with
  | deleteThrough _ _ seq' hseq' =>
    obtain rfl : seq = seq' := Option.some.inj (hseq.symm.trans hseq')
    have hdoomed : (s.sealed.takeWhile (·.seq ≤ seq)).take count =
        ((s.engine.sealed.takeWhile (·.seq ≤ seq)).take count).map (fileOf c) := by
      rw [h.sealed, List.takeWhile_map, List.map_take]
      rfl
    refine ⟨?_, ?_, fun seg hseg => h.fits seg ?_, h.current, h.whole, h.fits_requests, h.commit⟩
    · rw [hdoomed, List.length_map, h.sealed, List.map_drop]
    · rw [hdoomed, h.deleted, List.map_append]
    · obtain ⟨doomed, rest, hd, hdrop, hsealed, -⟩ :=
        Engine.deleteThrough_split s.engine.sealed seq count
      simp only [hd, hdrop, List.mem_append] at hseg
      simp only [hsealed, List.mem_append]
      tauto

theorem Files.reopen (h : Files c s) (hshape : Engine.Shape s.engine) (hnum : Numbered s.engine)
    {kept : Nat} {back : List Nat} {found : List (WalFile × List WalEntry)} {t : TableStore}
    (hfound : openFiles c (s.disk kept back) = some found)
    (ht : s.engine.tables.step fileSize .reopen = some t) (groupCommit : Bool) :
    (∃ k, s.engine.step fileSize (.reopen k (s.engine.deleted.filter (·.seq ∈ back))) =
      some (s.opened t back found)) ∧
    Files c (s.reopened groupCommit back found t) := by
  obtain ⟨k, hopen, hfits⟩ := h.open_eq hnum kept back
  obtain rfl := Option.some.inj (hopen.symm.trans hfound)
  have heq := opened_eq (c := c) hshape k back ht
  refine ⟨⟨k, heq⟩, ?_, ?_, fun seg hseg => ?_, ?_, fun _ => rfl,
    by simp [requests, batchOf, undecided], by simp [opened]⟩
  · simp [opened, List.filter_map, fileOf, Function.comp_def]
  · simp only [opened, h.deleted, List.filter_map]
    rfl
  · rcases List.mem_append.mp hseg with hseg | hseg
    · simp only [opened, List.mem_map, List.mem_filter] at hseg
      obtain ⟨-, ⟨⟨old, hold, rfl⟩, -⟩, rfl⟩ := hseg
      exact hfits old (Engine.mem_listSegments.mp hold)
    · exact h.fits seg (List.mem_append_right _ (List.mem_filter.mp hseg).1)
  · exact holds_of_whole rfl rfl rfl (by simp [opened])

theorem Files.background (h : Files c s) (hb : b.background = true)
    (hstep : Engine.Step fileSize s.engine b e) : Files c { s with engine := e } := by
  cases hstep with
  | flushStart | table | flushDone | flushFailed => exact h.setEngine rfl rfl rfl rfl (Or.inl rfl)
  | _ => cases hb

theorem length_applyBatch : ∀ (batch : List WalEntry) (l : Layers),
    (l.applyBatch batch).2.2.length = batch.length
  | [], _ => rfl
  | e :: batch, l => by
    simp [Layers.applyBatch, length_applyBatch batch]

/-- While a batch is being filled nothing is carried over. -/
def CarriesNothing (s : WritePath) : Prop :=
  ∀ batch, s.committer = .filling batch → s.carried = none

theorem carriesNothing_step (h : CarriesNothing s) (hstep : Step c fileSize s a s') :
    CarriesNothing s' := by
  cases hstep with
  | receiveCarried => exact fun _ _ => rfl
  | receive r queue hrecv hnone => exact fun _ _ => hnone
  | fillOver | fillEnd | lockBatch | reopen => exact nofun
  | fill batch r queue hfill => exact fun _ _ => h batch hfill
  | _ => exact h

/-- A step moves requests, or adds one under the next number. -/
theorem requests_step (hcarried : CarriesNothing s) (hstep : Step c fileSize s a s')
    (ha : ∀ g k back, a ≠ .reopen g k back) :
    (s'.requests = s.requests ∧ s'.nextID = s.nextID) ∨
      ∃ entry, a = .submit entry ∧ s'.requests = ⟨s.nextID, entry⟩ ::ₘ s.requests ∧
        s'.nextID = s.nextID + 1 := by
  have herase : ∀ {i : Nat} {r : Request}, s.pending[i]? = some r →
      (s.pending : Multiset Request) = {r} + (s.pending.eraseIdx i : Multiset Request) := by
    intro i r hi
    obtain ⟨hlt, rfl⟩ := List.getElem?_eq_some_iff.mp hi
    exact Multiset.coe_eq_coe.mpr (List.getElem_cons_eraseIdx_perm hlt).symm
  cases hstep with
  | submitHalted entry | submit entry =>
    refine Or.inr ⟨entry, rfl, ?_, rfl⟩
    simp only [requests, List.map_append, List.map_cons, List.map_nil, ← Multiset.coe_add,
      Multiset.coe_singleton, ← Multiset.singleton_add]
    abel
  | reopen g k back => exact absurd rfl (ha g k back)
  | enqueueClosed i r hi | lockClosed i r hi | enqueue i r hi =>
    refine Or.inl ⟨?_, rfl⟩
    simp only [requests, herase hi, List.map_append, List.map_cons, List.map_nil,
      ← Multiset.coe_add, Multiset.coe_singleton]
    abel
  | lock i r hi hfree =>
    refine Or.inl ⟨?_, rfl⟩
    simp only [requests, undecided, herase hi, hfree, Multiset.coe_singleton, Multiset.coe_nil]
    abel
  | receiveCarried r hrecv hr =>
    exact Or.inl ⟨by simp [requests, batchOf, hrecv, hr], rfl⟩
  | receive r queue hrecv hnone hq =>
    refine Or.inl ⟨?_, rfl⟩
    simp only [requests, batchOf, hrecv, hq, ← Multiset.cons_coe, ← Multiset.singleton_add,
      Multiset.coe_nil]
    abel
  | fillOver batch r queue hfill hq =>
    refine Or.inl ⟨?_, rfl⟩
    simp only [requests, batchOf, hfill, hq, hcarried batch hfill, Option.toList_some,
      Option.toList_none, ← Multiset.cons_coe, ← Multiset.singleton_add, Multiset.coe_nil]
    abel
  | fill batch r queue hfill hq =>
    refine Or.inl ⟨?_, rfl⟩
    simp only [requests, batchOf, hfill, hq, ← Multiset.coe_add, ← Multiset.cons_coe,
      ← Multiset.singleton_add, Multiset.coe_nil]
    abel
  | fillEnd batch hfill => exact Or.inl ⟨by simp only [requests, batchOf, hfill], rfl⟩
  | lockBatch batch hready hfree =>
    exact Or.inl ⟨by simp [requests, batchOf, undecided, hready, hfree], rfl⟩
  | signal batch hdone =>
    exact Or.inl ⟨by simp only [requests, undecided, hdone], rfl⟩
  | writeHalted batch hrun | walFail batch written e hrun =>
    refine Or.inl ⟨?_, rfl⟩
    simp only [requests, undecided, hrun, List.map_append, List.map_map, Function.comp_def,
      List.map_id', ← Multiset.coe_add, Multiset.coe_nil]
    abel
  | apply batch e hrun =>
    refine Or.inl ⟨?_, rfl⟩
    have hzip : (batch.zip ((s.engine.layers.applyBatch (batch.map Request.entry)).2.2.map
        verdict)).map Prod.fst = batch :=
      List.map_fst_zip (by simp [length_applyBatch])
    simp only [requests, undecided, hrun, List.map_append, hzip, ← Multiset.coe_add,
      Multiset.coe_nil]
    abel
  | _ => exact Or.inl ⟨rfl, rfl⟩

theorem files_step (h : Files c s) (hshape : Engine.Shape s.engine) (hnum : Numbered s.engine)
    (hcarried : CarriesNothing s) (ha : FittingEntries c s a) (hstep : Step c fileSize s a s') :
    Files c s' := by
  have hrequests : (∀ g k back, a ≠ .reopen g k back) → ∀ r ∈ s'.requests, c.Fits r.entry := by
    intro hreopen r hr
    rcases requests_step hcarried hstep hreopen with ⟨heq, -⟩ | ⟨entry, rfl, heq, -⟩
    · exact h.fits_requests r (heq ▸ hr)
    · rw [heq, Multiset.mem_cons] at hr
      rcases hr with rfl | hr
      · exact ha entry rfl
      · exact h.fits_requests r hr
  cases hstep with
  | lock i r hi hfree | lockBatch batch hready hfree =>
    exact h.move rfl rfl rfl rfl (hrequests nofun) fun _ he =>
      (h.commit_of_free (by simp [hfree]) he).elim
  | writeHalted batch hrun hh =>
    exact h.move rfl rfl rfl rfl (hrequests nofun) fun _ he =>
      (not_writing_of_halted hshape hh he).elim
  | signal batch hdone =>
    exact h.move rfl rfl rfl rfl (hrequests nofun) fun _ he =>
      (h.commit_of_free (by simp [hdone]) he).elim
  | write batch e hrun hh he => exact h.write hshape hrun (Engine.step_sound he)
  | fsync e he => exact h.fsync hshape (Engine.step_sound he)
  | walFail batch written e hrun he =>
    exact h.walFail hshape hrun written (Engine.step_sound he) rfl (hrequests nofun)
  | apply batch e hrun he =>
    cases Engine.step_sound he with
    | apply entries =>
      refine ⟨h.sealed, h.deleted, h.fits, h.current, h.whole, hrequests nofun, fun entries he => ?_⟩
      simp only at he
      split at he <;> simp at he
  | rotateFailed e he =>
    cases Engine.step_sound he with
    | rotateFailed => exact h.setEngine rfl rfl rfl rfl (Or.inr (by simp))
  | rotate outcome e ho he =>
    cases Engine.step_sound he with
    | rotateFailed => exact absurd rfl ho
    | rotateCloseFailed hw | rotateOk hw => exact h.rotate hshape hw (by simp)
  | freeze e he =>
    cases Engine.step_sound he with
    | freeze => exact h.setEngine rfl rfl rfl rfl (Or.inr (by simp))
  | background b e hb he => exact h.background hb (Engine.step_sound he)
  | deleteThrough due count seq e hseq he => exact h.deleteThrough hseq (Engine.step_sound he)
  | reopen groupCommit kept back found t hfound ht => exact (h.reopen hshape hnum hfound ht _).2
  | _ => exact h.move rfl rfl rfl rfl (hrequests nofun) fun _ _ => rfl

/-- What a step other than a crash does to the engine is a step of the engine. -/
theorem engine_step_alive (hstep : Step c fileSize s a s') (ha : ∀ g k back, a ≠ .reopen g k back) :
    (s'.engine = s.engine ∧ a ≠ .apply) ∨
      ∃ b, s.engine.step fileSize b = some s'.engine ∧ (b = .apply ↔ a = .apply) ∧
        (∀ kept back, b ≠ .reopen kept back) ∧
        ∀ kept, b = .walFail kept → ∃ written, a = .walFail written := by
  cases hstep with
  | write _ _ _ _ he | fsync _ he | walFail _ _ _ _ he | apply _ _ _ he | rotateFailed _ he
  | rotate _ _ _ he | freeze _ he
  | deleteThrough due count seq e hseq he => exact Or.inr ⟨_, he, by simp, by simp, by simp⟩
  | background b e hb he =>
    refine Or.inr ⟨b, he, ?_, ?_, ?_⟩ <;> cases b <;> simp_all [EngineAct.background]
  | reopen g k back => exact absurd rfl (ha g k back)
  | _ => exact Or.inl ⟨rfl, nofun⟩

/-- What a step does to the engine is a step of the engine. -/
theorem engine_step (h : Files c s) (hshape : Engine.Shape s.engine) (hnum : Numbered s.engine)
    (hstep : Step c fileSize s a s') :
    (s'.engine = s.engine ∧ a ≠ .apply) ∨
      ∃ b, s.engine.step fileSize b = some s'.engine ∧ BringsNumbers s.engine b ∧
        (b = .apply → a = .apply) ∧
        ∀ kept back, b = .reopen kept back → ∃ g k numbers, a = .reopen g k numbers := by
  by_cases ha : ∀ g k back, a ≠ .reopen g k back
  · rcases engine_step_alive hstep ha with hsame | ⟨b, hb, happly, hreopen, -⟩
    · exact Or.inl hsame
    · exact Or.inr ⟨b, hb, fun kept back heq => absurd heq (hreopen kept back), happly.mp,
        fun kept back heq => absurd heq (hreopen kept back)⟩
  · push Not at ha
    obtain ⟨groupCommit, kept, back, rfl⟩ := ha
    cases hstep with
    | reopen _ _ _ found t hfound ht =>
      obtain ⟨⟨k, hk⟩, -⟩ := h.reopen hshape hnum hfound ht groupCommit
      refine Or.inr ⟨_, hk, ?_, nofun, fun _ _ _ => ⟨_, _, _, rfl⟩⟩
      rintro kept' back' heq
      cases heq
      exact ⟨back, rfl⟩

theorem acknowledged_sublist {batch : List Request} {oks : List Bool}
    (h : batch.length ≤ oks.length) :
    (((batch.zip oks).filter Prod.snd).map fun p => p.1.entry).Sublist
      (batch.map Request.entry) := by
  have hzip : (batch.zip oks).map (fun p => p.1.entry) = batch.map Request.entry := by
    rw [← Function.comp_def Request.entry Prod.fst, ← List.map_map, List.map_fst_zip h]
  rw [← hzip]
  exact List.filter_sublist.map _

theorem acked_of_step (h : Acked s.acked s.engine) (hfiles : Files c s)
    (hshape : Engine.Shape s.engine) (hnum : Numbered s.engine) (hstep : Step c fileSize s a s') :
    Acked s'.acked s'.engine := by
  rcases engine_step hfiles hshape hnum hstep with ⟨heq, ha⟩ | ⟨b, hb, -, hiff, -⟩
  · have hacked : s'.acked = s.acked := by cases hstep <;> first | rfl | exact absurd rfl ha
    rw [heq, hacked]
    exact h
  · by_cases ha : a = .apply
    · subst ha
      cases hstep with
      | apply batch e hrun he =>
        have hstep := Engine.step_sound he
        have hflight : inFlight s.engine = batch.map Request.entry := by
          cases hstep with
          | apply entries hw =>
            obtain ⟨batch', hrun', rfl⟩ := hfiles.commit entries (Or.inr hw)
            obtain rfl : batch = batch' := CommitPhase.running.inj (hrun.symm.trans hrun')
            simp [inFlight, hw]
        have hsub : (((batch.zip (s.engine.layers.applyBatch (batch.map Request.entry)).2.2).filter
            Prod.snd).map fun p => p.1.entry).Sublist (inFlight s.engine) := by
          rw [hflight]
          exact acknowledged_sublist (by simp [length_applyBatch])
        have hack := acked_apply h hnum hstep hsub
        simpa [List.map_map, Function.comp_def, hfiles.current.seq] using hack
    · have hacked : s'.acked = s.acked := by cases hstep <;> first | rfl | exact absurd rfl ha
      rw [hacked]
      exact acked_step h (fun heq => ha (hiff heq)) (Engine.step_sound hb)

end WritePath

end DistributedKV
