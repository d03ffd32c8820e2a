import DistributedKV.Placement
import DistributedKV.Cluster

/-!
# One membership change displaces one owner

A node that joins takes positions of its own, as long as none of its virtual nodes falls on
a position of another member. Going round the ring with it one meets the same members in the
same order, and the new one in between (`RingOf.clockwise_without`). So a key's owners
without the node are its owners with it, the node left out, and at most one more at the end
(`RingOf.preferenceListFrom_without`).

A write is acknowledged by W distinct owners, whatever else happens in the run
(`Cluster.tracked_of_run`). With W at least two, one of them is an owner after the change.
-/

namespace DistributedKV

namespace HashRing

/-- `hr` and `hr'` are the rings of a member set without and with `x`, and no position of `x`
is one of another member. -/
structure Joins (hash : String → UInt32) (v : Nat) (ids ids' : List String) (x : String)
    (hr hr' : HashRing) : Prop where
  ring : RingOf hash v ids hr
  ring' : RingOf hash v ids' hr'
  sorted : hr.ring.Pairwise (· ≤ ·)
  sorted' : hr'.ring.Pairwise (· ≤ ·)
  mem_iff : ∀ id, id ∈ ids' ↔ id = x ∨ id ∈ ids
  not_mem : x ∉ ids
  apart : ∀ pos, Claims hash v x pos → ∀ m ∈ ids, ¬Claims hash v m pos

namespace Joins

variable {hash : String → UInt32} {v : Nat} {ids ids' : List String} {x : String}
  {hr hr' : HashRing}

/-- A position of the ring without `x` has the same owner with it. -/
theorem owner_eq (h : Joins hash v ids ids' x hr hr') {pos : UInt32} (hpos : pos ∈ hr.ring) :
    pos ∈ hr'.ring ∧ hr'.owner pos = hr.owner pos := by
  obtain ⟨m, hm, hclaim⟩ := h.ring.mem_ring_iff.mp hpos
  have hpos' : pos ∈ hr'.ring := h.ring'.mem_ring_iff.mpr ⟨m, (h.mem_iff m).mpr (.inr hm), hclaim⟩
  have hclaimants : {m | m ∈ ids' ∧ Claims hash v m pos} = {m | m ∈ ids ∧ Claims hash v m pos} := by
    ext k
    simp only [Set.mem_ofPred_eq, h.mem_iff]
    refine and_congr_left fun hk => or_iff_right ?_
    rintro rfl
    exact h.apart pos hk m hm hclaim
  have hleast := h.ring'.isLeast_owner hpos'
  rw [hclaimants] at hleast
  exact ⟨hpos', hleast.unique (h.ring.isLeast_owner hpos)⟩

/-- The positions without `x` are those with it that it does not own. -/
theorem filter_ring (h : Joins hash v ids ids' x hr hr') :
    hr'.ring.filter (hr'.owner · ≠ x) = hr.ring := by
  refine List.Perm.eq_of_pairwise' (h.sorted'.filter _) h.sorted ?_
  refine (List.perm_ext_iff_of_nodup (h.ring'.placed.nodup.filter _)
    h.ring.placed.nodup).mpr fun pos => ?_
  rw [List.mem_filter, decide_eq_true_eq]
  constructor
  · rintro ⟨hpos, hne⟩
    obtain ⟨⟨howner, hclaim⟩, -⟩ := h.ring'.isLeast_owner hpos
    exact h.ring.mem_ring_iff.mpr ⟨_, ((h.mem_iff _).mp howner).resolve_left hne, hclaim⟩
  · intro hpos
    obtain ⟨hpos', heq⟩ := h.owner_eq hpos
    refine ⟨hpos', fun he => h.not_mem ?_⟩
    rw [← he, heq]
    exact (h.ring.isLeast_owner hpos).1.1

/-- Going round with `x`, the others are met as without it. -/
theorem filter_owners (h : Joins hash v ids ids' x hr hr') (target : UInt32) :
    ((hr'.clockwise target).map hr'.owner).filter (· ≠ x) =
      (hr.clockwise target).map hr.owner := by
  have hkept : ∀ p : UInt32 → Bool,
      (hr'.ring.filter p).filter (hr'.owner · ≠ x) = hr.ring.filter p := by
    intro p
    rw [List.filter_comm, h.filter_ring]
  have hround : (hr'.clockwise target).filter (hr'.owner · ≠ x) = hr.clockwise target := by
    rw [clockwise, clockwise, List.filter_append, hkept, hkept]
  rw [List.filter_map, ← hround]
  refine List.map_congr_left fun pos hpos => ?_
  have hpos : pos ∈ hr.clockwise target := hround ▸ hpos
  exact (h.owner_eq (mem_clockwise.mp hpos)).2

/-- The owners without `x` : those with it, `x` left out, and at most one more. -/
theorem preferenceListFrom_eq_append (h : Joins hash v ids ids' x hr hr') (target : UInt32)
    {N : Nat} (hN : 1 ≤ N) :
    ∃ extra : List String, extra.length ≤ 1 ∧ (∀ m ∈ extra, m ∈ ids) ∧
      hr.preferenceListFrom target N =
        (hr'.preferenceListFrom target N).filter (· ≠ x) ++ extra := by
  obtain ⟨extra, hlen, hmem, heq⟩ := Circle.take_filter_ne
    (Circle.nodup_eraseDups ((hr'.clockwise target).map hr'.owner)) x N
  refine ⟨extra, hlen, fun m hm => ?_, ?_⟩
  · obtain ⟨hm, hne⟩ := hmem m hm
    obtain ⟨pos, hpos, rfl⟩ := List.mem_map.mp (List.mem_eraseDups.mp hm)
    have howner := (h.ring'.isLeast_owner (mem_clockwise.mp hpos)).1.1
    exact ((h.mem_iff _).mp howner).resolve_left hne
  · rw [preferenceListFrom_eq h.sorted _ hN, preferenceListFrom_eq h.sorted' _ hN, ← heq,
      ← Circle.eraseDups_filter, h.filter_owners]

end Joins

theorem nodup_of_checkMembers : ∀ {ids seen : List String}, checkMembers seen ids = none →
    ids.Nodup ∧ ∀ id ∈ ids, id ∉ seen
  | [], _, _ => ⟨List.nodup_nil, by simp⟩
  | id :: ids, seen, h => by
    unfold checkMembers at h
    split_ifs at h with hempty hseen
    obtain ⟨hnd, hnew⟩ := nodup_of_checkMembers h
    refine ⟨List.nodup_cons.mpr ⟨fun hmem => hnew id hmem List.mem_cons_self, hnd⟩, ?_⟩
    refine List.forall_mem_cons.mpr ⟨hseen, fun m hm hmem => ?_⟩
    exact hnew m hm (List.mem_cons_of_mem _ hmem)

theorem exists_fromMembers (v : Nat) (ids : List String) (hnd : ids.Nodup) (hne : "" ∉ ids) :
    ∃ hr, fromMembers v ids = .ok hr := by
  refine ⟨(ids.foldl (place hashKey) (new v)).sortRing, ?_⟩
  rw [fromMembers, fromMembersWith, checkMembers_eq_none hne hnd (by simp)]

/-- What `NewHashRingFromMembers` returns. -/
theorem ringOf_fromMembers {v : Nat} {ids : List String} {hr : HashRing}
    (h : fromMembers v ids = .ok hr) :
    ids.Nodup ∧ RingOf hashKey v ids hr ∧ hr.ring.Pairwise (· ≤ ·) := by
  unfold fromMembers fromMembersWith at h
  split at h
  · cases h
  · next hcheck =>
    obtain rfl := Except.ok.inj h
    exact ⟨(nodup_of_checkMembers hcheck).1, ringOf_built hashKey v ids, sorted_sortRing _⟩

theorem joins_of_fromMembers {v : Nat} {ids ids' : List String} {x : String} {hr hr' : HashRing}
    (h : fromMembers v ids = .ok hr) (h' : fromMembers v ids' = .ok hr')
    (hids : ids'.Perm (x :: ids)) (hapart : ∀ i < v, ∀ m ∈ ids, ∀ j < v,
      hashKey (x ++ "-" ++ toString i) ≠ hashKey (m ++ "-" ++ toString j)) :
    Joins hashKey v ids ids' x hr hr' := by
  obtain ⟨-, hring, hsorted⟩ := ringOf_fromMembers h
  obtain ⟨hnd, hring', hsorted'⟩ := ringOf_fromMembers h'
  refine ⟨hring, hring', hsorted, hsorted', fun id => ?_,
    (List.nodup_cons.mp (hids.nodup_iff.mp hnd)).1, ?_⟩
  · rw [hids.mem_iff, List.mem_cons]
  · rintro pos ⟨i, hi, hpos⟩ m hm ⟨j, hj, heq⟩
    exact hapart i hi m hm j hj (hpos.trans heq.symm)

end HashRing

/-! ## Lists that differ by one -/

section Lists

variable {l l' extra : List String} {x : String}

/-- Of either list at most one element is not in the other, and the common ones have the same
order. -/
theorem differ_by_one (hnd : l.Nodup) (hnd' : l'.Nodup) (hlen : extra.length ≤ 1)
    (hx : x ∉ extra) (heq : l = l'.filter (· ≠ x) ++ extra) :
    (l.filter (· ∉ l')).length ≤ 1 ∧ (l'.filter (· ∉ l)).length ≤ 1 ∧
      l.filter (· ∈ l') = l'.filter (· ∈ l) := by
  have hfirst : ∀ a ∈ l'.filter (· ≠ x), a ∈ l' := fun a ha => (List.mem_filter.mp ha).1
  have hextra : ∀ a ∈ extra, a ∉ l' := by
    intro a ha hmem
    have hne : a ≠ x := fun he => hx (he ▸ ha)
    rw [heq] at hnd
    exact (List.nodup_append.mp hnd).2.2 a (List.mem_filter.mpr ⟨hmem, by simpa using hne⟩) a ha rfl
  have hmem : ∀ a ∈ l', a ∈ l ↔ a ≠ x := by
    intro a ha
    rw [heq, List.mem_append, List.mem_filter, decide_eq_true_eq, and_iff_right ha]
    exact or_iff_left_of_imp fun h => absurd ha (hextra a h)
  refine ⟨?_, ?_, ?_⟩
  · rw [heq, List.filter_append, List.filter_eq_nil_iff.mpr fun a ha => by simpa using hfirst a ha,
      List.nil_append]
    exact (List.length_filter_le ..).trans hlen
  · have honly : ∀ a ∈ l'.filter (· ∉ l), a = x := by
      intro a ha
      obtain ⟨ha, hnot⟩ := List.mem_filter.mp ha
      by_contra hne
      exact absurd ((hmem a ha).mpr hne) (by simpa using hnot)
    have hsub : (l'.filter (· ∉ l)).Subperm [x] := List.subperm_of_subset (hnd'.filter _)
      fun a ha => List.mem_singleton.mpr (honly a ha)
    exact hsub.length_le
  · have hrest : l'.filter (· ∈ l) = l'.filter (· ≠ x) :=
      List.filter_congr fun a ha => decide_eq_decide.mpr (hmem a ha)
    have hnone : extra.filter (· ∈ l') = [] :=
      List.filter_eq_nil_iff.mpr fun a ha => by simpa using hextra a ha
    rw [hrest, heq, List.filter_append, hnone, List.append_nil]
    exact List.filter_eq_self.mpr fun a ha => by simpa using hfirst a ha

/-- Two elements of a list of which at most one is not in the other. -/
theorem exists_mem_of_differ {q : List String} (hq : q.Nodup) (hsub : ∀ a ∈ q, a ∈ l)
    (htwo : 2 ≤ q.length) (hone : (l.filter (· ∉ l')).length ≤ 1) : ∃ a ∈ q, a ∈ l' := by
  by_contra hnone
  push Not at hnone
  have hle : q.Subperm (l.filter (· ∉ l')) := List.subperm_of_subset hq fun a ha =>
    List.mem_filter.mpr ⟨hsub a ha, by simpa using hnone a ha⟩
  have := hle.length_le
  omega

end Lists

/-! ## Acknowledged writes -/

namespace Cluster

variable {v : View} {s s' : Cluster} {e : Event}

theorem tracked_of_run {allowed : Event → Prop} (h : Run v allowed s) : Tracked v s := by
  induction h with
  | start => exact ⟨by simp, by simp⟩
  | step hrun he hstep ih => exact tracked_step ih hstep

theorem Run.mono {allowed allowed' : Event → Prop} (h : Run v allowed s)
    (hle : ∀ e, allowed e → allowed' e) : Run v allowed' s := by
  induction h with
  | start stores => exact .start stores
  | step hrun he hstep ih => exact ih.step (hle _ he) hstep

/-- A write acknowledged with one list of owners has reached a node that is in the other
list too, if at most one is not. -/
theorem exists_owner_of_acked {v : View} {after : List String} (hW : 2 ≤ v.quorum.W)
    {c : PutCall} (hone : ((v.preferenceList c.key).filter (· ∉ after)).length ≤ 1)
    (hnode : c.node ∈ v.preferenceList c.key) (hcount : c.Counted v) (hacked : c.status = .acked) :
    ∃ q, q ∈ v.preferenceList c.key ∧ q ∈ after ∧ (q = c.node ∨ q ∈ c.applied) := by
  obtain ⟨hnd, hsub, hsize⟩ := hcount.quorum hnode hacked
  obtain ⟨q, hq, hafter⟩ := exists_mem_of_differ hnd hsub (hW.trans hsize) hone
  exact ⟨q, hsub q hq, hafter, (List.mem_cons.mp hq).imp_right (hcount.acks_applied q)⟩

end Cluster

/-- One node joins or leaves : the owners without it are those with it, the node left out,
and at most one more; of either list at most one is not in the other, and the common ones
stay in order. A write acknowledged before the change by two nodes or more has reached one
that is an owner after it, and that node holds it unless the key was rolled back. -/
theorem one_change_displaces_one {v : Nat} {ids ids' : List String} {x : String}
    {hr hr' : HashRing} (h : HashRing.fromMembers v ids = .ok hr)
    (h' : HashRing.fromMembers v ids' = .ok hr') (hids : ids'.Perm (x :: ids))
    (hapart : ∀ i < v, ∀ m ∈ ids, ∀ j < v,
      hashKey (x ++ "-" ++ toString i) ≠ hashKey (m ++ "-" ++ toString j))
    (key : String) {N : Nat} (hN : 1 ≤ N) :
    let without := hr.getPreferenceList key N
    let joined := hr'.getPreferenceList key N
    (∃ extra : List String, extra.length ≤ 1 ∧ (∀ m ∈ extra, m ∈ ids) ∧
      without = joined.filter (· ≠ x) ++ extra) ∧
    (without.filter (· ∉ joined)).length ≤ 1 ∧ (joined.filter (· ∉ without)).length ≤ 1 ∧
    without.filter (· ∈ joined) = joined.filter (· ∈ without) ∧
    ∀ before after, (before = hr ∧ after = hr') ∨ (before = hr' ∧ after = hr) →
      ∀ W R, 2 ≤ W → ∀ (allowed : Event → Prop) (s : Cluster),
        Cluster.Run ⟨before, ⟨N, W, R⟩⟩ allowed s →
        (∀ c ∈ s.puts, c.key = key → c.status = .acked →
          ∃ q, q ∈ before.getPreferenceList key N ∧ q ∈ after.getPreferenceList key N ∧
            (q = c.node ∨ q ∈ c.applied)) ∧
        ((∀ e, allowed e → e.Keeps key) → ∀ item, (key, item) ∈ s.returned →
          ∃ q, q ∈ before.getPreferenceList key N ∧ q ∈ after.getPreferenceList key N ∧
            s.Holds key q item.vectorClock) := by
  intro without joined
  have hjoins := HashRing.joins_of_fromMembers h h' hids hapart
  obtain ⟨extra, hlen, hextra, heq⟩ := hjoins.preferenceListFrom_eq_append (hashKey key) hN
  have heq : without = joined.filter (· ≠ x) ++ extra := heq
  obtain ⟨hout, hin, horder⟩ := differ_by_one (HashRing.nodup_getPreferenceList hr key hN)
    (HashRing.nodup_getPreferenceList hr' key hN) hlen (fun hx => hjoins.not_mem (hextra x hx)) heq
  refine ⟨⟨extra, hlen, hextra, heq⟩, hout, hin, horder, ?_⟩
  intro before after hchange W R hW allowed s hrun
  have hone : ((before.getPreferenceList key N).filter
      (· ∉ after.getPreferenceList key N)).length ≤ 1 := by
    rcases hchange with ⟨rfl, rfl⟩ | ⟨rfl, rfl⟩
    · exact hout
    · exact hin
  refine ⟨fun c hc hkey hacked => ?_, fun hkeeps item hitem => ?_⟩
  · obtain ⟨hnode, hcount⟩ := (Cluster.tracked_of_run hrun).puts c hc
    subst hkey
    exact Cluster.exists_owner_of_acked hW hone hnode hcount hacked
  · obtain ⟨Q, hQ, hheld⟩ := (Cluster.inv_of_run (hrun.mono hkeeps)).returned item hitem
    obtain ⟨q, hq, hafter⟩ := exists_mem_of_differ hQ.nodup hQ.replicas (hW.trans hQ.size) hone
    exact ⟨q, hQ.replicas q hq, hafter, hheld q hq⟩

/-- A fourth node joins three. -/
theorem one_change_displaces_one_fourth : ∃ hr hr' : HashRing,
    HashRing.fromMembers 1 ["A", "B", "C"] = .ok hr ∧
    HashRing.fromMembers 1 ["A", "B", "C", "D"] = .ok hr' ∧
    ((hr.getPreferenceList "k" 2).filter (· ∉ hr'.getPreferenceList "k" 2)).length ≤ 1 := by
  obtain ⟨hr, h⟩ := HashRing.exists_fromMembers 1 ["A", "B", "C"] (by decide) (by decide)
  obtain ⟨hr', h'⟩ := HashRing.exists_fromMembers 1 ["A", "B", "C", "D"] (by decide) (by decide)
  refine ⟨hr, hr', h, h', ?_⟩
  exact (one_change_displaces_one (x := "D") h h' (by decide) (by decide +kernel) "k"
    (by decide : 1 ≤ 2)).2.1

end DistributedKV
