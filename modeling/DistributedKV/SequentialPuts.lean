import DistributedKV.Cluster

/-!
# Puts one after another, with rollbacks

The runs of `Cluster` in which the operations on one key follow each other : at most one Put
of it is under way on a coordinator, and none while a Get is (`OneAtATime`). A Replicate
request is applied and answered, or fails, or is applied although its answer is lost. It may
also outlive its Put : until it has ended it can reach its peer during a later operation, even
when its Put was rolled back long ago (`SeqRun`).

A rollback takes back the counter the failed write used, while a replica may keep its item.
`put_loses_to_rolled_back` : the next Put builds the same clock, that replica drops it as
Equal and acknowledges it, and a Get returns the failed write's value instead. When no
version that can still be seen has the new item's counters (`NoTwin`), an acknowledged item
is returned or superseded (`get_returns_acked`).

The versions that can still be seen are `present`. No step adds to them but the coordinator's
own write (`Moves`), so Equal ones among them stay one and the same, and what a write quorum
shows it goes on showing (`Agrees`).
-/

open Maxima

namespace DistributedKV

open DataItem (vectorClock)

/-- Waiting for results, or about to roll back. -/
def PutCall.Pending (c : PutCall) : Prop :=
  c.status = .deciding ∨ c.status = .failing

instance (c : PutCall) : Decidable c.Pending :=
  inferInstanceAs (Decidable (_ ∨ _))

namespace Cluster

/-- The Puts of the key that are under way on a coordinator : where, and what it had read
for a rollback. -/
def underWay (s : Cluster) (key : String) : List (String × List DataItem) :=
  (s.started.filter (·.key = key)).map (fun p => (p.node, p.prevVersions)) ++
    (s.puts.filter fun c => c.key = key ∧ c.Pending).map fun c => (c.node, c.prevVersions)

/-- At most one Put of the key is under way, and none while a Get is. -/
def OneAtATime (key : String) (s : Cluster) : Prop :=
  (s.underWay key).length ≤ 1 ∧
    ∀ g ∈ s.gets, g.key = key → g.status = .deciding → s.underWay key = []

instance (key : String) (s : Cluster) : Decidable (OneAtATime key s) :=
  inferInstanceAs (Decidable (_ ∧ _))

/-- The items that Replicate requests can still bring. `ended` are the requests, by Put and
peer, that reach nobody any more. -/
def inFlight (s : Cluster) (key : String) (ended : List (Nat × String)) : List DataItem :=
  (s.puts.zipIdx.filter fun p => p.1.key = key ∧ ∃ peer ∈ p.1.peers, (p.2, peer) ∉ ended).map
    fun p => p.1.item

/-- The versions of the key that can still be seen : the visible ones of its replicas, those
in flight, and those a rollback would bring back, which are what the coordinator had read
and whatever it has stored that this does not cover. -/
def present (v : View) (key : String) (s : Cluster) (ended : List (Nat × String)) : List DataItem :=
  (v.preferenceList key).flatMap (fun r => (s.stores r).persister.getAll key) ++
    (s.inFlight key ended ++ (s.underWay key).flatMap fun u =>
      u.2 ++ ((s.stores u.1).persister.items key).filter fun x => ¬Covers vectorClock u.2 x.vectorClock)

/-- No version that can still be seen has the item's counters. -/
def NoTwin (v : View) (key : String) (s : Cluster) (ended : List (Nat × String)) (item : DataItem) :
    Prop :=
  ∀ x ∈ present v key s ended, x.vectorClock.compare item.vectorClock ≠ .equal

instance (v : View) (key : String) (s : Cluster) (ended : List (Nat × String)) (item : DataItem) :
    Decidable (NoTwin v key s ended item) :=
  inferInstanceAs (Decidable (∀ _ ∈ _, _))

end Cluster

/-- Requests that have ended bring nothing, items of the key come with Puts only, and flushes
and compactions change no read. -/
def Event.Plain (key : String) (ended : List (Nat × String)) : Event → Prop
  | .deliver i peer => (i, peer) ∉ ended
  | .merge k => k ≠ key
  | .maintain before after => before.Maintains after
  | _ => True

namespace Cluster

/-- The runs on a key nobody held at the start, with the requests that have ended. `allowed`
is asked when a coordinator writes its item of the key. -/
inductive SeqRun (v : View) (allowed : Cluster → List (Nat × String) → DataItem → Prop)
    (key : String) : Cluster → List (Nat × String) → Prop
  | start (stores : String → DataStore) (hempty : ∀ n, (stores n).persister.items key = []) :
      SeqRun v allowed key ⟨stores, [], [], [], [], []⟩ []
  | step {s s' : Cluster} {ended : List (Nat × String)} {e : Event}
      (hrun : SeqRun v allowed key s ended) (hstep : Step v s e s') (hplain : e.Plain key ended)
      (hone : OneAtATime key s') (hallowed : ∀ item, e = .write key item → allowed s ended item) :
      SeqRun v allowed key s' ended
  | ends {s : Cluster} {ended : List (Nat × String)} (hrun : SeqRun v allowed key s ended)
      (request : Nat × String) : SeqRun v allowed key s (request :: ended)

/-! ## What can be seen -/

variable {v : View} {key : String} {s s' : Cluster} {ended : List (Nat × String)} {e : Event}

theorem mem_underWay {u : String × List DataItem} : u ∈ s.underWay key ↔
    (∃ p ∈ s.started, p.key = key ∧ (p.node, p.prevVersions) = u) ∨
      ∃ c ∈ s.puts, (c.key = key ∧ c.Pending) ∧ (c.node, c.prevVersions) = u := by
  simp only [underWay, List.mem_append, List.mem_map, List.mem_filter, decide_eq_true_eq, and_assoc]

theorem mem_inFlight {x : DataItem} : x ∈ s.inFlight key ended ↔ ∃ i c, s.puts[i]? = some c ∧
    c.key = key ∧ (∃ peer ∈ c.peers, (i, peer) ∉ ended) ∧ c.item = x := by
  simp only [inFlight, List.mem_map, List.mem_filter, decide_eq_true_eq, Prod.exists,
    List.mem_zipIdx_iff_getElem?, and_assoc]
  exact exists_comm

theorem mem_present {x : DataItem} : x ∈ present v key s ended ↔
    (∃ r ∈ v.preferenceList key, x ∈ (s.stores r).persister.getAll key) ∨
      x ∈ s.inFlight key ended ∨ ∃ u ∈ s.underWay key, x ∈ u.2 ∨
        (x ∈ (s.stores u.1).persister.items key ∧ ¬Covers vectorClock u.2 x.vectorClock) := by
  simp only [present, List.mem_append, List.mem_flatMap, List.mem_filter, decide_not,
    Bool.not_eq_true', decide_eq_false_iff_not]

theorem present_of_visible {r : String} (hr : r ∈ v.preferenceList key) {x : DataItem}
    (hx : x ∈ (s.stores r).persister.getAll key) : x ∈ present v key s ended :=
  mem_present.mpr (Or.inl ⟨r, hr, hx⟩)

/-- The key's visible versions and those stored are those of before and perhaps `new` ones,
and the visible ones cover all that were visible. -/
structure Evolves (key : String) (new : DataItem → Prop) (l l' : Layers) : Prop where
  visible : ∀ w ∈ l'.getAll key, w ∈ l.getAll key ∨ new w
  stored : ∀ w ∈ l'.items key, w ∈ l.items key ∨ new w
  covers : ∀ w ∈ l.getAll key, Covers vectorClock (l'.getAll key) w.vectorClock

section Evolves

variable {new : DataItem → Prop} {l l' : Layers}

theorem Evolves.refl (key : String) (new : DataItem → Prop) (l : Layers) : Evolves key new l l :=
  ⟨fun _ => Or.inl, fun _ => Or.inl, fun w hw => ⟨w, hw, le_rfl⟩⟩

theorem evolves_of_maintains (h : l.Maintains l') : Evolves key new l l' where
  visible := fun _ hw => Or.inl ((h key).1 ▸ hw)
  stored := fun w hw => Or.inl ((h key).2 w hw)
  covers := fun w hw => ⟨w, (h key).1 ▸ hw, le_rfl⟩

theorem evolves_put {k : String} {c : DataItem} (hnew : k = key → new c) :
    Evolves key new l (l.put k c) := by
  by_cases hk : k = key
  · subst hk
    have hnew' : ∀ w, w = c → new w := fun w hw => by rw [hw]; exact hnew rfl
    exact ⟨fun w hw => (Layers.mem_getAll_put hw).imp_right (hnew' w),
      fun w hw => (Layers.mem_items_put hw).imp_right (hnew' w),
      fun w hw => Layers.covers_getAll_put.mpr (Or.inl ⟨w, hw, le_rfl⟩)⟩
  · have hitems : (l.put k c).items key = l.items key := by
      simp [Layers.items, Layers.put, Layers.flushingItems,
        MemTable.current_put_of_ne _ c (Ne.symm hk)]
    have hread := Layers.getAll_put_of_ne l c (Ne.symm hk)
    exact ⟨fun _ hw => Or.inl (hread ▸ hw), fun _ hw => Or.inl (hitems ▸ hw),
      fun w hw => ⟨w, hread ▸ hw, le_rfl⟩⟩

theorem evolves_restore_of_ne {k : String} (items : List DataItem) (hk : k ≠ key) :
    Evolves key new l (l.restore k items) := by
  have hitems : (l.restore k items).items key = l.items key := by
    simp [Layers.items, Layers.restore, Layers.flushingItems, MemTable.current_replace, Ne.symm hk]
  have hread := Layers.getAll_restore_of_ne l items (Ne.symm hk)
  exact ⟨fun _ hw => Or.inl (hread ▸ hw), fun _ hw => Or.inl (hitems ▸ hw),
    fun w hw => ⟨w, hread ▸ hw, le_rfl⟩⟩

/-- A rollback shows what it restores, and of what is stored only what that does not
cover. -/
theorem mem_getAll_restore {P : List DataItem} {w : DataItem}
    (hw : w ∈ (l.restore key P).getAll key) :
    w ∈ P ∨ (w ∈ l.items key ∧ ¬Covers vectorClock P w.vectorClock) := by
  have hread : (l.restore key P).getAll key = keepMax vectorClock
      (P ++ (l.flushingItems key ++ tableItems l.sstables key)) := by
    rw [Layers.getAll_eq]
    simp [Layers.items, Layers.restore, Layers.flushingItems, MemTable.current_replace]
  rw [hread, mem_keepMax_iff_split] at hw
  obtain ⟨a, b, hsplit, hfront, -⟩ := hw
  rcases List.append_eq_append_iff.mp hsplit with ⟨a', rfl, hrest⟩ | ⟨b', rfl, hb⟩
  · have hmem : w ∈ l.items key := List.mem_append_right _ (by rw [hrest]; simp)
    exact Or.inr ⟨hmem, fun hcov => hfront (hcov.mono fun y hy => List.mem_append_left _ hy)⟩
  · cases b' with
    | nil =>
      have hmem : w ∈ l.items key := List.mem_append_right _ (by
        rw [← List.nil_append (l.flushingItems key ++ _), ← hb]
        exact List.mem_cons_self)
      exact Or.inr ⟨hmem, by simpa using hfront⟩
    | cons =>
      cases hb
      exact Or.inl (by simp)

theorem covers_restore {P : List DataItem} {w : DataItem} (hw : w ∈ P) :
    Covers vectorClock ((l.restore key P).getAll key) w.vectorClock := by
  rw [Layers.covers_getAll]
  refine ⟨w, List.mem_append_left _ ?_, le_rfl⟩
  simpa [Layers.restore, MemTable.current_replace] using hw

end Evolves

/-! ## What a step does to the key -/

/-- Nothing can be seen that could not be seen before, but for the item a coordinator writes.
A Put that starts has read what its node shows. Every node goes on covering what it showed,
or is rolled back to what its Put had read, and then nothing is under way any more. -/
structure Moves (v : View) (key : String) (ended : List (Nat × String)) (s : Cluster) (e : Event)
    (s' : Cluster) : Prop where
  present : ∀ x ∈ present v key s' ended, x ∈ present v key s ended ∨ e = .write key x
  underWay : ∀ u ∈ s'.underWay key, u ∈ s.underWay key ∨
    ∀ w, w ∈ u.2 ↔ w ∈ (s.stores u.1).persister.getAll key
  covers : ∀ r, (∀ w ∈ (s.stores r).persister.getAll key,
      Covers vectorClock ((s'.stores r).persister.getAll key) w.vectorClock) ∨
    (s'.underWay key = [] ∧ ∃ u ∈ s.underWay key, u.1 = r ∧
      ∀ w ∈ u.2, Covers vectorClock ((s'.stores r).persister.getAll key) w.vectorClock)
  write : ∀ item, e = .write key item → s.underWay key ≠ []

/-- The call goes on : only its results, its status and who has applied it change, and what
is decided stays so. -/
structure Goes (c c' : PutCall) : Prop where
  node : c'.node = c.node
  key : c'.key = c.key
  prevVersions : c'.prevVersions = c.prevVersions
  item : c'.item = c.item
  peers : c'.peers = c.peers
  pending : c'.Pending → c.Pending

theorem moves_of_evolves (new : DataItem → Prop)
    (hnew : ∀ x, new x → x ∈ present v key s ended ∨ e = .write key x)
    (hstores : ∀ r, Evolves key new (s.stores r).persister (s'.stores r).persister)
    (hunder : ∀ u ∈ s'.underWay key, u ∈ s.underWay key ∨ (u.1 ∈ v.preferenceList key ∧
      ∀ w, w ∈ u.2 ↔ w ∈ (s.stores u.1).persister.getAll key))
    (hsent : ∀ x ∈ s'.inFlight key ended, x ∈ s.inFlight key ended ∨ e = .write key x)
    (hwrite : ∀ item, e = .write key item → s.underWay key ≠ []) :
    Moves v key ended s e s' := by
  refine ⟨fun x hx => ?_, fun u hu => (hunder u hu).imp_right And.right,
    fun r => Or.inl (hstores r).covers, hwrite⟩
  rcases mem_present.mp hx with ⟨r, hr, hx⟩ | hx | ⟨u, hu, hx⟩
  · exact ((hstores r).visible x hx).elim (fun hx => Or.inl (present_of_visible hr hx)) (hnew x)
  · exact (hsent x hx).imp_left fun hx => mem_present.mpr (Or.inr (Or.inl hx))
  · rcases hunder u hu with hu | ⟨hr, hread⟩
    · rcases hx with hx | ⟨hx, hcov⟩
      · exact Or.inl (mem_present.mpr (Or.inr (Or.inr ⟨u, hu, Or.inl hx⟩)))
      · rcases (hstores u.1).stored x hx with hx | hx
        · exact Or.inl (mem_present.mpr (Or.inr (Or.inr ⟨u, hu, Or.inr ⟨hx, hcov⟩⟩)))
        · exact hnew x hx
    · rcases hx with hx | ⟨hx, hcov⟩
      · exact Or.inl (present_of_visible hr ((hread x).mp hx))
      · rcases (hstores u.1).stored x hx with hx | hx
        · -- what a Put has just read covers all that is stored
          have hcov' : Covers vectorClock ((s.stores u.1).persister.getAll key) x.vectorClock :=
            Layers.covers_getAll.mpr ⟨x, hx, le_rfl⟩
          exact absurd (hcov'.mono fun y hy => (hread y).mpr hy) hcov
        · exact hnew x hx

theorem evolves_setStore {new : DataItem → Prop} {node : String} {ds : DataStore}
    (h : Evolves key new (s.stores node).persister ds.persister) (r : String) :
    Evolves key new (s.stores r).persister ((s.setStore node ds).stores r).persister := by
  by_cases hr : r = node
  · subst hr
    simpa [setStore] using h
  · simpa [setStore, hr] using Evolves.refl key new _

/-- One call goes on; the stores evolve. -/
theorem moves_of_goes (new : DataItem → Prop) {i : Nat} {c c' : PutCall}
    (hnew : ∀ x, new x → x ∈ present v key s ended)
    (hstores : ∀ r, Evolves key new (s.stores r).persister (s'.stores r).persister)
    (hc : s.puts[i]? = some c) (hputs : s'.puts = s.puts.set i c') (hgoes : Goes c c')
    (hstarted : s'.started = s.started) (he : ∀ item, e ≠ .write key item) :
    Moves v key ended s e s' := by
  refine moves_of_evolves new (fun x hx => Or.inl (hnew x hx)) hstores (fun u hu => Or.inl ?_)
    (fun x hx => Or.inl ?_) fun item heq => absurd heq (he item)
  · rw [mem_underWay, hstarted, hputs] at hu
    rw [mem_underWay]
    refine hu.imp_right ?_
    rintro ⟨d, hd, ⟨hkey, hpending⟩, rfl⟩
    rcases List.mem_or_eq_of_mem_set hd with hd | rfl
    · exact ⟨d, hd, ⟨hkey, hpending⟩, rfl⟩
    · exact ⟨c, List.mem_of_getElem? hc, ⟨hgoes.key ▸ hkey, hgoes.pending hpending⟩,
        by rw [hgoes.node, hgoes.prevVersions]⟩
  · obtain ⟨j, d, hd, hkey, ⟨peer, hpeer, hended⟩, rfl⟩ := mem_inFlight.mp hx
    rw [hputs, List.getElem?_set] at hd
    rw [mem_inFlight]
    split at hd
    · next heq =>
      subst heq
      split at hd
      · cases hd
        exact ⟨i, c, hc, hgoes.key ▸ hkey, ⟨peer, hgoes.peers ▸ hpeer, hended⟩, hgoes.item.symm⟩
      · cases hd
    · exact ⟨j, d, hd, hkey, ⟨peer, hpeer, hended⟩, rfl⟩

theorem mem_iff_of_get {node k : String} {faults : Faults} {items : List DataItem}
    (hread : (s.stores node).get faults k = some items) (w : DataItem) :
    w ∈ items ↔ w ∈ (s.stores node).persister.getAll k := by
  rw [← DataStore.reverse_of_get hread, List.mem_reverse]

/-- A Put starts on a replica. -/
theorem moves_of_starts {node k value : String} {context : Option Snapshot} {client : Option Nat}
    {prevVersions : List DataItem} {faults : Faults} (hnode : node ∈ v.preferenceList k)
    (hread : (s.stores node).get faults k = some prevVersions)
    (hstores : s'.stores = s.stores) (hputs : s'.puts = s.puts)
    (hstarted : s'.started = s.started ++ [⟨node, k, value, context, client, prevVersions⟩])
    (he : ∀ item, e ≠ .write key item) : Moves v key ended s e s' := by
  refine moves_of_evolves (fun _ => False) (fun _ => False.elim)
    (fun r => hstores ▸ Evolves.refl ..) (fun u hu => ?_)
    (fun x hx => Or.inl (by simpa only [mem_inFlight, hputs] using hx))
    fun item heq => absurd heq (he item)
  rw [mem_underWay, hstarted, hputs] at hu
  rw [mem_underWay]
  rcases hu with ⟨p, hp, hkey, rfl⟩ | hu
  · rcases List.mem_append.mp hp with hp | hp
    · exact Or.inl (Or.inl ⟨p, hp, hkey, rfl⟩)
    · obtain rfl := List.mem_singleton.mp hp
      obtain rfl : k = key := hkey
      exact Or.inr ⟨hnode, mem_iff_of_get hread⟩
  · exact Or.inl (Or.inr hu)

theorem moves_of_same (hstores : s'.stores = s.stores) (hstarted : ∀ p ∈ s'.started, p ∈ s.started)
    (hputs : s'.puts = s.puts) (he : ∀ item, e ≠ .write key item) : Moves v key ended s e s' := by
  refine moves_of_evolves (fun _ => False) (fun _ => False.elim)
    (fun r => hstores ▸ Evolves.refl ..) (fun u hu => Or.inl ?_)
    (fun x hx => Or.inl (by simpa only [mem_inFlight, hputs] using hx))
    fun item heq => absurd heq (he item)
  rw [mem_underWay, hputs] at hu
  rw [mem_underWay]
  exact hu.imp_left fun ⟨p, hp, hu⟩ => ⟨p, hstarted p hp, hu⟩

/-- The only Put under way is decided. -/
theorem underWay_eq_nil {i : Nat} {c c' : PutCall} (hone : OneAtATime key s)
    (hc : s.puts[i]? = some c) (hkey : c.key = key) (hpending : c.Pending) (hdone : ¬c'.Pending)
    (hstarted : s'.started = s.started) (hputs : s'.puts = s.puts.set i c') :
    s'.underWay key = [] := by
  obtain ⟨hi, hget⟩ := List.getElem?_eq_some_iff.mp hc
  obtain ⟨a, b, hsplit, -, hset⟩ : ∃ a b, s.puts = a ++ s.puts[i] :: b ∧ a.length = i ∧
      s.puts.set i c' = a ++ c' :: b := List.exists_of_set hi
  have hlen := hone.1
  rw [hget] at hsplit
  simp only [underWay, hsplit, List.filter_append, List.filter_cons, hkey, hpending, and_self,
    decide_true, if_true, List.map_append, List.map_cons, List.length_append, List.length_cons,
    List.length_map] at hlen
  have hnone : s.started.filter (·.key = key) = [] ∧
      (a.filter fun c => c.key = key ∧ c.Pending) = [] ∧
      (b.filter fun c => c.key = key ∧ c.Pending) = [] := by
    refine ⟨?_, ?_, ?_⟩ <;> refine List.eq_nil_of_length_eq_zero ?_ <;> omega
  simp only [underWay, hstarted, hputs, hset, List.filter_append, List.filter_cons, hdone, and_false,
    decide_false, hnone.1, hnone.2.1, hnone.2.2]
  rfl

/-- A coordinator restores what it had read. -/
theorem moves_of_rollback {i : Nat} {c c' : PutCall} (hone : OneAtATime key s)
    (hc : s.puts[i]? = some c) (hputs : s'.puts = s.puts.set i c') (hgoes : Goes c c')
    (hstarted : s'.started = s.started) (hpending : c.Pending) (hdone : ¬c'.Pending)
    (hstores : s'.stores = Function.update s.stores c.node
      ((s.stores c.node).restoreVersions c.key c.prevVersions))
    (he : ∀ item, e ≠ .write key item) : Moves v key ended s e s' := by
  by_cases hkey : c.key = key
  · have hnil := underWay_eq_nil hone hc hkey hpending hdone hstarted hputs
    have hu : (c.node, c.prevVersions) ∈ s.underWay key :=
      mem_underWay.mpr (Or.inr ⟨c, List.mem_of_getElem? hc, ⟨hkey, hpending⟩, rfl⟩)
    have hsame : Moves v key ended s e { s with puts := s.puts.set i c' } :=
      moves_of_goes (fun _ => False) (fun _ => False.elim) (fun r => Evolves.refl ..) hc rfl
        hgoes rfl he
    have hread : ∀ r, (s'.stores r).persister.getAll key = if r = c.node then
        ((s.stores c.node).persister.restore key c.prevVersions.reverse).getAll key
        else (s.stores r).persister.getAll key := by
      intro r
      rw [hstores]
      by_cases hr : r = c.node
      · subst hr
        simp [DataStore.restoreVersions, hkey]
      · simp [hr]
    refine ⟨fun x hx => ?_, fun u hu' => absurd hu' (by simp [hnil]), fun r => ?_, ?_⟩
    · rcases mem_present.mp hx with ⟨r, hr, hx⟩ | hx | ⟨u, hu', hx⟩
      · rw [hread] at hx
        split at hx
        · rcases mem_getAll_restore hx with hx | ⟨hx, hcov⟩
          · exact Or.inl (mem_present.mpr (Or.inr (Or.inr ⟨_, hu, Or.inl (List.mem_reverse.mp hx)⟩)))
          · refine Or.inl (mem_present.mpr (Or.inr (Or.inr ⟨_, hu, Or.inr ⟨hx, fun hcov' => ?_⟩⟩)))
            exact hcov (hcov'.mono fun y hy => List.mem_reverse.mpr hy)
        · exact Or.inl (present_of_visible hr hx)
      · refine hsame.present x (mem_present.mpr (Or.inr (Or.inl ?_)))
        simpa only [mem_inFlight, hputs] using hx
      · simp [hnil] at hu'
    · by_cases hr : r = c.node
      · refine Or.inr ⟨hnil, _, hu, hr.symm, fun w hw => ?_⟩
        rw [hread, if_pos hr]
        exact covers_restore (List.mem_reverse.mpr hw)
      · refine Or.inl fun w hw => ⟨w, ?_, le_rfl⟩
        rwa [hread, if_neg hr]
    · exact fun item heq => absurd heq (he item)
  · refine moves_of_goes (fun _ => False) (fun _ => False.elim) (fun r => ?_) hc hputs hgoes
      hstarted he
    rw [hstores]
    exact evolves_setStore (s := s) (evolves_restore_of_ne _ hkey) r

/-- A coordinator writes its item. -/
theorem moves_of_write {i : Nat} {p : StartedPut} {faults : Faults} {item : DataItem}
    {ds : DataStore} {c : PutCall} (hp : s.started[i]? = some p)
    (hput : (s.stores p.node).put faults p.key p.value p.context = (some item, ds))
    (hcall : c = PutCall.start v p.node p.key p.client p.prevVersions item)
    (hstores : s'.stores = (s.setStore p.node ds).stores) (hstarted : s'.started = s.started.eraseIdx i)
    (hputs : s'.puts = s.puts ++ [c]) : Moves v key ended s (.write p.key item) s' := by
  obtain ⟨base, -, -, rfl⟩ := DataStore.put_eq_some hput
  have hmem := List.mem_of_getElem? hp
  have hu : p.key = key → (p.node, p.prevVersions) ∈ s.underWay key := fun hkey =>
    mem_underWay.mpr (Or.inl ⟨p, hmem, hkey, rfl⟩)
  refine moves_of_evolves (fun x => p.key = key ∧ x = item)
    (fun x hx => Or.inr (by rw [hx.1, hx.2])) (fun r => ?_) (fun u hu' => Or.inl ?_) (fun x hx => ?_)
    fun item' heq => ?_
  · rw [hstores]
    exact evolves_setStore (evolves_put fun hkey => ⟨hkey, rfl⟩) r
  · rw [mem_underWay, hstarted, hputs] at hu'
    rcases hu' with ⟨q, hq, hkey, rfl⟩ | ⟨d, hd, ⟨hkey, hpending⟩, rfl⟩
    · exact mem_underWay.mpr (Or.inl ⟨q, List.mem_of_mem_eraseIdx hq, hkey, rfl⟩)
    · rcases List.mem_append.mp hd with hd | hd
      · exact mem_underWay.mpr (Or.inr ⟨d, hd, ⟨hkey, hpending⟩, rfl⟩)
      · obtain rfl := List.mem_singleton.mp hd
        subst hcall
        exact hu hkey
  · obtain ⟨j, d, hd, hkey, hpeer, rfl⟩ := mem_inFlight.mp hx
    rw [hputs, List.getElem?_append] at hd
    split at hd
    · exact Or.inl (mem_inFlight.mpr ⟨j, d, hd, hkey, hpeer, rfl⟩)
    · obtain rfl := List.mem_singleton.mp (List.mem_of_getElem? hd)
      subst hcall
      exact Or.inr (by rw [← hkey]; rfl)
  · rw [(Event.write.inj heq).1] at hu
    exact List.ne_nil_of_mem (hu rfl)

theorem moves_step (hone : OneAtATime key s) (hstep : Step v s e s') (hplain : e.Plain key ended) :
    Moves v key ended s e s' := by
  have hnothing : ∀ x : DataItem, False → x ∈ present v key s ended := fun _ => False.elim
  cases hstep with
  | putRead node k value context faults prevVersions hreplica hread
  | forwardSend f c replica rest faults prevVersions hc hstatus hsent hnext hreplica hread =>
    exact moves_of_starts (mem_replicas_of_isReplicaFor hreplica) hread rfl rfl rfl nofun
  | putWrite i p faults item ds hp hput => exact moves_of_write hp hput rfl rfl rfl rfl
  | putFail =>
    exact moves_of_same rfl (fun q hq => List.mem_of_mem_eraseIdx hq) rfl nofun
  | deliver i c peer faults ok ds hc hpeer hmerge =>
    refine moves_of_goes (fun x => c.key = key ∧ x = c.item) (fun x hx => ?_)
      (fun r => evolves_setStore ?_ r) hc rfl ⟨rfl, rfl, rfl, rfl, rfl, id⟩ rfl nofun
    · exact mem_present.mpr (Or.inr (Or.inl (mem_inFlight.mpr
        ⟨i, c, hc, hx.1, ⟨peer, hpeer, hplain⟩, hx.2.symm⟩)))
    · unfold DataStore.mergeReplicated at hmerge
      split at hmerge <;> cases hmerge
      · exact Evolves.refl ..
      · exact evolves_put fun hkey => ⟨hkey, rfl⟩
  | putResult i c peer ok hc hstatus | putCancel i c hc hstatus =>
    exact moves_of_goes _ hnothing (fun r => Evolves.refl ..) hc rfl
      ⟨rfl, rfl, rfl, rfl, rfl, fun _ => Or.inl hstatus⟩ rfl nofun
  | rollback i c hc hstatus =>
    exact moves_of_rollback hone hc rfl ⟨rfl, rfl, rfl, rfl, rfl, fun _ => Or.inr hstatus⟩ rfl
      (Or.inr hstatus) (by simp [PutCall.Pending]) rfl nofun
  | rollbackFail i c hc hstatus =>
    exact moves_of_goes _ hnothing (fun r => Evolves.refl ..) hc rfl
      ⟨rfl, rfl, rfl, rfl, rfl, fun _ => Or.inr hstatus⟩ rfl nofun
  | merge node k item faults ok ds hmerge =>
    refine moves_of_evolves (fun _ => False) (fun _ => False.elim)
      (fun r => evolves_setStore ?_ r) (fun _ => Or.inl) (fun _ => Or.inl) nofun
    unfold DataStore.mergeReplicated at hmerge
    split at hmerge <;> cases hmerge
    · exact Evolves.refl ..
    · exact evolves_put fun hkey => absurd hkey hplain
  | maintain =>
    refine moves_of_evolves (fun _ => False) (fun _ => False.elim)
      (fun r => evolves_setStore ?_ r) (fun _ => Or.inl) (fun _ => Or.inl) nofun
    exact evolves_of_maintains hplain
  | _ => exact moves_of_same rfl (fun _ => id) rfl nofun

/-! ## The invariant -/

/-- The list has `x`, or a version after it. -/
def Shows (items : List DataItem) (x : DataItem) : Prop :=
  x ∈ items ∨ ∃ w ∈ items, x.vectorClock < w.vectorClock

/-- Equal versions among these are one and the same. -/
def Single (seen : DataItem → Prop) : Prop :=
  ∀ x, seen x → ∀ y, seen y → x.vectorClock ≤ y.vectorClock → y.vectorClock ≤ x.vectorClock → y = x

/-- What covers a list in which `x` shows, shows `x` too. -/
theorem Shows.of_covers {seen : DataItem → Prop} (hsingle : Single seen) {l l' : List DataItem}
    (hl : ∀ w ∈ l, seen w) (hl' : ∀ w ∈ l', seen w)
    (hcov : ∀ w ∈ l, Covers vectorClock l' w.vectorClock) {x : DataItem} (hx : Shows l x) :
    Shows l' x := by
  rcases hx with hx | ⟨w, hw, hlt⟩
  · obtain ⟨w, hw, hle⟩ := hcov x hx
    by_cases hge : w.vectorClock ≤ x.vectorClock
    · exact Or.inl (hsingle x (hl x hx) w (hl' w hw) hle hge ▸ hw)
    · exact Or.inr ⟨w, hw, lt_of_le_not_ge hle hge⟩
  · obtain ⟨w', hw', hle⟩ := hcov w hw
    exact Or.inr ⟨w', hw', hlt.trans_le hle⟩

theorem shows_congr {l l' : List DataItem} (h : ∀ w, w ∈ l ↔ w ∈ l') {x : DataItem} :
    Shows l x ↔ Shows l' x := by
  simp only [Shows, h]

/-- A write quorum shows `x`, and so does what a coordinator among it would restore. -/
def Kept (v : View) (key : String) (s : Cluster) (x : DataItem) : Prop :=
  ∃ Q, WriteQuorum v key Q ∧ ∀ q ∈ Q, Shows ((s.stores q).persister.getAll key) x ∧
    ∀ u ∈ s.underWay key, u.1 = q → Shows u.2 x

/-- While a Put of the key waits, every replica that has its item shows it; once it is
acknowledged the item is kept. -/
def PutAgrees (v : View) (key : String) (s : Cluster) (c : PutCall) : Prop :=
  c.key = key →
    (c.status = .deciding → ∀ q, q = c.node ∨ q ∈ c.applied →
      q ∈ v.preferenceList key ∧ Shows ((s.stores q).persister.getAll key) c.item) ∧
    (c.status = .acked → Kept v key s c.item)

/-- A Get that waits has `seen` nothing but what could be seen when it started, and for each
earlier Put a write quorum shows the item, in its stores and in its answers. -/
structure Sees (v : View) (key : String) (s : Cluster) (ended : List (Nat × String))
    (seen : DataItem → Prop) (g : GetCall) : Prop where
  single : Single seen
  present : ∀ x ∈ present v key s ended, seen x
  merged : ∀ w ∈ g.merged, seen w
  inflight : ∀ a ∈ g.inflight, ∀ w ∈ a.2, seen w
  earlier : ∀ x, (key, x) ∈ g.earlier → ∃ Q, WriteQuorum v key Q ∧ ∀ q ∈ Q,
    Shows ((s.stores q).persister.getAll key) x ∧ (q ∈ g.answered → Shows g.merged x) ∧
      ∀ items, (q, items) ∈ g.inflight → Shows items x

def GetAgrees (v : View) (key : String) (s : Cluster) (ended : List (Nat × String)) (g : GetCall) :
    Prop :=
  g.Counted v ∧ (g.key = key → (g.status = .deciding → ∃ seen, Sees v key s ended seen g) ∧
    (g.status = .returned → ∀ x, (key, x) ∈ g.earlier → Shows g.merged x))

structure Agrees (v : View) (key : String) (s : Cluster) (ended : List (Nat × String)) : Prop where
  tracked : Tracked v s
  single : Single (· ∈ present v key s ended)
  puts : ∀ c ∈ s.puts, PutAgrees v key s c
  returned : ∀ x, (key, x) ∈ s.returned → Kept v key s x
  gets : ∀ g ∈ s.gets, GetAgrees v key s ended g

section Agrees

variable (h : Agrees v key s ended) (hm : Moves v key ended s e s')
  (hnew : ∀ item, e = .write key item → NoTwin v key s ended item)

include h hm hnew

omit hm in
/-- Of what can be seen now or could be before, Equal ones are one and the same. -/
theorem single_step :
    Single fun x => x ∈ present v key s ended ∨ e = .write key x := by
  have hne : ∀ x y, x ∈ present v key s ended → e = .write key y →
      x.vectorClock ≤ y.vectorClock → ¬y.vectorClock ≤ x.vectorClock := fun x y hx hy hle hge =>
    hnew y hy x hx (VectorClock.compare_eq_equal.mpr ⟨hle, hge⟩)
  rintro x (hx | hx) y (hy | hy) hle hge
  · exact h.single x hx y hy hle hge
  · exact absurd hge (hne x y hx hy hle)
  · exact absurd hle (hne y x hy hx hge)
  · exact (Event.write.inj (hx.symm.trans hy)).2.symm

theorem single_next : Single (· ∈ present v key s' ended) := fun x hx y hy =>
  single_step h hnew x (hm.present x hx) y (hm.present y hy)

/-- What a list of versions that could be seen shows, a replica that covers it shows. -/
theorem shows_step {l : List DataItem} {r : String} {x : DataItem} (hr : r ∈ v.preferenceList key)
    (hl : ∀ w ∈ l, w ∈ present v key s ended)
    (hcov : ∀ w ∈ l, Covers vectorClock ((s'.stores r).persister.getAll key) w.vectorClock)
    (hx : Shows l x) : Shows ((s'.stores r).persister.getAll key) x :=
  hx.of_covers (single_step h hnew) (fun w hw => Or.inl (hl w hw))
    (fun w hw => hm.present w (present_of_visible hr hw)) hcov

/-- What a replica shows it goes on showing, unless the Put under way is rolled back. -/
theorem shows_stays {r : String} {x : DataItem} (hr : r ∈ v.preferenceList key)
    (hstay : s'.underWay key = [] → s.underWay key = [])
    (hx : Shows ((s.stores r).persister.getAll key) x) :
    Shows ((s'.stores r).persister.getAll key) x := by
  rcases hm.covers r with hcov | ⟨hnil, u, hu, -⟩
  · exact shows_step h hm hnew hr (fun w hw => present_of_visible hr hw) hcov hx
  · simp [hstay hnil] at hu

theorem Kept.step {x : DataItem} (hx : Kept v key s x) : Kept v key s' x := by
  obtain ⟨Q, hQ, hshows⟩ := hx
  refine ⟨Q, hQ, fun q hq => ?_⟩
  have hr := hQ.replicas q hq
  obtain ⟨hnow, hread⟩ := hshows q hq
  rcases hm.covers q with hcov | ⟨hnil, u, hu, hq', hcov⟩
  · refine ⟨shows_step h hm hnew hr (fun w hw => present_of_visible hr hw) hcov hnow,
      fun u hu hq' => ?_⟩
    rcases hm.underWay u hu with hu | hsame
    · exact hread u hu hq'
    · exact (shows_congr hsame).mpr (hq' ▸ hnow)
  · refine ⟨shows_step h hm hnew hr (fun w hw => ?_) hcov (hread u hu hq'), by simp [hnil]⟩
    exact mem_present.mpr (Or.inr (Or.inr ⟨u, hu, Or.inl hw⟩))

/-- A version that could be seen, or is just being written, shows wherever it is covered. -/
theorem shows_of_covers_step {r : String} {x : DataItem} (hr : r ∈ v.preferenceList key)
    (hx : x ∈ present v key s ended ∨ e = .write key x)
    (hcov : Covers vectorClock ((s'.stores r).persister.getAll key) x.vectorClock) :
    Shows ((s'.stores r).persister.getAll key) x := by
  have hself : Shows [x] x := Or.inl (List.mem_singleton_self x)
  refine hself.of_covers (single_step h hnew) (fun w hw => ?_)
    (fun w hw => hm.present w (present_of_visible hr hw)) fun w hw => ?_
  all_goals rw [List.mem_singleton.mp hw]
  · exact hx
  · exact hcov

/-- A call whose status has not changed. -/
theorem PutAgrees.step {c c' : PutCall} (hc : c ∈ s.puts) (hc' : c' ∈ s'.puts) (hgoes : Goes c c')
    (hstatus : c'.status = c.status) (happlied : ∀ q ∈ c'.applied, q ∈ c.applied ∨
      (c.key = key → q ∈ v.preferenceList key ∧ Shows ((s'.stores q).persister.getAll key) c.item)) :
    PutAgrees v key s' c' := by
  intro hkey
  have hkey' : c.key = key := hgoes.key ▸ hkey
  obtain ⟨hwaits, hacked⟩ := h.puts c hc hkey'
  rw [hgoes.node, hgoes.item, hstatus]
  refine ⟨fun hdeciding q hq => ?_, fun h' => (hacked h').step h hm hnew⟩
  have hstay : s'.underWay key = [] → s.underWay key = [] := fun hnil => by
    have hu : (c'.node, c'.prevVersions) ∈ s'.underWay key :=
      mem_underWay.mpr (Or.inr ⟨c', hc', ⟨hkey, Or.inl (hstatus.trans hdeciding)⟩, rfl⟩)
    simp [hnil] at hu
  have hold : (q = c.node ∨ q ∈ c.applied) →
      q ∈ v.preferenceList key ∧ Shows ((s'.stores q).persister.getAll key) c.item := fun hq =>
    let ⟨hr, hx⟩ := hwaits hdeciding q hq
    ⟨hr, shows_stays h hm hnew hr hstay hx⟩
  rcases hq with hq | hq
  · exact hold (Or.inl hq)
  · exact (happlied q hq).elim (fun hq => hold (Or.inr hq)) fun hq => hq hkey'

/-- A Get that has not changed. -/
theorem GetAgrees.step {g : GetCall} (hone : OneAtATime key s) (hg : g ∈ s.gets) :
    GetAgrees v key s' ended g := by
  obtain ⟨hcounted, hgood⟩ := h.gets g hg
  refine ⟨hcounted, fun hkey => ⟨fun hstatus => ?_, (hgood hkey).2⟩⟩
  obtain ⟨seen, hs⟩ := (hgood hkey).1 hstatus
  have hnil := hone.2 g hg hkey hstatus
  refine ⟨seen, hs.single, fun x hx => ?_, hs.merged, hs.inflight, fun x hx => ?_⟩
  · exact hs.present x ((hm.present x hx).resolve_right fun he => hm.write x he hnil)
  · obtain ⟨Q, hQ, hshows⟩ := hs.earlier x hx
    refine ⟨Q, hQ, fun q hq => ⟨?_, (hshows q hq).2⟩⟩
    exact shows_stays h hm hnew (hQ.replicas q hq) (fun _ => hnil) (hshows q hq).1

end Agrees

/-! ## Gets -/

section Gets

variable {seen : DataItem → Prop} {g : GetCall}

theorem sees_start (hsingle : Single (· ∈ present v key s ended))
    {earlier : List (String × DataItem)} (hkept : ∀ x, (key, x) ∈ earlier → Kept v key s x)
    (node : String) (faults : Faults) : Sees v key s ended (· ∈ present v key s ended)
      (GetCall.start v node key ((s.stores node).get faults key) earlier) := by
  have hshows : ∀ x, (key, x) ∈ earlier → ∃ Q, WriteQuorum v key Q ∧
      ∀ q ∈ Q, Shows ((s.stores q).persister.getAll key) x := fun x hx =>
    let ⟨Q, hQ, hQx⟩ := hkept x hx
    ⟨Q, hQ, fun q hq => (hQx q hq).1⟩
  by_cases hrep : node ∈ v.preferenceList key
  · cases hread : (s.stores node).get faults key with
    | none =>
      refine ⟨hsingle, fun _ => id, by simp [GetCall.start], by simp [GetCall.start], fun x hx => ?_⟩
      obtain ⟨Q, hQ, hQx⟩ := hshows x hx
      exact ⟨Q, hQ, fun q hq => ⟨hQx q hq, by simp [GetCall.start], by simp [GetCall.start]⟩⟩
    | some items =>
      have hitems := mem_iff_of_get hread
      have hmerged : (GetCall.start v node key (some items) earlier).merged = items := by
        simp [GetCall.start, isReplicaFor, hrep]
      refine ⟨hsingle, fun _ => id, fun w hw => ?_, by simp [GetCall.start], fun x hx => ?_⟩
      · rw [hmerged] at hw
        exact present_of_visible hrep ((hitems w).mp hw)
      · obtain ⟨Q, hQ, hQx⟩ := hshows x hx
        refine ⟨Q, hQ, fun q hq => ⟨hQx q hq, fun hans => ?_, by simp [GetCall.start]⟩⟩
        obtain rfl : q = node := by simpa [GetCall.start, isReplicaFor, hrep] using hans
        rw [hmerged]
        exact (shows_congr hitems).mpr (hQx q hq)
  · refine ⟨hsingle, fun _ => id, by simp [GetCall.start, isReplicaFor, hrep],
      by simp [GetCall.start], fun x hx => ?_⟩
    obtain ⟨Q, hQ, hQx⟩ := hshows x hx
    exact ⟨Q, hQ, fun q hq => ⟨hQx q hq, by simp [GetCall.start, isReplicaFor, hrep],
      by simp [GetCall.start]⟩⟩

theorem Sees.fetch (hs : Sees v key s ended seen g) {peer : String} {faults : Faults}
    {items : List DataItem} (hpeer : peer ∈ v.preferenceList key)
    (hread : (s.stores peer).get faults key = some items) :
    Sees v key s ended seen { g with inflight := (peer, items) :: g.inflight } := by
  have hitems := mem_iff_of_get hread
  refine ⟨hs.single, hs.present, hs.merged,
    List.forall_mem_cons.mpr ⟨fun w hw => ?_, hs.inflight⟩, fun x hx => ?_⟩
  · exact hs.present w (present_of_visible hpeer ((hitems w).mp hw))
  · obtain ⟨Q, hQ, hshows⟩ := hs.earlier x hx
    refine ⟨Q, hQ, fun q hq => ⟨(hshows q hq).1, (hshows q hq).2.1, fun items' hmem => ?_⟩⟩
    rcases List.mem_cons.mp hmem with heq | hmem
    · obtain ⟨rfl, rfl⟩ := Prod.mk.inj heq
      exact (shows_congr hitems).mpr (hshows q hq).1
    · exact (hshows q hq).2.2 items' hmem

/-- An answer is merged. -/
theorem Sees.take (hs : Sees v key s ended seen g) {peer : String}
    (result : Option (List DataItem))
    (hresult : ∀ items, result = some items → (peer, items) ∈ g.inflight) :
    Sees v key s ended seen (g.take v peer result) := by
  cases result with
  | none => exact { hs with }
  | some items =>
    have hin := hresult items rfl
    have hseen : ∀ w ∈ mergeSiblings g.merged items, seen w := fun w hw =>
      (mem_of_mem_mergeSiblings hw).elim (hs.merged w) (hs.inflight _ hin w)
    refine ⟨hs.single, hs.present, hseen, hs.inflight, fun x hx => ?_⟩
    obtain ⟨Q, hQ, hshows⟩ := hs.earlier x hx
    refine ⟨Q, hQ, fun q hq => ⟨(hshows q hq).1, fun hans => ?_, (hshows q hq).2.2⟩⟩
    rcases List.mem_cons.mp hans with rfl | hans
    · exact ((hshows q hq).2.2 items hin).of_covers hs.single (hs.inflight _ hin) hseen
        fun w hw => covers_mergeSiblings (Or.inr ⟨w, hw, le_rfl⟩)
    · exact ((hshows q hq).2.1 hans).of_covers hs.single hs.merged hseen
        fun w hw => covers_mergeSiblings (Or.inl ⟨w, hw, le_rfl⟩)

/-- A read quorum meets every write quorum. -/
theorem Sees.shows (hN : 1 ≤ v.quorum.N) (hquorum : v.quorum.N < v.quorum.W + v.quorum.R)
    (hs : Sees v key s ended seen g) (hcounted : g.Counted v) (hkey : g.key = key)
    (hreturned : g.status = .returned) {x : DataItem} (hx : (key, x) ∈ g.earlier) :
    Shows g.merged x := by
  obtain ⟨Q, hQ, hshows⟩ := hs.earlier x hx
  have hsize := hcounted.returned hreturned
  rw [hcounted.successes_eq] at hsize
  have hlen := HashRing.length_getPreferenceList_le v.ring key hN
  obtain ⟨q, hq, hans⟩ := exists_common hQ.nodup hcounted.answered_nodup hQ.replicas
    (fun p hp => hkey ▸ hcounted.answered_replicas p hp) (by
      have := hQ.size
      unfold View.preferenceList
      omega)
  exact (hshows q hq).2.1 hans

theorem Sees.agrees (hN : 1 ≤ v.quorum.N) (hquorum : v.quorum.N < v.quorum.W + v.quorum.R)
    (hcounted : g.Counted v) (hs : g.key = key → ∃ seen, Sees v key s ended seen g) :
    GetAgrees v key s ended g :=
  ⟨hcounted, fun hkey => ⟨fun _ => hs hkey, fun hreturned _ hx =>
    let ⟨_, hs⟩ := hs hkey
    hs.shows hN hquorum hcounted hkey hreturned hx⟩⟩

end Gets

/-! ## Runs -/

/-- Calls that are as they were agree; the others have to. -/
theorem Agrees.next (h : Agrees v key s ended) (hm : Moves v key ended s e s')
    (hnew : ∀ item, e = .write key item → NoTwin v key s ended item) (hone : OneAtATime key s)
    (htracked : Tracked v s') (hputs : ∀ c ∈ s'.puts, c ∈ s.puts ∨ PutAgrees v key s' c)
    (hreturned : ∀ x, (key, x) ∈ s'.returned → (key, x) ∈ s.returned ∨ Kept v key s' x)
    (hgets : ∀ g ∈ s'.gets, g ∈ s.gets ∨ GetAgrees v key s' ended g) : Agrees v key s' ended where
  tracked := htracked
  single := single_next h hm hnew
  puts := fun c hc => (hputs c hc).elim (fun hold => PutAgrees.step h hm hnew hold hc
    ⟨rfl, rfl, rfl, rfl, rfl, id⟩ rfl fun _ => Or.inl) id
  returned := fun x hx => (hreturned x hx).elim (fun hold => (h.returned x hold).step h hm hnew) id
  gets := fun g hg => (hgets g hg).elim (GetAgrees.step h hm hnew hone) id

theorem mem_set_or {α : Type*} {P : α → Prop} {l : List α} {i : Nat} {y : α} (hy : P y) :
    ∀ x ∈ l.set i y, x ∈ l ∨ P x :=
  forall_mem_set (fun _ => Or.inl) (Or.inr hy)

theorem mem_concat_or {α : Type*} {P : α → Prop} {l : List α} {y : α} (hy : P y) :
    ∀ x ∈ l ++ [y], x ∈ l ∨ P x :=
  forall_mem_concat (fun _ => Or.inl) (Or.inr hy)

/-- A Put that is acknowledged when nothing is under way keeps its item on the replicas it
counted. -/
theorem kept_of_acked {c : PutCall} (hnode : c.node ∈ v.preferenceList c.key)
    (hcounted : c.Counted v) (hacked : c.status = .acked) (hkey : c.key = key)
    (hnil : s.underWay key = [])
    (hshows : ∀ q, q = c.node ∨ q ∈ c.applied →
      Shows ((s.stores q).persister.getAll key) c.item) : Kept v key s c.item := by
  subst hkey
  obtain ⟨hnodup, hreplicas, hsize⟩ := hcounted.quorum hnode hacked
  refine ⟨c.node :: c.acks, ⟨hnodup, hreplicas, hsize⟩, fun q hq => ⟨hshows q ?_, by simp [hnil]⟩⟩
  exact (List.mem_cons.mp hq).imp_right (hcounted.acks_applied q)

/-- Its write is all a coordinator needed. -/
theorem underWay_eq_nil_of_write {i : Nat} {p : StartedPut} {c : PutCall}
    (hone : OneAtATime key s) (hp : s.started[i]? = some p) (hkey : p.key = key)
    (hdone : ¬c.Pending) (hstarted : s'.started = s.started.eraseIdx i)
    (hputs : s'.puts = s.puts ++ [c]) : s'.underWay key = [] := by
  obtain ⟨hi, hget⟩ := List.getElem?_eq_some_iff.mp hp
  obtain ⟨a, b, hsplit, herase⟩ : ∃ a b, s.started = a ++ p :: b ∧ s.started.eraseIdx i = a ++ b :=
    ⟨_, _, by rw [← hget, List.getElem_cons_drop, List.take_append_drop],
      List.eraseIdx_eq_take_drop_succ ..⟩
  have hlen := hone.1
  simp only [underWay, hsplit, List.filter_append, List.filter_cons, hkey, decide_true, if_true,
    List.map_append, List.map_cons, List.length_append, List.length_cons, List.length_map] at hlen
  have hnone : a.filter (·.key = key) = [] ∧ b.filter (·.key = key) = [] ∧
      (s.puts.filter fun c => c.key = key ∧ c.Pending) = [] := by
    refine ⟨?_, ?_, ?_⟩ <;> refine List.eq_nil_of_length_eq_zero ?_ <;> omega
  simp only [underWay, hstarted, hputs, herase, List.filter_append, List.filter_cons, hdone,
    and_false, decide_false, hnone.1, hnone.2.1, hnone.2.2]
  rfl

section Step

variable (h : Agrees v key s ended) (hone : OneAtATime key s)

include h hone

theorem putAgrees_write {i : Nat} {p : StartedPut} {faults : Faults} {item : DataItem}
    {ds : DataStore} {c : PutCall} (hp : s.started[i]? = some p)
    (hput : (s.stores p.node).put faults p.key p.value p.context = (some item, ds))
    (hm : Moves v key ended s (.write p.key item) s')
    (hnew : ∀ item', .write p.key item = Event.write key item' → NoTwin v key s ended item')
    (hcall : c = PutCall.start v p.node p.key p.client p.prevVersions item)
    (hstores : s'.stores = (s.setStore p.node ds).stores)
    (hstarted : s'.started = s.started.eraseIdx i) (hputs : s'.puts = s.puts ++ [c]) :
    PutAgrees v key s' c := by
  have hnode := h.tracked.started p (List.mem_of_getElem? hp)
  subst hcall
  intro hkey
  obtain rfl : p.key = key := hkey
  have hcov : Covers vectorClock ((s'.stores p.node).persister.getAll p.key) item.vectorClock := by
    rw [hstores]
    simpa [setStore] using (DataStore.covers_put hput).mpr (Or.inr ⟨rfl, le_rfl⟩)
  have hshows : ∀ q, q = p.node ∨ q ∈ ([] : List String) →
      Shows ((s'.stores q).persister.getAll p.key) item := by
    intro q hq
    obtain rfl : q = p.node := by simpa using hq
    exact shows_of_covers_step h hm hnew hnode (Or.inr rfl) hcov
  refine ⟨fun _ q hq => ⟨?_, hshows q hq⟩, fun hacked => ?_⟩
  · obtain rfl : q = p.node := by simpa [PutCall.start] using hq
    exact hnode
  · refine kept_of_acked hnode (PutCall.counted_start ..) hacked rfl ?_ hshows
    exact underWay_eq_nil_of_write hone hp rfl (by simp [PutCall.Pending, hacked]) hstarted hputs

theorem putAgrees_result {i : Nat} {c : PutCall} {peer : String} {ok : Bool}
    (hc : s.puts[i]? = some c) (hstatus : c.status = .deciding) (hpeer : peer ∈ c.peers)
    (hfresh : peer ∉ c.results.map Prod.fst) (hok : ok = true → peer ∈ c.applied)
    (hstores : s'.stores = s.stores) (hstarted : s'.started = s.started)
    (hputs : s'.puts = s.puts.set i (c.take v peer ok)) : PutAgrees v key s' (c.take v peer ok) := by
  have hmem := List.mem_of_getElem? hc
  obtain ⟨hnode, hcounted⟩ := h.tracked.puts c hmem
  intro hkey
  have hwaits := (h.puts c hmem hkey).1 hstatus
  rw [← hstores] at hwaits
  refine ⟨fun _ => hwaits, fun hacked => ?_⟩
  refine kept_of_acked hnode (hcounted.take hpeer hfresh hok) hacked hkey ?_
    fun q hq => (hwaits q hq).2
  exact underWay_eq_nil hone hc hkey (Or.inl hstatus) (by simp [PutCall.Pending, hacked]) hstarted
    hputs

theorem putAgrees_deliver {i : Nat} {c : PutCall} {peer : String} {faults : Faults} {ok : Bool}
    {ds : DataStore} (hc : s.puts[i]? = some c) (hpeer : peer ∈ c.peers)
    (hmerge : (s.stores peer).mergeReplicated faults c.key c.item = (ok, ds))
    (hended : (i, peer) ∉ ended) (hm : Moves v key ended s (.deliver i peer) s')
    (hstores : s'.stores = (s.setStore peer ds).stores)
    (hputs : s'.puts = s.puts.set i
      { c with applied := if ok then peer :: c.applied else c.applied }) :
    PutAgrees v key s' { c with applied := if ok then peer :: c.applied else c.applied } := by
  have hi := (List.getElem?_eq_some_iff.mp hc).1
  refine PutAgrees.step h hm nofun (List.mem_of_getElem? hc)
    (hputs ▸ List.mem_set hi _) ⟨rfl, rfl, rfl, rfl, rfl, id⟩ rfl fun q hq => ?_
  cases ok with
  | false => exact Or.inl hq
  | true =>
    rcases List.mem_cons.mp hq with rfl | hq
    · refine Or.inr fun hkey => ?_
      subst hkey
      have hr : q ∈ v.preferenceList c.key := by
        rw [(h.tracked.puts c (List.mem_of_getElem? hc)).2.peers_eq] at hpeer
        exact (List.mem_filter.mp hpeer).1
      refine ⟨hr, shows_of_covers_step h hm nofun hr (Or.inl ?_) ?_⟩
      · exact mem_present.mpr (Or.inr (Or.inl (mem_inFlight.mpr
          ⟨i, c, hc, rfl, ⟨q, hpeer, hended⟩, rfl⟩)))
      · rw [hstores]
        simpa [setStore] using (DataStore.covers_mergeReplicated hmerge).mpr
          (Or.inr ⟨rfl, rfl, le_rfl⟩)
    · exact Or.inl hq

end Step

/-- Every step of a run keeps the invariant. -/
theorem agrees_step (hN : 1 ≤ v.quorum.N) (hquorum : v.quorum.N < v.quorum.W + v.quorum.R)
    (h : Agrees v key s ended) (hone : OneAtATime key s) (hstep : Step v s e s')
    (hplain : e.Plain key ended)
    (hnew : ∀ item, e = .write key item → NoTwin v key s ended item) : Agrees v key s' ended := by
  have hm := moves_step hone hstep hplain
  have htracked := tracked_step h.tracked hstep
  have hget : (∀ g ∈ s'.gets, g ∈ s.gets ∨ GetAgrees v key s' ended g) → s'.puts = s.puts →
      s'.returned = s.returned → Agrees v key s' ended := fun hgets hputs hreturned =>
    h.next hm hnew hone htracked (fun c hc => Or.inl (hputs ▸ hc))
      (fun x hx => Or.inl (hreturned ▸ hx)) hgets
  cases hstep with
  | putWrite i p faults item ds hp hput =>
    have hcall := putAgrees_write h hone hp hput hm hnew rfl rfl rfl rfl
    refine h.next hm hnew hone htracked (mem_concat_or hcall) (fun x hx => ?_) fun _ => Or.inl
    exact (mem_noteReturned hx).imp_right fun ⟨hacked, hkey, hitem⟩ => hitem ▸ (hcall hkey).2 hacked
  | deliver i c peer faults ok ds hc hpeer hmerge =>
    have hcall := putAgrees_deliver h hone hc hpeer hmerge hplain hm rfl rfl
    exact h.next hm hnew hone htracked (mem_set_or hcall) (fun _ => Or.inl)
      fun _ => Or.inl
  | putResult i c peer ok hc hstatus hpeer hfresh hok =>
    have hcall : PutAgrees v key { s with
        puts := s.puts.set i (c.take v peer ok)
        returned := noteReturned (c.take v peer ok) s.returned } (c.take v peer ok) :=
      putAgrees_result h hone hc hstatus hpeer hfresh hok rfl rfl rfl
    refine h.next hm hnew hone htracked (mem_set_or hcall) (fun x hx => ?_) fun _ => Or.inl
    exact (mem_noteReturned hx).imp_right fun ⟨hacked, hkey, hitem⟩ => hitem ▸ (hcall hkey).2 hacked
  | putCancel | rollback | rollbackFail =>
    exact h.next hm hnew hone htracked (mem_set_or fun _ => ⟨nofun, nofun⟩) (fun _ => Or.inl)
      fun _ => Or.inl
  | forwardAnswer f i c p hc hstatus hp hclient hnode hacked =>
    refine h.next hm hnew hone htracked (fun _ => Or.inl) (fun x hx => ?_)
      fun _ => Or.inl
    rcases List.mem_cons.mp hx with heq | hx
    · obtain ⟨hkey, rfl⟩ := Prod.mk.inj heq
      exact Or.inr ((((h.puts p (List.mem_of_getElem? hp)) hkey.symm).2 hacked).step h hm hnew)
    · exact Or.inl hx
  | getStart node k faults =>
    refine hget (mem_concat_or (Sees.agrees hN hquorum (GetCall.counted_start ..)
      fun hkey => ?_)) rfl rfl
    obtain rfl : k = key := hkey
    exact ⟨_, sees_start (single_next h hm hnew) (fun x hx => (h.returned x hx).step h hm hnew) node
      faults⟩
  | fetch j g peer faults items hg hpeer hread =>
    have hg' := GetAgrees.step h hm hnew hone (List.mem_of_getElem? hg)
    refine hget (mem_set_or ⟨{ hg'.1 with }, fun hkey => ⟨fun hstatus => ?_, (hg'.2 hkey).2⟩⟩)
      rfl rfl
    obtain ⟨seen, hs⟩ := (hg'.2 hkey).1 hstatus
    obtain rfl : g.key = key := hkey
    rw [hg'.1.peers_eq] at hpeer
    exact ⟨seen, hs.fetch (List.mem_filter.mp hpeer).1 hread⟩
  | getResult j g peer items hg hstatus hpeer hfresh hitems =>
    have hg' := GetAgrees.step h hm hnew hone (List.mem_of_getElem? hg)
    refine hget (mem_set_or (Sees.agrees hN hquorum (hg'.1.take hpeer hfresh _)
      fun hkey => ?_)) rfl rfl
    obtain ⟨seen, hs⟩ := (hg'.2 hkey).1 hstatus
    exact ⟨seen, hs.take _ fun items' heq => Option.some.inj heq ▸ hitems⟩
  | getError j g peer hg hstatus hpeer hfresh =>
    have hg' := GetAgrees.step h hm hnew hone (List.mem_of_getElem? hg)
    refine hget (mem_set_or (Sees.agrees hN hquorum (hg'.1.take hpeer hfresh _)
      fun hkey => ?_)) rfl rfl
    obtain ⟨seen, hs⟩ := (hg'.2 hkey).1 hstatus
    exact ⟨seen, hs.take _ nofun⟩
  | getCancel j g hg =>
    have hg' := h.gets g (List.mem_of_getElem? hg)
    exact hget (mem_set_or ⟨{ hg'.1 with returned := nofun }, fun _ => ⟨nofun, nofun⟩⟩) rfl rfl
  | _ => exact hget (fun _ => Or.inl) rfl rfl

theorem SeqRun.oneAtATime {allowed : Cluster → List (Nat × String) → DataItem → Prop}
    (h : SeqRun v allowed key s ended) : OneAtATime key s := by
  induction h with
  | start => exact ⟨by simp [underWay], nofun⟩
  | step hrun hstep hplain hone => exact hone
  | ends hrun request ih => exact ih

/-- A request that ends takes from what can be seen. -/
theorem present_ends {request : Nat × String} {x : DataItem}
    (hx : x ∈ present v key s (request :: ended)) : x ∈ present v key s ended := by
  rw [mem_present, mem_inFlight] at hx
  rw [mem_present, mem_inFlight]
  refine hx.imp_right fun hx => hx.imp_left ?_
  rintro ⟨i, c, hc, hkey, ⟨peer, hpeer, hended⟩, rfl⟩
  exact ⟨i, c, hc, hkey, ⟨peer, hpeer, fun hmem => hended (List.mem_cons_of_mem _ hmem)⟩, rfl⟩

theorem agrees_of_run (hN : 1 ≤ v.quorum.N) (hquorum : v.quorum.N < v.quorum.W + v.quorum.R)
    (h : SeqRun v (NoTwin v key) key s ended) : Agrees v key s ended := by
  induction h with
  | start stores hempty =>
    have hread : ∀ n, (stores n).persister.getAll key = [] := fun n => by
      rw [Layers.getAll_eq, hempty]
      rfl
    refine ⟨⟨nofun, nofun⟩, fun x hx => ?_, nofun, nofun, nofun⟩
    simp [present, inFlight, underWay, hread] at hx
  | step hrun hstep hplain hone hallowed ih =>
    exact agrees_step hN hquorum ih hrun.oneAtATime hstep hplain hallowed
  | ends hrun request ih =>
    refine { ih with
      single := fun x hx y hy => ih.single x (present_ends hx) y (present_ends hy)
      gets := fun g hg => ⟨(ih.gets g hg).1, fun hkey =>
        ⟨fun hstatus => ?_, ((ih.gets g hg).2 hkey).2⟩⟩ }
    obtain ⟨seen, hs⟩ := ((ih.gets g hg).2 hkey).1 hstatus
    exact ⟨seen, { hs with present := fun x hx => hs.present x (present_ends hx) }⟩

/-- After any Puts and Gets of the key, one at a time, with requests that fail, lose their
answers or arrive late : if no version that can still be seen ever had the counters of an
item being written, a Get that returns without error returns every item acknowledged before
it, or a version whose clock is After it. -/
theorem get_returns_acked (hN : 1 ≤ v.quorum.N) (hquorum : v.quorum.N < v.quorum.W + v.quorum.R)
    (hrun : SeqRun v (NoTwin v key) key s ended) {g : GetCall} (hg : g ∈ s.gets) (hkey : g.key = key)
    (hreturned : g.status = .returned) {x : DataItem} (hx : (key, x) ∈ g.earlier) :
    x ∈ g.merged ∨ ∃ w ∈ g.merged, w.vectorClock.compare x.vectorClock = .after := by
  have hshows := (((agrees_of_run hN hquorum hrun).gets g hg).2 hkey).2 hreturned x hx
  simpa only [Shows, VectorClock.compare_eq_after] using hshows

/-! ## A failed Put and a retry -/

/-- A Put of `v1` through A fails, its requests lost for good, and A rolls back. Its retry
builds the same clock and B acknowledges it, while the request to C is still under way and
arrives after a third Put that B acknowledges too. A Get through C that B answers returns
the third item, which is After the second. -/
theorem get_returns_acked_late : ∃ (s : Cluster) (ended : List (Nat × String)) (g : GetCall),
    SeqRun trioView (NoTwin trioView "k") "k" s ended ∧ g ∈ s.gets ∧ g.status = .returned ∧
    g.earlier.map (fun p => p.2.value) = ["v3", "v2"] ∧
    ∀ x, ("k", x) ∈ g.earlier →
      x ∈ g.merged ∨ ∃ w ∈ g.merged, w.vectorClock.compare x.vectorClock = .after := by
  have h0 : SeqRun trioView (NoTwin trioView "k") "k" _ _ := .start emptyStore fun _ => rfl
  have h1 := h0.step (.putRead "A" "k" "v1" none noFaults _ (by decide +kernel) rfl)
    trivial (by decide +kernel) nofun
  have h2 := h1.step (.putWrite 0 _ noFaults _ _ rfl rfl)
    trivial (by decide +kernel) (by
    rintro _ ⟨⟩
    decide +kernel)
  have h3 := h2.step (.putResult 0 _ "B" false rfl (by decide +kernel) (by decide +kernel)
    (by decide +kernel) (by decide +kernel)) trivial (by decide +kernel) nofun
  have h4 := h3.step (.putResult 0 _ "C" false rfl (by decide +kernel) (by decide +kernel)
    (by decide +kernel) (by decide +kernel)) trivial (by decide +kernel) nofun
  have h5 := h4.step (.rollback 0 _ rfl (by decide +kernel))
    trivial (by decide +kernel) nofun
  have h6 := (h5.ends (0, "B")).ends (0, "C")
  have h7 := h6.step (.putRead "A" "k" "v2" none noFaults _ (by decide +kernel) rfl)
    trivial (by decide +kernel) nofun
  have h8 := h7.step (.putWrite 0 _ noFaults _ _ rfl rfl)
    trivial (by decide +kernel) (by
    rintro _ ⟨⟩
    decide +kernel)
  have h9 := h8.step (.deliver 1 _ "B" noFaults true _ rfl (by decide +kernel) rfl)
    (by simp [Event.Plain]) (by decide +kernel) nofun
  have h10 := h9.step (.putResult 1 _ "B" true rfl (by decide +kernel) (by decide +kernel)
    (by decide +kernel) (by decide +kernel)) trivial (by decide +kernel) nofun
  have h11 := h10.step (.putRead "A" "k" "v3" none noFaults _ (by decide +kernel) rfl)
    trivial (by decide +kernel) nofun
  have h12 := h11.step (.putWrite 0 _ noFaults _ _ rfl rfl)
    trivial (by decide +kernel) (by
    rintro _ ⟨⟩
    decide +kernel)
  have h13 := h12.step (.deliver 2 _ "B" noFaults true _ rfl (by decide +kernel) rfl)
    (by simp [Event.Plain]) (by decide +kernel) nofun
  have h14 := h13.step (.putResult 2 _ "B" true rfl (by decide +kernel) (by decide +kernel)
    (by decide +kernel) (by decide +kernel)) trivial (by decide +kernel) nofun
  have h15 := h14.step (.deliver 1 _ "C" noFaults true _ rfl (by decide +kernel) rfl)
    (by simp [Event.Plain]) (by decide +kernel) nofun
  have h16 := h15.step (.getStart "C" "k" noFaults)
    trivial (by decide +kernel) nofun
  have h17 := h16.step (.fetch 0 _ "B" noFaults _ rfl (by decide +kernel) rfl)
    trivial (by decide +kernel) nofun
  have h18 := h17.step (.getResult 0 _ "B" _ rfl (by decide +kernel) (by decide +kernel)
    (by decide +kernel) List.mem_cons_self) trivial (by decide +kernel) nofun
  refine ⟨_, _, _, h18, List.mem_singleton_self _, by decide +kernel, by decide +kernel, fun x hx => ?_⟩
  exact get_returns_acked (by decide) (by decide) h18 (List.mem_singleton_self _) rfl
    (by decide +kernel) hx

/-- The first Put fails, but B keeps its item; the second is built with the same clock, which
B acknowledges and drops. A Get through C that B answers returns the item of the failed Put,
and neither the acknowledged one nor one After it. -/
theorem put_loses_to_rolled_back : ∃ (s : Cluster) (ended : List (Nat × String)) (g : GetCall)
    (x : DataItem), SeqRun trioView (fun _ _ _ => True) "k" s ended ∧ g ∈ s.gets ∧ g.key = "k" ∧
    g.status = .returned ∧ g.earlier = [("k", x)] ∧ x.value = "v2" ∧
    g.merged.map DataItem.value = ["v1"] ∧ x ∉ g.merged ∧
    ∀ w ∈ g.merged, w.vectorClock.compare x.vectorClock ≠ .after := by
  have h0 : SeqRun trioView (fun _ _ _ => True) "k" _ _ := .start emptyStore fun _ => rfl
  have h1 := h0.step (.putRead "A" "k" "v1" none noFaults _ (by decide +kernel) rfl)
    trivial (by decide +kernel) (fun _ _ => trivial)
  have h2 := h1.step (.putWrite 0 _ noFaults _ _ rfl rfl)
    trivial (by decide +kernel) (fun _ _ => trivial)
  have h3 := h2.step (.deliver 0 _ "B" noFaults true _ rfl (by decide +kernel) rfl)
    (by simp [Event.Plain]) (by decide +kernel) (fun _ _ => trivial)
  have h4 := h3.step (.putResult 0 _ "B" false rfl (by decide +kernel) (by decide +kernel)
    (by decide +kernel) (by decide +kernel)) trivial (by decide +kernel) (fun _ _ => trivial)
  have h5 := h4.step (.putResult 0 _ "C" false rfl (by decide +kernel) (by decide +kernel)
    (by decide +kernel) (by decide +kernel)) trivial (by decide +kernel) (fun _ _ => trivial)
  have h6 := h5.step (.rollback 0 _ rfl (by decide +kernel))
    trivial (by decide +kernel) (fun _ _ => trivial)
  have h7 := h6.step (.putRead "A" "k" "v2" none noFaults _ (by decide +kernel) rfl)
    trivial (by decide +kernel) (fun _ _ => trivial)
  have h8 := h7.step (.putWrite 0 _ noFaults _ _ rfl rfl)
    trivial (by decide +kernel) (fun _ _ => trivial)
  have h9 := h8.step (.deliver 1 _ "B" noFaults true _ rfl (by decide +kernel) rfl)
    (by simp [Event.Plain]) (by decide +kernel) (fun _ _ => trivial)
  have h10 := h9.step (.putResult 1 _ "B" true rfl (by decide +kernel) (by decide +kernel)
    (by decide +kernel) (by decide +kernel)) trivial (by decide +kernel) (fun _ _ => trivial)
  have h11 := h10.step (.getStart "C" "k" noFaults)
    trivial (by decide +kernel) (fun _ _ => trivial)
  have h12 := h11.step (.fetch 0 _ "B" noFaults _ rfl (by decide +kernel) rfl)
    trivial (by decide +kernel) (fun _ _ => trivial)
  have h13 := h12.step (.getResult 0 _ "B" _ rfl (by decide +kernel) (by decide +kernel)
    (by decide +kernel) List.mem_cons_self) trivial (by decide +kernel) (fun _ _ => trivial)
  exact ⟨_, _, _, _, h13, List.mem_singleton_self _, rfl, by decide +kernel, rfl, by decide +kernel,
    by decide +kernel, by decide +kernel, by decide +kernel⟩

end Cluster

end DistributedKV
