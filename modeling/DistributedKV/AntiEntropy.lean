import DistributedKV.Cluster
import DistributedKV.Merkle

/-!
# Anti-entropy between two replicas

`reconcileBucket` lists the keys both sides hold in a bucket, keeps those both replicate,
and for each reads both sides' versions, merges the ones it lacks and pushes the ones the
peer lacks. The reads, every single merge and the push are steps of their own
(`ReconcileStep`), and any of them may fail.

Alone (`Alone`), a run that returns nil leaves on both sides the maximal clocks of what the
two held, touches no other key, and has nothing left to send (`Progress`, `aloneInv_of_alone`).
Among other writes (`Exchange`) no step makes a store cover less, since merging is all that
is ever done to one.
-/

open Maxima

namespace DistributedKV

open DataItem (vectorClock)

def antiEntropyNumBuckets : Nat := 16

/-- Both nodes are in the key's preference list. -/
def sharesReplicaSet (v : View) (self key peerID : String) : Bool :=
  let preferenceList := v.preferenceList key
  preferenceList.any (· = self) && preferenceList.any (· = peerID)

/-- The versions of `incoming` that `set` does not cover. -/
def missingFrom (set incoming : List DataItem) : List DataItem :=
  incoming.filter fun item => !set.any fun held =>
    held.vectorClock.compare item.vectorClock = .after ||
      held.vectorClock.compare item.vectorClock = .equal

/-- How far a `reconcileBucket` is. -/
inductive ReconcilePhase
  | listing
  /-- The local keys of the bucket are listed. -/
  | listed (localKeys : List String)
  | nextKey (todo : List String)
  /-- The local versions of `key` are read. -/
  | read (key : String) (todo : List String) (localItems : List DataItem)
  /-- Both sides are read, and `toPull` is left to merge. -/
  | pulling (key : String) (todo : List String) (localItems remoteItems toPull : List DataItem)
  /-- The peer has `toPush` left to merge. -/
  | pushing (key : String) (todo : List String) (toPush : List DataItem)
  | returned (err : Bool)

structure Reconcile where
  self : String
  peer : String
  bucket : Nat
  phase : ReconcilePhase
  /-- The versions merged so far, and the ones sent to the peer. -/
  pulled : List (String × DataItem)
  pushed : List (String × DataItem)

def Reconcile.start (self peer : String) (bucket : Nat) : Reconcile :=
  ⟨self, peer, bucket, .listing, [], []⟩

/-- The listed keys of a bucket. -/
def keysOfBucket (keys : List String) (bucket : Nat) : List String :=
  keys.filter fun k => bucketFor k antiEntropyNumBuckets = bucket

/-- The keys that both nodes replicate, each once. -/
def sharedKeys (v : View) (self peer : String) (keys : List String) : List String :=
  (keys.filter fun k => sharesReplicaSet v self k peer).dedup

/-- One step of a `reconcileBucket` on the stores. Keys come in any order, and every step may
fail instead. -/
inductive ReconcileStep (v : View) (stores : String → DataStore) (r : Reconcile) :
    (String → DataStore) → Reconcile → Prop
  | listLocal (faults : Faults) (keys : List String) (hphase : r.phase = .listing)
      (hkeys : (stores r.self).keys faults = some keys) :
      ReconcileStep v stores r stores { r with phase := .listed (keysOfBucket keys r.bucket) }
  | listRemote (faults : Faults) (localKeys keys : List String)
      (hphase : r.phase = .listed localKeys) (hkeys : (stores r.peer).keys faults = some keys) :
      ReconcileStep v stores r stores { r with
        phase := .nextKey (sharedKeys v r.self r.peer (localKeys ++ keysOfBucket keys r.bucket)) }
  | readLocal (faults : Faults) (todo : List String) (key : String) (items : List DataItem)
      (hphase : r.phase = .nextKey todo) (hkey : key ∈ todo)
      (hread : (stores r.self).get faults key = some items) :
      ReconcileStep v stores r stores { r with phase := .read key (todo.erase key) items }
  | fetch (faults : Faults) (todo : List String) (key : String) (localItems items : List DataItem)
      (hphase : r.phase = .read key todo localItems)
      (hread : (stores r.peer).get faults key = some items) :
      ReconcileStep v stores r stores
        { r with phase := .pulling key todo localItems items (missingFrom localItems items) }
  | pull (faults : Faults) (todo : List String) (key : String)
      (localItems remoteItems rest : List DataItem) (item : DataItem) (ds : DataStore)
      (hphase : r.phase = .pulling key todo localItems remoteItems (item :: rest))
      (hmerge : (stores r.self).mergeReplicated faults key item = (true, ds)) :
      ReconcileStep v stores r (Function.update stores r.self ds)
        { r with
          phase := .pulling key todo localItems remoteItems rest
          pulled := r.pulled ++ [(key, item)] }
  | skipPush (todo : List String) (key : String) (localItems remoteItems : List DataItem)
      (hphase : r.phase = .pulling key todo localItems remoteItems [])
      (hnone : missingFrom remoteItems localItems = []) :
      ReconcileStep v stores r stores { r with phase := .nextKey todo }
  | push (todo : List String) (key : String) (localItems remoteItems : List DataItem)
      (hphase : r.phase = .pulling key todo localItems remoteItems [])
      (hsome : missingFrom remoteItems localItems ≠ []) :
      ReconcileStep v stores r stores
        { r with
          phase := .pushing key todo (missingFrom remoteItems localItems)
          pushed := r.pushed ++ (missingFrom remoteItems localItems).map (Prod.mk key) }
  | merge (faults : Faults) (todo : List String) (key : String) (rest : List DataItem)
      (item : DataItem) (ds : DataStore) (hphase : r.phase = .pushing key todo (item :: rest))
      (hmerge : (stores r.peer).mergeReplicated faults key item = (true, ds)) :
      ReconcileStep v stores r (Function.update stores r.peer ds)
        { r with phase := .pushing key todo rest }
  | pushed (todo : List String) (key : String) (hphase : r.phase = .pushing key todo []) :
      ReconcileStep v stores r stores { r with phase := .nextKey todo }
  | done (hphase : r.phase = .nextKey []) :
      ReconcileStep v stores r stores { r with phase := .returned false }
  | fail : ReconcileStep v stores r stores { r with phase := .returned true }

/-! ## Merging only adds -/

theorem mem_missingFrom {set incoming : List DataItem} {item : DataItem} :
    item ∈ missingFrom set incoming ↔
      item ∈ incoming ∧ ¬Covers vectorClock set item.vectorClock := by
  have hcov : (set.any fun held => decide (held.vectorClock.compare item.vectorClock = .after) ||
      decide (held.vectorClock.compare item.vectorClock = .equal)) = true ↔
      Covers vectorClock set item.vectorClock := by
    simp only [List.any_eq_true, Bool.or_eq_true, decide_eq_true_eq, Covers,
      VectorClock.compare_eq_after, VectorClock.compare_eq_equal]
    refine exists_congr fun held => and_congr_right fun _ => ?_
    constructor
    · rintro (h | h)
      · exact h.le
      · exact h.2
    · intro h
      by_cases hle : held.vectorClock ≤ item.vectorClock
      · exact Or.inr ⟨hle, h⟩
      · exact Or.inl (lt_of_le_not_ge h hle)
  rw [missingFrom, List.mem_filter, ← hcov]
  simp

/-- What is missing makes up for the difference. -/
theorem covers_missingFrom {set incoming : List DataItem} {c : VectorClock} :
    Covers vectorClock set c ∨ Covers vectorClock (missingFrom set incoming) c ↔
      Covers vectorClock set c ∨ Covers vectorClock incoming c := by
  constructor
  · rintro (h | ⟨item, hitem, hle⟩)
    · exact Or.inl h
    · exact Or.inr ⟨item, (mem_missingFrom.mp hitem).1, hle⟩
  · rintro (h | ⟨item, hitem, hle⟩)
    · exact Or.inl h
    · by_cases hcov : Covers vectorClock set item.vectorClock
      · exact Or.inl (hcov.of_le hle)
      · exact Or.inr ⟨item, mem_missingFrom.mpr ⟨hitem, hcov⟩, hle⟩

theorem missingFrom_eq_nil {set incoming : List DataItem}
    (h : ∀ c, Covers vectorClock incoming c → Covers vectorClock set c) :
    missingFrom set incoming = [] := by
  refine List.eq_nil_iff_forall_not_mem.mpr fun item hitem => ?_
  obtain ⟨hmem, hnot⟩ := mem_missingFrom.mp hitem
  exact hnot (h _ ⟨item, hmem, le_rfl⟩)

/-- Whatever a reconciliation does, every store keeps covering what it covered. -/
theorem ReconcileStep.covers {v : View} {stores stores' : String → DataStore} {r r' : Reconcile}
    (h : ReconcileStep v stores r stores' r') {node key : String} {c : VectorClock}
    (hc : Covers vectorClock ((stores node).persister.getAll key) c) :
    Covers vectorClock ((stores' node).persister.getAll key) c := by
  have hmerge : ∀ {n k : String} {faults : Faults} {item : DataItem} {ds : DataStore},
      (stores n).mergeReplicated faults k item = (true, ds) →
      Covers vectorClock ((Function.update stores n ds node).persister.getAll key) c := by
    intro n k faults item ds hds
    by_cases hn : node = n
    · subst hn
      rw [Function.update_self]
      exact (DataStore.covers_mergeReplicated hds).mpr (Or.inl hc)
    · rwa [Function.update_of_ne hn]
  cases h with
  | pull faults todo key localItems remoteItems rest item ds hphase hds
  | merge faults todo key rest item ds hphase hds => exact hmerge hds
  | _ => exact hc

/-! ## A reconciliation on its own -/

/-- The states of a `reconcileBucket` during which nothing else writes. Flushes and
compactions go on : they leave a node with other layers that read the same. -/
inductive Alone (v : View) (self peer : String) (bucket : Nat) (initial : String → DataStore) :
    (String → DataStore) → Reconcile → Prop
  | start : Alone v self peer bucket initial initial (Reconcile.start self peer bucket)
  | step {stores stores' : String → DataStore} {r r' : Reconcile}
      (h : Alone v self peer bucket initial stores r)
      (hstep : ReconcileStep v stores r stores' r') : Alone v self peer bucket initial stores' r'
  | maintain {stores : String → DataStore} {r : Reconcile} (node : String) (layers : Layers)
      (h : Alone v self peer bucket initial stores r)
      (hsame : ∀ key, layers.getAll key = (stores node).persister.getAll key) :
      Alone v self peer bucket initial
        (Function.update stores node { stores node with persister := layers }) r

section Alone

-- `mine₀` and `theirs₀` are what the two sides hold at the start, `mine` and `theirs` now
variable (v : View) (me peer : String) (bucket : Nat) (mine₀ theirs₀ : String → List DataItem)

/-- A key of the bucket that both nodes replicate. -/
def InScope (key : String) : Prop :=
  bucketFor key antiEntropyNumBuckets = bucket ∧ sharesReplicaSet v me key peer = true

/-- A list covers what the two sides together covered. -/
def Joint (items : List DataItem) (key : String) : Prop :=
  ∀ c, Covers vectorClock items c ↔
    Covers vectorClock (mine₀ key) c ∨ Covers vectorClock (theirs₀ key) c

/-- Of the keys other than the current one, those in scope that are not left to do are
joint on both sides, and all others are untouched. -/
structure Progress (mine theirs : String → List DataItem) (todo : List String)
    (current : String → Prop) : Prop where
  nodup : todo.Nodup
  scope : ∀ key ∈ todo, InScope v me peer bucket key
  joint : ∀ key, InScope v me peer bucket key → key ∉ todo → ¬current key →
    Joint mine₀ theirs₀ (mine key) key ∧ Joint mine₀ theirs₀ (theirs key) key
  untouched : ∀ key, (InScope v me peer bucket key → key ∈ todo) → ¬current key →
    mine key = mine₀ key ∧ theirs key = theirs₀ key

/-- `items` covers `base` and a part of `missing`, of which `rest` is left. -/
def Partly (items base missing rest : List DataItem) : Prop :=
  ∃ done, missing = done ++ rest ∧
    ∀ c, Covers vectorClock items c ↔ Covers vectorClock base c ∨ Covers vectorClock done c

/-- What is known in each phase. -/
def PhaseInv (mine theirs : String → List DataItem) : ReconcilePhase → Prop
  | .listing => mine = mine₀ ∧ theirs = theirs₀
  | .listed localKeys => (mine = mine₀ ∧ theirs = theirs₀) ∧
    (∀ key, bucketFor key antiEntropyNumBuckets = bucket → mine₀ key ≠ [] → key ∈ localKeys) ∧
    ∀ key ∈ localKeys, bucketFor key antiEntropyNumBuckets = bucket
  | .nextKey todo => Progress v me peer bucket mine₀ theirs₀ mine theirs todo fun _ => False
  | .read key todo localItems =>
    Progress v me peer bucket mine₀ theirs₀ mine theirs (key :: todo) (fun _ => False) ∧
    localItems = mine₀ key
  | .pulling key todo localItems remoteItems rest =>
    Progress v me peer bucket mine₀ theirs₀ mine theirs todo (· = key) ∧
    (InScope v me peer bucket key ∧ key ∉ todo) ∧ localItems = mine₀ key ∧
    remoteItems = theirs₀ key ∧ theirs key = theirs₀ key ∧
    Partly (mine key) (mine₀ key) (missingFrom (mine₀ key) (theirs₀ key)) rest
  | .pushing key todo rest =>
    Progress v me peer bucket mine₀ theirs₀ mine theirs todo (· = key) ∧
    (InScope v me peer bucket key ∧ key ∉ todo) ∧ Joint mine₀ theirs₀ (mine key) key ∧
    Partly (theirs key) (theirs₀ key) (missingFrom (theirs₀ key) (mine₀ key)) rest
  | .returned err =>
    err = false → Progress v me peer bucket mine₀ theirs₀ mine theirs [] fun _ => False

variable {v me peer bucket mine₀ theirs₀} {mine theirs : String → List DataItem}

/-- Everything missing was merged. -/
theorem Partly.joint {items base incoming : List DataItem}
    (h : Partly items base (missingFrom base incoming) []) (c : VectorClock) :
    Covers vectorClock items c ↔ Covers vectorClock base c ∨ Covers vectorClock incoming c := by
  obtain ⟨done, hdone, hcov⟩ := h
  rw [List.append_nil] at hdone
  rw [hcov, ← hdone, covers_missingFrom]

/-- One more of the missing versions is merged. -/
theorem Partly.merge {items items' base missing rest : List DataItem} {item : DataItem}
    (h : Partly items base missing (item :: rest))
    (hitems : ∀ c, Covers vectorClock items' c ↔
      Covers vectorClock items c ∨ c ≤ item.vectorClock) : Partly items' base missing rest := by
  obtain ⟨done, hdone, hcov⟩ := h
  refine ⟨done ++ [item], by rw [hdone]; simp, fun c => ?_⟩
  rw [hitems, hcov, covers_append]
  simp [Covers, or_assoc]

/-- The current key is done. -/
theorem Progress.finish {todo : List String} {key : String}
    (h : Progress v me peer bucket mine₀ theirs₀ mine theirs todo (· = key))
    (hmine : Joint mine₀ theirs₀ (mine key) key) (htheirs : Joint mine₀ theirs₀ (theirs key) key)
    (hkey : InScope v me peer bucket key ∧ key ∉ todo) :
    Progress v me peer bucket mine₀ theirs₀ mine theirs todo fun _ => False where
  nodup := h.nodup
  scope := h.scope
  joint := by
    intro k hk hin _
    by_cases hkk : k = key
    · rw [hkk]
      exact ⟨hmine, htheirs⟩
    · exact h.joint k hk hin hkk
  untouched := by
    intro k hk _
    by_cases hkk : k = key
    · rw [hkk] at hk
      exact absurd (hk hkey.1) hkey.2
    · exact h.untouched k hk hkk

/-- Only the current key changes. -/
theorem Progress.congr {mine' theirs' : String → List DataItem} {todo : List String} {key : String}
    (h : Progress v me peer bucket mine₀ theirs₀ mine theirs todo (· = key))
    (hmine : ∀ k, k ≠ key → mine' k = mine k) (htheirs : ∀ k, k ≠ key → theirs' k = theirs k) :
    Progress v me peer bucket mine₀ theirs₀ mine' theirs' todo (· = key) where
  nodup := h.nodup
  scope := h.scope
  joint := by
    intro k hk hin hkk
    rw [hmine k hkk, htheirs k hkk]
    exact h.joint k hk hin hkk
  untouched := by
    intro k hk hkk
    rw [hmine k hkk, htheirs k hkk]
    exact h.untouched k hk hkk

/-- The keys to do are the keys in scope that either side lists. -/
theorem progress_sharedKeys {localKeys remoteKeys : List String}
    (hlocal : ∀ key, bucketFor key antiEntropyNumBuckets = bucket → mine₀ key ≠ [] →
      key ∈ localKeys)
    (hremote : ∀ key, bucketFor key antiEntropyNumBuckets = bucket → theirs₀ key ≠ [] →
      key ∈ remoteKeys)
    (hbucket : ∀ key ∈ localKeys ++ remoteKeys, bucketFor key antiEntropyNumBuckets = bucket) :
    Progress v me peer bucket mine₀ theirs₀ mine₀ theirs₀
      (sharedKeys v me peer (localKeys ++ remoteKeys)) fun _ => False where
  nodup := List.nodup_dedup _
  scope := by
    intro key hkey
    obtain ⟨hmem, hshare⟩ := List.mem_filter.mp (List.mem_dedup.mp hkey)
    exact ⟨hbucket key hmem, hshare⟩
  joint := by
    -- a key in scope that is not listed has no versions on either side
    rintro key ⟨hb, hshare⟩ hnot -
    have hkeys : key ∉ localKeys ++ remoteKeys := fun hmem =>
      hnot (List.mem_dedup.mpr (List.mem_filter.mpr ⟨hmem, hshare⟩))
    rw [List.mem_append, not_or] at hkeys
    have hmine : mine₀ key = [] := by
      by_contra hne
      exact hkeys.1 (hlocal key hb hne)
    have htheirs : theirs₀ key = [] := by
      by_contra hne
      exact hkeys.2 (hremote key hb hne)
    constructor <;> intro c <;> simp [hmine, htheirs, Covers]
  untouched := fun _ _ _ => ⟨rfl, rfl⟩

end Alone

/-- The keys of a bucket that a store holds are among the listed ones. -/
theorem mem_keysOfBucket {ds : DataStore} {faults : Faults} {keys : List String} {bucket : Nat}
    (hkeys : ds.keys faults = some keys) {key : String}
    (hb : bucketFor key antiEntropyNumBuckets = bucket) (hne : ds.versions key ≠ []) :
    key ∈ keysOfBucket keys bucket := by
  obtain ⟨item, hitem⟩ := List.exists_mem_of_ne_nil _ hne
  have hlisted := Layers.mem_keys_of_mem_getAll (DataStore.mem_versions.mp hitem)
  simp [keysOfBucket, DataStore.keys_eq_some hkeys, hb, hlisted]

/-- A merge adds one version to one key. -/
theorem DataStore.versions_mergeReplicated {ds ds' : DataStore} {faults : Faults} {key : String}
    {item : DataItem} (h : ds.mergeReplicated faults key item = (true, ds')) :
    (∀ k, k ≠ key → ds'.versions k = ds.versions k) ∧
      ∀ c, Covers vectorClock (ds'.versions key) c ↔
        Covers vectorClock (ds.versions key) c ∨ c ≤ item.vectorClock := by
  constructor
  · intro k hk
    unfold DataStore.mergeReplicated at h
    split at h
    · cases (Prod.mk.inj h).1
    · rw [← (Prod.mk.inj h).2]
      simp [DataStore.versions, Layers.getAll_put_of_ne _ item hk]
  · intro c
    rw [DataStore.covers_versions, DataStore.covers_versions, DataStore.covers_mergeReplicated h]
    simp

/-- What a merge makes visible was visible before, or is the item. -/
theorem DataStore.mem_versions_mergeReplicated {ds ds' : DataStore} {faults : Faults} {key : String}
    {item : DataItem} (h : ds.mergeReplicated faults key item = (true, ds')) {k : String}
    {x : DataItem} (hx : x ∈ ds'.versions k) : x ∈ ds.versions k ∨ k = key ∧ x = item := by
  by_cases hk : k = key
  · unfold DataStore.mergeReplicated at h
    split at h
    · cases (Prod.mk.inj h).1
    · rw [← (Prod.mk.inj h).2, DataStore.mem_versions] at hx
      subst hk
      exact (Layers.mem_getAll_put hx).imp DataStore.mem_versions.mpr fun he => ⟨rfl, he⟩
  · rw [(DataStore.versions_mergeReplicated h).1 k hk] at hx
    exact Or.inl hx

/-- Other layers that read the same. -/
theorem DataStore.versions_update {stores : String → DataStore} {node : String} {layers : Layers}
    (hsame : ∀ key, layers.getAll key = (stores node).persister.getAll key) (n key : String) :
    (Function.update stores node { stores node with persister := layers } n).versions key =
      (stores n).versions key := by
  by_cases hn : n = node
  · subst hn
    simp [DataStore.versions, hsame]
  · rw [Function.update_of_ne hn]

section Alone

variable {v : View} {me peer : String} {bucket : Nat} {initial : String → DataStore}

/-- What is known of a reconciliation and the stores while nothing else writes. -/
structure AloneInv (v : View) (me peer : String) (bucket : Nat) (initial : String → DataStore)
    (stores : String → DataStore) (r : Reconcile) : Prop where
  self_eq : r.self = me
  peer_eq : r.peer = peer
  bucket_eq : r.bucket = bucket
  phase : PhaseInv v me peer bucket (initial me).versions (initial peer).versions
    (stores me).versions (stores peer).versions r.phase

theorem aloneInv_step (hne : me ≠ peer) {stores stores' : String → DataStore} {r r' : Reconcile}
    (h : AloneInv v me peer bucket initial stores r) (hstep : ReconcileStep v stores r stores' r') :
    AloneInv v me peer bucket initial stores' r' := by
  obtain ⟨rfl, rfl, rfl, hphase⟩ := h
  refine ⟨by cases hstep <;> rfl, by cases hstep <;> rfl, by cases hstep <;> rfl, ?_⟩
  cases hstep with
  | listLocal faults keys hp hkeys =>
    rw [hp] at hphase
    obtain ⟨hmine, htheirs⟩ := hphase
    refine ⟨⟨hmine, htheirs⟩, fun key hb hkey => ?_, fun key hkey => ?_⟩
    · exact mem_keysOfBucket hkeys hb (by rwa [hmine])
    · simpa using (List.mem_filter.mp hkey).2
  | listRemote faults localKeys keys hp hkeys =>
    rw [hp] at hphase
    obtain ⟨⟨hmine, htheirs⟩, hlocal, hbucket⟩ := hphase
    have hremote : ∀ key, bucketFor key antiEntropyNumBuckets = r.bucket →
        (initial r.peer).versions key ≠ [] → key ∈ keysOfBucket keys r.bucket :=
      fun key hb hkey => mem_keysOfBucket hkeys hb (by rwa [htheirs])
    have hbuckets : ∀ key ∈ localKeys ++ keysOfBucket keys r.bucket,
        bucketFor key antiEntropyNumBuckets = r.bucket := by
      intro key hkey
      rcases List.mem_append.mp hkey with hkey | hkey
      · exact hbucket key hkey
      · simpa using (List.mem_filter.mp hkey).2
    have hprogress : Progress v r.self r.peer r.bucket _ _ _ _ (sharedKeys v r.self r.peer _) _ :=
      progress_sharedKeys hlocal hremote hbuckets
    rw [← hmine, ← htheirs] at hprogress ⊢
    exact hprogress
  | readLocal faults todo key items hp hkey hread =>
    rw [hp] at hphase
    have hprogress : Progress _ _ _ _ _ _ _ _ todo _ := hphase
    have htouch := hprogress.untouched key (fun _ => hkey) id
    refine ⟨?_, by rw [DataStore.get_eq_some hread, htouch.1]⟩
    have hperm := List.perm_cons_erase hkey
    exact {
      nodup := hperm.nodup_iff.mp hprogress.nodup
      scope := fun k hk => hprogress.scope k (hperm.mem_iff.mpr hk)
      joint := fun k hk hin => hprogress.joint k hk (fun hm => hin (hperm.mem_iff.mp hm))
      untouched := fun k hk => hprogress.untouched k fun hs => hperm.mem_iff.mpr (hk hs) }
  | fetch faults todo key localItems items hp hread =>
    rw [hp] at hphase
    obtain ⟨hprogress, hitems⟩ := hphase
    obtain ⟨hnot, hnodup⟩ := List.nodup_cons.mp hprogress.nodup
    have hkey : InScope v r.self r.peer r.bucket key := hprogress.scope key List.mem_cons_self
    obtain ⟨hmine, htheirs⟩ := hprogress.untouched key (fun _ => List.mem_cons_self) id
    have hread := DataStore.get_eq_some hread
    refine ⟨?_, ⟨hkey, hnot⟩, hitems, by rw [hread, htheirs], htheirs, [], ?_, ?_⟩
    · exact {
        nodup := hnodup
        scope := fun k hk => hprogress.scope k (List.mem_cons_of_mem _ hk)
        joint := fun k hk hin hkk => hprogress.joint k hk (by simp [hin, hkk]) id
        untouched := fun k hk hkk =>
          hprogress.untouched k (fun hs => List.mem_cons_of_mem _ (hk hs)) id }
    · rw [hread, htheirs, hitems, List.nil_append]
    · intro c
      rw [hmine]
      simp [Covers]
  | pull faults todo key localItems remoteItems rest item ds hp hmerge =>
    rw [hp] at hphase
    obtain ⟨hprogress, hkey, hlocal, hremote, htheirs, hpartly⟩ := hphase
    obtain ⟨hother, hcov⟩ := DataStore.versions_mergeReplicated hmerge
    rw [Function.update_self, Function.update_of_ne hne.symm]
    exact ⟨hprogress.congr hother fun _ _ => rfl, hkey, hlocal, hremote, htheirs,
      hpartly.merge hcov⟩
  | skipPush todo key localItems remoteItems hp hnone =>
    rw [hp] at hphase
    obtain ⟨hprogress, hkey, hlocal, hremote, htheirs, hpartly⟩ := hphase
    refine hprogress.finish hpartly.joint (fun c => ?_) hkey
    rw [hlocal, hremote] at hnone
    have hpart : Covers vectorClock ((initial r.peer).versions key) c ∨ Covers vectorClock
        (missingFrom ((initial r.peer).versions key) ((initial r.self).versions key)) c ↔ _ :=
      covers_missingFrom
    rw [htheirs, or_comm, ← hpart, hnone]
    simp [Covers]
  | push todo key localItems remoteItems hp =>
    rw [hp] at hphase
    obtain ⟨hprogress, hkey, hlocal, hremote, htheirs, hpartly⟩ := hphase
    refine ⟨hprogress, hkey, hpartly.joint, [], ?_, fun c => ?_⟩
    · rw [hlocal, hremote, List.nil_append]
    · rw [htheirs]
      simp [Covers]
  | merge faults todo key rest item ds hp hmerge =>
    rw [hp] at hphase
    obtain ⟨hprogress, hkey, hjoint, hpartly⟩ := hphase
    obtain ⟨hother, hcov⟩ := DataStore.versions_mergeReplicated hmerge
    rw [Function.update_self, Function.update_of_ne hne]
    exact ⟨hprogress.congr (fun _ _ => rfl) hother, hkey, hjoint, hpartly.merge hcov⟩
  | pushed todo key hp =>
    rw [hp] at hphase
    obtain ⟨hprogress, hkey, hjoint, hpartly⟩ := hphase
    refine hprogress.finish hjoint (fun c => ?_) hkey
    rw [hpartly.joint c, or_comm]
  | done hp =>
    rw [hp] at hphase
    exact fun _ => hphase
  | fail => exact fun h => absurd h (by decide)

theorem aloneInv_of_alone (hne : me ≠ peer) {stores : String → DataStore} {r : Reconcile}
    (h : Alone v me peer bucket initial stores r) :
    AloneInv v me peer bucket initial stores r := by
  induction h with
  | start => exact ⟨rfl, rfl, rfl, rfl, rfl⟩
  | step h hstep ih => exact aloneInv_step hne ih hstep
  | maintain node layers h hsame ih =>
    rename_i stores r
    -- the other layers read the same
    have hversions : ∀ n, (Function.update stores node
        { stores node with persister := layers } n).versions = (stores n).versions := by
      intro n
      by_cases hn : n = node
      · subst hn
        funext key
        simp [DataStore.versions, hsame]
      · rw [Function.update_of_ne hn]
    obtain ⟨hself, hpeer, hbucket, hphase⟩ := ih
    exact ⟨hself, hpeer, hbucket, by rwa [hversions, hversions]⟩

/-- When the two sides cover the same at the start, nothing is sent. -/
theorem nothing_sent (hne : me ≠ peer)
    (hsame : ∀ key, InScope v me peer bucket key → ∀ c,
      Covers vectorClock ((initial me).versions key) c ↔
        Covers vectorClock ((initial peer).versions key) c)
    {stores : String → DataStore} {r : Reconcile} (h : Alone v me peer bucket initial stores r) :
    r.pulled = [] ∧ r.pushed = [] := by
  induction h with
  | start => exact ⟨rfl, rfl⟩
  | maintain node layers h hsame ih => exact ih
  | step h hstep ih =>
    have hinv := (aloneInv_of_alone hne h).phase
    cases hstep with
    | pull faults todo key localItems remoteItems rest item ds hp =>
      rw [hp] at hinv
      obtain ⟨-, hkey, -, -, -, done, hdone, -⟩ := hinv
      rw [missingFrom_eq_nil fun c => (hsame key hkey.1 c).mpr] at hdone
      simp at hdone
    | push todo key localItems remoteItems hp hsome =>
      rw [hp] at hinv
      obtain ⟨-, hkey, rfl, rfl, -⟩ := hinv
      exact absurd (missingFrom_eq_nil fun c => (hsame key hkey.1 c).mp) hsome
    | _ => exact ih

end Alone

/-! ## Clocks -/

/-- The clocks of some versions, each as what it counts for every node. -/
def clocksOf (items : List DataItem) : Set (String → UInt32) :=
  {f | ∃ item ∈ items, item.vectorClock.entry = f}

/-- The clocks that no other clock of the set is above. -/
def maximalClocks (s : Set (String → UInt32)) : Set (String → UInt32) :=
  {f ∈ s | ∀ g ∈ s, (∀ n, f n ≤ g n) → g = f}

theorem antichain_versions (ds : DataStore) (key : String) {v w : DataItem}
    (hv : v ∈ ds.versions key) (hw : w ∈ ds.versions key)
    (h : v.vectorClock ≤ w.vectorClock) : v = w := by
  have hanti : Antichain vectorClock (ds.persister.getAll key) :=
    Layers.getAll_eq ds.persister key ▸ antichain_keepMax _
  exact hanti.eq_of_le (DataStore.mem_versions.mp hv) (DataStore.mem_versions.mp hw) h

/-- Versions that cover exactly what two lists cover together have their maximal clocks. -/
theorem clocksOf_eq_maximal {ds : DataStore} {key : String} {a b : List DataItem}
    (h : ∀ c, Covers vectorClock (ds.versions key) c ↔
      Covers vectorClock a c ∨ Covers vectorClock b c) :
    clocksOf (ds.versions key) = maximalClocks (clocksOf a ∪ clocksOf b) := by
  have hunion : ∀ {f}, f ∈ clocksOf a ∪ clocksOf b ↔ ∃ x ∈ a ++ b, x.vectorClock.entry = f := by
    intro f
    simp only [clocksOf, Set.mem_union, Set.mem_ofPred_eq, List.mem_append, or_and_right, exists_or]
  have hcov : ∀ c, Covers vectorClock (ds.versions key) c ↔ Covers vectorClock (a ++ b) c :=
    fun c => (h c).trans covers_append.symm
  -- what is above a version held is held
  have habove : ∀ v ∈ ds.versions key, ∀ x ∈ a ++ b, v.vectorClock ≤ x.vectorClock →
      x.vectorClock ≤ v.vectorClock := by
    intro v hv x hx hle
    obtain ⟨w, hw, hxw⟩ := (hcov x.vectorClock).mpr ⟨x, hx, le_rfl⟩
    rw [antichain_versions ds key hv hw (hle.trans hxw)]
    exact hxw
  ext f
  constructor
  · rintro ⟨v, hv, rfl⟩
    obtain ⟨x, hx, hvx⟩ := (hcov v.vectorClock).mp ⟨v, hv, le_rfl⟩
    refine ⟨hunion.mpr ⟨x, hx, entry_eq_of_equiv ⟨habove v hv x hx hvx, hvx⟩⟩, ?_⟩
    intro g hg hle
    obtain ⟨y, hy, rfl⟩ := hunion.mp hg
    exact entry_eq_of_equiv ⟨habove v hv y hy hle, hle⟩
  · rintro ⟨hf, hmax⟩
    obtain ⟨x, hx, rfl⟩ := hunion.mp hf
    obtain ⟨v, hv, hxv⟩ := (hcov x.vectorClock).mpr ⟨x, hx, le_rfl⟩
    obtain ⟨y, hy, hvy⟩ := (hcov v.vectorClock).mp ⟨v, hv, le_rfl⟩
    have hyx := hmax _ (hunion.mpr ⟨y, hy, rfl⟩) (hxv.trans hvy)
    refine ⟨v, hv, entry_eq_of_equiv ⟨fun n => ?_, hxv⟩⟩
    rw [← hyx]
    exact hvy n

/-! ## Among other writes -/

/-- A cluster in which any number of reconciliations are under way. -/
structure Exchange where
  cluster : Cluster
  reconciles : List Reconcile

namespace Exchange

/-- A step of the cluster, or of one reconciliation. -/
inductive Step (v : View) (s : Exchange) : Event → Exchange → Prop
  | cluster (e : Event) (c : Cluster) (hstep : Cluster.Step v s.cluster e c) :
      Step v s e { s with cluster := c }
  | begin (me peer : String) (bucket : Nat) :
      Step v s .other { s with reconciles := s.reconciles ++ [Reconcile.start me peer bucket] }
  | reconcile (i : Nat) (r r' : Reconcile) (stores : String → DataStore)
      (hr : s.reconciles[i]? = some r) (hstep : ReconcileStep v s.cluster.stores r stores r') :
      Step v s .other
        ⟨{ s.cluster with stores := stores }, s.reconciles.set i r'⟩

/-- Steps without a rollback, in which flushes, compactions and restarts lose nothing. -/
inductive Reaches (v : View) (s : Exchange) : Exchange → Prop
  | refl : Reaches v s s
  | step {t u : Exchange} {e : Event} (h : Reaches v s t) (he : ∀ key, e.Keeps key)
      (hstep : Step v t e u) : Reaches v s u

theorem covers_of_reaches {v : View} {s t : Exchange} (h : Reaches v s t) {node key : String}
    {c : VectorClock} (hc : Covers vectorClock ((s.cluster.stores node).versions key) c) :
    Covers vectorClock ((t.cluster.stores node).versions key) c := by
  induction h with
  | refl => exact hc
  | step h he hstep ih =>
    rw [DataStore.covers_versions] at ih ⊢
    cases hstep with
    | cluster e c hstep => exact Cluster.covers_step hstep (he key) ih
    | begin => exact ih
    | reconcile i r r' stores hr hstep => exact hstep.covers ih

end Exchange

/-- A `reconcileBucket` that returns nil with nothing else writing leaves on both sides, for
every key in scope, the maximal clocks of what the two sides held, and leaves every other
key alone; another one then sends nothing. Among any writes but rollbacks, every version a
node ever held is from then on at or below a version there. -/
theorem reconcileBucket_converges (v : View) {me peer : String} (hne : me ≠ peer) (bucket : Nat) :
    (∀ (initial stores : String → DataStore) (r : Reconcile),
      Alone v me peer bucket initial stores r → r.phase = .returned false →
      (∀ key, bucketFor key antiEntropyNumBuckets = bucket →
        sharesReplicaSet v me key peer = true →
        clocksOf ((stores me).versions key) = maximalClocks
          (clocksOf ((initial me).versions key) ∪ clocksOf ((initial peer).versions key)) ∧
        clocksOf ((stores peer).versions key) = maximalClocks
          (clocksOf ((initial me).versions key) ∪ clocksOf ((initial peer).versions key))) ∧
      (∀ key, ¬(bucketFor key antiEntropyNumBuckets = bucket ∧
          sharesReplicaSet v me key peer = true) →
        (stores me).versions key = (initial me).versions key ∧
        (stores peer).versions key = (initial peer).versions key) ∧
      ∀ (later : String → DataStore) (r' : Reconcile), Alone v me peer bucket stores later r' →
        r'.pulled = [] ∧ r'.pushed = []) ∧
    ∀ s t : Exchange, s.Reaches v t → ∀ node key, ∀ x ∈ (s.cluster.stores node).versions key,
      ∃ w ∈ (t.cluster.stores node).versions key,
        x.vectorClock.compare w.vectorClock = .equal ∨
          x.vectorClock.compare w.vectorClock = .before := by
  refine ⟨fun initial stores r halone hret => ?_, fun s t h node key x hx => ?_⟩
  · have hphase := (aloneInv_of_alone hne halone).phase
    rw [hret] at hphase
    have hprogress := hphase rfl
    have hjoint := fun key hb hs => hprogress.joint key ⟨hb, hs⟩ (List.not_mem_nil) id
    refine ⟨fun key hb hs => ?_, fun key hscope => ?_, fun later r' hlater => ?_⟩
    · exact ⟨clocksOf_eq_maximal (hjoint key hb hs).1, clocksOf_eq_maximal (hjoint key hb hs).2⟩
    · exact hprogress.untouched key (fun h => absurd h hscope) id
    · exact nothing_sent hne (fun key hkey c =>
        ((hjoint key hkey.1 hkey.2).1 c).trans ((hjoint key hkey.1 hkey.2).2 c).symm) hlater
  · obtain ⟨w, hw, hle⟩ := Exchange.covers_of_reaches h ⟨x, hx, le_rfl⟩
    exact ⟨w, hw, VectorClock.le_iff_compare.mp hle⟩

/-- Two nodes, each a replica of every key. -/
def twoNodes : View :=
  ⟨⟨[1, 2], ((∅ : Std.ExtTreeMap UInt32 String).insert 1 "Z").insert 2 "B", 1⟩, ⟨2, 1, 1⟩⟩

/-- `Z` and `B` have each written a version of one key. -/
def twoVersions : String → DataStore :=
  Function.update (fun _ => ((⟨"B", "B", ⟨MemTable.new 1000, none, []⟩⟩ : DataStore).put noFaults
    "k" "2" none).2) "Z" (storeWith "1" ∅)

/-- Each side takes the other's version, and the call returns. -/
theorem alone_twoVersions : ∃ stores r,
    Alone twoNodes "Z" "B" (bucketFor "k" 16) twoVersions stores r ∧ r.phase = .returned false ∧
      r.pulled.length = 1 ∧ r.pushed.length = 1 := by
  let mine : DataItem := ⟨"1", VectorClock.buildFromContext ∅ "Z", "Z", false⟩
  let theirs : DataItem := ⟨"2", VectorClock.buildFromContext ∅ "B", "B", false⟩
  have h1 : Alone twoNodes "Z" "B" (bucketFor "k" 16) twoVersions twoVersions _ :=
    .step .start (.listLocal noFaults ["k"] rfl rfl)
  have h2 := Alone.step h1 (.listRemote noFaults _ ["k"] rfl rfl)
  have h3 := Alone.step h2 (.readLocal noFaults _ "k" [mine] rfl (by decide +kernel) rfl)
  have hpull : missingFrom [mine] [theirs] = [theirs] := by decide +kernel
  have hpush : missingFrom [theirs] [mine] = [mine] := by decide +kernel
  have h4 := Alone.step h3 (.fetch noFaults _ "k" _ [theirs] rfl rfl)
  rw [hpull] at h4
  have h5 := Alone.step h4 (.pull noFaults _ "k" _ _ [] theirs _ rfl rfl)
  have h6 := Alone.step h5 (.push _ "k" _ _ rfl (by simp [hpush]))
  rw [hpush] at h6
  have h7 := Alone.step h6 (.merge noFaults _ "k" [] mine _ rfl rfl)
  have h8 := Alone.step h7 (.pushed _ "k" rfl)
  have hlast : (sharedKeys twoNodes "Z" "B" (keysOfBucket ["k"] (bucketFor "k" 16) ++
      keysOfBucket ["k"] (bucketFor "k" 16))).erase "k" = [] := by
    decide +kernel
  exact ⟨_, _, Alone.step h8 (.done (congrArg ReconcilePhase.nextKey hlast)), rfl, rfl, rfl⟩

/-- After it both nodes hold the clocks of both versions, and nothing is left to send. -/
theorem reconcileBucket_converges_twoVersions : ∃ stores r,
    Alone twoNodes "Z" "B" (bucketFor "k" 16) twoVersions stores r ∧ r.phase = .returned false ∧
      r.pulled.length = 1 ∧ r.pushed.length = 1 ∧
      clocksOf ((stores "Z").versions "k") = clocksOf ((stores "B").versions "k") ∧
      ∀ later r', Alone twoNodes "Z" "B" (bucketFor "k" 16) stores later r' →
        r'.pulled = [] ∧ r'.pushed = [] := by
  obtain ⟨stores, r, halone, hret, hpulled, hpushed⟩ := alone_twoVersions
  have hne : "Z" ≠ "B" := by decide
  obtain ⟨hclocks, -, hagain⟩ :=
    (reconcileBucket_converges twoNodes hne (bucketFor "k" 16)).1 twoVersions stores r halone hret
  have hkey := hclocks "k" rfl (by decide +kernel)
  exact ⟨stores, r, halone, hret, hpulled, hpushed, hkey.1.trans hkey.2.symm, hagain⟩

end DistributedKV
