import DistributedKV.DataStore
import DistributedKV.Coordinator
import DistributedKV.Durability

/-!
# Quorum reads see acknowledged writes

The cluster as an interleaving of small steps. Every node has its own store, and any
number of Puts, forwarded Puts and Gets are under way. A Put reads the versions a rollback
would restore, writes locally, and takes the replicas' results one by one; its item may
reach a replica at any time, late, more than once or never, and a result may be a failure
although the item was merged. A Get collects answers that were read at some earlier
moment. Hints, anti-entropy and handoff are merges of any item at any node, and flushes,
compactions and restarts replace what a node's store consists of.

`covers_step` : no step but a rollback makes a store cover less. So the replicas that
acknowledged a write cover it for good (`Inv`), and `get_covers_acked` follows from the
intersection of the two quorums.
-/

open Maxima

namespace DistributedKV

open DataItem (vectorClock)

/-- A Put between its read of the previous versions and its local write. -/
structure StartedPut where
  node : String
  key : String
  value : String
  context : Option Snapshot
  client : Option Nat
  prevVersions : List DataItem

inductive ForwardStatus
  | trying
  | returned
  | failed
deriving DecidableEq

/-- A `forwardPut` : the replicas it has not given up on, the next one first, and whether
the write has been sent to that one. -/
structure ForwardCall where
  node : String
  key : String
  value : String
  context : Option Snapshot
  replicas : List String
  sent : Bool
  status : ForwardStatus

structure Cluster where
  stores : String → DataStore
  started : List StartedPut
  puts : List PutCall
  forwards : List ForwardCall
  gets : List GetCall
  /-- Key and item of every Put that has returned nil to its client. -/
  returned : List (String × DataItem)

/-- What of a step matters outside. -/
inductive Event
  | rollback (key : String)
  /-- A flush, a compaction or a restart leaves a node with other layers. -/
  | maintain (before after : Layers)
  /-- A coordinator writes the item of a Put. -/
  | write (key : String) (item : DataItem)
  /-- The item of the `i`th Put reaches a peer. -/
  | deliver (i : Nat) (peer : String)
  /-- A hint, anti-entropy or a handoff brings an item. -/
  | merge (key : String)
  | other

namespace Cluster

def setStore (s : Cluster) (node : String) (ds : DataStore) : Cluster :=
  { s with stores := Function.update s.stores node ds }

/-- A Put that a client sent here and that has just been acknowledged returns nil. -/
def noteReturned (c : PutCall) (returned : List (String × DataItem)) : List (String × DataItem) :=
  if c.status = .acked ∧ c.client = none then (c.key, c.item) :: returned else returned

/-- A Put starts on a replica, sent by a client or by a forwarding node, and reads the
versions a rollback would restore. A failed read ends it. -/
def startPut (s : Cluster) (node key value : String) (context : Option Snapshot)
    (client : Option Nat) (prevVersions : List DataItem) : Cluster :=
  { s with started := s.started ++ [⟨node, key, value, context, client, prevVersions⟩] }

/-- The possible steps. -/
inductive Step (v : View) (s : Cluster) : Event → Cluster → Prop
  | putRead (node key value : String) (context : Option Snapshot) (faults : Faults)
      (prevVersions : List DataItem) (hreplica : (isReplicaFor v node key).1 = true)
      (hread : (s.stores node).get faults key = some prevVersions) :
      Step v s .other (s.startPut node key value context none prevVersions)
  | putWrite (i : Nat) (p : StartedPut) (faults : Faults) (item : DataItem) (ds : DataStore)
      (hp : s.started[i]? = some p)
      (hput : (s.stores p.node).put faults p.key p.value p.context = (some item, ds)) :
      Step v s (.write p.key item) { s.setStore p.node ds with
        started := s.started.eraseIdx i
        puts := s.puts ++ [PutCall.start v p.node p.key p.client p.prevVersions item]
        returned := noteReturned (PutCall.start v p.node p.key p.client p.prevVersions item)
          s.returned }
  | putFail (i : Nat) (p : StartedPut) (faults : Faults) (hp : s.started[i]? = some p)
      (hput : ((s.stores p.node).put faults p.key p.value p.context).1 = none) :
      Step v s .other { s with started := s.started.eraseIdx i }
  | deliver (i : Nat) (c : PutCall) (peer : String) (faults : Faults) (ok : Bool) (ds : DataStore)
      (hc : s.puts[i]? = some c) (hpeer : peer ∈ c.peers)
      (hmerge : (s.stores peer).mergeReplicated faults c.key c.item = (ok, ds)) :
      Step v s (.deliver i peer) { s.setStore peer ds with
        puts := s.puts.set i { c with applied := if ok then peer :: c.applied else c.applied } }
  | putResult (i : Nat) (c : PutCall) (peer : String) (ok : Bool) (hc : s.puts[i]? = some c)
      (hstatus : c.status = .deciding) (hpeer : peer ∈ c.peers)
      (hnew : peer ∉ c.results.map Prod.fst) (hok : ok = true → peer ∈ c.applied) :
      Step v s .other { s with
        puts := s.puts.set i (c.take v peer ok)
        returned := noteReturned (c.take v peer ok) s.returned }
  | putCancel (i : Nat) (c : PutCall) (hc : s.puts[i]? = some c) (hstatus : c.status = .deciding) :
      Step v s .other { s with puts := s.puts.set i { c with status := .canceled } }
  | rollback (i : Nat) (c : PutCall) (hc : s.puts[i]? = some c) (hstatus : c.status = .failing) :
      Step v s (.rollback c.key) { s.setStore c.node
          ((s.stores c.node).restoreVersions c.key c.prevVersions) with
        puts := s.puts.set i { c with status := .rolledBack } }
  | rollbackFail (i : Nat) (c : PutCall) (hc : s.puts[i]? = some c) (hstatus : c.status = .failing) :
      Step v s .other { s with puts := s.puts.set i { c with status := .rolledBack } }
  | forwardStart (node key value : String) (context : Option Snapshot)
      (hreplica : (isReplicaFor v node key).1 = false) :
      Step v s .other { s with forwards :=
        s.forwards ++ [⟨node, key, value, context, (isReplicaFor v node key).2, false, .trying⟩] }
  | forwardSend (f : Nat) (c : ForwardCall) (replica : String) (rest : List String) (faults : Faults)
      (prevVersions : List DataItem) (hc : s.forwards[f]? = some c) (hstatus : c.status = .trying)
      (hsent : c.sent = false) (hnext : c.replicas = replica :: rest)
      (hreplica : (isReplicaFor v replica c.key).1 = true)
      (hread : (s.stores replica).get faults c.key = some prevVersions) :
      Step v s .other { s.startPut replica c.key c.value c.context (some f) prevVersions with
        forwards := s.forwards.set f { c with sent := true } }
  | forwardSkip (f : Nat) (c : ForwardCall) (replica : String) (rest : List String)
      (hc : s.forwards[f]? = some c) (hstatus : c.status = .trying)
      (hnext : c.replicas = replica :: rest) :
      Step v s .other { s with forwards := s.forwards.set f { c with
        replicas := rest, sent := false, status := if rest = [] then .failed else .trying } }
  | forwardAnswer (f i : Nat) (c : ForwardCall) (p : PutCall) (hc : s.forwards[f]? = some c)
      (hstatus : c.status = .trying) (hp : s.puts[i]? = some p) (hclient : p.client = some f)
      (hnode : c.replicas.head? = some p.node) (hacked : p.status = .acked) :
      Step v s .other { s with
        forwards := s.forwards.set f { c with status := .returned }
        returned := (p.key, p.item) :: s.returned }
  | forwardFail (f : Nat) (c : ForwardCall) (hc : s.forwards[f]? = some c)
      (hstatus : c.status = .trying) :
      Step v s .other { s with forwards := s.forwards.set f { c with status := .failed } }
  | getStart (node key : String) (faults : Faults) :
      Step v s .other { s with gets := s.gets ++
        [GetCall.start v node key ((s.stores node).get faults key) s.returned] }
  | fetch (j : Nat) (c : GetCall) (peer : String) (faults : Faults) (items : List DataItem)
      (hc : s.gets[j]? = some c) (hpeer : peer ∈ c.peers)
      (hread : (s.stores peer).get faults c.key = some items) :
      Step v s .other { s with
        gets := s.gets.set j { c with inflight := (peer, items) :: c.inflight } }
  | getResult (j : Nat) (c : GetCall) (peer : String) (items : List DataItem)
      (hc : s.gets[j]? = some c) (hstatus : c.status = .deciding) (hpeer : peer ∈ c.peers)
      (hnew : peer ∉ c.taken) (hitems : (peer, items) ∈ c.inflight) :
      Step v s .other { s with gets := s.gets.set j (c.take v peer (some items)) }
  | getError (j : Nat) (c : GetCall) (peer : String) (hc : s.gets[j]? = some c)
      (hstatus : c.status = .deciding) (hpeer : peer ∈ c.peers) (hnew : peer ∉ c.taken) :
      Step v s .other { s with gets := s.gets.set j (c.take v peer none) }
  | getCancel (j : Nat) (c : GetCall) (hc : s.gets[j]? = some c) (hstatus : c.status = .deciding) :
      Step v s .other { s with gets := s.gets.set j { c with status := .canceled } }
  | merge (node key : String) (item : DataItem) (faults : Faults) (ok : Bool) (ds : DataStore)
      (hmerge : (s.stores node).mergeReplicated faults key item = (ok, ds)) :
      Step v s (.merge key) (s.setStore node ds)
  | maintain (node : String) (layers : Layers) :
      Step v s (.maintain (s.stores node).persister layers)
        (s.setStore node { s.stores node with persister := layers })

/-- A run that starts with any stores and nothing under way, all of whose events are
allowed. -/
inductive Run (v : View) (allowed : Event → Prop) : Cluster → Prop
  | start (stores : String → DataStore) : Run v allowed ⟨stores, [], [], [], [], []⟩
  | step {s s' : Cluster} {e : Event} (hrun : Run v allowed s) (he : allowed e)
      (hstep : Step v s e s') : Run v allowed s'

/-- The node's store has a version of `key` at or after clock `c`. -/
def Holds (s : Cluster) (key node : String) (c : VectorClock) : Prop :=
  Covers vectorClock ((s.stores node).persister.getAll key) c

end Cluster

/-- No rollback of `key`, and nothing of `key` that a store covers gets lost in a flush, a
compaction or a restart. -/
def Event.Keeps (key : String) : Event → Prop
  | .rollback k => k ≠ key
  | .maintain before after =>
    ∀ c, Covers vectorClock (before.getAll key) c → Covers vectorClock (after.getAll key) c
  | _ => True

/-- The storage engine's own steps are of this kind for a key that is only put : flushes,
compactions, segment deletions, and a crash with the Open after it. -/
theorem Event.keeps_of_engine {fileSize : List Entry → Nat} {maxBytes : Int} {key : String}
    {t : Engine.Trace} {e e' : Engine} {a : EngineAct}
    (h : Engine.Run fileSize maxBytes (Engine.PutsOnly key) t e) (ha : Engine.PutsOnly key t e a)
    (hstep : e.step fileSize a = some e') : Event.Keeps key (.maintain e.layers e'.layers) :=
  fun _ => Engine.covers_getAll_step h ha hstep

/-! ## Stores only cover more -/

theorem DataStore.covers_versions {ds : DataStore} {key : String} {c : VectorClock} :
    Covers vectorClock (ds.versions key) c ↔ Covers vectorClock (ds.persister.getAll key) c := by
  simp [Covers, DataStore.versions]

theorem DataStore.reverse_of_get {ds : DataStore} {faults : Faults} {key : String}
    {items : List DataItem} (h : ds.get faults key = some items) :
    items.reverse = ds.persister.getAll key := by
  unfold get load at h
  split at h
  · cases h
  · rw [← Option.some.inj h, versions, List.reverse_reverse]

theorem DataStore.covers_of_get {ds : DataStore} {faults : Faults} {key : String}
    {items : List DataItem} (h : ds.get faults key = some items) {c : VectorClock}
    (hc : Covers vectorClock (ds.persister.getAll key) c) : Covers vectorClock items c := by
  rw [← DataStore.reverse_of_get h] at hc
  exact hc.mono fun y hy => List.mem_reverse.mp hy

theorem DataStore.covers_put {ds ds' : DataStore} {faults : Faults} {key value k : String}
    {context : Option Snapshot} {item : DataItem} {c : VectorClock}
    (h : ds.put faults key value context = (some item, ds')) :
    Covers vectorClock (ds'.persister.getAll k) c ↔
      Covers vectorClock (ds.persister.getAll k) c ∨ (k = key ∧ c ≤ item.vectorClock) := by
  obtain ⟨base, -, -, rfl⟩ := DataStore.put_eq_some h
  exact Layers.covers_getAll_put

theorem DataStore.covers_mergeReplicated {ds ds' : DataStore} {faults : Faults} {key k : String}
    {item : DataItem} {ok : Bool} {c : VectorClock}
    (h : ds.mergeReplicated faults key item = (ok, ds')) :
    Covers vectorClock (ds'.persister.getAll k) c ↔
      Covers vectorClock (ds.persister.getAll k) c ∨
        (ok = true ∧ k = key ∧ c ≤ item.vectorClock) := by
  unfold DataStore.mergeReplicated at h
  split at h
  · cases h
    simp
  · cases h
    simpa using Layers.covers_getAll_put

namespace Cluster

variable {v : View} {s s' : Cluster} {e : Event} {key : String}

theorem holds_setStore {node p : String} {ds : DataStore} {c : VectorClock}
    (h : s.Holds key p c)
    (hds : Covers vectorClock ((s.stores node).persister.getAll key) c →
      Covers vectorClock (ds.persister.getAll key) c) : (s.setStore node ds).Holds key p c := by
  unfold Holds setStore at *
  by_cases hp : p = node
  · subst hp
    simpa using hds h
  · simpa [Function.update_of_ne hp] using h

/-- What a store covers it keeps covering, unless the key is rolled back. -/
theorem covers_step (hstep : Step v s e s') (he : e.Keeps key) {p : String} {c : VectorClock}
    (h : s.Holds key p c) : s'.Holds key p c := by
  cases hstep with
  | putWrite i q faults item ds hq hput =>
    exact holds_setStore h fun hc => (DataStore.covers_put hput).mpr (Or.inl hc)
  | deliver i q peer faults ok ds hq hpeer hmerge | merge node k item faults ok ds hmerge =>
    exact holds_setStore h fun hc => (DataStore.covers_mergeReplicated hmerge).mpr (Or.inl hc)
  | rollback =>
    refine holds_setStore h fun hc => ?_
    rw [DataStore.restoreVersions, Layers.getAll_restore_of_ne _ _ (Ne.symm he)]
    exact hc
  | maintain => exact holds_setStore h fun hc => he c hc
  | _ => exact h

/-! ## The invariant -/

/-- Enough distinct replicas of the key. -/
structure WriteQuorum (v : View) (key : String) (Q : List String) : Prop where
  nodup : Q.Nodup
  replicas : ∀ q ∈ Q, q ∈ v.preferenceList key
  size : v.quorum.W ≤ Q.length

/-- A Put of the key is held wherever it was merged. -/
def PutHeld (key : String) (holds : String → VectorClock → Prop) (c : PutCall) : Prop :=
  c.key = key → ∀ p, p = c.node ∨ p ∈ c.applied → holds p c.item.vectorClock

/-- Every Put is on a replica and counts right. -/
structure Tracked (v : View) (s : Cluster) : Prop where
  started : ∀ p ∈ s.started, p.node ∈ v.preferenceList p.key
  puts : ∀ c ∈ s.puts, c.node ∈ v.preferenceList c.key ∧ c.Counted v

def HeldByQuorum (v : View) (key : String) (holds : String → VectorClock → Prop)
    (c : VectorClock) : Prop :=
  ∃ Q, WriteQuorum v key Q ∧ ∀ q ∈ Q, holds q c

/-- For every Put that returned before the Get started : a write quorum still holds it,
and whatever an answer of one of them contributed covers it. -/
def GetGood (v : View) (key : String) (holds : String → VectorClock → Prop) (c : GetCall) : Prop :=
  c.Counted v ∧ (c.key = key → ∀ item, (key, item) ∈ c.earlier → ∃ Q, WriteQuorum v key Q ∧
    ∀ q ∈ Q, holds q item.vectorClock ∧
      (q ∈ c.answered → Covers vectorClock c.merged item.vectorClock) ∧
      ∀ items, (q, items) ∈ c.inflight → Covers vectorClock items item.vectorClock)

structure Inv (v : View) (key : String) (holds : String → VectorClock → Prop) (s : Cluster) :
    Prop extends Tracked v s where
  held : ∀ c ∈ s.puts, PutHeld key holds c
  returned : ∀ item, (key, item) ∈ s.returned → HeldByQuorum v key holds item.vectorClock
  gets : ∀ c ∈ s.gets, GetGood v key holds c

variable {holds holds' : String → VectorClock → Prop}

theorem Inv.mono (h : Inv v key holds s) (hmono : ∀ p c, holds p c → holds' p c) :
    Inv v key holds' s where
  toTracked := h.toTracked
  held := fun c hc hk p hp => hmono _ _ (h.held c hc hk p hp)
  returned := fun item hitem => by
    obtain ⟨Q, hQ, hheld⟩ := h.returned item hitem
    exact ⟨Q, hQ, fun q hq => hmono _ _ (hheld q hq)⟩
  gets := fun c hc => by
    obtain ⟨hcount, hgood⟩ := h.gets c hc
    refine ⟨hcount, fun hk item hitem => ?_⟩
    obtain ⟨Q, hQ, hheld⟩ := hgood hk item hitem
    exact ⟨Q, hQ, fun q hq => ⟨hmono _ _ (hheld q hq).1, (hheld q hq).2⟩⟩

/-- The replicas that acknowledged a Put are a write quorum that holds its item. -/
theorem PutHeld.quorum {c : PutCall} (hheld : PutHeld c.key holds c)
    (hc : c.node ∈ v.preferenceList c.key ∧ c.Counted v) (hacked : c.status = .acked) :
    HeldByQuorum v c.key holds c.item.vectorClock := by
  obtain ⟨hnode, hcount⟩ := hc
  obtain ⟨hnd, hsub, hsize⟩ := hcount.quorum hnode hacked
  refine ⟨c.node :: c.acks, ⟨hnd, hsub, hsize⟩, fun q hq => hheld rfl q ?_⟩
  exact (List.mem_cons.mp hq).imp_right (hcount.acks_applied q)

theorem mem_noteReturned {c : PutCall} {returned : List (String × DataItem)} {x : DataItem}
    (hx : (key, x) ∈ noteReturned c returned) :
    (key, x) ∈ returned ∨ (c.status = .acked ∧ c.key = key ∧ c.item = x) := by
  unfold noteReturned at hx
  split at hx
  · next hacked =>
    rcases List.mem_cons.mp hx with heq | hx
    · cases heq
      exact Or.inr ⟨hacked.1, rfl, rfl⟩
    · exact Or.inl hx
  · exact Or.inl hx

theorem returned_noteReturned {c : PutCall} {returned : List (String × DataItem)}
    (hc : c.node ∈ v.preferenceList c.key ∧ c.Counted v) (hheld : PutHeld key holds c)
    (h : ∀ item, (key, item) ∈ returned → HeldByQuorum v key holds item.vectorClock) :
    ∀ item, (key, item) ∈ noteReturned c returned → HeldByQuorum v key holds item.vectorClock := by
  intro item hitem
  rcases mem_noteReturned hitem with hold | ⟨hacked, rfl, rfl⟩
  · exact h item hold
  · exact hheld.quorum hc hacked

/-- One call of a list is replaced by a good one. -/
theorem forall_mem_set {α : Type*} {P : α → Prop} {l : List α} (h : ∀ x ∈ l, P x) {i : Nat} {y : α}
    (hy : P y) : ∀ x ∈ l.set i y, P x := by
  intro x hx
  rcases List.mem_or_eq_of_mem_set hx with hx | rfl
  · exact h x hx
  · exact hy

theorem forall_mem_concat {α : Type*} {P : α → Prop} {l : List α} (h : ∀ x ∈ l, P x) {y : α}
    (hy : P y) : ∀ x ∈ l ++ [y], P x := by
  intro x hx
  rcases List.mem_append.mp hx with hx | hx
  · exact h x hx
  · exact List.mem_singleton.mp hx ▸ hy

/-- A Get that starts now : its local answer covers what its node holds. -/
theorem getGood_start (hreturned : ∀ item, (key, item) ∈ s.returned →
      HeldByQuorum v key (s.Holds key) item.vectorClock) (node k : String) (faults : Faults) :
    GetGood v key (s.Holds key)
      (GetCall.start v node k ((s.stores node).get faults k) s.returned) := by
  refine ⟨GetCall.counted_start .., fun hk item hitem => ?_⟩
  obtain rfl : k = key := hk
  obtain ⟨Q, hQ, hheld⟩ := hreturned item hitem
  refine ⟨Q, hQ, fun q hq => ⟨hheld q hq, fun hans => ?_, by simp [GetCall.start]⟩⟩
  cases hget : (s.stores node).get faults k with
  | none => simp [GetCall.start, hget] at hans
  | some =>
    obtain ⟨hrep, rfl⟩ : (isReplicaFor v node k).1 = true ∧ q = node := by
      simpa [GetCall.start, hget] using hans
    simp only [GetCall.start, hrep, if_true, Option.getD_some]
    exact DataStore.covers_of_get hget (hheld q hq)

theorem GetGood.fetch {c : GetCall} (h : GetGood v key (s.Holds key) c) {peer : String}
    {faults : Faults} {items : List DataItem}
    (hread : (s.stores peer).get faults c.key = some items) :
    GetGood v key (s.Holds key) { c with inflight := (peer, items) :: c.inflight } := by
  obtain ⟨hcount, hgood⟩ := h
  refine ⟨{ hcount with }, fun hk item hitem => ?_⟩
  obtain ⟨Q, hQ, hheld⟩ := hgood hk item hitem
  refine ⟨Q, hQ, fun q hq => ?_⟩
  obtain ⟨hq', hans, hin⟩ := hheld q hq
  refine ⟨hq', hans, fun items' hmem => ?_⟩
  rcases List.mem_cons.mp hmem with heq | hmem
  · cases heq
    obtain rfl : c.key = key := hk
    exact DataStore.covers_of_get hread hq'
  · exact hin items' hmem

theorem GetGood.take {c : GetCall} (h : GetGood v key holds c) {peer : String}
    (hpeer : peer ∈ c.peers) (hnew : peer ∉ c.taken) (result : Option (List DataItem))
    (hresult : ∀ items, result = some items → (peer, items) ∈ c.inflight) :
    GetGood v key holds (c.take v peer result) := by
  obtain ⟨hcount, hgood⟩ := h
  refine ⟨hcount.take hpeer hnew result, ?_⟩
  cases result with
  | none => exact hgood
  | some items =>
    intro hk item hitem
    obtain ⟨Q, hQ, hheld⟩ := hgood hk item hitem
    refine ⟨Q, hQ, fun q hq => ?_⟩
    obtain ⟨hq', hans, hin⟩ := hheld q hq
    refine ⟨hq', fun hmem => covers_mergeSiblings ?_, hin⟩
    rcases List.mem_cons.mp hmem with rfl | hmem
    · exact Or.inr (hin items (hresult items rfl))
    · exact Or.inl (hans hmem)

theorem mem_replicas_of_isReplicaFor {node k : String} (h : (isReplicaFor v node k).1 = true) :
    node ∈ v.preferenceList k := by
  simpa [isReplicaFor] using h

theorem tracked_step (h : Tracked v s) (hstep : Step v s e s') : Tracked v s' := by
  cases hstep with
  | putRead node k value context faults prevVersions hreplica
  | forwardSend f c replica rest faults prevVersions hc hstatus hsent hnext hreplica =>
    exact { h with
      started := forall_mem_concat h.started (mem_replicas_of_isReplicaFor hreplica) }
  | putWrite i p faults item ds hp =>
    exact ⟨fun q hq => h.started q (List.mem_of_mem_eraseIdx hq), forall_mem_concat h.puts
      ⟨h.started p (List.mem_of_getElem? hp), PutCall.counted_start ..⟩⟩
  | putFail =>
    exact { h with started := fun q hq => h.started q (List.mem_of_mem_eraseIdx hq) }
  | deliver i c peer faults ok ds hc =>
    obtain ⟨hnode, hcount⟩ := h.puts c (List.mem_of_getElem? hc)
    refine { h with puts := forall_mem_set h.puts ⟨hnode, ?_⟩ }
    cases ok with
    | false => exact hcount
    | true => exact hcount.apply peer
  | putResult i c peer ok hc hstatus hpeer hnew hok =>
    obtain ⟨hnode, hcount⟩ := h.puts c (List.mem_of_getElem? hc)
    exact { h with puts := forall_mem_set h.puts ⟨hnode, hcount.take hpeer hnew hok⟩ }
  | putCancel i c hc | rollback i c hc | rollbackFail i c hc =>
    obtain ⟨hnode, hcount⟩ := h.puts c (List.mem_of_getElem? hc)
    exact { h with puts := forall_mem_set h.puts ⟨hnode, hcount.setStatus (by simp)⟩ }
  | _ => exact { h with }

/-- The invariant is kept by every step that rolls nothing of the key back. -/
theorem inv_step (hinv : Inv v key (s.Holds key) s) (hstep : Step v s e s') (he : e.Keeps key) :
    Inv v key (s'.Holds key) s' := by
  have h : Inv v key (s'.Holds key) s := hinv.mono fun p c => covers_step hstep he
  have ht := tracked_step hinv.toTracked hstep
  cases hstep with
  | putWrite i p faults item ds hp hput =>
    have hheld : PutHeld key (Holds (s.setStore p.node ds) key)
        (PutCall.start v p.node p.key p.client p.prevVersions item) := by
      intro hk q hq
      obtain rfl : q = p.node := by simpa [PutCall.start] using hq
      obtain rfl : p.key = key := hk
      have : Covers vectorClock (ds.persister.getAll p.key) item.vectorClock :=
        (DataStore.covers_put hput).mpr (Or.inr ⟨rfl, le_rfl⟩)
      simpa [Holds, setStore, PutCall.start] using this
    exact { h with
      toTracked := ht
      held := forall_mem_concat h.held hheld
      returned := returned_noteReturned (ht.puts _ (by simp)) hheld h.returned }
  | deliver i c peer faults ok ds hc hpeer hmerge =>
    have hheld := h.held c (List.mem_of_getElem? hc)
    refine { h with toTracked := ht, held := forall_mem_set h.held ?_ }
    cases ok with
    | false => exact hheld
    | true =>
      intro hk q hq
      have hq' : (q = c.node ∨ q ∈ c.applied) ∨ q = peer := by
        simp only [if_true, List.mem_cons] at hq
        tauto
      rcases hq' with hq | rfl
      · exact hheld hk q hq
      · obtain rfl : c.key = key := hk
        have : Covers vectorClock (ds.persister.getAll c.key) c.item.vectorClock :=
          (DataStore.covers_mergeReplicated hmerge).mpr (Or.inr ⟨rfl, rfl, le_rfl⟩)
        simpa [Holds, setStore] using this
  | putResult i c peer ok hc hstatus hpeer hnew hok =>
    have hheld : PutHeld key (s.Holds key) (c.take v peer ok) := h.held c (List.mem_of_getElem? hc)
    obtain ⟨hnode, hcount⟩ := h.puts c (List.mem_of_getElem? hc)
    exact { h with
      toTracked := ht
      held := forall_mem_set h.held hheld
      returned := returned_noteReturned ⟨hnode, hcount.take hpeer hnew hok⟩ hheld h.returned }
  | putCancel i c hc | rollback i c hc | rollbackFail i c hc =>
    have hheld := h.held c (List.mem_of_getElem? hc)
    exact { h with toTracked := ht, held := forall_mem_set h.held hheld }
  | forwardAnswer f i c p hc hstatus hp hclient hnode hacked =>
    refine { h with returned := fun item hitem => ?_ }
    rcases List.mem_cons.mp hitem with heq | hitem
    · cases heq
      have hmem := List.mem_of_getElem? hp
      exact (h.held p hmem).quorum (h.puts p hmem) hacked
    · exact h.returned item hitem
  | getStart node k faults =>
    exact { h with gets := forall_mem_concat h.gets (getGood_start h.returned node k faults) }
  | fetch j c peer faults items hc hpeer hread =>
    exact { h with gets := forall_mem_set h.gets ((h.gets c (List.mem_of_getElem? hc)).fetch hread) }
  | getResult j c peer items hc hstatus hpeer hnew hitems =>
    have hgood := (h.gets c (List.mem_of_getElem? hc)).take hpeer hnew (some items) (by
      rintro _ ⟨⟩
      exact hitems)
    exact { h with gets := forall_mem_set h.gets hgood }
  | getError j c peer hc hstatus hpeer hnew =>
    have hgood := (h.gets c (List.mem_of_getElem? hc)).take hpeer hnew none (by simp)
    exact { h with gets := forall_mem_set h.gets hgood }
  | getCancel j c hc =>
    obtain ⟨hcount, hgood⟩ := h.gets c (List.mem_of_getElem? hc)
    have hcanceled : GetGood v key (s.Holds key) { c with status := .canceled } :=
      ⟨{ hcount with returned := by simp }, hgood⟩
    exact { h with gets := forall_mem_set h.gets hcanceled }
  | _ => exact { h with toTracked := ht }

theorem inv_of_run (h : Run v (Event.Keeps key) s) : Inv v key (s.Holds key) s := by
  induction h with
  | start => exact ⟨⟨by simp, by simp⟩, by simp, by simp, by simp⟩
  | step hrun he hstep ih => exact inv_step ih hstep he

/-- A Get that returns without error returns, for every Put of the key that had returned
nil when it started, a version whose clock is Equal to or After the Put's. -/
theorem get_covers_acked (hN : 1 ≤ v.quorum.N) (hquorum : v.quorum.N < v.quorum.W + v.quorum.R)
    (h : Run v (Event.Keeps key) s) {c : GetCall} (hc : c ∈ s.gets) (hkey : c.key = key)
    (hreturned : c.status = .returned) {item : DataItem} (hitem : (key, item) ∈ c.earlier) :
    ∃ w ∈ c.merged, w.vectorClock.compare item.vectorClock = .equal ∨
      w.vectorClock.compare item.vectorClock = .after := by
  obtain ⟨hcount, hgood⟩ := (inv_of_run h).gets c hc
  obtain ⟨Q, hQ, hheld⟩ := hgood hkey item hitem
  have hsize : v.quorum.R ≤ c.answered.length := hcount.successes_eq ▸ hcount.returned hreturned
  have hlen := HashRing.length_getPreferenceList_le v.ring key hN
  have hreplicas := hcount.answered_replicas
  rw [hkey] at hreplicas
  obtain ⟨q, hqQ, hqA⟩ := exists_common hQ.nodup hcount.answered_nodup hQ.replicas hreplicas (by
    have := hQ.size
    unfold View.preferenceList
    omega)
  obtain ⟨w, hw, hle⟩ := (hheld q hqQ).2.1 hqA
  refine ⟨w, hw, ?_⟩
  by_cases hge : w.vectorClock ≤ item.vectorClock
  · exact Or.inl (VectorClock.compare_eq_equal.mpr ⟨hge, hle⟩)
  · exact Or.inr (VectorClock.compare_eq_after.mpr (lt_of_le_not_ge hle hge))

theorem Run.next (h : Run v (Event.Keeps key) s) (hstep : Step v s e s') (he : e.Keeps key) :
    Run v (Event.Keeps key) s' :=
  h.step he hstep

/-- Three members, one position each; three replicas, quorums of two. -/
def trioView : View :=
  ⟨(HashRing.fromMembers 1 ["A", "B", "C"]).toOption.getD (HashRing.new 1), ⟨3, 2, 2⟩⟩

def emptyStore (node : String) : DataStore :=
  ⟨node, node, ⟨MemTable.new 1000, none, []⟩⟩

/-- A Put through A that B acknowledges, then a Get through C that B answers. -/
theorem get_covers_acked_trio : ∃ (s : Cluster) (c : GetCall) (item : DataItem),
    Run trioView (Event.Keeps "k") s ∧ c ∈ s.gets ∧ c.status = .returned ∧
    ("k", item) ∈ c.earlier ∧ ∃ w ∈ c.merged,
      w.vectorClock.compare item.vectorClock = .equal ∨
        w.vectorClock.compare item.vectorClock = .after := by
  have h0 : Run trioView (Event.Keeps "k") _ := .start emptyStore
  have h1 := h0.next (.putRead "A" "k" "x" none noFaults [] (by decide +kernel)
    (by decide +kernel)) trivial
  have h2 := h1.next (.putWrite 0 _ noFaults _ _ rfl rfl) trivial
  have h3 := h2.next (.deliver 0 _ "B" noFaults true _ rfl (by decide +kernel) rfl) trivial
  have h4 := h3.next (.putResult 0 _ "B" true rfl (by decide +kernel) (by decide +kernel)
    (by decide +kernel) (by decide +kernel)) trivial
  have h5 := h4.next (.getStart "C" "k" noFaults) trivial
  have h6 := h5.next (.fetch 0 _ "B" noFaults _ rfl (by decide +kernel) rfl) trivial
  have h7 := h6.next (.getResult 0 _ "B" _ rfl (by decide +kernel) (by decide +kernel)
    (by decide +kernel) List.mem_cons_self) trivial
  refine ⟨_, _, _, h7, List.mem_singleton_self _, by decide +kernel, List.mem_singleton_self _, ?_⟩
  exact get_covers_acked (by decide) (by decide) h7 (List.mem_singleton_self _) rfl
    (by decide +kernel) (List.mem_singleton_self _)

end Cluster

end DistributedKV
