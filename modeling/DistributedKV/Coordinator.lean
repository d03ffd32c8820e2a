import DistributedKV.Versioning
import DistributedKV.HashRing

/-!
# Coordinating a write or a read

A node that gets a request for a key asks the ring whether it is one of the key's
replicas. A replica that coordinates a Put writes locally, sends the versioned item to the
other replicas and counts their answers until W is reached or out of reach
(`PutCall`); a Get counts answers the same way up to R and folds them as they come
(`GetCall`). Both loops share one way of counting (`Tally`).

`PutCall.Counted` and `GetCall.Counted` say what the counters mean : as many distinct
nodes answered as were counted. `exists_common` is the intersection of a write quorum and
a read quorum.
-/

namespace DistributedKV

/-- Replication factor, write quorum and read quorum. -/
structure QuorumConfig where
  N : Nat
  W : Nat
  R : Nat

/-- What every node holds of a fixed membership. -/
structure View where
  ring : HashRing
  quorum : QuorumConfig

def View.preferenceList (v : View) (key : String) : List String :=
  v.ring.getPreferenceList key v.quorum.N

/-- Whether `self` is one of the key's replicas, and the other ones. -/
def isReplicaFor (v : View) (self key : String) : Bool × List String :=
  let preferenceList := v.preferenceList key
  (decide (self ∈ preferenceList), preferenceList.filter (· ≠ self))

/-! ## Counting answers -/

inductive Verdict
  | waiting
  | reached
  | failed
deriving DecidableEq

structure Tally where
  successes : Nat
  failures : Nat
deriving DecidableEq

namespace Tally

def add (t : Tally) (ok : Bool) : Tally :=
  if ok then { t with successes := t.successes + 1 } else { t with failures := t.failures + 1 }

/-- Before the loop : enough already, or nobody left to ask. -/
def first (needed left : Nat) (t : Tally) : Verdict :=
  if t.successes ≥ needed then .reached else if left = 0 then .failed else .waiting

/-- After a result, with `left` results outstanding. A loop that runs out of results has
failed. -/
def next (needed total left : Nat) (t : Tally) : Verdict :=
  if t.successes ≥ needed then .reached
  else if total - t.failures < needed then .failed
  else if left = 0 then .failed
  else .waiting

theorem reached_of_first {needed left : Nat} {t : Tally} (h : t.first needed left = .reached) :
    needed ≤ t.successes := by
  unfold first at h
  split at h
  · assumption
  · split at h <;> cases h

theorem reached_of_next {needed total left : Nat} {t : Tally}
    (h : t.next needed total left = .reached) : needed ≤ t.successes := by
  unfold next at h
  split at h
  · assumption
  · split at h
    · cases h
    · split at h <;> cases h

end Tally

/-! ## Puts -/

inductive PutStatus
  /-- Waiting for results. -/
  | deciding
  /-- Returned nil. -/
  | acked
  /-- The quorum is out of reach; the local write is about to be rolled back. -/
  | failing
  | rolledBack
  /-- The caller gave up; the local write stands. -/
  | canceled
deriving DecidableEq

/-- A `putAsReplica` after its local write. -/
structure PutCall where
  node : String
  key : String
  /-- The forwarding call this one answers. -/
  client : Option Nat
  prevVersions : List DataItem
  item : DataItem
  peers : List String
  /-- The peers that have merged the item. -/
  applied : List String
  /-- The results taken so far. -/
  results : List (String × Bool)
  tally : Tally
  status : PutStatus

def PutStatus.ofVerdict : Verdict → PutStatus
  | .waiting => .deciding
  | .reached => .acked
  | .failed => .failing

theorem PutStatus.ofVerdict_eq_acked {verdict : Verdict} :
    PutStatus.ofVerdict verdict = .acked ↔ verdict = .reached := by
  cases verdict <;> simp [PutStatus.ofVerdict]

namespace PutCall

def start (v : View) (node key : String) (client : Option Nat) (prevVersions : List DataItem)
    (item : DataItem) : PutCall :=
  let peers := (isReplicaFor v node key).2
  { node := node, key := key, client := client, prevVersions := prevVersions, item := item
    peers := peers, applied := [], results := [], tally := ⟨1, 0⟩
    status := .ofVerdict (Tally.first v.quorum.W peers.length ⟨1, 0⟩) }

/-- Take one replica's result. -/
def take (v : View) (c : PutCall) (peer : String) (ok : Bool) : PutCall :=
  let tally := c.tally.add ok
  let results := (peer, ok) :: c.results
  { c with
    results := results, tally := tally
    status := .ofVerdict
      (tally.next v.quorum.W (c.peers.length + 1) (c.peers.length - results.length)) }

/-- The peers that answered with success. -/
def acks (c : PutCall) : List String :=
  (c.results.filter Prod.snd).map Prod.fst

/-- The counter counts the node itself and the peers that answered. -/
structure Counted (v : View) (c : PutCall) : Prop where
  peers_eq : c.peers = (isReplicaFor v c.node c.key).2
  results_peers : ∀ r ∈ c.results, r.1 ∈ c.peers
  results_nodup : (c.results.map Prod.fst).Nodup
  acks_applied : ∀ p ∈ c.acks, p ∈ c.applied
  successes_eq : c.tally.successes = 1 + c.acks.length
  acked : c.status = .acked → v.quorum.W ≤ c.tally.successes

theorem counted_start (v : View) (node key : String) (client : Option Nat)
    (prevVersions : List DataItem) (item : DataItem) :
    Counted v (start v node key client prevVersions item) where
  peers_eq := rfl
  results_peers := by simp [start]
  results_nodup := by simp [start]
  acks_applied := by simp [start, acks]
  successes_eq := by simp [start, acks]
  acked := fun h => Tally.reached_of_first (PutStatus.ofVerdict_eq_acked.mp h)

theorem Counted.take {v : View} {c : PutCall} (h : Counted v c) {peer : String} {ok : Bool}
    (hpeer : peer ∈ c.peers) (hnew : peer ∉ c.results.map Prod.fst)
    (hok : ok = true → peer ∈ c.applied) : Counted v (c.take v peer ok) where
  peers_eq := h.peers_eq
  results_peers := List.forall_mem_cons.mpr ⟨hpeer, h.results_peers⟩
  results_nodup := List.nodup_cons.mpr ⟨hnew, h.results_nodup⟩
  acks_applied := by
    intro p hp
    cases ok with
    | false => exact h.acks_applied p (by simpa [acks, PutCall.take] using hp)
    | true =>
      have hp' : p = peer ∨ p ∈ c.acks := by simpa [acks, PutCall.take] using hp
      rcases hp' with rfl | hp
      · exact hok rfl
      · exact h.acks_applied p hp
  successes_eq := by
    have := h.successes_eq
    cases ok with
    | false => simpa [acks, PutCall.take, Tally.add] using this
    | true =>
      simp only [acks, List.length_map] at this
      simp [acks, PutCall.take, Tally.add, this]
      omega
  acked := fun hs => Tally.reached_of_next (PutStatus.ofVerdict_eq_acked.mp hs)

/-- The item was merged by one more peer. -/
theorem Counted.apply {v : View} {c : PutCall} (h : Counted v c) (peer : String) :
    Counted v { c with applied := peer :: c.applied } :=
  { h with acks_applied := fun p hp => List.mem_cons_of_mem _ (h.acks_applied p hp) }

/-- The status changes other than by a result. -/
theorem Counted.setStatus {v : View} {c : PutCall} (h : Counted v c) {status : PutStatus}
    (hs : status ≠ .acked) : Counted v { c with status := status } :=
  { h with acked := fun ha => absurd ha hs }

end PutCall

/-! ## Gets -/

inductive GetStatus
  | deciding
  | returned
  | failed
  | canceled
deriving DecidableEq

def GetStatus.ofVerdict : Verdict → GetStatus
  | .waiting => .deciding
  | .reached => .returned
  | .failed => .failed

theorem GetStatus.ofVerdict_eq_returned {verdict : Verdict} :
    GetStatus.ofVerdict verdict = .returned ↔ verdict = .reached := by
  cases verdict <;> simp [GetStatus.ofVerdict]

/-- A Get after its local read. -/
structure GetCall where
  node : String
  key : String
  peers : List String
  total : Nat
  merged : List DataItem
  /-- Responses and failures. -/
  tally : Tally
  /-- The nodes whose versions are in `merged`. -/
  answered : List String
  /-- The peers whose result was taken. -/
  taken : List String
  /-- Answers on their way. -/
  inflight : List (String × List DataItem)
  status : GetStatus
  /-- The Puts that had returned nil when this Get started. The source does not keep it. -/
  earlier : List (String × DataItem)

namespace GetCall

/-- The first part of a Get : a replica counts its own read, failed or not. -/
def start (v : View) (node key : String) (localItems : Option (List DataItem))
    (earlier : List (String × DataItem)) : GetCall :=
  let (isReplica, peers) := isReplicaFor v node key
  let tally : Tally := match isReplica, localItems with
    | false, _ => ⟨0, 0⟩
    | true, some _ => ⟨1, 0⟩
    | true, none => ⟨0, 1⟩
  { node := node, key := key, peers := peers
    total := if isReplica then peers.length + 1 else peers.length
    merged := if isReplica then localItems.getD [] else []
    tally := tally
    answered := if isReplica ∧ localItems.isSome then [node] else []
    taken := [], inflight := []
    status := .ofVerdict (tally.first v.quorum.R peers.length), earlier := earlier }

/-- Take one peer's result, its versions or an error. -/
def take (v : View) (c : GetCall) (peer : String) (result : Option (List DataItem)) : GetCall :=
  let tally := c.tally.add result.isSome
  let taken := peer :: c.taken
  let status := GetStatus.ofVerdict
    (tally.next v.quorum.R c.total (c.peers.length - taken.length))
  match result with
  | some items =>
    { c with
      merged := mergeSiblings c.merged items, answered := peer :: c.answered
      tally := tally, taken := taken, status := status }
  | none => { c with tally := tally, taken := taken, status := status }

/-- The counter counts distinct replicas that answered. -/
structure Counted (v : View) (c : GetCall) : Prop where
  peers_eq : c.peers = (isReplicaFor v c.node c.key).2
  answered_replicas : ∀ p ∈ c.answered, p ∈ v.preferenceList c.key
  answered_taken : ∀ p ∈ c.answered, p = c.node ∨ p ∈ c.taken
  answered_nodup : c.answered.Nodup
  successes_eq : c.tally.successes = c.answered.length
  returned : c.status = .returned → v.quorum.R ≤ c.tally.successes

theorem counted_start (v : View) (node key : String) (localItems : Option (List DataItem))
    (earlier : List (String × DataItem)) : Counted v (start v node key localItems earlier) := by
  refine ⟨rfl, ?_, ?_, ?_, ?_, fun h => Tally.reached_of_first (GetStatus.ofVerdict_eq_returned.mp h)⟩
  all_goals
    by_cases hrep : node ∈ v.preferenceList key <;> cases localItems <;>
      simp [start, isReplicaFor, hrep]

theorem Counted.take {v : View} {c : GetCall} (h : Counted v c) {peer : String}
    (hpeer : peer ∈ c.peers) (hnew : peer ∉ c.taken) (result : Option (List DataItem)) :
    Counted v (c.take v peer result) := by
  have hpeer' : peer ∈ v.preferenceList c.key ∧ peer ≠ c.node := by
    rw [h.peers_eq] at hpeer
    simpa [isReplicaFor] using hpeer
  cases result with
  | none =>
    exact { h with
      answered_taken := fun p hp => (h.answered_taken p hp).imp_right (List.mem_cons_of_mem _)
      successes_eq := by simpa [GetCall.take, Tally.add] using h.successes_eq
      returned := fun hs => Tally.reached_of_next (GetStatus.ofVerdict_eq_returned.mp hs) }
  | some =>
    exact {
      peers_eq := h.peers_eq
      answered_replicas := List.forall_mem_cons.mpr ⟨hpeer'.1, h.answered_replicas⟩
      answered_taken := List.forall_mem_cons.mpr ⟨Or.inr List.mem_cons_self,
        fun p hp => (h.answered_taken p hp).imp_right (List.mem_cons_of_mem _)⟩
      answered_nodup := by
        refine List.nodup_cons.mpr ⟨fun hmem => ?_, h.answered_nodup⟩
        rcases h.answered_taken peer hmem with he | ht
        · exact hpeer'.2 he
        · exact hnew ht
      successes_eq := by simpa [GetCall.take, Tally.add] using h.successes_eq
      returned := fun hs => Tally.reached_of_next (GetStatus.ofVerdict_eq_returned.mp hs) }

end GetCall

/-! ## Quorums intersect -/

/-- Two lists of distinct elements of `P` that are together longer than `P` meet. -/
theorem exists_common {A B P : List String} (hA : A.Nodup) (hB : B.Nodup)
    (hAP : ∀ x ∈ A, x ∈ P) (hBP : ∀ x ∈ B, x ∈ P) (h : P.length < A.length + B.length) :
    ∃ x ∈ A, x ∈ B := by
  by_contra hnone
  push Not at hnone
  have hnd : (A ++ B).Nodup :=
    List.nodup_append.mpr ⟨hA, hB, fun a ha b hb he => hnone a ha (he ▸ hb)⟩
  have hsub : A ++ B ⊆ P := by
    intro x hx
    rcases List.mem_append.mp hx with hx | hx
    · exact hAP x hx
    · exact hBP x hx
  have := (hnd.subperm hsub).length_le
  rw [List.length_append] at this
  omega

/-- The node and the peers that answered are distinct replicas. -/
theorem PutCall.Counted.quorum {v : View} {c : PutCall} (h : c.Counted v)
    (hnode : c.node ∈ v.preferenceList c.key) (hacked : c.status = .acked) :
    (c.node :: c.acks).Nodup ∧ (∀ p ∈ c.node :: c.acks, p ∈ v.preferenceList c.key) ∧
      v.quorum.W ≤ (c.node :: c.acks).length := by
  have hpeers : ∀ p ∈ c.acks, p ∈ v.preferenceList c.key ∧ p ≠ c.node := by
    intro p hp
    obtain ⟨r, hr, rfl⟩ := List.mem_map.mp hp
    have := h.results_peers r (List.mem_filter.mp hr).1
    rw [h.peers_eq] at this
    simpa [isReplicaFor] using this
  refine ⟨List.nodup_cons.mpr ⟨fun hmem => (hpeers _ hmem).2 rfl, ?_⟩,
    List.forall_mem_cons.mpr ⟨hnode, fun p hp => (hpeers p hp).1⟩, ?_⟩
  · exact h.results_nodup.sublist (List.filter_sublist.map _)
  · have := h.acked hacked
    rw [h.successes_eq] at this
    simpa [Nat.add_comm] using this

end DistributedKV
