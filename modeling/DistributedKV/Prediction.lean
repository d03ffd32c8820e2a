import DistributedKV.Forwarding
import DistributedKV.Topology

/-!
# The predictor agrees with the node

`expect` counts replicas on one side of a fault. A node counts answers : it coordinates a Put
with its peers, forwards one to the first replica that takes it, or collects the answers to a
Get. Here a node of the topology runs these during a fault. The peers `Fault.cuts` it off from
are unavailable or marked dead and the others succeed, in any order.

Both sides come down to the number of replicas the target is not cut off from : `expect_eq`
for the predictor, `PutRun.reached_iff` and `status_loop` for the node. A forwarded Put is
coordinated on the target's own side (`cuts_eq_of_not_cuts`), so its coordinator counts the
same replicas.
-/

namespace DistributedKV

/-- The waiting loop of a Get, over the results in the order they arrive. -/
def GetCall.loop (v : View) (result : String → Option (List DataItem)) :
    GetCall → List String → GetCall
  | c, [] => c
  | c, peer :: rest =>
    if c.status = .deciding then loop v result (c.take v peer (result peer)) rest else c

namespace Chaos

/-! ## Who reaches whom -/

/-- Whether `node` can't reach `peer` during the fault. -/
def Fault.cuts (f : Fault) (node peer : String) : Bool :=
  match f.kind with
  | .none => false
  | .down => decide (peer ∈ f.pods)
  | .partition => decide (peer ∈ f.pods) != decide (node ∈ f.pods)

/-- Whether the pod is up. -/
def Fault.Live (f : Fault) (node : String) : Prop :=
  ¬(f.kind = .down ∧ node ∈ f.pods)

theorem Fault.Live.not_cuts {f : Fault} {node : String} (h : f.Live node) :
    f.cuts node node = false := by
  unfold Fault.cuts
  split
  · rfl
  · next hkind => simpa [Fault.Live, hkind] using h
  · simp

/-- Two pods that reach each other are cut off from the same ones. -/
theorem cuts_eq_of_not_cuts {f : Fault} {node other : String} (h : f.cuts node other = false) :
    f.cuts other = f.cuts node := by
  funext peer
  unfold Fault.cuts at h ⊢
  split
  · rfl
  · rfl
  · next hkind =>
    simp only [hkind, bne_eq_false_iff_eq] at h
    rw [h]

namespace Topology

variable (t : Topology) (f : Fault) (key : String)

/-- The key's replicas that `node` reaches. -/
def inReach (node : String) : Nat :=
  (t.replicas key).countP fun r => !f.cuts node r

variable {t f key}

theorem expect_eq {op : Op} {target : String} (hkind : f.kind ≠ .none) (hlive : f.Live target)
    (hne : target ≠ "") :
    t.expect f op key target = t.outcomeOf op (t.inReach f key target) := by
  unfold expect
  split
  · next h => exact absurd h hkind
  · next h =>
    have hup : ¬(target ≠ "" ∧ target ∈ f.pods) := fun hin => hlive ⟨h, hin.2⟩
    rw [if_neg hup]
    simp [inReach, reach, Fault.cuts, h]
  · next h =>
    rw [if_neg hne]
    congr 1
    refine List.countP_congr fun r _ => ?_
    simp [Fault.cuts, h]

theorem unreachable_eq {target : String} (hne : target ≠ "") :
    t.unreachable f key target = ((t.replicas key).countP (f.cuts target) : Nat) := by
  have hcuts : ∀ r ∈ t.replicas key, f.cuts target r =
      ((decide (f.kind = .down) && decide (r ∈ f.pods)) ||
        (decide (f.kind = .partition) && (decide (r ∈ f.pods) !=
          decide (f.kind = .partition ∧ target ∈ f.pods)))) := by
    intro r _
    cases hkind : f.kind <;> simp [Fault.cuts, hkind]
  unfold unreachable
  split_ifs with hnone hservice
  · rw [List.countP_eq_zero.mpr fun r _ => by simp [Fault.cuts, hnone], Nat.cast_zero]
  · exact absurd hservice.2 hne
  · exact congrArg Nat.cast (List.countP_congr fun r hr => by rw [hcuts r hr])

theorem outcomeOf_eq_ok {op : Op} {n : Nat} : t.outcomeOf op n = .ok ↔ t.need op ≤ n := by
  unfold outcomeOf
  split_ifs with h <;> simpa using h

theorem nodup_replicas : (t.replicas key).Nodup :=
  HashRing.nodup_getPreferenceList t.ring key (by have := t.one_le_w; have := t.w_le_n; omega)

theorem isReplicaFor_view (node : String) :
    isReplicaFor t.view node key =
      (decide (node ∈ t.replicas key), (t.replicas key).filter (· ≠ node)) :=
  rfl

/-- The peers of a node that is no replica are all replicas. -/
theorem peers_of_not_mem {node : String} (hmem : node ∉ t.replicas key) :
    (t.replicas key).filter (· ≠ node) = t.replicas key :=
  List.filter_eq_self.mpr fun _ hr => decide_eq_true fun he => hmem (he ▸ hr)

/-- A replica counts itself and its peers. -/
theorem countP_peers {node : String} (hmem : node ∈ t.replicas key) (q : String → Bool) :
    (t.replicas key).countP q =
      (if q node then 1 else 0) + ((t.replicas key).filter (· ≠ node)).countP q := by
  have hperm := List.perm_cons_erase hmem
  have hpeers : (t.replicas key).erase node = (t.replicas key).filter (· ≠ node) := by
    rw [nodup_replicas.erase_eq_filter]
    exact List.filter_congr fun x _ => by simp [bne, beq_eq_decide]
  rw [hperm.countP_eq, List.countP_cons, hpeers, Nat.add_comm]

end Topology

/-! ## Coordinating -/

section Puts

variable (t : Topology) (f : Fault) (key value : String) (context : Option Snapshot)

/-- How a peer's Replicate ends during the fault. -/
def Fault.outcome (f : Fault) (node peer : String) : ReplicaOutcome :=
  if f.cuts node peer then .unavailable else .success

/-- A `putAsReplica` at `node` that ran to its end : the node's own store works, and the
fan-out ended as `c` says. -/
structure PutRun (node : String) (c : Coordination) (s : FanOut) : Prop where
  read : (c.readStore.get c.readFaults key).isSome
  write : (c.writeStore.put c.writeFaults key value context).1.isSome
  run : Relation.ReflTransGen
    (FanOut.Step t.w (f.outcome node) ((t.replicas key).filter (· ≠ node)))
    (FanOut.start t.w ((t.replicas key).filter (· ≠ node))) s
  quiet : FanOut.Quiet t.w (f.outcome node) ((t.replicas key).filter (· ≠ node)) s
  returned : s.phase = .returned c.exit

variable {t f key value context}

theorem successes_outcome (node : String) (peers : List String) :
    FanOut.successes (f.outcome node) peers = peers.countP fun r => !f.cuts node r := by
  refine List.countP_congr fun r _ => ?_
  simp [Fault.outcome]

theorem unavailableOf_outcome (node : String) (peers : List String) :
    (FanOut.unavailableOf (f.outcome node) peers).length = peers.countP (f.cuts node) := by
  rw [List.countP_eq_length_filter]
  congr 1
  refine List.filter_congr fun r _ => ?_
  cases h : f.cuts node r <;> simp [Fault.outcome, h]

variable {node : String} {c : Coordination} {s : FanOut}

theorem PutRun.reached_iff (h : PutRun t f key value context node c s) (hlive : f.Live node)
    (hmem : node ∈ t.replicas key) : c.exit = .reached ↔ t.w ≤ t.inReach f key node := by
  have hreached := FanOut.reached_iff_of_quiet h.run h.quiet
  rw [h.returned, successes_outcome] at hreached
  rw [Topology.inReach, Topology.countP_peers hmem]
  simpa [hlive.not_cuts] using hreached

/-- The hints are for the replicas the coordinator can't reach. -/
theorem PutRun.hints (h : PutRun t f key value context node c s) (hlive : f.Live node)
    (hmem : node ∈ t.replicas key) (hexit : c.exit = .reached) (hstored : s.lost = []) :
    s.hints.length = (t.replicas key).countP (f.cuts node) := by
  obtain ⟨hinv, hopen, -⟩ := FanOut.uninterrupted_of_run h.run
  have hkept : s.phase.exit ≠ some .impossible := by
    rw [h.returned, hexit]
    simp [FanOut.CallPhase.exit]
  rw [((hinv.taken h.quiet hopen).2 hkept hstored).length_eq, unavailableOf_outcome,
    Topology.countP_peers hmem]
  simp [hlive.not_cuts]

/-- `node` and nobody else coordinated the write. -/
def Wrote (node : String) (events : List WriteEvent) : Prop :=
  (∀ e ∈ events, ∀ x, e.coordinator = some x → x = node) ∧
    ∃ item, WriteEvent.version node item ∈ events

variable (quote : String → String) {v : View}

theorem PutRun.putAsReplica (h : PutRun t f key value context node c s) (peers : List String) :
    ((Forward.putAsReplica quote key value context v node peers c).1 = none ↔
      c.exit = .reached) ∧
    Wrote node (Forward.putAsReplica quote key value context v node peers c).2 := by
  obtain ⟨items, hread⟩ := Option.isSome_iff_exists.mp h.read
  obtain ⟨item, hwrite⟩ := Option.isSome_iff_exists.mp h.write
  have hput : c.writeStore.put c.writeFaults key value context =
      (some item, (c.writeStore.put c.writeFaults key value context).2) := Prod.ext hwrite rfl
  refine ⟨?_, (@Forward.byOne_putAsReplica quote key value context v node peers c).coordinator,
    item, ?_⟩
  all_goals
    unfold Forward.putAsReplica
    rw [hread, hput]
    cases c.exit <;> simp

/-! ## Forwarding -/

variable (t f key value context)

/-- What the forwarding target meets at a replica : nothing across the fault, and otherwise
a server with the same view that runs the write to its end. -/
def Met (target replica : String) (a : Forward.Attempt) (s : FanOut) : Prop :=
  if f.cuts target replica then
    a.dead = true ∨ a.clientError.isSome ∨ ∃ text, a.delivery = .undelivered .unavailable text
  else
    a.dead = false ∧ a.clientError = none ∧ a.delivery = .answered ∧
      a.receiver.node = replica ∧ a.receiver.view = t.view ∧ a.receiver.coord = true ∧
      a.receiver.badValue = none ∧ PutRun t f key value context replica a.receiver.coordination s

variable {t f key value context}

/-- A replica's server answers nil or with a code that ends the loop. -/
theorem PutRun.serverCoordinatePut {r : Forward.Receiver}
    (h : PutRun t f key value context r.node r.coordination s) (hview : r.view = t.view)
    (hcoord : r.coord = true) (hvalue : r.badValue = none) (hmem : r.node ∈ t.replicas key) :
    ((Forward.serverCoordinatePut quote key value context r).1 = none ↔
      r.coordination.exit = .reached) ∧
    (∀ err, (Forward.serverCoordinatePut quote key value context r).1 = some err →
      ¬Forward.Retryable err) ∧
    Wrote r.node (Forward.serverCoordinatePut quote key value context r).2 := by
  have hcoordinate : Forward.coordinatePut quote key value context r.view r.node r.coordination =
      Forward.putAsReplica quote key value context r.view r.node
        ((t.replicas key).filter (· ≠ r.node)) r.coordination := by
    unfold Forward.coordinatePut
    rw [hview, Topology.isReplicaFor_view, decide_eq_true hmem]
  obtain ⟨hnil, hwrote⟩ := h.putAsReplica quote (v := r.view)
    ((t.replicas key).filter (· ≠ r.node))
  unfold Forward.serverCoordinatePut
  rw [if_neg (by simp [hcoord]), hvalue, hcoordinate]
  dsimp only
  split
  · next events heq =>
    rw [heq] at hnil hwrote
    exact ⟨hnil, fun err herr => by simp at herr, hwrote⟩
  · next err events heq =>
    have hreplica := Forward.not_notReplica_of_putAsReplica (congrArg Prod.fst heq)
    rw [heq] at hnil hwrote
    rw [if_neg (by simp [hreplica])]
    split_ifs
    · refine ⟨by simpa using hnil, fun e he => ?_, hwrote⟩
      cases he
      exact Forward.not_retryable_fromContextError err
    · refine ⟨by simpa using hnil, fun e he => ?_, hwrote⟩
      cases he
      simp [Forward.Retryable, GoError.code, GoError.status?]

variable {target r : String} {attempts : Nat → Forward.Attempt} {i : Nat} {run : String → FanOut}

/-- The loop goes on past a replica across the fault, and nothing has happened there. -/
theorem Met.skip (h : Met t f key value context target r (attempts i) s)
    (hcut : f.cuts target r = true) (failures : List GoError) (rest : List String) :
    ∃ failures', Forward.forwardPut quote key value context none attempts i failures (r :: rest) =
      Forward.forwardPut quote key value context none attempts (i + 1) failures' rest := by
  simp only [Met, hcut, if_true] at h
  rw [Forward.forwardPut]
  by_cases hdead : (attempts i).dead = true
  · exact ⟨_, if_pos hdead⟩
  · dsimp only
    rw [if_neg hdead]
    cases hclient : (attempts i).clientError with
    | some => exact ⟨_, rfl⟩
    | none =>
      obtain ⟨text, hdelivery⟩ :
          ∃ text, (attempts i).delivery = .undelivered .unavailable text := by
        simpa [hdead, hclient] using h
      refine ⟨failures ++ [.wrap ("replica " ++ quote r) (.status .unavailable text)], ?_⟩
      simp [Forward.Attempt.call, hdelivery, Forward.TransportCode.code, GoError.code,
        GoError.status?]

/-- The loop ends at a replica on the target's side. -/
theorem Met.answer (h : Met t f key value context target r (attempts i) s)
    (hcut : f.cuts target r = false) (hmem : r ∈ t.replicas key) (failures : List GoError)
    (rest : List String) :
    ∃ c, PutRun t f key value context r c s ∧
      ((Forward.forwardPut quote key value context none attempts i failures (r :: rest)).1 =
        none ↔ c.exit = .reached) ∧
      Wrote r
        (Forward.forwardPut quote key value context none attempts i failures (r :: rest)).2 := by
  simp only [Met, hcut, Bool.false_eq_true, if_false] at h
  obtain ⟨hdead, hclient, hdelivery, rfl, hview, hcoord, hvalue, hrun⟩ := h
  obtain ⟨hnil, hlast, hwrote⟩ := hrun.serverCoordinatePut quote hview hcoord hvalue hmem
  have hcall : (attempts i).call quote key value context none =
      Forward.serverCoordinatePut quote key value context (attempts i).receiver := by
    simp only [Forward.Attempt.call, hdelivery]
  refine ⟨_, hrun, ?_⟩
  rw [Forward.forwardPut]
  simp only [hdead, hclient, hcall, Bool.false_eq_true, if_false]
  split
  · next events heq =>
    rw [heq] at hnil hwrote
    exact ⟨hnil, hwrote⟩
  · next err events heq =>
    rw [heq] at hnil hwrote hlast
    have hcode : err.code ≠ .unavailable ∧ err.code ≠ .failedPrecondition := by
      simpa [Forward.Retryable] using hlast err rfl
    rw [if_pos hcode]
    exact ⟨by simpa using hnil, hwrote⟩

/-- The loop ends at the first replica on the target's side, or with an error. -/
theorem forwardPut_met :
    ∀ (replicas : List String) (i : Nat) (failures : List GoError),
      (∀ r ∈ replicas, r ∈ t.replicas key) →
      (∀ j r, replicas[j]? = some r →
        Met t f key value context target r (attempts (i + j)) (run r)) →
      ((Forward.forwardPut quote key value context none attempts i failures replicas).1 ≠ none ∧
        ∀ r ∈ replicas, f.cuts target r = true) ∨
      ∃ r ∈ replicas, f.cuts target r = false ∧ ∃ c, PutRun t f key value context r c (run r) ∧
        ((Forward.forwardPut quote key value context none attempts i failures replicas).1 = none ↔
          c.exit = .reached) ∧
        Wrote r (Forward.forwardPut quote key value context none attempts i failures replicas).2
  | [], i, failures, _, _ => Or.inl ⟨by simp [Forward.forwardPut], by simp⟩
  | r :: rest, i, failures, hmem, hmet => by
    have hfirst : Met t f key value context target r (attempts i) (run r) := hmet 0 r rfl
    cases hcut : f.cuts target r with
    | false =>
      exact Or.inr ⟨r, List.mem_cons_self, hcut,
        hfirst.answer quote hcut (hmem r List.mem_cons_self) failures rest⟩
    | true =>
      obtain ⟨failures', heq⟩ := hfirst.skip quote hcut failures rest
      rw [heq]
      have hrest := forwardPut_met rest (i + 1) failures' (fun x hx => hmem x (.tail _ hx))
        fun j x hx => by
          have := hmet (j + 1) x hx
          rwa [← Nat.add_assoc, Nat.add_right_comm] at this
      rcases hrest with ⟨herr, hall⟩ | ⟨x, hx, hlater⟩
      · exact Or.inl ⟨herr, List.forall_mem_cons.mpr ⟨hcut, hall⟩⟩
      · exact Or.inr ⟨x, .tail _ hx, hlater⟩

variable (t f key value context)

/-- A Put sent to `target` during the fault : the target coordinates it, or meets the replicas
one after the other. `run` are the fan-outs of the nodes that may coordinate it. -/
structure PutDuring (target : String) (c : Coordination) (attempts : Nat → Forward.Attempt)
    (run : String → FanOut) : Prop where
  own : target ∈ t.replicas key → PutRun t f key value context target c (run target)
  met : target ∉ t.replicas key → ∀ i r, (t.replicas key)[i]? = some r →
    Met t f key value context target r (attempts i) (run r)

variable {t f key value context}

/-- A Put succeeds exactly when the target reaches W replicas, and its coordinator then has
a hint for each of the others, if it could store them. -/
theorem PutDuring.nodePut (h : PutDuring t f key value context target c attempts run)
    (hlive : f.Live target) :
    ((Forward.nodePut quote key value context t.view target c none attempts).1 = none ↔
      t.w ≤ t.inReach f key target) ∧
    ((Forward.nodePut quote key value context t.view target c none attempts).1 = none →
      ∃ coordinator,
        Wrote coordinator
          (Forward.nodePut quote key value context t.view target c none attempts).2 ∧
        ((run coordinator).lost = [] →
          (run coordinator).hints.length = (t.replicas key).countP (f.cuts target))) := by
  unfold Forward.nodePut
  rw [Topology.isReplicaFor_view]
  by_cases hmem : target ∈ t.replicas key
  · have hrun := h.own hmem
    have hreached := hrun.reached_iff hlive hmem
    obtain ⟨hnil, hwrote⟩ := hrun.putAsReplica quote (v := t.view)
      ((t.replicas key).filter (· ≠ target))
    rw [decide_eq_true hmem]
    exact ⟨hnil.trans hreached, fun hok =>
      ⟨target, hwrote, hrun.hints hlive hmem (hnil.mp hok)⟩⟩
  · rw [decide_eq_false hmem, Topology.peers_of_not_mem hmem]
    dsimp only
    rcases forwardPut_met quote (t.replicas key) 0 [] (fun _ hr => hr)
        (fun j r hr => by simpa using h.met hmem j r hr) with
      ⟨herr, hall⟩ | ⟨r, hr, hcut, c', hrun, hnil, hwrote⟩
    · -- No replica is on the target's side.
      have hnone : t.inReach f key target = 0 :=
        List.countP_eq_zero.mpr fun r hr => by simp [hall r hr]
      have := t.one_le_w
      exact ⟨iff_of_false herr (by omega), fun hok => absurd hok herr⟩
    · have hsame := cuts_eq_of_not_cuts hcut
      have hup : f.Live r := by
        rintro ⟨hdown, hin⟩
        simp [Fault.cuts, hdown, hin] at hcut
      have hreached := hrun.reached_iff hup hr
      have hhints := hrun.hints hup hr
      rw [Topology.inReach, hsame] at hreached
      rw [hsame] at hhints
      refine ⟨hnil.trans hreached, fun hok => ⟨r, ⟨?_, ?_⟩, hhints (hnil.mp hok)⟩⟩
      · intro e he x hx
        rcases List.mem_cons.mp he with rfl | he
        · cases hx
        · exact hwrote.1 e he x hx
      · exact hwrote.2.imp fun item hitem => .tail _ hitem

/-- Every Put has such a run that loses no hint, from any store that works. -/
theorem exists_putDuring (t : Topology) (f : Fault) (key value : String)
    (context : Option Snapshot) (target : String) (base : Coordination)
    (hread : (base.readStore.get base.readFaults key).isSome)
    (hwrite : (base.writeStore.put base.writeFaults key value context).1.isSome) :
    ∃ c attempts run, PutDuring t f key value context target c attempts run ∧
      ∀ node, (run node).lost = [] := by
  have hruns : ∀ node, ∃ s exit,
      PutRun t f key value context node { base with exit := exit } s ∧ s.lost = [] := by
    intro node
    obtain ⟨s, hrun, hquiet, hlost⟩ := FanOut.exists_quiet_keeping
      (@FanOut.inv_start t.w (f.outcome node) ((t.replicas key).filter (· ≠ node)))
    obtain ⟨exit, hexit⟩ := ((FanOut.uninterrupted_of_run hrun).1.quiet hquiet).2.1
    exact ⟨s, exit, ⟨hread, hwrite, hrun, hquiet, hexit⟩, hlost⟩
  choose run exit hrun hlost using hruns
  refine ⟨_, fun i => ⟨f.cuts target ((t.replicas key)[i]?.getD ""), none, .answered,
    ⟨(t.replicas key)[i]?.getD "", t.view, true, none,
      { base with exit := exit ((t.replicas key)[i]?.getD "") }⟩⟩, run,
    ⟨fun _ => hrun target, fun _ i r hr => ?_⟩, hlost⟩
  rw [Met, hr, Option.getD_some]
  split_ifs with hcut
  · exact Or.inl hcut
  · exact ⟨by simpa using hcut, rfl, rfl, rfl, rfl, rfl, rfl, hrun r⟩

end Puts

/-! ## Reading -/

section Gets

variable {v : View} {result : String → Option (List DataItem)}

/-- A Get with the results in `rest` to come, `n` answers in all : it waits for one of them,
or it has ended as the `n` answers say. -/
structure Pending (v : View) (result : String → Option (List DataItem)) (n : Nat) (c : GetCall)
    (rest : List String) : Prop where
  answers : c.tally.successes + rest.countP (fun p => (result p).isSome) = n
  total : c.tally.successes + c.tally.failures + rest.length = c.total
  left : c.taken.length + rest.length = c.peers.length
  status : (c.status = .deciding ∧ rest ≠ []) ∨
    c.status = if v.quorum.R ≤ n then .returned else .failed

theorem Pending.take {n : Nat} {c : GetCall} {peer : String} {rest : List String}
    (h : Pending v result n c (peer :: rest)) :
    Pending v result n (c.take v peer (result peer)) rest := by
  have hanswers := h.answers
  have htotal := h.total
  have hleft := h.left
  have hle : rest.countP (fun p => (result p).isSome) ≤ rest.length := List.countP_le_length
  rw [List.countP_cons] at hanswers
  rw [List.length_cons] at htotal hleft
  have hstatus : ∀ tally : Tally,
      tally.successes + rest.countP (fun p => (result p).isSome) = n →
      tally.successes + tally.failures + rest.length = c.total →
      let status := GetStatus.ofVerdict (tally.next v.quorum.R c.total
        (c.peers.length - (peer :: c.taken).length))
      (status = .deciding ∧ rest ≠ []) ∨
        status = if v.quorum.R ≤ n then .returned else .failed := by
    intro tally ha ht
    rw [List.length_cons]
    simp only [Tally.next]
    split_ifs <;> simp only [GetStatus.ofVerdict, reduceCtorEq, false_and, or_false, or_true,
      true_and] <;> first | omega | exact List.ne_nil_of_length_pos (by omega)
  cases hresult : result peer with
  | none =>
    simp only [hresult, Option.isSome_none, Bool.false_eq_true, if_false] at hanswers
    refine ⟨by simpa [GetCall.take, Tally.add] using hanswers, ?_, ?_, hstatus _ ?_ ?_⟩
    all_goals simp [GetCall.take, Tally.add]; omega
  | some =>
    simp only [hresult, Option.isSome_some, if_true] at hanswers
    refine ⟨?_, ?_, ?_, hstatus _ ?_ ?_⟩
    all_goals simp [GetCall.take, Tally.add]; omega

/-- The loop ends, and as the number of answers says. -/
theorem status_loop {n : Nat} : ∀ {order : List String} {c : GetCall},
    Pending v result n c order →
    (GetCall.loop v result c order).status = if v.quorum.R ≤ n then .returned else .failed
  | [], c, h => h.status.resolve_left fun hwait => hwait.2 rfl
  | peer :: rest, c, h => by
    unfold GetCall.loop
    by_cases hstatus : c.status = .deciding
    · rw [if_pos hstatus]
      exact status_loop h.take
    · rw [if_neg hstatus]
      exact h.status.resolve_left fun hwait => hstatus hwait.1

/-- The first verdict, with `own` answers before the loop. -/
theorem pending_of_start (own : Nat) {n : Nat} {c : GetCall} {order : List String}
    (htally : c.tally = ⟨own, 0⟩) (htotal : c.total = own + order.length) (htaken : c.taken = [])
    (hpeers : c.peers.length = order.length)
    (hstatus : c.status = .ofVerdict (Tally.first v.quorum.R order.length ⟨own, 0⟩))
    (hn : own + order.countP (fun r => (result r).isSome) = n) : Pending v result n c order := by
  refine ⟨by rw [htally]; exact hn, by rw [htally, htotal]; rfl, by rw [htaken, hpeers]; simp, ?_⟩
  rw [hstatus, Tally.first]
  dsimp only
  by_cases henough : own ≥ v.quorum.R
  · rw [if_pos henough, if_pos (by omega)]
    exact Or.inr rfl
  · rw [if_neg henough]
    cases order with
    | nil =>
      rw [List.countP_nil] at hn
      rw [if_neg (show ¬v.quorum.R ≤ n by omega)]
      exact Or.inr rfl
    | cons r rest => exact Or.inl ⟨rfl, List.cons_ne_nil r rest⟩

variable {t : Topology} {f : Fault} {key target : String}

/-- A Get that starts at a live target gets an answer from each replica it reaches. -/
theorem pending_start (hlive : f.Live target) (items : List DataItem)
    (earlier : List (String × DataItem)) {order : List String}
    (horder : order.Perm (isReplicaFor t.view target key).2)
    (hresult : ∀ r ∈ order, (result r).isSome = !f.cuts target r) :
    Pending t.view result (t.inReach f key target)
      (GetCall.start t.view target key (some items) earlier) order := by
  have hlen := horder.length_eq
  rw [Topology.isReplicaFor_view] at horder hlen
  have hcount : order.countP (fun r => (result r).isSome) =
      ((t.replicas key).filter (· ≠ target)).countP fun r => !f.cuts target r := by
    rw [List.countP_congr fun r hr => by rw [hresult r hr], horder.countP_eq]
  by_cases hmem : target ∈ t.replicas key
  · refine pending_of_start 1 ?_ ?_ rfl hlen.symm ?_ ?_
    · simp [GetCall.start, Topology.isReplicaFor_view, hmem]
    · simp [GetCall.start, Topology.isReplicaFor_view, hmem, hlen, Nat.add_comm]
    · simp [GetCall.start, Topology.isReplicaFor_view, hmem, hlen]
    · rw [Topology.inReach, Topology.countP_peers hmem, hcount]
      simp [hlive.not_cuts]
  · refine pending_of_start 0 ?_ ?_ rfl hlen.symm ?_ ?_
    · simp [GetCall.start, Topology.isReplicaFor_view, hmem]
    · simp [GetCall.start, Topology.isReplicaFor_view, hmem, hlen]
    · simp [GetCall.start, Topology.isReplicaFor_view, hmem, hlen]
    · rw [Topology.inReach, hcount, Topology.peers_of_not_mem hmem, Nat.zero_add]

end Gets

/-! ## The predictor and the node -/

/-- For a live target, during a fault : the view a node builds is the topology's; a Put
returns nil exactly when `expect` says ok, however it is coordinated or forwarded, and one that
does leaves `unreachable` hints at its coordinator; a Get ends, and returns versions exactly
when `expect` says ok, in whatever order the answers come. -/
theorem expect_agrees (t : Topology) (f : Fault) (key target : String) (hkind : f.kind ≠ .none)
    (hpod : (t.pod target).isSome) (hlive : f.Live target) :
    (∀ fp epoch, ∃ cv, buildView fp epoch (membersOf t.pods) t.n = .ok cv ∧
      (⟨cv.ring, ⟨t.n, t.w, t.r⟩⟩ : View) = t.view) ∧
    (∀ quote value context c attempts run,
      PutDuring t f key value context target c attempts run →
      let put := Forward.nodePut quote key value context t.view target c none attempts
      (put.1 = none ↔ t.expect f .put key target = .ok) ∧
      (put.1 = none → ∃ coordinator, Wrote coordinator put.2 ∧
        ((run coordinator).lost = [] →
          ((run coordinator).hints.length : Int) = t.unreachable f key target))) ∧
    (∀ items earlier result order, order.Perm (isReplicaFor t.view target key).2 →
      (∀ r ∈ order, (result r).isSome = !f.cuts target r) →
      (GetCall.loop t.view result (GetCall.start t.view target key (some items) earlier)
        order).status = if t.expect f .get key target = .ok then .returned else .failed) := by
  have hne := t.ne_empty_of_pod hpod
  have hexpect : ∀ op, t.expect f op key target = .ok ↔ t.need op ≤ t.inReach f key target :=
    fun op => by rw [Topology.expect_eq hkind hlive hne, Topology.outcomeOf_eq_ok]
  refine ⟨fun fp epoch => ?_, ?_, ?_⟩
  · obtain ⟨cv, hv⟩ := t.exists_view fp epoch t.n
    exact ⟨cv, hv, by rw [t.ring_of_view hv]; rfl⟩
  · intro quote value context c attempts run hduring
    obtain ⟨hnil, hhints⟩ := hduring.nodePut quote hlive
    refine ⟨hnil.trans (hexpect .put).symm, fun hok => ?_⟩
    obtain ⟨coordinator, hwrote, hstored⟩ := hhints hok
    refine ⟨coordinator, hwrote, fun hlost => ?_⟩
    rw [Topology.unreachable_eq hne, hstored hlost]
  · intro items earlier result order horder hresult
    rw [status_loop (pending_start hlive items earlier horder hresult)]
    simp only [hexpect]
    rfl

/-- One of three pods is cut off from the others, and the target is on the other side. -/
theorem expect_agrees_cutOff : ∃ (c : Coordination) (attempts : Nat → Forward.Attempt)
    (run : String → FanOut),
    PutDuring threePods ⟨.partition, ["A"]⟩ "k" "1" none "B" c attempts run ∧
      (∀ node, (run node).lost = []) ∧
      ((Forward.nodePut id "k" "1" none threePods.view "B" c none attempts).1 = none ↔
        threePods.expect ⟨.partition, ["A"]⟩ .put "k" "B" = .ok) := by
  obtain ⟨c, attempts, run, hduring, hlost⟩ := exists_putDuring threePods ⟨.partition, ["A"]⟩
    "k" "1" none "B" (Forward.emptyCoordination "B") (by decide +kernel) (by decide +kernel)
  refine ⟨c, attempts, run, hduring, hlost, ?_⟩
  exact ((expect_agrees threePods ⟨.partition, ["A"]⟩ "k" "B" (by decide) (by decide +kernel)
    (by simp [Fault.Live])).2.1 id "1" none c attempts run hduring).1

end Chaos

end DistributedKV
