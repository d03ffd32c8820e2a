import DistributedKV.Coverage
import DistributedKV.Hints
import DistributedKV.AntiEntropy

/-!
# Hint delivery

A round goes through the targets it has ever held a hint for. It lists a target's hints and
sends them one after another with the ordinary Replicate; a hint the target has accepted is
marked delivered. A target that cannot be reached ends its turn, any other error leaves the
hint for the next round (`HintRoundStep`). Meanwhile hints are added, calls are committed in
batches, the hint store flushes, compacts and restarts, and the targets' stores go on
(`HintDelivery`).

`never_lost` : a hint that was added is covered by a pending hint or by a version in the
target's store, at every moment of every run. What is marked delivered was accepted, so its
clocks are covered at the target (`Inv.marked`), and whatever no marked clock covers is
still listed.

`round_delivers` : a round that has run to its end leaves of what had been added before it
began only what it reports, the targets it passed over and the hints it could not send or
mark. Everything else has reached its target and is listed no more. When it reports nothing
and nothing was added since, `nothing_pending` : no hint is left.
-/

open Maxima

namespace DistributedKV

open DataItem (vectorClock)
open Cluster (forall_mem_concat forall_mem_set)

/-! ## Rounds -/

/-- How far a `deliverHintsTo` is. -/
inductive TurnPhase
  | nextHint
  /-- Replicate is under way, and `rest` is what the target has not merged. -/
  | sending (hint : Hint) (rest : List DataItem)
  /-- Replicate returned nil, MarkDelivered is under way. -/
  | accepted (hint : Hint)

/-- A `deliverHintsTo` with the hints left after the current one. -/
structure Turn where
  target : String
  phase : TurnPhase
  pending : List Hint

/-- The hint being sent or marked. -/
def TurnPhase.current : TurnPhase → List Hint
  | .nextHint => []
  | .sending hint _ => [hint]
  | .accepted hint => [hint]

/-- What is not yet marked of the hints that were listed. -/
def Turn.hints (turn : Turn) : List Hint :=
  turn.phase.current ++ turn.pending

/-- A `deliverHints` round : the members it started with, and the targets left. -/
structure HintRound where
  members : List String
  todo : List String
  turn : Option Turn
  /-- The targets that were passed over, or whose hints could not be listed. -/
  missed : List String
  /-- The listed hints that were kept. -/
  left : List (String × Hint)
  /-- It got to counting what is pending. -/
  ended : Bool
  /-- What had been added for each target and key when it began. -/
  began : String → String → List DataItem

def HintRound.start (hints : HintStore) (members : List String) : HintRound :=
  ⟨members, targets hints.engine.layers, none, [], [], false, hints.added⟩

/-- The turn ends, and its other hints are kept. -/
def HintRound.endTurn (r : HintRound) (turn : Turn) : HintRound :=
  { r with turn := none, left := r.left ++ turn.hints.map (Prod.mk turn.target) }

/-- A step of a round on the hint store and the targets' stores. -/
inductive HintRoundStep (hints : HintStore) (stores : String → DataStore) (r : HintRound) :
    HintStore → (String → DataStore) → HintRound → Prop
  /-- The target is no member or is marked dead, or Pending fails. -/
  | pass (target : String) (todo : List String) (hidle : r.turn = none)
      (htodo : r.todo = target :: todo) :
      HintRoundStep hints stores r hints stores
        { r with todo := todo, missed := r.missed ++ [target] }
  | visit (target : String) (todo : List String) (hidle : r.turn = none)
      (htodo : r.todo = target :: todo) (hmember : target ∈ r.members) :
      HintRoundStep hints stores r
        { hints with
          seen := hints.seen ++ (pending hints.engine.layers target).map (Prod.mk target) }
        stores
        { r with
          todo := todo
          turn := some ⟨target, .nextHint, pending hints.engine.layers target⟩ }
  | send (turn : Turn) (hint : Hint) (rest : List Hint) (hturn : r.turn = some turn)
      (hphase : turn.phase = .nextHint) (hpending : turn.pending = hint :: rest) :
      HintRoundStep hints stores r hints stores
        { r with turn := some ⟨turn.target, .sending hint hint.items, rest⟩ }
  | merge (turn : Turn) (hint : Hint) (item : DataItem) (rest : List DataItem) (faults : Faults)
      (ds : DataStore) (hturn : r.turn = some turn)
      (hphase : turn.phase = .sending hint (item :: rest))
      (hmerge : (stores turn.target).mergeReplicated faults hint.key item = (true, ds)) :
      HintRoundStep hints stores r hints (Function.update stores turn.target ds)
        { r with turn := some { turn with phase := .sending hint rest } }
  | accept (turn : Turn) (hint : Hint) (hturn : r.turn = some turn)
      (hphase : turn.phase = .sending hint []) :
      HintRoundStep hints stores r hints stores
        { r with turn := some { turn with phase := .accepted hint } }
  /-- Unavailable or DeadlineExceeded, also after the target has merged all of it. -/
  | unreachable (turn : Turn) (hint : Hint) (rest : List DataItem) (hturn : r.turn = some turn)
      (hphase : turn.phase = .sending hint rest) :
      HintRoundStep hints stores r hints stores (r.endTurn turn)
  /-- Any other error. -/
  | refused (turn : Turn) (hint : Hint) (rest : List DataItem) (hturn : r.turn = some turn)
      (hphase : turn.phase = .sending hint rest) :
      HintRoundStep hints stores r hints stores
        { r with
          turn := some { turn with phase := .nextHint }
          left := r.left ++ [(turn.target, hint)] }
  | marked (turn : Turn) (hint : Hint) (hturn : r.turn = some turn)
      (hphase : turn.phase = .accepted hint)
      (hcall : .markDelivered turn.target hint.key hint.items ∈ hints.calls)
      (happlied : (HintCall.markDelivered turn.target hint.key hint.items).entry ∈
        hints.trace.applied) :
      HintRoundStep hints stores r hints stores
        { r with turn := some { turn with phase := .nextHint } }
  | markFailed (turn : Turn) (hint : Hint) (hturn : r.turn = some turn)
      (hphase : turn.phase = .accepted hint) :
      HintRoundStep hints stores r hints stores (r.endTurn turn)
  | turnDone (turn : Turn) (hturn : r.turn = some turn) (hphase : turn.phase = .nextHint)
      (hpending : turn.pending = []) :
      HintRoundStep hints stores r hints stores { r with turn := none }
  | finish (hidle : r.turn = none) (htodo : r.todo = []) :
      HintRoundStep hints stores r hints stores { r with ended := true }

/-- A node's hint store and its rounds, and the stores of all nodes. -/
structure HintDelivery where
  hints : HintStore
  stores : String → DataStore
  rounds : List HintRound

namespace HintDelivery

/-- Only a round marks a hint delivered, once the target has accepted it. -/
def Issues (s : HintDelivery) : HintCall → Prop
  | .add _ _ _ => True
  | .markDelivered target key items => ∃ r ∈ s.rounds, ∃ turn, r.turn = some turn ∧
    turn.target = target ∧ turn.phase = .accepted ⟨key, items⟩

/-- The hint store takes a step of its own, a node's store is written or read otherwise, or
a round begins, goes on or is given up. -/
inductive Step (fileSize : List Entry → Nat) (s : HintDelivery) : HintDelivery → Prop
  | store (a : HintAct) (hints : HintStore) (hcalls : ∀ calls ∈ a.calls, ∀ c ∈ calls, s.Issues c)
      (hstep : s.hints.step fileSize a = some hints) : Step fileSize s { s with hints := hints }
  | world (stores : String → DataStore)
      (hgrows : ∀ node key, Below vectorClock ((s.stores node).versions key)
        ((stores node).versions key)) : Step fileSize s { s with stores := stores }
  | begin (members : List String) :
      Step fileSize s { s with rounds := s.rounds ++ [HintRound.start s.hints members] }
  | round (i : Nat) (r r' : HintRound) (hints : HintStore) (stores : String → DataStore)
      (hr : s.rounds[i]? = some r) (hstep : HintRoundStep s.hints s.stores r hints stores r') :
      Step fileSize s ⟨hints, stores, s.rounds.set i r'⟩
  /-- It is canceled, or the node restarts. -/
  | stop (i : Nat) : Step fileSize s { s with rounds := s.rounds.eraseIdx i }

inductive Run (fileSize : List Entry → Nat) (maxBytes : Int) : HintDelivery → Prop
  | start (stores : String → DataStore) :
      Run fileSize maxBytes ⟨.create maxBytes, stores, []⟩
  | step {s t : HintDelivery} (hrun : Run fileSize maxBytes s) (hstep : Step fileSize s t) :
      Run fileSize maxBytes t

end HintDelivery

/-! ## The hint store only takes more -/

/-- Every version put is covered by one that is read. -/
theorem MaximaOf.covers {puts read : List DataItem} (h : MaximaOf puts read) {x : DataItem}
    (hx : x ∈ puts) : Covers vectorClock read x.vectorClock := by
  have hkept : Covers vectorClock (keepMax vectorClock puts) x.vectorClock :=
    covers_keepMax.mpr ⟨x, hx, le_rfl⟩
  obtain ⟨y, hy, hle⟩ := hkept
  obtain ⟨w, hw, heq⟩ := h.every y (mem_of_mem_keepMax hy) fun z hz hbefore =>
    not_lt_of_mem_keepMax hy hz (VectorClock.compare_eq_before.mp hbefore)
  exact ⟨w, hw, hle.trans (VectorClock.compare_eq_equal.mp heq).2⟩

namespace HintStore

variable {fileSize : List Entry → Nat} {maxBytes : Int} {st st' st'' : HintStore}
  {target key : String}

/-- What was called and what took effect is still there. -/
structure Grows (st st' : HintStore) : Prop where
  calls : ∀ c ∈ st.calls, c ∈ st'.calls
  applied : ∀ e ∈ st.trace.applied, e ∈ st'.trace.applied

theorem Grows.refl (st : HintStore) : st.Grows st :=
  ⟨fun _ hc => hc, fun _ he => he⟩

theorem Grows.step {a : HintAct} (hstep : st.step fileSize a = some st') : st.Grows st' := by
  constructor
  · rcases calls_step hstep with ⟨calls, -, hcalls⟩ | hcalls
    · rw [hcalls]
      exact fun c hc => List.mem_append_left _ hc
    · rw [hcalls]
      exact fun c hc => hc
  · unfold HintStore.step at hstep
    split at hstep
    case h_1 | h_3 =>
      split at hstep
      · obtain ⟨e, -, rfl⟩ := Option.map_eq_some_iff.mp hstep
        exact (Engine.applied_record ..).subset
      · cases hstep
    · cases hstep
    · cases hstep
      exact fun e he => he

theorem Grows.added (h : st.Grows st') : ∀ x ∈ st.added target key, x ∈ st'.added target key := by
  intro x hx
  obtain ⟨c, hc, hcx⟩ := List.mem_filterMap.mp hx
  refine List.mem_filterMap.mpr ⟨c, h.calls c hc, ?_⟩
  cases c with
  | add =>
    simp only [Option.ite_none_right_eq_some, Option.some.injEq] at hcx ⊢
    exact ⟨⟨hcx.1.1, hcx.1.2.1, h.applied _ hcx.1.2.2⟩, hcx.2⟩
  | markDelivered => simp at hcx

theorem Grows.delivered (h : st.Grows st') :
    ∀ x ∈ st.delivered target key, x ∈ st'.delivered target key := by
  intro x hx
  obtain ⟨items, hcall, hin, happlied⟩ := mem_delivered.mp hx
  exact mem_delivered.mpr ⟨items, h.calls _ hcall, hin, h.applied _ happlied⟩

theorem Grows.coveredSingly (h : st.Grows st') (hsingly : CoveredSingly st'.calls) :
    CoveredSingly st.calls :=
  fun c hc c' hc' => hsingly c (h.calls c hc) c' (h.calls c' hc')

/-- An added hint is marked delivered, or something pending covers it. -/
theorem Inv.listed_or_delivered (h : Inv fileSize maxBytes st) (hsingly : CoveredSingly st.calls)
    (htarget : '\x00' ∉ target.toList) {x : DataItem} (hx : x ∈ st.added target key) :
    Covers vectorClock (listed (pending st.engine.layers target) key) x.vectorClock ∨
      Covers vectorClock (st.delivered target key) x.vectorClock := by
  rw [listed_pending _ key htarget]
  by_cases hund : x ∈ st.undelivered target key
  · exact Or.inl ((h.maximaOf hsingly htarget).covers hund)
  · rw [mem_undelivered, not_and] at hund
    push Not at hund
    exact Or.inr (hund hx)

theorem mem_listed {hints : List Hint} {x : DataItem} :
    x ∈ listed hints key ↔ ∃ hint ∈ hints, hint.key = key ∧ x ∈ hint.items := by
  simp only [listed, List.mem_flatMap, List.mem_filter, decide_eq_true_eq, and_assoc]

/-- A target with an added hint is among the targets. -/
theorem Inv.mem_targets (h : Inv fileSize maxBytes st) {x : DataItem}
    (hx : x ∈ st.added target key) : target ∈ targets st.engine.layers := by
  obtain ⟨hcall, -, hput⟩ := h.mem_added hx
  obtain ⟨w, hw, -⟩ := (Engine.maximaOf_of_run (h.run (storageKey target key))).covers hput
  rw [targets, List.mem_insertionSort, List.mem_dedup, List.mem_filterMap]
  refine ⟨storageKey target key, Layers.mem_keys_of_mem_getAll hw, ?_⟩
  rw [splitKey_storageKey key (h.calls _ hcall).1]
  rfl

theorem target_of_mem_targets {l : Layers} (h : target ∈ targets l) : '\x00' ∉ target.toList := by
  rw [targets, List.mem_insertionSort, List.mem_dedup, List.mem_filterMap] at h
  obtain ⟨k, -, hk⟩ := h
  obtain ⟨⟨t, key⟩, hsplit, rfl⟩ := Option.map_eq_some_iff.mp hk
  exact (storageKey_of_splitKey hsplit).2

end HintStore

/-! ## What is marked was accepted -/

section Rounds

variable {fileSize : List Entry → Nat} {maxBytes : Int} {hints hints' : HintStore}
  {stores stores' : String → DataStore} {r r' : HintRound}

/-- The target's store covers a clock of the key. -/
def AtTarget (stores : String → DataStore) (target key : String) (c : VectorClock) : Prop :=
  Covers vectorClock ((stores target).versions key) c

/-- What the target has merged of the hint being sent, or all of one it has accepted. -/
def TurnPhase.Merged (stores : String → DataStore) (target : String) : TurnPhase → Prop
  | .nextHint => True
  | .sending hint rest =>
    ∀ x ∈ hint.items, x ∈ rest ∨ AtTarget stores target hint.key x.vectorClock
  | .accepted hint => ∀ x ∈ hint.items, AtTarget stores target hint.key x.vectorClock

theorem TurnPhase.Merged.mono {target : String} {phase : TurnPhase}
    (h : phase.Merged stores target)
    (hgrows : ∀ node key, Below vectorClock ((stores node).versions key)
      ((stores' node).versions key)) : phase.Merged stores' target := by
  cases phase with
  | nextHint => trivial
  | sending => exact fun x hx => (h x hx).imp_right (hgrows _ _ _)
  | accepted => exact fun x hx => hgrows _ _ _ (h x hx)

theorem HintRoundStep.hints_eq (hstep : HintRoundStep hints stores r hints' stores' r')
    (fileSize : List Entry → Nat) :
    hints' = hints ∨ ∃ target, hints.step fileSize (.list target) = some hints' := by
  cases hstep with
  | visit target => exact Or.inr ⟨target, rfl⟩
  | _ => exact Or.inl rfl

theorem HintRoundStep.grows (hstep : HintRoundStep hints stores r hints' stores' r')
    (node key : String) :
    Below vectorClock ((stores node).versions key) ((stores' node).versions key) := by
  cases hstep with
  | merge turn hint item rest faults ds hturn hphase hmerge =>
    by_cases hn : node = turn.target
    · subst hn
      rw [Function.update_self]
      intro c hc
      rw [DataStore.covers_versions] at hc ⊢
      exact (DataStore.covers_mergeReplicated hmerge).mpr (Or.inl hc)
    · rw [Function.update_of_ne hn]
      exact .refl _
  | _ => exact .refl _

theorem merged_step (hstep : HintRoundStep hints stores r hints' stores' r')
    (h : ∀ turn, r.turn = some turn → turn.phase.Merged stores turn.target) :
    ∀ turn, r'.turn = some turn → turn.phase.Merged stores' turn.target := by
  have hgrows := hstep.grows
  have hsome : ∀ {turn turn' : Turn}, some turn = some turn' →
      turn.phase.Merged stores' turn.target → turn'.phase.Merged stores' turn'.target :=
    fun heq => Option.some.inj heq ▸ id
  cases hstep with
  | pass => exact h
  | visit => exact fun turn heq => hsome heq trivial
  | send turn =>
    exact fun turn heq => hsome heq fun _ => Or.inl
  | merge turn hint item rest faults ds hturn hphase hmerge =>
    have hmerged := (h turn hturn).mono hgrows
    rw [hphase] at hmerged
    refine fun turn' heq => hsome heq fun x hx => ?_
    rcases hmerged x hx with hin | hreached
    · rcases List.mem_cons.mp hin with rfl | hin
      · refine Or.inr ?_
        rw [AtTarget, Function.update_self, DataStore.covers_versions]
        exact (DataStore.covers_mergeReplicated hmerge).mpr (Or.inr ⟨rfl, rfl, le_rfl⟩)
      · exact Or.inl hin
    · exact Or.inr hreached
  | accept turn hint hturn hphase =>
    have hmerged := h turn hturn
    rw [hphase] at hmerged
    exact fun turn' heq => hsome heq fun x hx => (hmerged x hx).resolve_left List.not_mem_nil
  | refused | marked => exact fun turn' heq => hsome heq trivial
  | unreachable | markFailed | turnDone => exact fun turn' heq => by cases heq
  | finish => exact h

end Rounds

namespace HintDelivery

variable {fileSize : List Entry → Nat} {maxBytes : Int} {s t : HintDelivery} {target key : String}

/-- The hint store is in order, what is marked delivered has reached its target, and so has
what a round says has. -/
structure Inv (fileSize : List Entry → Nat) (maxBytes : Int) (s : HintDelivery) : Prop where
  hints : HintStore.Inv fileSize maxBytes s.hints
  marked : ∀ target key items, .markDelivered target key items ∈ s.hints.calls →
    ∀ d ∈ items, AtTarget s.stores target key d.vectorClock
  rounds : ∀ r ∈ s.rounds, ∀ turn, r.turn = some turn → turn.phase.Merged s.stores turn.target

theorem Step.grows (hstep : Step fileSize s t) :
    s.hints.Grows t.hints ∧ ∀ node key, Below vectorClock ((s.stores node).versions key)
      ((t.stores node).versions key) := by
  cases hstep with
  | store a hints hcalls hstep => exact ⟨.step hstep, fun _ _ => .refl _⟩
  | world stores hgrows => exact ⟨.refl _, hgrows⟩
  | begin => exact ⟨.refl _, fun _ _ => .refl _⟩
  | round i r r' hints stores hr hstep =>
    refine ⟨?_, hstep.grows⟩
    rcases hstep.hints_eq fileSize with rfl | ⟨target, hlist⟩
    · exact .refl _
    · exact .step hlist
  | stop => exact ⟨.refl _, fun _ _ => .refl _⟩

theorem inv_step (h : Inv fileSize maxBytes s) (hstep : Step fileSize s t) :
    Inv fileSize maxBytes t := by
  have hgrows := hstep.grows.2
  have hmono : ∀ {calls : List HintCall},
      (∀ target key items, .markDelivered target key items ∈ calls →
        ∀ d ∈ items, AtTarget s.stores target key d.vectorClock) →
      ∀ target key items, .markDelivered target key items ∈ calls →
        ∀ d ∈ items, AtTarget t.stores target key d.vectorClock :=
    fun hcalls target key items hcall d hd =>
      hgrows target key _ (hcalls target key items hcall d hd)
  cases hstep with
  | store a hints hcalls hstep =>
    refine ⟨HintStore.inv_step h.hints hstep, ?_, h.rounds⟩
    rcases HintStore.calls_step hstep with ⟨calls, rfl, hcalls'⟩ | hcalls'
    · intro target key items hcall d hd
      rw [hcalls', List.mem_append] at hcall
      rcases hcall with hcall | hcall
      · exact h.marked target key items hcall d hd
      · obtain ⟨r, hr, turn, hturn, rfl, hphase⟩ := hcalls calls rfl _ hcall
        have hmerged := h.rounds r hr turn hturn
        rw [hphase] at hmerged
        exact hmerged d hd
    · rw [hcalls']
      exact h.marked
  | world stores hgrows =>
    exact ⟨h.hints, hmono h.marked, fun r hr turn hturn => (h.rounds r hr turn hturn).mono hgrows⟩
  | begin =>
    exact ⟨h.hints, h.marked, forall_mem_concat h.rounds (by simp [HintRound.start])⟩
  | round i r r' hints stores hr hstep =>
    have hround := merged_step hstep (h.rounds r (List.mem_of_getElem? hr))
    refine ⟨?_, ?_, forall_mem_set (fun r hr turn hturn => (h.rounds r hr turn hturn).mono hgrows)
      hround⟩
    · rcases hstep.hints_eq fileSize with rfl | ⟨target, hlist⟩
      · exact h.hints
      · exact HintStore.inv_step h.hints hlist
    · refine hmono ?_
      rcases hstep.hints_eq fileSize with rfl | ⟨target, hlist⟩
      · exact h.marked
      · rcases HintStore.calls_step hlist with ⟨calls, hact, -⟩ | hcalls
        · cases hact
        · rw [hcalls]
          exact h.marked
  | stop => exact ⟨h.hints, h.marked, fun r hr => h.rounds r (List.mem_of_mem_eraseIdx hr)⟩

theorem inv_of_run (hrun : Run fileSize maxBytes s) : Inv fileSize maxBytes s := by
  induction hrun with
  | start =>
    have hstart : HintStore.Run fileSize maxBytes (fun _ _ => True) _ := .start
    exact ⟨HintStore.inv_of_run hstart, by simp [HintStore.create], by simp⟩
  | step hrun hstep ih => exact inv_step ih hstep

/-- What is marked delivered has reached its target. -/
theorem Inv.reached (h : Inv fileSize maxBytes s) {c : VectorClock}
    (hc : Covers vectorClock (s.hints.delivered target key) c) :
    AtTarget s.stores target key c := by
  obtain ⟨d, hd, hle⟩ := hc
  obtain ⟨items, hcall, hin, -⟩ := HintStore.mem_delivered.mp hd
  exact (h.marked target key items hcall d hin).of_le hle

/-- Steps of the hint store alone. -/
theorem Run.acts {stores : String → DataStore} {rounds : List HintRound} :
    ∀ {acts : List HintAct} {hints hints' : HintStore},
      Run fileSize maxBytes ⟨hints, stores, rounds⟩ →
      (∀ a ∈ acts, ∀ calls ∈ a.calls, ∀ c ∈ calls, Issues ⟨hints, stores, rounds⟩ c) →
      HintStore.runActs fileSize (fun _ _ => True) hints acts = some hints' →
      Run fileSize maxBytes ⟨hints', stores, rounds⟩
  | [], hints, hints', hrun, _, h => Option.some.inj h ▸ hrun
  | a :: acts, hints, hints', hrun, hcalls, h => by
    rw [HintStore.runActs, if_pos fun _ _ => trivial] at h
    obtain ⟨hints₁, hstep, hrest⟩ := Option.bind_eq_some_iff.mp h
    obtain ⟨hcall, hcalls⟩ := List.forall_mem_cons.mp hcalls
    exact Run.acts (hrun.step (.store a hints₁ hcall hstep)) hcalls hrest

theorem Run.round {hints hints' : HintStore} {stores stores' : String → DataStore}
    {r r' : HintRound} (hrun : Run fileSize maxBytes ⟨hints, stores, [r]⟩)
    (hstep : HintRoundStep hints stores r hints' stores' r') :
    Run fileSize maxBytes ⟨hints', stores', [r']⟩ :=
  hrun.step (.round 0 r r' hints' stores' rfl hstep)

/-- A hint is added, sent, merged by its target and marked, and the round ends. -/
theorem run_firstHint : ∃ s r, Run (fun _ => 0) 1000 s ∧ CoveredSingly s.hints.calls ∧
    r ∈ s.rounds ∧ r.ended = true ∧ r.missed = [] ∧ r.left = [] ∧
    Engine.firstVersion "1" "A" ∈ r.began "t" "k" ∧
    ∀ target key, s.hints.added target key = r.began target key := by
  let item := Engine.firstVersion "1" "A"
  let hint : Hint := ⟨"k", [item]⟩
  let add : HintCall := .add "t" "k" item
  let mark : HintCall := .markDelivered "t" "k" [item]
  obtain ⟨a, b, ha, hb, htargets, hpending, hcalls, hsingly, hmark, happlied⟩ : ∃ a b : HintStore,
      HintStore.runActs (fun _ => 0) (fun _ _ => True) (.create 1000)
        (HintStore.commit [add]) = some a ∧
      HintStore.runActs (fun _ => 0) (fun _ _ => True)
        { a with seen := a.seen ++ (pending a.engine.layers "t").map (Prod.mk "t") }
        (HintStore.commit [mark]) = some b ∧
      targets a.engine.layers = ["t"] ∧ pending a.engine.layers "t" = [hint] ∧
      (a.calls = [add] ∧ b.calls = [add, mark]) ∧ CoveredSingly b.calls ∧
      mark.entry ∈ b.trace.applied ∧ add.entry ∈ a.trace.applied ∧ add.entry ∈ b.trace.applied := by
    refine ⟨_, _, rfl, rfl, ?_, ?_, ⟨rfl, rfl⟩, ?_, ?_, ?_, ?_⟩ <;> decide +kernel
  obtain ⟨ds, hmerge⟩ : ∃ ds, DataStore.mergeReplicated ⟨"t", "t", ⟨MemTable.new 1000, none, []⟩⟩
      noFaults "k" item = (true, ds) := ⟨_, rfl⟩
  have h0 : Run (fun _ => 0) 1000 _ := .start fun _ => ⟨"t", "t", ⟨MemTable.new 1000, none, []⟩⟩
  have h1 := h0.acts (by simp [HintStore.commit, HintAct.calls, add, Issues]) ha
  have h2 := h1.step (.begin ["t"])
  have h3 := Run.round h2 (.visit "t" [] rfl htargets (List.mem_singleton_self _))
  have h4 := h3.round (.send _ hint [] rfl rfl hpending)
  have h5 := h4.round (.merge _ hint item [] noFaults ds rfl rfl hmerge)
  have h6 := h5.round (.accept _ hint rfl rfl)
  have h7 := h6.acts (by simp [HintStore.commit, HintAct.calls, mark, hint, Issues]) hb
  have h8 := h7.round (.marked _ hint rfl rfl (by simp [hcalls.2, mark, hint]) hmark)
  have h9 := h8.round (.turnDone _ rfl rfl rfl)
  have h10 := h9.round (.finish rfl rfl)
  refine ⟨_, _, h10, hsingly, List.mem_singleton_self _, rfl, rfl, rfl, ?_, fun target key => ?_⟩
  · simp [HintRound.start, HintStore.added, hcalls.1, add, item, happlied.1]
  · have hadd : (HintCall.add "t" "k" item).entry ∈ a.trace.applied ∧
        (HintCall.add "t" "k" item).entry ∈ b.trace.applied := happlied
    simp [HintRound.start, HintStore.added, hcalls.1, hcalls.2, add, mark, List.filterMap_cons,
      hadd.1, hadd.2]

/-- As long as no delivery's union covers a hint that none of its items covers, an added hint
is never lost : whatever rounds, commits, failures and restarts have done since, a pending
hint or a version in the target's store is Equal to or After it. -/
theorem never_lost (hrun : Run fileSize maxBytes s) (hsingly : CoveredSingly s.hints.calls)
    {x : DataItem} (hx : x ∈ s.hints.added target key) :
    ∃ y, (y ∈ listed (pending s.hints.engine.layers target) key ∨
        y ∈ (s.stores target).versions key) ∧
      (x.vectorClock.compare y.vectorClock = .equal ∨
        x.vectorClock.compare y.vectorClock = .before) := by
  have hinv := inv_of_run hrun
  have htarget := (hinv.hints.calls _ (hinv.hints.mem_added hx).1).1
  rcases hinv.hints.listed_or_delivered hsingly htarget hx with ⟨y, hy, hle⟩ | hdelivered
  · exact ⟨y, Or.inl hy, VectorClock.le_iff_compare.mp hle⟩
  · obtain ⟨y, hy, hle⟩ := hinv.reached hdelivered
    exact ⟨y, Or.inr hy, VectorClock.le_iff_compare.mp hle⟩

theorem never_lost_firstHint : ∃ s, Run (fun _ => 0) 1000 s ∧
    ∃ y, (y ∈ listed (pending s.hints.engine.layers "t") "k" ∨ y ∈ (s.stores "t").versions "k") ∧
      ((Engine.firstVersion "1" "A").vectorClock.compare y.vectorClock = .equal ∨
        (Engine.firstVersion "1" "A").vectorClock.compare y.vectorClock = .before) := by
  obtain ⟨s, r, hrun, hsingly, -, -, -, -, hbegan, hadded⟩ := run_firstHint
  exact ⟨s, hrun, never_lost hrun hsingly (hadded "t" "k" ▸ hbegan)⟩

end HintDelivery

/-! ## What a round leaves -/

/-- Where a hint is that had been added before the round began. -/
inductive HintRound.Accounts (r : HintRound) (hints : HintStore) (target key : String)
    (c : VectorClock) : Prop
  | todo (h : target ∈ r.todo)
  | missed (h : target ∈ r.missed)
  | left (hint : Hint) (h : (target, hint) ∈ r.left) (hkey : hint.key = key)
  | delivered (h : Covers vectorClock (hints.delivered target key) c)
  | turn (turn : Turn) (hturn : r.turn = some turn) (htarget : turn.target = target)
      (h : Covers vectorClock (listed turn.hints key) c)

/-- A round keeps account of all that had been added. -/
structure HintRound.Ok (hints : HintStore) (r : HintRound) : Prop where
  todo : ∀ target ∈ r.todo, '\x00' ∉ target.toList
  began : ∀ target key, ∀ x ∈ r.began target key, x ∈ hints.added target key
  ended : r.ended = true → r.turn = none ∧ r.todo = []
  accounts : ∀ target key, ∀ x ∈ r.began target key, r.Accounts hints target key x.vectorClock

section Rounds

variable {fileSize : List Entry → Nat} {maxBytes : Int} {hints hints' : HintStore}
  {stores stores' : String → DataStore} {r r' : HintRound}

theorem HintRound.Ok.mono (h : r.Ok hints) (hgrows : hints.Grows hints') : r.Ok hints' where
  todo := h.todo
  began := fun target key x hx => hgrows.added x (h.began target key x hx)
  ended := h.ended
  accounts := by
    intro target key x hx
    cases h.accounts target key x hx with
    | todo htodo => exact .todo htodo
    | missed hmissed => exact .missed hmissed
    | left hint hleft hkey => exact .left hint hleft hkey
    | delivered hcovers =>
      obtain ⟨d, hd, hle⟩ := hcovers
      exact .delivered ⟨d, hgrows.delivered d hd, hle⟩
    | turn turn hturn htarget hcovers => exact .turn turn hturn htarget hcovers

theorem HintRound.ok_start (hinv : HintStore.Inv fileSize maxBytes hints) (members : List String) :
    (HintRound.start hints members).Ok hints where
  todo := fun _ htarget => HintStore.target_of_mem_targets htarget
  began := fun _ _ _ hx => hx
  ended := by simp [HintRound.start]
  accounts := fun _ _ _ hx => .todo (hinv.mem_targets hx)

/-- What was missed, kept or marked stays so. -/
theorem HintRound.Accounts.carry {target key : String} {c : VectorClock}
    (h : r.Accounts hints target key c) (hmissed : ∀ t ∈ r.missed, t ∈ r'.missed)
    (hleft : ∀ p ∈ r.left, p ∈ r'.left) (htodo : target ∈ r.todo → r'.Accounts hints target key c)
    (hturn : ∀ turn, r.turn = some turn → turn.target = target →
      Covers vectorClock (listed turn.hints key) c → r'.Accounts hints target key c) :
    r'.Accounts hints target key c := by
  cases h with
  | todo hin => exact htodo hin
  | missed hin => exact .missed (hmissed _ hin)
  | left hint hin hkey => exact .left hint (hleft _ hin) hkey
  | delivered hcovers => exact .delivered hcovers
  | turn turn hsome heq hcovers => exact hturn turn hsome heq hcovers

/-- A turn goes on, and what its hints no longer cover is marked. -/
theorem HintRound.Accounts.continue {target key : String} {c : VectorClock} {turn turn' : Turn}
    (h : r.Accounts hints target key c) (hturn : r.turn = some turn)
    (htarget : turn'.target = turn.target)
    (hhints : turn.target = target → Covers vectorClock (listed turn.hints key) c →
      Covers vectorClock (listed turn'.hints key) c ∨
        Covers vectorClock (hints.delivered target key) c) :
    { r with turn := some turn' }.Accounts hints target key c := by
  refine h.carry (fun _ => id) (fun _ => id) (fun hin => .todo hin)
    fun turn₀ hturn₀ heq hcovers => ?_
  obtain rfl := Option.some.inj (hturn₀.symm.trans hturn)
  rcases hhints heq hcovers with hin | hdelivered
  · exact .turn turn' rfl (htarget.trans heq) hin
  · exact .delivered hdelivered

/-- What was in the turn is kept when it ends. -/
theorem HintRound.Accounts.endTurn {target key : String} {c : VectorClock} {turn : Turn}
    (h : r.Accounts hints target key c) (hturn : r.turn = some turn) :
    (r.endTurn turn).Accounts hints target key c := by
  refine h.carry (fun _ => id) (fun _ => List.mem_append_left _) (fun hin => .todo hin)
    fun turn' hturn' heq hcovers => ?_
  obtain rfl := Option.some.inj (hturn'.symm.trans hturn)
  obtain ⟨x, hx, -⟩ := hcovers
  obtain ⟨hint, hhint, hkey, -⟩ := HintStore.mem_listed.mp hx
  exact .left hint (heq ▸ List.mem_append_right _ (List.mem_map_of_mem hhint)) hkey

theorem accounts_step (hinv : HintStore.Inv fileSize maxBytes hints)
    (hsingly : CoveredSingly hints.calls) (h : r.Ok hints)
    (hstep : HintRoundStep hints stores r hints' stores' r') (target key : String) (x : DataItem)
    (hx : x ∈ r.began target key) : r'.Accounts hints target key x.vectorClock := by
  have haccounts := h.accounts target key x hx
  cases hstep with
  | pass passed todo hidle htodo =>
    refine haccounts.carry (fun _ => List.mem_append_left _) (fun _ => id) (fun hin => ?_)
      fun turn hturn heq hcovers => .turn turn hturn heq hcovers
    rw [htodo] at hin
    rcases List.mem_cons.mp hin with rfl | hin
    · exact .missed (List.mem_append_right _ (List.mem_singleton_self _))
    · exact .todo hin
  | visit visited todo hidle htodo =>
    refine haccounts.carry (fun _ => id) (fun _ => id) (fun hin => ?_) fun turn hturn _ _ => ?_
    · have hnul := h.todo target hin
      rw [htodo] at hin
      rcases List.mem_cons.mp hin with rfl | hin
      · -- what is not marked is covered by what is listed now
        rcases hinv.listed_or_delivered hsingly hnul (h.began _ _ x hx) with hlisted | hdelivered
        · exact .turn _ rfl rfl hlisted
        · exact .delivered hdelivered
      · exact .todo hin
    · rw [hidle] at hturn
      cases hturn
  | send turn hint rest hturn hphase hpending =>
    refine haccounts.continue hturn rfl fun _ hcovers => Or.inl ?_
    rwa [Turn.hints, hphase, hpending] at hcovers
  | merge turn hint item rest faults ds hturn hphase | accept turn hint hturn hphase =>
    refine haccounts.continue hturn rfl fun _ hcovers => Or.inl ?_
    rwa [Turn.hints, hphase] at hcovers
  | unreachable turn hint rest hturn => exact haccounts.endTurn hturn
  | refused turn hint rest hturn hphase =>
    refine haccounts.carry (fun _ => id) (fun _ => List.mem_append_left _) (fun hin => .todo hin)
      fun turn' hturn' heq hcovers => ?_
    obtain rfl := Option.some.inj (hturn'.symm.trans hturn)
    by_cases hkey : hint.key = key
    · exact .left hint (heq ▸ List.mem_append_right _ (List.mem_singleton_self _)) hkey
    · refine .turn _ rfl heq ?_
      simpa [Turn.hints, hphase, TurnPhase.current, listed, hkey] using hcovers
  | marked turn hint hturn hphase hcall happlied =>
    refine haccounts.continue hturn rfl fun heq hcovers => ?_
    obtain ⟨y, hy, hle⟩ := hcovers
    obtain ⟨hint', hhint', rfl, hin⟩ := HintStore.mem_listed.mp hy
    rw [Turn.hints, hphase] at hhint'
    rcases List.mem_cons.mp hhint' with rfl | hpending
    · subst heq
      exact Or.inr ⟨y, HintStore.mem_delivered.mpr ⟨hint'.items, hcall, hin, happlied⟩, hle⟩
    · exact Or.inl ⟨y, HintStore.mem_listed.mpr ⟨hint', hpending, rfl, hin⟩, hle⟩
  | markFailed turn hint hturn => exact haccounts.endTurn hturn
  | turnDone turn hturn hphase hpending =>
    refine haccounts.carry (fun _ => id) (fun _ => id) (fun hin => .todo hin)
      fun turn' hturn' heq hcovers => ?_
    obtain rfl := Option.some.inj (hturn'.symm.trans hturn)
    obtain ⟨y, hy, -⟩ := hcovers
    obtain ⟨hint, hhint, -⟩ := HintStore.mem_listed.mp hy
    simp [Turn.hints, hphase, hpending, TurnPhase.current] at hhint
  | finish =>
    exact haccounts.carry (fun _ => id) (fun _ => id) (fun hin => .todo hin)
      fun turn hturn heq hcovers => .turn turn hturn heq hcovers

/-- A round that has ended does nothing more. -/
theorem ended_step (h : r.ended = true → r.turn = none ∧ r.todo = [])
    (hstep : HintRoundStep hints stores r hints' stores' r') :
    r'.ended = true → r'.turn = none ∧ r'.todo = [] := by
  have hturn : ∀ {turn : Turn}, r.turn = some turn → r.ended ≠ true := by
    intro turn hturn hended
    rw [(h hended).1] at hturn
    cases hturn
  have htodo : ∀ {target : String} {todo : List String}, r.todo = target :: todo →
      r.ended ≠ true := by
    intro target todo htodo hended
    rw [(h hended).2] at htodo
    cases htodo
  intro hended
  cases hstep with
  | pass _ _ _ hcons | visit _ _ _ hcons => exact absurd hended (htodo hcons)
  | send _ _ _ hsome | merge _ _ _ _ _ _ hsome | accept _ _ hsome | unreachable _ _ _ hsome
  | refused _ _ _ hsome | marked _ _ hsome | markFailed _ _ hsome | turnDone _ hsome =>
    exact absurd hended (hturn hsome)
  | finish hidle hnil => exact ⟨hidle, hnil⟩

theorem HintRoundStep.todo (hstep : HintRoundStep hints stores r hints' stores' r') :
    r'.began = r.began ∧ ∀ target ∈ r'.todo, target ∈ r.todo := by
  cases hstep with
  | pass _ _ _ htodo | visit _ _ _ htodo =>
    exact ⟨rfl, fun t ht => htodo ▸ List.mem_cons_of_mem _ ht⟩
  | _ => exact ⟨rfl, fun t ht => ht⟩

theorem HintRound.ok_step (hinv : HintStore.Inv fileSize maxBytes hints)
    (hsingly : CoveredSingly hints.calls) (h : r.Ok hints)
    (hstep : HintRoundStep hints stores r hints' stores' r') : r'.Ok hints where
  todo := fun target htarget => h.todo target (hstep.todo.2 target htarget)
  began := by
    rw [hstep.todo.1]
    exact h.began
  ended := ended_step h.ended hstep
  accounts := by
    rw [hstep.todo.1]
    exact accounts_step hinv hsingly h hstep

end Rounds

namespace HintDelivery

variable {fileSize : List Entry → Nat} {maxBytes : Int} {s t : HintDelivery} {target key : String}

theorem ok_of_run (hrun : Run fileSize maxBytes s) (hsingly : CoveredSingly s.hints.calls) :
    ∀ r ∈ s.rounds, r.Ok s.hints := by
  induction hrun with
  | start => simp
  | step hrun hstep ih =>
    have hgrows := hstep.grows.1
    have hbefore := ih (hgrows.coveredSingly hsingly)
    have hinv := (inv_of_run hrun).hints
    cases hstep with
    | store => exact fun r hr => (hbefore r hr).mono hgrows
    | world => exact hbefore
    | begin members => exact forall_mem_concat hbefore (HintRound.ok_start hinv members)
    | round i r r' hints stores hr hstep =>
      refine forall_mem_set (fun r hr => (hbefore r hr).mono hgrows) ?_
      exact (HintRound.ok_step hinv (hgrows.coveredSingly hsingly)
        (hbefore r (List.mem_of_getElem? hr)) hstep).mono hgrows
    | stop => exact fun r hr => hbefore r (List.mem_of_mem_eraseIdx hr)

/-- After a round that ended, what had been added before and is not with a target it missed
or under a key it kept is marked delivered. -/
theorem delivered_of_ended (hrun : Run fileSize maxBytes s)
    (hsingly : CoveredSingly s.hints.calls) {r : HintRound} (hr : r ∈ s.rounds)
    (hended : r.ended = true) {x : DataItem} (hx : x ∈ r.began target key)
    (hmissed : target ∉ r.missed) (hleft : ∀ hint, (target, hint) ∈ r.left → hint.key ≠ key) :
    Covers vectorClock (s.hints.delivered target key) x.vectorClock := by
  have hok := ok_of_run hrun hsingly r hr
  obtain ⟨hturn, htodo⟩ := hok.ended hended
  cases hok.accounts target key x hx with
  | todo hin =>
    rw [htodo] at hin
    cases hin
  | missed hin => exact absurd hin hmissed
  | left hint hin hkey => exact absurd hkey (hleft hint hin)
  | delivered hcovers => exact hcovers
  | turn turn hsome =>
    rw [hturn] at hsome
    cases hsome

theorem not_listed_of_delivered (hinv : HintStore.Inv fileSize maxBytes s.hints)
    (hsingly : CoveredSingly s.hints.calls) (htarget : '\x00' ∉ target.toList) {x : DataItem}
    (hx : Covers vectorClock (s.hints.delivered target key) x.vectorClock) :
    x ∉ listed (pending s.hints.engine.layers target) key := by
  rw [listed_pending _ key htarget]
  intro hlisted
  obtain ⟨d, hd, hle⟩ := hx
  have hund := (hinv.maximaOf hsingly htarget).put x hlisted
  exact (HintStore.mem_undelivered.mp hund).2 d hd hle

/-- A round that has run to its end : of the hints added before it began, every one whose
target it did not miss and whose key it did not keep a hint of has reached the target's
store, and is pending no more. -/
theorem round_delivers (hrun : Run fileSize maxBytes s) (hsingly : CoveredSingly s.hints.calls)
    {r : HintRound} (hr : r ∈ s.rounds) (hended : r.ended = true) {x : DataItem}
    (hx : x ∈ r.began target key) (hmissed : target ∉ r.missed)
    (hleft : ∀ hint, (target, hint) ∈ r.left → hint.key ≠ key) :
    (∃ y ∈ (s.stores target).versions key, x.vectorClock.compare y.vectorClock = .equal ∨
      x.vectorClock.compare y.vectorClock = .before) ∧
    x ∉ listed (pending s.hints.engine.layers target) key := by
  have hinv := inv_of_run hrun
  have hdone := delivered_of_ended hrun hsingly hr hended hx hmissed hleft
  have hadded := (ok_of_run hrun hsingly r hr).began target key x hx
  have htarget := (hinv.hints.calls _ (hinv.hints.mem_added hadded).1).1
  obtain ⟨y, hy, hle⟩ := hinv.reached hdone
  exact ⟨⟨y, hy, VectorClock.le_iff_compare.mp hle⟩,
    not_listed_of_delivered hinv.hints hsingly htarget hdone⟩

theorem round_delivers_firstHint : ∃ s, Run (fun _ => 0) 1000 s ∧
    ∃ y ∈ (s.stores "t").versions "k",
      (Engine.firstVersion "1" "A").vectorClock.compare y.vectorClock = .equal ∨
        (Engine.firstVersion "1" "A").vectorClock.compare y.vectorClock = .before := by
  obtain ⟨s, r, hrun, hsingly, hr, hended, hmissed, hleft, hbegan, -⟩ := run_firstHint
  exact ⟨s, hrun, (round_delivers hrun hsingly hr hended hbegan (by simp [hmissed])
    (by simp [hleft])).1⟩

/-- When a round has ended that missed no target and kept no hint, and nothing was added
since it began, no target has a pending hint and the count of them is zero. -/
theorem nothing_pending (hrun : Run fileSize maxBytes s) (hsingly : CoveredSingly s.hints.calls)
    {r : HintRound} (hr : r ∈ s.rounds) (hended : r.ended = true) (hmissed : r.missed = [])
    (hleft : r.left = []) (hquiet : ∀ target key, s.hints.added target key = r.began target key) :
    (∀ target, pending s.hints.engine.layers target = []) ∧
      pendingItems s.hints.engine.layers = 0 := by
  have hinv := (inv_of_run hrun).hints
  have hlive : ∀ target key, '\x00' ∉ target.toList →
      liveItems s.hints.engine.layers (storageKey target key) = [] := by
    intro target key htarget
    refine List.eq_nil_iff_forall_not_mem.mpr fun x hx => ?_
    have hund := (hinv.maximaOf hsingly htarget).put x hx
    have hadded := (HintStore.mem_undelivered.mp hund).1
    rw [hquiet] at hadded
    have hdone := delivered_of_ended hrun hsingly hr hended hadded (by simp [hmissed])
      (by simp [hleft])
    refine not_listed_of_delivered hinv hsingly htarget hdone ?_
    rwa [listed_pending _ key htarget]
  constructor
  · intro target
    refine List.filterMap_eq_nil_iff.mpr fun stored _ => ?_
    unfold hintOf
    split
    · next t key hsplit =>
      obtain ⟨rfl, ht⟩ := storageKey_of_splitKey hsplit
      rw [if_neg fun hne => hne.2 (hlive t key ht)]
    · rfl
  · refine List.sum_eq_zero fun n hn => ?_
    obtain ⟨stored, -, rfl⟩ := List.mem_map.mp hn
    split
    · next hsome =>
      obtain ⟨⟨t, key⟩, hsplit⟩ := Option.isSome_iff_exists.mp hsome
      obtain ⟨rfl, ht⟩ := storageKey_of_splitKey hsplit
      rw [hlive t key ht, List.length_nil]
    · rfl

theorem nothing_pending_firstHint : ∃ s, Run (fun _ => 0) 1000 s ∧
    pendingItems s.hints.engine.layers = 0 := by
  obtain ⟨s, r, hrun, hsingly, hr, hended, hmissed, hleft, -, hadded⟩ := run_firstHint
  exact ⟨s, hrun, (nothing_pending hrun hsingly hr hended hmissed hleft hadded).2⟩

end HintDelivery

end DistributedKV
