import DistributedKV.Membership

/-!
# A node's goroutines and connections

Loops, fetches of memberships, handoffs and ping-backs run on goroutines that
StopBackgroundLoops waits for, and a write's stragglers on ones that Close waits for
(`TaskGroup`). Both refuse to start anything once they are being stopped.

A peer's connection is cached with the address it was dialed at. One whose peer has moved, has
left the membership or is pinged back is retired, not closed, since a call may be using it.
A ping-back has the one it retired closed after a while, Close closes all others.

`close_waits` : when Close comes to the connections and the stores, nothing of the node's own
runs any more. `connections_accounted` : every connection ever dialed is cached, retired,
being closed or closed, in exactly one way, and after Close each has been closed exactly once.
`clientFor_current` : a caller gets a connection to the address its view lists, one that
nobody has retired.
-/

set_option linter.unusedSectionVars false

namespace DistributedKV

/-! ## Groups of goroutines -/

/-- A wait group with the flag that keeps new members out. -/
structure TaskGroup (α : Type) where
  stopped : Bool
  running : List α

namespace TaskGroup

variable {α : Type} [DecidableEq α] {g : TaskGroup α} {a b : α}

def new : TaskGroup α :=
  ⟨false, []⟩

/-- Start a task, unless the group is being stopped. -/
def start (g : TaskGroup α) (a : α) : TaskGroup α :=
  if g.stopped then g else { g with running := a :: g.running }

def finish (g : TaskGroup α) (a : α) : TaskGroup α :=
  { g with running := g.running.erase a }

/-- A task goes on as another one. -/
def become (g : TaskGroup α) (a b : α) : TaskGroup α :=
  { g with running := b :: g.running.erase a }

def stop (g : TaskGroup α) : TaskGroup α :=
  { g with stopped := true }

/-- Nothing runs, and nothing will. -/
structure Drained (g : TaskGroup α) : Prop where
  stopped : g.stopped = true
  running : g.running = []

theorem Drained.start (h : g.Drained) (a : α) : (g.start a).Drained := by
  unfold TaskGroup.start
  rw [if_pos h.stopped]
  exact h

theorem Drained.finish (h : g.Drained) (a : α) : (g.finish a).Drained :=
  ⟨h.stopped, by simp [TaskGroup.finish, h.running]⟩

theorem Drained.stop (h : g.Drained) : g.stop.Drained :=
  ⟨rfl, h.running⟩

theorem Drained.not_mem (h : g.Drained) : a ∉ g.running := by
  simp [h.running]

end TaskGroup

/-! ## Connections -/

/-- A cached connection and the address it was dialed at. Connections are numbered in the
order they are dialed. -/
structure PeerClient where
  addr : String
  client : Nat

structure Connections where
  clients : List (String × PeerClient)
  retired : List Nat
  clientsClosed : Bool
  /-- Where each connection was dialed. -/
  dialed : List String
  /-- The connections closed, in order. -/
  closed : List Nat

namespace Connections

def new : Connections :=
  ⟨[], [], false, [], []⟩

/-- The connections in the cache. -/
def cached (c : Connections) : List Nat :=
  c.clients.map fun e => e.2.client

/-- Move the peer's connection, if there is one, to the retired list. -/
def retireClient (c : Connections) (peerID : String) : Connections :=
  match c.clients.find? fun e => e.1 = peerID with
  | none => c
  | some e =>
    { c with
      clients := c.clients.eraseP fun e => e.1 = peerID
      retired := c.retired ++ [e.2.client] }

/-- Move the connections of all peers that are no members. -/
def retireClientsNotIn (c : Connections) (members : Members) : Connections :=
  { c with
    clients := c.clients.filter fun e => members.contains e.1
    retired := c.retired ++
      (c.clients.filter fun e => !members.contains e.1).map fun e => e.2.client }

/-- Dial the peer and cache the connection. -/
def dialPeer (c : Connections) (peerID addr : String) (reached : Bool) : Option Nat × Connections :=
  if reached then
    (some c.dialed.length, { c with
      clients := (peerID, ⟨addr, c.dialed.length⟩) :: c.clients
      dialed := c.dialed ++ [addr] })
  else (none, c)

/-- The connection to a peer at the address the members list for it. -/
def clientFor (c : Connections) (members : Members) (peerID : String) (reached : Bool) :
    Option Nat × Connections :=
  match members[peerID]? with
  | none => (none, c)
  | some addr =>
    if c.clientsClosed then (none, c)
    else match c.clients.find? fun e => e.1 = peerID with
      | some e =>
        if e.2.addr = addr then (some e.2.client, c)
        else (c.retireClient peerID).dialPeer peerID addr reached
      | none => c.dialPeer peerID addr reached

/-- Close every connection, and dial no more. -/
def closeAll (c : Connections) : Connections :=
  { c with
    clients := []
    retired := []
    clientsClosed := true
    closed := c.closed ++ c.cached ++ c.retired }

end Connections

/-! ## The node -/

/-- What runs in the background. -/
inductive BackgroundTask
  /-- A loop, a fetch of a membership or a handoff. -/
  | work
  | pingBack (peerID : String)
  /-- It waits to close a retired connection. -/
  | closeLater (client : Nat)
  /-- It has taken the connection off the list. -/
  | closing (client : Nat)
deriving DecidableEq

/-- How far Close is. -/
inductive ClosePhase
  | notCalled
  | waitingForLoops
  | waitingForDrains
  | closingClients
  | closingHints
  | closingEngine
  | returned
deriving DecidableEq

/-- Close has come as far as `p`. -/
def ClosePhase.reached (phase p : ClosePhase) : Prop :=
  p.ctorIdx ≤ phase.ctorIdx

instance (phase p : ClosePhase) : Decidable (phase.reached p) :=
  inferInstanceAs (Decidable (_ ≤ _))

structure NodeLife where
  background : TaskGroup BackgroundTask
  drains : TaskGroup Unit
  conns : Connections
  phase : ClosePhase

namespace NodeLife

def new : NodeLife :=
  ⟨.new, .new, .new, .notCalled⟩

/-- One access to what the node's goroutines share. -/
inductive Step (s : NodeLife) : NodeLife → Prop
  | goBackground (t : BackgroundTask) (ht : ∀ client, t ≠ .closing client) :
      Step s { s with background := s.background.start t }
  | finish (t : BackgroundTask) (ht : ∀ client, t ≠ .closing client) :
      Step s { s with background := s.background.finish t }
  | startDrain : Step s { s with drains := s.drains.start () }
  | finishDrain : Step s { s with drains := s.drains.finish () }
  | clientFor (members : Members) (peerID : String) (reached : Bool) :
      Step s { s with conns := (s.conns.clientFor members peerID reached).2 }
  | retireClient (peerID : String) (htask : .pingBack peerID ∈ s.background.running) :
      Step s { s with conns := s.conns.retireClient peerID }
  | retireClientsNotIn (members : Members) :
      Step s { s with conns := s.conns.retireClientsNotIn members }
  /-- The wait is over, and the connection is still on the list. -/
  | takeRetired (client : Nat) (htask : .closeLater client ∈ s.background.running)
      (hclient : client ∈ s.conns.retired) :
      Step s { s with
        background := s.background.become (.closeLater client) (.closing client)
        conns := { s.conns with retired := s.conns.retired.erase client } }
  | closeRetired (client : Nat) (htask : .closing client ∈ s.background.running) :
      Step s { s with
        background := s.background.finish (.closing client)
        conns := { s.conns with closed := s.conns.closed ++ [client] } }
  | stopBackgroundLoops : Step s { s with background := s.background.stop }
  | close (hphase : s.phase = .notCalled) :
      Step s { s with background := s.background.stop, phase := .waitingForLoops }
  | loopsDone (hphase : s.phase = .waitingForLoops) (hdone : s.background.running = []) :
      Step s { s with drains := s.drains.stop, phase := .waitingForDrains }
  | drainsDone (hphase : s.phase = .waitingForDrains) (hdone : s.drains.running = []) :
      Step s { s with phase := .closingClients }
  | closeClients (hphase : s.phase = .closingClients) :
      Step s { s with conns := s.conns.closeAll, phase := .closingHints }
  | closeHints (hphase : s.phase = .closingHints) : Step s { s with phase := .closingEngine }
  | closeEngine (hphase : s.phase = .closingEngine) : Step s { s with phase := .returned }

inductive Run : NodeLife → Prop
  | start : Run new
  | step {s t : NodeLife} (hrun : Run s) (hstep : Step s t) : Run t

variable {s t : NodeLife}

/-! ## Close waits -/

/-- What Close has done so far. -/
structure Closing (phase : ClosePhase) (background : TaskGroup BackgroundTask)
    (drains : TaskGroup Unit) (conns : Connections) : Prop where
  stopping : phase.reached .waitingForLoops → background.stopped = true
  loops : phase.reached .waitingForDrains → background.Drained
  draining : phase.reached .waitingForDrains → drains.stopped = true
  drains : phase.reached .closingClients → drains.Drained
  clients : phase.reached .closingHints →
    conns.clientsClosed = true ∧ conns.clients = [] ∧ conns.retired = []

/-- A step that leaves Close where it is. -/
theorem Closing.congr {phase : ClosePhase} {background background' : TaskGroup BackgroundTask}
    {drains drains' : TaskGroup Unit} {conns conns' : Connections}
    (h : Closing phase background drains conns)
    (hstopped : background.stopped = true → background'.stopped = true)
    (hloops : background.Drained → background'.Drained)
    (hdraining : drains.stopped = true → drains'.stopped = true)
    (hdrains : drains.Drained → drains'.Drained)
    (hclients : background.Drained →
      conns.clientsClosed = true ∧ conns.clients = [] ∧ conns.retired = [] →
      conns'.clientsClosed = true ∧ conns'.clients = [] ∧ conns'.retired = []) :
    Closing phase background' drains' conns' where
  stopping := fun hp => hstopped (h.stopping hp)
  loops := fun hp => hloops (h.loops hp)
  draining := fun hp => hdraining (h.draining hp)
  drains := fun hp => hdrains (h.drains hp)
  clients := fun hp => hclients (h.loops (le_trans (by decide) hp)) (h.clients hp)

theorem closing_step (h : Closing s.phase s.background s.drains s.conns) (hstep : Step s t) :
    Closing t.phase t.background t.drains t.conns := by
  cases hstep with
  | goBackground task =>
    refine h.congr (fun hs => ?_) (fun hd => hd.start task) id id fun _ => id
    unfold TaskGroup.start
    rw [if_pos hs]
    exact hs
  | finish task => exact h.congr id (fun hd => hd.finish task) id id fun _ => id
  | startDrain =>
    refine h.congr id id (fun hs => ?_) (fun hd => hd.start ()) fun _ => id
    unfold TaskGroup.start
    rw [if_pos hs]
    exact hs
  | finishDrain => exact h.congr id id id (fun hd => hd.finish ()) fun _ => id
  | clientFor =>
    refine h.congr id id id id fun _ hc => ?_
    unfold Connections.clientFor
    split
    · exact hc
    · rw [if_pos hc.1]
      exact hc
  | retireClient peerID htask =>
    exact h.congr id id id id fun hd => absurd htask hd.not_mem
  | retireClientsNotIn =>
    refine h.congr id id id id fun _ hc => ?_
    simp [Connections.retireClientsNotIn, hc.1, hc.2.1, hc.2.2]
  | takeRetired client htask =>
    refine h.congr id (fun hd => absurd htask hd.not_mem) id id
      fun hd => absurd htask hd.not_mem
  | closeRetired =>
    exact h.congr id (fun hd => hd.finish _) id id fun _ => id
  | stopBackgroundLoops => exact h.congr (fun _ => rfl) (fun hd => hd.stop) id id fun _ => id
  | close =>
    change Closing .waitingForLoops s.background.stop s.drains s.conns
    exact ⟨fun _ => rfl, fun hp => absurd hp (by decide), fun hp => absurd hp (by decide),
      fun hp => absurd hp (by decide), fun hp => absurd hp (by decide)⟩
  | loopsDone hphase hdone =>
    rw [hphase] at h
    change Closing .waitingForDrains s.background s.drains.stop s.conns
    have hstopped := h.stopping (by decide)
    exact ⟨fun _ => hstopped, fun _ => ⟨hstopped, hdone⟩, fun _ => rfl,
      fun hp => absurd hp (by decide), fun hp => absurd hp (by decide)⟩
  | drainsDone hphase hdone =>
    rw [hphase] at h
    change Closing .closingClients s.background s.drains s.conns
    have hloops := h.loops (by decide)
    have hdraining := h.draining (by decide)
    exact ⟨fun _ => hloops.stopped, fun _ => hloops, fun _ => hdraining,
      fun _ => ⟨hdraining, hdone⟩, fun hp => absurd hp (by decide)⟩
  | closeClients hphase =>
    rw [hphase] at h
    have hloops := h.loops (by decide)
    have hdrains := h.drains (by decide)
    exact ⟨fun _ => hloops.stopped, fun _ => hloops, fun _ => hdrains.stopped, fun _ => hdrains,
      fun _ => ⟨rfl, rfl, rfl⟩⟩
  | closeHints hphase | closeEngine hphase =>
    rw [hphase] at h
    exact ⟨fun _ => (h.loops (by decide)).stopped, fun _ => h.loops (by decide),
      fun _ => h.draining (by decide), fun _ => h.drains (by decide),
      fun _ => h.clients (by decide)⟩

theorem closing_of_run (hrun : Run s) : Closing s.phase s.background s.drains s.conns := by
  induction hrun with
  | start =>
    exact ⟨fun hp => absurd hp (by decide), fun hp => absurd hp (by decide),
      fun hp => absurd hp (by decide), fun hp => absurd hp (by decide),
      fun hp => absurd hp (by decide)⟩
  | step hrun hstep ih => exact closing_step ih hstep

end NodeLife

/-! ## Every connection is somewhere -/

namespace Connections

variable {c : Connections} {peerID : String} {members : Members} {n : Nat}

/-- How often a connection is in the cache, on the retired list or among the closed ones. -/
def held (c : Connections) (n : Nat) : Nat :=
  c.cached.count n + c.retired.count n + c.closed.count n

/-- Cached connections were dialed at their addresses. -/
def Addressed (c : Connections) : Prop :=
  ∀ e ∈ c.clients, c.dialed[e.2.client]? = some e.2.addr

theorem held_retireClient (c : Connections) (peerID : String) (n : Nat) :
    (c.retireClient peerID).held n = c.held n := by
  unfold retireClient
  split
  · rfl
  · next e hfind =>
    obtain ⟨hpred, before, after, hclients, hbefore⟩ := List.find?_eq_some_iff_append.mp hfind
    have herase : c.clients.eraseP (fun e => e.1 = peerID) = before ++ after := by
      rw [hclients, List.eraseP_append_right _ (by simpa using hbefore)]
      simp [of_decide_eq_true hpred]
    have hcount : ((before ++ after).map fun e => e.2.client).count n + [e.2.client].count n =
        (c.clients.map fun e => e.2.client).count n := by
      rw [hclients]
      simp only [List.map_append, List.map_cons, List.count_append, List.count_cons, List.count_nil]
      omega
    simp only [held, cached, herase, List.count_append] at hcount ⊢
    omega

theorem held_retireClientsNotIn (c : Connections) (members : Members) (n : Nat) :
    (c.retireClientsNotIn members).held n = c.held n := by
  have hperm := (List.filter_append_perm (fun e : String × PeerClient => members.contains e.1)
    c.clients).map fun e => e.2.client
  have hcount := hperm.count_eq n
  rw [List.map_append, List.count_append] at hcount
  simp only [held, cached, retireClientsNotIn, List.count_append] at hcount ⊢
  omega

theorem held_closeAll (c : Connections) (n : Nat) : c.closeAll.held n = c.held n := by
  simp only [held, cached, closeAll, List.count_append, List.map_nil, List.count_nil]
  omega

/-- Whatever it does, `clientFor` keeps every connection somewhere. -/
theorem held_clientFor (c : Connections) (members : Members) (peerID : String) (reached : Bool)
    (n : Nat) : (c.clientFor members peerID reached).2.held n =
      c.held n + if c.dialed.length ≤ n ∧
        n < (c.clientFor members peerID reached).2.dialed.length then 1 else 0 := by
  have hsame : ∀ c' : Connections, c'.held n = c.held n → c'.dialed = c.dialed →
      c'.held n = c.held n + if c.dialed.length ≤ n ∧ n < c'.dialed.length then 1 else 0 := by
    intro c' hheld hdialed
    rw [hheld, hdialed, if_neg (by omega), Nat.add_zero]
  have hdial : ∀ (c' : Connections) (addr : String), c'.held n = c.held n → c'.dialed = c.dialed →
      (c'.dialPeer peerID addr reached).2.held n = c.held n + if c.dialed.length ≤ n ∧
        n < (c'.dialPeer peerID addr reached).2.dialed.length then 1 else 0 := by
    intro c' addr hheld hdialed
    unfold dialPeer
    split
    · simp only [held, cached, List.map_cons, List.count_cons, List.length_append,
        List.length_singleton, hdialed, beq_iff_eq] at hheld ⊢
      split <;> split <;> omega
    · exact hsame c' hheld hdialed
  have hretired : (c.retireClient peerID).dialed = c.dialed := by
    unfold retireClient
    split <;> rfl
  unfold clientFor
  split
  · exact hsame c rfl rfl
  · split
    · exact hsame c rfl rfl
    · split
      · split
        · exact hsame c rfl rfl
        · exact hdial _ _ (held_retireClient c peerID n) hretired
      · exact hdial c _ rfl rfl

theorem length_dialed_le (c : Connections) (members : Members) (peerID : String) (reached : Bool) :
    c.dialed.length ≤ (c.clientFor members peerID reached).2.dialed.length := by
  have hdial : ∀ (c' : Connections) (addr : String), c'.dialed = c.dialed →
      c.dialed.length ≤ (c'.dialPeer peerID addr reached).2.dialed.length := by
    intro c' addr hdialed
    unfold dialPeer
    split <;> simp [hdialed]
  unfold clientFor
  split
  · exact le_rfl
  · split
    · exact le_rfl
    · split
      · split
        · exact le_rfl
        · refine hdial _ _ ?_
          unfold retireClient
          split <;> rfl
      · exact hdial c _ rfl

theorem Addressed.retireClient (h : c.Addressed) (peerID : String) :
    (c.retireClient peerID).Addressed ∧ (c.retireClient peerID).dialed = c.dialed := by
  unfold Connections.retireClient
  split
  · exact ⟨h, rfl⟩
  · exact ⟨fun e he => h e (List.mem_of_mem_eraseP he), rfl⟩

theorem Addressed.dialPeer (h : c.Addressed) (peerID addr : String) (reached : Bool) :
    (c.dialPeer peerID addr reached).2.Addressed ∧
      ∀ client ∈ (c.dialPeer peerID addr reached).1,
        (c.dialPeer peerID addr reached).2.dialed[client]? = some addr ∧
        client ∈ (c.dialPeer peerID addr reached).2.cached := by
  unfold Connections.dialPeer
  split
  · have hnew : (c.dialed ++ [addr])[c.dialed.length]? = some addr := by simp
    refine ⟨List.forall_mem_cons.mpr ⟨hnew, fun e he => ?_⟩, fun client hclient => ?_⟩
    · obtain ⟨hlt, -⟩ := List.getElem?_eq_some_iff.mp (h e he)
      rw [← h e he]
      exact List.getElem?_append_left hlt
    · cases hclient
      exact ⟨hnew, List.mem_cons_self⟩
  · exact ⟨h, fun client hclient => by cases hclient⟩

/-- What `clientFor` returns is cached, and was dialed where the members say. -/
theorem Addressed.clientFor (h : c.Addressed) (members : Members) (peerID : String)
    (reached : Bool) : (c.clientFor members peerID reached).2.Addressed ∧
      ∀ client ∈ (c.clientFor members peerID reached).1, ∃ addr, members[peerID]? = some addr ∧
        (c.clientFor members peerID reached).2.dialed[client]? = some addr ∧
        client ∈ (c.clientFor members peerID reached).2.cached := by
  unfold Connections.clientFor
  split
  · exact ⟨h, fun client hclient => by cases hclient⟩
  · next addr hmember =>
    split
    · exact ⟨h, fun client hclient => by cases hclient⟩
    · split
      · next e hfind =>
        have hin := List.mem_of_find?_eq_some hfind
        split
        · next haddr =>
          refine ⟨h, fun client hclient => ?_⟩
          cases hclient
          exact ⟨addr, hmember, haddr ▸ h e hin, List.mem_map_of_mem hin⟩
        · obtain ⟨hgood, hresult⟩ := (h.retireClient peerID).1.dialPeer peerID addr reached
          exact ⟨hgood, fun client hclient => ⟨addr, hmember, hresult client hclient⟩⟩
      · obtain ⟨hgood, hresult⟩ := h.dialPeer peerID addr reached
        exact ⟨hgood, fun client hclient => ⟨addr, hmember, hresult client hclient⟩⟩

end Connections

namespace NodeLife

variable {s t : NodeLife}

/-- The connection a task is closing. -/
def closingClient : BackgroundTask → Option Nat
  | .closing client => some client
  | _ => none

/-- The connections that tasks have taken off the retired list. -/
def beingClosed (s : NodeLife) : List Nat :=
  s.background.running.filterMap closingClient

/-- Every connection dialed is in one place, and a cached one was dialed at its address. -/
structure Accounted (s : NodeLife) : Prop where
  places : ∀ n, s.conns.held n + s.beingClosed.count n =
    if n < s.conns.dialed.length then 1 else 0
  addressed : s.conns.Addressed

theorem closingClient_eq_none {task : BackgroundTask} (ht : ∀ client, task ≠ .closing client) :
    closingClient task = none := by
  cases task with
  | closing client => exact absurd rfl (ht client)
  | _ => rfl

/-- A task that is in the list, and the rest of it. -/
theorem count_erase_closing {running : List BackgroundTask} {task : BackgroundTask}
    (ht : task ∈ running) (n : Nat) : ((running.erase task).filterMap closingClient).count n +
      (closingClient task).toList.count n = (running.filterMap closingClient).count n := by
  have hperm := (List.perm_cons_erase ht).filterMap closingClient
  rw [hperm.count_eq n]
  cases hc : closingClient task with
  | none => simp [hc]
  | some => simp [hc, List.count_cons]

theorem accounted_step (h : Accounted s) (hstep : Step s t) : Accounted t := by
  obtain ⟨hplaces, haddressed⟩ := h
  cases hstep with
  | goBackground task ht =>
    refine ⟨fun n => ?_, haddressed⟩
    rw [← hplaces n]
    unfold beingClosed TaskGroup.start
    split
    · rfl
    · simp [closingClient_eq_none ht]
  | finish task ht =>
    refine ⟨fun n => ?_, haddressed⟩
    rw [← hplaces n]
    by_cases hin : task ∈ s.background.running
    · have := count_erase_closing hin n
      simp only [closingClient_eq_none ht, Option.toList_none, List.count_nil] at this
      simp only [beingClosed, TaskGroup.finish]
      omega
    · simp only [beingClosed, TaskGroup.finish, List.erase_of_not_mem hin]
  | startDrain | finishDrain | stopBackgroundLoops | close | loopsDone | drainsDone | closeHints
  | closeEngine => exact ⟨hplaces, haddressed⟩
  | clientFor members peerID reached =>
    refine ⟨fun n => ?_, (haddressed.clientFor members peerID reached).1⟩
    have hlen := s.conns.length_dialed_le members peerID reached
    have hn := hplaces n
    simp only [Connections.held_clientFor, beingClosed] at hn ⊢
    split at hn <;> split <;> split <;> omega
  | retireClient peerID =>
    obtain ⟨hgood, hdialed⟩ := haddressed.retireClient peerID
    refine ⟨fun n => ?_, hgood⟩
    rw [hdialed, ← hplaces n, Connections.held_retireClient]
    rfl
  | retireClientsNotIn members =>
    refine ⟨fun n => ?_, fun e he => haddressed e (List.mem_of_mem_filter he)⟩
    have hn := hplaces n
    rw [← Connections.held_retireClientsNotIn s.conns members n] at hn
    exact hn
  | takeRetired client htask hclient =>
    refine ⟨fun n => ?_, haddressed⟩
    have hn := hplaces n
    have herase := count_erase_closing htask n
    have hretired := (List.perm_cons_erase hclient).count_eq n
    simp only [closingClient, Option.toList_none, List.count_nil] at herase
    simp only [List.count_cons] at hretired
    simp only [Connections.held, Connections.cached, beingClosed, TaskGroup.become,
      List.filterMap_cons, closingClient, List.count_cons] at hn ⊢
    omega
  | closeRetired client htask =>
    refine ⟨fun n => ?_, haddressed⟩
    have hn := hplaces n
    have herase := count_erase_closing htask n
    simp only [closingClient, Option.toList_some] at herase
    simp only [Connections.held, Connections.cached, beingClosed, TaskGroup.finish,
      List.count_append] at hn ⊢
    omega
  | closeClients =>
    refine ⟨fun n => ?_, fun e he => by cases he⟩
    have hn := hplaces n
    rw [← Connections.held_closeAll s.conns n] at hn
    exact hn

theorem accounted_of_run (hrun : Run s) : Accounted s := by
  induction hrun with
  | start => exact ⟨fun n => rfl, fun e he => by cases he⟩
  | step hrun hstep ih => exact accounted_step ih hstep

/-! ## What holds in every run -/

/-- Once Close has come to the connections and the stores, no loop, no other background work
and no drain is running. -/
theorem close_waits (hrun : Run s) (hphase : s.phase.reached .closingClients) :
    s.background.running = [] ∧ s.drains.running = [] := by
  have h := closing_of_run hrun
  exact ⟨(h.loops (le_trans (by decide) hphase)).running, (h.drains hphase).running⟩

/-- A loop runs until Close stops it. -/
theorem close_waits_work : ∃ s, Run s ∧ s.phase = .closingClients ∧ s.background.running = [] := by
  have h1 := Run.start.step (.goBackground .work (by simp))
  have h2 := h1.step (.close rfl)
  have h3 := h2.step (.finish .work (by simp))
  have h4 := h3.step (.loopsDone rfl rfl)
  have h5 := h4.step (.drainsDone rfl rfl)
  exact ⟨_, h5, rfl, (close_waits h5 (by decide +revert)).1⟩

/-- Every connection ever dialed is in exactly one place : the cache, the retired list, a task
that is about to close it, or among the closed ones. After Close each one has been closed
exactly once. -/
theorem connections_accounted (hrun : Run s) :
    (∀ n, (s.conns.cached ++ s.conns.retired ++ s.beingClosed ++ s.conns.closed).count n =
      if n < s.conns.dialed.length then 1 else 0) ∧
    (s.phase.reached .closingHints →
      s.conns.closed.Perm (List.range s.conns.dialed.length)) := by
  have hplaces := (accounted_of_run hrun).places
  refine ⟨fun n => ?_, fun hphase => List.perm_iff_count.mpr fun n => ?_⟩
  · rw [← hplaces n]
    simp only [Connections.held, List.count_append]
    omega
  · have h := closing_of_run hrun
    obtain ⟨-, hclients, hretired⟩ := h.clients hphase
    have hnone : s.beingClosed = [] := by
      rw [beingClosed, (h.loops (le_trans (by decide) hphase)).running]
      rfl
    have hn := hplaces n
    simp only [Connections.held, Connections.cached, hclients, hretired, hnone, List.map_nil,
      List.count_nil, Nat.zero_add, Nat.add_zero] at hn
    rw [hn, List.nodup_range.count]
    simp

/-- The members of a cluster of two, as `A` sees them. -/
def partnerMembers : Members :=
  (∅ : Members).insert "B" "b:1"

/-- `B` is dialed, and Close closes the connection. -/
theorem connections_accounted_closed : ∃ s, Run s ∧ s.conns.dialed = ["b:1"] ∧
    s.conns.closed.Perm [0] := by
  have h1 := Run.start.step (.clientFor partnerMembers "B" true)
  have h2 := h1.step (.close rfl)
  have h3 := h2.step (.loopsDone rfl rfl)
  have h4 := h3.step (.drainsDone rfl rfl)
  have h5 := h4.step (.closeClients rfl)
  exact ⟨_, h5, rfl, (connections_accounted h5).2 (by decide +revert)⟩

/-- A caller gets a connection that was dialed at the address its members list for the peer,
and that nobody has retired or closed. -/
theorem clientFor_current (hrun : Run s) {members : Members} {peerID : String} {reached : Bool}
    {client : Nat} {conns : Connections}
    (hresult : s.conns.clientFor members peerID reached = (some client, conns)) :
    ∃ addr, members[peerID]? = some addr ∧ conns.dialed[client]? = some addr ∧
      client ∉ conns.retired ∧ client ∉ s.beingClosed ∧ client ∉ conns.closed := by
  have hbefore := accounted_of_run hrun
  have hafter := accounted_of_run (hrun.step (.clientFor members peerID reached))
  obtain ⟨addr, hmember, hdialed, hcached⟩ :=
    (hbefore.addressed.clientFor members peerID reached).2 client (by rw [hresult]; rfl)
  have hplaces := hafter.places client
  rw [hresult] at hdialed hcached hplaces
  have hcount : 0 < conns.cached.count client := List.count_pos_iff.mpr hcached
  change conns.held client + s.beingClosed.count client = _ at hplaces
  unfold Connections.held at hplaces
  refine ⟨addr, hmember, hdialed, ?_, ?_, ?_⟩ <;> rw [← List.count_eq_zero] <;>
    split at hplaces <;> omega

theorem clientFor_current_partner : ∃ s conns, Run s ∧
    s.conns.clientFor partnerMembers "B" true = (some 0, conns) ∧
    conns.dialed[0]? = some "b:1" := by
  have hresult : new.conns.clientFor partnerMembers "B" true = (some 0, _) := rfl
  obtain ⟨addr, hmember, hdialed, -⟩ := clientFor_current .start hresult
  have hlisted : partnerMembers["B"]? = some "b:1" := rfl
  exact ⟨new, _, .start, hresult, hdialed.trans (hmember.symm.trans hlisted)⟩

end NodeLife

end DistributedKV
