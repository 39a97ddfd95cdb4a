import Hallownest.Consensus.Simulation

namespace Hallownest.Consensus

/-!
# Consensus — the transport (`raft_types.go`)

`MockNetwork` is the transport the repository comes with: a table of nodes, where a request is a
call of the handler of the other node.  Every request has a goroutine of its own, which calls the
transport, then waits for the lock of its node and handles the reply; the packets in flight are
the goroutines that are left.

* `MockNetwork` and its operations;
* `Wired` — a cluster over this transport;
* `Wired.step_moves` — it moves as a cluster with packets does, and loses only packets for nodes
  that are not registered.
-/

/-- The transport (`MockNetwork`), with the keys of its table.  The values are pointers to the
    nodes of the cluster. -/
structure MockNetwork where
  nodes : List Int
  deriving DecidableEq, Repr

/-- An empty table (`NewMockNetwork`). -/
def newMockNetwork : MockNetwork where
  nodes := []

namespace MockNetwork

/-- Enter a node (`RegisterNode`). -/
def registerNode (m : MockNetwork) (id : Int) : MockNetwork := ⟨id :: m.nodes⟩

/-- Call the handler of a node that is registered; the result `some none` is the answer `false`
    for one that is not. -/
def call {α : Type} (m : MockNetwork) (peerID : Int) (handler : Option α) : Option (Option α) :=
  if peerID ∈ m.nodes then handler.map some else some none

/-- Call `RequestVote` of the target (`SendRequestVote`). -/
def sendRequestVote (m : MockNetwork) (s : Cluster) (peerID : Int) (args : RequestVoteArgs) :
    Option (Option (RaftNode × RequestVoteReply)) :=
  m.call peerID ((s.nodes peerID).requestVote args)

/-- Call `AppendEntries` of the target (`SendAppendEntries`). -/
def sendAppendEntries (m : MockNetwork) (s : Cluster) (peerID : Int) (args : AppendEntriesArgs) :
    Option (Option (RaftNode × AppendEntriesReply)) :=
  m.call peerID ((s.nodes peerID).appendEntries args)

end MockNetwork

/-- A cluster over the transport. -/
structure Wired where
  cluster : Cluster
  network : MockNetwork

/-- What may happen next: a node is registered, a node does something by itself, or the `i`-th
    goroutine calls the transport or handles the reply. -/
inductive Wire
  | register (id : Int)
  | electionTimeout (id : Int)
  | heartbeatTick (id : Int)
  | submit (id : Int) (key value : Bytes) (tombstone : Bool)
  | kill (id : Int)
  | send (i : ℕ)
  | handle (i : ℕ)
  deriving DecidableEq, Repr

namespace Wired

/-- A step that leaves the table alone. -/
def act (cfg : Config) (w : Wired) (a : Action) : Except Fault Wired := do
  let cluster ← w.cluster.step cfg a
  return { w with cluster := cluster }

/-- A goroutine calls the transport; if the answer is `false` it ends. -/
def send (w : Wired) (i : ℕ) : Except Fault Wired :=
  match w.cluster.net[i]? with
  | some (.voteRequest peer args) => orPanic do
    match ← w.network.sendRequestVote w.cluster peer args with
    | some (r, reply) => return { w with
        cluster := ((w.cluster.take i).setNode peer r).send [.voteReply peer args reply] }
    | none => return { w with cluster := w.cluster.take i }
  | some (.appendRequest peer args) => orPanic do
    match ← w.network.sendAppendEntries w.cluster peer args with
    | some (r, reply) => return { w with
        cluster := ((w.cluster.take i).setNode peer r).send [.appendReply peer args reply] }
    | none => return { w with cluster := w.cluster.take i }
  | _ => .error .disabled

/-- A goroutine with a reply gets the lock of its node. -/
def handle (cfg : Config) (w : Wired) (i : ℕ) : Except Fault Wired :=
  match w.cluster.net[i]? with
  | some (.voteReply _ _ _) => w.act cfg (.deliver i)
  | some (.appendReply _ _ _) => w.act cfg (.deliver i)
  | _ => .error .disabled

/-- One step. -/
def step (cfg : Config) (w : Wired) : Wire → Except Fault Wired
  | .register id => .ok { w with network := w.network.registerNode id }
  | .electionTimeout id => w.act cfg (.electionTimeout id)
  | .heartbeatTick id => w.act cfg (.heartbeatTick id)
  | .submit id key value tombstone => w.act cfg (.submit id key value tombstone)
  | .kill id => w.act cfg (.kill id)
  | .send i => w.send i
  | .handle i => w.handle cfg i

/-- Nodes of which none is registered yet. -/
def initial (cfg : Config) : Wired where
  cluster := Cluster.initial cfg
  network := newMockNetwork

/-- `w` is reached from the initial state. -/
def Reached (cfg : Config) (wires : List Wire) (w : Wired) : Prop :=
  Run.Reached (step cfg) (initial cfg) wires w

/-! ### The cluster it is -/

variable {cfg : Config} {w w' : Wired} {wires : List Wire} {x : Wire}

/-- The step of the cluster that a step over the transport is: none if a node is registered, and
    the loss of a packet if the call returns `false`. -/
def action (w : Wired) : Wire → Option Action
  | .register _ => none
  | .electionTimeout id => some (.electionTimeout id)
  | .heartbeatTick id => some (.heartbeatTick id)
  | .submit id key value tombstone => some (.submit id key value tombstone)
  | .kill id => some (.kill id)
  | .send i =>
    match w.cluster.net[i]? with
    | some (.voteRequest peer _) =>
      if peer ∈ w.network.nodes then some (.deliver i) else some (.lose i)
    | some (.appendRequest peer _) =>
      if peer ∈ w.network.nodes then some (.deliver i) else some (.lose i)
    | _ => none
  | .handle i => some (.deliver i)

theorem act_moves {a : Action} (h : w.act cfg a = .ok w') :
    w.cluster.step cfg a = .ok w'.cluster ∧ w'.network = w.network := by
  rw [act] at h
  cases hstep : w.cluster.step cfg a with
  | error f =>
    rw [hstep] at h
    cases h
  | ok c =>
    rw [hstep] at h
    obtain rfl := Except.ok.inj h
    exact ⟨rfl, rfl⟩

theorem lose_step {s : Cluster} {i : ℕ} {q : Packet} (hq : s.net[i]? = some q) :
    s.step cfg (.lose i) = .ok (s.take i) := by
  rw [Cluster.step, if_pos (List.getElem?_eq_some_iff.mp hq).1]

theorem deliver_step {s s' : Cluster} {i : ℕ} {q : Packet} (hq : s.net[i]? = some q)
    (h : (s.take i).receive q = some s') : s.step cfg (.deliver i) = .ok s' := by
  rw [Cluster.step, hq]
  exact congrArg orPanic h

/-- A call of the transport returns what the handler returns, or `false`. -/
theorem call_cases {α : Type} {m : MockNetwork} {peer : Int} {handler : Option α}
    {res : Option α} (h : m.call peer handler = some res) :
    (peer ∈ m.nodes ∧ ∃ a, handler = some a ∧ res = some a) ∨ (peer ∉ m.nodes ∧ res = none) := by
  rw [MockNetwork.call] at h
  split at h
  next hmem =>
    obtain ⟨a, ha, rfl⟩ := Option.map_eq_some_iff.mp h
    exact Or.inl ⟨hmem, a, ha, rfl⟩
  next hmem => exact Or.inr ⟨hmem, (Option.some.inj h).symm⟩

/-- **A step over the transport** is the step of the cluster that `action` names. -/
theorem step_moves (h : w.step cfg x = .ok w') :
    (w.action x = none ∧ w'.cluster = w.cluster) ∨
      ∃ a, w.action x = some a ∧ w.cluster.step cfg a = .ok w'.cluster := by
  cases x with
  | register id =>
    obtain rfl := Except.ok.inj h
    exact Or.inl ⟨rfl, rfl⟩
  | electionTimeout id => exact Or.inr ⟨_, rfl, (act_moves h).1⟩
  | heartbeatTick id => exact Or.inr ⟨_, rfl, (act_moves h).1⟩
  | submit id key value tombstone => exact Or.inr ⟨_, rfl, (act_moves h).1⟩
  | kill id => exact Or.inr ⟨_, rfl, (act_moves h).1⟩
  | handle i =>
    right
    rw [step, handle] at h
    split at h
    next => exact ⟨_, rfl, (act_moves h).1⟩
    next => exact ⟨_, rfl, (act_moves h).1⟩
    next => cases h
  | send i =>
    right
    rw [step, send] at h
    split at h
    next peer args hq =>
      obtain ⟨res, hcall, hrest⟩ := Option.bind_eq_some_iff.mp (orPanic_eq_ok.mp h)
      rcases call_cases hcall with ⟨hmem, ⟨r, reply⟩, hrun, rfl⟩ | ⟨hmem, rfl⟩
      · obtain rfl := Option.some.inj hrest
        exact ⟨.deliver i, by simp only [action, hq, if_pos hmem],
          deliver_step hq (by simp [Cluster.receive, hrun])⟩
      · obtain rfl := Option.some.inj hrest
        exact ⟨.lose i, by simp only [action, hq, if_neg hmem], lose_step hq⟩
    next peer args hq =>
      obtain ⟨res, hcall, hrest⟩ := Option.bind_eq_some_iff.mp (orPanic_eq_ok.mp h)
      rcases call_cases hcall with ⟨hmem, ⟨r, reply⟩, hrun, rfl⟩ | ⟨hmem, rfl⟩
      · obtain rfl := Option.some.inj hrest
        exact ⟨.deliver i, by simp only [action, hq, if_pos hmem],
          deliver_step hq (by simp [Cluster.receive, hrun])⟩
      · obtain rfl := Option.some.inj hrest
        exact ⟨.lose i, by simp only [action, hq, if_neg hmem], lose_step hq⟩
    next => cases h

/-- Nodes stay registered. -/
theorem step_network (h : w.step cfg x = .ok w') : w.network.nodes ⊆ w'.network.nodes := by
  cases x with
  | register id =>
    obtain rfl := Except.ok.inj h
    exact List.subset_cons_self _ _
  | electionTimeout id => rw [(act_moves h).2]; exact List.Subset.refl _
  | heartbeatTick id => rw [(act_moves h).2]; exact List.Subset.refl _
  | submit id key value tombstone => rw [(act_moves h).2]; exact List.Subset.refl _
  | kill id => rw [(act_moves h).2]; exact List.Subset.refl _
  | handle i =>
    rw [step, handle] at h
    split at h
    next => rw [(act_moves h).2]; exact List.Subset.refl _
    next => rw [(act_moves h).2]; exact List.Subset.refl _
    next => cases h
  | send i =>
    rw [step, send] at h
    split at h
    next =>
      obtain ⟨res, _, hrest⟩ := Option.bind_eq_some_iff.mp (orPanic_eq_ok.mp h)
      cases res
      all_goals
        obtain rfl := Option.some.inj hrest
        exact List.Subset.refl _
    next =>
      obtain ⟨res, _, hrest⟩ := Option.bind_eq_some_iff.mp (orPanic_eq_ok.mp h)
      cases res
      all_goals
        obtain rfl := Option.some.inj hrest
        exact List.Subset.refl _
    next => cases h

/-- **Every run over the transport** is a run of the cluster. -/
theorem Reached.cluster (h : Reached cfg wires w) : ∃ acts, Cluster.Reached cfg acts w.cluster := by
  refine Run.Reached.invariant (I := fun _ w => ∃ acts, Cluster.Reached cfg acts w.cluster) ?_ ?_ h
  · exact ⟨[], Run.reached_nil.mpr rfl⟩
  · intro _ w x w' _ ⟨acts, hacts⟩ hstep
    rcases step_moves hstep with ⟨_, hsame⟩ | ⟨a, _, ha⟩
    · rw [hsame]
      exact ⟨acts, hacts⟩
    · exact ⟨acts ++ [a], Run.reached_snoc.mpr ⟨_, hacts, ha⟩⟩

end Wired

end Hallownest.Consensus
