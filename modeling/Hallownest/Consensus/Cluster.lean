import Hallownest.Consensus.RaftNode
import Hallownest.Lib.Run
import Mathlib.Data.List.Perm.Basic

namespace Hallownest.Consensus

/-!
# Consensus — a cluster of nodes

A cluster is a set of nodes with distinct ids, each knowing all the others, and a pool of
packets in flight.  A step is one critical section of one node: an election timeout, a
heartbeat tick, a `Submit`, the handling of a request, or the handling of a reply.  Any
packet in flight may be delivered next, at most once, or be lost; nodes keep their memory.
-/

/-- Membership: the ids, the peer list every node was created with, and whether it was
    given a channel to apply on. -/
structure Config where
  ids : List Int
  peers : Int → List Int
  hasApplyCh : Int → Bool
  nonempty : ids ≠ []
  nodup : ids.Nodup
  peers_perm : ∀ id ∈ ids, (peers id).Perm (ids.erase id)

/-- The cluster with the given ids in which every node has a channel to apply on. -/
def Config.ofIds (ids : List Int) (nonempty : ids ≠ []) (nodup : ids.Nodup) : Config where
  ids := ids
  peers := fun id => ids.erase id
  hasApplyCh := fun _ => true
  nonempty := nonempty
  nodup := nodup
  peers_perm := fun _ _ => List.Perm.refl _

/-- State of a cluster.  `votesReceived id term` is the counter shared by the goroutines of
    the election that node `id` started in `term`; a node starts at most one election per
    term. -/
structure Cluster where
  nodes : Int → RaftNode
  votesReceived : Int → Int → Int
  net : List Packet

/-- What may happen next. -/
inductive Action
  | electionTimeout (id : Int)
  | heartbeatTick (id : Int)
  | submit (id : Int) (key value : Bytes) (tombstone : Bool)
  | deliver (i : ℕ)
  | lose (i : ℕ)
  | kill (id : Int)
  deriving DecidableEq, Repr

/-- Why a step does not take place: it is not enabled, or the node panics in it. -/
inductive Fault
  | disabled
  | panic
  deriving DecidableEq, Repr

/-- The result of a computation that may panic. -/
def orPanic {α : Type} : Option α → Except Fault α
  | none => .error .panic
  | some a => .ok a

/-- The cluster before the first step. -/
def Cluster.initial (cfg : Config) : Cluster where
  nodes := fun id => newRaftNode id (cfg.peers id) (if cfg.hasApplyCh id then some [] else none)
  votesReceived := fun _ _ => 0
  net := []

namespace Cluster

/-- Replace one node. -/
def setNode (s : Cluster) (id : Int) (r : RaftNode) : Cluster :=
  { s with nodes := fun j => if j = id then r else s.nodes j }

/-- Set the vote counter of one election. -/
def setVotes (s : Cluster) (id term votes : Int) : Cluster :=
  { s with votesReceived := fun j t => if j = id ∧ t = term then votes else s.votesReceived j t }

/-- Put packets in flight. -/
def send (s : Cluster) (ps : List Packet) : Cluster := { s with net := s.net ++ ps }

/-- Take packet `i` out of the network. -/
def take (s : Cluster) (i : ℕ) : Cluster := { s with net := s.net.eraseIdx i }

/-- Let a packet arrive. -/
def receive (s : Cluster) : Packet → Option Cluster
  | .voteRequest peer args => do
    let (r, reply) ← (s.nodes peer).requestVote args
    return (s.setNode peer r).send [.voteReply peer args reply]
  | .voteReply _ args reply => do
    let (r, votes, sent) ← (s.nodes args.candidateID).handleVoteReply args reply
      (s.votesReceived args.candidateID args.term)
    return ((s.setNode args.candidateID r).setVotes args.candidateID args.term votes).send sent
  | .appendRequest peer args => do
    let (r, reply) ← (s.nodes peer).appendEntries args
    return (s.setNode peer r).send [.appendReply peer args reply]
  | .appendReply peer args reply => do
    let r ← (s.nodes args.leaderID).handleAppendReply peer args reply
    return s.setNode args.leaderID r

/-- One step of the cluster. -/
def step (cfg : Config) (s : Cluster) : Action → Except Fault Cluster
  | .electionTimeout id =>
    if id ∈ cfg.ids ∧ (s.nodes id).killed = false ∧ (s.nodes id).role ≠ .leader then
      orPanic do
        let (r, votes, sent) ← (s.nodes id).startElection
        return ((s.setNode id r).setVotes id r.currentTerm votes).send sent
    else .error .disabled
  | .heartbeatTick id =>
    if id ∈ cfg.ids ∧ (s.nodes id).killed = false ∧ (s.nodes id).role = .leader then
      orPanic do
        let sent ← (s.nodes id).broadcastHeartbeats
        return s.send sent
    else .error .disabled
  | .submit id key value tombstone =>
    if id ∈ cfg.ids then
      orPanic do
        let (r, _, sent) ← (s.nodes id).submit key value tombstone
        return (s.setNode id r).send sent
    else .error .disabled
  | .deliver i =>
    match s.net[i]? with
    | some p => orPanic ((s.take i).receive p)
    | none => .error .disabled
  | .lose i => if i < s.net.length then .ok (s.take i) else .error .disabled
  | .kill id =>
    if id ∈ cfg.ids then .ok (s.setNode id { s.nodes id with killed := true })
    else .error .disabled

/-- `s` is reached from the initial cluster by the actions `acts`. -/
def Reached (cfg : Config) (acts : List Action) (s : Cluster) : Prop :=
  Run.Reached (step cfg) (initial cfg) acts s

end Cluster

end Hallownest.Consensus
