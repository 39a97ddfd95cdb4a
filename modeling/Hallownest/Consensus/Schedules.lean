import Hallownest.Consensus.Backoff
import Mathlib.Logic.Relation

namespace Hallownest.Consensus

open Cluster (Reached)
open RaftNode

/-!
# Consensus — schedules

A run may go on in many ways.  Here it is shown how it can go on: which steps may be taken from
a given state, and what they lead to, when only some of the nodes take part.

* `Cluster.Within` — some steps in which only nodes of a given set change;
* `exchange` — a heartbeat of a leader to one of its peers, with its reply, is one round
  of the two (`Link.round`);
* `stand` — an election timeout; `canvass` — a vote request with its reply.
-/

variable {cfg : Config} {s s' u : Cluster} {acts : List Action} {Q : Finset Int}

/-! ### Killed nodes -/

namespace RaftNode

variable {r r' : RaftNode}

@[simp] theorem catchUp_killed (r : RaftNode) (t : Int) : (r.catchUp t).killed = r.killed := by
  unfold catchUp
  split <;> rfl

/-- Committing leaves the mark of `Kill`. -/
theorem Commits.killed (h : Commits r r') : r'.killed = r.killed := by
  obtain ⟨_, _, _, rfl⟩ := h
  rfl

/-- An election leaves the mark of `Kill`. -/
theorem startElection_killed {votes : Int} {sent : List Packet}
    (h : r.startElection = some (r', votes, sent)) : r'.killed = r.killed := by
  obtain ⟨_, ⟨_, rfl, _⟩ | ⟨rfl, _⟩⟩ := startElection_cases h
  · rfl
  · rfl

/-- A vote request leaves the mark of `Kill`. -/
theorem requestVote_killed {args : RequestVoteArgs} {reply : RequestVoteReply}
    (h : r.requestVote args = some (r', reply)) : r'.killed = r.killed := by
  rcases requestVote_cases h with ⟨rfl, _⟩ | ⟨rfl, _⟩
  · exact catchUp_killed r args.term
  · exact catchUp_killed r args.term

/-- A vote reply leaves the mark of `Kill`. -/
theorem handleVoteReply_killed {args : RequestVoteArgs} {reply : RequestVoteReply}
    {votes votes' : Int} {sent : List Packet}
    (h : r.handleVoteReply args reply votes = some (r', votes', sent)) :
    r'.killed = r.killed := by
  rcases handleVoteReply_cases h with ⟨rfl, _⟩ | ⟨_, rfl, _⟩ |
    ⟨_, _, _, _, ⟨rfl, _⟩ | ⟨_, rfl, _⟩⟩
  · rfl
  · rfl
  · rfl
  · rfl

/-- An append request leaves the mark of `Kill`. -/
theorem appendEntries_killed {args : AppendEntriesArgs} {reply : AppendEntriesReply}
    (h : r.appendEntries args = some (r', reply)) : r'.killed = r.killed := by
  rcases appendEntries_cases h with ⟨rfl, _⟩ | rfl | ⟨_, _, hcommits⟩
  · exact catchUp_killed r args.term
  · exact catchUp_killed r args.term
  · exact hcommits.killed.trans (catchUp_killed r args.term)

/-- An append reply leaves the mark of `Kill`. -/
theorem handleAppendReply_killed {peerID : Int} {args : AppendEntriesArgs}
    {reply : AppendEntriesReply} (h : r.handleAppendReply peerID args reply = some r') :
    r'.killed = r.killed := by
  rcases handleAppendReply_cases h with rfl | ⟨_, rfl⟩ | ⟨_, _, _, hrun⟩ | ⟨_, rfl⟩
  · rfl
  · rfl
  · exact (commits_advanceLoop hrun).killed
  · rfl

/-- A proposal leaves the mark of `Kill`. -/
theorem submit_killed {key value : Bytes} {tombstone : Bool} {res : Int × Int × Bool}
    {sent : List Packet} (h : r.submit key value tombstone = some (r', res, sent)) :
    r'.killed = r.killed := by
  rcases submit_cases h with ⟨_, rfl, _⟩ | ⟨_, rfl, _⟩
  · rfl
  · rfl

/-- The reply of one peer says nothing about what the others have acknowledged. -/
theorem handleAppendReply_matchIndex {peerID p : Int} {args : AppendEntriesArgs}
    {reply : AppendEntriesReply} (h : r.handleAppendReply peerID args reply = some r')
    (hp : p ≠ peerID) : r'.matchIndex p = r.matchIndex p := by
  rcases handleAppendReply_cases h with rfl | ⟨_, rfl⟩ | ⟨_, _, _, hrun⟩ | ⟨_, rfl⟩
  · rfl
  · rfl
  · obtain ⟨_, _, _, rfl⟩ := commits_advanceLoop hrun
    exact if_neg hp
  · rfl

end RaftNode

namespace Cluster

/-- Only `Kill` kills a node. -/
theorem step_killed {act : Action} (hact : ∀ id, act ≠ .kill id) (h : s.step cfg act = .ok s')
    (j : Int) : (s'.nodes j).killed = (s.nodes j).killed := by
  have hset : ∀ {id r}, r.killed = (s.nodes id).killed →
      ((s.setNode id r).nodes j).killed = (s.nodes j).killed := fun hr =>
    setNode_relates (R := fun r r' => r'.killed = r.killed) (fun _ => rfl) hr j
  cases step_takes h with
  | electionTimeout _ _ hrun => exact hset (startElection_killed hrun)
  | heartbeatTick => rfl
  | submit _ hrun => exact hset (submit_killed hrun)
  | voteRequest _ hrun => exact hset (requestVote_killed hrun)
  | voteReply _ hrun => exact hset (handleVoteReply_killed hrun)
  | appendRequest _ hrun => exact hset (appendEntries_killed hrun)
  | appendReply _ hrun => exact hset (handleAppendReply_killed hrun)
  | lose => rfl
  | kill => exact absurd rfl (hact _)

/-! ### Going on -/

/-- From `s` the cluster may go on to `s'` by steps that kill no node and leave the nodes
    outside `Q` as they are. -/
def Within (cfg : Config) (Q : Finset Int) : Cluster → Cluster → Prop :=
  Relation.ReflTransGen fun s s' =>
    (∃ act, (∀ id, act ≠ .kill id) ∧ s.step cfg act = .ok s') ∧ ∀ id ∉ Q, s'.nodes id = s.nodes id

/-- The cluster is in a state that a run reaches. -/
def Reachable (cfg : Config) (s : Cluster) : Prop := ∃ acts, Reached cfg acts s

theorem Within.refl (cfg : Config) (Q : Finset Int) (s : Cluster) : Within cfg Q s s :=
  Relation.ReflTransGen.refl

theorem Within.trans (h : Within cfg Q s s') (h' : Within cfg Q s' u) : Within cfg Q s u :=
  Relation.ReflTransGen.trans h h'

/-- One step that changes no node outside `Q` and kills nobody. -/
theorem within_step {act : Action} (hact : ∀ id, act ≠ .kill id) (h : s.step cfg act = .ok s')
    (hnodes : ∀ id ∉ Q, s'.nodes id = s.nodes id) : Within cfg Q s s' :=
  Relation.ReflTransGen.single ⟨⟨act, hact, h⟩, hnodes⟩

/-- The steps of a schedule, after those that have reached its beginning. -/
theorem Within.reached (h : Within cfg Q s s') (hs : Reached cfg acts s) :
    ∃ more, Reached cfg (acts ++ more) s' := by
  induction h with
  | refl => exact ⟨[], by rwa [List.append_nil]⟩
  | tail _ hstep ih =>
    obtain ⟨more, hu⟩ := ih
    obtain ⟨⟨act, _, hstep⟩, _⟩ := hstep
    refine ⟨more ++ [act], ?_⟩
    rw [← List.append_assoc]
    exact Run.reached_snoc.mpr ⟨_, hu, hstep⟩

/-- What follows a reachable state is reachable. -/
theorem Within.reachable (h : Within cfg Q s s') (hs : Reachable cfg s) : Reachable cfg s' := by
  obtain ⟨acts, hs⟩ := hs
  obtain ⟨more, hs'⟩ := h.reached hs
  exact ⟨acts ++ more, hs'⟩

/-- The nodes outside take no part. -/
theorem Within.nodes_eq (h : Within cfg Q s s') {id : Int} (hid : id ∉ Q) :
    s'.nodes id = s.nodes id := by
  induction h with
  | refl => rfl
  | tail _ hstep ih => exact (hstep.2 id hid).trans ih

/-- Nobody is killed. -/
theorem Within.killed (h : Within cfg Q s s') (j : Int) :
    (s'.nodes j).killed = (s.nodes j).killed := by
  induction h with
  | refl => rfl
  | tail _ hstep ih =>
    obtain ⟨⟨act, hact, hstep⟩, _⟩ := hstep
    exact (step_killed hact hstep j).trans ih

/-- The indices stay in range. -/
theorem Within.clusterOk (h : Within cfg Q s s') (hs : ClusterOk cfg s) : ClusterOk cfg s' := by
  induction h with
  | refl => exact hs
  | tail _ hstep ih =>
    obtain ⟨⟨act, _, hstep⟩, _⟩ := hstep
    obtain hdisabled | ⟨u, hu, hok⟩ := ih.step act
    · rw [hdisabled] at hstep
      cases hstep
    · obtain rfl := Except.ok.inj (hu.symm.trans hstep)
      exact hok

/-- Replacing a node of `Q` leaves those outside. -/
theorem setNode_outside {id : Int} (r : RaftNode) (hid : id ∈ Q) :
    ∀ j ∉ Q, (s.setNode id r).nodes j = s.nodes j := fun _ hj =>
  setNode_nodes_of_ne r (fun h => hj (h ▸ hid))

/-- A packet other than the one taken out of the network is still there. -/
theorem mem_take {i : ℕ} {p q : Packet} (hp : s.net[i]? = some p) (hq : q ∈ s.net)
    (hne : q ≠ p) : q ∈ (s.take i).net := by
  obtain ⟨j, hj⟩ := List.getElem?_of_mem hq
  refine List.mem_eraseIdx_iff_getElem?.mpr ⟨j, ?_, hj⟩
  rintro rfl
  exact hne (Option.some.inj (hj.symm.trans hp))

end Cluster

/-! ### A round with a peer -/

/-- The three critical sections of a round, from its result. -/
theorem Link.round_inv {p : Int} {l l' : Link} {ok : Bool} (h : l.round p = some (l', ok)) :
    ∃ args reply, l.leader.heartbeatFor p = some (.appendRequest p args) ∧
      l.peer.appendEntries args = some (l'.peer, reply) ∧
      l.leader.handleAppendReply p args reply = some l'.leader ∧ ok = reply.success := by
  unfold Link.round at h
  obtain ⟨q, hq, h⟩ := Option.bind_eq_some_iff.mp h
  obtain ⟨args, rfl, _⟩ := heartbeatFor_eq hq
  obtain ⟨args', hargs, h⟩ := Option.bind_eq_some_iff.mp h
  obtain rfl := Option.some.inj hargs
  obtain ⟨⟨peer, reply⟩, hpeer, h⟩ := Option.bind_eq_some_iff.mp h
  obtain ⟨leader, hleader, h⟩ := Option.bind_eq_some_iff.mp h
  obtain ⟨rfl, rfl⟩ := Prod.mk.inj (Option.some.inj h)
  exact ⟨args, reply, hq, hpeer, hleader, rfl⟩

/-- **A round in the cluster.**  A heartbeat of a leader, the handling of its request by a peer
    and of the reply by the leader, is a round of the two. -/
theorem exchange (hok : ClusterOk cfg s) {c p : Int} (hc : c ∈ cfg.ids) (hp : p ∈ cfg.peers c)
    (hcQ : c ∈ Q) (hpQ : p ∈ Q) (hlead : (s.nodes c).role = .leader)
    (halive : (s.nodes c).killed = false) {l : Link} {ok : Bool}
    (hround : Link.round p ⟨s.nodes c, s.nodes p⟩ = some (l, ok)) :
    ∃ s', Cluster.Within cfg Q s s' ∧
      s'.nodes = ((s.setNode p l.peer).setNode c l.leader).nodes := by
  obtain ⟨args, reply, hbeat, hanswer, hreply, _⟩ := Link.round_inv hround
  have hne : c ≠ p := fun h => ((mem_peers hc).mp hp).1 h.symm
  have hid : args.leaderID = c := by
    obtain ⟨_, heq, hleader, _⟩ := heartbeatFor_eq hbeat
    obtain ⟨_, rfl⟩ := Packet.appendRequest.inj heq
    rw [hleader, (hok.nodes c).id_eq]
  -- the heartbeat
  obtain ⟨sent, hsent, _⟩ := (hok.nodes c).broadcastHeartbeats
  have htick : s.step cfg (.heartbeatTick c) = .ok (s.send sent) := by
    simp only [Cluster.step, hc, halive, hlead, hsent]
    rfl
  have hmem : Packet.appendRequest p args ∈ (s.send sent).net := by
    have hall : (s.nodes c).peers.mapM (s.nodes c).heartbeatFor = some sent := by
      rw [← hsent, RaftNode.broadcastHeartbeats, if_neg (not_not_intro hlead)]
    obtain ⟨q, hq, hbeat'⟩ := Lists.exists_of_mem hall (x := p) (by rwa [(hok.nodes c).peers_eq])
    obtain rfl := Option.some.inj (hbeat'.symm.trans hbeat)
    exact List.mem_append_right _ hq
  -- its request
  obtain ⟨i, hi⟩ := List.getElem?_of_mem hmem
  let s₂ := (((s.send sent).take i).setNode p l.peer).send [.appendReply p args reply]
  have hdeliver : (s.send sent).step cfg (.deliver i) = .ok s₂ := by
    simp only [Cluster.step, hi, Cluster.receive, Cluster.take_nodes, Cluster.send_nodes, hanswer]
    rfl
  have hreplied : Packet.appendReply p args reply ∈ s₂.net :=
    List.mem_append_right _ (List.mem_singleton_self _)
  -- and the reply
  obtain ⟨j, hj⟩ := List.getElem?_of_mem hreplied
  have hnode : s₂.nodes c = s.nodes c := Cluster.setNode_nodes_of_ne _ hne
  have hhandle : s₂.step cfg (.deliver j) = .ok ((s₂.take j).setNode c l.leader) := by
    simp only [Cluster.step, hj, Cluster.receive, Cluster.take_nodes, hid, hnode, hreply]
    rfl
  refine ⟨_, ((Cluster.within_step (by simp) htick fun _ _ => rfl).trans
    (Cluster.within_step (by simp) hdeliver ?_)).trans
    (Cluster.within_step (by simp) hhandle ?_), rfl⟩
  · exact Cluster.setNode_outside (s := (s.send sent).take i) l.peer hpQ
  · exact Cluster.setNode_outside (s := s₂.take j) l.leader hcQ

/-! ### Elections -/

namespace RaftNode

/-- The vote request of a candidate whose last entry is `last`. -/
def voteArgs (r : RaftNode) (last : RaftLogEntry) : RequestVoteArgs where
  term := r.currentTerm
  candidateID := r.id
  lastLogIndex := (r.log.length : Int) - 1
  lastLogTerm := last.term

/-- A node that votes for the sender of a request: it is in an earlier term, and its log is not
    more up to date. -/
def Yields (q : RaftNode) (args : RequestVoteArgs) : Prop :=
  q.currentTerm < args.term ∧ ∃ last, Slice.get q.log ((q.log.length : Int) - 1) = some last ∧
    (args.lastLogTerm > last.term ∨
      args.lastLogTerm = last.term ∧ args.lastLogIndex ≥ (q.log.length : Int) - 1)

/-- A node that yields votes for the candidate in its term. -/
theorem Yields.requestVote {q : RaftNode} {args : RequestVoteArgs} (h : q.Yields args) :
    q.requestVote args = some
      ({ q.becomeFollower args.term with votedFor := args.candidateID }, ⟨args.term, true⟩) := by
  obtain ⟨hterm, last, hlast, hup⟩ := h
  have hlog : (q.becomeFollower args.term).log = q.log := rfl
  have hcur : (q.becomeFollower args.term).currentTerm = args.term := rfl
  have hfree : (q.becomeFollower args.term).votedFor = -1 := rfl
  simp only [RaftNode.requestVote, if_pos (show args.term > q.currentTerm from hterm), hcur, hlog,
    hfree, lt_irrefl, if_false, hlast, Option.bind_eq_bind, Option.bind_some, true_or, true_and]
  rw [if_pos hup]
  rfl

end RaftNode

/-- A vote is counted: with it the candidate is elected, or has one vote more. -/
theorem NodeOk.count_vote {c : Int} {r : RaftNode} (hok : NodeOk cfg c r)
    {args : RequestVoteArgs} (votes : Int) (hrole : r.role = .candidate)
    (hterm : r.currentTerm = args.term) :
    ∃ r' sent, r.handleVoteReply args ⟨args.term, true⟩ votes = some (r', votes + 1, sent) ∧
      (r' = r.elected ∨ votes + 1 < r.majorityNeeded ∧ r' = r) := by
  simp only [RaftNode.handleVoteReply, hrole, hterm, and_self, if_true, gt_iff_lt, lt_irrefl,
    if_false]
  by_cases hmajority : votes + 1 ≥ r.majorityNeeded
  · obtain ⟨sent, hsent, _⟩ := (hok.elected hrole).broadcastHeartbeats
    have hbecome : r.becomeLeader = some (r.elected, sent) := congrArg (Option.bind · _) hsent
    rw [if_pos hmajority, hbecome]
    exact ⟨_, sent, rfl, .inl rfl⟩
  · rw [if_neg hmajority]
    exact ⟨r, [], rfl, .inr ⟨by omega, rfl⟩⟩

/-- More than one node, and one vote is no majority. -/
theorem one_lt_majorityNeeded (hok : ClusterOk cfg s) {c : Int} (hc : c ∈ cfg.ids)
    (htwo : 2 ≤ cfg.ids.length) : 1 < (s.nodes c).majorityNeeded := by
  have hlen := peers_length hc
  rw [List.toFinset_card_of_nodup cfg.nodup] at hlen
  rw [RaftNode.majorityNeeded, (hok.nodes c).peers_eq]
  omega

/-- **An election timeout** of a node that is no leader, in a cluster of more than one. -/
theorem stand (hok : ClusterOk cfg s) {c : Int} (hc : c ∈ cfg.ids) (hcQ : c ∈ Q)
    (htwo : 2 ≤ cfg.ids.length) (halive : (s.nodes c).killed = false)
    (hrole : (s.nodes c).role ≠ .leader) {last : RaftLogEntry}
    (hlast : Slice.get (s.nodes c).log (((s.nodes c).log.length : Int) - 1) = some last) :
    ∃ s', Cluster.Within cfg Q s s' ∧ s'.nodes = (s.setNode c (s.nodes c).stands).nodes ∧
      s'.votesReceived c (s.nodes c).stands.currentTerm = 1 ∧
      ∀ p ∈ cfg.peers c, .voteRequest p ((s.nodes c).stands.voteArgs last) ∈ s'.net := by
  have hmajority := one_lt_majorityNeeded hok hc htwo
  obtain ⟨r, sent, hrun, rfl, rfl⟩ := startElection_rule (r := s.nodes c)
    (Q := fun r sent => r = (s.nodes c).stands ∧ sent = (s.nodes c).peers.map fun peerID =>
      .voteRequest peerID ((s.nodes c).stands.voteArgs last))
    (hok.nodes c).log.length_pos (fun h => absurd h (by omega)) (fun last' hlast' => by
      obtain rfl := Option.some.inj (hlast'.symm.trans hlast)
      exact ⟨rfl, rfl⟩)
  have hstep : s.step cfg (.electionTimeout c) = .ok (((s.setNode c (s.nodes c).stands).setVotes c
      (s.nodes c).stands.currentTerm 1).send ((s.nodes c).peers.map fun peerID =>
        .voteRequest peerID ((s.nodes c).stands.voteArgs last))) := by
    rw [Cluster.step, if_pos ⟨hc, halive, hrole⟩, hrun]
    rfl
  refine ⟨_, Cluster.within_step (by simp) hstep (Cluster.setNode_outside _ hcQ), rfl,
    if_pos ⟨rfl, rfl⟩, fun p hp => ?_⟩
  rw [← (hok.nodes c).peers_eq] at hp
  exact List.mem_append_right _ (List.mem_map_of_mem hp)

/-- **A vote.**  A node that votes for a candidate handles its request, and the candidate the
    reply: it is elected, or has one vote more. -/
theorem canvass (hok : ClusterOk cfg s) {c q : Int} (hne : q ≠ c) (hcQ : c ∈ Q) (hqQ : q ∈ Q)
    {args : RequestVoteArgs} (hid : args.candidateID = c)
    (hasked : .voteRequest q args ∈ s.net) (hyields : (s.nodes q).Yields args)
    (hrole : (s.nodes c).role = .candidate) (hterm : (s.nodes c).currentTerm = args.term) :
    ∃ s', Cluster.Within cfg Q s s' ∧ (∀ j, j ≠ c → j ≠ q → s'.nodes j = s.nodes j) ∧
      (s'.nodes q).currentTerm = args.term ∧
      (s'.nodes c = (s.nodes c).elected ∨
        s.votesReceived c args.term + 1 < (s.nodes c).majorityNeeded ∧
        s'.nodes c = s.nodes c ∧
        s'.votesReceived c args.term = s.votesReceived c args.term + 1 ∧
        ∀ p, p ≠ q → .voteRequest p args ∈ s.net → .voteRequest p args ∈ s'.net) := by
  obtain ⟨i, hi⟩ := List.getElem?_of_mem hasked
  -- the first of two deliveries: the voter grants its vote, and the reply is in flight
  let voter : RaftNode :=
    { (s.nodes q).becomeFollower args.term with votedFor := args.candidateID }
  let s₁ := ((s.take i).setNode q voter).send [.voteReply q args ⟨args.term, true⟩]
  have hrequest : s.step cfg (.deliver i) = .ok s₁ := by
    simp only [Cluster.step, hi, Cluster.receive, Cluster.take_nodes, hyields.requestVote]
    rfl
  have hreplied : Packet.voteReply q args ⟨args.term, true⟩ ∈ s₁.net :=
    List.mem_append_right _ (List.mem_singleton_self _)
  obtain ⟨j, hj⟩ := List.getElem?_of_mem hreplied
  have hnode : s₁.nodes c = s.nodes c := Cluster.setNode_nodes_of_ne _ hne.symm
  have hother : ∀ p, p ≠ q → .voteRequest p args ∈ s.net →
      .voteRequest p args ∈ (s₁.take j).net := by
    intro p hp hmem
    refine Cluster.mem_take hj (List.mem_append_left _ (Cluster.mem_take hi hmem ?_)) (by simp)
    simpa using hp
  have hfirst : Cluster.Within cfg Q s s₁ :=
    Cluster.within_step (by simp) hrequest (Cluster.setNode_outside (s := s.take i) voter hqQ)
  -- the second: the candidate counts the vote
  obtain ⟨r, sent, hrun, hr⟩ := (hok.nodes c).count_vote (s.votesReceived c args.term) hrole hterm
  let s₂ := (((s₁.take j).setNode c r).setVotes c args.term
    (s.votesReceived c args.term + 1)).send sent
  have hreply : s₁.step cfg (.deliver j) = .ok s₂ := by
    simp only [Cluster.step, hj, Cluster.receive, Cluster.take_nodes, hid, hnode]
    rw [show (s₁.take j).votesReceived c args.term = s.votesReceived c args.term from rfl, hrun]
    rfl
  have hcandidate : s₂.nodes c = r := Cluster.setNode_nodes_self (s₁.take j) c r
  have hrest : ∀ k, k ≠ c → s₂.nodes k = s₁.nodes k := fun k hk =>
    Cluster.setNode_nodes_of_ne (s := s₁.take j) r hk
  refine ⟨s₂, hfirst.trans (Cluster.within_step (by simp) hreply
    (Cluster.setNode_outside (s := s₁.take j) r hcQ)), ?_, ?_, ?_⟩
  · intro k hkc hkq
    exact (hrest k hkc).trans (Cluster.setNode_nodes_of_ne (s := s.take i) voter hkq)
  · rw [hrest q hne, show s₁.nodes q = voter from Cluster.setNode_nodes_self (s.take i) q voter]
    rfl
  · rw [hcandidate]
    rcases hr with hlead | ⟨hfew, heq⟩
    · exact Or.inl hlead
    · exact Or.inr ⟨hfew, heq, if_pos ⟨rfl, rfl⟩,
        fun p hp hmem => List.mem_append_left _ (hother p hp hmem)⟩

end Hallownest.Consensus
