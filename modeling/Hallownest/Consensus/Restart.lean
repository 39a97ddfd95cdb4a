import Hallownest.Consensus.Handlers
import Hallownest.Consensus.Safety

namespace Hallownest.Consensus

open Replog (Majority)
open RaftNode (Settles)

/-!
# Consensus — nodes that crash and come back

A node that crashes loses its memory, and comes back as `NewRaftNode` makes it: in term 0,
without a vote.  The source calls the term, the vote and the log persistent, but they are fields
of the node and nowhere else.

* `Restarting` — a cluster whose nodes may crash, as long as fewer than half are down, and come
  back.  The calls a node was waiting for die with it; its requests may still arrive.
* `Elections` — what carries the argument: a candidate has counted votes that were cast, no vote
  twice, and a leader has those of a majority.
* `restart_leader_unique` — a term has one leader as long as no node votes for two candidates in
  a term; `restart_two_leaders` is a run in which a node does so after a crash.
-/

variable {cfg : Config}

/-! ### Crashes and restarts -/

/-- The node that waits for the end of the call a packet belongs to. -/
def Packet.caller : Packet → Int
  | .voteRequest _ args => args.candidateID
  | .voteReply _ args _ => args.candidateID
  | .appendRequest _ args => args.leaderID
  | .appendReply _ args _ => args.leaderID

/-- The node a packet is on its way to. -/
def Packet.addressee : Packet → Int
  | .voteRequest peer _ => peer
  | .voteReply _ args _ => args.candidateID
  | .appendRequest peer _ => peer
  | .appendReply _ args _ => args.leaderID

/-- A vote that was cast. -/
structure Vote where
  voter : Int
  term : Int
  candidate : Int
  deriving DecidableEq, Repr

/-- A cluster, the nodes that are down, the packets of calls whose callers have crashed, and a
    record of all votes so far. -/
structure Restarting where
  cluster : Cluster
  down : List Int
  orphans : List Packet
  votes : List Vote

/-- What may happen next. -/
inductive Move
  | act (a : Action)
  | crash (id : Int)
  | restart (id : Int)
  | deliverOrphan (i : ℕ)
  | loseOrphan (i : ℕ)
  deriving DecidableEq, Repr

namespace Cluster

/-- The node that takes a step. -/
def actor (s : Cluster) : Action → Option Int
  | .electionTimeout id => some id
  | .heartbeatTick id => some id
  | .submit id _ _ _ => some id
  | .deliver i => (s.net[i]?).map Packet.addressee
  | .lose _ => none
  | .kill id => some id

/-- The vote with which a packet is answered. -/
def votesFor (s : Cluster) : Packet → List Vote
  | .voteRequest peer args =>
    match (s.nodes peer).requestVote args with
    | some (_, reply) =>
      if reply.voteGranted then [⟨peer, args.term, args.candidateID⟩] else []
    | none => []
  | _ => []

/-- The votes cast in a step. -/
def votesCast (s : Cluster) : Action → List Vote
  | .electionTimeout id => [⟨id, (s.nodes id).currentTerm + 1, id⟩]
  | .deliver i =>
    match s.net[i]? with
    | some p => s.votesFor p
    | none => []
  | _ => []

/-- A packet of a call whose caller has crashed arrives: nobody waits for the answer. -/
def receiveOrphan (s : Cluster) : Packet → Option Cluster
  | .voteRequest peer args => do
    let (r, _) ← (s.nodes peer).requestVote args
    return s.setNode peer r
  | .appendRequest peer args => do
    let (r, _) ← (s.nodes peer).appendEntries args
    return s.setNode peer r
  | _ => some s

end Cluster

namespace Restarting

/-- All nodes are up. -/
def initial (cfg : Config) : Restarting where
  cluster := Cluster.initial cfg
  down := []
  orphans := []
  votes := []

/-- One step. -/
def step (cfg : Config) (s : Restarting) : Move → Except Fault Restarting
  | .act a =>
    if ∀ id ∈ s.cluster.actor a, id ∉ s.down then do
      let cluster ← s.cluster.step cfg a
      return { s with cluster := cluster, votes := s.votes ++ s.cluster.votesCast a }
    else .error .disabled
  | .crash id =>
    if id ∈ cfg.ids ∧ id ∉ s.down ∧ 2 * (s.down.length + 1) < cfg.ids.length then
      .ok { s with
        cluster := { s.cluster with
          net := s.cluster.net.filter fun p => decide (p.caller ≠ id) }
        down := id :: s.down
        orphans := s.orphans ++ s.cluster.net.filter fun p => decide (p.caller = id) }
    else .error .disabled
  | .restart id =>
    if id ∈ s.down then
      .ok { s with
        cluster := s.cluster.setNode id
          (newRaftNode id (cfg.peers id) (if cfg.hasApplyCh id then some [] else none))
        down := s.down.filter fun j => decide (j ≠ id) }
    else .error .disabled
  | .deliverOrphan i =>
    match s.orphans[i]? with
    | some p =>
      if p.addressee ∉ s.down then orPanic do
        let cluster ← s.cluster.receiveOrphan p
        return { s with
          cluster := cluster
          orphans := s.orphans.eraseIdx i
          votes := s.votes ++ s.cluster.votesFor p }
      else .error .disabled
    | none => .error .disabled
  | .loseOrphan i =>
    if i < s.orphans.length then .ok { s with orphans := s.orphans.eraseIdx i }
    else .error .disabled

/-- `s` is reached by the moves `moves`. -/
def Reached (cfg : Config) (moves : List Move) (s : Restarting) : Prop :=
  Run.Reached (step cfg) (initial cfg) moves s

/-- No node has voted for two candidates in a term. -/
def OneVote (s : Restarting) : Prop :=
  ∀ x ∈ s.votes, ∀ y ∈ s.votes, x.voter = y.voter → x.term = y.term →
    x.candidate = y.candidate

/-- The vote RPCs in flight: candidate, term and voter. -/
def calls (s : Restarting) : List (Int × Int × Int) := s.cluster.net.filterMap voteCall

/-! ### The invariant -/

/-- The counter of a candidate counts the nodes in `counted`, all of which voted for it. -/
structure Counts (cfg : Config) (cast : List Vote) (id term votes : Int)
    (counted : Finset Int) : Prop where
  votes : votes = counted.card
  members : counted ⊆ cfg.ids.toFinset
  voted : ∀ v ∈ counted, ⟨v, term, id⟩ ∈ cast

/-- **The invariant of elections.**  `counted id term` are the nodes whose votes `id` has counted
    in the last election it has started in `term`. -/
structure Elections (cfg : Config) (s : Restarting) (counted : Int → Int → Finset Int) :
    Prop where
  nodes : ∀ id ∈ cfg.ids, (s.cluster.nodes id).id = id ∧
    (s.cluster.nodes id).peers = cfg.peers id
  calls_nodup : s.calls.Nodup
  call_ok : ∀ {c t p}, (c, t, p) ∈ s.calls →
    c ∈ cfg.ids ∧ c ∉ s.down ∧ p ∈ cfg.peers c ∧ t ≤ (s.cluster.nodes c).currentTerm
  fresh : ∀ {c t p}, p ∈ counted c t → (c, t, p) ∉ s.calls
  granted : ∀ {peer args reply}, Packet.voteReply peer args reply ∈ s.cluster.net →
    reply.voteGranted = true → ⟨peer, args.term, args.candidateID⟩ ∈ s.votes
  candidate : ∀ id ∈ cfg.ids, (s.cluster.nodes id).role = .candidate →
    Counts cfg s.votes id (s.cluster.nodes id).currentTerm
      (s.cluster.votesReceived id (s.cluster.nodes id).currentTerm)
      (counted id (s.cluster.nodes id).currentTerm)
  leader : ∀ id ∈ cfg.ids, (s.cluster.nodes id).role = .leader →
    ∃ Q, Majority cfg.ids.toFinset Q ∧
      ∀ v ∈ Q, ⟨v, (s.cluster.nodes id).currentTerm, id⟩ ∈ s.votes

theorem elections_initial : Elections cfg (initial cfg) (fun _ _ => ∅) where
  nodes := fun _ _ => ⟨rfl, rfl⟩
  calls_nodup := List.nodup_nil
  call_ok := by intro c t p h; simp [calls, initial, Cluster.initial] at h
  fresh := by intro c t p h; simp at h
  granted := by intro peer args reply h; simp [initial, Cluster.initial] at h
  candidate := by intro id _ h; cases h
  leader := by intro id _ h; cases h

variable {s s' : Restarting} {counted : Int → Int → Finset Int}

theorem Counts.mono {cast cast' : List Vote} {id term votes : Int} {Q : Finset Int}
    (h : Counts cfg cast id term votes Q) (hsub : cast ⊆ cast') :
    Counts cfg cast' id term votes Q :=
  ⟨h.votes, h.members, fun v hv => hsub (h.voted v hv)⟩

/-- One more vote is counted. -/
theorem Counts.insert {cast : List Vote} {id term votes p : Int} {Q : Finset Int}
    (h : Counts cfg cast id term votes Q) (hp : p ∉ Q) (hmem : p ∈ cfg.ids)
    (hvoted : ⟨p, term, id⟩ ∈ cast) : Counts cfg cast id term (votes + 1) (insert p Q) where
  votes := by rw [Finset.card_insert_of_notMem hp, h.votes]; push_cast; rfl
  members := by
    intro v hv
    rcases Finset.mem_insert.mp hv with rfl | hv
    · simpa using hmem
    · exact h.members hv
  voted := by
    intro v hv
    rcases Finset.mem_insert.mp hv with rfl | hv
    · exact hvoted
    · exact h.voted v hv

/-- **A step without an election**: one node may have been replaced by one that settles, the
    counters are the same, no new call is in flight, and a granted vote in flight is on
    record. -/
theorem Elections.settle (h : Elections cfg s counted) (id : Int) (r : RaftNode)
    (hr : Settles (s.cluster.nodes id) r)
    (hnodes : s'.cluster.nodes = (s.cluster.setNode id r).nodes)
    (hcounters : ∀ j t, s'.cluster.votesReceived j t = s.cluster.votesReceived j t)
    (hdown : s'.down = s.down) (hvotes : s.votes ⊆ s'.votes)
    (hcalls : s'.calls.Subperm s.calls)
    (hgranted : ∀ {peer args reply}, Packet.voteReply peer args reply ∈ s'.cluster.net →
      Packet.voteReply peer args reply ∈ s.cluster.net ∨ (reply.voteGranted = true →
        ⟨peer, args.term, args.candidateID⟩ ∈ s'.votes)) :
    Elections cfg s' counted := by
  -- every node settles
  have hall : ∀ j, Settles (s.cluster.nodes j) (s'.cluster.nodes j) := by
    intro j
    rw [hnodes]
    exact Cluster.setNode_relates Settles.refl hr j
  exact {
    nodes := by
      intro j hj
      exact ⟨(hall j).id_eq.trans (h.nodes j hj).1, (hall j).peers_eq.trans (h.nodes j hj).2⟩
    calls_nodup := by
      obtain ⟨l, hperm, hsub⟩ := hcalls
      exact hperm.nodup_iff.mp (h.calls_nodup.sublist hsub)
    call_ok := by
      intro c t p hmem
      obtain ⟨hc, hup, hp, ht⟩ := h.call_ok (hcalls.subset hmem)
      exact ⟨hc, by rw [hdown]; exact hup, hp, le_trans ht (hall c).term_le⟩
    fresh := fun hp hmem => h.fresh hp (hcalls.subset hmem)
    granted := by
      intro peer args reply hmem hg
      rcases hgranted hmem with hold | hnew
      · exact hvotes (h.granted hold hg)
      · exact hnew hg
    candidate := by
      intro j hj hc
      obtain ⟨hwas, hterm⟩ := (hall j).candidate hc
      rw [hterm, hcounters]
      exact (h.candidate j hj hwas).mono hvotes
    leader := by
      intro j hj hl
      obtain ⟨hwas, hterm⟩ := (hall j).leader hl
      obtain ⟨Q, hQ, hvoted⟩ := h.leader j hj hwas
      rw [hterm]
      exact ⟨Q, hQ, fun v hv => hvotes (hvoted v hv)⟩ }

/-! ### Steps -/

/-- Append requests belong to no vote RPC. -/
theorem voteCall_of_quotes {r : RaftNode} {q : Packet} (h : r.Quotes q) : voteCall q = none := by
  obtain ⟨peer, args, rfl, _⟩ := h
  rfl

theorem calls_of_quiet {sent : List Packet} (h : ∀ q ∈ sent, voteCall q = none) :
    sent.filterMap voteCall = [] :=
  List.filterMap_eq_nil_iff.mpr h

theorem reply_of_quiet {sent : List Packet} (h : ∀ q ∈ sent, voteCall q = none) {peer : Int}
    {args : RequestVoteArgs} {reply : RequestVoteReply} :
    Packet.voteReply peer args reply ∉ sent := by
  intro hmem
  cases h _ hmem

/-- A step without an election that takes packets out of the network and sends none of a vote
    RPC. -/
theorem Elections.settle_quiet (h : Elections cfg s counted) (id : Int) (r : RaftNode)
    (hr : Settles (s.cluster.nodes id) r)
    (hnodes : s'.cluster.nodes = (s.cluster.setNode id r).nodes)
    (hcounters : ∀ j t, s'.cluster.votesReceived j t = s.cluster.votesReceived j t)
    (hdown : s'.down = s.down) (hvotes : s.votes ⊆ s'.votes) {net sent : List Packet}
    (hnet : s'.cluster.net = net ++ sent) (hsub : net.Sublist s.cluster.net)
    (hquiet : ∀ q ∈ sent, voteCall q = none) : Elections cfg s' counted := by
  refine h.settle id r hr hnodes hcounters hdown hvotes ?_ ?_
  · rw [calls, hnet, List.filterMap_append, calls_of_quiet hquiet, List.append_nil]
    exact (hsub.filterMap _).subperm
  · intro peer args reply hmem
    rw [hnet] at hmem
    rcases List.mem_append.mp hmem with hold | hnew
    · exact Or.inl (hsub.subset hold)
    · exact absurd hnew (reply_of_quiet hquiet)

/-- While a packet of a vote RPC is being delivered, no other packet of that RPC is in flight and
    its vote is not counted. -/
theorem Elections.call_taken (h : Elections cfg s counted) {i : ℕ} {p : Packet}
    (hp : s.cluster.net[i]? = some p) {c t v : Int} (hcall : voteCall p = some (c, t, v)) :
    (c, t, v) ∈ s.calls ∧ (c, t, v) ∉ (s.cluster.take i).net.filterMap voteCall ∧
      v ∉ counted c t := by
  have hperm := (take_perm hp).filterMap voteCall
  rw [List.filterMap_cons_some hcall] at hperm
  have hmem : (c, t, v) ∈ s.calls := hperm.mem_iff.mpr List.mem_cons_self
  have hnodup := hperm.nodup_iff.mp h.calls_nodup
  exact ⟨hmem, (List.nodup_cons.mp hnodup).1, fun hv => h.fresh hv hmem⟩

/-- What a node sends when it starts an election: a request to each peer, or none of a vote RPC
    if it is elected at once. -/
private theorem startElection_calls {id : Int} (hid : id ∈ cfg.ids) {r r' : RaftNode}
    (hnid : r.id = id) (hpeers : r.peers = cfg.peers id) {votes : Int} {sent : List Packet}
    (hrun : r.startElection = some (r', votes, sent)) :
    (sent.filterMap voteCall).Nodup ∧
      (∀ x ∈ sent.filterMap voteCall, ∃ p ∈ cfg.peers id, x = (id, r.currentTerm + 1, p)) ∧
      ∀ peer args reply, Packet.voteReply peer args reply ∉ sent := by
  rcases (RaftNode.startElection_cases hrun).2 with ⟨_, _, hcast⟩ | ⟨_, args, hterm, hcand, rfl⟩
  · have hquiet : ∀ q ∈ sent, voteCall q = none :=
      fun q hq => voteCall_of_quotes (RaftNode.quotes_broadcast hcast q hq)
    rw [calls_of_quiet hquiet]
    exact ⟨List.nodup_nil, by simp, fun _ _ _ => reply_of_quiet hquiet⟩
  · have hcalls : (r.peers.map fun p => Packet.voteRequest p args).filterMap voteCall =
        (cfg.peers id).map fun p => (id, r.currentTerm + 1, p) := by
      rw [List.filterMap_map, hpeers, ← hterm]
      rw [show (voteCall ∘ fun p => Packet.voteRequest p args) =
        some ∘ fun p => (id, args.term, p) by funext p; simp [voteCall, hcand, hnid]]
      exact congrFun List.filterMap_eq_map _
    rw [hcalls]
    refine ⟨(peers_nodup hid).map fun p q hpq => by simpa using hpq, ?_, by simp⟩
    intro x hx
    obtain ⟨p, hp, rfl⟩ := List.mem_map.mp hx
    exact ⟨p, hp, rfl⟩

/-- **A step of a candidate**: node `id` is replaced by `r`, its counter for the term of `r` is
    `votes` and counts the nodes in `Q`, and the calls in flight are old ones or new ones of
    that election. -/
theorem Elections.campaign (h : Elections cfg s counted) {id : Int} {r : RaftNode} {votes : Int}
    {Q : Finset Int} (hid : id ∈ cfg.ids) (hup : id ∉ s.down) (hrid : r.id = id)
    (hpeers : r.peers = cfg.peers id)
    (hterm : (s.cluster.nodes id).currentTerm ≤ r.currentTerm)
    (hnodes : s'.cluster.nodes = (s.cluster.setNode id r).nodes)
    (hcounters : ∀ j t, s'.cluster.votesReceived j t =
      if j = id ∧ t = r.currentTerm then votes else s.cluster.votesReceived j t)
    (hdown : s'.down = s.down) (hvotes : s.votes ⊆ s'.votes) (hnodup : s'.calls.Nodup)
    (hcalls : ∀ x ∈ s'.calls, x ∈ s.calls ∨ ∃ p ∈ cfg.peers id, x = (id, r.currentTerm, p))
    (hfresh : ∀ p ∈ Q, (id, r.currentTerm, p) ∉ s'.calls)
    (hgranted : ∀ {peer args reply}, Packet.voteReply peer args reply ∈ s'.cluster.net →
      Packet.voteReply peer args reply ∈ s.cluster.net)
    (hcount : Counts cfg s'.votes id r.currentTerm votes Q)
    (hlead : r.role = .leader → votes ≥ r.majorityNeeded) :
    Elections cfg s' (fun c t => if c = id ∧ t = r.currentTerm then Q else counted c t) where
  nodes := by
    rw [hnodes]
    exact Cluster.setNode_forall (I := fun j r => r.id = j ∧ r.peers = cfg.peers j) h.nodes
      fun _ => ⟨hrid, hpeers⟩
  calls_nodup := hnodup
  call_ok := by
    intro c t p hmem
    rw [hdown, hnodes]
    rcases hcalls _ hmem with hold | ⟨q, hq, heq⟩
    · obtain ⟨hc, hcup, hp, ht⟩ := h.call_ok hold
      refine ⟨hc, hcup, hp, ?_⟩
      by_cases hcid : c = id
      · subst hcid
        rw [Cluster.setNode_nodes_self]
        exact le_trans ht hterm
      · rw [Cluster.setNode_nodes_of_ne r hcid]
        exact ht
    · obtain ⟨rfl, rfl, rfl⟩ : c = id ∧ t = r.currentTerm ∧ p = q := by simpa using heq
      exact ⟨hid, hup, hq, by rw [Cluster.setNode_nodes_self]⟩
  fresh := by
    intro c t p hp hmem
    -- the new counter has its own fresh calls; a new call is of no other counter's election
    by_cases hct : c = id ∧ t = r.currentTerm
    · rw [if_pos hct] at hp
      obtain ⟨rfl, rfl⟩ := hct
      exact hfresh p hp hmem
    · rw [if_neg hct] at hp
      rcases hcalls _ hmem with hold | ⟨q, _, heq⟩
      · exact h.fresh hp hold
      · exact hct ⟨congrArg Prod.fst heq, congrArg (fun x => x.2.1) heq⟩
  granted := fun hmem hg => hvotes (h.granted (hgranted hmem) hg)
  candidate := by
    rw [hnodes]
    refine Cluster.setNode_forall (I := fun j r' => r'.role = .candidate →
      Counts cfg s'.votes j r'.currentTerm (s'.cluster.votesReceived j r'.currentTerm)
        (if j = id ∧ r'.currentTerm = r.currentTerm then Q else counted j r'.currentTerm)) ?_ ?_
    · intro j hj hc
      rw [hcounters]
      by_cases hct : j = id ∧ (s.cluster.nodes j).currentTerm = r.currentTerm
      · rw [if_pos hct, if_pos hct, hct.2, hct.1]
        exact hcount
      · rw [if_neg hct, if_neg hct]
        exact (h.candidate j hj hc).mono hvotes
    · intro _ _
      rw [hcounters, if_pos ⟨rfl, rfl⟩, if_pos ⟨rfl, rfl⟩]
      exact hcount
  leader := by
    rw [hnodes]
    refine Cluster.setNode_forall (I := fun j r' => r'.role = .leader →
      ∃ Q, Majority cfg.ids.toFinset Q ∧ ∀ v ∈ Q, ⟨v, r'.currentTerm, j⟩ ∈ s'.votes) ?_ ?_
    · intro j hj hl
      obtain ⟨R, hR, hvoted⟩ := h.leader j hj hl
      exact ⟨R, hR, fun v hv => hvotes (hvoted v hv)⟩
    · intro _ hl
      -- the counter counts `Q`, so `Q` is as large as the majority the node checks for
      refine ⟨Q, ⟨hcount.members, ?_⟩, hcount.voted⟩
      have hmaj := hlead hl
      have hlen := peers_length hid
      rw [RaftNode.majorityNeeded, hpeers, hcount.votes] at hmaj
      omega

/-- **An election starts**: its calls are new, because its term is. -/
theorem Elections.electionTimeout (h : Elections cfg s counted) {id : Int} {r : RaftNode}
    {votes : Int} {sent : List Packet} (hid : id ∈ cfg.ids) (hup : id ∉ s.down)
    (hrun : (s.cluster.nodes id).startElection = some (r, votes, sent)) :
    ∃ counted', Elections cfg { s with
      cluster := ((s.cluster.setNode id r).setVotes id r.currentTerm votes).send sent
      votes := s.votes ++ [⟨id, (s.cluster.nodes id).currentTerm + 1, id⟩] } counted' := by
  obtain ⟨hnid, hpeers⟩ := h.nodes id hid
  obtain ⟨hone, hcases⟩ := RaftNode.startElection_cases hrun
  -- the node as it is now
  obtain ⟨hrid, hrpeers, hterm⟩ : r.id = id ∧ r.peers = cfg.peers id ∧
      r.currentTerm = (s.cluster.nodes id).currentTerm + 1 := by
    rcases hcases with ⟨_, rfl, _⟩ | ⟨rfl, _⟩
    · exact ⟨hnid, hpeers, rfl⟩
    · exact ⟨hnid, hpeers, rfl⟩
  obtain ⟨hnodup, hsent, hreply⟩ := startElection_calls hid hnid hpeers hrun
  rw [← hterm] at hsent
  have hnew : ∀ {p}, (id, r.currentTerm, p) ∉ s.calls := by
    intro p hmem
    have := (h.call_ok hmem).2.2.2
    omega
  have hcalls : ∀ x ∈ (s.cluster.net ++ sent).filterMap voteCall,
      x ∈ s.calls ∨ ∃ p ∈ cfg.peers id, x = (id, r.currentTerm, p) := by
    intro x hx
    rw [List.filterMap_append, List.mem_append] at hx
    exact hx.imp_right (hsent x)
  refine ⟨_, h.campaign (Q := {id}) hid hup hrid hrpeers (by omega) rfl
    (fun _ _ => rfl) rfl (List.subset_append_left _ _) ?_ hcalls ?_ ?_ ?_ ?_⟩
  · show ((s.cluster.net ++ sent).filterMap voteCall).Nodup
    rw [List.filterMap_append, List.nodup_append]
    refine ⟨h.calls_nodup, hnodup, ?_⟩
    rintro x hx y hy rfl
    obtain ⟨p, _, rfl⟩ := hsent x hy
    exact hnew hx
  · -- the candidate has counted itself, to which it sends no request
    intro p hp hmem
    obtain rfl := Finset.mem_singleton.mp hp
    rcases hcalls _ hmem with hold | ⟨q, hq, heq⟩
    · exact hnew hold
    · obtain rfl : p = q := by simpa using heq
      exact ((mem_peers hid).mp hq).1 rfl
  · intro peer args reply hmem
    exact (List.mem_append.mp hmem).resolve_right (hreply peer args reply)
  · exact ⟨by simp [hone], by simpa using hid, by simp [hterm]⟩
  · intro hl
    rcases hcases with ⟨hmaj, rfl, _⟩ | ⟨rfl, _⟩
    · -- the node is a majority by itself
      rw [hone]
      exact hmaj
    · cases hl

/-- **A vote is counted**, and never again: its call has left the network. -/
theorem Elections.count (h : Elections cfg s counted) {i : ℕ} {peer : Int}
    {args : RequestVoteArgs} {reply : RequestVoteReply}
    (hp : s.cluster.net[i]? = some (.voteReply peer args reply))
    (hcand : (s.cluster.nodes args.candidateID).role = .candidate)
    (hterm : (s.cluster.nodes args.candidateID).currentTerm = args.term)
    (hgrant : reply.voteGranted = true) {r : RaftNode} {votes : Int} {sent : List Packet}
    (hvotes : votes = s.cluster.votesReceived args.candidateID args.term + 1)
    (hr : (r = s.cluster.nodes args.candidateID ∧ sent = []) ∨
      (votes ≥ (s.cluster.nodes args.candidateID).majorityNeeded ∧
        r = (s.cluster.nodes args.candidateID).elected ∧ r.broadcastHeartbeats = some sent)) :
    ∃ counted', Elections cfg { s with
      cluster := (((s.cluster.take i).setNode args.candidateID r).setVotes args.candidateID
        args.term votes).send sent } counted' := by
  obtain ⟨hmem, hnot, hcnt⟩ := h.call_taken hp (c := args.candidateID) (t := args.term)
    (v := peer) rfl
  obtain ⟨hid, hup, hpeer, _⟩ := h.call_ok hmem
  have hvoted := h.granted (List.mem_of_getElem? hp) hgrant
  obtain ⟨hnid, hpeers⟩ := h.nodes _ hid
  have hcount := h.candidate _ hid hcand
  rw [hterm] at hcount
  generalize args.candidateID = id at *
  obtain ⟨hrid, hrpeers, hrterm⟩ : r.id = id ∧ r.peers = cfg.peers id ∧
      r.currentTerm = args.term := by
    rcases hr with ⟨rfl, _⟩ | ⟨_, rfl, _⟩
    · exact ⟨hnid, hpeers, hterm⟩
    · exact ⟨hnid, hpeers, hterm⟩
  have hquiet : ∀ q ∈ sent, voteCall q = none := by
    rcases hr with ⟨_, rfl⟩ | ⟨_, _, hcast⟩
    · simp
    · exact fun q hq => voteCall_of_quotes (RaftNode.quotes_broadcast hcast q hq)
  have hcalls : ((s.cluster.take i).net ++ sent).filterMap voteCall =
      (s.cluster.take i).net.filterMap voteCall := by
    rw [List.filterMap_append, calls_of_quiet hquiet, List.append_nil]
  have hsub : ((s.cluster.take i).net.filterMap voteCall).Sublist s.calls :=
    (List.eraseIdx_sublist _ _).filterMap _
  rw [← hrterm] at hcount hcnt hnot hvoted hvotes ⊢
  refine ⟨_, h.campaign (Q := insert peer (counted id r.currentTerm)) hid hup
    hrid hrpeers (by omega) rfl (fun _ _ => rfl) rfl (List.Subset.refl _) ?_ ?_ ?_ ?_ ?_ ?_⟩
  · show (((s.cluster.take i).net ++ sent).filterMap voteCall).Nodup
    rw [hcalls]
    exact h.calls_nodup.sublist hsub
  · show ∀ x ∈ ((s.cluster.take i).net ++ sent).filterMap voteCall, _
    rw [hcalls]
    exact fun x hx => Or.inl (hsub.subset hx)
  · intro p hp'
    show _ ∉ ((s.cluster.take i).net ++ sent).filterMap voteCall
    rw [hcalls]
    rcases Finset.mem_insert.mp hp' with rfl | hp'
    · exact hnot
    · exact fun hmem' => h.fresh hp' (hsub.subset hmem')
  · intro peer' args' reply' hmem'
    exact List.mem_of_mem_eraseIdx ((List.mem_append.mp hmem').resolve_right
      (reply_of_quiet hquiet))
  · -- the votes counted so far and this one
    rw [hvotes]
    exact hcount.insert hcnt ((mem_peers hid).mp hpeer).2 hvoted
  · intro hl
    rcases hr with ⟨rfl, _⟩ | ⟨hmaj, rfl, _⟩
    · rw [hcand] at hl; cases hl
    · exact hmaj

/-- **One step of the cluster.** -/
theorem Elections.act (h : Elections cfg s counted) {a : Action} {c : Cluster}
    (hup : ∀ id ∈ s.cluster.actor a, id ∉ s.down) (hstep : s.cluster.step cfg a = .ok c) :
    ∃ counted', Elections cfg { s with
      cluster := c, votes := s.votes ++ s.cluster.votesCast a } counted' := by
  have htake : ∀ i, (s.cluster.net.eraseIdx i).Sublist s.cluster.net :=
    fun i => List.eraseIdx_sublist _ _
  have hnone : ∀ q ∈ ([] : List Packet), voteCall q = none := by simp
  cases Cluster.step_takes hstep with
  | @electionTimeout id r votes sent hid _ hrun =>
    exact h.electionTimeout hid (hup id rfl) hrun
  | @heartbeatTick id sent hid hrun =>
    exact ⟨counted, h.settle_quiet id _ (Settles.refl _) (by rw [setNode_self]; rfl)
      (fun _ _ => rfl) rfl (List.subset_append_left _ _) rfl (List.Sublist.refl _)
      fun q hq => voteCall_of_quotes (RaftNode.quotes_broadcast hrun q hq)⟩
  | @submit id key value tombstone r res sent hid hrun =>
    have hquiet : ∀ q ∈ sent, voteCall q = none := by
      rcases RaftNode.submit_cases hrun with ⟨_, _, _, rfl⟩ | ⟨_, _, _, hcast⟩
      · exact hnone
      · exact fun q hq => voteCall_of_quotes (RaftNode.quotes_broadcast hcast q hq)
    exact ⟨counted, h.settle_quiet _ _ (RaftNode.settles_submit hrun) rfl (fun _ _ => rfl) rfl
      (List.subset_append_left _ _) rfl (List.Sublist.refl _) hquiet⟩
  | @voteRequest i peer args r reply hp hrun =>
    refine ⟨counted, h.settle _ _ (RaftNode.settles_requestVote hrun) rfl (fun _ _ => rfl) rfl
      (List.subset_append_left _ _) ?_ ?_⟩
    · -- the call stays in flight, now as a reply
      have hcall : voteCall (.voteRequest peer args) =
        some (args.candidateID, args.term, peer) := rfl
      have hperm := (take_perm hp).filterMap voteCall
      rw [List.filterMap_cons_some hcall] at hperm
      show ((s.cluster.net.eraseIdx i ++ [Packet.voteReply peer args reply]).filterMap
        voteCall).Subperm _
      rw [List.filterMap_append]
      exact ((List.perm_append_comm).trans hperm.symm).subperm
    · intro peer' args' reply' hmem
      rcases List.mem_append.mp hmem with hold | hnew
      · exact Or.inl (List.mem_of_mem_eraseIdx hold)
      · cases List.mem_singleton.mp hnew
        refine Or.inr fun hg => List.mem_append_right _ ?_
        simp [Cluster.votesCast, Cluster.votesFor, hp, hrun, hg]
  | @voteReply i peer args reply r votes sent hp hrun =>
    -- no vote is cast when a reply arrives
    have hcast : s.votes ++ s.cluster.votesCast (.deliver i) = s.votes := by
      simp [Cluster.votesCast, Cluster.votesFor, hp]
    rw [hcast]
    have hplain : ∀ {r : RaftNode}, Settles (s.cluster.nodes args.candidateID) r →
        Elections cfg { s with
          cluster := (((s.cluster.take i).setNode args.candidateID r).setVotes args.candidateID
            args.term (s.cluster.votesReceived args.candidateID args.term)).send [] }
          counted := by
      intro r hr
      refine h.settle_quiet _ _ hr rfl ?_ rfl (List.Subset.refl _) rfl (htake i) hnone
      intro j t
      show (if j = args.candidateID ∧ t = args.term then _ else _) = _
      split
      case isTrue hjt => rw [hjt.1, hjt.2]
      case isFalse => rfl
    rcases RaftNode.handleVoteReply_cases hrun with ⟨rfl, rfl, rfl⟩ | ⟨hlater, rfl, rfl, rfl⟩ |
      ⟨hcand, hterm, hgrant, hvotes, hr⟩
    · exact ⟨counted, hplain (Settles.refl _)⟩
    · exact ⟨counted, hplain (RaftNode.settles_becomeFollower hlater)⟩
    · exact h.count hp hcand hterm hgrant hvotes hr
  | @appendRequest i peer args r reply hp hrun =>
    exact ⟨counted, h.settle_quiet _ _ (RaftNode.settles_appendEntries hrun) rfl (fun _ _ => rfl)
      rfl (List.subset_append_left _ _) rfl (htake i)
      fun q hq => by rw [List.mem_singleton.mp hq]; rfl⟩
  | @appendReply i peer args reply r hp hrun =>
    exact ⟨counted, h.settle_quiet _ _ (RaftNode.settles_handleAppendReply hrun) rfl
      (fun _ _ => rfl) rfl (List.subset_append_left _ _) (List.append_nil _).symm (htake i) hnone⟩
  | @lose i =>
    exact ⟨counted, h.settle_quiet 0 _ (Settles.refl _) (by rw [setNode_self]; rfl)
      (fun _ _ => rfl) rfl (List.subset_append_left _ _) (List.append_nil _).symm (htake i) hnone⟩
  | @kill id =>
    exact ⟨counted, h.settle_quiet id { s.cluster.nodes id with killed := true }
      (RaftNode.settles_of_eq rfl rfl rfl rfl) rfl (fun _ _ => rfl) rfl
      (List.subset_append_left _ _) (List.append_nil _).symm (List.Sublist.refl _) hnone⟩

private theorem caller_of_voteCall {p : Packet} {c t v : Int} (h : voteCall p = some (c, t, v)) :
    p.caller = c := by
  cases p with
  | voteRequest peer args => exact congrArg Prod.fst (Option.some.inj h)
  | voteReply peer args reply => exact congrArg Prod.fst (Option.some.inj h)
  | appendRequest peer args => cases h
  | appendReply peer args reply => cases h

/-- **A crash**: the calls of the node are gone. -/
theorem Elections.crash (h : Elections cfg s counted) {id : Int} (orphans : List Packet) :
    Elections cfg { s with
      cluster := { s.cluster with
        net := s.cluster.net.filter fun p => decide (p.caller ≠ id) }
      down := id :: s.down
      orphans := orphans } counted := by
  have hsub : ((s.cluster.net.filter fun p => decide (p.caller ≠ id)).filterMap voteCall).Sublist
      s.calls := List.filter_sublist.filterMap _
  exact {
    nodes := h.nodes
    calls_nodup := h.calls_nodup.sublist hsub
    call_ok := by
      intro c t p hmem
      obtain ⟨hc, hup, hp, ht⟩ := h.call_ok (hsub.subset hmem)
      refine ⟨hc, ?_, hp, ht⟩
      obtain ⟨q, hq, hcall⟩ := List.mem_filterMap.mp hmem
      have hother : q.caller ≠ id := by simpa using (List.mem_filter.mp hq).2
      rw [caller_of_voteCall hcall] at hother
      exact fun hmem' => (List.mem_cons.mp hmem').elim hother hup
    fresh := fun hp hmem => h.fresh hp (hsub.subset hmem)
    granted := fun hmem => h.granted (List.mem_filter.mp hmem).1
    candidate := h.candidate
    leader := h.leader }

/-- **A restart**: the node is neither candidate nor leader, and no call of it is in flight. -/
theorem Elections.restart (h : Elections cfg s counted) {id : Int} (hdown : id ∈ s.down)
    (applyCh : Option (List ApplyMsg)) :
    Elections cfg { s with
      cluster := s.cluster.setNode id (newRaftNode id (cfg.peers id) applyCh)
      down := s.down.filter fun j => decide (j ≠ id) } counted where
  nodes := Cluster.setNode_forall (I := fun j r => r.id = j ∧ r.peers = cfg.peers j) h.nodes
    fun _ => ⟨rfl, rfl⟩
  calls_nodup := h.calls_nodup
  call_ok := by
    intro c t p hmem
    obtain ⟨hc, hup, hp, ht⟩ := h.call_ok hmem
    have hne : c ≠ id := fun heq => hup (heq ▸ hdown)
    refine ⟨hc, fun hmem' => hup (List.mem_filter.mp hmem').1, hp, ?_⟩
    show t ≤ ((s.cluster.setNode id _).nodes c).currentTerm
    rw [Cluster.setNode_nodes_of_ne _ hne]
    exact ht
  fresh := h.fresh
  granted := h.granted
  candidate := Cluster.setNode_forall (I := fun j r => r.role = .candidate →
    Counts cfg s.votes j r.currentTerm (s.cluster.votesReceived j r.currentTerm)
      (counted j r.currentTerm)) h.candidate (by intro _ hc; cases hc)
  leader := Cluster.setNode_forall (I := fun j r => r.role = .leader →
    ∃ Q, Majority cfg.ids.toFinset Q ∧ ∀ v ∈ Q, ⟨v, r.currentTerm, j⟩ ∈ s.votes) h.leader
    (by intro _ hl; cases hl)

/-- **An orphan arrives.** -/
theorem Elections.deliverOrphan (h : Elections cfg s counted) {p : Packet} {c : Cluster}
    (hrun : s.cluster.receiveOrphan p = some c) (orphans : List Packet) (votes : List Vote) :
    Elections cfg { s with
      cluster := c, orphans := orphans, votes := s.votes ++ votes } counted := by
  -- only the node of the addressee has changed
  have hplain : ∀ (id : Int) (r : RaftNode), Settles (s.cluster.nodes id) r →
      Elections cfg { s with
        cluster := s.cluster.setNode id r
        orphans := orphans, votes := s.votes ++ votes } counted :=
    fun id r hr => h.settle id r hr rfl (fun _ _ => rfl) rfl (List.subset_append_left _ _)
      (List.Subperm.refl _) Or.inl
  have hsame := hplain 0 _ (Settles.refl _)
  rw [setNode_self] at hsame
  cases p with
  | voteRequest peer args =>
    obtain ⟨⟨r, reply⟩, hvote, hrest⟩ := Option.bind_eq_some_iff.mp hrun
    obtain rfl := Option.some.inj hrest
    exact hplain peer r (RaftNode.settles_requestVote hvote)
  | appendRequest peer args =>
    obtain ⟨⟨r, reply⟩, happend, hrest⟩ := Option.bind_eq_some_iff.mp hrun
    obtain rfl := Option.some.inj hrest
    exact hplain peer r (RaftNode.settles_appendEntries happend)
  | voteReply peer args reply => obtain rfl := Option.some.inj hrun; exact hsame
  | appendReply peer args reply => obtain rfl := Option.some.inj hrun; exact hsame

/-- What a step that takes place has done. -/
inductive Takes (cfg : Config) (s : Restarting) : Move → Restarting → Prop
  | act {a : Action} {c : Cluster} (hup : ∀ id ∈ s.cluster.actor a, id ∉ s.down)
      (h : s.cluster.step cfg a = .ok c) :
      Takes cfg s (.act a) { s with cluster := c, votes := s.votes ++ s.cluster.votesCast a }
  | crash {id : Int} (orphans : List Packet) :
      Takes cfg s (.crash id) { s with
        cluster := { s.cluster with
          net := s.cluster.net.filter fun p => decide (p.caller ≠ id) }
        down := id :: s.down
        orphans := orphans }
  | restart {id : Int} (hdown : id ∈ s.down) (applyCh : Option (List ApplyMsg)) :
      Takes cfg s (.restart id) { s with
        cluster := s.cluster.setNode id (newRaftNode id (cfg.peers id) applyCh)
        down := s.down.filter fun j => decide (j ≠ id) }
  | deliverOrphan {i : ℕ} {p : Packet} {c : Cluster}
      (h : s.cluster.receiveOrphan p = some c) (orphans : List Packet) :
      Takes cfg s (.deliverOrphan i) { s with
        cluster := c, orphans := orphans, votes := s.votes ++ s.cluster.votesFor p }
  | loseOrphan {i : ℕ} (orphans : List Packet) :
      Takes cfg s (.loseOrphan i) { s with orphans := orphans }

/-- **Inversion of a step.** -/
theorem step_takes {x : Move} (h : s.step cfg x = .ok s') : Takes cfg s x s' := by
  cases x with
  | act a =>
    rw [step] at h
    split at h
    case isFalse => cases h
    case isTrue hup =>
      cases hc : s.cluster.step cfg a with
      | error e => rw [hc] at h; cases h
      | ok c =>
        rw [hc] at h
        obtain rfl := Except.ok.inj h
        exact .act hup hc
  | crash id =>
    rw [step] at h
    split at h
    case isFalse => cases h
    case isTrue =>
      obtain rfl := Except.ok.inj h
      exact .crash _
  | restart id =>
    rw [step] at h
    split at h
    case isFalse => cases h
    case isTrue hdown =>
      obtain rfl := Except.ok.inj h
      exact .restart hdown _
  | deliverOrphan i =>
    rw [step] at h
    split at h
    case h_2 => cases h
    case h_1 p hp =>
      split at h
      case isFalse => cases h
      case isTrue =>
        obtain ⟨c, hrun, hrest⟩ := Option.bind_eq_some_iff.mp (orPanic_eq_ok.mp h)
        obtain rfl := Option.some.inj hrest
        exact .deliverOrphan hrun _
  | loseOrphan i =>
    rw [step] at h
    split at h
    case isFalse => cases h
    case isTrue =>
      obtain rfl := Except.ok.inj h
      exact .loseOrphan _

/-- **One step** keeps the invariant of elections. -/
theorem Elections.step (h : Elections cfg s counted) {x : Move} (hstep : s.step cfg x = .ok s') :
    ∃ counted', Elections cfg s' counted' := by
  cases step_takes hstep with
  | act hup hc => exact h.act hup hc
  | crash orphans => exact ⟨counted, h.crash orphans⟩
  | restart hdown applyCh => exact ⟨counted, h.restart hdown applyCh⟩
  | deliverOrphan hrun orphans => exact ⟨counted, h.deliverOrphan hrun orphans _⟩
  | loseOrphan orphans => exact ⟨counted, { h with }⟩

/-- Votes stay on record. -/
theorem votes_step {x : Move} (hstep : s.step cfg x = .ok s') : s.votes ⊆ s'.votes := by
  cases step_takes hstep with
  | act _ _ => exact List.subset_append_left _ _
  | crash _ => exact List.Subset.refl _
  | restart _ _ => exact List.Subset.refl _
  | deliverOrphan _ _ => exact List.subset_append_left _ _
  | loseOrphan _ => exact List.Subset.refl _

/-! ### Election safety -/

/-- **Every run** keeps the invariant of elections. -/
theorem elections_of_reached {moves : List Move} (hs : Reached cfg moves s) :
    ∃ counted, Elections cfg s counted :=
  Run.Reached.invariant (I := fun _ s => ∃ counted, Elections cfg s counted)
    ⟨_, elections_initial⟩ (fun _ ⟨_, h⟩ hstep => h.step hstep) hs

/-- **Election safety across restarts.**  In a run in which no node votes for two candidates in
    a term, two nodes that lead the same term, at any two moments, are the same node. -/
theorem restart_leader_unique {moves : List Move} {s u w : Restarting}
    (hw : Reached cfg moves w) (hone : w.OneVote) {i j : ℕ}
    (hs : Reached cfg (moves.take i) s) (hu : Reached cfg (moves.take j) u) {a b : Int}
    (ha : a ∈ cfg.ids) (hb : b ∈ cfg.ids) (hla : (s.cluster.nodes a).role = .leader)
    (hlb : (u.cluster.nodes b).role = .leader)
    (hterm : (s.cluster.nodes a).currentTerm = (u.cluster.nodes b).currentTerm) : a = b := by
  -- the votes of both majorities are on record at the end
  have hrecord : ∀ {k : ℕ} {v : Restarting}, Reached cfg (moves.take k) v →
      v.votes ⊆ w.votes := by
    intro k v hv
    refine Run.Reached.relates (R := fun s u => s.votes ⊆ u.votes)
      (fun _ => List.Subset.refl _) (fun h h' => List.Subset.trans h h')
      (fun hstep => votes_step hstep) (j := max k moves.length) (le_max_left _ _) hv ?_
    rw [List.take_of_length_le (le_max_right _ _)]
    exact hw
  obtain ⟨_, hA⟩ := elections_of_reached hs
  obtain ⟨_, hB⟩ := elections_of_reached hu
  obtain ⟨Q, hQ, hvotedA⟩ := hA.leader a ha hla
  obtain ⟨R, hR, hvotedB⟩ := hB.leader b hb hlb
  obtain ⟨v, hvQ, hvR⟩ := Majority.inter hQ hR
  exact hone _ (hrecord hs (hvotedA v hvQ)) _ (hrecord hu (hvotedB v hvR)) rfl hterm

/-- Node 0 is elected by node 1; then `id` crashes and comes back. -/
def electedThenCrash (id : Int) : List Move :=
  [.act (.electionTimeout 0), .act (.deliver 0), .act (.deliver 1), .crash id, .restart id]

/-- Node 2 crashes, which has not voted: node 0 is the only leader of term 1. -/
theorem restart_leader_unique_three : ∃ w, Reached trio (electedThenCrash 2) w ∧
    (w.cluster.nodes 0).role = .leader ∧ (w.cluster.nodes 0).currentTerm = 1 ∧ w.OneVote ∧
    ∀ b ∈ trio.ids, (w.cluster.nodes b).role = .leader →
      (w.cluster.nodes b).currentTerm = 1 → 0 = b := by
  obtain ⟨w, hw, hview⟩ := Run.exists_reached (step trio) (initial trio) (electedThenCrash 2)
    (fun s => ((s.cluster.nodes 0).role, (s.cluster.nodes 0).currentTerm, s.votes))
    ((.leader, 1, [⟨0, 1, 0⟩, ⟨1, 1, 0⟩])) (by decide)
  simp only [Prod.mk.injEq] at hview
  obtain ⟨hrole, hterm, hvotes⟩ := hview
  have hone : w.OneVote := by unfold OneVote; rw [hvotes]; decide
  have hend : Reached trio ((electedThenCrash 2).take 5) w := hw
  refine ⟨w, hw, hrole, hterm, hone, fun b hb hlb hterm' => ?_⟩
  exact restart_leader_unique hw hone hend hend (by decide) hb hrole hlb
    (hterm.trans hterm'.symm)

/-- Node 1 crashes, which has voted for node 0, and votes for node 2 when it is back: nodes 0
    and 2 both lead term 1. -/
theorem restart_two_leaders : ∃ s,
    Reached trio (electedThenCrash 1 ++
      [.act (.electionTimeout 2), .act (.deliver 4), .act (.deliver 4)]) s ∧
    (s.cluster.nodes 0).role = .leader ∧ (s.cluster.nodes 0).currentTerm = 1 ∧
    (s.cluster.nodes 2).role = .leader ∧ (s.cluster.nodes 2).currentTerm = 1 := by
  obtain ⟨s, hs, hview⟩ := Run.exists_reached (step trio) (initial trio)
    (electedThenCrash 1 ++ [.act (.electionTimeout 2), .act (.deliver 4), .act (.deliver 4)])
    (fun s => ((s.cluster.nodes 0).role, (s.cluster.nodes 0).currentTerm, (s.cluster.nodes 2).role,
      (s.cluster.nodes 2).currentTerm))
    ((.leader, 1, .leader, 1)) (by decide)
  simp only [Prod.mk.injEq] at hview
  exact ⟨s, hs, hview⟩

end Restarting

end Hallownest.Consensus
