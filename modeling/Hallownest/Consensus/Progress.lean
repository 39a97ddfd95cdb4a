import Hallownest.Consensus.Indexing

namespace Hallownest.Consensus

open Cluster (Reached)
open RaftNode

/-!
# Consensus — the progress indices of a leader

`matchIndex` and `nextIndex` of a leader change only when it handles an append reply.  Replies
of an earlier term are ignored, but several requests of one leadership may be under way, and
the handler does not notice when their replies arrive in another order: it then takes
`matchIndex` back, or moves `nextIndex` onto it.

* `Late` — the replies that do this, told from the state before.
* `step_indices`, `step_elected` — what a step does to the indices of a leader.
* `handled_iff` — handling a reply of this leadership is progress unless the reply is late.
* `progress_monotone_iff` — a run makes progress only, if and only if it handles no late reply.
-/

variable {cfg : Config} {s s' : Cluster} {acts : List Action} {act : Action}

/-! ### Late replies -/

/-- A reply to a request of this leadership that comes too late: it acknowledges less than the
    peer has acknowledged before, or it refuses although the peer has acknowledged all that is
    before `nextIndex`. -/
def RaftNode.Late (r : RaftNode) (peer : Int) (args : AppendEntriesArgs)
    (reply : AppendEntriesReply) : Prop :=
  r.role = .leader ∧ r.currentTerm = args.term ∧ reply.term ≤ r.currentTerm ∧
    ((reply.success = true ∧ args.prevLogIndex + args.entries.length < r.matchIndex peer) ∨
      (reply.success = false ∧ 1 < r.nextIndex peer ∧
        r.nextIndex peer ≤ r.matchIndex peer + 1))

instance (r : RaftNode) (peer : Int) (args : AppendEntriesArgs) (reply : AppendEntriesReply) :
    Decidable (r.Late peer args reply) :=
  inferInstanceAs (Decidable (_ ∧ _))

/-- The step handles a late reply. -/
def Cluster.handlesLate (s : Cluster) : Action → Bool
  | .deliver i =>
    match s.net[i]? with
    | some (.appendReply peer args reply) =>
      decide ((s.nodes args.leaderID).Late peer args reply)
    | _ => false
  | _ => false

/-- The check decides whether a late reply is handled. -/
theorem handlesLate_iff : s.handlesLate act = true ↔ ∃ i peer args reply, act = .deliver i ∧
    s.net[i]? = some (.appendReply peer args reply) ∧
      (s.nodes args.leaderID).Late peer args reply := by
  constructor
  · intro h
    unfold Cluster.handlesLate at h
    split at h
    · split at h
      · rename_i hp
        exact ⟨_, _, _, _, rfl, hp, of_decide_eq_true h⟩
      · cases h
    · cases h
  · rintro ⟨i, peer, args, reply, rfl, hp, hlate⟩
    simp only [Cluster.handlesLate, hp]
    exact decide_eq_true hlate

/-- From `r` to `r'` no peer in `ps` has lost an acknowledgement, and none is to be sent what it
    has acknowledged. -/
def RaftNode.Progress (ps : List Int) (r r' : RaftNode) : Prop :=
  ∀ p ∈ ps, r.matchIndex p ≤ r'.matchIndex p ∧ r'.matchIndex p < r'.nextIndex p

/-- Progress at one peer, if nothing has changed for the others. -/
theorem progress_at {r r' : RaftNode} {ps : List Int} {peer : Int} (hpeer : peer ∈ ps)
    (hlt : ∀ p ∈ ps, r.matchIndex p < r.nextIndex p)
    (hother : ∀ p, p ≠ peer → r'.matchIndex p = r.matchIndex p ∧ r'.nextIndex p = r.nextIndex p) :
    r.Progress ps r' ↔
      r.matchIndex peer ≤ r'.matchIndex peer ∧ r'.matchIndex peer < r'.nextIndex peer := by
  constructor
  · intro h
    exact h peer hpeer
  · intro h p hp
    by_cases hpp : p = peer
    · rw [hpp]; exact h
    · obtain ⟨hmatch, hnext⟩ := hother p hpp
      rw [hmatch, hnext]
      exact ⟨le_refl _, hlt p hp⟩

/-- **Handling a reply** as a leader, and staying one, is progress unless the reply is late. -/
theorem handled_iff {r r' : RaftNode} {ps : List Int} {peer : Int} {args : AppendEntriesArgs}
    {reply : AppendEntriesReply} (h : r.handleAppendReply peer args reply = some r')
    (hlead' : r'.role = .leader) (hpeer : peer ∈ ps)
    (hlt : ∀ p ∈ ps, r.matchIndex p < r.nextIndex p) :
    r.Progress ps r' ↔ ¬ r.Late peer args reply := by
  -- the reply is that of another leadership, or changes nothing
  have hsame : r' = r → r.Progress ps r' := by
    rintro rfl p hp
    exact ⟨le_refl _, hlt p hp⟩
  by_cases hcur : r.role = .leader ∧ r.currentTerm = args.term
  case neg =>
    rw [handleAppendReply, if_neg hcur] at h
    exact iff_of_true (hsame (Option.some.inj h).symm) fun hl => hcur ⟨hl.1, hl.2.1⟩
  by_cases hlater : reply.term > r.currentTerm
  · -- the node does not stay leader
    rw [handleAppendReply, if_pos hcur, if_pos hlater] at h
    rw [← Option.some.inj h] at hlead'
    cases hlead'
  have hreply : reply.term ≤ r.currentTerm := by omega
  have hnew : reply.term ≤ args.term := by omega
  have hless := hlt peer hpeer
  cases hs : reply.success with
  | true =>
    have hlate : r.Late peer args reply ↔
        args.prevLogIndex + args.entries.length < r.matchIndex peer := by
      simp [Late, hcur, hnew, hs]
    rw [handleAppendReply_success hcur.1 hcur.2 hreply hs] at h
    obtain ⟨_, _, _, rfl⟩ := commits_advanceLoop h
    refine (progress_at hpeer hlt fun p hp => ⟨if_neg hp, if_neg hp⟩).trans ?_
    simp only [hlate, acknowledge, if_true]
    omega
  | false =>
    have hlate : r.Late peer args reply ↔
        1 < r.nextIndex peer ∧ r.nextIndex peer ≤ r.matchIndex peer + 1 := by
      simp [Late, hcur, hnew, hs]
    by_cases hnext : 1 < r.nextIndex peer
    · rw [handleAppendReply_failure hcur.1 hcur.2 hreply hs hnext] at h
      obtain rfl := Option.some.inj h
      refine (progress_at hpeer hlt (by intro p hp; exact ⟨rfl, if_neg hp⟩)).trans ?_
      simp only [hlate, if_true]
      omega
    · rw [handleAppendReply, if_pos hcur, if_neg hlater, if_neg (by simp [hs]), if_neg hnext] at h
      exact iff_of_true (hsame (Option.some.inj h).symm) fun hl => hnext (hlate.mp hl).1

/-- A late reply is no reason to step down. -/
theorem RaftNode.Late.leads {r r' : RaftNode} {peer : Int} {args : AppendEntriesArgs}
    {reply : AppendEntriesReply} (h : r.Late peer args reply)
    (hrun : r.handleAppendReply peer args reply = some r') : r'.role = .leader := by
  obtain ⟨hlead, _, hreply, _⟩ := h
  rcases handleAppendReply_cases hrun with rfl | ⟨hlater, _⟩ | ⟨_, _, _, hcheck⟩ | ⟨next, rfl⟩
  · exact hlead
  · omega
  · obtain ⟨_, _, _, rfl⟩ := commits_advanceLoop hcheck
    exact hlead
  · exact hlead

/-! ### Steps -/

/-- The indices of a node that leads before and after a step are as before, or the node has
    handled an append reply. -/
theorem step_indices (h : s.step cfg act = .ok s') {j : Int} (hlead : (s.nodes j).role = .leader) :
    ((s'.nodes j).matchIndex = (s.nodes j).matchIndex ∧
      (s'.nodes j).nextIndex = (s.nodes j).nextIndex) ∨
    ∃ i peer args reply, act = .deliver i ∧ s.net[i]? = some (.appendReply peer args reply) ∧
      args.leaderID = j ∧ (s.nodes j).handleAppendReply peer args reply = some (s'.nodes j) := by
  -- a step that replaces one node and leaves its indices
  have hset : ∀ {id : Int} {r : RaftNode},
      ((s.nodes id).role = .leader → r.matchIndex = (s.nodes id).matchIndex ∧
        r.nextIndex = (s.nodes id).nextIndex) →
      ((s.setNode id r).nodes j).matchIndex = (s.nodes j).matchIndex ∧
        ((s.setNode id r).nodes j).nextIndex = (s.nodes j).nextIndex := by
    intro id r hr
    exact Cluster.setNode_relates (R := fun r r' => r.role = .leader →
      r'.matchIndex = r.matchIndex ∧ r'.nextIndex = r.nextIndex) (fun _ _ => ⟨rfl, rfl⟩) hr j hlead
  have hcatch : ∀ (r : RaftNode) (t : Int), (r.catchUp t).matchIndex = r.matchIndex ∧
      (r.catchUp t).nextIndex = r.nextIndex := by
    intro r t
    rcases catchUp_cases r t with ⟨_, heq⟩ | ⟨_, heq⟩
    · rw [heq]; exact ⟨rfl, rfl⟩
    · rw [heq]; exact ⟨rfl, rfl⟩
  cases Cluster.step_takes h with
  | electionTimeout _ hrole _ => exact Or.inl (hset fun hl => absurd hl hrole)
  | heartbeatTick _ _ => exact Or.inl ⟨rfl, rfl⟩
  | submit _ hrun =>
    rcases submit_cases hrun with ⟨_, rfl, _⟩ | ⟨_, rfl, _⟩
    · exact Or.inl (hset fun _ => ⟨rfl, rfl⟩)
    · exact Or.inl (hset fun _ => ⟨rfl, rfl⟩)
  | voteRequest _ hrun =>
    rcases requestVote_cases hrun with ⟨rfl, _⟩ | ⟨rfl, _⟩
    · exact Or.inl (hset fun _ => hcatch _ _)
    · exact Or.inl (hset fun _ => hcatch _ _)
  | voteReply _ hrun =>
    rcases handleVoteReply_cases hrun with ⟨rfl, _⟩ | ⟨_, rfl, _⟩ | ⟨hcand, _⟩
    · exact Or.inl (hset fun _ => ⟨rfl, rfl⟩)
    · exact Or.inl (hset fun _ => ⟨rfl, rfl⟩)
    · exact Or.inl (hset fun hl => by rw [hcand] at hl; cases hl)
  | appendRequest _ hrun =>
    rcases appendEntries_cases hrun with ⟨rfl, _⟩ | rfl | ⟨_, _, _, _, _, rfl⟩
    · exact Or.inl (hset fun _ => hcatch _ _)
    · exact Or.inl (hset fun _ => hcatch _ _)
    · exact Or.inl (hset fun _ => hcatch _ _)
  | @appendReply i peer args reply r hp hrun =>
    by_cases hj : j = args.leaderID
    · subst hj
      refine Or.inr ⟨i, peer, args, reply, rfl, hp, rfl, ?_⟩
      rw [Cluster.setNode_nodes_self]
      exact hrun
    · rw [Cluster.setNode_nodes_of_ne r hj]
      exact Or.inl ⟨rfl, rfl⟩
  | lose => exact Or.inl ⟨rfl, rfl⟩
  | kill => exact Or.inl (hset fun _ => ⟨rfl, rfl⟩)

/-- A node that a step makes a leader starts with no acknowledgement. -/
theorem step_elected (h : s.step cfg act = .ok s') {j : Int} (hlead : (s.nodes j).role ≠ .leader)
    (hlead' : (s'.nodes j).role = .leader) : ∀ p ∈ (s'.nodes j).peers,
    (s'.nodes j).matchIndex p = 0 ∧ (s'.nodes j).nextIndex p = (s'.nodes j).log.length := by
  have hset : ∀ {id : Int} {r : RaftNode},
      ((s.nodes id).role ≠ .leader → r.role = .leader →
        ∀ p ∈ r.peers, r.matchIndex p = 0 ∧ r.nextIndex p = r.log.length) →
      ((s.setNode id r).nodes j).role = .leader → ∀ p ∈ ((s.setNode id r).nodes j).peers,
        ((s.setNode id r).nodes j).matchIndex p = 0 ∧
          ((s.setNode id r).nodes j).nextIndex p = ((s.setNode id r).nodes j).log.length := by
    intro id r hr
    exact Cluster.setNode_relates (R := fun r r' => r.role ≠ .leader → r'.role = .leader →
      ∀ p ∈ r'.peers, r'.matchIndex p = 0 ∧ r'.nextIndex p = r'.log.length)
      (fun _ hno hyes => absurd hyes hno) hr j hlead
  have helected : ∀ (r : RaftNode), ∀ p ∈ r.elected.peers,
      r.elected.matchIndex p = 0 ∧ r.elected.nextIndex p = r.elected.log.length :=
    fun r p hp => ⟨if_pos hp, if_pos hp⟩
  cases Cluster.step_takes h with
  | electionTimeout _ _ hrun =>
    rcases startElection_cases hrun with ⟨_, ⟨_, rfl, _⟩ | ⟨rfl, _⟩⟩
    · exact hset (fun _ _ => helected _) hlead'
    · exact hset (fun _ hl => by cases hl) hlead'
  | heartbeatTick _ _ => exact absurd hlead' hlead
  | submit _ hrun =>
    exact hset (fun hno hl => absurd ((settles_submit hrun).leader hl).1 hno) hlead'
  | voteRequest _ hrun =>
    exact hset (fun hno hl => absurd ((settles_requestVote hrun).leader hl).1 hno) hlead'
  | voteReply _ hrun =>
    rcases handleVoteReply_cases hrun with ⟨rfl, _⟩ | ⟨_, rfl, _⟩ |
      ⟨_, _, _, _, ⟨rfl, _⟩ | ⟨_, rfl, _⟩⟩
    · exact hset (fun hno hl => absurd hl hno) hlead'
    · exact hset (fun _ hl => by cases hl) hlead'
    · exact hset (fun hno hl => absurd hl hno) hlead'
    · exact hset (fun _ _ => helected _) hlead'
  | appendRequest _ hrun =>
    exact hset (fun hno hl => absurd ((settles_appendEntries hrun).leader hl).1 hno) hlead'
  | appendReply _ hrun =>
    exact hset (fun hno hl => absurd ((settles_handleAppendReply hrun).leader hl).1 hno) hlead'
  | lose => exact absurd hlead' hlead
  | kill => exact hset (fun hno hl => absurd hl hno) hlead'

/-! ### Addresses -/

/-- A packet belongs to a call from a node of the cluster to one of its peers. -/
def Addressed (cfg : Config) : Packet → Prop
  | .voteRequest peer args => args.candidateID ∈ cfg.ids ∧ peer ∈ cfg.peers args.candidateID
  | .voteReply peer args _ => args.candidateID ∈ cfg.ids ∧ peer ∈ cfg.peers args.candidateID
  | .appendRequest peer args => args.leaderID ∈ cfg.ids ∧ peer ∈ cfg.peers args.leaderID
  | .appendReply peer args _ => args.leaderID ∈ cfg.ids ∧ peer ∈ cfg.peers args.leaderID

/-- A broadcast goes to nodes of the cluster. -/
theorem addressed_broadcast {id : Int} {r : RaftNode} {sent : List Packet}
    (h : r.broadcastHeartbeats = some sent) (hid : id ∈ cfg.ids) (hr : r.id = id)
    (hpeers : r.peers = cfg.peers id) : ∀ q ∈ sent, Addressed cfg q := by
  intro q hq
  obtain ⟨_, p, hp, hbeat⟩ := mem_broadcast h hq
  obtain ⟨args, rfl, hleader, _⟩ := heartbeatFor_eq hbeat
  rw [hpeers] at hp
  rw [Addressed, hleader, hr]
  exact ⟨hid, hp⟩

/-- Every step keeps what is in flight addressed to nodes of the cluster. -/
theorem addressed_step (hok : ClusterOk cfg s) (hnet : ∀ q ∈ s.net, Addressed cfg q)
    (h : s.step cfg act = .ok s') : ∀ q ∈ s'.net, Addressed cfg q := by
  have hid := fun j => (hok.nodes j).id_eq
  have hpeers := fun j => (hok.nodes j).peers_eq
  -- a packet is taken out and others are sent
  have hsend : ∀ {i : ℕ} {sent : List Packet}, (∀ q ∈ sent, Addressed cfg q) →
      ∀ q ∈ s.net.eraseIdx i ++ sent, Addressed cfg q := by
    intro i sent hsent q hq
    rcases List.mem_append.mp hq with hq | hq
    · exact hnet q (List.mem_of_mem_eraseIdx hq)
    · exact hsent q hq
  have hadd : ∀ {sent : List Packet}, (∀ q ∈ sent, Addressed cfg q) →
      ∀ q ∈ s.net ++ sent, Addressed cfg q := by
    intro sent hsent q hq
    exact (List.mem_append.mp hq).elim (hnet q) (hsent q)
  have hreply : ∀ {i : ℕ} {p q : Packet}, s.net[i]? = some p → (Addressed cfg p → Addressed cfg q) →
      ∀ x ∈ s.net.eraseIdx i ++ [q], Addressed cfg x := by
    intro i p q hp hpq
    refine hsend fun x hx => ?_
    rw [List.mem_singleton.mp hx]
    exact hpq (hnet p (List.mem_of_getElem? hp))
  cases Cluster.step_takes h with
  | @electionTimeout id _ _ _ hmem _ hrun =>
    rcases startElection_cases hrun with ⟨_, ⟨_, rfl, hsent⟩ | ⟨_, args, _, hcand, rfl⟩⟩
    · exact hadd (addressed_broadcast hsent hmem (hid id) (hpeers id))
    · refine hadd fun q hq => ?_
      obtain ⟨p, hp, rfl⟩ := List.mem_map.mp hq
      rw [Addressed, hcand, hid, ← hpeers]
      exact ⟨hmem, hp⟩
  | @heartbeatTick id _ hmem hsent =>
    exact hadd (addressed_broadcast hsent hmem (hid id) (hpeers id))
  | @submit id _ _ _ _ _ _ hmem hrun =>
    rcases submit_cases hrun with ⟨_, _, _, rfl⟩ | ⟨_, rfl, _, hsent⟩
    · exact hadd (by simp)
    · exact hadd (addressed_broadcast hsent hmem (hid id) (hpeers id))
  | voteRequest hp _ => exact hreply hp id
  | @voteReply _ _ args _ _ _ _ hp hrun =>
    have hmem : args.candidateID ∈ cfg.ids := (hnet _ (List.mem_of_getElem? hp)).1
    rcases handleVoteReply_cases hrun with ⟨_, _, rfl⟩ | ⟨_, _, _, rfl⟩ |
      ⟨_, _, _, _, ⟨_, rfl⟩ | ⟨_, rfl, hsent⟩⟩
    · exact hsend (by simp)
    · exact hsend (by simp)
    · exact hsend (by simp)
    · exact hsend (addressed_broadcast hsent hmem (hid _) (hpeers _))
  | appendRequest hp _ => exact hreply hp id
  | appendReply _ _ => intro q hq; exact hnet q (List.mem_of_mem_eraseIdx hq)
  | lose => intro q hq; exact hnet q (List.mem_of_mem_eraseIdx hq)
  | kill => exact hnet

/-- In every run packets are between nodes of the cluster. -/
theorem addressed_of_reached (hs : Reached cfg acts s) : ∀ q ∈ s.net, Addressed cfg q := by
  refine Run.Reached.invariant (I := fun _ s => ∀ q ∈ s.net, Addressed cfg q) ?_ ?_ hs
  · intro q hq; cases hq
  · intro acts s act s' hs hnet hstep
    exact addressed_step (clusterOk_of_reached hs) hnet hstep

/-! ### Results -/

/-- Node `id` leads at all moments from `i` to `j` of a run. -/
def LeadsBetween (cfg : Config) (acts : List Action) (id : Int) (i j : ℕ) : Prop :=
  i ≤ j ∧ ∀ k, i ≤ k → k ≤ j → ∀ u, Reached cfg (acts.take k) u → (u.nodes id).role = .leader

theorem leadsBetween_self {id : Int} {i : ℕ} (hs : Reached cfg (acts.take i) s)
    (hlead : (s.nodes id).role = .leader) : LeadsBetween cfg acts id i i := by
  refine ⟨le_refl i, fun k hik hki u hu => ?_⟩
  obtain rfl : k = i := by omega
  rw [hu.unique hs]
  exact hlead

theorem LeadsBetween.succ {id : Int} {i j : ℕ} (h : LeadsBetween cfg acts id i j)
    (hs : Reached cfg (acts.take (j + 1)) s) (hlead : (s.nodes id).role = .leader) :
    LeadsBetween cfg acts id i (j + 1) := by
  refine ⟨Nat.le_succ_of_le h.1, fun k hik hkj u hu => ?_⟩
  rcases Nat.lt_or_ge j k with hjk | hkj'
  · obtain rfl : k = j + 1 := by omega
    rw [hu.unique hs]
    exact hlead
  · exact h.2 k hik hkj' u hu

/-- As long as a node leads, no acknowledgement it has counted is taken back, and what a peer has
    acknowledged is before what is sent to it next. -/
def ProgressMonotone (cfg : Config) (acts : List Action) : Prop :=
  ∀ id ∈ cfg.ids, ∀ i j, LeadsBetween cfg acts id i j → ∀ u v, Reached cfg (acts.take i) u →
    Reached cfg (acts.take j) v → ∀ p ∈ cfg.peers id,
      (u.nodes id).matchIndex p ≤ (v.nodes id).matchIndex p ∧
        (v.nodes id).matchIndex p < (v.nodes id).nextIndex p

/-- No step of the run handles a late reply. -/
def NoneLate (cfg : Config) (acts : List Action) : Prop :=
  ∀ k act u, acts[k]? = some act → Reached cfg (acts.take k) u → u.handlesLate act = false

/-- What the peers of a leader have acknowledged is before what is sent to them next. -/
def AllAhead (cfg : Config) (s : Cluster) : Prop :=
  ∀ id, (s.nodes id).role = .leader → ∀ p ∈ cfg.peers id,
    (s.nodes id).matchIndex p < (s.nodes id).nextIndex p

/-- **A step without a late reply** is progress for every node that leads before and after. -/
theorem AllAhead.progress (h : AllAhead cfg s) (hnet : ∀ q ∈ s.net, Addressed cfg q)
    (hlate : s.handlesLate act = false) (hstep : s.step cfg act = .ok s') {id : Int}
    (hlead : (s.nodes id).role = .leader) (hlead' : (s'.nodes id).role = .leader) :
    (s.nodes id).Progress (cfg.peers id) (s'.nodes id) := by
  rcases step_indices hstep hlead with ⟨hmatch, hnext⟩ | ⟨i, peer, args, reply, hact, hp, rfl, hrun⟩
  · intro p hp
    rw [hmatch, hnext]
    exact ⟨le_refl _, h id hlead p hp⟩
  · have haddr : peer ∈ cfg.peers args.leaderID := (hnet _ (List.mem_of_getElem? hp)).2
    refine (handled_iff hrun hlead' haddr (h _ hlead)).mpr fun hl => ?_
    rw [handlesLate_iff.mpr ⟨i, peer, args, reply, hact, hp, hl⟩] at hlate
    cases hlate

/-- Without late replies no index falls behind. -/
theorem AllAhead.step (h : AllAhead cfg s) (hnet : ∀ q ∈ s.net, Addressed cfg q)
    (hlate : s.handlesLate act = false) (hstep : s.step cfg act = .ok s')
    (hok' : ClusterOk cfg s') : AllAhead cfg s' := by
  intro id hlead' p hp
  by_cases hlead : (s.nodes id).role = .leader
  · exact (h.progress hnet hlate hstep hlead hlead' p hp).2
  · -- a new leader: its log has at least the dummy entry
    have hnode := hok'.nodes id
    have hpos := hnode.log.length_pos
    rw [← hnode.peers_eq] at hp
    obtain ⟨hmatch, hnext⟩ := step_elected hstep hlead hlead' p hp
    omega

/-- **A run without late replies** keeps all leaders ahead. -/
theorem NoneLate.allAhead (h : NoneLate cfg acts) {k : ℕ} (hs : Reached cfg (acts.take k) s) :
    AllAhead cfg s := by
  have hinit : AllAhead cfg (Cluster.initial cfg) := by
    intro id hlead
    cases hlead
  refine Run.Reached.onward (Nat.zero_le k) (Run.reached_nil.mpr rfl) hinit ?_ hs
  intro j u x u' _ _ hx hu hahead hstep
  exact hahead.step (addressed_of_reached hu) (h j x u hx hu) hstep
    (clusterOk_of_reached (Run.Reached.succ hx hu hstep))

/-- **Progress is monotone** in a run exactly if no step of it handles a late reply. -/
theorem progress_monotone_iff (hs : Reached cfg acts s) :
    ProgressMonotone cfg acts ↔ NoneLate cfg acts := by
  constructor
  · intro h k act u hact hu
    by_contra hlate
    obtain ⟨i, peer, args, reply, rfl, hp, hlate⟩ :=
      handlesLate_iff.mp (Bool.not_eq_false _ ▸ hlate)
    obtain ⟨u', hstep, hu'⟩ := hs.next hact hu
    obtain ⟨r', hrun, rfl⟩ := Cluster.step_appendReply hstep hp
    obtain ⟨hid, hpeer⟩ := addressed_of_reached hu _ (List.mem_of_getElem? hp)
    have hlead' := RaftNode.Late.leads hlate hrun
    have hbefore := leadsBetween_self hu hlate.1
    have hleads : LeadsBetween cfg acts args.leaderID k (k + 1) :=
      hbefore.succ hu' (by rw [Cluster.setNode_nodes_self]; exact hlead')
    have hahead : ∀ p ∈ cfg.peers args.leaderID, (u.nodes args.leaderID).matchIndex p <
        (u.nodes args.leaderID).nextIndex p :=
      fun p hp => (h _ hid k k hbefore u u hu hu p hp).2
    have hprog := h _ hid k (k + 1) hleads u _ hu hu'
    rw [Cluster.setNode_nodes_self] at hprog
    exact (handled_iff hrun hlead' hpeer hahead).mp hprog hlate
  · rintro h id hid i j ⟨hij, hleads⟩ u v hu hv p hp
    refine ⟨?_, h.allAhead hv id (hleads j hij (le_refl j) v hv) p hp⟩
    -- step by step from moment `i` on
    refine Run.Reached.onward (I := fun w => (u.nodes id).matchIndex p ≤ (w.nodes id).matchIndex p)
      hij hu (le_refl _) ?_ hv
    intro l w x w' hil hlj hx hw hle hstep
    have hw' := Run.Reached.succ hx hw hstep
    have hprog := (h.allAhead hw).progress (addressed_of_reached hw) (h l x w hx hw) hstep
      (hleads l hil (by omega) w hw) (hleads (l + 1) (by omega) (by omega) w' hw')
    exact hle.trans (hprog p hp).1

/-- A run whose steps are checked one by one. -/
private theorem noneLate_of_check (h : ∀ k < acts.length,
    ((acts.take k).foldlM (Cluster.step cfg) (Cluster.initial cfg)).map
      (fun u => acts[k]?.map u.handlesLate) = .ok (some false)) : NoneLate cfg acts := by
  intro k act u hact hu
  have hview := Run.Reached.view_eq hu (h k (List.getElem?_eq_some_iff.mp hact).1)
  rw [hact] at hview
  exact Option.some.inj hview

/-- In `pairRun` the acknowledgement of node 1 is handled, and in time. -/
theorem progress_monotone_pair : ∃ s, Reached pair pairRun s ∧ (s.nodes 0).matchIndex 1 = 1 ∧
    ProgressMonotone pair pairRun := by
  obtain ⟨s, hs, hmatch⟩ := Run.exists_reached (Cluster.step pair) (Cluster.initial pair) pairRun
    (fun s => (s.nodes 0).matchIndex 1) 1 (by decide)
  exact ⟨s, hs, hmatch, (progress_monotone_iff hs).mpr (noneLate_of_check (by decide))⟩

/-- Node 0 leads and sends its first heartbeat, then a command; the reply to the command is
    handled first. -/
def lateSuccess : List Action :=
  [.electionTimeout 0, .deliver 0, .deliver 0, .submit 0 [7] [9] false, .deliver 0, .deliver 0,
    .deliver 1, .deliver 0]

/-- Node 0 leads term 3 with a command that node 1 has missed, and sends two heartbeats that node
    1 refuses.  After the first refusal it sends the command; the second one is handled after the
    acknowledgement. -/
def lateRefusal : List Action :=
  [.electionTimeout 0, .deliver 0, .deliver 0, .submit 0 [7] [9] false, .electionTimeout 1,
    .deliver 2, .electionTimeout 0, .deliver 3, .deliver 3, .heartbeatTick 0, .deliver 3,
    .deliver 3, .deliver 3, .heartbeatTick 0, .deliver 4, .deliver 4, .deliver 3]

/-- Replies of one leadership in another order: the first run ends with `matchIndex` 0 after it
    was 1, the second one with both indices 1. -/
theorem progress_lost_pair : (∃ s, Reached pair lateSuccess s) ∧
    ¬ ProgressMonotone pair lateSuccess ∧ (∃ s, Reached pair lateRefusal s) ∧
    ¬ ProgressMonotone pair lateRefusal := by
  obtain ⟨u, hu, hview⟩ := Run.exists_reached (Cluster.step pair) (Cluster.initial pair)
    (lateSuccess.take 7) (fun s => ((s.nodes 0).role, (s.nodes 0).matchIndex 1)) (Role.leader, 1)
    (by decide)
  obtain ⟨hlead, hmatch⟩ := Prod.mk.inj hview
  obtain ⟨v, hv, hview⟩ := Run.exists_reached (Cluster.step pair) (Cluster.initial pair)
    (lateSuccess.take 8) (fun s => ((s.nodes 0).role, (s.nodes 0).matchIndex 1)) (Role.leader, 0)
    (by decide)
  obtain ⟨hlead', hmatch'⟩ := Prod.mk.inj hview
  obtain ⟨w, hw, hview⟩ := Run.exists_reached (Cluster.step pair) (Cluster.initial pair)
    (lateRefusal.take 17)
    (fun s => ((s.nodes 0).role, (s.nodes 0).matchIndex 1, (s.nodes 0).nextIndex 1))
    (Role.leader, 1, 1) (by decide)
  obtain ⟨hlead'', hindex⟩ := Prod.mk.inj hview
  obtain ⟨hm, hn⟩ := Prod.mk.inj hindex
  refine ⟨⟨v, hv⟩, fun h => ?_, ⟨w, hw⟩, fun h => ?_⟩
  · have hleads := (leadsBetween_self hu hlead).succ hv hlead'
    have := (h 0 (by decide) 7 8 hleads u v hu hv 1 (by decide)).1
    omega
  · have := (h 0 (by decide) 17 17 (leadsBetween_self hw hlead'') w w hw hw 1 (by decide)).2
    omega

end Hallownest.Consensus
