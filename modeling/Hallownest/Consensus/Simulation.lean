import Hallownest.Consensus.Replication

namespace Hallownest.Consensus

open Replog (Steps Extends Chosen)

/-!
# Consensus — a cluster refines the replicated-log protocol

Every step of a cluster keeps the simulation relation `Sim`, and along it the abstract
state makes moves of the protocol (`Sim.step`).  No step panics: the only fault is that a
step is not enabled.  Over whole runs this gives an abstract run that follows the cluster
state by state (`exists_abstract_run`), also when the cluster is a part of a larger system
(`exists_abstract_trace`).
-/

variable {cfg : Config} {s s' : Cluster} {a a' : Abs} {counted : Int → Int → Finset Int}

/-! ### Assembling the relation after a step -/

theorem Tally.mono {id term votes : Int} {Q : Finset Int} (hext : Extends a a')
    (h : Tally cfg a id term votes Q) : Tally cfg a' id term votes Q :=
  ⟨h.votes, h.members, fun v hv => hext.vote (h.voted v hv)⟩

/-- One node has made a local move; the others, and the packets that stay in flight, are
    described as before. -/
theorem Sim.assemble (h : Sim cfg s a counted) {id : Int} {r' : RaftNode}
    {counted' : Int → Int → Finset Int} (hloc : Local cfg a a' id r')
    (hnodes : ∀ j, s'.nodes j = if j = id then r' else s.nodes j)
    (hpackets : ∀ p ∈ s'.net, p ∈ s.net ∨ PacketOk cfg a' p)
    (hcalls : (s'.net.filterMap voteCall).Nodup)
    (hfresh : ∀ {c t p}, p ∈ counted' c t → (c, t, p) ∉ s'.net.filterMap voteCall)
    (hothers : ∀ j t, j ≠ id →
      s'.votesReceived j t = s.votesReceived j t ∧ counted' j t = counted j t)
    (htally : r'.role = .candidate → Tally cfg a' id r'.currentTerm
      (s'.votesReceived id r'.currentTerm) (counted' id r'.currentTerm)) :
    Sim cfg s' a' counted' := by
  have hext := hloc.extends h.ok
  exact {
    ok := hloc.ok
    nodes := by
      intro j hj
      rw [hnodes j]
      by_cases hji : j = id
      · rw [if_pos hji, hji]; exact hloc.node
      · rw [if_neg hji]; exact (h.nodes j hj).frame hext (hloc.frame j hji)
    packets := by
      intro p hp
      rcases hpackets p hp with hold | hnew
      · exact (h.packets p hold).mono hext
      · exact hnew
    calls := hcalls
    fresh := hfresh
    tally := by
      intro j hj
      rw [hnodes j]
      by_cases hji : j = id
      · rw [if_pos hji, hji]; exact htally
      · rw [if_neg hji]
        intro hc
        obtain ⟨hv, hcnt⟩ := hothers j (s.nodes j).currentTerm hji
        rw [hv, hcnt]
        exact (h.tally j hj hc).mono hext }

/-- A local move after which a candidate is the candidate it was, with no vote counted. -/
theorem Sim.tally_kept (h : Sim cfg s a counted) {id : Int} (hid : id ∈ cfg.ids)
    {r' : RaftNode} (hloc : Local cfg a a' id r') (hkeep : KeepsCandidacy (s.nodes id) r') :
    r'.role = .candidate → Tally cfg a' id r'.currentTerm
      (s.votesReceived id r'.currentTerm) (counted id r'.currentTerm) := by
  intro hc
  obtain ⟨hrole, hterm⟩ := hkeep hc
  rw [hterm]
  exact (h.tally id hid hrole).mono (hloc.extends h.ok)

/-- The cluster `s'` is described by a state that the protocol reaches from `a`.  Who leads a
    term then and did not before, is its leader in `s'`. -/
def Follows (cfg : Config) (a : Abs) (s' : Cluster) : Prop :=
  ∃ a' counted', Steps (protocol cfg) a a' ∧ Sim cfg s' a' counted' ∧
    ∀ {t c}, a'.led t c →
      a.led t c ∨ ((s'.nodes c).role = .leader ∧ (s'.nodes c).currentTerm = t)

theorem Sim.follows_refl (h : Sim cfg s a counted) : Follows cfg a s :=
  ⟨a, counted, Relation.ReflTransGen.refl, h, Or.inl⟩

/-- A local move after which the simulation relation holds again. -/
theorem Local.follows {id : Int} {r' : RaftNode} (hloc : Local cfg a a' id r')
    (counted' : Int → Int → Finset Int) (hnode : s'.nodes id = r')
    (hsim : Sim cfg s' a' counted') : Follows cfg a s' := by
  refine ⟨a', counted', hloc.run, hsim, fun {t c} hl => (hloc.won hl).imp_right ?_⟩
  rintro ⟨rfl, rfl⟩
  rw [hnode, ← hloc.node.term]
  exact ⟨hloc.node.leader.mpr (hloc.node.term ▸ hl), rfl⟩

/-! ### Packets that leave the network -/

/-- Taking packet `i` out leaves the others. -/
theorem take_perm {i : ℕ} {p : Packet} (hp : s.net[i]? = some p) :
    s.net.Perm (p :: (s.take i).net) := by
  obtain ⟨hlt, rfl⟩ := List.getElem?_eq_some_iff.mp hp
  exact (List.getElem_cons_eraseIdx_perm hlt).symm

/-- A packet leaves the network, for good or to be delivered. -/
theorem Sim.take (h : Sim cfg s a counted) (i : ℕ) : Sim cfg (s.take i) a counted where
  ok := h.ok
  nodes := h.nodes
  packets := fun p hp => h.packets p (List.mem_of_mem_eraseIdx hp)
  calls := h.calls.sublist ((List.eraseIdx_sublist _ _).filterMap _)
  fresh := by
    intro c t p hp hmem
    exact h.fresh hp (((List.eraseIdx_sublist _ _).filterMap _).subset hmem)
  tally := h.tally

/-- While a packet of a vote RPC is being delivered, no other packet of that RPC is in
    flight and its vote is not counted. -/
theorem Sim.call_taken (h : Sim cfg s a counted) {i : ℕ} {p : Packet}
    (hp : s.net[i]? = some p) {c t v : Int} (hcall : voteCall p = some (c, t, v)) :
    (c, t, v) ∉ (s.take i).net.filterMap voteCall ∧ v ∉ counted c t := by
  have hperm := (take_perm hp).filterMap voteCall
  have hnodup := hperm.nodup_iff.mp h.calls
  rw [List.filterMap_cons_some hcall] at hnodup hperm
  refine ⟨(List.nodup_cons.mp hnodup).1, fun hv => ?_⟩
  exact h.fresh hv (hperm.mem_iff.mpr (List.mem_cons_self))

/-! ### The steps -/

/-- A local move after which the node has sent packets that belong to no vote RPC. -/
theorem Sim.send_plain (h : Sim cfg s a counted) {id : Int} (hid : id ∈ cfg.ids)
    {r' : RaftNode} {sent : List Packet} (hloc : Local cfg a a' id r')
    (hkeep : KeepsCandidacy (s.nodes id) r') (hsent : AppendPackets cfg a' sent) :
    Sim cfg ((s.setNode id r').send sent) a' counted := by
  have hnet : ((s.setNode id r').send sent).net.filterMap voteCall = s.net.filterMap voteCall := by
    show (s.net ++ sent).filterMap voteCall = _
    rw [List.filterMap_append, hsent.calls_eq_nil, List.append_nil]
  apply h.assemble hloc (fun j => rfl)
  · intro p hp
    rcases List.mem_append.mp hp with hp | hp
    · exact Or.inl hp
    · exact Or.inr (hsent p hp).1
  · rw [hnet]; exact h.calls
  · intro c t p hp
    rw [hnet]; exact h.fresh hp
  · intro j t _; exact ⟨rfl, rfl⟩
  · exact h.tally_kept hid hloc hkeep

/-- A vote request arrives: the reply takes the place of the request. -/
theorem Sim.receive_voteRequest (h : Sim cfg s a counted) {i : ℕ} {peer : Int}
    {args : RequestVoteArgs} (hp : s.net[i]? = some (.voteRequest peer args)) :
    ∃ s', (s.take i).receive (.voteRequest peer args) = some s' ∧ Follows cfg a s' := by
  have hargs : VoteArgsOk cfg a peer args := h.packets _ (List.mem_of_getElem? hp)
  have hpeer : peer ∈ cfg.ids := ((mem_peers hargs.sender).mp hargs.peer).2
  obtain ⟨r', reply, hrun, a', hloc, hgrant⟩ :=
    local_requestVote h.ok (h.nodes peer hpeer) hargs
  refine ⟨((s.take i).setNode peer r').send [.voteReply peer args reply], ?_,
    hloc.follows counted (if_pos rfl) ?_⟩
  · show (((s.take i).nodes peer).requestVote args).bind _ = _
    rw [show ((s.take i).nodes peer).requestVote args = some (r', reply) from hrun]; rfl
  · obtain ⟨hnot, hcnt⟩ := h.call_taken hp (c := args.candidateID) (t := args.term)
      (v := peer) rfl
    have hnet : (((s.take i).setNode peer r').send [.voteReply peer args reply]).net.filterMap
        voteCall = (s.take i).net.filterMap voteCall ++ [(args.candidateID, args.term, peer)] := by
      show ((s.take i).net ++ [_]).filterMap voteCall = _
      rw [List.filterMap_append]; rfl
    -- the call stays in flight, now as a reply
    apply (h.take i).assemble hloc (fun j => rfl)
    · intro p hpm
      rcases List.mem_append.mp hpm with hpm | hpm
      · exact Or.inl hpm
      · rw [List.mem_singleton] at hpm
        subst hpm
        exact Or.inr ⟨hargs.mono (hloc.extends h.ok), hgrant⟩
    · rw [hnet]
      exact List.nodup_append_comm.mp (List.nodup_cons.mpr ⟨hnot, (h.take i).calls⟩)
    · intro c t p hpm hmem
      rw [hnet, List.mem_append, List.mem_singleton] at hmem
      rcases hmem with hmem | hmem
      · exact (h.take i).fresh hpm hmem
      · obtain ⟨rfl, rfl, rfl⟩ : c = args.candidateID ∧ t = args.term ∧ p = peer := by
          simpa using hmem
        exact hcnt hpm
    · intro j t _; exact ⟨rfl, rfl⟩
    · exact (h.take i).tally_kept hpeer hloc (RaftNode.settles_requestVote hrun).candidate

/-- A vote reply arrives: its vote may be counted, and never again. -/
theorem Sim.receive_voteReply (h : Sim cfg s a counted) {i : ℕ} {peer : Int}
    {args : RequestVoteArgs} {reply : RequestVoteReply}
    (hp : s.net[i]? = some (.voteReply peer args reply)) :
    ∃ s', (s.take i).receive (.voteReply peer args reply) = some s' ∧ Follows cfg a s' := by
  obtain ⟨hargs, hgranted⟩ : PacketOk cfg a (.voteReply peer args reply) :=
    h.packets _ (List.mem_of_getElem? hp)
  have hpeer : peer ∈ cfg.ids := ((mem_peers hargs.sender).mp hargs.peer).2
  obtain ⟨hnot, hcnt⟩ := h.call_taken hp (c := args.candidateID) (t := args.term) (v := peer) rfl
  have hcounter : (s.nodes args.candidateID).role = .candidate →
      (s.nodes args.candidateID).currentTerm = args.term →
      Tally cfg a args.candidateID args.term (s.votesReceived args.candidateID args.term)
        (counted args.candidateID args.term) := by
    intro hc ht
    have := h.tally _ hargs.sender hc
    rwa [ht] at this
  obtain ⟨r', votes', sent, hrun, a', Q', hloc, hsent, hQ', hkeep, htally⟩ :=
    local_handleVoteReply h.ok hargs.sender (h.nodes _ hargs.sender) hpeer hcnt hgranted hcounter
  refine ⟨(((s.take i).setNode args.candidateID r').setVotes args.candidateID args.term
    votes').send sent, ?_, hloc.follows
    (fun c t => if c = args.candidateID ∧ t = args.term then Q' else counted c t)
    (if_pos rfl) ?_⟩
  · show (((s.take i).nodes args.candidateID).handleVoteReply args reply
      ((s.take i).votesReceived args.candidateID args.term)).bind _ = _
    rw [show ((s.take i).nodes args.candidateID).handleVoteReply args reply
      ((s.take i).votesReceived args.candidateID args.term) = some (r', votes', sent) from hrun]
    rfl
  · have hnet : ((s.take i).net ++ sent).filterMap voteCall =
        (s.take i).net.filterMap voteCall := by
      rw [List.filterMap_append, hsent.calls_eq_nil, List.append_nil]
    apply (h.take i).assemble hloc (fun j => rfl)
    · intro p hpm
      rcases List.mem_append.mp hpm with hpm | hpm
      · exact Or.inl hpm
      · exact Or.inr (hsent p hpm).1
    · show (((s.take i).net ++ sent).filterMap voteCall).Nodup
      rw [hnet]; exact (h.take i).calls
    · intro c t p hpm
      show _ ∉ ((s.take i).net ++ sent).filterMap voteCall
      rw [hnet]
      by_cases hct : c = args.candidateID ∧ t = args.term
      · rw [if_pos hct] at hpm
        obtain ⟨rfl, rfl⟩ := hct
        rcases hQ' with rfl | rfl
        · exact (h.take i).fresh hpm
        · -- the vote just counted: its call has left the network with this packet
          rcases Finset.mem_insert.mp hpm with rfl | hpm
          · exact hnot
          · exact (h.take i).fresh hpm
      · rw [if_neg hct] at hpm
        exact (h.take i).fresh hpm
    · intro j t hj
      have hno : ¬ (j = args.candidateID ∧ t = args.term) := fun hjt => hj hjt.1
      exact ⟨if_neg hno, if_neg hno⟩
    · intro hc
      show Tally cfg a' args.candidateID r'.currentTerm
        (if args.candidateID = args.candidateID ∧ r'.currentTerm = args.term then votes'
          else s.votesReceived args.candidateID r'.currentTerm) _
      by_cases ht : r'.currentTerm = args.term
      · -- the reply belongs to the running election
        rw [if_pos ⟨rfl, ht⟩, if_pos ⟨rfl, ht⟩, ht]
        exact htally hc ((hkeep hc).2.symm.trans ht)
      · -- a stale reply leaves the running election alone
        have hno : ¬ (args.candidateID = args.candidateID ∧ r'.currentTerm = args.term) :=
          fun hjt => ht hjt.2
        rw [if_neg hno, if_neg hno]
        exact h.tally_kept hargs.sender hloc hkeep hc

/-- An append request arrives. -/
theorem Sim.receive_appendRequest (h : Sim cfg s a counted) {i : ℕ} {peer : Int}
    {args : AppendEntriesArgs} (hp : s.net[i]? = some (.appendRequest peer args)) :
    ∃ s', (s.take i).receive (.appendRequest peer args) = some s' ∧ Follows cfg a s' := by
  obtain ⟨p, hargs⟩ : PacketOk cfg a (.appendRequest peer args) :=
    h.packets _ (List.mem_of_getElem? hp)
  have hpeer : peer ∈ cfg.ids := ((mem_peers hargs.sender).mp hargs.peer).2
  obtain ⟨r', reply, hrun, a', hloc, hack⟩ :=
    local_appendEntries h.ok (h.nodes peer hpeer) hargs
  have hkeep := (RaftNode.settles_appendEntries hrun).candidate
  refine ⟨((s.take i).setNode peer r').send [.appendReply peer args reply], ?_,
    hloc.follows counted (if_pos rfl) ((h.take i).send_plain hpeer hloc hkeep ?_)⟩
  · show (((s.take i).nodes peer).appendEntries args).bind _ = _
    rw [show ((s.take i).nodes peer).appendEntries args = some (r', reply) from hrun]; rfl
  · intro q hq
    rw [List.mem_singleton] at hq
    subst hq
    exact ⟨⟨p, hargs.mono (hloc.extends h.ok), hack⟩, rfl⟩

/-- Sending nothing. -/
theorem send_nil (s : Cluster) : s.send [] = s := by rw [Cluster.send, List.append_nil]

/-- An append reply arrives. -/
theorem Sim.receive_appendReply (h : Sim cfg s a counted) {i : ℕ} {peer : Int}
    {args : AppendEntriesArgs} {reply : AppendEntriesReply}
    (hp : s.net[i]? = some (.appendReply peer args reply)) :
    ∃ s', (s.take i).receive (.appendReply peer args reply) = some s' ∧ Follows cfg a s' := by
  obtain ⟨p, hargs, hack⟩ : PacketOk cfg a (.appendReply peer args reply) :=
    h.packets _ (List.mem_of_getElem? hp)
  obtain ⟨r', hrun, a', hloc⟩ :=
    local_handleAppendReply h.ok hargs.sender (h.nodes _ hargs.sender) hargs hack
  have hkeep := (RaftNode.settles_handleAppendReply hrun).candidate
  have hnothing : AppendPackets cfg a' [] := by intro q hq; simp at hq
  have hsim := (h.take i).send_plain hargs.sender hloc hkeep hnothing
  refine ⟨(s.take i).setNode args.leaderID r', ?_,
    hloc.follows counted (if_pos rfl) ?_⟩
  · show (((s.take i).nodes args.leaderID).handleAppendReply peer args reply).bind _ = _
    rw [show ((s.take i).nodes args.leaderID).handleAppendReply peer args reply = some r'
      from hrun]
    rfl
  · rwa [send_nil] at hsim

/-- **A packet arrives.** -/
theorem Sim.receive (h : Sim cfg s a counted) {i : ℕ} {p : Packet} (hp : s.net[i]? = some p) :
    ∃ s', (s.take i).receive p = some s' ∧ Follows cfg a s' := by
  cases p with
  | voteRequest peer args => exact h.receive_voteRequest hp
  | voteReply peer args reply => exact h.receive_voteReply hp
  | appendRequest peer args => exact h.receive_appendRequest hp
  | appendReply peer args reply => exact h.receive_appendReply hp

/-- The elections whose packets are in flight are not ahead of their candidates. -/
theorem Sim.call_le (h : Sim cfg s a counted) {c t v : Int}
    (hmem : (c, t, v) ∈ s.net.filterMap voteCall) : t ≤ (s.nodes c).currentTerm := by
  have hquote : ∀ {peer : Int} {args : RequestVoteArgs}, VoteArgsOk cfg a peer args →
      args.term ≤ (s.nodes args.candidateID).currentTerm := by
    intro peer args hargs
    obtain ⟨C, hC, _⟩ := hargs.quotes
    rw [← (h.nodes _ hargs.sender).term]
    exact h.ok.inv.vote_le (h.ok.inv.stood_vote hC)
  obtain ⟨p, hp, hcall⟩ := List.mem_filterMap.mp hmem
  have hok := h.packets p hp
  cases p with
  | voteRequest peer args =>
    obtain ⟨rfl, rfl, rfl⟩ : args.candidateID = c ∧ args.term = t ∧ peer = v := by
      simpa [voteCall] using hcall
    exact hquote hok
  | voteReply peer args reply =>
    obtain ⟨rfl, rfl, rfl⟩ : args.candidateID = c ∧ args.term = t ∧ peer = v := by
      simpa [voteCall] using hcall
    exact hquote hok.1
  | appendRequest peer args => simp [voteCall] at hcall
  | appendReply peer args reply => simp [voteCall] at hcall

/-- **An election timeout.** -/
theorem Sim.electionTimeout (h : Sim cfg s a counted) {id : Int} (hid : id ∈ cfg.ids) :
    ∃ r' sent, (s.nodes id).startElection = some (r', 1, sent) ∧
      Follows cfg a (((s.setNode id r').setVotes id r'.currentTerm 1).send sent) := by
  obtain ⟨r', sent, hrun, a', hloc, hterm, htally, hsent, hnodup, hnew⟩ :=
    local_startElection h.ok hid (h.nodes id hid)
  refine ⟨r', sent, hrun, hloc.follows
    (fun c t => if c = id ∧ t = r'.currentTerm then {id} else counted c t) (if_pos rfl) ?_⟩
  have hnet : (s.net ++ sent).filterMap voteCall =
      s.net.filterMap voteCall ++ sent.filterMap voteCall := List.filterMap_append
  -- the calls of the new election are new: its term is
  have hlater : ∀ {v}, (id, r'.currentTerm, v) ∉ s.net.filterMap voteCall := by
    intro v hv
    have := h.call_le hv
    omega
  apply h.assemble hloc (fun j => rfl)
  · intro p hp
    rcases List.mem_append.mp hp with hp | hp
    · exact Or.inl hp
    · exact Or.inr (hsent p hp)
  · show ((s.net ++ sent).filterMap voteCall).Nodup
    rw [hnet, List.nodup_append]
    refine ⟨h.calls, hnodup, ?_⟩
    intro x hx y hy hxy
    subst hxy
    obtain ⟨v, _, rfl⟩ := hnew x hy
    rw [← hterm] at hx
    exact hlater hx
  · intro c t p hp hmem
    have hmem' : (c, t, p) ∈ (s.net ++ sent).filterMap voteCall := hmem
    rw [hnet, List.mem_append] at hmem'
    by_cases hct : c = id ∧ t = r'.currentTerm
    · -- the candidate has counted itself, to which it sends no request
      rw [if_pos hct, Finset.mem_singleton] at hp
      obtain ⟨rfl, rfl⟩ := hct
      rcases hmem' with hold | hnew'
      · exact hlater hold
      · obtain ⟨v, hv, heq⟩ := hnew _ hnew'
        have hvp : p = v := by simpa using congrArg (fun x => x.2.2) heq
        exact hv (hvp.symm.trans hp)
    · -- the count of another election, which the new requests do not belong to
      rw [if_neg hct] at hp
      rcases hmem' with hold | hnew'
      · exact h.fresh hp hold
      · obtain ⟨v, _, heq⟩ := hnew _ hnew'
        have hc : c = id := by simpa using congrArg Prod.fst heq
        have ht : t = (s.nodes id).currentTerm + 1 := by simpa using congrArg (fun x => x.2.1) heq
        exact hct ⟨hc, ht.trans hterm.symm⟩
  · intro j t hj
    have hno : ¬ (j = id ∧ t = r'.currentTerm) := fun hjt => hj hjt.1
    exact ⟨if_neg hno, if_neg hno⟩
  · intro _
    show Tally cfg a' id r'.currentTerm
      (if id = id ∧ r'.currentTerm = r'.currentTerm then 1 else _) _
    rw [if_pos ⟨rfl, rfl⟩, if_pos ⟨rfl, rfl⟩, hterm]
    exact htally

/-- Putting a node back. -/
theorem setNode_self (s : Cluster) (id : Int) : s.setNode id (s.nodes id) = s := by
  unfold Cluster.setNode
  congr 1
  funext j
  by_cases hj : j = id
  · rw [if_pos hj, hj]
  · rw [if_neg hj]

/-- **One step of a cluster** is not enabled, or succeeds and refines moves of the
    protocol.  In particular no step panics. -/
theorem Sim.step (h : Sim cfg s a counted) (act : Action) :
    s.step cfg act = .error .disabled ∨ ∃ s', s.step cfg act = .ok s' ∧ Follows cfg a s' := by
  cases act with
  | electionTimeout id =>
    by_cases hen : id ∈ cfg.ids ∧ (s.nodes id).killed = false ∧ (s.nodes id).role ≠ .leader
    · right
      obtain ⟨r', sent, hrun, hfollows⟩ := h.electionTimeout hen.1
      refine ⟨_, ?_, hfollows⟩
      rw [Cluster.step, if_pos hen, hrun]; rfl
    · left; rw [Cluster.step, if_neg hen]
  | heartbeatTick id =>
    by_cases hen : id ∈ cfg.ids ∧ (s.nodes id).killed = false ∧ (s.nodes id).role = .leader
    · right
      -- a heartbeat changes no node, and what it sends says what the leader's log already says
      have hn := h.nodes id hen.1
      obtain ⟨sent, hrun, hsent⟩ := broadcastHeartbeats_ok h.ok hen.1 hn
      have hsim := h.send_plain hen.1 (Local.refl h.ok hn) (fun hc => ⟨hc, rfl⟩) hsent
      rw [setNode_self] at hsim
      refine ⟨s.send sent, ?_, hsim.follows_refl⟩
      rw [Cluster.step, if_pos hen, hrun]; rfl
    · left; rw [Cluster.step, if_neg hen]
  | submit id key value tombstone =>
    by_cases hen : id ∈ cfg.ids
    · right
      obtain ⟨r', res, sent, hrun, a', hloc, hsent⟩ :=
        local_submit h.ok hen (h.nodes id hen) key value tombstone
      have hkeep := (RaftNode.settles_submit hrun).candidate
      refine ⟨_, ?_, hloc.follows counted (if_pos rfl) (h.send_plain hen hloc hkeep hsent)⟩
      rw [Cluster.step, if_pos hen, hrun]; rfl
    · left; rw [Cluster.step, if_neg hen]
  | deliver i =>
    cases hp : s.net[i]? with
    | none => left; simp only [Cluster.step, hp]
    | some p =>
      right
      obtain ⟨s', hrun, hfollows⟩ := h.receive hp
      refine ⟨s', ?_, hfollows⟩
      simp only [Cluster.step, hp, hrun]; rfl
  | lose i =>
    by_cases hi : i < s.net.length
    · right
      exact ⟨s.take i, if_pos hi, (h.take i).follows_refl⟩
    · left; rw [Cluster.step, if_neg hi]
  | kill id =>
    by_cases hen : id ∈ cfg.ids
    · right
      have hn := h.nodes id hen
      -- the protocol has no notion of a killed node: the step refines no move at all
      have hn' : NodeSim cfg a id { s.nodes id with killed := true } := { hn with }
      have hnothing : AppendPackets cfg a [] := by intro q hq; simp at hq
      have hsim := h.send_plain hen (Local.refl h.ok hn') (fun hc => ⟨hc, rfl⟩) hnothing
      rw [send_nil] at hsim
      exact ⟨_, if_pos hen, hsim.follows_refl⟩
    · left; rw [Cluster.step, if_neg hen]

/-- A step that takes place. -/
theorem Sim.follows_step (h : Sim cfg s a counted) {act : Action}
    (hstep : s.step cfg act = .ok s') : Follows cfg a s' := by
  rcases h.step act with hno | ⟨u, hrun, hfollows⟩
  · rw [hstep] at hno; cases hno
  · rw [hstep] at hrun
    rwa [Except.ok.inj hrun]

/-! ### Runs -/

section Trace

variable {σ α ε : Type} (step : σ → α → Except ε σ) (init : σ)

/-- **Refinement of runs of a system** that contains a cluster, the part `proj s` of its state
    `s`; every step of the system changes the cluster as moves of the protocol do, or not at
    all.  Then along the states of a run there is a run of the protocol that describes the
    cluster in each of them, and whoever has led a term was its leader in one of the states so
    far. -/
theorem exists_abstract_trace (proj : σ → Cluster) (hids : (-1 : Int) ∉ cfg.ids)
    (hinit : proj init = Cluster.initial cfg)
    (hstep : ∀ {s x s'}, step s x = .ok s' →
      ∀ {a counted}, Sim cfg (proj s) a counted → Follows cfg a (proj s'))
    (acts : List α) :
    ∃ f : ℕ → Abs,
      (∀ (i : ℕ) (s : σ), Run.Reached step init (acts.take i) s →
        ∃ counted, Sim cfg (proj s) (f i) counted) ∧
      (∀ {i j : ℕ}, i ≤ j → Steps (protocol cfg) (f i) (f j)) ∧
      ∀ (i : ℕ) (s : σ), Run.Reached step init (acts.take i) s → ∀ {t c}, (f i).led t c →
        ∃ j ≤ i, ∃ u, Run.Reached step init (acts.take j) u ∧
          ((proj u).nodes c).role = .leader ∧ ((proj u).nodes c).currentTerm = t := by
  induction acts using List.reverseRecOn with
  | nil =>
    refine ⟨fun _ => Replog.State.initial (protocol cfg), ?_, fun _ => Relation.ReflTransGen.refl,
      fun i s hs {t c} hl => hl.elim⟩
    intro i s hs
    rw [List.take_nil, Run.reached_nil] at hs
    rw [← hs, hinit]
    exact ⟨_, sim_initial hids⟩
  | append_singleton acts x ih =>
    obtain ⟨f, hf, hsteps, hled⟩ := ih
    have hearly : ∀ {i : ℕ}, i ≤ acts.length → (acts ++ [x]).take i = acts.take i :=
      fun hi => List.take_append_of_le_length hi
    have hlate : ∀ {i : ℕ}, ¬ i ≤ acts.length → (acts ++ [x]).take i = acts ++ [x] :=
      fun hi => List.take_of_length_le (by simp; omega)
    -- the abstract state after the last step, if that step takes place
    obtain ⟨a', hlast, hmove⟩ : ∃ a' : Abs,
        (∀ s', Run.Reached step init (acts ++ [x]) s' →
          (∃ counted, Sim cfg (proj s') a' counted) ∧
          ∀ {t c}, a'.led t c → (∃ s, Run.Reached step init acts s ∧ (f acts.length).led t c) ∨
            (((proj s').nodes c).role = .leader ∧ ((proj s').nodes c).currentTerm = t)) ∧
        Steps (protocol cfg) (f acts.length) a' := by
      by_cases hex : ∃ s', Run.Reached step init (acts ++ [x]) s'
      · obtain ⟨s', hs'⟩ := hex
        obtain ⟨s, hs, hx⟩ := Run.reached_snoc.mp hs'
        obtain ⟨counted, hsim⟩ := hf acts.length s (by rw [List.take_length]; exact hs)
        obtain ⟨a', counted', hmove, hsim', hwon⟩ := hstep hx hsim
        refine ⟨a', fun u hu => ?_, hmove⟩
        obtain rfl := hs'.unique hu
        exact ⟨⟨counted', hsim'⟩, fun hl => (hwon hl).imp_left fun h => ⟨s, hs, h⟩⟩
      · exact ⟨f acts.length, fun s' hs' => absurd ⟨s', hs'⟩ hex, Relation.ReflTransGen.refl⟩
    refine ⟨fun i => if i ≤ acts.length then f i else a', ?_, ?_, ?_⟩
    · intro i s hs
      dsimp only
      by_cases hi : i ≤ acts.length
      · rw [if_pos hi]
        rw [hearly hi] at hs
        exact hf i s hs
      · rw [if_neg hi]
        rw [hlate hi] at hs
        exact (hlast s hs).1
    · intro i j hij
      dsimp only
      by_cases hj : j ≤ acts.length
      · rw [if_pos hj, if_pos (by omega)]; exact hsteps hij
      · rw [if_neg hj]
        by_cases hi : i ≤ acts.length
        · rw [if_pos hi]; exact (hsteps hi).trans hmove
        · rw [if_neg hi]; exact Relation.ReflTransGen.refl
    · intro i s hs t c hl
      dsimp only at hl
      by_cases hi : i ≤ acts.length
      · rw [if_pos hi] at hl
        rw [hearly hi] at hs
        obtain ⟨j, hj, u, hu, hlead⟩ := hled i s hs hl
        exact ⟨j, hj, u, by rw [hearly (by omega)]; exact hu, hlead⟩
      · rw [if_neg hi] at hl
        have hs' := hs
        rw [hlate hi] at hs'
        rcases (hlast s hs').2 hl with ⟨s₀, hs₀, hold⟩ | hnew
        · obtain ⟨j, hj, u, hu, hlead⟩ :=
            hled acts.length s₀ (by rw [List.take_length]; exact hs₀) hold
          exact ⟨j, by omega, u, by rw [hearly hj]; exact hu, hlead⟩
        · exact ⟨i, le_refl i, s, hs, hnew⟩

end Trace

/-- **Refinement of runs.**  Along the states of a run there is a run of the replicated-log
    protocol that describes each of them. -/
theorem exists_abstract_run (hids : (-1 : Int) ∉ cfg.ids) (acts : List Action) :
    ∃ f : ℕ → Abs,
      (∀ (i : ℕ) (s : Cluster), Cluster.Reached cfg (acts.take i) s →
        ∃ counted, Sim cfg s (f i) counted) ∧
      ∀ {i j : ℕ}, i ≤ j → Steps (protocol cfg) (f i) (f j) := by
  obtain ⟨f, hf, hsteps, _⟩ := exists_abstract_trace (Cluster.step cfg) (Cluster.initial cfg)
    id hids rfl (fun hstep _ _ h => h.follows_step hstep) acts
  exact ⟨f, hf, hsteps⟩

/-- Every reached state is described by a state the protocol reaches. -/
theorem exists_sim (hids : (-1 : Int) ∉ cfg.ids) {acts : List Action}
    (h : Cluster.Reached cfg acts s) : ∃ a counted, Sim cfg s a counted := by
  obtain ⟨f, hf, _⟩ := exists_abstract_run hids acts
  exact ⟨_, hf acts.length s (by rw [List.take_length]; exact h)⟩

end Hallownest.Consensus
