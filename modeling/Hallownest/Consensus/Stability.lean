import Hallownest.Consensus.Progress
import Hallownest.Consensus.Timers

namespace Hallownest.Consensus

open RaftNode

/-!
# Consensus — a leader whose heartbeats arrive stays leader

Terms only travel in packets: a node that does not start an election has its old term or one that
it was told (`step_term`).  So while no election starts, no term grows beyond the highest one;
and a leader whose term does not change stays leader, as a term has one leader (`NodeSim.leader`).

* `stable_leader` — as long as the timeout of every other node has been set less than the shortest
  timeout ago whenever the node looks at it, the leader of the highest term leads on.
-/

variable {cfg : Config} {s s' : Cluster} {acts : List Action} {act : Action}

/-! ### How terms travel -/

/-- The term that the receiver of a packet compares with its own. -/
def Packet.term : Packet → Int
  | .voteRequest _ args => args.term
  | .voteReply _ _ reply => reply.term
  | .appendRequest _ args => args.term
  | .appendReply _ _ reply => reply.term

namespace RaftNode

variable {r r' : RaftNode}

/-- After a vote request the node has its old term or that of the request, and answers with it. -/
theorem requestVote_term {args : RequestVoteArgs} {reply : RequestVoteReply}
    (h : r.requestVote args = some (r', reply)) :
    (r'.currentTerm = r.currentTerm ∨ r'.currentTerm = args.term) ∧
      reply.term = r'.currentTerm := by
  have hterm := catchUp_term r args.term
  rcases requestVote_cases h with ⟨rfl, rfl⟩ | ⟨rfl, rfl, _⟩
  · exact ⟨hterm ▸ max_choice _ _, rfl⟩
  · exact ⟨hterm ▸ max_choice _ _, rfl⟩

/-- After an append request the node has its old term or that of the request, and answers with it.
    -/
theorem appendEntries_term {args : AppendEntriesArgs} {reply : AppendEntriesReply}
    (h : r.appendEntries args = some (r', reply)) :
    (r'.currentTerm = r.currentTerm ∨ r'.currentTerm = args.term) ∧
      reply.term = r'.currentTerm := by
  have hterm := catchUp_term r args.term
  rcases appendEntries_inv h with
    ⟨rfl, _, rfl⟩ | ⟨rfl, rfl⟩ | ⟨_, rfl, _, _, _, _, _, hfollow⟩
  · exact ⟨hterm ▸ max_choice _ _, rfl⟩
  · exact ⟨hterm ▸ max_choice _ _, rfl⟩
  · obtain ⟨_, _, _, rfl⟩ := commits_followCommit hfollow
    exact ⟨hterm ▸ max_choice _ _, rfl⟩

/-- After a vote reply the node has its old term or that of the reply, and so has what it sends. -/
theorem handleVoteReply_term {args : RequestVoteArgs} {reply : RequestVoteReply}
    {votes votes' : Int} {sent : List Packet}
    (h : r.handleVoteReply args reply votes = some (r', votes', sent)) :
    (r'.currentTerm = r.currentTerm ∨ r'.currentTerm = reply.term) ∧
      ∀ q ∈ sent, q.term = r'.currentTerm := by
  obtain ⟨rfl, _, rfl⟩ | ⟨_, rfl, _, rfl⟩ | ⟨_, _, _, _, ⟨rfl, rfl⟩ | ⟨_, rfl, hsent⟩⟩ :=
    handleVoteReply_cases h
  · exact ⟨Or.inl rfl, by simp⟩
  · exact ⟨Or.inr rfl, by simp⟩
  · exact ⟨Or.inl rfl, by simp⟩
  · refine ⟨Or.inl rfl, fun q hq => ?_⟩
    obtain ⟨peer, args, rfl, _, hterm, _⟩ := quotes_broadcast hsent q hq
    exact hterm

/-- After an append reply the node has its old term or that of the reply. -/
theorem handleAppendReply_term {peerID : Int} {args : AppendEntriesArgs}
    {reply : AppendEntriesReply} (h : r.handleAppendReply peerID args reply = some r') :
    r'.currentTerm = r.currentTerm ∨ r'.currentTerm = reply.term := by
  obtain rfl | ⟨_, rfl⟩ | ⟨_, _, _, hrun⟩ | ⟨_, rfl⟩ := handleAppendReply_cases h
  · exact Or.inl rfl
  · exact Or.inr rfl
  · obtain ⟨_, _, _, rfl⟩ := commits_advanceLoop hrun
    exact Or.inl rfl
  · exact Or.inl rfl

/-- A proposal changes no term and is sent in that of the node. -/
theorem submit_term {key value : Bytes} {tombstone : Bool} {res : Int × Int × Bool}
    {sent : List Packet} (h : r.submit key value tombstone = some (r', res, sent)) :
    r'.currentTerm = r.currentTerm ∧ ∀ q ∈ sent, q.term = r'.currentTerm := by
  obtain ⟨_, rfl, _, rfl⟩ | ⟨_, rfl, _, hsent⟩ := submit_cases h
  · exact ⟨rfl, by simp⟩
  · refine ⟨rfl, fun q hq => ?_⟩
    obtain ⟨peer, args, rfl, _, hterm, _⟩ := quotes_broadcast hsent q hq
    exact hterm

/-- An election asks for votes in the new term. -/
theorem startElection_term {votes : Int} {sent : List Packet}
    (h : r.startElection = some (r', votes, sent)) : ∀ q ∈ sent, q.term = r'.currentTerm := by
  intro q hq
  obtain ⟨_, ⟨_, rfl, hsent⟩ | ⟨rfl, args, hterm, _, rfl⟩⟩ := startElection_cases h
  · obtain ⟨peer, args, rfl, _, hterm, _⟩ := quotes_broadcast hsent q hq
    exact hterm
  · obtain ⟨p, _, rfl⟩ := List.mem_map.mp hq
    exact hterm

end RaftNode

namespace Cluster

/-- In a step that starts no election a node keeps its term or takes the term of a packet. -/
theorem step_term (hact : ∀ id, act ≠ .electionTimeout id) (h : s.step cfg act = .ok s') (j : Int) :
    (s'.nodes j).currentTerm = (s.nodes j).currentTerm ∨
      ∃ q ∈ s.net, (s'.nodes j).currentTerm = q.term := by
  have hset : ∀ {id : Int} {r : RaftNode},
      (r.currentTerm = (s.nodes id).currentTerm ∨ ∃ q ∈ s.net, r.currentTerm = q.term) →
      ((s.setNode id r).nodes j).currentTerm = (s.nodes j).currentTerm ∨
        ∃ q ∈ s.net, ((s.setNode id r).nodes j).currentTerm = q.term :=
    fun hr => setNode_relates (R := fun r r' => r'.currentTerm = r.currentTerm ∨
      ∃ q ∈ s.net, r'.currentTerm = q.term) (fun _ => Or.inl rfl) hr j
  have hmem : ∀ {i : ℕ} {p : Packet} {r : RaftNode}, s.net[i]? = some p →
      r.currentTerm = p.term → ∃ q ∈ s.net, r.currentTerm = q.term :=
    fun hp hterm => ⟨_, List.mem_of_getElem? hp, hterm⟩
  cases step_takes h with
  | @electionTimeout id => exact absurd rfl (hact id)
  | heartbeatTick _ _ => exact Or.inl rfl
  | submit _ hrun => exact hset (Or.inl (submit_term hrun).1)
  | voteRequest hp hrun => exact hset ((requestVote_term hrun).1.imp_right (hmem hp))
  | voteReply hp hrun => exact hset ((handleVoteReply_term hrun).1.imp_right (hmem hp))
  | appendRequest hp hrun => exact hset ((appendEntries_term hrun).1.imp_right (hmem hp))
  | appendReply hp hrun => exact hset ((handleAppendReply_term hrun).imp_right (hmem hp))
  | lose => exact Or.inl rfl
  | kill => exact hset (Or.inl rfl)

/-- A new packet carries the term of its sender. -/
theorem step_sent (hnet : ∀ q ∈ s.net, Addressed cfg q) (h : s.step cfg act = .ok s') {q : Packet}
    (hq : q ∈ s'.net) : q ∈ s.net ∨ ∃ j ∈ cfg.ids, q.term = (s'.nodes j).currentTerm := by
  have hsent : ∀ {kept sent : List Packet} {id : Int} {r : RaftNode}, id ∈ cfg.ids →
      (∀ q ∈ kept, q ∈ s.net) → (∀ q ∈ sent, q.term = r.currentTerm) → q ∈ kept ++ sent →
      q ∈ s.net ∨ ∃ j ∈ cfg.ids, q.term = ((s.setNode id r).nodes j).currentTerm := by
    intro kept sent id r hid hkept hterm hq
    rcases List.mem_append.mp hq with hq | hq
    · exact Or.inl (hkept q hq)
    · exact Or.inr ⟨id, hid, by rw [setNode_nodes_self]; exact hterm q hq⟩
  have htake : ∀ {i : ℕ}, ∀ q ∈ s.net.eraseIdx i, q ∈ s.net :=
    fun _ => List.mem_of_mem_eraseIdx
  cases step_takes h with
  | electionTimeout hid _ hrun => exact hsent hid (fun _ => id) (startElection_term hrun) hq
  | @heartbeatTick id sent hid hrun =>
    rcases List.mem_append.mp hq with hq | hq
    · exact Or.inl hq
    · obtain ⟨peer, args, rfl, _, hterm, _⟩ := quotes_broadcast hrun q hq
      exact Or.inr ⟨id, hid, hterm⟩
  | submit hid hrun => exact hsent hid (fun _ => id) (submit_term hrun).2 hq
  | voteRequest hp hrun =>
    obtain ⟨hid, hpeer⟩ := hnet _ (List.mem_of_getElem? hp)
    refine hsent ((mem_peers hid).mp hpeer).2 htake (fun q hq => ?_) hq
    rw [List.mem_singleton.mp hq]
    exact (requestVote_term hrun).2
  | voteReply hp hrun =>
    obtain ⟨hid, _⟩ := hnet _ (List.mem_of_getElem? hp)
    exact hsent hid htake (handleVoteReply_term hrun).2 hq
  | appendRequest hp hrun =>
    obtain ⟨hid, hpeer⟩ := hnet _ (List.mem_of_getElem? hp)
    refine hsent ((mem_peers hid).mp hpeer).2 htake (fun q hq => ?_) hq
    rw [List.mem_singleton.mp hq]
    exact (appendEntries_term hrun).2
  | appendReply _ _ => exact Or.inl (List.mem_of_mem_eraseIdx hq)
  | lose => exact Or.inl (List.mem_of_mem_eraseIdx hq)
  | kill => exact Or.inl hq

/-- No packet has a term that no node has come to. -/
theorem exists_term_le (h : Reached cfg acts s) {q : Packet} (hq : q ∈ s.net) :
    ∃ j ∈ cfg.ids, q.term ≤ (s.nodes j).currentTerm := by
  refine Run.Reached.invariant
    (I := fun _ (s : Cluster) => ∀ q ∈ s.net, ∃ j ∈ cfg.ids, q.term ≤ (s.nodes j).currentTerm)
    (fun q hq => absurd hq (List.not_mem_nil)) (fun {_ s x s'} hs ih hstep q hq => ?_) h q hq
  rcases step_sent (addressed_of_reached hs) hstep hq with hold | ⟨j, hj, hterm⟩
  · obtain ⟨j, hj, hle⟩ := ih q hold
    exact ⟨j, hj, hle.trans (step_climbs hstep j).term_le⟩
  · exact ⟨j, hj, hterm.le⟩

/-- Neither a node nor a packet has a term beyond `T`. -/
structure TermsLe (cfg : Config) (s : Cluster) (T : Int) : Prop where
  nodes : ∀ j ∈ cfg.ids, (s.nodes j).currentTerm ≤ T
  net : ∀ q ∈ s.net, q.term ≤ T

/-- Without an election no term grows beyond the highest one. -/
theorem TermsLe.step {T : Int} (hT : TermsLe cfg s T) (hs : Reached cfg acts s)
    (hact : ∀ id, act ≠ .electionTimeout id) (h : s.step cfg act = .ok s') : TermsLe cfg s' T := by
  have hnodes : ∀ j ∈ cfg.ids, (s'.nodes j).currentTerm ≤ T := by
    intro j hj
    rcases step_term hact h j with hsame | ⟨q, hq, hterm⟩
    · exact hsame ▸ hT.nodes j hj
    · exact hterm ▸ hT.net q hq
  refine ⟨hnodes, fun q hq => ?_⟩
  rcases step_sent (addressed_of_reached hs) h hq with hold | ⟨j, hj, hterm⟩
  · exact hT.net q hold
  · exact hterm ▸ hnodes j hj

end Cluster

/-! ### A stable leader -/

/-- A leader leads as long as it is in the term it leads. -/
theorem Sim.leads_on {a a' : Abs} {counted counted' : Int → Int → Finset Int}
    (h : Sim cfg s a counted) (h' : Sim cfg s' a' counted')
    (hsteps : Replog.Steps (protocol cfg) a a') {ℓ : Int} (hℓ : ℓ ∈ cfg.ids)
    (hlead : (s.nodes ℓ).role = .leader)
    (hterm : (s'.nodes ℓ).currentTerm = (s.nodes ℓ).currentTerm) :
    (s'.nodes ℓ).role = .leader := by
  have hled : a.led (s.nodes ℓ).currentTerm ℓ := (h.nodes ℓ hℓ).leader.mp hlead
  have hled' := (Replog.Steps.inv_extends h.ok.inv hsteps).2.led hled
  rw [← hterm] at hled'
  exact (h'.nodes ℓ hℓ).leader.mpr hled'

namespace Timed

open Cluster (TermsLe exists_term_le step_climbs)

variable {now : Int} {draw : Int → Draw} {ticks : List (Int × Tick)}

/-- A node that has led its term leads it as long as it is in that term. -/
theorem leads_on (hids : (-1 : Int) ∉ cfg.ids) {i j : ℕ} (hij : i ≤ j) {u v : Timed}
    (hu : Reached cfg now draw (ticks.take i) u) (hv : Reached cfg now draw (ticks.take j) v)
    {ℓ : Int} (hℓ : ℓ ∈ cfg.ids) (hlead : (u.cluster.nodes ℓ).role = .leader)
    (hterm : (v.cluster.nodes ℓ).currentTerm = (u.cluster.nodes ℓ).currentTerm) :
    (v.cluster.nodes ℓ).role = .leader := by
  have hstep : ∀ {s : Timed} {x : Int × Tick} {s' : Timed}, s.step cfg x = .ok s' →
      ∀ {a counted}, Sim cfg s.cluster a counted → Follows cfg a s'.cluster := by
    intro s x s' hstep a counted hsim
    rcases step_cluster hstep with hsame | ⟨act, hact, _⟩
    · rw [hsame]
      exact hsim.follows_refl
    · exact hsim.follows_step hact
  obtain ⟨f, hf, hsteps, _⟩ :=
    exists_abstract_trace (step cfg) (initial cfg now draw) Timed.cluster hids rfl hstep ticks
  obtain ⟨_, hsim⟩ := hf i u hu
  obtain ⟨_, hsim'⟩ := hf j v hv
  exact hsim.leads_on hsim' (hsteps hij) hℓ hlead hterm

/-- **A stable leader.**  At some moment of a timed run let node `ℓ` lead its term, and let no node
    be in a later one.  If from then on, whenever the election loop of another node looks at the
    clock, the timeout of that node has been set at most the shortest timeout ago, then `ℓ` leads
    its term at every later moment, and no node comes to a later one. -/
theorem stable_leader (hids : (-1 : Int) ∉ cfg.ids) {i l : ℕ} (hil : i ≤ l) {u v : Timed}
    (hu : Reached cfg now draw (ticks.take i) u) (hv : Reached cfg now draw (ticks.take l) v)
    {ℓ : Int} (hℓ : ℓ ∈ cfg.ids) (hlead : (u.cluster.nodes ℓ).role = .leader)
    (hterms : ∀ j ∈ cfg.ids,
      (u.cluster.nodes j).currentTerm ≤ (u.cluster.nodes ℓ).currentTerm)
    (hbeats : ∀ k x p d, i ≤ k → k < l → ticks[k]? = some x → x.2 = .electionTick p d → p ≠ ℓ →
      ∃ m t, m ≤ k ∧ ResetAt cfg now draw ticks p m t ∧ x.1 ≤ t + minElectionTimeout) :
    (v.cluster.nodes ℓ).role = .leader ∧
    (v.cluster.nodes ℓ).currentTerm = (u.cluster.nodes ℓ).currentTerm ∧
    ∀ j ∈ cfg.ids, (v.cluster.nodes j).currentTerm ≤ (u.cluster.nodes ℓ).currentTerm := by
  obtain ⟨acts, hacts⟩ := reached_cluster hu
  have hstart : TermsLe cfg u.cluster (u.cluster.nodes ℓ).currentTerm := by
    refine ⟨hterms, fun q hq => ?_⟩
    obtain ⟨j, hj, hle⟩ := exists_term_le hacts hq
    exact hle.trans (hterms j hj)
  -- the term of `ℓ` is kept from below by the node, from above by everyone
  have hkept : TermsLe cfg v.cluster (u.cluster.nodes ℓ).currentTerm ∧
      (u.cluster.nodes ℓ).currentTerm ≤ (v.cluster.nodes ℓ).currentTerm := by
    refine hu.onward (I := fun w : Timed => TermsLe cfg w.cluster (u.cluster.nodes ℓ).currentTerm ∧
      (u.cluster.nodes ℓ).currentTerm ≤ (w.cluster.nodes ℓ).currentTerm) hil ⟨hstart, le_refl _⟩
      (fun {k w x w'} hik hkl hx hw hI hstep => ?_) hv
    rcases step_cluster hstep with hsame | ⟨act, hact, helection⟩
    · rwa [hsame]
    obtain ⟨acts', hacts'⟩ := reached_cluster hw
    refine ⟨hI.1.step hacts' (fun id hid => ?_) hact, hI.2.trans (step_climbs hact ℓ).term_le⟩
    obtain ⟨⟨d, htick⟩, hdue⟩ := helection id hid
    by_cases hne : id = ℓ
    · -- a leader starts no election
      subst hne
      exact hdue.2.1 (leads_on hids hik hu hw hℓ hlead (le_antisymm (hI.1.nodes id hℓ) hI.2))
    · obtain ⟨m, t, hmk, hset, hle⟩ := hbeats k x id d hik hkl hx htick hne
      obtain ⟨w₀, hw₀⟩ := hw.take m
      rw [List.take_take, min_eq_left hmk] at hw₀
      have hdeadline := hset.le_electionDeadline hmk hw₀ hw
      exact absurd hdue.2.2 (not_lt.mpr (hle.trans hdeadline))
  have hterm := le_antisymm (hkept.1.nodes ℓ hℓ) hkept.2
  exact ⟨leads_on hids hil hu hv hℓ hlead hterm, hterm, hkept.1.nodes⟩

/-- Node 0 is elected by node 1 at 160 ms; its heartbeat arrives at 200 ms, and node 1 looks at
    the clock at 340 ms. -/
def oneBeat : List (Int × Tick) :=
  [(160 * millisecond, .electionTick 0 noExtra), (160 * millisecond, .deliver 0 noExtra),
    (160 * millisecond, .deliver 0 noExtra), (200 * millisecond, .deliver 0 noExtra),
    (340 * millisecond, .electionTick 1 noExtra)]

/-- In that run node 0 still leads term 1 at the end. -/
theorem stable_leader_pair : ∃ u v, Reached pair 0 (fun _ => noExtra) (oneBeat.take 3) u ∧
    Reached pair 0 (fun _ => noExtra) (oneBeat.take 5) v ∧
    (u.cluster.nodes 0).role = .leader ∧ (v.cluster.nodes 0).role = .leader ∧
    (v.cluster.nodes 0).currentTerm = (u.cluster.nodes 0).currentTerm := by
  obtain ⟨u, hu, hview⟩ := Run.exists_reached (step pair) (initial pair 0 fun _ => noExtra)
    (oneBeat.take 3) (fun u => ((u.cluster.nodes 0).role,
      decide (∀ j ∈ pair.ids, (u.cluster.nodes j).currentTerm ≤ (u.cluster.nodes 0).currentTerm),
      decide (u.Resets (200 * millisecond, .deliver 0 noExtra) 1)))
    (.leader, true, true) (by decide)
  obtain ⟨v, hv, _⟩ := Run.exists_reached (step pair) (initial pair 0 fun _ => noExtra)
    (oneBeat.take 5) (fun _ => ()) () (by decide)
  rw [Prod.mk.injEq, Prod.mk.injEq] at hview
  obtain ⟨hlead, hterms, hreset⟩ := hview
  have hset : ResetAt pair 0 (fun _ => noExtra) oneBeat 1 4 (200 * millisecond) :=
    Or.inr ⟨3, _, u, rfl, rfl, hu, of_decide_eq_true hreset, rfl⟩
  have hbeats : ∀ k x p d, 3 ≤ k → k < 5 → oneBeat[k]? = some x → x.2 = .electionTick p d →
      p ≠ 0 → ∃ m t, m ≤ k ∧ ResetAt pair 0 (fun _ => noExtra) oneBeat p m t ∧
        x.1 ≤ t + minElectionTimeout := by
    intro k x p d hlo hhi hx htick _
    obtain rfl | rfl : k = 3 ∨ k = 4 := by omega
    · obtain rfl := Option.some.inj hx
      cases htick
    · obtain rfl := Option.some.inj hx
      obtain ⟨rfl, _⟩ := Tick.electionTick.inj htick
      exact ⟨4, _, le_refl 4, hset, by decide⟩
  obtain ⟨hrole, hterm, _⟩ := stable_leader (by decide) (by decide : 3 ≤ 5) hu hv (by decide) hlead
    (of_decide_eq_true hterms) hbeats
  exact ⟨u, v, hu, hv, hlead, hrole, hterm⟩

end Timed

end Hallownest.Consensus
