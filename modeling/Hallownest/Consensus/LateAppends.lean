import Hallownest.Consensus.Indexing

namespace Hallownest.Consensus

open Replog (Steps Extends)
open Cluster (Reached)

/-!
# Consensus — what a follower makes of its leader's requests

Two properties of the append requests a leader builds, which carry the whole rest of its log and
its commit index.

* `commit_within_request` — a follower clamps the leader's commit index to the end of its own
  log, which may lie beyond what the request covers; it commits no further than the request
  covers, because the leader had not committed further either.
* `late_append_absorbed` — a request that arrives after a later one of the same leadership
  changes nothing.  `Sent` and `Handled` say when a request was built and handled;
  `Sent.grows` compares two requests of one leadership, `Sim.stored` says what a successful
  request leaves behind and `NodeSim.absorbs` that the same stretch is not written again.

Both need that a term has one leader, hence clusters without the id -1.
-/

variable {cfg : Config} {s : Cluster} {acts : List Action} {a : Abs} {id : Int} {r r' : RaftNode}

/-! ### Committing -/

/-- An append request raises the commit index at most to the leader's. -/
private theorem appendEntries_commitIndex_le {args : AppendEntriesArgs} {reply : AppendEntriesReply}
    (h : r.appendEntries args = some (r', reply)) :
    r'.commitIndex ≤ max r.commitIndex args.leaderCommit := by
  rcases RaftNode.appendEntries_inv h with ⟨rfl, _⟩ | ⟨rfl, _⟩ | ⟨_, _, _, _, _, _, _, hfollow⟩
  · rw [RaftNode.catchUp_commitIndex]; exact le_max_left _ _
  · exact (RaftNode.catchUp_commitIndex r args.term).le.trans (le_max_left _ _)
  · have := RaftNode.followCommit_le hfollow
    rwa [RaftNode.catchUp_commitIndex] at this

/-- **A follower commits nothing the leader has not verified.**  When a node handles an append
    request, its commit index stays or ends within the request. -/
theorem commit_within_request (hids : (-1 : Int) ∉ cfg.ids) (hs : Reached cfg acts s) {i : ℕ}
    {peer : Int} {args : AppendEntriesArgs} (hp : s.net[i]? = some (.appendRequest peer args))
    {s' : Cluster} (hstep : s.step cfg (.deliver i) = .ok s') :
    (s'.nodes peer).commitIndex ≤
      max (s.nodes peer).commitIndex (args.prevLogIndex + args.entries.length) := by
  obtain ⟨a, counted, hsim⟩ := exists_sim hids hs
  obtain ⟨p, hargs⟩ := hsim.packets _ (List.mem_of_getElem? hp)
  obtain ⟨r, reply, hrun, rfl⟩ := Cluster.step_appendRequest hstep hp
  rw [Cluster.send_nodes, Cluster.setNode_nodes_self]
  have hle := appendEntries_commitIndex_le hrun
  have hcommit := hargs.commit_le
  have hprev := hargs.prev
  omega

/-- In `pairRun` node 1 handles last a request that ends at position 1, with commit index 1. -/
theorem commit_within_request_pair : ∃ s s' args, Reached pair (pairRun.take 7) s ∧
    s.net[1]? = some (.appendRequest 1 args) ∧ s.step pair (.deliver 1) = .ok s' ∧
    args.leaderCommit = 1 ∧
    (s'.nodes 1).commitIndex ≤
      max (s.nodes 1).commitIndex (args.prevLogIndex + args.entries.length) := by
  obtain ⟨s, hs, hp⟩ := Run.exists_reached (Cluster.step pair) (Cluster.initial pair)
    (pairRun.take 7) (fun s => s.net[1]?) (some (.appendRequest 1 ⟨1, 0, 1, 1, [], 1⟩)) (by decide)
  obtain ⟨u, hu, _⟩ := Run.exists_reached (Cluster.step pair) (Cluster.initial pair) pairRun
    (fun _ => ()) () (by decide)
  obtain ⟨s', hstep, _⟩ := hu.next (i := 7) (x := .deliver 1) (by decide) hs
  exact ⟨s, s', _, hs, hp, hstep, rfl, commit_within_request (by decide) hs hp hstep⟩

/-- Nodes -1 and 1 both lead term 3: node 0 votes for node -1 and, as that looks like no vote,
    for node 1 as well.  Node 1 holds a command of term 1 that nobody else has. -/
def sentinelDouble : List Action :=
  [.electionTimeout 1, .deliver 1, .deliver 1, .submit 1 [1] [] false, .electionTimeout (-1),
    .electionTimeout (-1), .deliver 8, .electionTimeout 1, .electionTimeout (-1), .deliver 11,
    .deliver 12, .deliver 10, .deliver 13]

/-- Node -1 commits two commands with node 0.  Node 1 replaces them in both logs by its own,
    which is shorter, and accepts a second one; then node -1 leads term 4. -/
def sentinelStale : List Action :=
  sentinelDouble ++ [.submit (-1) [2] [] false, .submit (-1) [3] [] false, .deliver 17,
    .deliver 18, .deliver 13, .deliver 13, .deliver 16, .deliver 16, .heartbeatTick 1,
    .deliver 16, .deliver 16, .submit 1 [4] [] false, .electionTimeout (-1), .deliver 20,
    .deliver 21]

/-- With an id -1 a leader may have committed more than its log holds: node 1 then commits
    position 2 on a request that ends at position 1. -/
theorem commit_beyond_request_sentinel : ∃ s s' args, Reached sentinelTrio sentinelStale s ∧
    s.net[22]? = some (.appendRequest 1 args) ∧ s.step sentinelTrio (.deliver 22) = .ok s' ∧
    ¬ (s'.nodes 1).commitIndex ≤
      max (s.nodes 1).commitIndex (args.prevLogIndex + args.entries.length) := by
  obtain ⟨s, hs, hview⟩ :=
    Run.exists_reached (Cluster.step sentinelTrio) (Cluster.initial sentinelTrio)
    sentinelStale (fun s => (s.net[22]?, (s.nodes 1).commitIndex))
    ((some (.appendRequest 1 ⟨4, -1, 1, 1, [], 2⟩), 0)) (by decide +kernel)
  obtain ⟨u, hu, hview'⟩ :=
    Run.exists_reached (Cluster.step sentinelTrio) (Cluster.initial sentinelTrio)
    (sentinelStale ++ [.deliver 22]) (fun s => (s.nodes 1).commitIndex) 2 (by decide +kernel)
  obtain ⟨w, hw, hstep⟩ := Run.reached_snoc.mp hu
  obtain rfl := hs.unique hw
  obtain ⟨hp, hold⟩ := Prod.mk.inj hview
  refine ⟨s, u, _, hs, hp, hstep, ?_⟩
  rw [show (u.nodes 1).commitIndex = 2 from hview', show (s.nodes 1).commitIndex = 0 from hold]
  decide

/-! ### Requests of one leadership -/

/-- Step `i` of a run puts a packet in flight, perhaps next to others like it. -/
def Sent (cfg : Config) (acts : List Action) (i : ℕ) (q : Packet) : Prop :=
  ∃ u u', Reached cfg (acts.take i) u ∧ Reached cfg (acts.take (i + 1)) u' ∧
    u.net.count q < u'.net.count q

/-- In step `k` of a run node `peer` handles an append request. -/
def Handled (cfg : Config) (acts : List Action) (k : ℕ) (peer : Int) (args : AppendEntriesArgs)
    (reply : AppendEntriesReply) : Prop :=
  ∃ n v r, acts[k]? = some (.deliver n) ∧ Reached cfg (acts.take k) v ∧
    v.net[n]? = some (.appendRequest peer args) ∧
    (v.nodes peer).appendEntries args = some (r, reply)

/-- A packet of which there are more than before was sent. -/
theorem mem_of_count_lt {net kept sent : List Packet} {q : Packet} (hkept : kept.Sublist net)
    (h : net.count q < (kept ++ sent).count q) : q ∈ sent := by
  rw [List.count_append] at h
  have hle := hkept.count_le q
  exact List.count_pos_iff.mp (by omega)

/-- **Append requests are built by leaders**, from the state they have after the step. -/
theorem step_sent {s' : Cluster} {act : Action} (h : s.step cfg act = .ok s') {peer : Int}
    {args : AppendEntriesArgs}
    (hnew : s.net.count (.appendRequest peer args) < s'.net.count (.appendRequest peer args)) :
    ∃ c, (s'.nodes c).role = .leader ∧
      (s'.nodes c).heartbeatFor peer = some (.appendRequest peer args) := by
  -- a broadcast of the node that the step has replaced
  have hcast : ∀ {c : Int} {r : RaftNode} {sent : List Packet}, s'.nodes c = r →
      r.broadcastHeartbeats = some sent → .appendRequest peer args ∈ sent →
      ∃ c, (s'.nodes c).role = .leader ∧
        (s'.nodes c).heartbeatFor peer = some (.appendRequest peer args) := by
    intro c r sent hc hsent hq
    obtain ⟨hrole, p, _, hp⟩ := RaftNode.mem_broadcast hsent hq
    obtain ⟨args', heq, _⟩ := RaftNode.heartbeatFor_eq hp
    cases heq
    exact ⟨c, by rw [hc]; exact hrole, by rw [hc]; exact hp⟩
  cases Cluster.step_takes h with
  | @electionTimeout id r votes sent _ _ hrun =>
    have hq := mem_of_count_lt (List.Sublist.refl s.net) hnew
    rcases RaftNode.startElection_cases hrun with ⟨_, ⟨_, _, hsent⟩ | ⟨_, _, _, _, rfl⟩⟩
    · exact hcast (Cluster.setNode_nodes_self s id r) hsent hq
    · simp at hq
  | @heartbeatTick id sent _ hrun =>
    exact hcast rfl hrun (mem_of_count_lt (List.Sublist.refl s.net) hnew)
  | @submit id key value tombstone r res sent _ hrun =>
    have hq := mem_of_count_lt (List.Sublist.refl s.net) hnew
    rcases RaftNode.submit_cases hrun with ⟨_, _, _, rfl⟩ | ⟨_, _, _, hsent⟩
    · simp at hq
    · exact hcast (Cluster.setNode_nodes_self s id r) hsent hq
  | @voteRequest i peer args r reply _ _ =>
    have hq := mem_of_count_lt (List.eraseIdx_sublist s.net i) hnew
    simp at hq
  | @voteReply i peer args reply r votes sent _ hrun =>
    have hq := mem_of_count_lt (List.eraseIdx_sublist s.net i) hnew
    rcases RaftNode.handleVoteReply_cases hrun with ⟨_, _, rfl⟩ | ⟨_, _, _, rfl⟩ |
      ⟨_, _, _, _, ⟨_, rfl⟩ | ⟨_, _, hsent⟩⟩
    · simp at hq
    · simp at hq
    · simp at hq
    · exact hcast (Cluster.setNode_nodes_self (s.take i) args.candidateID r) hsent hq
  | @appendRequest i peer args r reply _ _ =>
    have hq := mem_of_count_lt (List.eraseIdx_sublist s.net i) hnew
    simp at hq
  | @appendReply i peer args reply r _ _ =>
    exact absurd hnew (not_lt.mpr ((List.eraseIdx_sublist s.net i).count_le _))
  | @lose i => exact absurd hnew (not_lt.mpr ((List.eraseIdx_sublist s.net i).count_le _))
  | kill => exact absurd hnew (lt_irrefl _)

/-- A sent request is in flight, and its sender leads with the log and the commit index that it
    carries. -/
theorem Sent.built {i : ℕ} {peer : Int} {args : AppendEntriesArgs}
    (h : Sent cfg acts i (.appendRequest peer args)) :
    i < acts.length ∧ ∃ u, Reached cfg (acts.take (i + 1)) u ∧ .appendRequest peer args ∈ u.net ∧
      (u.nodes args.leaderID).role = .leader ∧
      (u.nodes args.leaderID).currentTerm = args.term ∧
      (u.nodes args.leaderID).commitIndex = args.leaderCommit ∧
      args.prevLogIndex + 1 + args.entries.length = (u.nodes args.leaderID).log.length := by
  obtain ⟨u, u', hu, hu', hnew⟩ := h
  rcases hu.between hu' with rfl | ⟨act, hact, hstep⟩
  · exact absurd hnew (lt_irrefl _)
  obtain ⟨c, hrole, hbeat⟩ := step_sent hstep hnew
  obtain ⟨args', heq, hid, hterm, hcommit, hentries⟩ := RaftNode.heartbeatFor_eq hbeat
  cases heq
  have hc : args.leaderID = c := hid.trans ((clusterOk_of_reached hu').nodes c).id_eq
  subst hc
  exact ⟨(List.getElem?_eq_some_iff.mp hact).1, u', hu', List.count_pos_iff.mp (by omega), hrole,
    hterm.symm, hcommit.symm, Slice.length_of_after hentries⟩

/-- **Later requests reach further.**  Of two requests that a leader has built in one term the
    later one ends no earlier and has no smaller commit index. -/
theorem Sent.grows (hids : (-1 : Int) ∉ cfg.ids) {i₁ i₂ : ℕ} {p₁ p₂ : Int}
    {m₁ m₂ : AppendEntriesArgs} (h₁ : Sent cfg acts i₁ (.appendRequest p₁ m₁))
    (h₂ : Sent cfg acts i₂ (.appendRequest p₂ m₂)) (hle : i₁ ≤ i₂)
    (hleader : m₁.leaderID = m₂.leaderID) (hterm : m₁.term = m₂.term) :
    m₁.prevLogIndex + m₁.entries.length ≤ m₂.prevLogIndex + m₂.entries.length ∧
      m₁.leaderCommit ≤ m₂.leaderCommit := by
  obtain ⟨f, hf, hrun⟩ := exists_abstract_run hids acts
  obtain ⟨_, u₁, hu₁, hmem₁, hrole₁, hterm₁, hcommit₁, hlen₁⟩ := h₁.built
  obtain ⟨_, u₂, hu₂, _, hrole₂, hterm₂, hcommit₂, hlen₂⟩ := h₂.built
  obtain ⟨_, hsim₁⟩ := hf _ u₁ hu₁
  obtain ⟨_, hsim₂⟩ := hf _ u₂ hu₂
  obtain ⟨_, hargs₁⟩ := hsim₁.packets _ hmem₁
  rw [← hleader] at hrole₂ hterm₂ hcommit₂ hlen₂
  have hn₁ := hsim₁.nodes _ hargs₁.sender
  have hn₂ := hsim₂.nodes _ hargs₁.sender
  have hsteps : Steps (protocol cfg) (f (i₁ + 1)) (f (i₂ + 1)) := hrun (by omega)
  have hext := (Steps.inv_extends hsim₁.ok.inv hsteps).2
  constructor
  · -- the log of the leader is the log of the term, which grows
    have hgrow := (hext.lead hargs₁.led).length_le
    have hlog₁ := hn₁.log_lead hsim₁.ok hrole₁
    have hlog₂ := hn₂.log_lead hsim₂.ok hrole₂
    rw [hterm₁] at hlog₁
    rw [hterm₂, ← hterm] at hlog₂
    rw [← hlog₁, ← hlog₂] at hgrow
    omega
  · have hkept := (Steps.commit_kept hsim₁.ok.inv hsteps m₁.leaderID).1
    have h1 := hn₁.commit
    have h2 := hn₂.commit
    omega

/-! ### What a request leaves behind -/

/-- **A successful request is stored** up to its end, and its commit index is reached. -/
theorem NodeSim.stored (hok : AbsOk cfg a) (hn : NodeSim cfg a id r) {args : AppendEntriesArgs}
    {p : ℕ} (hargs : AppendArgsOk cfg a id args p) {reply : AppendEntriesReply}
    (hrun : r.appendEntries args = some (r', reply)) (hsucc : reply.success = true) :
    r'.currentTerm = args.term ∧
      (a.lead args.term).take (p + 1 + args.entries.length) <+: r'.log ∧
      args.leaderCommit ≤ r'.commitIndex := by
  rcases RaftNode.appendEntries_inv hrun with ⟨_, _, rfl⟩ | ⟨_, rfl⟩ |
    ⟨hterm, _, prev, log, hprev, hmatch, hlog, hfollow⟩
  · cases hsucc
  · cases hsucc
  · rw [hargs.prev, Slice.get_natCast] at hprev
    rw [hn.appendNew_eq_adopt hok hargs hprev hmatch] at hlog
    obtain rfl := Option.some.inj hlog
    have hstores := Replog.adopt_stores (a.lead args.term) r.log (p + 1 + args.entries.length)
    have hlen : p + 1 + args.entries.length ≤
        (Replog.adopt (a.lead args.term) r.log (p + 1 + args.entries.length)).length := by
      have h1 := hstores.length_le
      have h2 := hargs.length_le
      rw [List.length_take] at h1
      omega
    have hcommit := hargs.commit_le
    have hreached := RaftNode.le_followCommit hfollow (by dsimp only; omega)
    obtain ⟨ci, la, more, rfl⟩ := RaftNode.commits_followCommit hfollow
    exact ⟨hterm, hstores, hreached⟩

/-- **A stored request is absorbed**: handled again it succeeds and changes nothing. -/
theorem NodeSim.absorbs (hok : AbsOk cfg a) (hn : NodeSim cfg a id r) {args : AppendEntriesArgs}
    {p : ℕ} (hargs : AppendArgsOk cfg a id args p) (hterm : r.currentTerm = args.term)
    (hstored : (a.lead args.term).take (p + 1 + args.entries.length) <+: r.log)
    (hcommit : args.leaderCommit ≤ r.commitIndex) :
    r.appendEntries args =
      some ({ r with role := .follower }, { term := r.currentTerm, success := true }) := by
  obtain ⟨e, he, het⟩ := hargs.prevTerm
  have hread : r.log[p]? = some e := Replog.getElem?_of_stretch hstored (by omega) he
  have hget : Slice.get r.log args.prevLogIndex = some e := by
    rw [hargs.prev, Slice.get_natCast, hread]
  have hspec : ∃ r' reply, r.appendEntries args = some (r', reply) ∧
      (r', reply) = ({ r with role := .follower }, { term := r.currentTerm, success := true }) := by
    have hcatch : r.catchUp args.term = r := if_neg (by omega)
    apply RaftNode.appendEntries_rule hcatch (by rw [hargs.prev]; omega)
    · intro hlt; omega
    · intro _ hno; exact absurd het (hno e hget)
    · -- the loop finds the stretch, and the commit index is not behind
      intro _ prev hprev hmatch
      rw [hargs.prev, Slice.get_natCast] at hprev
      have hnew := hn.appendNew_eq_adopt hok hargs hprev hmatch
      rw [Replog.adopt, if_pos hstored] at hnew
      exact ⟨r.log, _, hnew, if_neg (not_lt.mpr hcommit), rfl⟩
  obtain ⟨r', reply, hrun, hres⟩ := hspec
  rw [hrun, hres]

/-- **What a successful request has left behind stays** at least as long as the term: the
    stretch it quoted and its commit index. -/
theorem Handled.kept {f : ℕ → Abs}
    (hf : ∀ (i : ℕ) (s : Cluster), Reached cfg (acts.take i) s → ∃ counted, Sim cfg s (f i) counted)
    (hrun : ∀ {i j : ℕ}, i ≤ j → Steps (protocol cfg) (f i) (f j)) (hs : Reached cfg acts s)
    {k : ℕ} {peer : Int} {args : AppendEntriesArgs} {reply : AppendEntriesReply}
    (h : Handled cfg acts k peer args reply) (hsucc : reply.success = true)
    (hcur : (s.nodes peer).currentTerm = args.term) :
    ∃ p : ℕ, args.prevLogIndex = p ∧
      ((f acts.length).lead args.term).take (p + 1 + args.entries.length) <+:
        (s.nodes peer).log ∧
      args.leaderCommit ≤ (s.nodes peer).commitIndex := by
  obtain ⟨n, v, r, hact, hv, hp, happ⟩ := h
  have hk : k + 1 ≤ acts.length := (List.getElem?_eq_some_iff.mp hact).1
  obtain ⟨v', hstep, hv'⟩ := hs.next hact hv
  obtain ⟨_, hsim⟩ := hf k v hv
  obtain ⟨_, hsim'⟩ := hf (k + 1) v' hv'
  obtain ⟨_, hend⟩ := hf acts.length s (by rw [List.take_length]; exact hs)
  obtain ⟨p, hargs⟩ := hsim.packets _ (List.mem_of_getElem? hp)
  have hpeer : peer ∈ cfg.ids := ((mem_peers hargs.sender).mp hargs.peer).2
  obtain ⟨hterm, hstored, hcommit⟩ :=
    (hsim.nodes peer hpeer).stored hsim.ok hargs happ hsucc
  -- the node after the step
  obtain ⟨r₁, reply₁, happ₁, rfl⟩ := Cluster.step_appendRequest hstep hp
  obtain ⟨rfl, rfl⟩ := Prod.mk.inj (Option.some.inj (happ.symm.trans happ₁))
  have hn' := hsim'.nodes peer hpeer
  rw [Cluster.send_nodes, Cluster.setNode_nodes_self] at hn'
  have hn := hend.nodes peer hpeer
  -- the history of the step and of the rest of the run
  have hrest : Steps (protocol cfg) (f (k + 1)) (f acts.length) := hrun hk
  have hext := (Steps.inv_extends hsim.ok.inv (hrun (Nat.le_succ k))).2
  have hext' := (Steps.inv_extends hsim'.ok.inv hrest).2
  have hled' := hext.led hargs.led
  refine ⟨p, hargs.prev, ?_, ?_⟩
  · have hterm' : (f (k + 1)).term peer = args.term := by rw [hn'.term, hterm]
    have hlead : ((f k).lead args.term).take (p + 1 + args.entries.length) <+:
        (f (k + 1)).lead ((f (k + 1)).term peer) := by
      have htake := List.take_prefix (p + 1 + args.entries.length) ((f k).lead args.term)
      rw [hterm']; exact htake.trans (hext.lead hargs.led)
    rw [← hn'.log] at hstored
    have hkept := Steps.keeps_own hsim'.ok.inv hrest (by rw [hterm']; exact hled') hstored hlead
      (by rw [hterm', hn.term, hcur])
    -- the stretch is the same in the log of the term, which has only grown
    obtain ⟨more, hmore⟩ := (hext.lead hargs.led).trans (hext'.lead hled')
    rw [← hmore, List.take_append_of_le_length hargs.length_le, ← hn.log]
    exact hkept
  · have hkept := (Steps.commit_kept hsim'.ok.inv hrest peer).1
    have h1 := hn'.commit
    have h2 := hn.commit
    omega

/-- **Late and duplicate requests are harmless.**  Let a leader build two requests for a peer in
    one term, the first no later than the second, and let the peer handle the second with
    success.  As long as it is in that term, handling the first succeeds and changes neither its
    log nor its indices, term and vote. -/
theorem late_append_absorbed (hids : (-1 : Int) ∉ cfg.ids) (hs : Reached cfg acts s)
    {i₁ i₂ k : ℕ} {peer : Int} {m₁ m₂ : AppendEntriesArgs} {reply : AppendEntriesReply}
    (h₁ : Sent cfg acts i₁ (.appendRequest peer m₁))
    (h₂ : Sent cfg acts i₂ (.appendRequest peer m₂)) (hle : i₁ ≤ i₂)
    (hleader : m₁.leaderID = m₂.leaderID) (hterm : m₁.term = m₂.term)
    (hhandled : Handled cfg acts k peer m₂ reply) (hsucc : reply.success = true)
    (hcur : (s.nodes peer).currentTerm = m₂.term) :
    ∃ r reply', (s.nodes peer).appendEntries m₁ = some (r, reply') ∧ reply'.success = true ∧
      r.log = (s.nodes peer).log ∧ r.commitIndex = (s.nodes peer).commitIndex ∧
      r.lastApplied = (s.nodes peer).lastApplied ∧
      r.currentTerm = (s.nodes peer).currentTerm ∧ r.votedFor = (s.nodes peer).votedFor := by
  obtain ⟨hends, hcommits⟩ := h₁.grows hids h₂ hle hleader hterm
  obtain ⟨f, hf, hrun⟩ := exists_abstract_run hids acts
  obtain ⟨_, hsim⟩ := hf acts.length s (by rw [List.take_length]; exact hs)
  -- the first request, seen from the end of the run
  obtain ⟨hi₁, u₁, hu₁, hmem₁, _⟩ := h₁.built
  obtain ⟨_, hsim₁⟩ := hf _ u₁ hu₁
  obtain ⟨p₁, hargs₁⟩ := hsim₁.packets _ hmem₁
  have hargs := hargs₁.mono (Steps.inv_extends hsim₁.ok.inv (hrun hi₁)).2
  have hpeer : peer ∈ cfg.ids := ((mem_peers hargs.sender).mp hargs.peer).2
  -- the second one has been stored and reaches further
  obtain ⟨p₂, hprev₂, hkept, hcommit⟩ := hhandled.kept hf hrun hs hsucc hcur
  have hprev₁ := hargs.prev
  rw [← hterm] at hkept
  have habsorbed := (hsim.nodes peer hpeer).absorbs hsim.ok hargs (hcur.trans hterm.symm)
    (Replog.stretch_mono hkept (by omega)) (by omega)
  exact ⟨_, _, habsorbed, rfl, rfl, rfl, rfl, rfl, rfl⟩

/-- A packet that a step of a concrete run sends. -/
theorem sent_of_map {i n n' : ℕ} {q : Packet}
    (hbefore : ((acts.take i).foldlM (Cluster.step cfg) (Cluster.initial cfg)).map
      (fun s => s.net.count q) = .ok n)
    (hafter : ((acts.take (i + 1)).foldlM (Cluster.step cfg) (Cluster.initial cfg)).map
      (fun s => s.net.count q) = .ok n') (hlt : n < n') : Sent cfg acts i q := by
  obtain ⟨u, hu, hcount⟩ := Run.exists_reached (Cluster.step cfg) (Cluster.initial cfg)
    (acts.take i) (fun s => s.net.count q) n hbefore
  obtain ⟨u', hu', hcount'⟩ :=
    Run.exists_reached (Cluster.step cfg) (Cluster.initial cfg) (acts.take (i + 1))
      (fun s => s.net.count q) n' hafter
  exact ⟨u, u', hu, hu', by rw [hcount, hcount']; exact hlt⟩

/-- An append request that a step of a concrete run delivers. -/
theorem handled_of_map {k n : ℕ} {peer : Int} {args : AppendEntriesArgs}
    {reply : AppendEntriesReply} (hact : acts[k]? = some (.deliver n))
    (hrun : ((acts.take k).foldlM (Cluster.step cfg) (Cluster.initial cfg)).map
      (fun s => (s.net[n]?, ((s.nodes peer).appendEntries args).map Prod.snd)) =
        .ok (some (.appendRequest peer args), some reply)) :
    Handled cfg acts k peer args reply := by
  obtain ⟨v, hv, hview⟩ := Run.exists_reached (Cluster.step cfg) (Cluster.initial cfg) (acts.take k)
    _ _ hrun
  obtain ⟨hp, hreply⟩ := Prod.mk.inj hview
  obtain ⟨⟨r, reply'⟩, happ, rfl⟩ := Option.map_eq_some_iff.mp hreply
  exact ⟨n, v, r, hact, hv, hp, happ⟩

/-- In `pairRun` node 1 handles a request of step 6; handling that of step 3 afterwards, which
    carries the command, changes nothing. -/
theorem late_append_absorbed_pair : ∃ s r reply, Reached pair pairRun s ∧
    (s.nodes 1).log.length = 2 ∧
    (s.nodes 1).appendEntries ⟨1, 0, 0, 0, [⟨1, 1, [7], [9], false⟩], 0⟩ = some (r, reply) ∧
    reply.success = true ∧ r.log = (s.nodes 1).log := by
  obtain ⟨s, hs, hview⟩ := Run.exists_reached (Cluster.step pair) (Cluster.initial pair) pairRun
    (fun s => ((s.nodes 1).log.length, (s.nodes 1).currentTerm)) ((2, 1)) (by decide)
  obtain ⟨hlen, hterm⟩ := Prod.mk.inj hview
  have hsent₁ : Sent pair pairRun 3
      (.appendRequest 1 ⟨1, 0, 0, 0, [⟨1, 1, [7], [9], false⟩], 0⟩) :=
    sent_of_map (n := 0) (by decide) (by decide) Nat.zero_lt_one
  have hsent₂ : Sent pair pairRun 6 (.appendRequest 1 ⟨1, 0, 1, 1, [], 1⟩) :=
    sent_of_map (n := 0) (by decide) (by decide) Nat.zero_lt_one
  have hhandled : Handled pair pairRun 7 1 ⟨1, 0, 1, 1, [], 1⟩ ⟨1, true⟩ :=
    handled_of_map (n := 1) (by decide) (by decide)
  obtain ⟨r, reply, hrun, hsucc, hlog, _⟩ := late_append_absorbed (by decide) hs hsent₁ hsent₂
    (by decide) rfl rfl hhandled rfl hterm
  exact ⟨s, r, reply, hs, hlen, hrun, hsucc, hlog⟩

/-- Node 1 gives node 0 its command of term 1, after which node -1, the other leader of term 3,
    replaces it by one of its own. -/
def sentinelRewrite : List Action :=
  sentinelDouble ++ [.deliver 14, .deliver 14, .heartbeatTick 1, .deliver 15,
    .submit (-1) [2] [] false, .deliver 16]

/-- With an id -1 a duplicate is not harmless: node 0 has handled the request of node 1 with
    success and is still in its term, and handling it again replaces its log. -/
theorem duplicate_append_rewrites_sentinel : ∃ s m reply,
    Reached sentinelTrio sentinelRewrite s ∧
    Sent sentinelTrio sentinelRewrite 15 (.appendRequest 0 m) ∧
    Handled sentinelTrio sentinelRewrite 16 0 m reply ∧ reply.success = true ∧
    (s.nodes 0).currentTerm = m.term ∧
    ¬ ∃ r reply', (s.nodes 0).appendEntries m = some (r, reply') ∧ reply'.success = true ∧
      r.log = (s.nodes 0).log ∧ r.commitIndex = (s.nodes 0).commitIndex ∧
      r.lastApplied = (s.nodes 0).lastApplied ∧ r.currentTerm = (s.nodes 0).currentTerm ∧
      r.votedFor = (s.nodes 0).votedFor := by
  obtain ⟨s, hs, hview⟩ :=
    Run.exists_reached (Cluster.step sentinelTrio) (Cluster.initial sentinelTrio)
    sentinelRewrite
    (fun s => ((s.nodes 0).currentTerm, (s.nodes 0).log.map (·.term),
      ((s.nodes 0).appendEntries ⟨3, 1, 0, 0, [⟨1, 1, [1], [], false⟩],
      0⟩).map fun x => x.1.log.map (·.term)))
    ((3, [0, 3], some [0, 1])) (by decide +kernel)
  simp only [Prod.mk.injEq] at hview
  obtain ⟨hterm, hlog, hagain⟩ := hview
  have hsent : Sent sentinelTrio sentinelRewrite 15
      (.appendRequest 0 ⟨3, 1, 0, 0, [⟨1, 1, [1], [], false⟩], 0⟩) :=
    sent_of_map (n := 0) (by decide +kernel) (by decide +kernel) Nat.zero_lt_one
  have hhandled : Handled sentinelTrio sentinelRewrite 16 0
      ⟨3, 1, 0, 0, [⟨1, 1, [1], [], false⟩], 0⟩ ⟨3, true⟩ :=
    handled_of_map (n := 15) (by decide +kernel) (by decide +kernel)
  refine ⟨s, _, _, hs, hsent, hhandled, rfl, hterm, ?_⟩
  rintro ⟨r, reply', hrun, _, hsame, _⟩
  rw [hrun, Option.map_some, hsame, hlog] at hagain
  revert hagain
  decide

end Hallownest.Consensus
