import Hallownest.Consensus.Abstraction
import Hallownest.Consensus.Handlers

namespace Hallownest.Consensus

open Replog (Steps Extends Chosen Learnable)

/-!
# Consensus — each handler refines moves of the protocol

For every function of a node: it does not panic on a node described by the abstract state,
and what it does is a sequence of moves of the replicated-log protocol that touches no
other node (`Local`).
-/

variable {cfg : Config} {a : Abs} {id : Int} {r : RaftNode}

/-- A sequence of moves from `a` to `a'` made by node `id`, which is `r'` afterwards. -/
structure Local (cfg : Config) (a a' : Abs) (id : Int) (r' : RaftNode) : Prop where
  run : Steps (protocol cfg) a a'
  ok : AbsOk cfg a'
  node : NodeSim cfg a' id r'
  frame : ∀ j, j ≠ id → SameAt a a' j
  won : ∀ {t c}, a'.led t c → a.led t c ∨ (c = id ∧ t = a'.term id)

/-- Local moves only add to the history. -/
theorem Local.extends (hok : AbsOk cfg a) {a' : Abs} {r' : RaftNode}
    (h : Local cfg a a' id r') : Extends a a' :=
  (Steps.inv_extends hok.inv h.run).2

theorem Local.refl (hok : AbsOk cfg a) (hn : NodeSim cfg a id r) : Local cfg a a id r :=
  ⟨Relation.ReflTransGen.refl, hok, hn, fun j _ => SameAt.refl a j, Or.inl⟩

/-- Moves that win no election, followed by further moves. -/
theorem Local.trans {a' a'' : Abs} {r' r'' : RaftNode} (h : Local cfg a a' id r')
    (hquiet : ∀ {t c}, a'.led t c → a.led t c) (h' : Local cfg a' a'' id r'') :
    Local cfg a a'' id r'' where
  run := Relation.ReflTransGen.trans h.run h'.run
  ok := h'.ok
  node := h'.node
  frame := fun j hj => (h.frame j hj).trans (h'.frame j hj)
  won := fun hl => (h'.won hl).imp_left hquiet

/-! ### Moves and the facts about the abstract state -/

/-- Well-formed logs are numbered. -/
theorem AbsOk.numbered_wf (hok : AbsOk cfg a) {l : List RaftLogEntry}
    (hl : Replog.WfLog (protocol cfg) a l) : Numbered l := by
  intro i e he
  have hpre := hl.stretch he
  have hread := Replog.getElem?_of_stretch hpre (Nat.lt_succ_self i) he
  rcases hl.won he with h0 | ⟨c, hc⟩
  · rw [h0, hok.inv.lead_origin] at hread
    cases i with
    | zero => rw [← Option.some.inj hread]; rfl
    | succ i => simp at hread
  · exact hok.numbered hc i e hread

/-- A well-formed log starts with the dummy entry. -/
theorem AbsOk.log_ne_nil (hok : AbsOk cfg a) (n : Int) : 0 < (a.log n).length := by
  have := (hok.inv.log_wf n).base.length_le
  exact this

/-- Entering a term keeps the abstract state sound. -/
theorem absOk_advance (hok : AbsOk cfg a) {t : Int} (ht : a.term id < t) :
    AbsOk cfg (a.advance id t) :=
  ⟨Replog.inv_advance hok.inv ht, hok.member, hok.numbered, hok.sentinel⟩

/-- Standing in a term keeps the abstract state sound. -/
theorem absOk_stand (hok : AbsOk cfg a) (hid : id ∈ cfg.ids) {t : Int} (ht : a.term id < t) :
    AbsOk cfg (a.stand id t) where
  inv := Replog.inv_stand hok.inv ht
  member := by
    intro u c C hs
    rcases Replog.stood_stand hs with ⟨_, rfl, _⟩ | hs
    · exact hid
    · exact hok.member hs
  numbered := hok.numbered
  sentinel := hok.sentinel

/-- Winning a term keeps the abstract state sound. -/
theorem absOk_elect (hok : AbsOk cfg a) {Q : Finset Int}
    (hQ : (protocol cfg).Quorum Q) (hvotes : ∀ n ∈ Q, a.vote (a.term id) n = some id)
    (hstood : a.stood (a.term id) id = some (a.log id)) (hnew : ¬ a.led (a.term id) id) :
    AbsOk cfg (a.elect id) where
  inv := Replog.inv_elect hok.inv hQ hvotes hstood hnew
  member := hok.member
  numbered := by
    intro u c hl
    by_cases hu : u = a.term id
    · rw [Replog.State.elect_lead, if_pos hu]
      exact hok.numbered_wf (hok.inv.log_wf id)
    · rw [Replog.State.elect_lead, if_neg hu]
      rcases hl with ⟨h, _⟩ | hl
      · exact absurd h hu
      · exact hok.numbered hl
  sentinel := hok.sentinel

/-- Proposing an entry with the next index keeps the abstract state sound. -/
theorem absOk_propose (hok : AbsOk cfg a) {e : RaftLogEntry} (hled : a.led (a.term id) id)
    (he : e.term = a.term id) (hidx : e.index = (a.log id).length) :
    AbsOk cfg (a.propose id e) where
  inv := Replog.inv_propose hok.inv hled he
  member := hok.member
  numbered := by
    intro u c hl
    by_cases hu : u = a.term id
    · -- an old position, or the new last one
      rw [Replog.State.propose_lead, if_pos hu]
      intro i d hd
      rcases Nat.lt_or_ge i (a.log id).length with hi | hi
      · rw [List.getElem?_append_left hi] at hd
        exact hok.numbered_wf (hok.inv.log_wf id) i d hd
      · rw [List.getElem?_append_right hi] at hd
        obtain ⟨hlt, hget⟩ := List.getElem?_eq_some_iff.mp hd
        rw [List.length_singleton] at hlt
        have h0 : i - (a.log id).length = 0 := by omega
        rw [List.getElem_singleton] at hget
        rw [← hget, hidx]; congr 1; omega
    · rw [Replog.State.propose_lead, if_neg hu]
      exact hok.numbered hl
  sentinel := hok.sentinel

/-! ### Moves at one node leave the others alone -/

/-- Entering a term concerns nobody else. -/
theorem sameAt_advance {j : Int} (hj : j ≠ id) (t : Int) : SameAt a (a.advance id t) j :=
  ⟨by simp [hj], rfl, rfl, rfl, fun h => h⟩

/-- Standing concerns nobody else. -/
theorem sameAt_stand {j : Int} (hj : j ≠ id) (t : Int) : SameAt a (a.stand id t) j :=
  ⟨by simp [hj], rfl, rfl, by simp [hj], fun h => h⟩

/-- Voting concerns nobody else. -/
theorem sameAt_grant {j : Int} (hj : j ≠ id) (c : Int) : SameAt a (a.grant id c) j :=
  ⟨rfl, rfl, rfl, by simp [hj], fun h => h⟩

/-- Winning concerns nobody else. -/
theorem sameAt_elect {j : Int} (hj : j ≠ id) : SameAt a (a.elect id) j where
  term := rfl
  log := rfl
  commit := rfl
  vote := rfl
  led := by
    rintro (⟨_, h⟩ | h)
    · exact absurd h hj
    · exact h

/-- Proposing concerns nobody else. -/
theorem sameAt_propose {j : Int} (hj : j ≠ id) (e : RaftLogEntry) :
    SameAt a (a.propose id e) j :=
  ⟨rfl, by simp [hj], rfl, rfl, fun h => h⟩

/-- Taking over entries concerns nobody else. -/
theorem sameAt_accept {j : Int} (hj : j ≠ id) (m : ℕ) : SameAt a (a.accept id m) j :=
  ⟨rfl, by simp [hj], rfl, rfl, fun h => h⟩

/-- Learning what is committed concerns nobody else. -/
theorem sameAt_learn {j : Int} (hj : j ≠ id) (k : ℕ) : SameAt a (a.learn id k) j :=
  ⟨rfl, rfl, by simp [hj], rfl, fun h => h⟩

/-! ### Facts about a described node -/

/-- A log holds at least the dummy entry. -/
theorem NodeSim.log_pos (hok : AbsOk cfg a) (hn : NodeSim cfg a id r) : 0 < r.log.length := by
  have := hok.log_ne_nil id
  rwa [hn.log] at this

/-- The entries of a log carry their positions. -/
theorem NodeSim.numbered (hok : AbsOk cfg a) (hn : NodeSim cfg a id r) : Numbered r.log := by
  have := hok.numbered_wf (hok.inv.log_wf id)
  rwa [hn.log] at this

/-- The commit index of a node lies within its log. -/
theorem NodeSim.commit_bounds (hok : AbsOk cfg a) (hn : NodeSim cfg a id r) :
    0 ≤ r.commitIndex ∧ r.commitIndex < r.log.length := by
  have h0 : 1 ≤ a.commit id := hok.inv.base_le id
  have h1 := hn.commit
  have h2 := hok.inv.commit_le id
  rw [hn.log] at h2
  omega

/-- The read of the last log entry does not panic, and finds the entry of the last term. -/
theorem NodeSim.get_last (hok : AbsOk cfg a) (hn : NodeSim cfg a id r) :
    ∃ last, Slice.get r.log ((r.log.length : Int) - 1) = some last ∧
      (protocol cfg).lastTerm r.log = last.term := by
  have hpos := hn.log_pos hok
  obtain ⟨last, hlast⟩ : ∃ last, r.log.getLast? = some last := by
    cases hq : r.log.getLast? with
    | none => rw [List.getLast?_eq_none_iff] at hq; rw [hq] at hpos; simp at hpos
    | some last => exact ⟨last, rfl⟩
  refine ⟨last, Slice.get_eq_some.mpr ⟨by omega, ?_⟩, by simp [Replog.Protocol.lastTerm, hlast]⟩
  rw [List.getLast?_eq_getElem?] at hlast
  rw [← hlast]; congr 1; omega

/-- The log of a leader is the log of its term. -/
theorem NodeSim.log_lead (hok : AbsOk cfg a) (hn : NodeSim cfg a id r)
    (hlead : r.role = .leader) : r.log = a.lead r.currentTerm := by
  rw [← hn.log, ← hn.term]
  apply hok.inv.log_lead
  rw [hn.term]
  exact hn.leader.mp hlead

/-! ### Terms -/

/-- Stepping down into a later term. -/
theorem local_becomeFollower (hok : AbsOk cfg a) (hn : NodeSim cfg a id r) {t : Int}
    (ht : r.currentTerm < t) :
    Local cfg a (a.advance id t) id (r.becomeFollower t) := by
  have ht' : a.term id < t := by rw [hn.term]; exact ht
  refine ⟨Relation.ReflTransGen.single (.advance id t ht'), absOk_advance hok ht', ?_,
    fun j hj => sameAt_advance hj t, Or.inl⟩
  -- a term above the node's own holds neither its vote nor its victory
  have hnovote : a.vote t id = none := by
    cases hv : a.vote t id with
    | none => rfl
    | some c => exact absurd (hok.inv.vote_le hv) (not_le.mpr ht')
  exact {
    id_eq := hn.id_eq
    peers_eq := hn.peers_eq
    term := by simp [RaftNode.becomeFollower]
    log := hn.log
    vote := by simp [RaftNode.becomeFollower, hnovote]
    leader := by
      constructor
      · intro h; simp [RaftNode.becomeFollower] at h
      · intro h; exact absurd (hok.inv.led_le h) (not_le.mpr ht')
    candidate := by intro h; simp [RaftNode.becomeFollower] at h
    commit := hn.commit
    applied := hn.applied
    applyCh := hn.applyCh
    next := by intro h; simp [RaftNode.becomeFollower] at h
    matched := by intro h; simp [RaftNode.becomeFollower] at h }

/-- Both request handlers first catch up with a later term. -/
theorem local_catchUp (hok : AbsOk cfg a) (hn : NodeSim cfg a id r) (t : Int) :
    ∃ a', Local cfg a a' id (r.catchUp t) ∧ ∀ {u c}, a'.led u c → a.led u c := by
  rcases RaftNode.catchUp_cases r t with ⟨hlt, heq⟩ | ⟨_, heq⟩
  · rw [heq]
    exact ⟨_, local_becomeFollower hok hn hlt, fun h => h⟩
  · rw [heq]
    exact ⟨a, Local.refl hok hn, fun h => h⟩

/-! ### Votes -/

/-- The node's `votedFor` admits a vote for `c` only if it has not voted for another. -/
theorem NodeSim.vote_free (hok : AbsOk cfg a) (hn : NodeSim cfg a id r) {c : Int}
    (hfree : r.votedFor = -1 ∨ r.votedFor = c) :
    a.vote r.currentTerm id = none ∨ a.vote r.currentTerm id = some c := by
  cases hv : a.vote r.currentTerm id with
  | none => exact Or.inl rfl
  | some d =>
    right
    obtain ⟨C, hC⟩ := hok.inv.vote_stood hv
    have hvf : r.votedFor = d := by rw [hn.vote, hv]; rfl
    rcases hfree with h | h
    · -- an id equal to the sentinel would pass for no vote
      have hd : (-1 : Int) ∈ cfg.ids := by rw [← h, hvf]; exact hok.member hC
      exact absurd hd hok.sentinel
    · rw [← hvf, h]

/-- Granting a vote. -/
theorem local_grant (hok : AbsOk cfg a) (hn : NodeSim cfg a id r) {c : Int}
    {C : List RaftLogEntry} (hfree : r.votedFor = -1 ∨ r.votedFor = c)
    (hC : a.stood r.currentTerm c = some C) (hup : (protocol cfg).UpToDate C r.log) :
    Local cfg a (a.grant id c) id { r with votedFor := c } := by
  have hterm := hn.term
  have hf := hn.vote_free hok hfree
  rw [← hterm] at hf hC
  rw [← hn.log] at hup
  refine ⟨Relation.ReflTransGen.single (.grant id c C hf hC hup),
    ⟨Replog.inv_grant hok.inv hf hC hup, hok.member, hok.numbered, hok.sentinel⟩, ?_,
    fun j hj => sameAt_grant hj c, Or.inl⟩
  exact { hn with
    vote := by simp [hterm] }

/-- A node that is a candidate after a step was the same candidate before it. -/
def KeepsCandidacy (r r' : RaftNode) : Prop :=
  r'.role = .candidate → r.role = .candidate ∧ r'.currentTerm = r.currentTerm

/-- **Handling a vote request** does not panic; a granted vote is on record. -/
theorem local_requestVote (hok : AbsOk cfg a) (hn : NodeSim cfg a id r)
    {args : RequestVoteArgs} (hargs : VoteArgsOk cfg a id args) :
    ∃ r' reply, r.requestVote args = some (r', reply) ∧ ∃ a', Local cfg a a' id r' ∧
      (reply.voteGranted = true → a'.vote args.term id = some args.candidateID) := by
  obtain ⟨a₁, hloc, hquiet⟩ := local_catchUp hok hn args.term
  obtain ⟨r₁, hr₁⟩ : ∃ r₁, r.catchUp args.term = r₁ := ⟨_, rfl⟩
  rw [hr₁] at hloc
  apply RaftNode.requestVote_rule hr₁ (hloc.node.log_pos hloc.ok)
  · exact ⟨a₁, hloc, by simp⟩
  · intro hterm last hget hfree hdate
    obtain ⟨last', hget', hlast⟩ := hloc.node.get_last hloc.ok
    obtain rfl := Option.some.inj (hget.symm.trans hget')
    obtain ⟨C, hC, hidx, hlt⟩ := (hargs.mono (hloc.extends hok)).quotes
    -- the check of the code is the up-to-date check of the protocol
    have hup : (protocol cfg).UpToDate C r₁.log := by
      rcases hdate with h | ⟨h, hi⟩
      · left; rw [hlast, ← hlt]; exact h
      · right; exact ⟨by rw [hlast, ← hlt, h], by omega⟩
    have hg := local_grant hloc.ok hloc.node hfree (by rw [hterm]; exact hC) hup
    exact ⟨_, hloc.trans hquiet hg, fun _ => by simp [hterm, hloc.node.term]⟩

/-! ### Heartbeats -/

/-- Every packet of a broadcast is an append request that quotes the sender's log. -/
def AppendPackets (cfg : Config) (a : Abs) (sent : List Packet) : Prop :=
  ∀ q ∈ sent, PacketOk cfg a q ∧ voteCall q = none

theorem AppendPackets.calls_eq_nil {sent : List Packet} (h : AppendPackets cfg a sent) :
    sent.filterMap voteCall = [] := by
  rw [List.filterMap_eq_nil_iff]
  exact fun q hq => (h q hq).2

/-- The request a leader builds for a peer quotes its log from `nextIndex` on. -/
theorem heartbeatFor_ok (hok : AbsOk cfg a) (hid : id ∈ cfg.ids) (hn : NodeSim cfg a id r)
    (hlead : r.role = .leader) {p : Int} (hp : p ∈ cfg.peers id) :
    ∃ q, r.heartbeatFor p = some q ∧ PacketOk cfg a q ∧ voteCall q = none := by
  obtain ⟨hlo, hhi⟩ := hn.next hlead p hp
  have hled := hn.leader.mp hlead
  have hlog := hn.log_lead hok hlead
  obtain ⟨n, e, he, hbeat⟩ := RaftNode.heartbeatFor_returns hlo hhi
  have hn' := (List.getElem?_eq_some_iff.mp he).1
  have hcommit := hn.commit
  have hbounds := hn.commit_bounds hok
  refine ⟨_, hbeat, ⟨n, ?_⟩, rfl⟩
  exact {
    sender := by rw [hn.id_eq]; exact hid
    peer := by rw [hn.id_eq]; exact hp
    led := by rw [hn.id_eq]; exact hled
    prev := rfl
    prevTerm := ⟨e, by rw [← hlog]; exact he, rfl⟩
    entries := by rw [← hlog]
    commit_le := by
      show r.commitIndex ≤ _
      rw [List.length_drop]; omega
    -- what the leader has committed lies in its own log, hence in the log of its term
    commit := by
      show r.commitIndex ≤ 0 ∨ _
      rcases hok.inv.commit_ok id with h0 | ⟨t, j, hch, ht, hk, hpre⟩
      · left
        have : a.commit id ≤ 1 := h0
        omega
      · right
        refine ⟨t, j, hch, by rw [← hn.term]; exact ht, by show r.commitIndex ≤ j; omega, ?_⟩
        rw [hn.log, hlog] at hpre
        show (a.lead t).take (r.commitIndex.toNat + 1) <+: _
        rw [show r.commitIndex.toNat + 1 = a.commit id by omega]
        exact hpre }

/-- **A broadcast** does not panic and sends requests that quote the sender's log. -/
theorem broadcastHeartbeats_ok (hok : AbsOk cfg a) (hid : id ∈ cfg.ids)
    (hn : NodeSim cfg a id r) :
    ∃ sent, r.broadcastHeartbeats = some sent ∧ AppendPackets cfg a sent := by
  by_cases hlead : r.role = .leader
  · rw [RaftNode.broadcastHeartbeats, if_neg (by simp [hlead]), hn.peers_eq]
    exact Lists.exists_mapM (fun p hp => heartbeatFor_ok hok hid hn hlead hp)
  · exact ⟨[], by rw [RaftNode.broadcastHeartbeats, if_pos hlead], by intro q hq; simp at hq⟩

/-! ### Elections -/

/-- The majority of the code is a majority of the ids. -/
theorem NodeSim.majority (hid : id ∈ cfg.ids) (hn : NodeSim cfg a id r) :
    r.majorityNeeded = ((cfg.ids.toFinset.card / 2 + 1 : ℕ) : Int) := by
  have := peers_length hid
  rw [RaftNode.majorityNeeded, hn.peers_eq]
  omega

/-- **Taking over leadership** with the votes of a majority. -/
theorem local_elected (hok : AbsOk cfg a) (hid : id ∈ cfg.ids) (hn : NodeSim cfg a id r)
    (hcand : r.role = .candidate) {votes : Int} {Q : Finset Int}
    (htally : Tally cfg a id r.currentTerm votes Q) (hmaj : votes ≥ r.majorityNeeded) :
    Local cfg a (a.elect id) id r.elected := by
  -- the voters that were counted are the quorum of the move `elect`
  have hQ : (protocol cfg).Quorum Q := by
    refine ⟨htally.members, ?_⟩
    have h1 := htally.votes
    have h2 := hn.majority hid
    have : ((cfg.ids.toFinset.card / 2 + 1 : ℕ) : Int) ≤ (Q.card : Int) := by omega
    exact_mod_cast this
  have hvotes : ∀ n ∈ Q, a.vote (a.term id) n = some id := by
    rw [hn.term]; exact htally.voted
  have hstood : a.stood (a.term id) id = some (a.log id) := by
    rw [hn.term, hn.log]; exact hn.candidate hcand
  have hnew : ¬ a.led (a.term id) id := by
    rw [hn.term, ← hn.leader, hcand]; simp
  have hpos := hn.log_pos hok
  refine ⟨Relation.ReflTransGen.single (.elect id Q hQ hvotes hstood hnew),
    absOk_elect hok hQ hvotes hstood hnew, ?_, fun j hj => sameAt_elect hj,
    fun hl => (Or.symm hl).imp_right And.symm⟩
  exact {
    id_eq := hn.id_eq
    peers_eq := hn.peers_eq
    term := hn.term
    log := hn.log
    vote := hn.vote
    leader := by
      constructor
      · intro _; exact Or.inl ⟨hn.term.symm, rfl⟩
      · intro _; rfl
    candidate := by intro h; simp [RaftNode.elected] at h
    commit := hn.commit
    applied := hn.applied
    applyCh := hn.applyCh
    next := by
      intro _ p hp
      rw [← hn.peers_eq] at hp
      simp only [RaftNode.elected, if_pos hp]
      omega
    matched := by
      intro _ p hp
      rw [← hn.peers_eq] at hp
      simp [RaftNode.elected, if_pos hp] }

/-- Standing for election. -/
theorem local_stands (hok : AbsOk cfg a) (hid : id ∈ cfg.ids) (hn : NodeSim cfg a id r) :
    Local cfg a (a.stand id (r.currentTerm + 1)) id r.stands := by
  have ht : a.term id < r.currentTerm + 1 := by rw [hn.term]; omega
  refine ⟨Relation.ReflTransGen.single (.stand id _ ht), absOk_stand hok hid ht, ?_,
    fun j hj => sameAt_stand hj _, Or.inl⟩
  exact {
    id_eq := hn.id_eq
    peers_eq := hn.peers_eq
    term := by simp [RaftNode.stands]
    log := hn.log
    vote := by simp [RaftNode.stands, hn.id_eq]
    leader := by
      constructor
      · intro h; simp [RaftNode.stands] at h
      · intro h; exact absurd (hok.inv.led_le h) (not_le.mpr ht)
    candidate := by intro _; simp [RaftNode.stands, hn.log]
    commit := hn.commit
    applied := hn.applied
    applyCh := hn.applyCh
    next := by intro h; simp [RaftNode.stands] at h
    matched := by intro h; simp [RaftNode.stands] at h }

/-- **An election timeout** does not panic.  The candidate has counted its own vote, and
    the vote requests it sends, one per peer, quote the log it stands with. -/
theorem local_startElection (hok : AbsOk cfg a) (hid : id ∈ cfg.ids)
    (hn : NodeSim cfg a id r) :
    ∃ r' sent, r.startElection = some (r', 1, sent) ∧ ∃ a', Local cfg a a' id r' ∧
      r'.currentTerm = r.currentTerm + 1 ∧
      Tally cfg a' id (r.currentTerm + 1) 1 {id} ∧
      (∀ q ∈ sent, PacketOk cfg a' q) ∧
      (sent.filterMap voteCall).Nodup ∧
      ∀ x ∈ sent.filterMap voteCall, ∃ p, p ≠ id ∧ x = (id, r.currentTerm + 1, p) := by
  have hst := local_stands hok hid hn
  have htally : Tally cfg (a.stand id (r.currentTerm + 1)) id (r.currentTerm + 1) 1 {id} := {
    votes := by simp
    members := by intro v hv; rw [Finset.mem_singleton] at hv; subst hv; simpa using hid
    voted := by intro v hv; rw [Finset.mem_singleton] at hv; subst hv; simp }
  apply RaftNode.startElection_rule (hn.log_pos hok)
  · -- a single node is its own majority
    intro hmaj
    have hloc := local_elected hst.ok hid hst.node rfl htally hmaj
    obtain ⟨sent, hsent, hpk⟩ := broadcastHeartbeats_ok hloc.ok hid hloc.node
    have hnone := hpk.calls_eq_nil
    refine ⟨sent, hsent, _, hst.trans (fun h => h) hloc, rfl,
      ⟨htally.votes, htally.members, htally.voted⟩, fun q hq => (hpk q hq).1, ?_, ?_⟩
    · rw [hnone]; exact List.nodup_nil
    · rw [hnone]; intro x hx; simp at hx
  · -- otherwise one request goes to each peer
    intro last hget
    obtain ⟨last', hget', hlast⟩ := hn.get_last hok
    obtain rfl := Option.some.inj (hget.symm.trans hget')
    refine ⟨_, hst, rfl, htally, ?_, ?_⟩
    · intro q hq
      rw [List.mem_map] at hq
      obtain ⟨p, hp, rfl⟩ := hq
      rw [hn.peers_eq] at hp
      exact {
        sender := by rw [hn.id_eq]; exact hid
        peer := by rw [hn.id_eq]; exact hp
        quotes := by
          refine ⟨r.log, ?_, rfl, hlast.symm⟩
          rw [hn.id_eq]; exact hst.node.candidate rfl }
    · have hcalls : (r.peers.map fun peerID => Packet.voteRequest peerID
          { term := r.stands.currentTerm, candidateID := r.id,
            lastLogIndex := (r.log.length : Int) - 1,
            lastLogTerm := last.term }).filterMap voteCall =
          (cfg.peers id).map fun p => (id, r.currentTerm + 1, p) := by
        rw [List.filterMap_map, ← List.filterMap_eq_map, hn.peers_eq]
        refine List.filterMap_congr (fun p _ => ?_)
        simp [voteCall, hn.id_eq, RaftNode.stands]
      rw [hcalls]
      refine ⟨(peers_nodup hid).map (fun p q hpq => by simpa using hpq), ?_⟩
      intro x hx
      rw [List.mem_map] at hx
      obtain ⟨p, hp, rfl⟩ := hx
      exact ⟨p, ((mem_peers hid).mp hp).1, rfl⟩

/-- **Handling a vote reply** does not panic; a granted vote is counted once. -/
theorem local_handleVoteReply (hok : AbsOk cfg a) (hid : id ∈ cfg.ids)
    (hn : NodeSim cfg a id r) {args : RequestVoteArgs} {reply : RequestVoteReply}
    {peer votes : Int} {Q : Finset Int} (hpeer : peer ∈ cfg.ids) (hfresh : peer ∉ Q)
    (hgranted : reply.voteGranted = true → a.vote args.term peer = some id)
    (htally : r.role = .candidate → r.currentTerm = args.term →
      Tally cfg a id args.term votes Q) :
    ∃ r' votes' sent, r.handleVoteReply args reply votes = some (r', votes', sent) ∧ ∃ a' Q',
      Local cfg a a' id r' ∧ AppendPackets cfg a' sent ∧ (Q' = Q ∨ Q' = insert peer Q) ∧
      KeepsCandidacy r r' ∧
      (r'.role = .candidate → r.currentTerm = args.term →
        Tally cfg a' id args.term votes' Q') := by
  have hnothing : ∀ {b}, AppendPackets cfg b [] := by intro b q hq; simp at hq
  -- the counter counts `peer`, which it has not counted before
  have hcounted : r.role = .candidate → r.currentTerm = args.term → reply.voteGranted = true →
      Tally cfg a id args.term (votes + 1) (insert peer Q) := by
    intro hcand hterm hg
    have ht := htally hcand hterm
    exact {
      votes := by rw [Finset.card_insert_of_notMem hfresh, ht.votes]; push_cast; rfl
      members := Finset.insert_subset (by simpa using hpeer) ht.members
      voted := by
        intro v hv
        rw [Finset.mem_insert] at hv
        rcases hv with rfl | hv
        · exact hgranted hg
        · exact ht.voted v hv }
  apply RaftNode.handleVoteReply_rule
  · exact ⟨a, Q, Local.refl hok hn, hnothing, Or.inl rfl, fun h => ⟨h, rfl⟩, htally⟩
  · -- the voter knows a later term
    intro _ hlater
    refine ⟨_, Q, local_becomeFollower hok hn hlater, hnothing, Or.inl rfl, ?_, ?_⟩
    · intro h; simp [RaftNode.becomeFollower] at h
    · intro h; simp [RaftNode.becomeFollower] at h
  · intro hcand hterm hg
    exact ⟨a, _, Local.refl hok hn, hnothing, Or.inr rfl, fun h => ⟨h, rfl⟩,
      fun _ _ => hcounted hcand hterm hg⟩
  · intro hcand hterm hg hmaj
    have hloc := local_elected hok hid hn hcand (by rw [hterm]; exact hcounted hcand hterm hg) hmaj
    obtain ⟨sent, hsent, hpk⟩ := broadcastHeartbeats_ok hloc.ok hid hloc.node
    refine ⟨sent, hsent, _, _, hloc, hpk, Or.inr rfl, ?_, ?_⟩
    · intro h; simp [RaftNode.elected] at h
    · intro h; simp [RaftNode.elected] at h

end Hallownest.Consensus
