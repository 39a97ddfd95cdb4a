import Hallownest.Consensus.Indexing

namespace Hallownest.Consensus

open Cluster (Reached)
open RaftNode

/-!
# Consensus — back-off

What becomes of a leader and one of its peers as long as nothing else happens.  A round is one
request and its reply; a peer whose log does not match makes the leader back off by one entry.

* `Link.round` — one round, made of the three critical sections of the source.
* `Link.Ready` — what the rounds start from and keep: the logs match, and the leader's next
  index lies within its log.
* `Ready.round` — a round backs off by one, or the peer then holds the leader's log.
* `Ready.converges`, `InStep.rounds` — the rounds up to the first success, and those after it.

At next index 1 a request starts from the dummy entry, which both logs have, so the leader
backs off no further.
-/

/-- A leader and one of its peers. -/
structure Link where
  leader : RaftNode
  peer : RaftNode

namespace Link

/-- One round with peer `p`: the leader builds its request, the peer handles it, the leader
    handles the reply.  Also returns whether the peer has taken the request. -/
def round (p : Int) (s : Link) : Option (Link × Bool) := do
  let request ← s.leader.heartbeatFor p
  let args ← appendArgs request
  let (peer, reply) ← s.peer.appendEntries args
  let leader ← s.leader.handleAppendReply p args reply
  return (⟨leader, peer⟩, reply.success)

/-- `n` rounds with peer `p`, and whether each was a success. -/
def rounds (p : Int) : ℕ → Link → Option (Link × List Bool)
  | 0, s => some (s, [])
  | n + 1, s => do
    let (s, ok) ← s.round p
    let (s, oks) ← rounds p n s
    return (s, ok :: oks)

/-- A leader and a peer of no later term, whose logs match. -/
structure Ready (p : Int) (s : Link) : Prop where
  leads : s.leader.role = .leader
  leader : Started s.leader
  peer : Started s.peer
  term_le : s.peer.currentTerm ≤ s.leader.currentTerm
  matching : Replog.Matching RaftLogEntry.term s.peer.log s.leader.log
  next_pos : 1 ≤ s.leader.nextIndex p
  next_le : s.leader.nextIndex p ≤ s.leader.log.length

/-- The peer holds the leader's log, and the leader knows. -/
structure InStep (p : Int) (s : Link) : Prop extends Ready p s where
  stored : s.leader.log <+: s.peer.log
  next : s.leader.nextIndex p = s.leader.log.length
  matched : s.leader.matchIndex p = (s.leader.log.length : Int) - 1

variable {p : Int} {s s' : Link}

/-! ### One round -/

/-- **The answer to a request** that starts from position `n`: the terms there differ, or the
    peer takes over the leader's log. -/
theorem Ready.answer (h : Ready p s) {n : ℕ} {e : RaftLogEntry}
    (he : s.leader.log[n]? = some e) :
    ∃ peer reply, s.peer.appendEntries (s.leader.requestFrom n e) = some (peer, reply) ∧
      Started peer ∧ peer.currentTerm = s.leader.currentTerm ∧
      reply.term = s.leader.currentTerm ∧
      ((reply.success = false ∧ peer.log = s.peer.log ∧
          ∀ d, s.peer.log[n]? = some d → d.term ≠ e.term) ∨
        (reply.success = true ∧
          peer.log = Replog.adopt s.leader.log s.peer.log s.leader.log.length)) := by
  have hcur : (s.peer.catchUp s.leader.currentTerm).currentTerm = s.leader.currentTerm :=
    (catchUp_term _ _).trans (max_eq_right h.term_le)
  have hlog : (s.peer.catchUp s.leader.currentTerm).log = s.peer.log := catchUp_log _ _
  have hstarted : Started (s.peer.catchUp s.leader.currentTerm) := by
    rcases catchUp_cases s.peer s.leader.currentTerm with ⟨_, heq⟩ | ⟨_, heq⟩
    · rw [heq]; exact ⟨h.peer.dummy, h.peer.commit, h.peer.applied⟩
    · rw [heq]; exact h.peer
  have hget : ∀ {d : RaftLogEntry}, Slice.get (s.peer.catchUp s.leader.currentTerm).log n = some d ↔
      s.peer.log[n]? = some d := by
    intro d
    rw [hlog, Slice.get_natCast]
  apply appendEntries_rule rfl
    (show 0 ≤ (s.leader.requestFrom n e).prevLogIndex from Int.natCast_nonneg n)
  · intro hlater
    have : s.leader.currentTerm < (s.peer.catchUp s.leader.currentTerm).currentTerm := hlater
    omega
  · intro _ hdiffer
    exact ⟨⟨hstarted.dummy, hstarted.commit, hstarted.applied⟩, hcur, hcur,
      Or.inl ⟨rfl, hlog, fun d hd => hdiffer d (hget.mpr hd)⟩⟩
  · intro _ d hd hagree
    have hd := hget.mp hd
    have hn := (List.getElem?_eq_some_iff.mp he).1
    have hnpeer := (List.getElem?_eq_some_iff.mp hd).1
    -- the logs agree up to the entry the request starts from
    have hsplice : Replog.splice RaftLogEntry.term s.peer.log (n + 1)
        (s.leader.log.drop (n + 1)) =
        Replog.adopt s.leader.log s.peer.log s.leader.log.length :=
      Replog.splice_rest h.matching hnpeer hn (h.matching hd he hagree)
    have hstores := Replog.begins_adopt s.leader.log s.peer.log
    obtain ⟨peer, hrun, hpeer⟩ := Started.followCommit
      (r := { s.peer.catchUp s.leader.currentTerm with
        role := .follower
        log := Replog.adopt s.leader.log s.peer.log s.leader.log.length })
      ⟨Replog.getElem?_of_begins hstores h.leader.dummy, hstarted.commit, hstarted.applied⟩
      s.leader.commitIndex
    have hcommits := commits_followCommit hrun
    obtain ⟨_, _, _, rfl⟩ := hcommits
    refine ⟨_, _, ?_, hrun, hpeer, hcur, hcur, Or.inr ⟨rfl, rfl⟩⟩
    show appendNew _ ((n : Int) + 1) (s.leader.log.drop (n + 1)) = _
    rw [catchUp_log, show (n : Int) + 1 = ((n + 1 : ℕ) : Int) by push_cast; rfl,
      appendNew_eq_splice _ _ _ hnpeer, hsplice]

/-- The three critical sections of a round. -/
theorem round_eq {n : ℕ} {e : RaftLogEntry} (hnext : s.leader.nextIndex p = n + 1)
    (he : s.leader.log[n]? = some e) {leader peer : RaftNode} {reply : AppendEntriesReply}
    (hanswer : s.peer.appendEntries (s.leader.requestFrom n e) = some (peer, reply))
    (hreply : s.leader.handleAppendReply p (s.leader.requestFrom n e) reply = some leader) :
    s.round p = some (⟨leader, peer⟩, reply.success) := by
  simp only [Link.round, heartbeatFor_of_next hnext he, appendArgs, hanswer, hreply,
    Option.bind_eq_bind, Option.bind_some, Option.pure_def]

/-- **One round** backs off by one entry, or leaves the peer with the leader's log. -/
theorem Ready.round (h : Ready p s) : ∃ s' ok, s.round p = some (s', ok) ∧
    s'.leader.log = s.leader.log ∧
    ((ok = false ∧ Ready p s' ∧ s'.leader.nextIndex p = s.leader.nextIndex p - 1 ∧
        ¬ s.leader.log <+: s.peer.log) ∨
      (ok = true ∧ InStep p s' ∧
        s'.peer.log = Replog.adopt s.leader.log s.peer.log s.leader.log.length)) := by
  have hpos := h.next_pos
  have hle := h.next_le
  obtain ⟨n, hnext⟩ : ∃ n : ℕ, s.leader.nextIndex p = n + 1 :=
    ⟨(s.leader.nextIndex p - 1).toNat, by omega⟩
  have he : s.leader.log[n]? = some s.leader.log[n] := List.getElem?_eq_getElem (by omega)
  obtain ⟨peer, reply, hanswer, hpeer, hterm, hreply, hcase⟩ := h.answer he
  rcases hcase with ⟨hfail, hlog, hdiffer⟩ | ⟨hok, hlog⟩
  · -- at position 0 both have the dummy entry
    have hn : n ≠ 0 := by
      rintro rfl
      refine hdiffer _ h.peer.dummy ?_
      rw [Option.some.inj (he.symm.trans h.leader.dummy)]
    have hback : s.leader.handleAppendReply p (s.leader.requestFrom n s.leader.log[n]) reply =
        some { s.leader with nextIndex := fun q =>
          if q = p then s.leader.nextIndex q - 1 else s.leader.nextIndex q } :=
      handleAppendReply_failure h.leads rfl hreply.le hfail (by omega)
    have hnow : (if p = p then s.leader.nextIndex p - 1 else s.leader.nextIndex p) = n := by
      rw [if_pos rfl]; omega
    refine ⟨_, _, round_eq hnext he hanswer hback, rfl, Or.inl ⟨hfail, ?_, if_pos rfl, ?_⟩⟩
    · refine ⟨h.leads, ⟨h.leader.dummy, h.leader.commit, h.leader.applied⟩, hpeer, hterm.le, ?_,
        ?_, ?_⟩
      · rw [hlog]; exact h.matching
      · exact (show (1 : Int) ≤ n by omega).trans_eq hnow.symm
      · exact hnow.trans_le (show (n : Int) ≤ s.leader.log.length by omega)
    · intro hstored
      exact hdiffer _ (Replog.getElem?_of_begins hstored he) rfl
  · have hend : (n : Int) + (s.leader.log.drop (n + 1)).length + 1 = s.leader.log.length := by
      rw [List.length_drop]; omega
    have hack : s.leader.handleAppendReply p (s.leader.requestFrom n s.leader.log[n]) reply =
        (s.leader.acknowledge p s.leader.log.length).checkAdvanceCommitIndex := by
      rw [← hend]
      exact handleAppendReply_success h.leads rfl hreply.le hok
    obtain ⟨leader, hrun, hleader⟩ := Started.checkAdvanceCommitIndex
      (r := s.leader.acknowledge p s.leader.log.length)
      ⟨h.leader.dummy, h.leader.commit, h.leader.applied⟩
    obtain ⟨_, _, _, rfl⟩ := commits_advanceLoop hrun
    have hstores : s.leader.log <+: peer.log := by
      rw [hlog]; exact Replog.begins_adopt _ _
    have hnow : (if p = p then (s.leader.log.length : Int) else s.leader.nextIndex p) =
        s.leader.log.length := if_pos rfl
    refine ⟨_, _, round_eq hnext he hanswer (hack.trans hrun), rfl,
      Or.inr ⟨hok, ⟨⟨h.leads, hleader, hpeer, hterm.le, ?_, ?_, ?_⟩, hstores, hnow, ?_⟩, hlog⟩⟩
    · exact Replog.matching_of_begins _ hstores
    · exact (show (1 : Int) ≤ s.leader.log.length by omega).trans_eq hnow.symm
    · exact hnow.le
    · exact if_pos rfl

/-! ### All rounds -/

/-- **Backing off** comes to an end: with next index `k`, at the `k`-th round at the latest. -/
theorem Ready.converges : ∀ {k : ℕ} {s : Link}, Ready p s → s.leader.nextIndex p = k →
    ∃ n < k, ∃ s', s.rounds p (n + 1) = some (s', List.replicate n false ++ [true]) ∧
      InStep p s' ∧ s'.leader.log = s.leader.log := by
  intro k
  induction k with
  | zero =>
    intro s h hk
    have := h.next_pos
    omega
  | succ k ih =>
    intro s h hk
    obtain ⟨s₁, ok, hround, hlog, ⟨rfl, hready, hnext, _⟩ | ⟨rfl, hstep, _⟩⟩ := h.round
    · obtain ⟨n, hn, s', hrounds, hstep, hlog'⟩ := ih hready (by omega)
      refine ⟨n + 1, by omega, s', ?_, hstep, hlog'.trans hlog⟩
      rw [rounds, hround]
      exact congrArg (Option.bind · _) hrounds
    · refine ⟨0, by omega, s₁, ?_, hstep, hlog⟩
      rw [rounds, hround]
      rfl

/-- **After a success** every round is one, and the logs stay as they are. -/
theorem InStep.rounds : ∀ (m : ℕ) {s : Link}, InStep p s →
    ∃ s', s.rounds p m = some (s', List.replicate m true) ∧ s'.leader.log = s.leader.log ∧
      s'.peer.log = s.peer.log := by
  intro m
  induction m with
  | zero => intro s _; exact ⟨s, rfl, rfl, rfl⟩
  | succ m ih =>
    intro s h
    obtain ⟨s₁, ok, hround, hleader, ⟨_, _, _, hnot⟩ | ⟨rfl, hstep, hpeer⟩⟩ := h.toReady.round
    · exact absurd h.stored hnot
    · rw [Replog.adopt_of_begins h.stored] at hpeer
      obtain ⟨s', hrounds, hleader', hpeer'⟩ := ih hstep
      refine ⟨s', ?_, hleader'.trans hleader, hpeer'.trans hpeer⟩
      rw [Link.rounds, hround]
      exact congrArg (Option.bind · _) hrounds

/-! ### Results -/

/-- In every state a cluster reaches, a leader is ready for the rounds with each of its peers
    that knows no later term. -/
theorem ready_of_reached {cfg : Config} {acts : List Action} {c : Cluster}
    (hids : (-1 : Int) ∉ cfg.ids) (hc : Reached cfg acts c) {id : Int} (hid : id ∈ cfg.ids)
    (hleads : (c.nodes id).role = .leader) (hp : p ∈ cfg.peers id)
    (hterm : (c.nodes p).currentTerm ≤ (c.nodes id).currentTerm) :
    Ready p ⟨c.nodes id, c.nodes p⟩ := by
  have hok := clusterOk_of_reached hc
  obtain ⟨a, counted, hsim⟩ := exists_sim hids hc
  have hwf : ∀ j ∈ cfg.ids, Replog.WfLog (protocol cfg) a (c.nodes j).log := by
    intro j hj
    have := hsim.ok.inv.log_wf j
    rwa [(hsim.nodes j hj).log] at this
  obtain ⟨hlo, hhi⟩ := (hok.nodes id).next hleads p hp
  exact ⟨hleads, (hok.nodes id).started, (hok.nodes p).started, hterm,
    fun hd he hagree => Replog.Inv.matching (hwf p ((mem_peers hid).mp hp).2) (hwf id hid) hd he
      hagree, hlo, hhi⟩

/-- **Back-off converges.**  After at most as many rounds as the next index says, one succeeds;
    the peer's log then begins with the leader's, both indices are at its end, and no later
    round changes a log. -/
theorem backoff_converges {leader peer : RaftNode} (hleads : leader.role = .leader)
    (hleader : Started leader) (hpeer : Started peer)
    (hterm : peer.currentTerm ≤ leader.currentTerm)
    (hmatch : ∀ (i : ℕ) (e e' : RaftLogEntry), leader.log[i]? = some e → peer.log[i]? = some e' →
      e.term = e'.term → ∀ j ≤ i, leader.log[j]? = peer.log[j]?)
    (hlo : 1 ≤ leader.nextIndex p) (hhi : leader.nextIndex p ≤ leader.log.length) :
    ∃ (n : ℕ) (s : Link), 1 ≤ n ∧ (n : Int) ≤ leader.nextIndex p ∧
      rounds p n ⟨leader, peer⟩ = some (s, List.replicate (n - 1) false ++ [true]) ∧
      s.leader.log = leader.log ∧
      (∀ i < leader.log.length, s.peer.log[i]? = leader.log[i]?) ∧
      s.leader.nextIndex p = leader.log.length ∧
      s.leader.matchIndex p = (leader.log.length : Int) - 1 ∧
      ∀ m : ℕ, ∃ s', rounds p m s = some (s', List.replicate m true) ∧
        s'.leader.log = leader.log ∧ s'.peer.log = s.peer.log := by
  have hready : Ready p ⟨leader, peer⟩ := by
    refine ⟨hleads, hleader, hpeer, hterm, ?_, hlo, hhi⟩
    intro i d e hd he hagree
    apply List.ext_getElem?
    intro j
    rw [List.getElem?_take, List.getElem?_take]
    split
    · exact (hmatch i e d he hd hagree.symm j (by omega)).symm
    · rfl
  obtain ⟨n, hn, s, hrounds, hstep, hlog⟩ :=
    hready.converges (k := (leader.nextIndex p).toNat) (by show leader.nextIndex p = _; omega)
  refine ⟨n + 1, s, by omega, by omega, hrounds, hlog, fun i hi => ?_, ?_, ?_, fun m => ?_⟩
  · rw [List.getElem?_eq_getElem hi]
    exact Replog.getElem?_of_begins hstep.stored (by rw [hlog, List.getElem?_eq_getElem hi])
  · rw [hstep.next, hlog]
  · rw [hstep.matched, hlog]
  · obtain ⟨s', hrun, hlead', hpeer'⟩ := hstep.rounds m
    exact ⟨s', hrun, hlead'.trans hlog, hpeer'⟩

/-- The leader of term 2 and a peer that has missed its entry and holds another one of term 1. -/
def divergedLeader : RaftNode := { newRaftNode 0 [1] none with
  currentTerm := 2
  role := .leader
  log := [dummyEntry, ⟨1, 1, [7], [9], false⟩, ⟨2, 2, [8], [9], false⟩]
  nextIndex := fun _ => 3 }

def divergedPeer : RaftNode := { newRaftNode 1 [0] none with
  currentTerm := 1
  log := [dummyEntry, ⟨1, 1, [7], [9], false⟩, ⟨2, 1, [7], [], true⟩] }

/-- The two are in step after three rounds at most. -/
theorem backoff_converges_diverged : ∃ (n : ℕ) (s : Link), (n : Int) ≤ 3 ∧
    rounds 1 n ⟨divergedLeader, divergedPeer⟩ =
      some (s, List.replicate (n - 1) false ++ [true]) ∧
    s.peer.log[2]? = some ⟨2, 2, [8], [9], false⟩ := by
  have hmatch : ∀ (i : ℕ) (e e' : RaftLogEntry), divergedLeader.log[i]? = some e →
      divergedPeer.log[i]? = some e' → e.term = e'.term →
      ∀ j ≤ i, divergedLeader.log[j]? = divergedPeer.log[j]? := by
    intro i e e' he he' hterm j hj
    match i, he, he' with
    | 0, _, _ =>
      obtain rfl : j = 0 := by omega
      rfl
    | 1, _, _ =>
      rcases (show j = 0 ∨ j = 1 by omega) with rfl | rfl
      · rfl
      · rfl
    | 2, he, he' =>
      rw [← Option.some.inj he, ← Option.some.inj he'] at hterm
      simp at hterm
    | i + 3, he, _ => cases he
  have hleader : Started divergedLeader := ⟨rfl, le_refl _, le_refl _⟩
  have hpeer : Started divergedPeer := ⟨rfl, le_refl _, le_refl _⟩
  obtain ⟨n, s, _, hn, hrun, _, hlog, _⟩ := backoff_converges (p := 1) rfl hleader hpeer
    (by decide) hmatch (by decide) (by decide)
  exact ⟨n, s, hn, hrun, hlog 2 (by decide)⟩

end Link

end Hallownest.Consensus
