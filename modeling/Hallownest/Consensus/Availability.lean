import Hallownest.Consensus.Commitment
import Hallownest.Consensus.Receipts
import Hallownest.Consensus.Schedules
import Mathlib.Data.Prod.Lex
import Mathlib.Data.Finset.Max

namespace Hallownest.Consensus

open Cluster (Reached Reachable Within)
open RaftNode
open Replog (Majority)

/-!
# Consensus — a majority can always go on

Whatever has happened before, and whatever the other nodes do not do: a majority of nodes that
are not killed can elect one of them, and commit a new command (`majority_commits`).  The
schedule is made of three parts.

* `exists_leader` — the node with the most up-to-date log stands until its term is later than
  all others, and the majority votes for it;
* `all_in_step` — in rounds with each peer the leader brings all of them in step;
* `all_know` — in one more round each peer learns what is committed.
-/

variable {cfg : Config} {s s' u : Cluster} {acts : List Action} {Q : Finset Int} {c : Int}

/-! ### An election -/

/-- The candidate `c` has asked the nodes in `rest`, each of which votes for it; with their votes
    it has a majority. -/
structure Canvassing (Q : Finset Int) (c : Int) (args : RequestVoteArgs) (rest : List Int)
    (s : Cluster) : Prop where
  role : (s.nodes c).role = .candidate
  term : (s.nodes c).currentTerm = args.term
  few : s.votesReceived c args.term < (s.nodes c).majorityNeeded
  enough : (s.nodes c).majorityNeeded ≤ s.votesReceived c args.term + rest.length
  asked : ∀ q ∈ rest, q ≠ c ∧ q ∈ Q ∧ .voteRequest q args ∈ s.net ∧ (s.nodes q).Yields args

/-- **The votes come in** one by one, until the candidate leads. -/
theorem Canvassing.wins (hcQ : c ∈ Q) {args : RequestVoteArgs} (hid : args.candidateID = c) :
    ∀ {rest : List Int} {s : Cluster}, rest.Nodup → ClusterOk cfg s →
      Canvassing Q c args rest s → ∃ s', Within cfg Q s s' ∧ (s'.nodes c).role = .leader ∧
        (s'.nodes c).currentTerm = args.term ∧
        ∀ j, j ≠ c → s'.nodes j = s.nodes j ∨ (s'.nodes j).currentTerm = args.term := by
  intro rest
  induction rest with
  | nil =>
    intro s _ _ h
    have hfew := h.few
    have henough := h.enough
    rw [List.length_nil] at henough
    omega
  | cons q rest ih =>
    intro s hnodup hok h
    obtain ⟨hne, hqQ, hmem, hyields⟩ := h.asked q (List.mem_cons_self)
    obtain ⟨hq, hnodup⟩ := List.nodup_cons.mp hnodup
    obtain ⟨s₁, hwithin, hother, hterm, hcase⟩ :=
      canvass hok hne hcQ hqQ hid hmem hyields h.role h.term
    rcases hcase with hlead | ⟨hfew, hsame, hvotes, hkept⟩
    · refine ⟨s₁, hwithin, by rw [hlead]; rfl, by rw [hlead]; exact h.term, fun j hj => ?_⟩
      by_cases hjq : j = q
      · exact .inr (hjq ▸ hterm)
      · exact .inl (hother j hj hjq)
    · -- the vote is counted, and the others are still to be asked
      have h₁ : Canvassing Q c args rest s₁ := by
        have henough := h.enough
        rw [List.length_cons] at henough
        refine ⟨by rw [hsame]; exact h.role, by rw [hsame]; exact h.term, ?_, ?_, ?_⟩
        · rw [hvotes, hsame]; exact hfew
        · rw [hvotes, hsame]; push_cast at henough; omega
        · intro p hp
          obtain ⟨hpc, hpQ, hpmem, hpyields⟩ := h.asked p (List.mem_cons_of_mem q hp)
          have hpq : p ≠ q := fun heq => hq (heq ▸ hp)
          refine ⟨hpc, hpQ, hkept p hpq hpmem, ?_⟩
          rw [hother p hpc hpq]
          exact hpyields
      obtain ⟨s', hwithin', hlead, hterm', hothers⟩ := ih hnodup (hwithin.clusterOk hok) h₁
      refine ⟨s', hwithin.trans hwithin', hlead, hterm', fun j hj => ?_⟩
      rcases hothers j hj with heq | heq
      · by_cases hjq : j = q
        · rw [heq]
          exact .inr (hjq ▸ hterm)
        · exact .inl (heq.trans (hother j hj hjq))
      · exact .inr heq

/-- **Standing again and again** takes a candidate to any later term. -/
theorem raise_term (hc : c ∈ cfg.ids) (hcQ : c ∈ Q) (htwo : 2 ≤ cfg.ids.length)
    {last : RaftLogEntry} : ∀ (n : ℕ) {s : Cluster}, ClusterOk cfg s →
      (s.nodes c).killed = false → (s.nodes c).role ≠ .leader →
      Slice.get (s.nodes c).log (((s.nodes c).log.length : Int) - 1) = some last →
      ∃ s', Within cfg Q s s' ∧ (∀ j, j ≠ c → s'.nodes j = s.nodes j) ∧
        (s'.nodes c).role = .candidate ∧ (s'.nodes c).log = (s.nodes c).log ∧
        (s'.nodes c).currentTerm = (s.nodes c).currentTerm + n + 1 ∧
        s'.votesReceived c (s'.nodes c).currentTerm = 1 ∧
        ∀ p ∈ cfg.peers c, .voteRequest p ((s'.nodes c).voteArgs last) ∈ s'.net := by
  intro n
  induction n with
  | zero =>
    intro s hok halive hrole hlast
    obtain ⟨s', hwithin, hnodes, hvotes, hasked⟩ := stand hok hc hcQ htwo halive hrole hlast
    have hnode : s'.nodes c = (s.nodes c).stands := by
      rw [hnodes]; exact Cluster.setNode_nodes_self s c _
    refine ⟨s', hwithin, fun j hj => by rw [hnodes]; exact Cluster.setNode_nodes_of_ne _ hj,
      ?_, ?_, ?_, ?_, ?_⟩
    · rw [hnode]; rfl
    · rw [hnode]; rfl
    · rw [hnode]; simp [stands]
    · rw [hnode]; exact hvotes
    · rw [hnode]; exact hasked
  | succ n ih =>
    intro s hok halive hrole hlast
    obtain ⟨s₁, hwithin, hnodes, _, _⟩ := stand hok hc hcQ htwo halive hrole hlast
    have hnode : s₁.nodes c = (s.nodes c).stands := by
      rw [hnodes]; exact Cluster.setNode_nodes_self s c _
    obtain ⟨s', hwithin', hother, hcand, hlog, hterm, hrest⟩ := ih (s := s₁)
      (hwithin.clusterOk hok) (by rw [hnode]; exact halive) (by rw [hnode]; simp [stands])
      (by rw [hnode]; exact hlast)
    refine ⟨s', hwithin.trans hwithin', fun j hj => ?_, hcand, ?_, ?_, hrest⟩
    · rw [hother j hj, hnodes]
      exact Cluster.setNode_nodes_of_ne _ hj
    · rw [hlog, hnode]; rfl
    · rw [hterm, hnode]
      simp only [stands]
      push_cast
      omega

/-- How up to date a log is: the term of its last entry, then its length. -/
def RaftNode.rank (r : RaftNode) : ℤ ×ₗ ℕ :=
  toLex ((r.log.getLast?.map RaftLogEntry.term).getD 0, r.log.length)

/-- The last entry of a log that is not empty. -/
theorem exists_last {r : RaftNode} (hpos : 0 < r.log.length) :
    ∃ last, Slice.get r.log ((r.log.length : Int) - 1) = some last ∧
      r.rank = toLex (last.term, r.log.length) := by
  have hi : r.log.length - 1 < r.log.length := by omega
  refine ⟨r.log[r.log.length - 1], ?_, ?_⟩
  · rw [show ((r.log.length : Int) - 1) = ((r.log.length - 1 : ℕ) : Int) by omega,
      Slice.get_natCast, List.getElem?_eq_getElem hi]
  · rw [RaftNode.rank, List.getLast?_eq_getElem?, List.getElem?_eq_getElem hi]
    rfl

/-- A node in an earlier term, whose log is not more up to date, votes for a candidate. -/
theorem yields_of_rank {r q : RaftNode} (hr : 0 < r.log.length) (hq : 0 < q.log.length)
    (hterm : q.currentTerm < r.currentTerm) (hrank : q.rank ≤ r.rank) {last : RaftLogEntry}
    (hlast : Slice.get r.log ((r.log.length : Int) - 1) = some last) :
    q.Yields (r.voteArgs last) := by
  obtain ⟨last', hlast', hr'⟩ := exists_last hr
  obtain ⟨lastq, hlastq, hq'⟩ := exists_last hq
  obtain rfl := Option.some.inj (hlast.symm.trans hlast')
  rw [hr', hq', Prod.Lex.toLex_le_toLex] at hrank
  refine ⟨hterm, lastq, hlastq, hrank.imp id fun ⟨heq, hle⟩ => ⟨heq.symm, ?_⟩⟩
  show (r.log.length : Int) - 1 ≥ (q.log.length : Int) - 1
  have : q.log.length ≤ r.log.length := hle
  omega

/-- **A node that does not lead**, with the most up-to-date log of a majority, can be elected. -/
theorem can_be_elected (htwo : 2 ≤ cfg.ids.length) (hok : ClusterOk cfg s)
    (hQ : Majority cfg.ids.toFinset Q) (hcQ : c ∈ Q) (halive : (s.nodes c).killed = false)
    (hrole : (s.nodes c).role ≠ .leader)
    (hbest : ∀ q ∈ Q, (s.nodes q).rank ≤ (s.nodes c).rank) {t : Int}
    (hterm : ∀ q ∈ Q, (s.nodes q).currentTerm ≤ t) :
    ∃ s', Within cfg Q s s' ∧ (s'.nodes c).role = .leader ∧
      ∀ q ∈ Q, (s'.nodes q).currentTerm ≤ (s'.nodes c).currentTerm := by
  have hc : c ∈ cfg.ids := List.mem_toFinset.mp (hQ.1 hcQ)
  obtain ⟨last, hlast, _⟩ := exists_last (hok.nodes c).log.length_pos
  -- stand until the term is `t + 1`
  obtain ⟨s₁, hwithin, hother, hcand, hlog, hterm₁, hvotes, hasked⟩ :=
    raise_term hc hcQ htwo (t - (s.nodes c).currentTerm).toNat hok halive hrole hlast
  have hct := hterm c hcQ
  have hnow : (s₁.nodes c).currentTerm = t + 1 := by omega
  have hok₁ := hwithin.clusterOk hok
  have hmajority := one_lt_majorityNeeded hok₁ hc htwo
  have hcanvassing : Canvassing Q c ((s₁.nodes c).voteArgs last) (Q.erase c).toList s₁ := by
    refine ⟨hcand, rfl, ?_, ?_, fun q hq => ?_⟩
    · exact hvotes.trans_lt hmajority
    · have hcard := hQ.2
      have hlen := peers_length hc
      have hpos : 0 < Q.card := Finset.card_pos.mpr ⟨c, hcQ⟩
      rw [show s₁.votesReceived c ((s₁.nodes c).voteArgs last).term = 1 from hvotes,
        RaftNode.majorityNeeded, (hok₁.nodes c).peers_eq, Finset.length_toList,
        Finset.card_erase_of_mem hcQ]
      omega
    · obtain ⟨hne, hqQ⟩ := Finset.mem_erase.mp (Finset.mem_toList.mp hq)
      refine ⟨hne, hqQ, hasked q ((mem_peers hc).mpr
        ⟨hne, List.mem_toFinset.mp (hQ.1 hqQ)⟩), ?_⟩
      rw [hother q hne]
      have hqt := hterm q hqQ
      refine yields_of_rank (hok₁.nodes c).log.length_pos (hok.nodes q).log.length_pos (by omega)
        ?_ (by rw [hlog]; exact hlast)
      rw [show (s₁.nodes c).rank = (s.nodes c).rank by rw [RaftNode.rank, hlog, RaftNode.rank]]
      exact hbest q hqQ
  obtain ⟨s', hwithin', hlead, hterm', hothers⟩ := hcanvassing.wins hcQ
    (hok₁.nodes c).id_eq (Finset.nodup_toList _) hok₁
  refine ⟨s', hwithin.trans hwithin', hlead, fun q hq => ?_⟩
  have hcur : (s'.nodes c).currentTerm = t + 1 := hterm'.trans hnow
  by_cases hqc : q = c
  · rw [hqc]
  · rcases hothers q hqc with heq | heq
    · have hqt := hterm q hq
      rw [heq, hother q hqc, hcur]
      omega
    · rw [heq, hterm']

/-- **A leader behind the term of a peer** steps down when it hears from the peer. -/
theorem round_later (hok : ClusterOk cfg s) {p : Int} (hp : p ∈ cfg.peers c)
    (hlead : (s.nodes c).role = .leader)
    (hlater : (s.nodes c).currentTerm < (s.nodes p).currentTerm) :
    Link.round p ⟨s.nodes c, s.nodes p⟩ =
      some (⟨(s.nodes c).becomeFollower (s.nodes p).currentTerm, s.nodes p⟩, false) := by
  obtain ⟨q, hbeat, _⟩ := (hok.nodes c).heartbeatFor hlead hp
  obtain ⟨args, rfl, _, hterm, _⟩ := heartbeatFor_eq hbeat
  have hanswer : (s.nodes p).appendEntries args =
      some (s.nodes p, ⟨(s.nodes p).currentTerm, false⟩) := by
    rw [RaftNode.appendEntries]
    simp only [hterm, gt_iff_lt, if_neg (not_lt_of_gt hlater), if_pos hlater]
    rfl
  have hreply : (s.nodes c).handleAppendReply p args ⟨(s.nodes p).currentTerm, false⟩ =
      some ((s.nodes c).becomeFollower (s.nodes p).currentTerm) := by
    rw [RaftNode.handleAppendReply, if_pos ⟨hlead, hterm.symm⟩, if_pos hlater]
  simp only [Link.round, hbeat, appendArgs, hanswer, hreply, Option.bind_eq_bind,
    Option.bind_some, Option.pure_def]

/-- **A majority can elect a leader** that is in no earlier term than any of them. -/
theorem exists_leader (htwo : 2 ≤ cfg.ids.length) (hok : ClusterOk cfg s)
    (hQ : Majority cfg.ids.toFinset Q) (hlive : ∀ id ∈ Q, (s.nodes id).killed = false) :
    ∃ s' c, Within cfg Q s s' ∧ c ∈ Q ∧ (s'.nodes c).role = .leader ∧
      ∀ q ∈ Q, (s'.nodes q).currentTerm ≤ (s'.nodes c).currentTerm := by
  have hne : Q.Nonempty := Finset.card_pos.mp (by have := hQ.2; omega)
  obtain ⟨c, hcQ, hbest⟩ := Q.exists_max_image (fun id => (s.nodes id).rank) hne
  obtain ⟨m, hmQ, hmax⟩ := Q.exists_max_image (fun id => (s.nodes id).currentTerm) hne
  have hc : c ∈ cfg.ids := List.mem_toFinset.mp (hQ.1 hcQ)
  by_cases hlead : (s.nodes c).role = .leader
  · rcases (hmax c hcQ).lt_or_eq with hlt | heq
    · -- an old leader hears of the later term first
      have hmc : m ≠ c := by rintro rfl; exact lt_irrefl _ hlt
      have hp : m ∈ cfg.peers c := (mem_peers hc).mpr ⟨hmc, List.mem_toFinset.mp (hQ.1 hmQ)⟩
      obtain ⟨s₁, hwithin, hnodes⟩ := exchange hok hc hp hcQ hmQ hlead (hlive c hcQ)
        (round_later hok hp hlead hlt)
      have hnode : s₁.nodes c = (s.nodes c).becomeFollower (s.nodes m).currentTerm := by
        rw [hnodes]; exact Cluster.setNode_nodes_self _ c _
      have hother : ∀ q, q ≠ c → s₁.nodes q = s.nodes q := by
        intro q hq
        rw [hnodes, Cluster.setNode_nodes_of_ne _ hq]
        by_cases hqm : q = m
        · rw [hqm]; exact Cluster.setNode_nodes_self s m _
        · exact Cluster.setNode_nodes_of_ne _ hqm
      have hbest₁ : ∀ q ∈ Q, (s₁.nodes q).rank ≤ (s₁.nodes c).rank := by
        intro q hq
        have hrank : (s₁.nodes c).rank = (s.nodes c).rank := by rw [hnode]; rfl
        by_cases hqc : q = c
        · rw [hqc]
        · rw [hrank, hother q hqc]; exact hbest q hq
      have hmax₁ : ∀ q ∈ Q, (s₁.nodes q).currentTerm ≤ (s.nodes m).currentTerm := by
        intro q hq
        by_cases hqc : q = c
        · rw [hqc, hnode]; exact le_refl _
        · rw [hother q hqc]; exact hmax q hq
      obtain ⟨s', hwithin', hlead', hterm'⟩ := can_be_elected (c := c) htwo
        (hwithin.clusterOk hok) hQ hcQ (by rw [hnode]; exact hlive c hcQ)
        (by rw [hnode]; simp [becomeFollower])
        hbest₁ hmax₁
      exact ⟨s', c, hwithin.trans hwithin', hcQ, hlead', hterm'⟩
    · exact ⟨s, c, Within.refl cfg Q s, hcQ, hlead, fun q hq => (hmax q hq).trans heq.ge⟩
  · obtain ⟨s', hwithin, hlead', hterm'⟩ :=
      can_be_elected htwo hok hQ hcQ (hlive c hcQ) hlead hbest hmax
    exact ⟨s', c, hwithin, hcQ, hlead', hterm'⟩

/-! ### Rounds with one peer -/

/-- From `s` to `s'` only the leader `c` and its peer `p` have changed: `c` leads the same term
    with the same log, knows of the other peers what it knew, has committed no less, and `p` is
    in no later term. -/
structure Serves (c p : Int) (s s' : Cluster) : Prop where
  others : ∀ j, j ≠ c → j ≠ p → s'.nodes j = s.nodes j
  leads : (s'.nodes c).role = .leader
  term : (s'.nodes c).currentTerm = (s.nodes c).currentTerm
  log : (s'.nodes c).log = (s.nodes c).log
  matched : ∀ q, q ≠ p → (s'.nodes c).matchIndex q = (s.nodes c).matchIndex q
  commit : (s.nodes c).commitIndex ≤ (s'.nodes c).commitIndex
  peer_term : (s'.nodes p).currentTerm ≤ (s'.nodes c).currentTerm

theorem Serves.trans {p : Int} (h : Serves c p s s') (h' : Serves c p s' u) : Serves c p s u where
  others := fun j hc hp => (h'.others j hc hp).trans (h.others j hc hp)
  leads := h'.leads
  term := h'.term.trans h.term
  log := h'.log.trans h.log
  matched := fun q hq => (h'.matched q hq).trans (h.matched q hq)
  commit := h.commit.trans h'.commit
  peer_term := h'.peer_term

/-- Looking for an entry to commit does not lower the commit index. -/
theorem RaftNode.le_advanceLoop {r r' : RaftNode} : ∀ {n : ℕ} {N : Int},
    advanceLoop n N r = some r' → r.commitIndex ≤ r'.commitIndex := by
  intro n
  induction n with
  | zero =>
    intro N h
    obtain rfl := Option.some.inj h
    exact le_refl _
  | succ n ih =>
    intro N h
    rw [advanceLoop] at h
    split at h
    next hN =>
      obtain ⟨entry, _, h⟩ := Option.bind_eq_some_iff.mp h
      split at h
      · exact ih h
      · split at h
        · rw [applyLoop_commitIndex h]
          exact le_of_lt hN
        · exact ih h
    next =>
      obtain rfl := Option.some.inj h
      exact le_refl _

theorem RaftNode.le_handleAppendReply {r r' : RaftNode} {peerID : Int} {args : AppendEntriesArgs}
    {reply : AppendEntriesReply} (h : r.handleAppendReply peerID args reply = some r') :
    r.commitIndex ≤ r'.commitIndex := by
  rcases handleAppendReply_cases h with rfl | ⟨_, rfl⟩ | ⟨_, _, _, hrun⟩ | ⟨_, rfl⟩
  · exact le_refl _
  · exact le_refl _
  · exact le_advanceLoop (r := r.acknowledge peerID _) hrun
  · exact le_refl _

/-- A peer that takes a request follows the commit index in it. -/
theorem Link.round_commit {p : Int} {l l' : Link} (hround : l.round p = some (l', true))
    (hlt : l.leader.commitIndex < l'.peer.log.length) :
    l.leader.commitIndex ≤ l'.peer.commitIndex := by
  obtain ⟨args, reply, hbeat, hanswer, _, hok⟩ := Link.round_inv hround
  obtain ⟨args', heq, _, _, hcommit, _⟩ := heartbeatFor_eq hbeat
  obtain ⟨_, rfl⟩ := Packet.appendRequest.inj heq
  rcases appendEntries_inv hanswer with
    ⟨_, _, rfl⟩ | ⟨_, rfl⟩ | ⟨_, _, prev, log, _, _, _, hrun⟩
  · cases hok
  · cases hok
  · have hlog : l'.peer.log = log := (commits_followCommit hrun).keepsLog.log
    rw [← hcommit] at hlt ⊢
    exact le_followCommit hrun (by rw [← hlog]; exact hlt)

section Rounds

variable {p : Int} (hids : (-1 : Int) ∉ cfg.ids) (hc : c ∈ cfg.ids) (hcQ : c ∈ Q)
  (hp : p ∈ cfg.peers c) (hpQ : p ∈ Q)

include hids hc hcQ hp hpQ

/-- **One round** backs off by one entry, or brings the peer in step and lets it know what is
    committed. -/
theorem serve_round (hs : Reachable cfg s) (hlead : (s.nodes c).role = .leader)
    (halive : (s.nodes c).killed = false)
    (hterm : (s.nodes p).currentTerm ≤ (s.nodes c).currentTerm) :
    ∃ s', Within cfg Q s s' ∧ Serves c p s s' ∧
      ((¬ (s.nodes c).log <+: (s.nodes p).log ∧
          (s'.nodes c).nextIndex p = (s.nodes c).nextIndex p - 1) ∨
        ((s'.nodes c).log <+: (s'.nodes p).log ∧
          (s'.nodes c).matchIndex p = ((s'.nodes c).log.length : Int) - 1 ∧
          (s.nodes c).commitIndex ≤ (s'.nodes p).commitIndex)) := by
  obtain ⟨acts, hreached⟩ := hs
  have hne : p ≠ c := ((mem_peers hc).mp hp).1
  have hready := Link.ready_of_reached hids hreached hc hlead hp hterm
  -- the round of the link between the two nodes, carried over to the cluster
  obtain ⟨l, ok, hround, hlog, hcase⟩ := hready.round
  obtain ⟨s', hwithin, hnodes⟩ := exchange (clusterOk_of_reached hreached) hc hp hcQ hpQ hlead
    halive hround
  have hleader : s'.nodes c = l.leader := by rw [hnodes]; exact Cluster.setNode_nodes_self _ c _
  have hpeer : s'.nodes p = l.peer := by
    rw [hnodes, Cluster.setNode_nodes_of_ne _ hne]
    exact Cluster.setNode_nodes_self _ p _
  have hready' : Link.Ready p l := by
    rcases hcase with ⟨_, h, _⟩ | ⟨_, h, _⟩
    · exact h
    · exact h.toReady
  obtain ⟨args, reply, _, _, hreply, _⟩ := Link.round_inv hround
  refine ⟨s', hwithin, ⟨fun j hjc hjp => ?_, ?_, ?_, ?_, fun q hq => ?_, ?_, ?_⟩, ?_⟩
  · rw [hnodes, Cluster.setNode_nodes_of_ne _ hjc]
    exact Cluster.setNode_nodes_of_ne _ hjp
  · rw [hleader]; exact hready'.leads
  · rw [hleader]; exact ((settles_handleAppendReply hreply).leader hready'.leads).2
  · rw [hleader]; exact hlog
  · rw [hleader]; exact handleAppendReply_matchIndex hreply hq
  · rw [hleader]; exact le_handleAppendReply hreply
  · rw [hleader, hpeer]; exact hready'.term_le
  · rw [hleader, hpeer]
    rcases hcase with ⟨_, _, hnext, hnot⟩ | ⟨rfl, hstep, _⟩
    · exact .inl ⟨hnot, hnext⟩
    · refine .inr ⟨hstep.stored, hstep.matched, Link.round_commit hround ?_⟩
      -- the leader's commit index is inside its log, and the peer now holds all of that log
      obtain ⟨a, counted, hsim⟩ := exists_sim hids hreached
      have hbounds := ((hsim.nodes c hc).commit_bounds hsim.ok).2
      have hlen := hstep.stored.length_le
      rw [hlog] at hlen
      show (s.nodes c).commitIndex < l.peer.log.length
      have hlen' : (s.nodes c).log.length ≤ l.peer.log.length := hlen
      omega

/-- **Rounds with a peer** bring it in step. -/
theorem catch_up : ∀ {k : ℕ} {s : Cluster}, Reachable cfg s → (s.nodes c).role = .leader →
    (s.nodes c).killed = false → (s.nodes p).currentTerm ≤ (s.nodes c).currentTerm →
    (s.nodes c).nextIndex p ≤ k → ∃ s', Within cfg Q s s' ∧ Serves c p s s' ∧
      (s'.nodes c).log <+: (s'.nodes p).log ∧
      (s'.nodes c).matchIndex p = ((s'.nodes c).log.length : Int) - 1 := by
  intro k
  induction k with
  | zero =>
    intro s hs hlead _ hterm hk
    obtain ⟨acts, hs⟩ := hs
    have hpos := (Link.ready_of_reached hids hs hc hlead hp hterm).next_pos
    have : (s.nodes c).nextIndex p ≤ 0 := by exact_mod_cast hk
    have hpos' : 1 ≤ (s.nodes c).nextIndex p := hpos
    omega
  | succ k ih =>
    intro s hs hlead halive hterm hk
    obtain ⟨s₁, hwithin, hserves, ⟨_, hnext⟩ | ⟨hstored, hmatched, _⟩⟩ :=
      serve_round hids hc hcQ hp hpQ hs hlead halive hterm
    · obtain ⟨s', hwithin', hserves', hrest⟩ := ih (hwithin.reachable hs) hserves.leads
        ((hwithin.killed c).trans halive) hserves.peer_term (by push_cast at hk; omega)
      exact ⟨s', hwithin.trans hwithin', hserves.trans hserves', hrest⟩
    · exact ⟨s₁, hwithin, hserves, hstored, hmatched⟩

end Rounds

/-! ### Rounds with all peers -/

/-- A leader that is not killed, in a term no earlier than those of the nodes in `Q`. -/
structure Presides (cfg : Config) (Q : Finset Int) (c : Int) (s : Cluster) : Prop where
  reachable : Reachable cfg s
  leads : (s.nodes c).role = .leader
  alive : (s.nodes c).killed = false
  term_le : ∀ q ∈ Q, (s.nodes q).currentTerm ≤ (s.nodes c).currentTerm

theorem Presides.serves {p : Int} (h : Presides cfg Q c s) (hwithin : Within cfg Q s s')
    (hserves : Serves c p s s') : Presides cfg Q c s' where
  reachable := hwithin.reachable h.reachable
  leads := hserves.leads
  alive := (hwithin.killed c).trans h.alive
  term_le := by
    intro q hq
    by_cases hqc : q = c
    · rw [hqc]
    · by_cases hqp : q = p
      · rw [hqp]; exact hserves.peer_term
      · rw [hserves.others q hqc hqp, hserves.term]; exact h.term_le q hq

/-- **One peer after the other.**  What a leader can do for each of its peers, without undoing it
    for the others, it can do for all. -/
theorem serve_all (P R : Int → Cluster → Prop)
    (hserve : ∀ {q s}, q ∈ cfg.peers c → q ∈ Q → Presides cfg Q c s → P q s →
      ∃ s', Within cfg Q s s' ∧ Serves c q s s' ∧ R q s')
    (hpre : ∀ {p q s s'}, q ≠ c → q ≠ p → Serves c p s s' → P q s → P q s')
    (hpost : ∀ {p q s s'}, q ≠ c → q ≠ p → Serves c p s s' → R q s → R q s')
    (hc : c ∈ cfg.ids) : ∀ {rest : List Int} {s : Cluster}, rest.Nodup →
      (∀ q ∈ rest, q ∈ cfg.peers c ∧ q ∈ Q) → Presides cfg Q c s → (∀ q ∈ rest, P q s) →
      ∃ s', Within cfg Q s s' ∧ Presides cfg Q c s' ∧ (s'.nodes c).log = (s.nodes c).log ∧
        (s'.nodes c).currentTerm = (s.nodes c).currentTerm ∧
        (s.nodes c).commitIndex ≤ (s'.nodes c).commitIndex ∧
        (∀ q, q ≠ c → q ∉ rest → R q s → R q s') ∧ ∀ q ∈ rest, R q s' := by
  intro rest
  induction rest with
  | nil =>
    intro s _ _ h _
    exact ⟨s, Within.refl cfg Q s, h, rfl, rfl, le_refl _, fun _ _ _ hq => hq, by simp⟩
  | cons p rest ih =>
    intro s hnodup hmem h hready
    obtain ⟨hp, hnodup⟩ := List.nodup_cons.mp hnodup
    obtain ⟨hpeer, hpQ⟩ := hmem p List.mem_cons_self
    obtain ⟨s₁, hwithin, hserves, hdone⟩ := hserve hpeer hpQ h (hready p List.mem_cons_self)
    have hne : ∀ q ∈ rest, q ≠ c ∧ q ≠ p := fun q hq =>
      ⟨((mem_peers hc).mp (hmem q (List.mem_cons_of_mem p hq)).1).1, fun heq => hp (heq ▸ hq)⟩
    obtain ⟨s', hwithin', h', hlog, hterm, hcommit, hothers, hrest⟩ := ih hnodup
      (fun q hq => hmem q (List.mem_cons_of_mem p hq)) (h.serves hwithin hserves)
      (fun q hq => hpre (hne q hq).1 (hne q hq).2 hserves (hready q (List.mem_cons_of_mem p hq)))
    refine ⟨s', hwithin.trans hwithin', h', hlog.trans hserves.log, hterm.trans hserves.term,
      hserves.commit.trans hcommit, fun q hqc hq hpost' => ?_, fun q hq => ?_⟩
    · rw [List.mem_cons, not_or] at hq
      obtain ⟨hqp, hq⟩ := hq
      exact hothers q hqc hq (hpost hqc hqp hserves hpost')
    · rcases List.mem_cons.mp hq with rfl | hq
      · exact hothers q ((mem_peers hc).mp hpeer).1 hp hdone
      · exact hrest q hq

/-- What the leader has of a peer in step with it. -/
def Stored (c q : Int) (s : Cluster) : Prop :=
  (s.nodes c).log <+: (s.nodes q).log ∧
    (s.nodes c).matchIndex q = ((s.nodes c).log.length : Int) - 1

theorem Serves.stored {p q : Int} (h : Serves c p s s') (hqc : q ≠ c) (hqp : q ≠ p)
    (hq : Stored c q s) : Stored c q s' := by
  unfold Stored
  rw [h.others q hqc hqp, h.log, h.matched q hqp]
  exact hq

/-- The nodes of `Q` that a leader has to serve. -/
theorem peers_of_mem (hQ : Q ⊆ cfg.ids.toFinset) (hc : c ∈ cfg.ids) :
    ∀ q ∈ (Q.erase c).toList, q ∈ cfg.peers c ∧ q ∈ Q := by
  intro q hq
  obtain ⟨hne, hqQ⟩ := Finset.mem_erase.mp (Finset.mem_toList.mp hq)
  exact ⟨(mem_peers hc).mpr ⟨hne, List.mem_toFinset.mp (hQ hqQ)⟩, hqQ⟩

/-- **All in step.**  A leader can bring all nodes of `Q` in step. -/
theorem all_in_step (hids : (-1 : Int) ∉ cfg.ids) (hQ : Q ⊆ cfg.ids.toFinset) (hcQ : c ∈ Q)
    (h : Presides cfg Q c s) :
    ∃ s', Within cfg Q s s' ∧ Presides cfg Q c s' ∧ (s'.nodes c).log = (s.nodes c).log ∧
      (s'.nodes c).currentTerm = (s.nodes c).currentTerm ∧
      ∀ q ∈ Q, q ≠ c → Stored c q s' := by
  have hc : c ∈ cfg.ids := List.mem_toFinset.mp (hQ hcQ)
  have hserve : ∀ {q : Int} {s : Cluster}, q ∈ cfg.peers c → q ∈ Q → Presides cfg Q c s →
      ∃ s', Within cfg Q s s' ∧ Serves c q s s' ∧ Stored c q s' := by
    intro q s hq hqQ h
    exact catch_up hids hc hcQ hq hqQ (k := ((s.nodes c).nextIndex q).toNat) h.reachable h.leads
      h.alive (h.term_le q hqQ) (Int.self_le_toNat _)
  obtain ⟨s', hwithin, h', hlog, hterm, _, _, hstored⟩ := serve_all (fun _ _ => True) (Stored c)
    (fun hq hqQ h _ => hserve hq hqQ h) (fun _ _ _ _ => trivial)
    (fun hqc hqp hserves => hserves.stored hqc hqp) hc (Finset.nodup_toList (Q.erase c))
    (peers_of_mem hQ hc) h (fun _ _ => trivial)
  exact ⟨s', hwithin, h', hlog, hterm, fun q hq hqc =>
    hstored q (Finset.mem_toList.mpr (Finset.mem_erase.mpr ⟨hqc, hq⟩))⟩

/-- **All know.**  A leader can let all nodes of `Q` that are in step know what it has
    committed. -/
theorem all_know (hids : (-1 : Int) ∉ cfg.ids) (hQ : Q ⊆ cfg.ids.toFinset) (hcQ : c ∈ Q)
    (h : Presides cfg Q c s) (hstored : ∀ q ∈ Q, q ≠ c → Stored c q s) {N : Int}
    (hN : N ≤ (s.nodes c).commitIndex) :
    ∃ s', Within cfg Q s s' ∧ (s'.nodes c).role = .leader ∧
      (s'.nodes c).log = (s.nodes c).log ∧
      ∀ q ∈ Q, (s.nodes c).log <+: (s'.nodes q).log ∧ N ≤ (s'.nodes q).commitIndex := by
  have hc : c ∈ cfg.ids := List.mem_toFinset.mp (hQ hcQ)
  have hserve : ∀ {q : Int} {s : Cluster}, q ∈ cfg.peers c → q ∈ Q → Presides cfg Q c s →
      Stored c q s ∧ N ≤ (s.nodes c).commitIndex → ∃ s', Within cfg Q s s' ∧ Serves c q s s' ∧
        (s'.nodes c).log <+: (s'.nodes q).log ∧ N ≤ (s'.nodes q).commitIndex := by
    intro q s hq hqQ h hpre
    obtain ⟨s', hwithin, hserves, ⟨hnot, _⟩ | ⟨hlog, _, hcommit⟩⟩ := serve_round hids hc hcQ hq
      hqQ h.reachable h.leads h.alive (h.term_le q hqQ)
    · exact absurd hpre.1.1 hnot
    · exact ⟨s', hwithin, hserves, hlog, hpre.2.trans hcommit⟩
  obtain ⟨s', hwithin, h', hlog, _, hcommit, _, hknow⟩ := serve_all
    (fun q s => Stored c q s ∧ N ≤ (s.nodes c).commitIndex)
    (fun q s => (s.nodes c).log <+: (s.nodes q).log ∧ N ≤ (s.nodes q).commitIndex) hserve
    (fun hqc hqp hserves hpre => ⟨hserves.stored hqc hqp hpre.1, hpre.2.trans hserves.commit⟩)
    (fun hqc hqp hserves hpost => by rwa [hserves.others _ hqc hqp, hserves.log]) hc
    (Finset.nodup_toList (Q.erase c)) (peers_of_mem hQ hc) h
    (fun q hq => by
      obtain ⟨hqc, hqQ⟩ := Finset.mem_erase.mp (Finset.mem_toList.mp hq)
      exact ⟨hstored q hqQ hqc, hN⟩)
  refine ⟨s', hwithin, h'.leads, hlog, fun q hq => ?_⟩
  by_cases hqc : q = c
  · rw [hqc, hlog]
    exact ⟨List.prefix_rfl, hN.trans hcommit⟩
  · have hq' := hknow q (Finset.mem_toList.mpr (Finset.mem_erase.mpr ⟨hqc, hq⟩))
    rwa [hlog] at hq'

/-! ### Commitment -/

/-- In a cluster of more than one, no leader has overlooked a majority. -/
private theorem swept_of_reached (hids : (-1 : Int) ∉ cfg.ids) (htwo : 2 ≤ cfg.ids.length)
    (hs : Reached cfg acts s) :
    ∀ id ∈ cfg.ids, (s.nodes id).role = .leader → (s.nodes id).Swept := by
  refine Run.Reached.invariant (I := fun _ (u : Cluster) => ∀ id ∈ cfg.ids,
    (u.nodes id).role = .leader → (u.nodes id).Swept) (fun id _ hlead => by cases hlead) ?_ hs
  intro acts u act u' hu hswept hstep
  obtain ⟨a, counted, hsim⟩ := exists_sim hids hu
  refine swept_step hsim ?_ hswept hstep
  rintro id key value tombstone rfl _ hnone
  cases Cluster.step_takes hstep with
  | submit hid =>
    have hlen := peers_length hid
    rw [hnone, List.toFinset_card_of_nodup cfg.nodup, List.length_nil] at hlen
    omega

/-- **With a majority in step** the leader has committed its log, if the last entry is of its
    term. -/
theorem committed_of_stored (hids : (-1 : Int) ∉ cfg.ids) (htwo : 2 ≤ cfg.ids.length)
    (hs : Reached cfg acts s) (hQ : Majority cfg.ids.toFinset Q) (hcQ : c ∈ Q)
    (hlead : (s.nodes c).role = .leader) (hstored : ∀ q ∈ Q, q ≠ c → Stored c q s) {N : ℕ}
    {e : RaftLogEntry} (he : (s.nodes c).log[N]? = some e)
    (hterm : e.term = (s.nodes c).currentTerm) : (N : Int) ≤ (s.nodes c).commitIndex := by
  have hc : c ∈ cfg.ids := List.mem_toFinset.mp (hQ.1 hcQ)
  have hpeers := ((clusterOk_of_reached hs).nodes c).peers_eq
  have hN := (List.getElem?_eq_some_iff.mp he).1
  by_contra hlt
  have hfew := swept_of_reached hids htwo hs c hc hlead N e he hterm (by omega)
  -- all of `Q` but the leader itself have acknowledged position `N`
  have hsub : (Q.erase c).card ≤
      (s.nodes c).peers.countP fun p => decide ((s.nodes c).matchIndex p ≥ N) := by
    rw [List.countP_eq_length_filter, hpeers, ← Finset.length_toList]
    apply List.Subperm.length_le
    apply List.subperm_of_subset (Finset.nodup_toList _)
    intro q hq
    obtain ⟨hqc, hqQ⟩ := Finset.mem_erase.mp (Finset.mem_toList.mp hq)
    refine List.mem_filter.mpr ⟨(peers_of_mem hQ.1 hc q hq).1, decide_eq_true ?_⟩
    rw [(hstored q hqQ hqc).2]
    omega
  have hcard := hQ.2
  have hpos : 0 < Q.card := Finset.card_pos.mpr ⟨c, hcQ⟩
  have hlen := peers_length hc
  rw [Finset.card_erase_of_mem hcQ] at hsub
  rw [RaftNode.matchCount, RaftNode.majorityNeeded, hpeers] at hfew
  rw [hpeers] at hsub
  omega

/-- What a node has committed is on its apply channel. -/
private theorem applyMsg_mem_of_committed (hids : (-1 : Int) ∉ cfg.ids) (hs : Reached cfg acts s)
    {q : Int} (hq : q ∈ cfg.ids) {N : ℕ} (hpos : 0 < N) {e : RaftLogEntry}
    (hentry : (s.nodes q).log[N]? = some e) (hcommit : (N : Int) ≤ (s.nodes q).commitIndex)
    {sent : List ApplyMsg} (hsent : (s.nodes q).applyCh = some sent) : applyMsg e ∈ sent := by
  obtain ⟨a, counted, hsim⟩ := exists_sim hids hs
  have hn := hsim.nodes q hq
  have happlied := hn.applied
  have hread := hn.delivered hsent (i := N - 1) (by omega)
  rw [Nat.sub_add_cancel hpos, hentry] at hread
  exact List.mem_of_getElem? hread

/-- A leader takes a command and leads on. -/
theorem Presides.submit (h : Presides cfg Q c s) (hc : c ∈ cfg.ids) (hs : Reached cfg acts s)
    (key value : Bytes) (tombstone : Bool) :
    let r := { s.nodes c with
      log := (s.nodes c).log ++ [(s.nodes c).newEntry key value tombstone] }
    ∃ sent,
      (s.nodes c).submit key value tombstone =
        some (r, (((s.nodes c).log.length : Int), (s.nodes c).currentTerm, true), sent) ∧
      Reached cfg (acts ++ [.submit c key value tombstone]) ((s.setNode c r).send sent) ∧
      Presides cfg Q c ((s.setNode c r).send sent) := by
  intro r
  obtain ⟨r', res, sent, hrun, _⟩ :=
    ((clusterOk_of_reached hs).nodes c).submit key value tombstone
  obtain ⟨hno, _⟩ | ⟨_, rfl, rfl, _⟩ := submit_cases hrun
  · exact absurd h.leads hno
  have hstep : s.step cfg (.submit c key value tombstone) = .ok ((s.setNode c r).send sent) := by
    rw [Cluster.step, if_pos hc, hrun]
    rfl
  have hs' := Run.reached_snoc.mpr ⟨s, hs, hstep⟩
  have hself : ((s.setNode c r).send sent).nodes c = r := Cluster.setNode_nodes_self s c r
  refine ⟨sent, hrun, hs', ⟨_, hs'⟩, by rw [hself]; exact h.leads, by rw [hself]; exact h.alive,
    fun q hq => ?_⟩
  rw [hself]
  by_cases hqc : q = c
  · rw [hqc, hself]
  · rw [show ((s.setNode c r).send sent).nodes q = s.nodes q from
      Cluster.setNode_nodes_of_ne r hqc]
    exact h.term_le q hq

/-- **A majority can always commit.**  In a cluster of more than one node, from every state a run
    reaches, and for every majority `Q` of nodes that are not killed, the run can go on, while
    no node outside `Q` does anything, so that some node of `Q` accepts the given command and
    all nodes of `Q` hold it, have committed it and have handed it to their storage engines. -/
theorem majority_commits (hids : (-1 : Int) ∉ cfg.ids) (htwo : 2 ≤ cfg.ids.length)
    (hs : Reached cfg acts s) (hQ : Majority cfg.ids.toFinset Q)
    (hlive : ∀ id ∈ Q, (s.nodes id).killed = false) (key value : Bytes) (tombstone : Bool) :
    ∃ more s' e j, Reached cfg (acts ++ more) s' ∧ (∀ id ∉ Q, s'.nodes id = s.nodes id) ∧
      acts.length ≤ j ∧ Submitted cfg (acts ++ more) j e ∧
      e.key = key ∧ e.value = value ∧ e.tombstone = tombstone ∧
      ∀ q ∈ Q, Slice.get (s'.nodes q).log e.index = some e ∧
        e.index ≤ (s'.nodes q).commitIndex ∧
        ∀ sent, (s'.nodes q).applyCh = some sent → applyMsg e ∈ sent := by
  -- a leader
  obtain ⟨s₁, c, hwithin₁, hcQ, hlead₁, hterm₁⟩ :=
    exists_leader htwo (clusterOk_of_reached hs) hQ hlive
  obtain ⟨more₁, hs₁⟩ := hwithin₁.reached hs
  have hc : c ∈ cfg.ids := List.mem_toFinset.mp (hQ.1 hcQ)
  have hpresides₁ : Presides cfg Q c s₁ :=
    ⟨⟨_, hs₁⟩, hlead₁, (hwithin₁.killed c).trans (hlive c hcQ), hterm₁⟩
  -- takes the command
  obtain ⟨sent, hrun, hs₂, hpresides⟩ := hpresides₁.submit hc hs₁ key value tombstone
  let e := (s₁.nodes c).newEntry key value tombstone
  let s₂ := (s₁.setNode c
    { s₁.nodes c with log := (s₁.nodes c).log ++ [e] }).send sent
  have hnode₂ : s₂.nodes c = { s₁.nodes c with log := (s₁.nodes c).log ++ [e] } :=
    Cluster.setNode_nodes_self s₁ c _
  -- brings all in step, by which it is committed, and lets all know
  obtain ⟨s₃, hwithin₃, hpresides₃, hlog₃, hterm₃, hstored⟩ := all_in_step hids hQ.1 hcQ hpresides
  obtain ⟨more₃, hs₃⟩ := hwithin₃.reached hs₂
  let N := (s₁.nodes c).log.length
  have he₃ : (s₃.nodes c).log[N]? = some e := by
    rw [hlog₃, hnode₂]
    exact List.getElem?_concat_length
  have hcommit := committed_of_stored hids htwo hs₃ hQ hcQ hpresides₃.leads hstored he₃
    (by rw [hterm₃, hnode₂]; rfl)
  obtain ⟨s₄, hwithin₄, _, _, hknow⟩ := all_know hids hQ.1 hcQ hpresides₃ hstored hcommit
  obtain ⟨more₄, hs₄⟩ := hwithin₄.reached hs₃
  have hassoc : acts ++ more₁ ++ [.submit c key value tombstone] ++ more₃ ++ more₄ =
      acts ++ (more₁ ++ [.submit c key value tombstone] ++ more₃ ++ more₄) := by
    simp only [List.append_assoc]
  rw [hassoc] at hs₄
  refine ⟨_, s₄, e, (acts ++ more₁).length, hs₄, fun id hid => ?_, ?_, ?_, rfl, rfl, rfl,
    fun q hq => ?_⟩
  · rw [hwithin₄.nodes_eq hid, hwithin₃.nodes_eq hid]
    rw [show s₂.nodes id = s₁.nodes id from
      Cluster.setNode_nodes_of_ne _ (fun heq => hid (heq ▸ hcQ)), hwithin₁.nodes_eq hid]
  · rw [List.length_append]; omega
  · refine ⟨c, s₁, _, sent, ?_, hc, ?_, hrun⟩
    · rw [← hassoc]
      simp [e, newEntry]
    · rw [← hassoc, List.append_assoc, List.append_assoc, List.take_left]
      exact hs₁
  · obtain ⟨hheld, hcommitted⟩ := hknow q hq
    have heq : (s₄.nodes q).log[N]? = some e := Replog.getElem?_of_begins hheld he₃
    have hpos : 0 < N := ((clusterOk_of_reached hs₁).nodes c).log.length_pos
    refine ⟨?_, hcommitted, fun out hout => ?_⟩
    · show Slice.get _ (N : Int) = _
      rw [Slice.get_natCast]
      exact heq
    · exact applyMsg_mem_of_committed hids hs₄ (List.mem_toFinset.mp (hQ.1 hq)) hpos heq
        hcommitted hout

/-- Of three nodes, node 0 has been elected and has failed; the other two go on. -/
theorem majority_commits_trio : ∃ more s' e j,
    Reached trio ([.electionTimeout 0, .deliver 0, .deliver 1, .kill 0] ++ more) s' ∧
    (s'.nodes 0).role = .leader ∧ (s'.nodes 0).log.length = 1 ∧ 4 ≤ j ∧
    Submitted trio ([.electionTimeout 0, .deliver 0, .deliver 1, .kill 0] ++ more) j e ∧
    e.key = [7] ∧ ∀ q, q = 1 ∨ q = 2 → e.index ≤ (s'.nodes q).commitIndex := by
  obtain ⟨s, hs, hview⟩ := Run.exists_reached (Cluster.step trio) (Cluster.initial trio)
    [.electionTimeout 0, .deliver 0, .deliver 1, .kill 0]
    (fun s => ((s.nodes 0).role, (s.nodes 0).log.length, (s.nodes 1).killed, (s.nodes 2).killed))
    (.leader, 1, false, false) (by decide)
  simp only [Prod.mk.injEq] at hview
  obtain ⟨hrole, hlen, hone, htwo⟩ := hview
  obtain ⟨more, s', e, j, hs', houtside, hj, hsubmitted, hkey, _, _, hall⟩ :=
    majority_commits (Q := {1, 2}) (by decide) (by decide) hs ⟨by decide, by decide⟩ (by
      intro id hid
      rcases Finset.mem_insert.mp hid with rfl | hid
      · exact hone
      · rw [Finset.mem_singleton.mp hid]; exact htwo) [7] [9] false
  refine ⟨more, s', e, j, hs', ?_, ?_, hj, hsubmitted, hkey, fun q hq => (hall q ?_).2.1⟩
  · rw [houtside 0 (by decide)]; exact hrole
  · rw [houtside 0 (by decide)]; exact hlen
  · simpa using hq

end Hallownest.Consensus
