import Hallownest.Consensus.Availability
import Hallownest.Consensus.MockNetwork
import Hallownest.Consensus.Stability

namespace Hallownest.Consensus

open Cluster (Reached TermsLe step_takes)
open Replog (Majority)

/-!
# Consensus — uncontested elections

`MockNetwork`, the transport the repository comes with, calls the handler of the other node and
hands the reply back: it reorders requests and replies but loses none.  Over such a network a
candidate with an up-to-date log wins, in whatever order the packets arrive, unless another node
stands.

* `RaftNode.Willing` — a node that votes for a candidate whenever the request arrives;
* `Polling` — the votes a candidate has and those that are on their way make a majority;
* `uncontested_election` — when no vote is on its way any more, the candidate leads.
-/

variable {cfg : Config} {s s' u v : Cluster} {acts : List Action} {act : Action} {Q : Finset Int}
  {c : Int} {args : RequestVoteArgs}

namespace RaftNode

variable {r r' : RaftNode}

/-- A node that votes for the sender of a request, or has done so. -/
def Willing (r : RaftNode) (args : RequestVoteArgs) : Prop :=
  r.currentTerm ≤ args.term ∧
  (r.currentTerm = args.term → r.votedFor = -1 ∨ r.votedFor = args.candidateID) ∧
  ∃ last, Slice.get r.log ((r.log.length : Int) - 1) = some last ∧
    (args.lastLogTerm > last.term ∨
      args.lastLogTerm = last.term ∧ args.lastLogIndex ≥ (r.log.length : Int) - 1)

theorem Yields.willing (h : r.Yields args) : r.Willing args :=
  ⟨h.1.le, fun heq => absurd heq h.1.ne, h.2⟩

/-- It votes, and would do so again. -/
theorem Willing.requestVote (h : r.Willing args) {reply : RequestVoteReply}
    (hrun : r.requestVote args = some (r', reply)) :
    reply.voteGranted = true ∧ r'.Willing args := by
  obtain ⟨hle, hfree, last, hlast, hup⟩ := h
  rcases hle.lt_or_eq with hlt | heq
  · have hyields : r.Yields args := ⟨hlt, last, hlast, hup⟩
    obtain ⟨rfl, rfl⟩ := Prod.mk.inj (Option.some.inj (hrun.symm.trans hyields.requestVote))
    exact ⟨rfl, le_refl _, fun _ => Or.inr rfl, last, hlast, hup⟩
  · have hsame : (if args.term > r.currentTerm then r.becomeFollower args.term else r) = r :=
      if_neg (by omega)
    rw [RaftNode.requestVote, hsame] at hrun
    simp only [← heq, lt_irrefl, if_false, hlast, Option.bind_eq_bind, Option.bind_some] at hrun
    rw [if_pos ⟨hfree heq, hup⟩] at hrun
    obtain ⟨rfl, rfl⟩ := Prod.mk.inj (Option.some.inj hrun)
    exact ⟨rfl, hle, fun _ => Or.inr rfl, last, hlast, hup⟩

/-- A vote reply at the candidate of the election. -/
private theorem handleVoteReply_current {reply : RequestVoteReply} {votes votes' : Int}
    {sent : List Packet} (hrole : r.role = .candidate) (hterm : r.currentTerm = args.term)
    (hle : reply.term ≤ args.term)
    (h : r.handleVoteReply args reply votes = some (r', votes', sent)) :
    (reply.voteGranted = false ∧ r' = r ∧ votes' = votes ∧ sent = []) ∨
    (reply.voteGranted = true ∧ votes' = votes + 1 ∧
      (votes' < r.majorityNeeded ∧ r' = r ∧ sent = [] ∨
        votes' ≥ r.majorityNeeded ∧ r' = r.elected)) := by
  rw [handleVoteReply, if_pos ⟨hrole, hterm⟩, if_neg (by omega)] at h
  split at h
  next hgranted =>
    right
    split at h
    next hmaj =>
      obtain ⟨⟨r₁, sent₁⟩, hlead, hrest⟩ := Option.bind_eq_some_iff.mp h
      obtain ⟨rfl, rfl, rfl⟩ : _ ∧ _ ∧ _ := by simpa using hrest
      exact ⟨hgranted, rfl, Or.inr ⟨hmaj, (becomeLeader_eq hlead).1⟩⟩
    next hfew =>
      obtain ⟨rfl, rfl, rfl⟩ : _ ∧ _ ∧ _ := by simpa using h
      exact ⟨hgranted, rfl, Or.inl ⟨by omega, rfl, rfl⟩⟩
  next hrefused =>
    obtain ⟨rfl, rfl, rfl⟩ : _ ∧ _ ∧ _ := by simpa using h
    exact Or.inl ⟨by simpa using hrefused, rfl, rfl, rfl⟩

/-- An election timeout, with the requests that are sent. -/
theorem startElection_eq {last : RaftLogEntry} {votes : Int} {sent : List Packet}
    (hlast : Slice.get r.log ((r.log.length : Int) - 1) = some last)
    (h : r.startElection = some (r', votes, sent)) :
    votes = 1 ∧ (1 ≥ r.majorityNeeded ∧ r' = r.stands.elected ∨
      1 < r.majorityNeeded ∧ r' = r.stands ∧
        sent = r.peers.map fun p => .voteRequest p (r.stands.voteArgs last)) := by
  unfold startElection at h
  obtain ⟨last', hlast', h⟩ := Option.bind_eq_some_iff.mp h
  obtain rfl := Option.some.inj (hlast.symm.trans hlast')
  dsimp only at h
  split at h
  next hmaj =>
    obtain ⟨⟨r₁, sent₁⟩, hlead, h⟩ := Option.bind_eq_some_iff.mp h
    obtain ⟨rfl, rfl, rfl⟩ : _ ∧ _ ∧ _ := by simpa using h
    exact ⟨rfl, Or.inl ⟨hmaj, (becomeLeader_eq hlead).1⟩⟩
  next hfew =>
    obtain ⟨rfl, rfl, rfl⟩ : _ ∧ _ ∧ _ := by simpa using h
    exact ⟨rfl, Or.inr ⟨not_le.mp hfew, rfl, rfl⟩⟩

/-- A vote request makes no leader. -/
private theorem requestVote_role {reply : RequestVoteReply}
    (h : r.requestVote args = some (r', reply)) (hlead : r'.role = .leader) :
    r.role = .leader := by
  have hcatch : (r.catchUp args.term).role = .leader → r.role = .leader := by
    rcases catchUp_cases r args.term with ⟨_, heq⟩ | ⟨_, heq⟩
    · rw [heq]
      intro h
      cases h
    · rw [heq]
      exact fun h => h
  rcases requestVote_cases h with ⟨rfl, _⟩ | ⟨rfl, _⟩
  · exact hcatch hlead
  · exact hcatch hlead

end RaftNode

/-- Steps without an election, over a network that loses nothing; commands go to `c` only. -/
def Calm (c : Int) : Action → Prop
  | .electionTimeout _ => False
  | .lose _ => False
  | .submit j _ _ _ => j = c
  | _ => True

/-- The packets of an election. -/
def Packet.isVote : Packet → Bool
  | .voteRequest _ _ => true
  | .voteReply _ _ _ => true
  | _ => false

/-- The packets that bring a vote: a request to one of `Q`, or a reply with a vote. -/
def Packet.brings (Q : Finset Int) : Packet → Bool
  | .voteRequest peer _ => decide (peer ∈ Q)
  | .voteReply _ _ reply => reply.voteGranted
  | _ => false

/-- The packets of the election for which `c` has sent `args`. -/
def Ballot (c : Int) (args : RequestVoteArgs) (q : Packet) : Prop :=
  ∃ p, p ≠ c ∧ (q = .voteRequest p args ∨ ∃ reply, q = .voteReply p args reply)

/-- The node leads the last term there is. -/
structure Heads (cfg : Config) (c : Int) (T : Int) (s : Cluster) : Prop where
  terms : TermsLe cfg s T
  leads : (s.nodes c).role = .leader
  term : (s.nodes c).currentTerm = T

/-- The candidate `c` stands in the last term there is.  Only packets of its election are in
    flight, nobody else sends any, and it will have a majority. -/
structure Polling (cfg : Config) (Q : Finset Int) (c : Int) (args : RequestVoteArgs)
    (s : Cluster) : Prop where
  terms : TermsLe cfg s args.term
  role : (s.nodes c).role = .candidate
  term : (s.nodes c).currentTerm = args.term
  others : ∀ p ∈ cfg.ids, p ≠ c → (s.nodes p).role = .leader → (s.nodes p).killed = true
  willing : ∀ q ∈ Q, q ≠ c → (s.nodes q).Willing args
  packets : ∀ q ∈ s.net, Ballot c args q
  few : s.votesReceived c args.term < (s.nodes c).majorityNeeded
  enough : (s.nodes c).majorityNeeded ≤
    s.votesReceived c args.term + (s.net.countP (Packet.brings Q) : ℕ)

/-! ### One step -/

/-- A leader of the last term stays one as long as nobody stands. -/
theorem Heads.step {T : Int} (hids : (-1 : Int) ∉ cfg.ids) (hc : c ∈ cfg.ids)
    (hs : Reached cfg acts s) (hact : ∀ id, act ≠ .electionTimeout id)
    (hstep : s.step cfg act = .ok s') (h : Heads cfg c T s) : Heads cfg c T s' := by
  have hterms := h.terms.step hs hact hstep
  have hterm : (s'.nodes c).currentTerm = T := by
    have hle := hterms.nodes c hc
    have hge := (Cluster.step_climbs hstep c).term_le
    rw [h.term] at hge
    omega
  refine ⟨hterms, ?_, hterm⟩
  have hlast : (acts ++ [act])[acts.length]? = some act := List.getElem?_concat_length
  have hbefore : Reached cfg ((acts ++ [act]).take acts.length) s := by
    rwa [List.take_left]
  obtain ⟨f, hf, hsteps⟩ := exists_abstract_run hids (acts ++ [act])
  obtain ⟨_, hsim⟩ := hf _ s hbefore
  obtain ⟨_, hsim'⟩ := hf _ s' (Run.Reached.succ hlast hbefore hstep)
  exact hsim.leads_on hsim' (hsteps (Nat.le_succ _)) hc h.leads (hterm.trans h.term.symm)

/-- A node other than the candidate comes to a state in which it votes if it did before. -/
theorem Polling.setNode (h : Polling cfg Q c args s) {p : Int} (hp : p ≠ c) {r : RaftNode}
    (hterms : TermsLe cfg s' args.term) (hnodes : s'.nodes = (s.setNode p r).nodes)
    (hlead : r.role = .leader → r.killed = true)
    (hwilling : p ∈ Q → r.Willing args)
    (hpackets : ∀ q ∈ s'.net, Ballot c args q)
    (hvotes : s'.votesReceived = s.votesReceived)
    (hcount : s.net.countP (Packet.brings Q) ≤ s'.net.countP (Packet.brings Q)) :
    Polling cfg Q c args s' := by
  have hsame : s'.nodes c = s.nodes c := by
    rw [hnodes]
    exact Cluster.setNode_nodes_of_ne r (Ne.symm hp)
  have henough := h.enough
  refine ⟨hterms, by rw [hsame]; exact h.role, by rw [hsame]; exact h.term, ?_, ?_, hpackets,
    by rw [hsame, hvotes]; exact h.few, by rw [hsame, hvotes]; omega⟩
  · intro j hj hne
    by_cases hjp : j = p
    · subst hjp
      rw [hnodes, Cluster.setNode_nodes_self]
      exact hlead
    · rw [hnodes, Cluster.setNode_nodes_of_ne r hjp]
      exact h.others j hj hne
  · intro j hj hne
    by_cases hjp : j = p
    · subst hjp
      rw [hnodes, Cluster.setNode_nodes_self]
      exact hwilling hj
    · rw [hnodes, Cluster.setNode_nodes_of_ne r hjp]
      exact h.willing j hj hne

/-- A vote is counted, or a packet brings none. -/
theorem Polling.count (h : Polling cfg Q c args s) (hterms : TermsLe cfg s' args.term)
    (hnodes : s'.nodes = s.nodes) (hpackets : ∀ q ∈ s'.net, Ballot c args q)
    (hfew : s'.votesReceived c args.term < (s.nodes c).majorityNeeded)
    (henough : (s.nodes c).majorityNeeded ≤
      s'.votesReceived c args.term + (s'.net.countP (Packet.brings Q) : ℕ)) :
    Polling cfg Q c args s' where
  terms := hterms
  role := by rw [hnodes]; exact h.role
  term := by rw [hnodes]; exact h.term
  others := by rw [hnodes]; exact h.others
  willing := by rw [hnodes]; exact h.willing
  packets := hpackets
  few := by rw [hnodes]; exact hfew
  enough := by rw [hnodes]; exact henough

/-- No leader is left to send heartbeats. -/
theorem Polling.no_heartbeat (h : Polling cfg Q c args s) {id : Int} :
    s.step cfg (.heartbeatTick id) ≠ .ok s' := by
  intro hstep
  rw [Cluster.step] at hstep
  split at hstep
  next hen =>
    obtain ⟨hid, halive, hlead⟩ := hen
    by_cases hne : id = c
    · rw [hne, h.role] at hlead
      cases hlead
    · rw [h.others id hid hne hlead] at halive
      cases halive
  next => cases hstep

/-- A node that is killed still votes. -/
theorem Polling.kill (h : Polling cfg Q c args s) {id : Int}
    (hterms : TermsLe cfg (s.setNode id { s.nodes id with killed := true }) args.term) :
    Polling cfg Q c args (s.setNode id { s.nodes id with killed := true }) := by
  by_cases hne : id = c
  · subst hne
    have hsame : ∀ j, j ≠ id →
        (s.setNode id { s.nodes id with killed := true }).nodes j = s.nodes j :=
      fun j hj => Cluster.setNode_nodes_of_ne _ hj
    have hself := Cluster.setNode_nodes_self s id { s.nodes id with killed := true }
    refine ⟨hterms, ?_, ?_, ?_, ?_, h.packets, ?_, ?_⟩
    · rw [hself]; exact h.role
    · rw [hself]; exact h.term
    · exact fun j hj hne => by rw [hsame j hne]; exact h.others j hj hne
    · exact fun j hj hne => by rw [hsame j hne]; exact h.willing j hj hne
    · rw [hself]; exact h.few
    · rw [hself]; exact h.enough
  · exact h.setNode hne hterms rfl (fun _ => rfl) (fun hQ => h.willing id hQ hne) h.packets rfl
      (le_refl _)

/-- The other packets of the election are still its packets. -/
theorem Polling.ballot_of_mem_eraseIdx (h : Polling cfg Q c args s) {i : ℕ} {q : Packet}
    (hq : q ∈ s.net.eraseIdx i) : Ballot c args q :=
  h.packets q (List.mem_of_mem_eraseIdx hq)

/-- A vote request arrives: what was to bring a vote brings one. -/
theorem Polling.voteRequest (hs : Reached cfg acts s) (h : Polling cfg Q c args s) {i : ℕ}
    {peer : Int} {args' : RequestVoteArgs} {r : RaftNode} {reply : RequestVoteReply}
    (hp : s.net[i]? = some (.voteRequest peer args'))
    (hrun : (s.nodes peer).requestVote args' = some (r, reply))
    (hterms : TermsLe cfg (((s.take i).setNode peer r).send [.voteReply peer args' reply])
      args.term) :
    Polling cfg Q c args (((s.take i).setNode peer r).send [.voteReply peer args' reply]) := by
  obtain ⟨p, hpc, hpacket⟩ := h.packets _ (List.mem_of_getElem? hp)
  obtain ⟨rfl, rfl⟩ : peer = p ∧ args' = args := by simpa using hpacket
  have hpid : peer ∈ cfg.ids := by
    obtain ⟨hcid, hpeer⟩ := addressed_of_reached hs _ (List.mem_of_getElem? hp)
    exact ((mem_peers hcid).mp hpeer).2
  refine h.setNode hpc hterms rfl ?_ ?_ ?_ rfl ?_
  · intro hlead
    rw [RaftNode.requestVote_killed hrun]
    exact h.others peer hpid hpc (RaftNode.requestVote_role hrun hlead)
  · exact fun hQ => ((h.willing peer hQ hpc).requestVote hrun).2
  · intro q hq
    rcases List.mem_append.mp hq with hq | hq
    · exact h.ballot_of_mem_eraseIdx hq
    · exact ⟨peer, hpc, Or.inr ⟨reply, List.mem_singleton.mp hq⟩⟩
  · have hvote : peer ∈ Q → reply.voteGranted = true :=
      fun hQ => ((h.willing peer hQ hpc).requestVote hrun).1
    have hcount := Lists.countP_eraseIdx (p := Packet.brings Q) hp
    simp only [Cluster.send_net, Cluster.setNode_net, Cluster.take_net, List.countP_append,
      List.countP_singleton]
    by_cases hQ : peer ∈ Q
    · simp only [Packet.brings, hQ, hvote hQ, decide_true, if_true] at hcount ⊢
      omega
    · simp only [Packet.brings, hQ, decide_false, Bool.false_eq_true, if_false] at hcount ⊢
      omega

/-- A vote reply arrives: its vote is counted, and may complete the majority. -/
theorem Polling.voteReply (hcand : args.candidateID = c) (h : Polling cfg Q c args s) {i : ℕ}
    {peer : Int} {args' : RequestVoteArgs} {reply : RequestVoteReply} {r : RaftNode} {votes : Int}
    {sent : List Packet} (hp : s.net[i]? = some (.voteReply peer args' reply))
    (hrun : (s.nodes args'.candidateID).handleVoteReply args' reply
      (s.votesReceived args'.candidateID args'.term) = some (r, votes, sent))
    (hs' : s' = (((s.take i).setNode args'.candidateID r).setVotes args'.candidateID args'.term
      votes).send sent)
    (hterms : TermsLe cfg s' args.term) :
    Polling cfg Q c args s' ∨ Heads cfg c args.term s' := by
  obtain ⟨p, hpc, hpacket⟩ := h.packets _ (List.mem_of_getElem? hp)
  obtain ⟨rfl, rfl⟩ : peer = p ∧ args' = args := by simpa using hpacket
  subst hcand hs'
  have hle : reply.term ≤ args'.term := h.terms.net _ (List.mem_of_getElem? hp)
  have hcount := Lists.countP_eraseIdx (p := Packet.brings Q) hp
  have hvotes : ∀ {t : Cluster} {votes : Int}, (t.setVotes args'.candidateID args'.term
      votes).votesReceived args'.candidateID args'.term = votes := if_pos ⟨rfl, rfl⟩
  have hnodes : ((s.take i).setNode args'.candidateID (s.nodes args'.candidateID)).nodes =
      (s.take i).nodes := congrArg Cluster.nodes (setNode_self (s.take i) _)
  have hfew := h.few
  have henough := h.enough
  rcases RaftNode.handleVoteReply_current h.role h.term hle hrun with
    ⟨hrefused, rfl, rfl, rfl⟩ | ⟨hgranted, rfl, ⟨hlt, rfl, rfl⟩ | ⟨hmaj, rfl⟩⟩
  · rw [send_nil] at hterms ⊢
    refine Or.inl (h.count hterms hnodes (fun q hq => h.ballot_of_mem_eraseIdx hq) ?_ ?_)
    · rw [hvotes]
      exact hfew
    · simp only [Packet.brings, hrefused, Bool.false_eq_true, if_false] at hcount
      rw [hvotes, Cluster.setVotes_net, Cluster.setNode_net, Cluster.take_net]
      omega
  · rw [send_nil] at hterms ⊢
    refine Or.inl (h.count hterms hnodes (fun q hq => h.ballot_of_mem_eraseIdx hq) ?_ ?_)
    · rw [hvotes]
      exact hlt
    · simp only [Packet.brings, hgranted, if_true] at hcount
      rw [hvotes, Cluster.setVotes_net, Cluster.setNode_net, Cluster.take_net]
      omega
  · refine Or.inr ⟨hterms, ?_, ?_⟩
    · simp only [Cluster.send_nodes, Cluster.setVotes_nodes, Cluster.setNode_nodes_self]
      rfl
    · simp only [Cluster.send_nodes, Cluster.setVotes_nodes, Cluster.setNode_nodes_self]
      exact h.term

/-- **One step** of an election: the votes go on to make a majority, or they have done so. -/
theorem Polling.step (hcand : args.candidateID = c) (hs : Reached cfg acts s)
    (h : Polling cfg Q c args s) (hcalm : Calm c act) (hstep : s.step cfg act = .ok s') :
    Polling cfg Q c args s' ∨ Heads cfg c args.term s' := by
  have hterms : TermsLe cfg s' args.term :=
    h.terms.step hs (fun id heq => by rw [heq] at hcalm; exact hcalm) hstep
  cases step_takes hstep with
  | electionTimeout _ _ _ => exact hcalm.elim
  | lose => exact hcalm.elim
  | heartbeatTick _ _ => exact absurd hstep h.no_heartbeat
  | submit _ hrun =>
    obtain rfl : _ = c := hcalm
    rcases RaftNode.submit_cases hrun with ⟨_, rfl, _, rfl⟩ | ⟨hlead, _⟩
    · rw [setNode_self, send_nil]
      exact Or.inl h
    · rw [h.role] at hlead
      cases hlead
  | kill => exact Or.inl (h.kill hterms)
  | voteRequest hp hrun => exact Or.inl (h.voteRequest hs hp hrun hterms)
  | voteReply hp hrun => exact h.voteReply hcand hp hrun rfl hterms
  | appendRequest hp _ =>
    obtain ⟨p, _, hpacket⟩ := h.packets _ (List.mem_of_getElem? hp)
    simp at hpacket
  | appendReply hp _ =>
    obtain ⟨p, _, hpacket⟩ := h.packets _ (List.mem_of_getElem? hp)
    simp at hpacket

/-! ### The whole election -/

/-- The members of a majority among the peers of a node. -/
theorem Majority.le_countP_peers (hQ : Majority cfg.ids.toFinset Q) (hc : c ∈ cfg.ids) :
    cfg.ids.toFinset.card / 2 ≤ (cfg.peers c).countP fun p => decide (p ∈ Q) := by
  have hsub : Q.erase c ⊆ ((cfg.peers c).filter fun p => decide (p ∈ Q)).toFinset := by
    intro q hq
    obtain ⟨hne, hmem⟩ := Finset.mem_erase.mp hq
    simp only [List.mem_toFinset, List.mem_filter, decide_eq_true_eq]
    exact ⟨(mem_peers hc).mpr ⟨hne, List.mem_toFinset.mp (hQ.1 hmem)⟩, hmem⟩
  have hcard := Finset.card_le_card hsub
  rw [List.toFinset_card_of_nodup ((peers_nodup hc).filter _), ← List.countP_eq_length_filter]
    at hcard
  have herase := Finset.pred_card_le_card_erase (s := Q) (a := c)
  have hhalf := hQ.2
  omega

/-- The election timeout of a node, in a quiet network. -/
theorem Polling.start (hc : c ∈ cfg.ids) (hs : Reached cfg acts s) (hquiet : s.net = [])
    (hlast : ∀ p ∈ cfg.ids, (s.nodes p).currentTerm ≤ (s.nodes c).currentTerm)
    (hothers : ∀ p ∈ cfg.ids, p ≠ c → (s.nodes p).role = .leader → (s.nodes p).killed = true)
    (hQ : Majority cfg.ids.toFinset Q) (hbest : ∀ q ∈ Q, (s.nodes q).rank ≤ (s.nodes c).rank)
    (hstep : s.step cfg (.electionTimeout c) = .ok u) :
    ∃ args : RequestVoteArgs, args.candidateID = c ∧
      args.term = (s.nodes c).currentTerm + 1 ∧
      (Polling cfg Q c args u ∨ Heads cfg c args.term u) := by
  have hok := clusterOk_of_reached hs
  have hpos : ∀ j, 0 < (s.nodes j).log.length := fun j => (hok.nodes j).log.length_pos
  obtain ⟨last, hentry, _⟩ := exists_last (hpos c)
  refine ⟨(s.nodes c).stands.voteArgs last, (hok.nodes c).id_eq, rfl, ?_⟩
  cases step_takes hstep with
  | @electionTimeout _ r votes sent _ _ hrun =>
    obtain ⟨rfl, hcase⟩ := RaftNode.startElection_eq hentry hrun
    have hterm : r.currentTerm = (s.nodes c).currentTerm + 1 := by
      rcases hcase with ⟨_, rfl⟩ | ⟨_, rfl, _⟩
      · rfl
      · rfl
    have hself : (((s.setNode c r).setVotes c r.currentTerm 1).send sent).nodes c = r := by simp
    have hsame : ∀ j, j ≠ c →
        (((s.setNode c r).setVotes c r.currentTerm 1).send sent).nodes j = s.nodes j :=
      fun j hj => Cluster.setNode_nodes_of_ne r hj
    -- the network was empty, so the only packets are the requests of this election
    have hterms : TermsLe cfg (((s.setNode c r).setVotes c r.currentTerm 1).send sent)
        ((s.nodes c).currentTerm + 1) := by
      refine ⟨fun j hj => ?_, fun q hq => ?_⟩
      · by_cases hjc : j = c
        · rw [hjc, hself, hterm]
        · rw [hsame j hjc]
          exact (hlast j hj).trans (by omega)
      · rw [Cluster.send_net, Cluster.setVotes_net, Cluster.setNode_net, hquiet,
          List.nil_append] at hq
        rw [RaftNode.startElection_term hrun q hq, hterm]
    -- a node without peers leads at once; any other has asked for votes and waits
    rcases hcase with ⟨_, rfl⟩ | ⟨hfew, rfl, rfl⟩
    · exact Or.inr ⟨hterms, by rw [hself]; rfl, by rw [hself]; rfl⟩
    · have hpeers := (hok.nodes c).peers_eq
      have hvotes : (((s.setNode c (s.nodes c).stands).setVotes c (s.nodes c).stands.currentTerm
          1).send ((s.nodes c).peers.map fun p => .voteRequest p
            ((s.nodes c).stands.voteArgs last))).votesReceived c
              ((s.nodes c).stands.voteArgs last).term = 1 := if_pos ⟨rfl, rfl⟩
      refine Or.inl ⟨hterms, by rw [hself]; rfl, by rw [hself]; rfl, ?_, ?_, ?_, ?_, ?_⟩
      · exact fun j hj hne => by rw [hsame j hne]; exact hothers j hj hne
      · intro q hq hne
        have hterm := hlast q (List.mem_toFinset.mp (hQ.1 hq))
        rw [hsame q hne]
        exact (yields_of_rank (r := (s.nodes c).stands) (hpos c) (hpos q)
          (Int.lt_add_one_of_le hterm) (hbest q hq) hentry).willing
      · intro q hq
        rw [Cluster.send_net, Cluster.setVotes_net, Cluster.setNode_net, hquiet,
          List.nil_append] at hq
        obtain ⟨p, hp, rfl⟩ := List.mem_map.mp hq
        rw [hpeers] at hp
        exact ⟨p, ((mem_peers hc).mp hp).1, Or.inl rfl⟩
      · rw [hself, hvotes]
        exact hfew
      -- its own vote and the requests to the rest of `Q` are enough for the majority it needs
      · have hcount := Majority.le_countP_peers hQ hc
        have hlen := peers_length hc
        rw [hself, hvotes, Cluster.send_net, Cluster.setVotes_net, Cluster.setNode_net, hquiet,
          List.nil_append, List.countP_map, hpeers]
        show ((s.nodes c).peers.length + 1 : Int) / 2 + 1 ≤
          1 + (((cfg.peers c).countP fun p => decide (p ∈ Q) : ℕ) : Int)
        rw [hpeers]
        omega

namespace Wired

/-- Steps in which nobody stands and commands go to `c` only. -/
def Calm (c : Int) : Wire → Prop
  | .electionTimeout _ => False
  | .submit j _ _ _ => j = c
  | _ => True

/-- The transport loses no packet once all nodes are registered. -/
private theorem action_calm {w : Wired} {x : Wire} {a : Action}
    (hall : ∀ p ∈ cfg.ids, p ∈ w.network.nodes) (hw : Cluster.Reached cfg acts w.cluster)
    (hx : Calm c x) (ha : w.action x = some a) : Consensus.Calm c a := by
  have hpeer : ∀ {id peer : Int}, id ∈ cfg.ids ∧ peer ∈ cfg.peers id → peer ∈ w.network.nodes :=
    fun h => hall _ ((mem_peers h.1).mp h.2).2
  cases x with
  | register id => cases ha
  | electionTimeout id => exact hx.elim
  | heartbeatTick id => cases ha; trivial
  | submit id key value tombstone => cases ha; exact hx
  | kill id => cases ha; trivial
  | handle i => cases ha; trivial
  | send i =>
    rw [action] at ha
    split at ha
    next peer args hq =>
      rw [if_pos (hpeer (addressed_of_reached hw _ (List.mem_of_getElem? hq)))] at ha
      cases ha
      trivial
    next peer args hq =>
      rw [if_pos (hpeer (addressed_of_reached hw _ (List.mem_of_getElem? hq)))] at ha
      cases ha
      trivial
    next => cases ha

/-- Of three nodes, node 1 stands.  The vote of node 2 makes it leader, and it sends heartbeats
    before the request reaches node 0. -/
def lateVote : List Wire :=
  [.register 0, .register 1, .register 2, .electionTimeout 1, .send 1, .handle 1,
    .heartbeatTick 1, .send 0, .handle 4]

end Wired

end Hallownest.Consensus
