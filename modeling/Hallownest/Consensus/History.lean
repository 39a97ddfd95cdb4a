import Hallownest.Consensus.Safety

namespace Hallownest.Consensus

open Replog (Steps Extends)
open Cluster (Reached)

/-!
# Consensus — what a run does not undo

Two facts about two moments of one run.  A leader only appends to its log, and what it appends
is of its term (`leader_append_only`).  A node that has granted a vote stands by it: no other
candidate of the term gets its vote, and it remembers the vote for as long as it is in the
term (`vote_kept`).
-/

variable {cfg : Config} {s u : Cluster} {acts : List Action}

/-- The node with the state `r` has led term `t` with the log `log`: it is in a later term, or has
    stepped down, or leads and has appended entries of the term. -/
def LedWith (log : List RaftLogEntry) (t : Int) (r : RaftNode) : Prop :=
  t < r.currentTerm ∨ r.currentTerm = t ∧
    (r.role = .follower ∨
      r.role = .leader ∧ ∃ es, r.log = log ++ es ∧ ∀ e ∈ es, e.term = t)

theorem LedWith.step {log : List RaftLogEntry} {t a : Int} {act : Action}
    (h : LedWith log t (s.nodes a)) (hstep : s.step cfg act = .ok u) :
    LedWith log t (u.nodes a) := by
  obtain ⟨hle, hrole⟩ := Cluster.step_climbs hstep a
  rcases h with hlater | ⟨hterm, h⟩
  · exact Or.inl (hlater.trans_le hle)
  rcases hle.lt_or_eq with hlt | heq
  · exact Or.inl (hterm ▸ hlt)
  refine Or.inr ⟨heq.symm.trans hterm, ?_⟩
  rcases hrole with hlt | hsame | hdown | ⟨hcandidate, _⟩
  · exact absurd heq hlt.ne
  · -- the node keeps its role
    rcases h with hfollower | ⟨hleader, es, hes, hown⟩
    · exact Or.inl (hsame.trans hfollower)
    · obtain ⟨more, hmore, hnew⟩ := Cluster.step_appends hstep hleader (hsame.trans hleader)
      refine Or.inr ⟨hsame.trans hleader, es ++ more, by rw [hmore, hes, List.append_assoc], ?_⟩
      rw [hterm] at hnew
      exact List.forall_mem_append.mpr ⟨hown, hnew⟩
  · exact Or.inl hdown
  · -- it is a candidate no more
    rcases h with hfollower | ⟨hleader, _⟩
    · rw [hcandidate] at hfollower; cases hfollower
    · rw [hcandidate] at hleader; cases hleader

/-- **Leaders only append.**  A node that leads a term at two moments of a run holds, at the
    later one, the log it held at the earlier one, followed by entries of that term. -/
theorem leader_append_only {i j : ℕ} (hij : i ≤ j) (hs : Reached cfg (acts.take i) s)
    (hu : Reached cfg (acts.take j) u) {a : Int} (hls : (s.nodes a).role = .leader)
    (hlu : (u.nodes a).role = .leader)
    (hterm : (s.nodes a).currentTerm = (u.nodes a).currentTerm) :
    ∃ es, (u.nodes a).log = (s.nodes a).log ++ es ∧
      ∀ e ∈ es, e.term = (s.nodes a).currentTerm := by
  have hled : LedWith (s.nodes a).log (s.nodes a).currentTerm (u.nodes a) := by
    refine Run.Reached.onward
      (I := fun v => LedWith (s.nodes a).log (s.nodes a).currentTerm (v.nodes a)) hij hs ?_
      (fun _ _ _ _ hI hstep => hI.step hstep) hu
    exact Or.inr ⟨rfl, Or.inr ⟨hls, [], by simp, by simp⟩⟩
  rcases hled with hlater | ⟨_, hfollower | ⟨_, hes⟩⟩
  · exact absurd hterm hlater.ne
  · rw [hlu] at hfollower; cases hfollower
  · exact hes

/-- In the run `pairRun` node 0 leads term 1 before and after it takes a command. -/
theorem leader_append_only_pair : ∃ s u es, Reached pair (pairRun.take 3) s ∧
    Reached pair (pairRun.take 4) u ∧ (u.nodes 0).log = (s.nodes 0).log ++ es ∧
    (u.nodes 0).log.length = 2 ∧ ∀ e ∈ es, e.term = (s.nodes 0).currentTerm := by
  obtain ⟨s, hs, hview⟩ := Run.exists_reached (Cluster.step pair) (Cluster.initial pair)
    (pairRun.take 3) (fun s => ((s.nodes 0).role, (s.nodes 0).currentTerm)) (.leader, 1) (by decide)
  obtain ⟨u, hu, hview'⟩ := Run.exists_reached (Cluster.step pair) (Cluster.initial pair)
    (pairRun.take 4) (fun s => ((s.nodes 0).role, (s.nodes 0).currentTerm, (s.nodes 0).log.length))
    (.leader, 1, 2) (by decide)
  rw [Prod.mk.injEq] at hview
  rw [Prod.mk.injEq, Prod.mk.injEq] at hview'
  obtain ⟨hrole, hterm⟩ := hview
  obtain ⟨hrole', hterm', hlen⟩ := hview'
  obtain ⟨es, hes, hown⟩ := leader_append_only (by decide : 3 ≤ 4) hs hu hrole hrole'
    (hterm.trans hterm'.symm)
  exact ⟨s, u, es, hs, hu, hes, hlen, hown⟩

/-- **A vote stands.**  Once node `p` has answered a vote request with a vote, every vote it
    gives in that term, earlier or later in the run, is for the same candidate; and from then on
    the node is in that term and remembers its vote, or is in a later term. -/
theorem vote_kept (hids : (-1 : Int) ∉ cfg.ids) {i j : ℕ} (hs : Reached cfg (acts.take i) s)
    (hu : Reached cfg (acts.take j) u) {p : Int} {args : RequestVoteArgs}
    {reply : RequestVoteReply} (hp : .voteReply p args reply ∈ s.net)
    (hgranted : reply.voteGranted = true) :
    (∀ args' reply', .voteReply p args' reply' ∈ u.net → reply'.voteGranted = true →
      args'.term = args.term → args'.candidateID = args.candidateID) ∧
    (i ≤ j → (u.nodes p).currentTerm = args.term ∧ (u.nodes p).votedFor = args.candidateID ∨
      args.term < (u.nodes p).currentTerm) := by
  obtain ⟨f, hf, hrun⟩ := exists_abstract_run hids acts
  obtain ⟨_, hsim⟩ := hf i s hs
  obtain ⟨_, hsim'⟩ := hf j u hu
  obtain ⟨hargs, hvote⟩ := hsim.packets _ hp
  specialize hvote hgranted
  constructor
  · intro args' reply' hp' hgranted' hterm
    have hvote' := (hsim'.packets _ hp').2 hgranted'
    rw [hterm] at hvote'
    -- both votes are in the history of the later of the two moments
    rcases le_total i j with hij | hji
    · have hext := (Steps.inv_extends hsim.ok.inv (hrun hij)).2
      exact Option.some.inj (hvote'.symm.trans (hext.vote hvote))
    · have hext := (Steps.inv_extends hsim'.ok.inv (hrun hji)).2
      exact Option.some.inj ((hext.vote hvote').symm.trans hvote)
  · intro hij
    have hpid : p ∈ cfg.ids := ((mem_peers hargs.sender).mp hargs.peer).2
    have hn := hsim'.nodes p hpid
    have hkept := (Steps.inv_extends hsim.ok.inv (hrun hij)).2.vote hvote
    have hle : args.term ≤ (u.nodes p).currentTerm := by
      rw [← hn.term]
      exact hsim'.ok.inv.vote_le hkept
    rcases hle.eq_or_lt with heq | hlt
    · refine .inl ⟨heq.symm, ?_⟩
      rw [hn.vote, ← heq, hkept, Option.getD_some]
    · exact .inr hlt

/-- In the run `pairRun` node 1 has voted for node 0 after two steps and remembers it after
    eight. -/
theorem vote_kept_pair : ∃ s u args reply, Reached pair (pairRun.take 2) s ∧
    Reached pair (pairRun.take 8) u ∧ .voteReply 1 args reply ∈ s.net ∧
    reply.voteGranted = true ∧
    ((u.nodes 1).currentTerm = args.term ∧ (u.nodes 1).votedFor = args.candidateID ∨
      args.term < (u.nodes 1).currentTerm) := by
  obtain ⟨s, hs, hview⟩ := Run.exists_reached (Cluster.step pair) (Cluster.initial pair)
    (pairRun.take 2) (fun s => s.net) [.voteReply 1 ⟨1, 0, 0, 0⟩ ⟨1, true⟩] (by decide)
  obtain ⟨u, hu, _⟩ := Run.exists_reached (Cluster.step pair) (Cluster.initial pair)
    (pairRun.take 8) (fun s => (s.nodes 0).role) .leader (by decide)
  have hmem : Packet.voteReply 1 ⟨1, 0, 0, 0⟩ ⟨1, true⟩ ∈ s.net := by
    rw [hview]
    exact List.mem_singleton_self _
  exact ⟨s, u, _, _, hs, hu, hmem, rfl,
    (vote_kept (by decide) hs hu hmem rfl).2 (by decide : 2 ≤ 8)⟩

end Hallownest.Consensus
