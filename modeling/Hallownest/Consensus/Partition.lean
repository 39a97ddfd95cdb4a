import Hallownest.Consensus.Commitment
import Hallownest.Consensus.Indexing
import Hallownest.Consensus.Receipts

namespace Hallownest.Consensus

open Cluster (Reached)
open Replog (Majority)

/-!
# Consensus — a part of the cluster that is cut off

A leader returns a receipt for a command as soon as it is in its own log.  If the leader is cut
off from most of the cluster, the command stays in the logs of those it can reach.

* `Cluster.step_log`, `Cluster.step_requests` — where an entry of a log or of a request in flight
  comes from;
* `Withheld` — an entry that no node outside a part of the cluster has, nor will be sent by one;
* `cut_off_commits_nothing` — what is submitted to a part of at most half of the nodes that is cut
  off is committed by nobody.
-/

variable {cfg : Config} {s s' v : Cluster} {acts : List Action} {act : Action} {M : Finset Int}
  {e : RaftLogEntry}

namespace Cluster

/-- An entry of a log was in it before, or it is the entry of a command that was just submitted, or
    it was in the append request that has just arrived. -/
theorem step_log (h : s.step cfg act = .ok s') {j : Int} (he : e ∈ (s'.nodes j).log) :
    e ∈ (s.nodes j).log ∨
    (∃ key value tombstone, act = .submit j key value tombstone ∧ j ∈ cfg.ids ∧
      (s.nodes j).role = .leader ∧ e = (s.nodes j).newEntry key value tombstone) ∨
    ∃ i args, act = .deliver i ∧ s.net[i]? = some (.appendRequest j args) ∧
      e ∈ args.entries := by
  -- the steps that leave the log of the node they change
  have hkeep : ∀ {id : Int} {r : RaftNode}, r.log = (s.nodes id).log →
      e ∈ ((s.setNode id r).nodes j).log → e ∈ (s.nodes j).log := by
    intro id r hlog hmem
    by_cases hj : j = id
    · subst hj
      rwa [setNode_nodes_self, hlog] at hmem
    · rwa [setNode_nodes_of_ne r hj] at hmem
  cases step_takes h with
  | electionTimeout _ _ hrun => exact Or.inl (hkeep (RaftNode.keepsLog_startElection hrun).log he)
  | heartbeatTick _ _ => exact Or.inl he
  | @submit id key value tombstone r res sent hid hrun =>
    by_cases hj : j = id
    · subst hj
      replace he : e ∈ ((s.setNode j r).nodes j).log := he
      rw [setNode_nodes_self] at he
      rcases RaftNode.submit_cases hrun with ⟨_, rfl, _⟩ | ⟨hlead, rfl, _⟩
      · exact Or.inl he
      · rcases List.mem_append.mp he with hold | hnew
        · exact Or.inl hold
        · exact Or.inr (Or.inl ⟨key, value, tombstone, rfl, hid, hlead,
            List.mem_singleton.mp hnew⟩)
    · replace he : e ∈ ((s.setNode id r).nodes j).log := he
      rw [setNode_nodes_of_ne r hj] at he
      exact Or.inl he
  | voteRequest _ hrun => exact Or.inl (hkeep (RaftNode.keepsLog_requestVote hrun).log he)
  | voteReply _ hrun => exact Or.inl (hkeep (RaftNode.keepsLog_handleVoteReply hrun).log he)
  | @appendRequest i peer args r reply hp hrun =>
    by_cases hj : j = peer
    · subst hj
      replace he : e ∈ (((s.take i).setNode j r).nodes j).log := he
      rw [setNode_nodes_self] at he
      rcases RaftNode.appendEntries_cases hrun with ⟨rfl, _⟩ | rfl | ⟨log, hlog, ci, la, more, rfl⟩
      · exact Or.inl (by simpa using he)
      · exact Or.inl (by simpa using he)
      · rcases RaftNode.mem_appendNew hlog e he with hold | hnew
        · exact Or.inl hold
        · exact Or.inr (Or.inr ⟨i, args, rfl, hp, hnew⟩)
    · replace he : e ∈ (((s.take i).setNode peer r).nodes j).log := he
      rw [setNode_nodes_of_ne r hj] at he
      exact Or.inl he
  | appendReply _ hrun => exact Or.inl (hkeep (RaftNode.keepsLog_handleAppendReply hrun).log he)
  | lose => exact Or.inl he
  | kill =>
    refine Or.inl (hkeep ?_ he)
    rfl

/-- An append request in flight was so before, or it quotes the log of its sender. -/
theorem step_requests (hok : ClusterOk cfg s) (h : s.step cfg act = .ok s') {peer : Int}
    {args : AppendEntriesArgs} (hmem : .appendRequest peer args ∈ s'.net) :
    .appendRequest peer args ∈ s.net ∨ ∀ e ∈ args.entries, e ∈ (s'.nodes args.leaderID).log := by
  -- a node that quotes its log
  have hquote : ∀ {id : Int} {r : RaftNode} {sent : List Packet}, r.id = id →
      (∀ q ∈ sent, r.Quotes q) → .appendRequest peer args ∈ sent →
      ∀ e ∈ args.entries, e ∈ ((s.setNode id r).nodes args.leaderID).log := by
    intro id r sent hid hsent hnew e he
    obtain ⟨peer', args', heq, hleader, _, hentries⟩ := hsent _ hnew
    cases heq
    rw [hleader, hid, setNode_nodes_self]
    exact hentries e he
  have hid := fun j => (hok.nodes j).id_eq
  cases step_takes h with
  | @electionTimeout id r votes sent _ _ hrun =>
    rcases List.mem_append.mp hmem with hold | hnew
    · exact Or.inl hold
    · rcases RaftNode.startElection_cases hrun with ⟨_, ⟨_, rfl, hcast⟩ | ⟨_, _, _, _, rfl⟩⟩
      · exact Or.inr (hquote (hid id) (RaftNode.quotes_broadcast hcast) hnew)
      · simp at hnew
  | @heartbeatTick id sent _ hrun =>
    rcases List.mem_append.mp hmem with hold | hnew
    · exact Or.inl hold
    · right
      have := hquote (hid id) (RaftNode.quotes_broadcast hrun) hnew
      rwa [setNode_self] at this
  | @submit id _ _ _ r _ sent _ hrun =>
    rcases List.mem_append.mp hmem with hold | hnew
    · exact Or.inl hold
    · rcases RaftNode.submit_cases hrun with ⟨_, _, _, rfl⟩ | ⟨_, rfl, _, hcast⟩
      · simp at hnew
      · exact Or.inr (hquote (hid id) (RaftNode.quotes_broadcast hcast) hnew)
  | voteRequest _ _ =>
    rcases mem_take_send _ hmem with hold | hnew
    · exact Or.inl hold
    · simp at hnew
  | @voteReply i _ args' _ r _ sent _ hrun =>
    rcases mem_take_send _ hmem with hold | hnew
    · exact Or.inl hold
    · rcases RaftNode.handleVoteReply_cases hrun with ⟨_, _, rfl⟩ | ⟨_, _, _, rfl⟩ |
        ⟨_, _, _, _, ⟨_, rfl⟩ | ⟨_, rfl, hcast⟩⟩
      · simp at hnew
      · simp at hnew
      · simp at hnew
      · exact Or.inr (hquote (hid _) (RaftNode.quotes_broadcast hcast) hnew)
  | appendRequest _ _ =>
    rcases mem_take_send _ hmem with hold | hnew
    · exact Or.inl hold
    · simp at hnew
  | appendReply _ _ => exact Or.inl (List.mem_of_mem_eraseIdx hmem)
  | lose => exact Or.inl (List.mem_of_mem_eraseIdx hmem)
  | kill => exact Or.inl hmem

end Cluster

/-! ### An entry that does not get out -/

/-- No node outside `M` has the entry, and no request of such a node carries it. -/
structure Withheld (M : Finset Int) (e : RaftLogEntry) (s : Cluster) : Prop where
  logs : ∀ q ∉ M, e ∉ (s.nodes q).log
  requests : ∀ peer args, .appendRequest peer args ∈ s.net → args.leaderID ∉ M →
    e ∉ args.entries

/-- **One step**, in which no append request gets out of `M` and the entry is not submitted
    outside. -/
theorem Withheld.step (h : Withheld M e s) (hok : ClusterOk cfg s)
    (hstep : s.step cfg act = .ok s')
    (hcut : ∀ i peer args, act = .deliver i → s.net[i]? = some (.appendRequest peer args) →
      args.leaderID ∈ M → peer ∈ M)
    (hnew : ∀ j key value tombstone, act = .submit j key value tombstone → j ∈ cfg.ids →
      (s.nodes j).role = .leader → e = (s.nodes j).newEntry key value tombstone → j ∈ M) :
    Withheld M e s' := by
  have hlogs : ∀ q ∉ M, e ∉ (s'.nodes q).log := by
    intro q hq he
    rcases Cluster.step_log hstep he with hold | ⟨key, value, tombstone, hact, hid, hlead, heq⟩ |
      ⟨i, args, hact, hp, hentry⟩
    · exact h.logs q hq hold
    · exact hq (hnew q key value tombstone hact hid hlead heq)
    · -- the request came from outside too
      have hleader : args.leaderID ∉ M := fun hM => hq (hcut i q args hact hp hM)
      exact h.requests q args (List.mem_of_getElem? hp) hleader hentry
  refine ⟨hlogs, fun peer args hmem hleader hentry => ?_⟩
  rcases Cluster.step_requests hok hstep hmem with hold | hquoted
  · exact h.requests peer args hold hleader hentry
  · exact hlogs _ hleader (hquoted e hentry)

theorem Submitted.of_take {i j : ℕ} (h : Submitted cfg (acts.take i) j e) (hji : j < i) :
    Submitted cfg acts j e := by
  obtain ⟨id, u, r, sent, hact, hid, hu, hrun⟩ := h
  rw [List.getElem?_take_of_lt hji] at hact
  rw [List.take_take, min_eq_left hji.le] at hu
  exact ⟨id, u, r, sent, hact, hid, hu, hrun⟩

/-- A submitted entry is new: it was in no log and in no request before. -/
theorem Submitted.not_known (hids : (-1 : Int) ∉ cfg.ids) (hv : Reached cfg acts v) {i j : ℕ}
    (h : Submitted cfg acts j e) (hij : i ≤ j) : ¬ Known cfg (acts.take i) e := by
  rintro (hdummy | ⟨j', hj', h'⟩)
  · -- the dummy is no new entry of a leader
    obtain ⟨id, u, _, hu, _, _, hentry⟩ := h.leads
    have hpos := ((clusterOk_of_reached hu).nodes id).log.length_pos
    have hindex : e.index = ((u.nodes id).log.length : Int) := by
      rw [hentry]
      rfl
    rw [hdummy, show dummyEntry.index = 0 from rfl] at hindex
    omega
  · have hlt : j' < i := by
      rw [List.length_take] at hj'
      omega
    have := submitted_unique hids hv (h'.of_take hlt) h rfl rfl
    omega

/-- The receipt of a step in which a leader accepts a command. -/
theorem submitted_of_step {m : ℕ} {id : Int} {key value : Bytes} {tombstone : Bool}
    (hact : acts[m]? = some (.submit id key value tombstone)) (hid : id ∈ cfg.ids)
    (hs : Reached cfg (acts.take m) s) (hlead : (s.nodes id).role = .leader)
    (hstep : s.step cfg (.submit id key value tombstone) = .ok s') :
    Submitted cfg acts m ((s.nodes id).newEntry key value tombstone) := by
  cases Cluster.step_takes hstep with
  | submit _ hrun =>
    rcases RaftNode.submit_cases hrun with ⟨hno, _⟩ | ⟨_, _, rfl, _⟩
    · exact absurd hlead hno
    · exact ⟨id, s, _, _, hact, hid, hs, hrun⟩

/-- What is submitted inside `M` from the cut on does not get out. -/
theorem Submitted.withheld (hids : (-1 : Int) ∉ cfg.ids) (hv : Reached cfg acts v) {i j : ℕ}
    (hij : i ≤ j)
    (hcut : ∀ k u n peer args, i ≤ k → Reached cfg (acts.take k) u → acts[k]? = some (.deliver n) →
      u.net[n]? = some (.appendRequest peer args) → args.leaderID ∈ M → peer ∈ M)
    (hsub : Submitted cfg acts j e)
    (hby : ∀ id key value tombstone, acts[j]? = some (.submit id key value tombstone) → id ∈ M) :
    Withheld M e v := by
  obtain ⟨_, u, _, hu, hsubmit, _, _⟩ := hsub.leads
  have hlt : j < acts.length := (List.getElem?_eq_some_iff.mp hsubmit).1
  have hend : Reached cfg (acts.take acts.length) v := by rwa [List.take_length]
  have hknown := allKnown_of_reached hu
  have hnew := hsub.not_known hids hv (le_refl j)
  refine Run.Reached.onward (I := fun x => Withheld M e x) hlt.le hu
    ⟨fun q _ hmem => hnew (hknown.logs q e hmem),
      fun peer args hmem _ hentry => hnew (hknown.requests hmem e hentry)⟩ ?_ hend
  intro m x act x' hjm _ hact hx hI hstep
  refine hI.step (clusterOk_of_reached hx) hstep ?_ ?_
  · rintro n peer args rfl hp hleader
    exact hcut m x n peer args (hij.trans hjm) hx hact hp hleader
  · rintro id key value tombstone rfl hid hlead rfl
    -- the entry is submitted only once
    obtain rfl := submitted_unique hids hv (submitted_of_step hact hid hx hlead hstep) hsub rfl rfl
    exact hby id key value tombstone hact

/-- **Cut off, nothing is committed.**  From some moment of a run on, let no append request get out
    of a set of at most half of the nodes.  A command that is submitted to one of them from then on
    gets a receipt, but no node has committed it, and it has come out of no channel. -/
theorem cut_off_commits_nothing (hids : (-1 : Int) ∉ cfg.ids) (hv : Reached cfg acts v)
    (hM : M.card ≤ cfg.ids.length / 2) {i j : ℕ} (hij : i ≤ j)
    (hcut : ∀ k u n peer args, i ≤ k → Reached cfg (acts.take k) u → acts[k]? = some (.deliver n) →
      u.net[n]? = some (.appendRequest peer args) → args.leaderID ∈ M → peer ∈ M)
    (hsub : Submitted cfg acts j e)
    (hby : ∀ id key value tombstone, acts[j]? = some (.submit id key value tombstone) → id ∈ M)
    {d : Int} (hd : d ∈ cfg.ids) :
    (e.index ≤ (v.nodes d).commitIndex → Slice.get (v.nodes d).log e.index ≠ some e) ∧
      ∀ sent, (v.nodes d).applyCh = some sent → RaftNode.applyMsg e ∉ sent := by
  have hwithheld := hsub.withheld hids hv hij hcut hby
  obtain ⟨a, _, hsim⟩ := exists_sim hids hv
  -- a majority holds what is committed, and one of them is outside
  have hheld : ∀ n : ℕ, (n : Int) ≤ (v.nodes d).commitIndex → (v.nodes d).log[n]? ≠ some e := by
    intro n hn hget
    obtain ⟨Q, hQ, hheld⟩ := hsim.ok.inv.commit_quorum (quorum_ids cfg) d
    have hcard : M.card < Q.card := by
      have := hQ.2
      rw [List.toFinset_card_of_nodup cfg.nodup] at this
      omega
    obtain ⟨b, hb, hout⟩ := Finset.exists_mem_notMem_of_card_lt_card hcard
    have hn' := hsim.nodes d hd
    have hcommit := hn'.commit
    have hbounds := hn'.commit_bounds hsim.ok
    have hpre := hheld b hb
    rw [hn'.log, (hsim.nodes b (by simpa using hQ.1 hb)).log] at hpre
    have hsame := getElem?_eq_of_take hpre (i := n) (by omega) (by omega)
    exact hwithheld.logs b hout (List.mem_of_getElem? (hsame.trans hget))
  refine ⟨fun hle hget => ?_, fun sent hsent hmem => ?_⟩
  · obtain ⟨hpos, hread⟩ := Slice.get_eq_some.mp hget
    exact hheld _ (by omega) hread
  · obtain ⟨n, hn⟩ := List.mem_iff_getElem?.mp hmem
    obtain ⟨hle, e', hread, heq⟩ := hsim.delivered_entry hd hsent hn
    obtain rfl : e = e' := by
      cases e
      cases e'
      simpa [RaftNode.applyMsg] using heq
    exact hheld _ hle hread

/-- Of three nodes, node 0 is elected and cut off.  It accepts a command; then node 1 is elected by
    node 2 and commits another one at the same index. -/
def cutOff : List Action :=
  [.electionTimeout 0, .deliver 0, .deliver 1, .submit 0 [7] [9] false, .electionTimeout 1,
    .deliver 6, .deliver 6, .submit 1 [8] [1] false, .deliver 9, .deliver 9]

/-- An append request that is about to be delivered is one of node 1. -/
def fromOne (act : Option Action) (s : Cluster) : Bool :=
  match act with
  | some (.deliver n) =>
    match s.net[n]? with
    | some (.appendRequest _ args) => decide (args.leaderID = 1)
    | _ => true
  | _ => true

/-- The first command has a receipt and is committed nowhere. -/
theorem cut_off_commits_nothing_trio : ∃ v, Reached trio cutOff v ∧
    Submitted trio cutOff 3 ⟨1, 1, [7], [9], false⟩ ∧ (v.nodes 1).commitIndex = 1 ∧
    ∀ d ∈ trio.ids, (1 ≤ (v.nodes d).commitIndex →
      Slice.get (v.nodes d).log 1 ≠ some ⟨1, 1, [7], [9], false⟩) ∧
      ∀ sent, (v.nodes d).applyCh = some sent → ⟨true, 1, 1, [7], [9], false⟩ ∉ sent := by
  obtain ⟨v, hv, hcommit⟩ := Run.exists_reached (Cluster.step trio) (Cluster.initial trio) cutOff
    (fun s => (s.nodes 1).commitIndex) 1 (by decide)
  have hsub : Submitted trio cutOff 3 ⟨1, 1, [7], [9], false⟩ :=
    submitted_of_map 0 rfl (by decide) (by decide)
  have hview : ∀ k < 10, 3 ≤ k → ((cutOff.take k).foldlM (Cluster.step trio)
      (Cluster.initial trio)).map (fromOne cutOff[k]?) = .ok true := by
    decide
  refine ⟨v, hv, hsub, hcommit, fun d hd => ?_⟩
  refine cut_off_commits_nothing (M := {0}) (by decide) hv (by decide) (le_refl 3) ?_ hsub ?_ hd
  · intro k u n peer args hk hu hact hp hleader
    have hlt : k < 10 := (List.getElem?_eq_some_iff.mp hact).1
    have hone := Run.Reached.view_eq hu (hview k hlt hk)
    simp only [fromOne, hact, hp, decide_eq_true_eq] at hone
    rw [hone] at hleader
    cases Finset.mem_singleton.mp hleader
  · intro id key value tombstone hact
    cases hact
    exact Finset.mem_singleton_self 0

end Hallownest.Consensus
