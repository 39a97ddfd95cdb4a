import Hallownest.Consensus.Simulation

namespace Hallownest.Consensus

open Replog (Steps Extends Chosen Learnable)
open Cluster (Reached)

/-!
# Consensus — the safety properties of a cluster

The five safety properties of the protocol, for clusters of any size and every run.  Each is
a property of the abstract run (`exists_abstract_run`), read back through `NodeSim`.

The code marks a node that has not voted by `votedFor = -1`, so an id `-1` would let a node
vote twice in a term; the results are about clusters without that id, and `sentinelSplit`
shows a cluster with it in which two nodes lead the same term.
-/

variable {cfg : Config} {s u v : Cluster} {acts : List Action}

/-! ### Concrete runs -/

/-- Two nodes. -/
def pair : Config := Config.ofIds [0, 1] (by decide) (by decide)

/-- Three nodes. -/
def trio : Config := Config.ofIds [0, 1, 2] (by decide) (by decide)

/-- Node 0 is elected, replicates one command to node 1, commits it and says so. -/
def pairRun : List Action :=
  [.electionTimeout 0, .deliver 0, .deliver 0, .submit 0 [7] [9] false, .deliver 1, .deliver 1,
    .heartbeatTick 0, .deliver 1]

/-- Three nodes, one of which has the id that stands for no vote. -/
def sentinelTrio : Config := Config.ofIds [-1, 0, 1] (by decide) (by decide)

/-- Nodes -1 and 0 stand in term 1.  Node -1, which voted for itself, votes for node 0 as
    well; node 1 votes for node -1.  Both lead term 1, and each accepts a command. -/
def sentinelSplit : List Action :=
  [.electionTimeout (-1), .electionTimeout 0, .deliver 2, .deliver 1, .deliver 2, .deliver 2,
    .submit 0 [7] [9] false, .submit (-1) [8] [] true]

/-- Then node -1 acknowledges the command of node 0, against which it keeps its own one of
    the same term; node 0 commits, and node -1 goes on to lead term 2. -/
def sentinelTakeover : List Action :=
  sentinelSplit ++ [.deliver 6, .deliver 9, .electionTimeout (-1), .deliver 10, .deliver 10]

/-! ### Election safety -/

/-- **Election safety.**  Two nodes that lead the same term, at any two moments of a run, are
    the same node. -/
theorem leader_unique (hids : (-1 : Int) ∉ cfg.ids) {i j : ℕ}
    (hs : Reached cfg (acts.take i) s) (hu : Reached cfg (acts.take j) u) {a b : Int}
    (ha : a ∈ cfg.ids) (hb : b ∈ cfg.ids) (hla : (s.nodes a).role = .leader)
    (hlb : (u.nodes b).role = .leader)
    (hterm : (s.nodes a).currentTerm = (u.nodes b).currentTerm) : a = b := by
  obtain ⟨f, hf, hrun⟩ := exists_abstract_run hids acts
  obtain ⟨_, hsim⟩ := hf i s hs
  obtain ⟨_, hsim'⟩ := hf j u hu
  have hled := (hsim.nodes a ha).leader.mp hla
  have hled' := (hsim'.nodes b hb).leader.mp hlb
  rw [← hterm] at hled'
  -- the history of the earlier moment is part of the history of the later one
  rcases le_total i j with hij | hji
  · have hext := (Steps.inv_extends hsim.ok.inv (hrun hij)).2
    exact hsim'.ok.inv.led_unique (hext.led hled) hled'
  · have hext := (Steps.inv_extends hsim'.ok.inv (hrun hji)).2
    exact hsim.ok.inv.led_unique hled (hext.led hled')

/-- In the run `pairRun` node 0 leads term 1 after three and after eight steps. -/
theorem leader_unique_pair : ∃ s u, Reached pair (pairRun.take 3) s ∧
    Reached pair (pairRun.take 8) u ∧ (s.nodes 0).role = .leader ∧
    ∀ b ∈ pair.ids, (u.nodes b).role = .leader →
      (s.nodes 0).currentTerm = (u.nodes b).currentTerm → 0 = b := by
  obtain ⟨s, hs, hview⟩ := Run.exists_reached (Cluster.step pair) (Cluster.initial pair)
    (pairRun.take 3) (fun s => (s.nodes 0).role) .leader (by decide)
  obtain ⟨u, hu, _⟩ := Run.exists_reached (Cluster.step pair) (Cluster.initial pair)
    (pairRun.take 8) (fun s => (s.nodes 0).role) .leader (by decide)
  refine ⟨s, u, hs, hu, hview, fun b hb hlb hterm => ?_⟩
  exact leader_unique (by decide) hs hu (by decide) hb hview hlb hterm

/-! ### Log matching -/

/-- **Log matching.**  If two logs have entries of the same term at a position, they agree up
    to it; and if a log has, at the position of an entry of an append request in flight, an
    entry of the same term, it agrees with the request up to there. -/
theorem log_matching (hids : (-1 : Int) ∉ cfg.ids) (hs : Reached cfg acts s) :
    (∀ a ∈ cfg.ids, ∀ b ∈ cfg.ids, ∀ (i : ℕ) (e e' : RaftLogEntry),
      (s.nodes a).log[i]? = some e → (s.nodes b).log[i]? = some e' → e.term = e'.term →
        ∀ j ≤ i, (s.nodes a).log[j]? = (s.nodes b).log[j]?) ∧
    ∀ a ∈ cfg.ids, ∀ (peer : Int) (args : AppendEntriesArgs),
      Packet.appendRequest peer args ∈ s.net → ∀ (k : ℕ) (e e' : RaftLogEntry),
        Slice.get (s.nodes a).log (args.prevLogIndex + 1 + k) = some e →
        args.entries[k]? = some e' → e.term = e'.term →
          ∀ j ≤ k, Slice.get (s.nodes a).log (args.prevLogIndex + 1 + j) = args.entries[j]? := by
  obtain ⟨α, counted, hsim⟩ := exists_sim hids hs
  have hwf : ∀ a ∈ cfg.ids, Replog.WfLog (protocol cfg) α (s.nodes a).log := by
    intro a ha
    have := hsim.ok.inv.log_wf a
    rwa [(hsim.nodes a ha).log] at this
  constructor
  · intro a ha b hb i e e' he he' hterm j hj
    exact Replog.Inv.matching_read (hwf a ha) (hwf b hb) he he' hterm hj
  · intro a ha peer args hmem k e e' he he' hterm j hj
    obtain ⟨p, hargs⟩ : PacketOk cfg α (.appendRequest peer args) := hsim.packets _ hmem
    -- the entries of the request are the leader's from `p + 1` on
    have hread : ∀ {n : ℕ} {d : RaftLogEntry}, args.entries[n]? = some d →
        (α.lead args.term)[p + 1 + n]? = some d := by
      intro n d hd
      obtain ⟨hn, rfl⟩ := List.getElem?_eq_some_iff.mp hd
      rw [← List.getElem?_drop, hargs.entries.getElem hn, List.getElem?_eq_getElem]
    have hpos : ∀ n : ℕ, args.prevLogIndex + 1 + n = ((p + 1 + n : ℕ) : Int) := by
      intro n; rw [hargs.prev]; push_cast; rfl
    rw [hpos, Slice.get_natCast] at he ⊢
    have hlt : j < args.entries.length := by
      have := (List.getElem?_eq_some_iff.mp he').1; omega
    rw [List.getElem?_eq_getElem hlt]
    rw [Replog.Inv.matching_read (hwf a ha) (hsim.ok.inv.lead_wf hargs.led) he (hread he')
      hterm (show p + 1 + j ≤ p + 1 + k by omega)]
    exact hread (List.getElem?_eq_getElem hlt)

/-- In the run `pairRun` the two logs agree at position 1, hence up to it. -/
theorem log_matching_pair : ∃ s e e', Reached pair pairRun s ∧
    (s.nodes 0).log[1]? = some e ∧ (s.nodes 1).log[1]? = some e' ∧ e.term = e'.term ∧
    ∀ j ≤ 1, (s.nodes 0).log[j]? = (s.nodes 1).log[j]? := by
  obtain ⟨s, hs, hview⟩ := Run.exists_reached (Cluster.step pair) (Cluster.initial pair) pairRun
    (fun s => ((s.nodes 0).log[1]?, (s.nodes 1).log[1]?))
    ((some ⟨1, 1, [7], [9], false⟩, some ⟨1, 1, [7], [9], false⟩)) (by decide)
  obtain ⟨h0, h1⟩ := Prod.mk.inj hview
  exact ⟨s, _, _, hs, h0, h1, rfl,
    (log_matching (by decide) hs).1 0 (by decide) 1 (by decide) 1 _ _ h0 h1 rfl⟩

/-- With an id -1 log matching fails: two leaders of term 1 hold different commands at
    position 1. -/
theorem log_matching_fails_sentinel : ∃ s e e', Reached sentinelTrio sentinelSplit s ∧
    (s.nodes 0).log[1]? = some e ∧ (s.nodes (-1)).log[1]? = some e' ∧ e.term = e'.term ∧
    (s.nodes 0).log[1]? ≠ (s.nodes (-1)).log[1]? := by
  obtain ⟨s, hs, hview⟩ :=
    Run.exists_reached (Cluster.step sentinelTrio) (Cluster.initial sentinelTrio)
    sentinelSplit (fun s => ((s.nodes 0).log[1]?, (s.nodes (-1)).log[1]?))
    ((some ⟨1, 1, [7], [9], false⟩, some ⟨1, 1, [8], [], true⟩)) (by decide)
  obtain ⟨h0, h1⟩ := Prod.mk.inj hview
  refine ⟨s, _, _, hs, h0, h1, rfl, ?_⟩
  rw [h0, h1]; decide

/-! ### Leader completeness -/

/-- What a leader holds at some moment is in the log of its term from then on. -/
theorem Sim.leader_read {a a' : Abs} {counted : Int → Int → Finset Int} (h : Sim cfg s a counted)
    {c : Int} (hc : c ∈ cfg.ids) (hrole : (s.nodes c).role = .leader) (hext : Extends a a')
    {k : ℕ} {e : RaftLogEntry} (he : (s.nodes c).log[k]? = some e) :
    a'.led (s.nodes c).currentTerm c ∧ (a'.lead (s.nodes c).currentTerm)[k]? = some e := by
  have hn := h.nodes c hc
  have hled := hn.leader.mp hrole
  rw [hn.log_lead h.ok hrole] at he
  exact ⟨hext.led hled, hext.read hled he⟩

/-- What a node in term `t` has committed is a stretch chosen in `t` or before. -/
theorem Sim.committed_chosen {a : Abs} {counted : Int → Int → Finset Int}
    (h : Sim cfg s a counted) {c : Int} (hc : c ∈ cfg.ids) {k : ℕ} (hk : 1 ≤ k)
    (hkc : (k : Int) ≤ (s.nodes c).commitIndex) :
    ∃ t m, Chosen (protocol cfg) a t m ∧ t ≤ (s.nodes c).currentTerm ∧ k ≤ m ∧
      (s.nodes c).log[k]? = (a.lead t)[k]? := by
  have hn := h.nodes c hc
  have hcommit := hn.commit
  rcases h.ok.inv.commit_ok c with hbase | ⟨t, m, hch, ht, hle, hpre⟩
  · have : a.commit c ≤ 1 := hbase
    omega
  · refine ⟨t, m, hch, by rw [← hn.term]; exact ht, by omega, ?_⟩
    obtain ⟨e, he, _⟩ := hch.2.1
    have hlt : k < (a.lead t).length := by
      have := (List.getElem?_eq_some_iff.mp he).1; omega
    rw [List.getElem?_eq_getElem hlt, ← hn.log]
    exact Replog.getElem?_of_stretch hpre (by omega) (List.getElem?_eq_getElem hlt)

/-- **Leader completeness.**  Let node `c` have a commit index of at least `k` at some moment
    of a run, as a leader has once its commit check has set the commit index to `k`, and let
    node `b` lead a later term at some moment, before or after.  From that moment on `b`
    holds at `k` the entry that `c` committed there. -/
theorem leader_complete (hids : (-1 : Int) ∉ cfg.ids) {i j l : ℕ}
    (hs : Reached cfg (acts.take i) s) (hu : Reached cfg (acts.take j) u)
    (hv : Reached cfg (acts.take l) v) (hjl : j ≤ l) {b c : Int} (hc : c ∈ cfg.ids)
    (hb : b ∈ cfg.ids) (hlb : (u.nodes b).role = .leader)
    (hlater : (s.nodes c).currentTerm < (u.nodes b).currentTerm) {k : ℕ} (hk : 1 ≤ k)
    (hkc : (k : Int) ≤ (s.nodes c).commitIndex) :
    ∃ e, (s.nodes c).log[k]? = some e ∧ (v.nodes b).log[k]? = some e := by
  obtain ⟨f, hf, hrun⟩ := exists_abstract_run hids acts
  obtain ⟨_, hsim⟩ := hf i s hs
  obtain ⟨_, hsimu⟩ := hf j u hu
  obtain ⟨_, hsimv⟩ := hf l v hv
  obtain ⟨t, m, hch, ht, hkm, hread⟩ := hsim.committed_chosen hc hk hkc
  -- look back from a moment by which the stretch is chosen and the run has passed `l`
  have hext := (Steps.inv_extends hsim.ok.inv (hrun (le_max_left i l))).2
  have hchF := hch.mono hext
  have hnb := hsimu.nodes b hb
  have hled := hnb.leader.mp hlb
  have htt : t < (u.nodes b).currentTerm := lt_of_le_of_lt ht hlater
  have hju : Steps (protocol cfg) (f j) (f (max i l)) := hrun (le_trans hjl (le_max_right i l))
  have hstart : ((f (max i l)).lead t).take (m + 1) <+: (f j).log b := by
    rw [hnb.log, hnb.log_lead hsimu.ok hlb]
    exact Steps.chosen_in_lead hsimu.ok.inv hju hchF htt hled
  have hkeep := Steps.keeps_chosen hsimu.ok.inv (hrun hjl) (hrun (le_max_right i l)) hchF
    (by rw [hnb.term]; exact htt) hstart
  rw [hch.take_eq hext (le_refl _), (hsimv.nodes b hb).log] at hkeep
  obtain ⟨d, hd, _⟩ := hch.2.1
  have hlt : k < ((f i).lead t).length := by
    have := (List.getElem?_eq_some_iff.mp hd).1; omega
  refine ⟨_, hread.trans (List.getElem?_eq_getElem hlt), ?_⟩
  exact Replog.getElem?_of_stretch hkeep (by omega) (List.getElem?_eq_getElem hlt)

/-- After `pairRun` node 1 takes over and leads term 2. -/
def pairTakeover : List Action := pairRun ++ [.electionTimeout 1, .deliver 2, .deliver 2]

/-- In that run node 1 holds the command that node 0 committed in term 1. -/
theorem leader_complete_pair : ∃ s v, Reached pair (pairTakeover.take 8) s ∧
    Reached pair (pairTakeover.take 11) v ∧ (s.nodes 0).role = .leader ∧
    (s.nodes 0).commitIndex = 1 ∧ (v.nodes 1).role = .leader ∧
    ∃ e, (s.nodes 0).log[1]? = some e ∧ (v.nodes 1).log[1]? = some e := by
  obtain ⟨s, hs, hview⟩ := Run.exists_reached (Cluster.step pair) (Cluster.initial pair)
    (pairTakeover.take 8)
    (fun s => ((s.nodes 0).role, (s.nodes 0).currentTerm, (s.nodes 0).commitIndex))
    ((.leader, 1, 1)) (by decide)
  obtain ⟨v, hv, hview'⟩ := Run.exists_reached (Cluster.step pair) (Cluster.initial pair)
    (pairTakeover.take 11) (fun s => ((s.nodes 1).role, (s.nodes 1).currentTerm)) ((.leader, 2))
    (by decide)
  simp only [Prod.mk.injEq] at hview hview'
  obtain ⟨hrole, hterm, hcommit⟩ := hview
  obtain ⟨hrole', hterm'⟩ := hview'
  refine ⟨s, v, hs, hv, hrole, hcommit, hrole', ?_⟩
  exact leader_complete (by decide) hs hv hv (le_refl _) (by decide) (by decide)
    hrole' (by rw [hterm, hterm']; decide) (le_refl 1) (by rw [hcommit]; decide)

/-- With an id -1 leader completeness fails: node 0 has committed its command at position 1
    in term 1, and node -1 leads term 2 with another one. -/
theorem leader_complete_fails_sentinel : ∃ s e e', Reached sentinelTrio sentinelTakeover s ∧
    (s.nodes 0).role = .leader ∧ (s.nodes 0).currentTerm = 1 ∧ (s.nodes 0).commitIndex = 1 ∧
    (s.nodes (-1)).role = .leader ∧ (s.nodes (-1)).currentTerm = 2 ∧
    (s.nodes 0).log[1]? = some e ∧ (s.nodes (-1)).log[1]? = some e' ∧ e ≠ e' := by
  obtain ⟨s, hs, hview⟩ :=
    Run.exists_reached (Cluster.step sentinelTrio) (Cluster.initial sentinelTrio)
    sentinelTakeover
    (fun s => ((s.nodes 0).role, (s.nodes 0).currentTerm, (s.nodes 0).commitIndex,
      (s.nodes (-1)).role, (s.nodes (-1)).currentTerm, (s.nodes 0).log[1]?, (s.nodes (-1)).log[1]?))
    ((.leader, 1, 1, .leader, 2, some ⟨1, 1, [7], [9], false⟩, some ⟨1, 1, [8], [], true⟩)) rfl
  simp only [Prod.mk.injEq] at hview
  obtain ⟨h1, h2, h3, h4, h5, h6, h7⟩ := hview
  exact ⟨s, _, _, hs, h1, h2, h3, h4, h5, h6, h7, by decide⟩

/-! ### State machine safety -/

/-- The messages a node has sent on its channel are its applied entries, in order. -/
theorem NodeSim.sent_eq {a : Abs} {id : Int} {r : RaftNode} (hn : NodeSim cfg a id r)
    {sent : List ApplyMsg} (hsent : r.applyCh = some sent) :
    sent = deliveredOf r.log r.lastApplied := by
  have hch := hn.applyCh
  rw [hsent] at hch
  split at hch
  · exact Option.some.inj hch
  · cases hch

theorem NodeSim.delivered {a : Abs} {id : Int} {r : RaftNode} (hn : NodeSim cfg a id r)
    {sent : List ApplyMsg} (hsent : r.applyCh = some sent) {i : ℕ}
    (hi : (i : Int) < r.lastApplied) :
    sent[i]? = (r.log[i + 1]?).map RaftNode.applyMsg := by
  rw [hn.sent_eq hsent, deliveredOf, List.getElem?_map, List.getElem?_take_of_lt (by omega),
    List.getElem?_drop, Nat.add_comm 1 i]

/-- **State machine safety.**  In every reached state, two nodes have delivered the same
    message, the one with command index `i`, at every position `i` both have applied. -/
theorem applied_agree (hids : (-1 : Int) ∉ cfg.ids) (hs : Reached cfg acts s) {a b : Int}
    (ha : a ∈ cfg.ids) (hb : b ∈ cfg.ids) {sentA sentB : List ApplyMsg}
    (hsentA : (s.nodes a).applyCh = some sentA) (hsentB : (s.nodes b).applyCh = some sentB)
    {i : ℕ} (hi : 1 ≤ i) (hia : (i : Int) ≤ (s.nodes a).lastApplied)
    (hib : (i : Int) ≤ (s.nodes b).lastApplied) :
    ∃ m, sentA[i - 1]? = some m ∧ sentB[i - 1]? = some m ∧ m.commandIndex = i := by
  obtain ⟨α, counted, hsim⟩ := exists_sim hids hs
  have hna := hsim.nodes a ha
  have hnb := hsim.nodes b hb
  have hA := hna.delivered hsentA (i := i - 1) (by omega)
  have hB := hnb.delivered hsentB (i := i - 1) (by omega)
  rw [Nat.sub_add_cancel hi] at hA hB
  -- both logs are committed at `i`, so they agree there
  have hagree : (s.nodes a).log[i]? = (s.nodes b).log[i]? := by
    rw [← hna.log, ← hnb.log]
    refine hsim.ok.inv.commit_agree ?_ ?_
    · have h1 := hna.commit
      have h2 := hna.applied
      omega
    · have h1 := hnb.commit
      have h2 := hnb.applied
      omega
  have hlt : i < (s.nodes a).log.length := by
    have h1 := (hna.commit_bounds hsim.ok).2
    have h2 := hna.applied
    omega
  have hget := List.getElem?_eq_getElem hlt
  refine ⟨RaftNode.applyMsg (s.nodes a).log[i], by rw [hA, hget]; rfl,
    by rw [hB, ← hagree, hget]; rfl, ?_⟩
  exact hna.numbered hsim.ok i _ hget

/-- After `pairRun` both nodes have delivered the command at position 1. -/
theorem applied_agree_pair : ∃ s sentA sentB, Reached pair pairRun s ∧
    (s.nodes 0).applyCh = some sentA ∧ (s.nodes 1).applyCh = some sentB ∧
    (s.nodes 0).lastApplied = 1 ∧ (s.nodes 1).lastApplied = 1 ∧
    ∃ m, sentA[0]? = some m ∧ sentB[0]? = some m ∧ m.commandIndex = 1 := by
  obtain ⟨s, hs, hview⟩ := Run.exists_reached (Cluster.step pair) (Cluster.initial pair) pairRun
    (fun s => ((s.nodes 0).applyCh, (s.nodes 1).applyCh, (s.nodes 0).lastApplied,
      (s.nodes 1).lastApplied))
    ((some [⟨true, 1, 1, [7], [9], false⟩], some [⟨true, 1, 1, [7], [9], false⟩], 1, 1)) (by decide)
  simp only [Prod.mk.injEq] at hview
  obtain ⟨h0, h1, ha0, ha1⟩ := hview
  refine ⟨s, _, _, hs, h0, h1, ha0, ha1, ?_⟩
  exact applied_agree (by decide) hs (by decide) (by decide) h0 h1 (le_refl 1)
    (by rw [ha0]; decide) (by rw [ha1]; decide)

end Hallownest.Consensus
