import Hallownest.Consensus.Handlers
import Hallownest.Consensus.Safety

namespace Hallownest.Consensus

open Replog (Steps Extends Majority)
open Cluster (Reached)

/-!
# Consensus — committed entries

What a commit index promises.  A majority holds what a node has committed, and no step takes
it away (`committed_majority`).  Conversely a leader has committed what a majority has
acknowledged, unless it is alone: a cluster of one node accepts commands and never commits them,
because its commit check only runs when a peer replies (`commit_complete_iff`).
-/

variable {cfg : Config} {s s' u v : Cluster} {acts : List Action}

/-! ### Committed entries stay -/

/-- All ids are a majority of the ids. -/
theorem quorum_ids (cfg : Config) : (protocol cfg).Quorum cfg.ids.toFinset := by
  refine ⟨Finset.Subset.refl _, ?_⟩
  have hpos : 0 < cfg.ids.toFinset.card := by
    rw [List.toFinset_card_of_nodup cfg.nodup]
    exact List.length_pos_iff.mpr cfg.nonempty
  omega

/-- Reading a stretch of a log that is also in another one. -/
theorem getElem?_eq_of_take {l l' : List RaftLogEntry} {k i : ℕ} (h : l.take k <+: l')
    (hk : k ≤ l.length) (hi : i < k) : l'[i]? = l[i]? := by
  rw [List.getElem?_eq_getElem (show i < l.length by omega)]
  exact Replog.getElem?_of_stretch h hi (List.getElem?_eq_getElem _)

/-- **Committed entries stay on a majority.**  In every reached state the commit index of a node
    lies within its log and nothing beyond it is applied, a majority of the nodes holds the
    entries up to it, and no step changes one of them or lowers the commit index. -/
theorem committed_majority (hids : (-1 : Int) ∉ cfg.ids) (hs : Reached cfg acts s) {a : Int}
    (ha : a ∈ cfg.ids) :
    (s.nodes a).commitIndex < (s.nodes a).log.length ∧
    (s.nodes a).lastApplied ≤ (s.nodes a).commitIndex ∧
    (∃ Q, Majority cfg.ids.toFinset Q ∧ ∀ b ∈ Q, ∀ i : ℕ, (i : Int) ≤ (s.nodes a).commitIndex →
      (s.nodes b).log[i]? = (s.nodes a).log[i]?) ∧
    ∀ act s', s.step cfg act = .ok s' →
      (s.nodes a).commitIndex ≤ (s'.nodes a).commitIndex ∧
      ∀ i : ℕ, (i : Int) ≤ (s.nodes a).commitIndex →
        (s'.nodes a).log[i]? = (s.nodes a).log[i]? := by
  obtain ⟨α, counted, hsim⟩ := exists_sim hids hs
  have hn := hsim.nodes a ha
  have hcommit := hn.commit
  have hbounds := hn.commit_bounds hsim.ok
  have hlen : α.commit a ≤ (s.nodes a).log.length := by omega
  refine ⟨hbounds.2, le_of_eq hn.applied, ?_, ?_⟩
  · obtain ⟨Q, hQ, hheld⟩ := hsim.ok.inv.commit_quorum (quorum_ids cfg) a
    refine ⟨Q, hQ, fun b hb i hi => ?_⟩
    have hpre := hheld b hb
    rw [hn.log, (hsim.nodes b (by simpa using hQ.1 hb)).log] at hpre
    exact getElem?_eq_of_take hpre hlen (by omega)
  · intro act s' hstep
    obtain ⟨α', counted', hrun, hsim', _⟩ := hsim.follows_step hstep
    have hn' := hsim'.nodes a ha
    have hcommit' := hn'.commit
    obtain ⟨hle, hpre⟩ := Steps.commit_kept hsim.ok.inv hrun a
    rw [hn.log, hn'.log] at hpre
    exact ⟨by omega, fun i hi => getElem?_eq_of_take hpre hlen (by omega)⟩

/-- After `pairRun` both nodes hold the entry that node 0 has committed. -/
theorem committed_majority_pair : ∃ s Q, Reached pair pairRun s ∧ (s.nodes 0).commitIndex = 1 ∧
    Majority pair.ids.toFinset Q ∧
    ∀ b ∈ Q, (s.nodes b).log[1]? = some ⟨1, 1, [7], [9], false⟩ := by
  obtain ⟨s, hs, hview⟩ := Run.exists_reached (Cluster.step pair) (Cluster.initial pair) pairRun
    (fun s => ((s.nodes 0).commitIndex, (s.nodes 0).log[1]?)) ((1, some ⟨1, 1, [7], [9], false⟩))
    (by decide)
  obtain ⟨hcommit, hlog⟩ := Prod.mk.inj hview
  obtain ⟨_, _, ⟨Q, hQ, hheld⟩, _⟩ :=
    committed_majority (by decide) hs (a := 0) (by decide)
  refine ⟨s, Q, hs, hcommit, hQ, fun b hb => ?_⟩
  rw [← hlog]
  exact hheld b hb 1 (by rw [hcommit]; decide)

/-- With an id -1 node 0 commits an entry that no other node holds: no majority does. -/
theorem committed_majority_fails_sentinel :
    ∃ s, Reached sentinelTrio (sentinelTakeover.take 10) s ∧ (s.nodes 0).commitIndex = 1 ∧
      ¬ ∃ Q, Majority sentinelTrio.ids.toFinset Q ∧ ∀ b ∈ Q, ∀ i : ℕ,
        (i : Int) ≤ (s.nodes 0).commitIndex → (s.nodes b).log[i]? = (s.nodes 0).log[i]? := by
  obtain ⟨s, hs, hview⟩ :=
    Run.exists_reached (Cluster.step sentinelTrio) (Cluster.initial sentinelTrio)
    (sentinelTakeover.take 10)
    (fun s => ((s.nodes 0).commitIndex, (s.nodes 0).log[1]?, (s.nodes (-1)).log[1]?,
      (s.nodes 1).log[1]?))
    ((1, some ⟨1, 1, [7], [9], false⟩, some ⟨1, 1, [8], [], true⟩, none)) (by decide)
  simp only [Prod.mk.injEq] at hview
  obtain ⟨hcommit, h0, hm, h1⟩ := hview
  refine ⟨s, hs, hcommit, ?_⟩
  rintro ⟨Q, ⟨hsub, hcard⟩, hheld⟩
  -- only node 0 itself can be in such a set
  have honly : Q ⊆ {0} := by
    intro b hb
    have hread := hheld b hb 1 (by rw [hcommit]; decide)
    have hmem : b ∈ sentinelTrio.ids := by simpa using hsub hb
    simp only [sentinelTrio, Config.ofIds, List.mem_cons, List.not_mem_nil, or_false] at hmem
    rcases hmem with rfl | rfl | rfl
    · rw [hm, h0] at hread; cases hread
    · simp
    · rw [h1, h0] at hread; cases hread
  have hle := Finset.card_le_card honly
  have htwo : sentinelTrio.ids.toFinset.card / 2 + 1 = 2 := by decide
  rw [htwo] at hcard
  simp at hle
  omega

/-! ### A leader commits what it can -/

/-- No entry of the node's term above its commit index is acknowledged by a majority. -/
def RaftNode.Swept (r : RaftNode) : Prop :=
  ∀ (N : ℕ) (e : RaftLogEntry), r.log[N]? = some e → e.term = r.currentTerm →
    r.commitIndex < N → r.matchCount N < r.majorityNeeded

namespace RaftNode

variable {r r' : RaftNode}

/-- The downward scan leaves nothing to commit above the position where it stops. -/
private theorem advanceLoop_swept : ∀ {n : ℕ} {N : Int}, advanceLoop n N r = some r' →
    N ≤ r.commitIndex + n →
    (∀ (M : ℕ) (e : RaftLogEntry), N < M → r.log[M]? = some e → e.term = r.currentTerm →
      r.matchCount M < r.majorityNeeded) → r'.Swept := by
  intro n
  induction n with
  | zero =>
    intro N h hN habove
    rw [advanceLoop] at h
    obtain rfl := Option.some.inj h
    intro M e he hterm hM
    exact habove M e (by omega) he hterm
  | succ n ih =>
    intro N h hN habove
    rw [advanceLoop] at h
    split at h
    case isFalse hle =>
      obtain rfl := Option.some.inj h
      intro M e he hterm hM
      exact habove M e (by omega) he hterm
    case isTrue hgt =>
      obtain ⟨entry, hentry, h⟩ := Option.bind_eq_some_iff.mp h
      -- when the scan goes on below `N`, position `N` failed one of the two checks
      have hnext : (entry.term = r.currentTerm → r.matchCount N < r.majorityNeeded) →
          ∀ (M : ℕ) (e : RaftLogEntry), N - 1 < M → r.log[M]? = some e →
            e.term = r.currentTerm → r.matchCount M < r.majorityNeeded := by
        intro hfail M e hM he hterm
        rcases lt_or_eq_of_le (show N ≤ M by omega) with hlt | rfl
        · exact habove M e hlt he hterm
        · rw [Slice.get_natCast, he] at hentry
          obtain rfl := Option.some.inj hentry
          exact hfail hterm
      split at h
      case isTrue hother =>
        exact ih h (by omega) (hnext fun hterm => absurd hterm hother)
      case isFalse =>
        split at h
        case isTrue =>
          have hcommit : r'.commitIndex = N := applyLoop_commitIndex h
          obtain ⟨ci, la, more, rfl⟩ := commits_applyLogs h
          intro M e he hterm hM
          have hM : ci < M := hM
          have hcommit : ci = N := hcommit
          exact habove M e (by omega) he hterm
        case isFalse hfew => exact ih h (by omega) (hnext fun _ => by omega)

/-- The commit check leaves nothing to commit. -/
private theorem checkAdvanceCommitIndex_swept (h : r.checkAdvanceCommitIndex = some r') :
    r'.Swept := by
  refine advanceLoop_swept h (by omega) fun M e hM he _ => ?_
  have := (List.getElem?_eq_some_iff.mp he).1
  omega

end RaftNode

section Swept

variable {a : Abs} {id : Int} {r r' : RaftNode}

/-- Nobody has acknowledged more than the leader has. -/
theorem NodeSim.matchIndex_lt (hok : AbsOk cfg a) (hn : NodeSim cfg a id r)
    (hlead : r.role = .leader) {p : Int} (hp : p ∈ r.peers) : r.matchIndex p < r.log.length := by
  rw [hn.peers_eq] at hp
  obtain ⟨_, hacked⟩ := hn.matched hlead p hp
  have hpos := hn.log_pos hok
  by_cases hm : 0 < r.matchIndex p
  · have hlt := hacked hm
    have hle := hok.inv.acked_length_le r.currentTerm p
    rw [← hn.log_lead hok hlead] at hle
    omega
  · omega

/-- A node that starts to lead has no entry of its term. -/
theorem swept_elected (hlt : ∀ e ∈ r.log, e.term < r.currentTerm) : r.elected.Swept := by
  intro N e he hterm _
  have hmem : e ∈ r.log := List.mem_of_getElem? he
  have := hlt e hmem
  have : e.term = r.currentTerm := hterm
  omega

/-- A leader with peers has nobody's acknowledgement for the entry it appends. -/
private theorem swept_append (hok : AbsOk cfg a) (hn : NodeSim cfg a id r)
    (hlead : r.role = .leader) (hpeers : r.peers ≠ []) (hswept : r.Swept) (entry : RaftLogEntry) :
    ({ r with log := r.log ++ [entry] } : RaftNode).Swept := by
  intro N e he hterm hN
  rcases Nat.lt_or_ge N r.log.length with hlt | hge
  · rw [List.getElem?_append_left hlt] at he
    exact hswept N e he hterm hN
  · have hzero : r.peers.countP (fun p => decide (r.matchIndex p ≥ N)) = 0 := by
      rw [List.countP_eq_zero]
      intro p hp
      have := hn.matchIndex_lt hok hlead hp
      simp only [decide_eq_true_eq]
      omega
    have hlen := List.length_pos_iff.mpr hpeers
    show 1 + ((r.peers.countP fun p => decide (r.matchIndex p ≥ N) : ℕ) : Int) <
      ((r.peers.length : Int) + 1) / 2 + 1
    rw [hzero]
    omega

/-- A leader that steps neither down nor up is as swept as before. -/
theorem swept_catchUp {t : Int} (hswept : r.role = .leader → r.Swept)
    (hlead : (r.catchUp t).role = .leader) : (r.catchUp t).Swept := by
  rcases RaftNode.catchUp_cases r t with ⟨_, h⟩ | ⟨_, h⟩
  · rw [h] at hlead; cases hlead
  · rw [h] at hlead ⊢; exact hswept hlead

end Swept

/-- **One step** keeps every leader swept, except for a proposal to a leader without peers. -/
theorem swept_step {counted : Int → Int → Finset Int} {a : Abs} {act : Action}
    (hsim : Sim cfg s a counted)
    (hpeers : ∀ {id key value tombstone}, act = .submit id key value tombstone →
      (s.nodes id).role = .leader → cfg.peers id ≠ [])
    (h : ∀ id ∈ cfg.ids, (s.nodes id).role = .leader → (s.nodes id).Swept)
    (hstep : s.step cfg act = .ok s') :
    ∀ id ∈ cfg.ids, (s'.nodes id).role = .leader → (s'.nodes id).Swept := by
  -- a step replaces at most one node
  have hkeep : ∀ {id : Int} {r : RaftNode}, (id ∈ cfg.ids → r.role = .leader → r.Swept) →
      ∀ j ∈ cfg.ids, ((s.setNode id r).nodes j).role = .leader →
        ((s.setNode id r).nodes j).Swept :=
    fun hr => Cluster.setNode_forall (I := fun _ r => r.role = .leader → r.Swept) h hr
  cases Cluster.step_takes hstep with
  | heartbeatTick _ _ => exact h
  | lose => exact h
  | electionTimeout hid hrole hrun =>
    refine hkeep fun hid hlead => ?_
    have hn := hsim.nodes _ hid
    rcases RaftNode.startElection_cases hrun with ⟨_, ⟨_, rfl, _⟩ | ⟨rfl, _⟩⟩
    · refine swept_elected fun e he => ?_
      have hle := hsim.ok.inv.log_le _ e (by rw [hn.log]; exact he)
      rw [hn.term] at hle
      exact Int.lt_add_one_of_le hle
    · cases hlead
  | submit hid hrun =>
    refine hkeep fun hid hlead => ?_
    have hn := hsim.nodes _ hid
    rcases RaftNode.submit_cases hrun with ⟨_, rfl, _⟩ | ⟨hwas, rfl, _⟩
    · exact h _ hid hlead
    · refine swept_append hsim.ok hn hwas ?_ (h _ hid hwas) _
      rw [hn.peers_eq]
      exact hpeers rfl hwas
  | voteRequest hp hrun =>
    refine hkeep fun hid hlead => ?_
    rcases RaftNode.requestVote_cases hrun with ⟨rfl, _⟩ | ⟨rfl, _⟩
    · exact swept_catchUp (h _ hid) hlead
    · exact swept_catchUp (h _ hid) hlead
  | voteReply hp hrun =>
    refine hkeep fun hid hlead => ?_
    have hn := hsim.nodes _ hid
    rcases RaftNode.handleVoteReply_cases hrun with ⟨rfl, _⟩ | ⟨_, rfl, _⟩ |
      ⟨hcand, _, _, _, ⟨rfl, _⟩ | ⟨_, rfl, _⟩⟩
    · exact h _ hid hlead
    · cases hlead
    · exact h _ hid hlead
    · exact swept_elected fun e he => hsim.ok.inv.stood_lt (hn.candidate hcand) e he
  | appendRequest hp hrun =>
    refine hkeep fun hid hlead => ?_
    rcases RaftNode.appendEntries_cases hrun with ⟨rfl, _⟩ | rfl | ⟨log, _, ci, la, more, rfl⟩
    · exact swept_catchUp (h _ hid) hlead
    · cases hlead
    · cases hlead
  | appendReply hp hrun =>
    refine hkeep fun hid hlead => ?_
    rcases RaftNode.handleAppendReply_cases hrun with rfl | ⟨_, rfl⟩ | ⟨_, _, _, hcheck⟩ |
      ⟨next, rfl⟩
    · exact h _ hid hlead
    · cases hlead
    · exact RaftNode.checkAdvanceCommitIndex_swept hcheck
    · exact h _ hid hlead
  | kill => exact hkeep fun hid hlead => h _ hid hlead

/-- A leader has committed, applied and delivered every entry of its term that a majority has
    acknowledged. -/
def CommitComplete (cfg : Config) (r : RaftNode) : Prop :=
  r.role = .leader → ∀ (N : ℕ) (e : RaftLogEntry), r.log[N]? = some e →
    e.term = r.currentTerm →
    cfg.ids.length / 2 + 1 ≤ 1 + r.peers.countP (fun p => decide (r.matchIndex p ≥ N)) →
    (N : Int) ≤ r.commitIndex ∧ (N : Int) ≤ r.lastApplied ∧
      ∀ sent, r.applyCh = some sent → RaftNode.applyMsg e ∈ sent

/-- The threshold of the code, in the number of nodes. -/
private theorem majority_le_matchCount {a : Abs} {id : Int} {r : RaftNode} (hid : id ∈ cfg.ids)
    (hn : NodeSim cfg a id r) {N : ℕ} : r.majorityNeeded ≤ r.matchCount N ↔
      cfg.ids.length / 2 + 1 ≤ 1 + r.peers.countP (fun p => decide (r.matchIndex p ≥ N)) := by
  rw [hn.majority hid, List.toFinset_card_of_nodup cfg.nodup, RaftNode.matchCount]
  omega

/-- A swept leader is complete. -/
theorem Sim.commitComplete {a : Abs} {counted : Int → Int → Finset Int}
    (hsim : Sim cfg s a counted) {id : Int} (hid : id ∈ cfg.ids)
    (hswept : (s.nodes id).role = .leader → (s.nodes id).Swept) :
    CommitComplete cfg (s.nodes id) := by
  intro hlead N e he hterm hcount
  have hn := hsim.nodes id hid
  have hN : (N : Int) ≤ (s.nodes id).commitIndex := by
    by_contra hgt
    have := hswept hlead N e he hterm (by omega)
    have := (majority_le_matchCount hid hn).mpr hcount
    omega
  refine ⟨hN, hn.applied ▸ hN, fun sent hsent => ?_⟩
  -- terms that are led are positive, so the entry is not the dummy at position 0
  have hpos : N ≠ 0 := by
    rintro rfl
    have hbase := (hsim.ok.inv.log_wf id).base
    rw [hn.log] at hbase
    obtain ⟨rest, hrest⟩ := hbase
    rw [← hrest] at he
    obtain rfl : dummyEntry = e := by simpa using he
    have hgt := hsim.ok.inv.led_gt (hn.leader.mp hlead)
    rw [← hterm] at hgt
    exact lt_irrefl _ hgt
  obtain ⟨k, rfl⟩ := Nat.exists_eq_succ_of_ne_zero hpos
  have hread := hn.delivered hsent (i := k) (by rw [hn.applied]; push_cast at hN; omega)
  rw [show (s.nodes id).log[k + 1]? = some e from he] at hread
  exact List.mem_of_getElem? hread

/-- **Commit completeness.**  A run keeps every leader complete exactly if no leader without
    peers accepts a command in it. -/
theorem commit_complete_iff (hids : (-1 : Int) ∉ cfg.ids) (hs : Reached cfg acts s) :
    (∀ i u, Reached cfg (acts.take i) u → ∀ id ∈ cfg.ids, CommitComplete cfg (u.nodes id)) ↔
      ∀ i u id key value tombstone, acts[i]? = some (.submit id key value tombstone) →
        Reached cfg (acts.take i) u → (u.nodes id).role = .leader → cfg.peers id ≠ [] := by
  constructor
  · intro hall i u id key value tombstone hact hu hlead halone
    obtain ⟨u', hstep, hu'⟩ := hs.next hact hu
    obtain ⟨a, counted, hsim⟩ := exists_sim hids hu
    cases Cluster.step_takes hstep with
    | submit hid hrun =>
      have hn := hsim.nodes id hid
      rcases RaftNode.submit_cases hrun with ⟨hrole, _⟩ | ⟨_, rfl, _⟩
      · exact hrole hlead
      · -- the new entry needs nobody's acknowledgement, but it is not committed
        have hcomplete := hall (i + 1) _ hu' id hid
        rw [Cluster.send_nodes, Cluster.setNode_nodes_self] at hcomplete
        have hone : cfg.ids.length = 1 := by
          have := peers_length hid
          rw [halone, List.toFinset_card_of_nodup cfg.nodup] at this
          simpa using this.symm
        have hcommit := (hcomplete hlead (u.nodes id).log.length
          ((u.nodes id).newEntry key value tombstone) (by simp) rfl (by rw [hone]; omega)).1
        have hbound : (u.nodes id).commitIndex < (u.nodes id).log.length :=
          (hn.commit_bounds hsim.ok).2
        have hcommit : ((u.nodes id).log.length : Int) ≤ (u.nodes id).commitIndex := hcommit
        omega
  · intro hpeers
    -- a swept state, at every moment up to `i`
    have hswept : ∀ i u, Reached cfg (acts.take i) u →
        ∀ id ∈ cfg.ids, (u.nodes id).role = .leader → (u.nodes id).Swept := by
      intro i u hu
      refine Run.Reached.onward (I := fun u : Cluster => ∀ id ∈ cfg.ids,
        (u.nodes id).role = .leader → (u.nodes id).Swept) (Nat.zero_le i)
        (Run.reached_nil.mpr rfl) (fun id _ hlead => by cases hlead) ?_ hu
      intro j w act w' _ _ hact hw ih hstep
      obtain ⟨a, counted, hsim⟩ := exists_sim hids hw
      refine swept_step hsim ?_ ih hstep
      rintro id key value tombstone rfl hlead
      exact hpeers j w id key value tombstone hact hw hlead
    intro i u hu id hid
    obtain ⟨a, counted, hsim⟩ := exists_sim hids hu
    exact hsim.commitComplete hid (hswept i u hu id hid)

/-- After `pairRun` node 0 has committed and delivered what both nodes hold. -/
theorem commit_complete_pair : ∃ s, Reached pair pairRun s ∧ (s.nodes 0).role = .leader ∧
    (s.nodes 0).matchIndex 1 = 1 ∧ CommitComplete pair (s.nodes 0) := by
  obtain ⟨s, hs, hview⟩ := Run.exists_reached (Cluster.step pair) (Cluster.initial pair) pairRun
    (fun s => ((s.nodes 0).role, (s.nodes 0).matchIndex 1)) ((.leader, 1)) (by decide)
  obtain ⟨hrole, hmatch⟩ := Prod.mk.inj hview
  refine ⟨s, hs, hrole, hmatch, ?_⟩
  refine (commit_complete_iff (by decide) hs).mpr ?_ pairRun.length s
    (by rw [List.take_length]; exact hs) 0 (by decide)
  -- both nodes have a peer
  intro i u id key value tombstone hact hu _
  obtain ⟨u', hstep, _⟩ := hs.next hact hu
  cases Cluster.step_takes hstep with
  | submit hid _ =>
    have : ∀ id ∈ pair.ids, pair.peers id ≠ [] := by decide
    exact this id hid

/-- One node. -/
def solo : Config := Config.ofIds [0] (by decide) (by decide)

/-- A single node elects itself, accepts a command and does not commit it. -/
theorem commit_incomplete_solo : ∃ s,
    Reached solo [.electionTimeout 0, .submit 0 [7] [9] false] s ∧
    ¬ CommitComplete solo (s.nodes 0) := by
  obtain ⟨s, hs, hview⟩ := Run.exists_reached (Cluster.step solo) (Cluster.initial solo)
    [.electionTimeout 0, .submit 0 [7] [9] false]
    (fun s => ((s.nodes 0).role, (s.nodes 0).currentTerm, (s.nodes 0).log[1]?,
      (s.nodes 0).commitIndex))
    ((.leader, 1, some ⟨1, 1, [7], [9], false⟩, 0)) (by decide)
  simp only [Prod.mk.injEq] at hview
  obtain ⟨hrole, hterm, hlog, hcommit⟩ := hview
  refine ⟨s, hs, fun hcomplete => ?_⟩
  have hN := (hcomplete hrole 1 _ hlog hterm.symm (by
    rw [show solo.ids.length = 1 from rfl]; omega)).1
  rw [hcommit] at hN
  exact absurd hN (by decide)

end Hallownest.Consensus
