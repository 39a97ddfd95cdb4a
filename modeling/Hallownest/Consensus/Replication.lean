import Hallownest.Consensus.NodeSteps

namespace Hallownest.Consensus

open Replog (Steps Extends Chosen Learnable)

/-!
# Consensus — replication and commit refine moves of the protocol

The handlers of the replication path: `Submit`, the append request, the append reply, and
the commit and apply loops they run.  The loops get one specification each
(`applyLogs_eq`, `advanceLoop_cases`, `appendNew_eq_splice`); the handlers are then moves
`propose`, `accept` and `learn`.
-/

variable {cfg : Config} {a : Abs} {id : Int} {r : RaftNode}

/-! ### The apply loop -/

/-- Applying one more entry delivers it. -/
private theorem deliveredOf_succ {log : List RaftLogEntry} {n : ℕ} {e : RaftLogEntry}
    (he : log[n + 1]? = some e) :
    deliveredOf log ((n + 1 : ℕ) : Int) = deliveredOf log (n : Int) ++ [RaftNode.applyMsg e] := by
  unfold deliveredOf
  have hd : (log.drop 1)[n]? = some e := by rw [List.getElem?_drop, Nat.add_comm]; exact he
  rw [Int.toNat_natCast, Int.toNat_natCast, List.take_add_one, hd, List.map_append]
  rfl

/-- What was delivered depends only on the log up to the last applied entry. -/
theorem deliveredOf_congr {log log' : List RaftLogEntry} {n : Int}
    (h : log.take (n.toNat + 1) = log'.take (n.toNat + 1)) :
    deliveredOf log n = deliveredOf log' n := by
  unfold deliveredOf
  have hdrop : ∀ l : List RaftLogEntry,
      (l.drop 1).take n.toNat = (l.take (n.toNat + 1)).drop 1 := by
    intro l
    rw [List.drop_take, Nat.add_sub_cancel]
  rw [hdrop, hdrop, h]

/-- The loop of `applyLogs`, by induction on the number of rounds left. -/
theorem applyLoop_eq : ∀ (n : ℕ) (r : RaftNode) (ch : Bool), Numbered r.log →
    0 ≤ r.lastApplied → r.lastApplied + n = r.commitIndex → r.commitIndex < r.log.length →
    r.applyCh = (if ch then some (deliveredOf r.log r.lastApplied) else none) →
    RaftNode.applyLoop n r = some { r with
      lastApplied := r.commitIndex
      applyCh := if ch then some (deliveredOf r.log r.commitIndex) else none } := by
  intro n
  induction n with
  | zero =>
    intro r ch _ _ heq _ hch
    have h : r.lastApplied = r.commitIndex := by simpa using heq
    rw [h] at hch
    rw [RaftNode.applyLoop, ← hch]
    cases r; simpa using h
  | succ n ih =>
    intro r ch hnum h0 heq hlt hch
    rw [RaftNode.applyLoop, if_pos (by push_cast at heq; omega)]
    have hnat : (r.lastApplied + 1).toNat = r.lastApplied.toNat + 1 := by omega
    obtain ⟨e, he⟩ := Slice.exists_get (s := r.log) (i := r.lastApplied + 1) (by omega)
      (by push_cast at heq; omega)
    have hget := (Slice.get_eq_some.mp he).2
    rw [hnat] at hget
    have hidx : e.index > 0 := by rw [hnum _ _ hget]; omega
    -- the message of this round extends what was delivered before
    have hdel : RaftNode.deliver r.applyCh e =
        if ch then some (deliveredOf r.log (r.lastApplied + 1)) else none := by
      rw [hch]
      cases ch with
      | false => rfl
      | true =>
        have hs := deliveredOf_succ hget
        have hcast : ((r.lastApplied.toNat + 1 : ℕ) : Int) = r.lastApplied + 1 := by omega
        have hcast' : ((r.lastApplied.toNat : ℕ) : Int) = r.lastApplied := by omega
        rw [hcast, hcast'] at hs
        simp [RaftNode.deliver, hidx, hs]
    rw [he]
    exact ih { r with
      lastApplied := r.lastApplied + 1, applyCh := RaftNode.deliver r.applyCh e } ch hnum
      (by show 0 ≤ r.lastApplied + 1; omega)
      (by show r.lastApplied + 1 + n = r.commitIndex; push_cast at heq; omega) hlt hdel

/-- **The apply loop** delivers every committed entry, in order. -/
theorem applyLogs_eq {ch : Bool} (hnum : Numbered r.log) (h0 : 0 ≤ r.lastApplied)
    (hle : r.lastApplied ≤ r.commitIndex) (hlt : r.commitIndex < r.log.length)
    (hch : r.applyCh = if ch then some (deliveredOf r.log r.lastApplied) else none) :
    r.applyLogs = some { r with
      lastApplied := r.commitIndex
      applyCh := if ch then some (deliveredOf r.log r.commitIndex) else none } :=
  applyLoop_eq _ r ch hnum h0 (by omega) hlt hch

/-- **Committing**: raising the commit index within a chosen stretch and applying. -/
theorem local_commit (hok : AbsOk cfg a) (hn : NodeSim cfg a id r) {N : Int}
    (hN : r.commitIndex < N) (hlen : N < r.log.length)
    (hch : Learnable (protocol cfg) a id (N.toNat + 1)) :
    ∃ r' a', RaftNode.applyLogs { r with commitIndex := N } = some r' ∧ Local cfg a a' id r' ∧
      r'.role = r.role ∧ r'.currentTerm = r.currentTerm ∧ a' = a.learn id (N.toNat + 1) := by
  have hb := hn.commit_bounds hok
  have happ := hn.applied
  have hcommit := hn.commit
  have hnum : Numbered r.log := hn.numbered hok
  -- the node has applied all it had committed, so the loop applies the rest up to `N`
  have hrun := applyLogs_eq (r := { r with commitIndex := N }) hnum
    (by show 0 ≤ r.lastApplied; omega) (by show r.lastApplied ≤ N; omega) hlen hn.applyCh
  have hk : a.commit id ≤ N.toNat + 1 := by omega
  have hl : N.toNat + 1 ≤ (a.log id).length := by rw [hn.log]; omega
  refine ⟨_, a.learn id (N.toNat + 1), hrun,
    ⟨Relation.ReflTransGen.single (.learn id _ hk hl hch),
      ⟨Replog.inv_learn hok.inv hk hl hch, hok.member, hok.numbered, hok.sentinel⟩, ?_,
      fun j hj => sameAt_learn hj _, Or.inl⟩, rfl, rfl, rfl⟩
  exact {
    id_eq := hn.id_eq
    peers_eq := hn.peers_eq
    term := hn.term
    log := hn.log
    vote := hn.vote
    leader := hn.leader
    candidate := hn.candidate
    commit := by simp; omega
    applied := rfl
    applyCh := rfl
    next := hn.next
    matched := hn.matched }

/-! ### Advancing the commit index of a leader -/

/-- The downward scan either changes nothing or commits the position it stops at. -/
theorem advanceLoop_cases : ∀ (n : ℕ) (N : Int) (r : RaftNode), 0 ≤ r.commitIndex →
    N < r.log.length →
    RaftNode.advanceLoop n N r = some r ∨
      ∃ M e, r.commitIndex < M ∧ M ≤ N ∧ Slice.get r.log M = some e ∧
        e.term = r.currentTerm ∧ r.matchCount M ≥ r.majorityNeeded ∧
        RaftNode.advanceLoop n N r = RaftNode.applyLogs { r with commitIndex := M } := by
  intro n
  induction n with
  | zero => intro N r _ _; exact Or.inl rfl
  | succ n ih =>
    intro N r h0 hN
    by_cases hgt : N > r.commitIndex
    · obtain ⟨e, he⟩ := Slice.exists_get (s := r.log) (i := N) (by omega) hN
      have hnext : RaftNode.advanceLoop (n + 1) N r =
          if e.term ≠ r.currentTerm then RaftNode.advanceLoop n (N - 1) r
          else if r.matchCount N ≥ r.majorityNeeded then
            RaftNode.applyLogs { r with commitIndex := N }
          else RaftNode.advanceLoop n (N - 1) r := by
        rw [RaftNode.advanceLoop, if_pos hgt, he]; rfl
      have hrest := ih (N - 1) r h0 (by omega)
      -- the scan goes on below `N` unless both checks pass there
      by_cases hterm : e.term = r.currentTerm
      · by_cases hcount : r.matchCount N ≥ r.majorityNeeded
        · right
          refine ⟨N, e, hgt, le_refl _, he, hterm, hcount, ?_⟩
          rw [hnext, if_neg (by simpa using hterm), if_pos hcount]
        · rw [hnext, if_neg (by simpa using hterm), if_neg hcount]
          rcases hrest with h | ⟨M, d, h1, h2, h3⟩
          · exact Or.inl h
          · exact Or.inr ⟨M, d, h1, by omega, h3⟩
      · rw [hnext, if_pos hterm]
        rcases hrest with h | ⟨M, d, h1, h2, h3⟩
        · exact Or.inl h
        · exact Or.inr ⟨M, d, h1, by omega, h3⟩
    · left; rw [RaftNode.advanceLoop, if_neg hgt]

/-- A majority of acknowledgements makes a position of the leader's own term chosen. -/
theorem chosen_of_matchCount (hok : AbsOk cfg a) (hid : id ∈ cfg.ids)
    (hn : NodeSim cfg a id r) (hlead : r.role = .leader) {N : Int} {e : RaftLogEntry}
    (hN : 0 < N) (he : Slice.get r.log N = some e) (hterm : e.term = r.currentTerm)
    (hcount : r.matchCount N ≥ r.majorityNeeded) :
    Chosen (protocol cfg) a r.currentTerm N.toNat := by
  have hled := hn.leader.mp hlead
  have hlog := hn.log_lead hok hlead
  have hget : (a.lead r.currentTerm)[N.toNat]? = some e := by
    rw [← hlog]; exact (Slice.get_eq_some.mp he).2
  -- the leader and the peers whose `matchIndex` reaches `N`
  let peersAt := (cfg.peers id).filter fun p => decide (r.matchIndex p ≥ N)
  have hnotin : id ∉ peersAt.toFinset := by
    intro h
    have h' : id ∈ cfg.peers id := by
      rw [List.mem_toFinset] at h
      exact (List.mem_filter.mp h).1
    exact ((mem_peers hid).mp h').1 rfl
  have hcard : ((insert id peersAt.toFinset).card : Int) = r.matchCount N := by
    rw [Finset.card_insert_of_notMem hnotin,
      List.toFinset_card_of_nodup ((peers_nodup hid).filter _), RaftNode.matchCount,
      hn.peers_eq, List.countP_eq_length_filter]
    push_cast; omega
  refine ⟨⟨id, hled⟩, ⟨e, hget, hterm⟩, insert id peersAt.toFinset, ⟨?_, ?_⟩, ?_⟩
  · intro v hv
    rw [Finset.mem_insert, List.mem_toFinset] at hv
    rcases hv with rfl | hv
    · simpa using hid
    · simpa using ((mem_peers hid).mp (List.mem_filter.mp hv).1).2
  · have h2 := hn.majority hid
    have : ((cfg.ids.toFinset.card / 2 + 1 : ℕ) : Int) ≤
        ((insert id peersAt.toFinset).card : Int) := by rw [hcard, ← h2]; exact hcount
    exact_mod_cast this
  · intro v hv
    rw [Finset.mem_insert, List.mem_toFinset] at hv
    rcases hv with rfl | hv
    · exact hok.inv.acked_own hled hget hterm
    · obtain ⟨hp, hge⟩ := List.mem_filter.mp hv
      have hge' : r.matchIndex v ≥ N := by simpa using hge
      have := (hn.matched hlead v hp).2 (by omega)
      omega

/-- **The commit check of a leader** does not panic, and commits only what is chosen. -/
theorem local_checkAdvance (hok : AbsOk cfg a) (hid : id ∈ cfg.ids) (hn : NodeSim cfg a id r)
    (hlead : r.role = .leader) :
    ∃ r' a', r.checkAdvanceCommitIndex = some r' ∧ Local cfg a a' id r' ∧ r'.role = .leader := by
  have hb := hn.commit_bounds hok
  have hled := hn.leader.mp hlead
  rcases advanceLoop_cases ((r.log.length : Int) - 1 - r.commitIndex).toNat
      ((r.log.length : Int) - 1) r hb.1 (by omega) with h | ⟨M, e, hM, hMle, he, hterm, hcount, h⟩
  · exact ⟨r, a, h, Local.refl hok hn, hlead⟩
  · have hch := chosen_of_matchCount hok hid hn hlead (by omega) he hterm hcount
    have hlearn : Learnable (protocol cfg) a id (M.toNat + 1) := by
      refine ⟨r.currentTerm, M.toNat, hch, le_of_eq hn.term.symm, le_refl _, ?_⟩
      rw [hn.log, hn.log_lead hok hlead]
      exact List.take_prefix _ _
    obtain ⟨r', a', hrun, hloc, hrole, _⟩ := local_commit hok hn hM (by omega) hlearn
    exact ⟨r', a', h.trans hrun, hloc, by rw [hrole]; exact hlead⟩

/-! ### Append replies -/

/-- The stretch an append request quotes lies within the log of its term's leader. -/
theorem AppendArgsOk.length_le {peer : Int} {args : AppendEntriesArgs} {p : ℕ}
    (hargs : AppendArgsOk cfg a peer args p) :
    p + 1 + args.entries.length ≤ (a.lead args.term).length := by
  obtain ⟨e, he, _⟩ := hargs.prevTerm
  have hp := (List.getElem?_eq_some_iff.mp he).1
  have hlen := hargs.entries.length_le
  rw [List.length_drop] at hlen
  omega

/-- **Handling an append reply** does not panic. -/
theorem local_handleAppendReply (hok : AbsOk cfg a) (hid : id ∈ cfg.ids)
    (hn : NodeSim cfg a id r) {args : AppendEntriesArgs} {reply : AppendEntriesReply}
    {peer : Int} {p : ℕ} (hargs : AppendArgsOk cfg a peer args p)
    (hsucc : reply.success = true → p + args.entries.length < a.acked args.term peer) :
    ∃ r', r.handleAppendReply peer args reply = some r' ∧ ∃ a', Local cfg a a' id r' := by
  apply RaftNode.handleAppendReply_rule
  · -- a reply to a request of another term, or no room to back off
    exact ⟨a, Local.refl hok hn⟩
  · -- the peer knows a later term
    intro hlater
    exact ⟨_, local_becomeFollower hok hn hlater⟩
  · -- the peer stored the whole request, so both indices may move to its end
    intro hlead hterm hs
    have hack := hsucc hs
    have hprev := hargs.prev
    have hlen : p + 1 + args.entries.length ≤ r.log.length := by
      have h1 := hargs.length_le
      rwa [← hterm, ← hn.log_lead hok hlead] at h1
    have hn' : NodeSim cfg a id
        (r.acknowledge peer (args.prevLogIndex + args.entries.length + 1)) := { hn with
      next := by
        intro _ q hq
        by_cases hqp : q = peer
        · simp only [RaftNode.acknowledge, if_pos hqp]; omega
        · simp only [RaftNode.acknowledge, if_neg hqp]; exact hn.next hlead q hq
      matched := by
        intro _ q hq
        by_cases hqp : q = peer
        · simp only [RaftNode.acknowledge, if_pos hqp]
          subst hqp
          rw [← hterm] at hack
          omega
        · simp only [RaftNode.acknowledge, if_neg hqp]; exact hn.matched hlead q hq }
    obtain ⟨r', a', hrun, hloc, _⟩ := local_checkAdvance hok hid hn' hlead
    exact ⟨r', hrun, a', hloc⟩
  · -- the peer's log does not match there: back off by one, but not below 1
    intro hlead hback
    refine ⟨a, Local.refl hok { hn with next := ?_ }⟩
    intro _ q hq
    have hq' := hn.next hlead q hq
    by_cases hqp : q = peer
    · subst hqp; simp only [if_true]; omega
    · simp only [if_neg hqp]; exact hq'

/-! ### Append requests -/

/-- The loop over the entries of a request is `Replog.splice`. -/
theorem appendNew_eq_splice : ∀ (es log : List RaftLogEntry) (i : ℕ), i ≤ log.length →
    RaftNode.appendNew log i es = some (Replog.splice RaftLogEntry.term log i es) := by
  intro es
  induction es with
  | nil => intro log i _; rfl
  | cons e es ih =>
    intro log i hi
    have hcast : (i : Int) + 1 = ((i + 1 : ℕ) : Int) := by push_cast; rfl
    rw [RaftNode.appendNew, Replog.splice, hcast]
    by_cases hlt : i < log.length
    · have hget : Slice.get log (i : Int) = some log[i] := by
        rw [Slice.get_natCast, List.getElem?_eq_getElem hlt]
      rw [if_pos (by exact_mod_cast hlt), hget, List.getElem?_eq_getElem hlt]
      by_cases hterm : log[i].term = e.term
      · -- the entry is there already
        simp only [Option.bind_eq_bind, Option.bind_some, hterm, ne_eq, not_true, if_false, if_true]
        exact ih log (i + 1) hlt
      · -- a conflict: the log is cut, and the entry becomes its last one
        have hcut : Slice.upTo log (i : Int) = some (log.take i) := by
          rw [Slice.upTo_of_le (by omega) (by omega), Int.toNat_natCast]
        simp only [Option.bind_eq_bind, Option.bind_some, ne_eq, hterm, not_false_eq_true,
          if_true, if_false, hcut]
        exact ih _ (i + 1) (by simp; omega)
    · rw [if_neg (by exact_mod_cast hlt), List.getElem?_eq_none (by omega)]
      exact ih _ (i + 1) (by simp; omega)

/-- **The loop takes over what the request quotes**, if the logs match where it starts. -/
theorem NodeSim.appendNew_eq_adopt (hok : AbsOk cfg a) (hn : NodeSim cfg a id r) {peer : Int}
    {args : AppendEntriesArgs} {p : ℕ} (hargs : AppendArgsOk cfg a peer args p)
    {d : RaftLogEntry} (hd : r.log[p]? = some d) (hterm : d.term = args.prevLogTerm) :
    RaftNode.appendNew r.log (args.prevLogIndex + 1) args.entries =
      some (Replog.adopt (a.lead args.term) r.log (p + 1 + args.entries.length)) := by
  obtain ⟨e, he, het⟩ := hargs.prevTerm
  have hwf := hok.inv.log_wf id
  rw [hn.log] at hwf
  have hmatch : Replog.Matching RaftLogEntry.term r.log (a.lead args.term) :=
    fun hx hL ht => Replog.Inv.matching hwf (hok.inv.lead_wf hargs.led) hx hL ht
  have hp := (List.getElem?_eq_some_iff.mp hd).1
  have hagree : r.log.take (p + 1) = (a.lead args.term).take (p + 1) :=
    hmatch hd he (hterm.trans het.symm)
  rw [hargs.prev, show (p : Int) + 1 = ((p + 1 : ℕ) : Int) by push_cast; rfl,
    appendNew_eq_splice _ _ _ (by omega),
    Replog.splice_eq_adopt _ _ _ _ hmatch (by omega) hagree hargs.entries]

/-- Following a leader of the own term: whoever else leads it, this node does not. -/
theorem NodeSim.asFollower (hok : AbsOk cfg a) (hn : NodeSim cfg a id r) {c : Int}
    (hled : a.led r.currentTerm c) (hne : id ≠ c) :
    NodeSim cfg a id { r with role := .follower } := { hn with
  leader := by
    constructor
    · intro h; simp at h
    · intro h; exact absurd (hok.inv.led_unique h hled) hne
  candidate := by intro h; simp at h
  next := by intro h; simp at h
  matched := by intro h; simp at h }

/-- **Taking over entries** from the leader of the own term. -/
theorem local_accept (hok : AbsOk cfg a) (hn : NodeSim cfg a id r) (hrole : r.role = .follower)
    {c : Int} (hled : a.led r.currentTerm c) (hne : id ≠ c) {m : ℕ}
    (hm : m ≤ (a.lead r.currentTerm).length) :
    Local cfg a (a.accept id m) id
      { r with log := Replog.adopt (a.lead r.currentTerm) r.log m } := by
  have hled' : a.led (a.term id) c := by rw [hn.term]; exact hled
  have hm' : m ≤ (a.lead (a.term id)).length := by rw [hn.term]; exact hm
  have hstep : Replog.Step (protocol cfg) a (a.accept id m) := .accept id c m hled' hne hm'
  have hlog : (a.accept id m).log id = Replog.adopt (a.lead r.currentTerm) r.log m := by
    rw [Replog.State.accept_log, if_pos rfl, hn.term, hn.log]
  refine ⟨Relation.ReflTransGen.single hstep,
    ⟨Replog.inv_accept hok.inv hled' hne hm', hok.member, hok.numbered, hok.sentinel⟩, ?_,
    fun j hj => sameAt_accept hj m, Or.inl⟩
  -- what was applied lies below the commit position, which the move keeps
  have hdel : deliveredOf (Replog.adopt (a.lead r.currentTerm) r.log m) r.lastApplied =
      deliveredOf r.log r.lastApplied := by
    have hcommit := hn.commit
    have happlied := hn.applied
    have hbounds := hn.commit_bounds hok
    have hkept := (hstep.commit_kept hok.inv id).2
    rw [hlog, hn.log, show a.commit id = r.lastApplied.toNat + 1 by omega] at hkept
    refine deliveredOf_congr ?_
    have h1 := List.prefix_iff_eq_take.mp hkept
    rw [List.length_take, min_eq_left (by omega)] at h1
    exact h1.symm
  exact { hn with
    log := hlog
    leader := by rw [hrole]; constructor
                 · intro h; simp at h
                 · intro h; exact absurd (hok.inv.led_unique h hled) hne
    candidate := by intro h; rw [hrole] at h; simp at h
    applyCh := by rw [hdel]; exact hn.applyCh
    next := by intro h; rw [hrole] at h; simp at h
    matched := by intro h; rw [hrole] at h; simp at h }

/-- Following the leader's commit index, once the stretch the request quotes is stored. -/
theorem local_followCommit (hok : AbsOk cfg a) (hn : NodeSim cfg a id r)
    {args : AppendEntriesArgs} {p : ℕ} (hargs : AppendArgsOk cfg a id args p)
    (hterm : args.term = r.currentTerm)
    (hstored : (a.lead args.term).take (p + 1 + args.entries.length) <+: r.log) :
    ∃ r' a', r.followCommit args.leaderCommit = some r' ∧ Local cfg a a' id r' ∧
      r'.role = r.role ∧ r'.currentTerm = r.currentTerm := by
  have hbounds := hn.commit_bounds hok
  have hle := hargs.commit_le
  have hlen := hargs.length_le
  have hlog : p + 1 + args.entries.length ≤ r.log.length := by
    have := hstored.length_le
    rw [List.length_take] at this; omega
  unfold RaftNode.followCommit
  by_cases hgt : args.leaderCommit > r.commitIndex
  · -- the clamp to the own log does nothing: the quoted stretch is stored
    have hclamp : (if args.leaderCommit < (r.log.length : Int) - 1 then args.leaderCommit
        else (r.log.length : Int) - 1) = args.leaderCommit := by
      split <;> omega
    -- the leader had committed no more than is chosen, and the node stores that much of it
    have hlearn : Learnable (protocol cfg) a id (args.leaderCommit.toNat + 1) := by
      rcases hargs.commit with h0 | ⟨t, j, hch, ht, hj, hpre⟩
      · omega
      · refine ⟨t, j, hch, by rw [hn.term, ← hterm]; exact ht, by omega, ?_⟩
        rw [hn.log]
        refine List.IsPrefix.trans ?_ hstored
        refine List.prefix_take_iff.mpr ⟨hpre, ?_⟩
        rw [List.length_take]; omega
    rw [if_pos hgt, hclamp]
    obtain ⟨r', a', hrun, hloc, hrole, hcur, _⟩ := local_commit hok hn hgt (by omega) hlearn
    exact ⟨r', a', hrun, hloc, hrole, hcur⟩
  · exact ⟨r, a, if_neg hgt, Local.refl hok hn, rfl, rfl⟩

/-- **Handling an append request** does not panic; what is acknowledged is stored. -/
theorem local_appendEntries (hok : AbsOk cfg a) (hn : NodeSim cfg a id r)
    {args : AppendEntriesArgs} {p : ℕ} (hargs : AppendArgsOk cfg a id args p) :
    ∃ r' reply, r.appendEntries args = some (r', reply) ∧ ∃ a', Local cfg a a' id r' ∧
      (reply.success = true → p + args.entries.length < a'.acked args.term id) := by
  obtain ⟨a₁, hloc, hquiet⟩ := local_catchUp hok hn args.term
  obtain ⟨r₁, hr₁⟩ : ∃ r₁, r.catchUp args.term = r₁ := ⟨_, rfl⟩
  rw [hr₁] at hloc
  have hargs₁ := hargs.mono (hloc.extends hok)
  have hne : id ≠ args.leaderID := ((mem_peers hargs.sender).mp hargs.peer).1
  have hled : r₁.currentTerm = args.term → a₁.led r₁.currentTerm args.leaderID := by
    intro hterm
    rw [hterm]; exact hargs₁.led
  -- a node that follows the leader of its own term
  have hloc₂ : r₁.currentTerm = args.term → Local cfg a a₁ id { r₁ with role := .follower } :=
    fun hterm => ⟨hloc.run, hloc.ok, hloc.node.asFollower hloc.ok (hled hterm) hne, hloc.frame,
      hloc.won⟩
  apply RaftNode.appendEntries_rule hr₁ (by rw [hargs.prev]; omega)
  · intro _
    exact ⟨a₁, hloc, by simp⟩
  · intro hterm _
    exact ⟨a₁, hloc₂ hterm, by simp⟩
  · -- the logs match at `p`, so the loop takes over what the leader holds
    intro hterm prev hget hmatch
    rw [hargs.prev, Slice.get_natCast] at hget
    have hnew := hloc.node.appendNew_eq_adopt hloc.ok hargs₁ hget hmatch
    have hacc := local_accept hloc.ok (hloc₂ hterm).node rfl (hled hterm) hne
      (m := p + 1 + args.entries.length) (by rw [hterm]; exact hargs₁.length_le)
    have hargs₃ := hargs₁.mono (hacc.extends hloc.ok)
    obtain ⟨r', a', hrun, hfol, _, _⟩ := local_followCommit hacc.ok hacc.node hargs₃ hterm.symm
      (by rw [← hterm]; exact Replog.adopt_stores _ _ _)
    rw [← hterm] at hnew
    refine ⟨_, r', hnew, hrun, a', (hloc₂ hterm).trans hquiet (hacc.trans (fun h => h) hfol), ?_⟩
    -- the move `accept` recorded the acknowledgement
    intro _
    have hack := (hfol.extends hacc.ok).acked args.term id
    have hmine : p + 1 + args.entries.length ≤
        (a₁.accept id (p + 1 + args.entries.length)).acked args.term id := by
      rw [Replog.State.accept_acked, if_pos ⟨by rw [hloc.node.term, hterm], rfl⟩]
      exact le_max_right _ _
    omega

/-! ### Proposals -/

/-- **Proposing a command** does not panic; a leader appends the command at the index it
    returns. -/
theorem local_submit (hok : AbsOk cfg a) (hid : id ∈ cfg.ids) (hn : NodeSim cfg a id r)
    (key value : Bytes) (tombstone : Bool) :
    ∃ r' res sent, r.submit key value tombstone = some (r', res, sent) ∧ ∃ a',
      Local cfg a a' id r' ∧ AppendPackets cfg a' sent := by
  apply RaftNode.submit_rule
  · intro _
    exact ⟨a, Local.refl hok hn, by intro q hq; simp at hq⟩
  intro hlead
  generalize hentry : r.newEntry key value tombstone = entry
  have hled : a.led (a.term id) id := by rw [hn.term]; exact hn.leader.mp hlead
  have hterm : entry.term = a.term id := by rw [← hentry]; exact hn.term.symm
  have hindex : entry.index = (a.log id).length := by rw [← hentry, hn.log]; rfl
  have hok' := absOk_propose hok hled hterm hindex
  have hext := (Replog.Step.propose (P := protocol cfg) id entry hled hterm).extends hok.inv
  have hn' : NodeSim cfg (a.propose id entry) id { r with log := r.log ++ [entry] } := {
    id_eq := hn.id_eq
    peers_eq := hn.peers_eq
    term := hn.term
    log := by rw [Replog.State.propose_log, if_pos rfl, hn.log]
    vote := hn.vote
    leader := hn.leader
    candidate := by intro h; rw [hlead] at h; simp at h
    commit := hn.commit
    applied := hn.applied
    -- the new entry is beyond what was applied
    applyCh := by
      have happlied := hn.applied
      have hbounds := hn.commit_bounds hok
      rw [hn.applyCh]
      have hdel : deliveredOf r.log r.lastApplied =
          deliveredOf (r.log ++ [entry]) r.lastApplied := by
        refine deliveredOf_congr ?_
        rw [List.take_append_of_le_length (by omega)]
      rw [hdel]
    next := by
      intro _ q hq
      have := hn.next hlead q hq
      simp only [List.length_append, List.length_singleton]
      omega
    matched := by
      intro _ q hq
      obtain ⟨h0, h1⟩ := hn.matched hlead q hq
      refine ⟨h0, fun hpos => lt_of_lt_of_le (h1 hpos) ?_⟩
      exact_mod_cast hext.acked r.currentTerm q }
  obtain ⟨sent, hsent, hpk⟩ := broadcastHeartbeats_ok hok' hid hn'
  exact ⟨sent, hsent, _, ⟨Relation.ReflTransGen.single (.propose id entry hled hterm), hok', hn',
    fun j hj => sameAt_propose hj entry, Or.inl⟩, hpk⟩

end Hallownest.Consensus
