import Hallownest.Consensus.Handlers
import Hallownest.Consensus.Replication
import Hallownest.Consensus.Safety

namespace Hallownest.Consensus

open Cluster (Reached)

/-!
# Consensus — logs and indices of every cluster

Every log is well formed and every index lies within it, in all reached states of all
clusters.  Nothing is assumed about the ids: where a term has two leaders, logs need not match
and a node may have committed more than its log holds, but no read is ever out of range.

* `LogOk` — the dummy entry, then entries that name their positions, in the order of their
  terms.
* `Started` — what the loops over the log need so as not to panic.
* `NodeOk` — what holds of a node by itself.
* `Onward` — how a step may change a node.  A node leads a term at most once and its log does
  not shrink as long as it leads, so a reply that arrives late is still within the log.
* `AppendOk` — an append request quotes a well-formed log, and reaches no further than the log
  of its sender as long as the sender leads the term of the request.
* `ClusterOk.step` — a step panics nowhere and keeps all of this.
-/

variable {cfg : Config} {s s' : Cluster} {acts : List Action}

/-! ### Logs -/

/-- A well-formed log with terms up to `t`. -/
structure LogOk (t : Int) (log : List RaftLogEntry) : Prop where
  dummy : log[0]? = some dummyEntry
  numbered : Numbered log
  pos : ∀ {i : ℕ} {e : RaftLogEntry}, 0 < i → log[i]? = some e → 1 ≤ e.term
  sorted : ∀ {i j : ℕ} {d e : RaftLogEntry}, i ≤ j → log[i]? = some d → log[j]? = some e →
    d.term ≤ e.term
  le : ∀ e ∈ log, e.term ≤ t

namespace LogOk

variable {t t' : Int} {log : List RaftLogEntry}

/-- A log of earlier terms is one of later terms. -/
theorem mono (h : LogOk t log) (ht : t ≤ t') : LogOk t' log :=
  ⟨h.dummy, h.numbered, h.pos, h.sorted, fun e he => (h.le e he).trans ht⟩

theorem length_pos (h : LogOk t log) : 0 < log.length :=
  (List.getElem?_eq_some_iff.mp h.dummy).1

/-- The dummy entry has term 0. -/
private theorem nonneg (h : LogOk t log) : 0 ≤ t :=
  h.le dummyEntry (List.mem_of_getElem? h.dummy)

/-- A beginning of a log. -/
theorem take (h : LogOk t log) {i : ℕ} (hi : 0 < i) : LogOk t (log.take i) := by
  have hread : ∀ {j : ℕ} {e : RaftLogEntry}, (log.take i)[j]? = some e → log[j]? = some e := by
    intro j e he
    rw [List.getElem?_take] at he
    split at he
    · exact he
    · cases he
  refine ⟨?_, fun j e he => h.numbered j e (hread he), fun hj he => h.pos hj (hread he),
    fun hjk hd he => h.sorted hjk (hread hd) (hread he),
    fun e he => h.le e (List.mem_of_mem_take he)⟩
  rw [List.getElem?_take_of_lt hi]
  exact h.dummy

/-- A log with one entry more. -/
theorem append (h : LogOk t log) {e : RaftLogEntry} (hidx : e.index = log.length)
    (hpos : 1 ≤ e.term) (hle : e.term ≤ t) (hlast : ∀ d ∈ log, d.term ≤ e.term) :
    LogOk t (log ++ [e]) := by
  have hread : ∀ {j : ℕ} {x : RaftLogEntry}, (log ++ [e])[j]? = some x →
      log[j]? = some x ∨ j = log.length ∧ x = e := by
    intro j x hx
    rcases Nat.lt_or_ge j log.length with hj | hj
    · rw [List.getElem?_append_left hj] at hx
      exact Or.inl hx
    · rw [List.getElem?_append_right hj, List.getElem?_singleton] at hx
      split at hx
      · exact Or.inr ⟨by omega, (Option.some.inj hx).symm⟩
      · cases hx
  constructor
  · rw [List.getElem?_append_left h.length_pos]
    exact h.dummy
  · intro i x hx
    rcases hread hx with hx | ⟨rfl, rfl⟩
    · exact h.numbered i x hx
    · exact hidx
  · intro i x hi hx
    rcases hread hx with hx | ⟨_, rfl⟩
    · exact h.pos hi hx
    · exact hpos
  · intro i j d x hij hd hx
    rcases hread hd with hold | ⟨rfl, rfl⟩
    · rcases hread hx with hx | ⟨_, rfl⟩
      · exact h.sorted hij hold hx
      · exact hlast d (List.mem_of_getElem? hold)
    · rcases hread hx with hx | ⟨_, rfl⟩
      · have := (List.getElem?_eq_some_iff.mp hx).1
        omega
      · exact le_refl _
  · intro d hd
    rcases List.mem_append.mp hd with hd | hd
    · exact h.le d hd
    · rw [List.mem_singleton.mp hd]; exact hle

/-- Writing entries of one well-formed log into another, behind a position at which their terms
    agree. -/
theorem splice {L : List RaftLogEntry} (h : LogOk t log) (hL : LogOk t L) {p : ℕ}
    {d e : RaftLogEntry} (hd : log[p]? = some d) (he : L[p]? = some e) (hterm : d.term = e.term) :
    LogOk t (Replog.splice RaftLogEntry.term log (p + 1) (L.drop (p + 1))) := by
  -- what the loop keeps: the entry before the next position has the term it has in `L`
  let I : List RaftLogEntry → ℕ → List RaftLogEntry → Prop := fun l i es =>
    LogOk t l ∧ es = L.drop i ∧ ∃ p d e, i = p + 1 ∧ l[p]? = some d ∧ L[p]? = some e ∧
      d.term = e.term
  have hnext : ∀ {i : ℕ} {x : RaftLogEntry} {es : List RaftLogEntry}, x :: es = L.drop i →
      L[i]? = some x ∧ es = L.drop (i + 1) := by
    intro i x es hes
    constructor
    · rw [← Nat.add_zero i, ← List.getElem?_drop, ← hes]; rfl
    · rw [← List.tail_drop, ← hes]; rfl
  have hstart : I log (p + 1) (L.drop (p + 1)) := ⟨h, rfl, p, d, e, rfl, hd, he, hterm⟩
  have hrule := Replog.splice_rule RaftLogEntry.term (I := I) ?_ ?_
    (List.getElem?_eq_some_iff.mp hd).1 hstart
  · exact hrule.1
  · rintro l i x y es ⟨hl, hes, _⟩ hx hxy
    obtain ⟨hy, hes⟩ := hnext hes
    exact ⟨hl, hes, i, x, y, rfl, hx, hy, hxy⟩
  · rintro l i y es ⟨hl, hes, p, d, e, rfl, hd, he, hterm⟩ hi
    obtain ⟨hy, hes⟩ := hnext hes
    have hlen : (l.take (p + 1)).length = p + 1 := by rw [List.length_take]; omega
    refine ⟨(hl.take (Nat.succ_pos p)).append ?_ (hL.pos (Nat.succ_pos p) hy)
      (hL.le y (List.mem_of_getElem? hy)) ?_, hes, p + 1, y, y, rfl, ?_, hy, rfl⟩
    · rw [hlen]; exact hL.numbered _ _ hy
    · -- what stands before the cut is not later than the entry at `p`, nor is that than `y`
      intro x hx
      obtain ⟨j, hj, rfl⟩ := List.mem_take_iff_getElem.mp hx
      calc (l[j]).term ≤ d.term := hl.sorted (by omega) (List.getElem?_eq_getElem (by omega)) hd
        _ = e.term := hterm
        _ ≤ y.term := hL.sorted (Nat.le_succ p) he hy
    · rw [List.getElem?_append_right (by omega), hlen, Nat.sub_self]; rfl

end LogOk

/-! ### Started nodes -/

/-- What `NewRaftNode` sets up and no function undoes: the dummy entry is in place, and the
    commit index and the last applied index are positions. -/
structure Started (r : RaftNode) : Prop where
  dummy : r.log[0]? = some dummyEntry
  commit : 0 ≤ r.commitIndex
  applied : 0 ≤ r.lastApplied

namespace Started

open RaftNode

variable {r r' : RaftNode}

theorem length_pos (h : Started r) : 0 < r.log.length :=
  (List.getElem?_eq_some_iff.mp h.dummy).1

/-- The apply loop reads only up to the commit index. -/
private theorem applyLoop_returns : ∀ {n : ℕ} {r : RaftNode}, 0 ≤ r.lastApplied →
    r.commitIndex < r.log.length → ∃ r', applyLoop n r = some r' ∧ 0 ≤ r'.lastApplied := by
  intro n
  induction n with
  | zero => intro r h0 _; exact ⟨r, rfl, h0⟩
  | succ n ih =>
    intro r h0 hlt
    by_cases hgt : r.commitIndex > r.lastApplied
    · obtain ⟨entry, hentry⟩ :=
        Slice.exists_get (s := r.log) (i := r.lastApplied + 1) (by omega) (by omega)
      obtain ⟨r', hrun, h0'⟩ := ih (r := { r with
        lastApplied := r.lastApplied + 1
        applyCh := deliver r.applyCh entry }) (by show 0 ≤ r.lastApplied + 1; omega) hlt
      refine ⟨r', ?_, h0'⟩
      rw [applyLoop, if_pos hgt, hentry]
      exact hrun
    · exact ⟨r, by rw [applyLoop, if_neg hgt], h0⟩

/-- Committing up to a position of the log. -/
theorem applyLogs (h : Started r) {N : Int} (hN : 0 ≤ N) (hlt : N < r.log.length) :
    ∃ r', RaftNode.applyLogs { r with commitIndex := N } = some r' ∧ Started r' := by
  obtain ⟨r', hrun, hla⟩ := applyLoop_returns (n := (N - r.lastApplied).toNat)
    (r := { r with commitIndex := N }) h.applied hlt
  have hci : r'.commitIndex = N := applyLoop_commitIndex hrun
  refine ⟨r', hrun, ?_, by rw [hci]; exact hN, hla⟩
  rw [(commits_applyLogs hrun).keepsLog.log]
  exact h.dummy

/-- The commit loop of a started node returns. -/
theorem checkAdvanceCommitIndex (h : Started r) :
    ∃ r', r.checkAdvanceCommitIndex = some r' ∧ Started r' := by
  have h0 := h.commit
  rcases advanceLoop_cases ((r.log.length : Int) - 1 - r.commitIndex).toNat
    ((r.log.length : Int) - 1) r h0 (by omega) with hsame | ⟨M, e, hM, hMle, _, _, _, hto⟩
  · exact ⟨r, hsame, h⟩
  · obtain ⟨r', hrun, hr'⟩ := h.applyLogs (N := M) (by omega) (by omega)
    exact ⟨r', hto.trans hrun, hr'⟩

/-- Following a commit index returns. -/
theorem followCommit (h : Started r) (leaderCommit : Int) :
    ∃ r', r.followCommit leaderCommit = some r' ∧ Started r' := by
  have h0 := h.commit
  have hpos := h.length_pos
  unfold RaftNode.followCommit
  by_cases hgt : leaderCommit > r.commitIndex
  · rw [if_pos hgt]
    apply h.applyLogs
    · split <;> omega
    · split <;> omega
  · exact ⟨r, if_neg hgt, h⟩

end Started

/-! ### Nodes -/

/-- A node with a well-formed log and indices within it. -/
structure NodeOk (cfg : Config) (id : Int) (r : RaftNode) : Prop where
  id_eq : r.id = id
  peers_eq : r.peers = cfg.peers id
  log : LogOk r.currentTerm r.log
  term_pos : r.role ≠ .follower → 1 ≤ r.currentTerm
  commit : 0 ≤ r.commitIndex
  applied : 0 ≤ r.lastApplied
  next : r.role = .leader → ∀ p ∈ cfg.peers id,
    1 ≤ r.nextIndex p ∧ r.nextIndex p ≤ r.log.length
  matched : r.role = .leader → ∀ p ∈ cfg.peers id,
    0 ≤ r.matchIndex p ∧ r.matchIndex p < r.log.length

/-- What a step may do to a node: who stands or leads afterwards did so before or has entered a
    new term, and a leader that goes on has lost nothing of its log. -/
structure Onward (r r' : RaftNode) : Prop where
  term_le : r.currentTerm ≤ r'.currentTerm
  candidate : r'.role = .candidate → r.role = .candidate ∨ r.currentTerm < r'.currentTerm
  leader : r'.role = .leader → r.role = .candidate ∨ r.currentTerm < r'.currentTerm ∨
    r.role = .leader ∧ r.log.length ≤ r'.log.length

theorem Onward.refl (r : RaftNode) : Onward r r :=
  ⟨le_refl _, Or.inl, fun h => Or.inr (Or.inr ⟨h, le_refl _⟩)⟩

/-- An append request or reply with arguments `args`, whose sender has become `r`. -/
structure AppendOk (r : RaftNode) (args : AppendEntriesArgs) : Prop where
  quotes : ∃ (log : List RaftLogEntry) (p : ℕ) (e : RaftLogEntry), LogOk args.term log ∧
    args.prevLogIndex = p ∧ log[p]? = some e ∧ e.term = args.prevLogTerm ∧
    args.entries = log.drop (p + 1)
  term_le : args.term ≤ r.currentTerm
  settled : args.term = r.currentTerm → r.role ≠ .candidate
  within : args.term = r.currentTerm → r.role = .leader →
    args.prevLogIndex + args.entries.length < r.log.length

/-- The arguments of the append RPC a packet belongs to. -/
def appendArgs : Packet → Option AppendEntriesArgs
  | .voteRequest _ _ => none
  | .voteReply _ _ _ => none
  | .appendRequest _ args => some args
  | .appendReply _ args _ => some args

/-- The append requests in `sent` are those of node `id`, which is `r`. -/
def Sends (id : Int) (r : RaftNode) (sent : List Packet) : Prop :=
  ∀ q ∈ sent, ∀ args, appendArgs q = some args → args.leaderID = id ∧ AppendOk r args

/-- **A late request** is as good as it was when it was sent. -/
theorem AppendOk.onward {r r' : RaftNode} {args : AppendEntriesArgs} (h : AppendOk r args)
    (hon : Onward r r') : AppendOk r' args := by
  have h1 := h.term_le
  have h2 := hon.term_le
  refine ⟨h.quotes, by omega, fun ht hrole => ?_, fun ht hrole => ?_⟩
  · rcases hon.candidate hrole with hc | hlt
    · exact h.settled (by omega) hc
    · omega
  · rcases hon.leader hrole with hc | hlt | ⟨hlead, hlen⟩
    · exact absurd hc (h.settled (by omega))
    · omega
    · have := h.within (by omega) hlead
      omega

namespace RaftNode

variable {r r' : RaftNode} {id : Int}

/-- A node that settles moves on if its log does not shrink while it leads. -/
theorem Settles.onward (h : Settles r r')
    (hlog : r'.role = .leader → r.log.length ≤ r'.log.length) : Onward r r' where
  term_le := h.term_le
  candidate := fun hc => Or.inl (h.candidate hc).1
  leader := fun hl => Or.inr (Or.inr ⟨(h.leader hl).1, hlog hl⟩)

theorem Settles.onward_of_log (h : Settles r r') (hlog : r'.log = r.log) : Onward r r' :=
  h.onward fun _ => by rw [hlog]

end RaftNode

namespace NodeOk

open RaftNode

variable {id : Int} {r r' : RaftNode}

/-- A sound node is started. -/
theorem started (h : NodeOk cfg id r) : Started r := ⟨h.log.dummy, h.commit, h.applied⟩

/-! ### Changes of a node -/

/-- A follower has no indices to keep. -/
theorem follower (h : NodeOk cfg id r) {t v : Int} {log : List RaftLogEntry} (hlog : LogOk t log) :
    NodeOk cfg id { r with role := .follower, currentTerm := t, votedFor := v, log := log } where
  id_eq := h.id_eq
  peers_eq := h.peers_eq
  log := hlog
  term_pos := by intro hrole; simp at hrole
  commit := h.commit
  applied := h.applied
  next := by intro hrole; simp at hrole
  matched := by intro hrole; simp at hrole

/-- A sound node stays sound when it catches up with a term. -/
theorem catchUp (h : NodeOk cfg id r) (t : Int) : NodeOk cfg id (r.catchUp t) := by
  rcases catchUp_cases r t with ⟨hlt, heq⟩ | ⟨_, heq⟩
  · rw [heq]; exact h.follower (h.log.mono (le_of_lt hlt))
  · rw [heq]; exact h

/-- A sound node stays sound when it votes. -/
theorem vote (h : NodeOk cfg id r) (c : Int) : NodeOk cfg id { r with votedFor := c } :=
  { h with }

/-- A sound node stays sound when it is killed. -/
theorem kill (h : NodeOk cfg id r) : NodeOk cfg id { r with killed := true } := { h with }

/-- A sound node that stands for election is sound. -/
theorem stands (h : NodeOk cfg id r) : NodeOk cfg id r.stands where
  id_eq := h.id_eq
  peers_eq := h.peers_eq
  log := h.log.mono (by simp [RaftNode.stands])
  term_pos := by
    intro _
    have := h.log.nonneg
    simp only [RaftNode.stands]
    omega
  commit := h.commit
  applied := h.applied
  next := by intro hrole; simp [RaftNode.stands] at hrole
  matched := by intro hrole; simp [RaftNode.stands] at hrole

/-- A sound candidate that is elected is sound. -/
theorem elected (h : NodeOk cfg id r) (hrole : r.role = .candidate) : NodeOk cfg id r.elected where
  id_eq := h.id_eq
  peers_eq := h.peers_eq
  log := h.log
  term_pos := fun _ => h.term_pos (by rw [hrole]; simp)
  commit := h.commit
  applied := h.applied
  next := by
    intro _ p hp
    rw [← h.peers_eq] at hp
    have := h.log.length_pos
    simp only [RaftNode.elected, if_pos hp]
    omega
  matched := by
    intro _ p hp
    rw [← h.peers_eq] at hp
    have := h.log.length_pos
    simp only [RaftNode.elected, if_pos hp]
    omega

/-- A leader's log with a new entry. -/
theorem propose (h : NodeOk cfg id r) (hlead : r.role = .leader) (key value : Bytes)
    (tombstone : Bool) :
    NodeOk cfg id { r with log := r.log ++ [r.newEntry key value tombstone] } where
  id_eq := h.id_eq
  peers_eq := h.peers_eq
  log := h.log.append rfl (h.term_pos (by rw [hlead]; simp)) (le_refl _) h.log.le
  term_pos := h.term_pos
  commit := h.commit
  applied := h.applied
  next := by
    intro _ p hp
    have := h.next hlead p hp
    simp only [List.length_append, List.length_singleton]
    omega
  matched := by
    intro _ p hp
    have := h.matched hlead p hp
    simp only [List.length_append, List.length_singleton]
    omega

/-- What an append reply does to the index of one peer. -/
theorem progress (h : NodeOk cfg id r) (hlead : r.role = .leader) (peer : Int) {next mat : Int}
    (hnext : 1 ≤ next ∧ next ≤ r.log.length) (hmat : 0 ≤ mat ∧ mat < r.log.length) :
    NodeOk cfg id { r with
      nextIndex := fun p => if p = peer then next else r.nextIndex p
      matchIndex := fun p => if p = peer then mat else r.matchIndex p } := { h with
  next := by
    intro _ p hp
    by_cases hpeer : p = peer
    · simp only [if_pos hpeer]; exact hnext
    · simp only [if_neg hpeer]; exact h.next hlead p hp
  matched := by
    intro _ p hp
    by_cases hpeer : p = peer
    · simp only [if_pos hpeer]; exact hmat
    · simp only [if_neg hpeer]; exact h.matched hlead p hp }

/-! ### Committing -/

/-- Committing within range keeps a node sound. -/
theorem commits (h : NodeOk cfg id r) (hc : Commits r r') (hcommit : 0 ≤ r'.commitIndex)
    (happlied : 0 ≤ r'.lastApplied) : NodeOk cfg id r' := by
  obtain ⟨ci, la, more, rfl⟩ := hc
  exact { h with
    commit := hcommit
    applied := happlied }

/-- The commit loop of a sound node returns a sound node. -/
theorem checkAdvanceCommitIndex (h : NodeOk cfg id r) :
    ∃ r', r.checkAdvanceCommitIndex = some r' ∧ NodeOk cfg id r' := by
  obtain ⟨r', hrun, hr'⟩ := h.started.checkAdvanceCommitIndex
  exact ⟨r', hrun, h.commits (commits_advanceLoop hrun) hr'.commit hr'.applied⟩

/-- Following a commit index returns. -/
theorem followCommit (h : NodeOk cfg id r) (leaderCommit : Int) :
    ∃ r', r.followCommit leaderCommit = some r' ∧ NodeOk cfg id r' := by
  obtain ⟨r', hrun, hr'⟩ := h.started.followCommit leaderCommit
  exact ⟨r', hrun, h.commits (commits_followCommit hrun) hr'.commit hr'.applied⟩

/-! ### Heartbeats -/

/-- A leader has a request for each peer, which is in order. -/
theorem heartbeatFor (h : NodeOk cfg id r) (hlead : r.role = .leader) {p : Int}
    (hp : p ∈ cfg.peers id) : ∃ q, r.heartbeatFor p = some q ∧
      ∀ args, appendArgs q = some args → args.leaderID = id ∧ AppendOk r args := by
  obtain ⟨hlo, hhi⟩ := h.next hlead p hp
  obtain ⟨n, e, he, hbeat⟩ := heartbeatFor_returns hlo hhi
  have hn := (List.getElem?_eq_some_iff.mp he).1
  refine ⟨_, hbeat, fun args hargs => ?_⟩
  obtain rfl := Option.some.inj hargs
  refine ⟨h.id_eq, ⟨r.log, n, e, h.log, rfl, he, rfl, rfl⟩, le_refl _, ?_, ?_⟩
  · intro _; rw [hlead]; simp
  · intro _ _
    show (n : Int) + ((r.log.drop (n + 1)).length : Int) < _
    rw [List.length_drop]; omega

/-- A broadcast returns, with requests that are in order. -/
theorem broadcastHeartbeats (h : NodeOk cfg id r) :
    ∃ sent, r.broadcastHeartbeats = some sent ∧ Sends id r sent := by
  unfold RaftNode.broadcastHeartbeats
  by_cases hlead : r.role = .leader
  · rw [if_neg (by simp [hlead]), h.peers_eq]
    exact Lists.exists_mapM fun p hp => h.heartbeatFor hlead hp
  · exact ⟨[], if_pos hlead, by simp [Sends]⟩

/-! ### Handlers -/

/-- **A vote request** does not panic at a sound node, which stays sound. -/
theorem requestVote (h : NodeOk cfg id r) (args : RequestVoteArgs) :
    ∃ r' reply, r.requestVote args = some (r', reply) ∧ NodeOk cfg id r' ∧ Onward r r' := by
  have hr₁ := h.catchUp args.term
  obtain ⟨r', reply, hrun, hr'⟩ : ∃ r' reply, r.requestVote args = some (r', reply) ∧
      NodeOk cfg id r' := by
    apply requestVote_rule rfl hr₁.log.length_pos
    · exact hr₁
    · intro _ _ _ _ _
      exact hr₁.vote _
  exact ⟨r', reply, hrun, hr',
    (settles_requestVote hrun).onward_of_log (keepsLog_requestVote hrun).log⟩

/-- **An append request** that is in order does not panic at a sound node. -/
theorem appendEntries (h : NodeOk cfg id r) {sender : RaftNode} {args : AppendEntriesArgs}
    (hargs : AppendOk sender args) :
    ∃ r' reply, r.appendEntries args = some (r', reply) ∧ NodeOk cfg id r' ∧ Onward r r' := by
  have hr₁ := h.catchUp args.term
  obtain ⟨r', reply, hrun, hr'⟩ : ∃ r' reply, r.appendEntries args = some (r', reply) ∧
      NodeOk cfg id r' := by
    obtain ⟨L, p, e, hL, hprev, he, hterm, hentries⟩ := hargs.quotes
    apply appendEntries_rule rfl (by omega)
    · intro _; exact hr₁
    · intro _ _; exact hr₁.follower hr₁.log
    · -- the request quotes a log that agrees with this one at `p`
      intro _ prev hget hmatch
      rw [hprev, Slice.get_natCast] at hget
      have hp := (List.getElem?_eq_some_iff.mp hget).1
      have hlog := hr₁.log.splice (hL.mono (le_catchUp r args.term)) hget he
        (hmatch.trans hterm.symm)
      obtain ⟨r', hrun, hr'⟩ := (hr₁.follower hlog).followCommit args.leaderCommit
      refine ⟨_, r', ?_, hrun, hr'⟩
      rw [hprev, hentries, show (p : Int) + 1 = ((p + 1 : ℕ) : Int) by push_cast; rfl,
        appendNew_eq_splice _ _ _ (by omega)]
  exact ⟨r', reply, hrun, hr', (settles_appendEntries hrun).onward fun hlead => by
    rw [(appendEntries_log hrun).2 hlead]⟩

/-- **An append reply** does not panic at a sound node. -/
theorem handleAppendReply (h : NodeOk cfg id r) (peer : Int) {args : AppendEntriesArgs}
    (hargs : AppendOk r args) (reply : AppendEntriesReply) :
    ∃ r', r.handleAppendReply peer args reply = some r' ∧ NodeOk cfg id r' ∧ Onward r r' := by
  obtain ⟨r', hrun, hr'⟩ : ∃ r', r.handleAppendReply peer args reply = some r' ∧
      NodeOk cfg id r' := by
    apply handleAppendReply_rule
    · exact h
    · intro hlater
      exact h.follower (h.log.mono (le_of_lt hlater))
    · -- the request ended within the log of the leader that the node was then, and is now
      intro hlead hterm _
      obtain ⟨_, p, _, _, hprev, _⟩ := hargs.quotes
      have hwithin := hargs.within hterm.symm hlead
      exact (h.progress hlead peer (by omega) (by omega)).checkAdvanceCommitIndex
    · intro hlead hback
      refine { h with next := ?_ }
      intro _ q hq
      have := h.next hlead q hq
      by_cases hqp : q = peer
      · subst hqp; simp only [if_true]; omega
      · simp only [if_neg hqp]; exact this
  exact ⟨r', hrun, hr',
    (settles_handleAppendReply hrun).onward_of_log (keepsLog_handleAppendReply hrun).log⟩

/-- **A proposal** does not panic at a sound node. -/
theorem submit (h : NodeOk cfg id r) (key value : Bytes) (tombstone : Bool) :
    ∃ r' res sent, r.submit key value tombstone = some (r', res, sent) ∧ NodeOk cfg id r' ∧
      Onward r r' ∧ Sends id r' sent := by
  apply submit_rule
  · intro _
    exact ⟨h, Onward.refl r, by simp [Sends]⟩
  · intro hlead
    have hr' := h.propose hlead key value tombstone
    obtain ⟨sent, hsent, hquote⟩ := hr'.broadcastHeartbeats
    refine ⟨sent, hsent, hr', ⟨le_refl _, Or.inl, fun _ => ?_⟩, hquote⟩
    exact Or.inr (Or.inr ⟨hlead, by simp⟩)

/-- **An election** does not panic at a sound node. -/
theorem startElection (h : NodeOk cfg id r) :
    ∃ r' sent, r.startElection = some (r', 1, sent) ∧ NodeOk cfg id r' ∧ Onward r r' ∧
      Sends id r' sent := by
  have honward : ∀ {r'}, r'.currentTerm = r.currentTerm + 1 → Onward r r' := fun hterm =>
    ⟨by omega, fun _ => Or.inr (by omega), fun _ => Or.inr (Or.inl (by omega))⟩
  apply startElection_rule h.log.length_pos
  · intro _
    have hr' := h.stands.elected rfl
    obtain ⟨sent, hsent, hquote⟩ := hr'.broadcastHeartbeats
    exact ⟨sent, hsent, hr', honward rfl, hquote⟩
  · intro last _
    refine ⟨h.stands, honward rfl, ?_⟩
    intro q hq args hargs
    obtain ⟨p, _, rfl⟩ := List.mem_map.mp hq
    cases hargs

/-- **A vote reply** does not panic at a sound node. -/
theorem handleVoteReply (h : NodeOk cfg id r) (args : RequestVoteArgs) (reply : RequestVoteReply)
    (votes : Int) :
    ∃ r' votes' sent, r.handleVoteReply args reply votes = some (r', votes', sent) ∧
      NodeOk cfg id r' ∧ Onward r r' ∧ Sends id r' sent := by
  have hnothing : ∀ r', Sends id r' [] := by simp [Sends]
  apply handleVoteReply_rule
  · exact ⟨h, Onward.refl r, hnothing r⟩
  · intro _ hlater
    exact ⟨h.follower (h.log.mono (le_of_lt hlater)),
      (settles_becomeFollower hlater).onward_of_log rfl, hnothing _⟩
  · intro _ _ _
    exact ⟨h, Onward.refl r, hnothing r⟩
  · intro hcand _ _ _
    have hr' := h.elected hcand
    obtain ⟨sent, hsent, hquote⟩ := hr'.broadcastHeartbeats
    refine ⟨sent, hsent, hr', ⟨le_refl _, ?_, fun _ => Or.inl hcand⟩, hquote⟩
    intro hrole; cases hrole

end NodeOk

/-! ### Clusters -/

/-- A cluster of such nodes, in which the append RPCs in flight are such requests. -/
structure ClusterOk (cfg : Config) (s : Cluster) : Prop where
  nodes : ∀ id, NodeOk cfg id (s.nodes id)
  packets : ∀ q ∈ s.net, ∀ args, appendArgs q = some args →
    AppendOk (s.nodes args.leaderID) args

/-- A new cluster is sound. -/
theorem clusterOk_initial (cfg : Config) : ClusterOk cfg (Cluster.initial cfg) where
  nodes := by
    intro id
    have hread : ∀ {i : ℕ} {e : RaftLogEntry}, [dummyEntry][i]? = some e →
        i = 0 ∧ e = dummyEntry := by
      intro i e he
      rw [List.getElem?_singleton] at he
      split at he
      · exact ⟨by assumption, (Option.some.inj he).symm⟩
      · cases he
    refine ⟨rfl, rfl, ⟨rfl, ?_, ?_, ?_, ?_⟩, by simp [Cluster.initial, newRaftNode], le_refl _,
      le_refl _, by simp [Cluster.initial, newRaftNode], by simp [Cluster.initial, newRaftNode]⟩
    · intro i e he
      obtain ⟨rfl, rfl⟩ := hread he
      rfl
    · intro i e hi he
      obtain ⟨rfl, rfl⟩ := hread he
      omega
    · intro i j d e _ hd he
      rw [(hread hd).2, (hread he).2]
    · intro e he
      rw [List.mem_singleton.mp he]
      exact le_refl _
  packets := by intro q hq; simp [Cluster.initial] at hq

namespace ClusterOk

/-- A step that replaces one node; what is in flight afterwards belongs to an RPC that was in
    flight before, or to that node. -/
theorem replace (h : ClusterOk cfg s) {id : Int} {r : RaftNode} (hr : NodeOk cfg id r)
    (hon : Onward (s.nodes id) r) (hnodes : s'.nodes = (s.setNode id r).nodes)
    (hnet : ∀ q ∈ s'.net, ∀ args, appendArgs q = some args →
      (∃ q₀ ∈ s.net, appendArgs q₀ = some args) ∨ (args.leaderID = id ∧ AppendOk r args)) :
    ClusterOk cfg s' where
  nodes := by
    intro j
    rw [hnodes]
    by_cases hj : j = id
    · subst hj; rw [Cluster.setNode_nodes_self]; exact hr
    · rw [Cluster.setNode_nodes_of_ne r hj]; exact h.nodes j
  packets := by
    intro q hq args hargs
    rw [hnodes]
    rcases hnet q hq args hargs with ⟨q₀, hq₀, hold⟩ | ⟨rfl, hnew⟩
    · exact (h.packets q₀ hq₀ args hold).onward
        (Cluster.setNode_relates Onward.refl hon args.leaderID)
    · rw [Cluster.setNode_nodes_self]; exact hnew

/-- A node changes and sends something. -/
theorem send (h : ClusterOk cfg s) {id : Int} {r : RaftNode} (hr : NodeOk cfg id r)
    (hon : Onward (s.nodes id) r) {sent : List Packet} (hsent : Sends id r sent)
    (hnodes : s'.nodes = (s.setNode id r).nodes) (hnet : ∀ q ∈ s'.net, q ∈ s.net ∨ q ∈ sent) :
    ClusterOk cfg s' :=
  h.replace hr hon hnodes fun q hq args hargs =>
    (hnet q hq).imp (fun hq => ⟨q, hq, hargs⟩) (fun hq => hsent q hq args hargs)

/-- **Delivering a packet.** -/
theorem receive (h : ClusterOk cfg s) {i : ℕ} {q : Packet} (hq : s.net[i]? = some q) :
    ∃ s', (s.take i).receive q = some s' ∧ ClusterOk cfg s' := by
  have hmem : q ∈ s.net := List.mem_of_getElem? hq
  -- the reply takes the place of the request
  have hreply : ∀ q' : Packet, appendArgs q' = appendArgs q →
      ∀ p ∈ s.net.eraseIdx i ++ [q'], ∀ args, appendArgs p = some args →
        ∃ q₀ ∈ s.net, appendArgs q₀ = some args := by
    intro q' hq' p hp args hargs
    rcases List.mem_append.mp hp with hp | hp
    · exact ⟨p, List.mem_of_mem_eraseIdx hp, hargs⟩
    · rw [List.mem_singleton.mp hp, hq'] at hargs
      exact ⟨q, hmem, hargs⟩
  cases q with
  | voteRequest peer args =>
    obtain ⟨r, reply, hrun, hr, hon⟩ := (h.nodes peer).requestVote args
    refine ⟨((s.take i).setNode peer r).send [.voteReply peer args reply], ?_,
      h.replace hr hon rfl fun p hp as has =>
        Or.inl (hreply (.voteReply peer args reply) rfl p hp as has)⟩
    rw [Cluster.receive, Cluster.take_nodes, hrun]; rfl
  | voteReply peer args reply =>
    obtain ⟨r, votes, sent, hrun, hr, hon, hsent⟩ := (h.nodes args.candidateID).handleVoteReply args
      reply (s.votesReceived args.candidateID args.term)
    refine ⟨(((s.take i).setNode args.candidateID r).setVotes args.candidateID args.term votes).send
      sent, ?_, h.send hr hon hsent rfl fun p hp => ?_⟩
    · rw [Cluster.receive, Cluster.take_nodes]
      exact congrArg (Option.bind · _) hrun
    · exact (List.mem_append.mp hp).imp_left List.mem_of_mem_eraseIdx
  | appendRequest peer args =>
    obtain ⟨r, reply, hrun, hr, hon⟩ := (h.nodes peer).appendEntries (h.packets _ hmem args rfl)
    refine ⟨((s.take i).setNode peer r).send [.appendReply peer args reply], ?_,
      h.replace hr hon rfl fun p hp as has =>
        Or.inl (hreply (.appendReply peer args reply) rfl p hp as has)⟩
    rw [Cluster.receive, Cluster.take_nodes, hrun]; rfl
  | appendReply peer args reply =>
    obtain ⟨r, hrun, hr, hon⟩ := (h.nodes args.leaderID).handleAppendReply peer
      (h.packets _ hmem args rfl) reply
    refine ⟨(s.take i).setNode args.leaderID r, ?_,
      h.replace hr hon rfl fun p hp as has => Or.inl ⟨p, List.mem_of_mem_eraseIdx hp, has⟩⟩
    rw [Cluster.receive, Cluster.take_nodes, hrun]; rfl

/-- **One step of a cluster** is not enabled, or succeeds. -/
theorem step (h : ClusterOk cfg s) (act : Action) :
    s.step cfg act = .error .disabled ∨ ∃ s', s.step cfg act = .ok s' ∧ ClusterOk cfg s' := by
  cases act with
  | electionTimeout id =>
    by_cases hen : id ∈ cfg.ids ∧ (s.nodes id).killed = false ∧ (s.nodes id).role ≠ .leader
    · right
      obtain ⟨r, sent, hrun, hr, hon, hsent⟩ := (h.nodes id).startElection
      refine ⟨((s.setNode id r).setVotes id r.currentTerm 1).send sent, ?_,
        h.send hr hon hsent rfl fun q hq => List.mem_append.mp hq⟩
      rw [Cluster.step, if_pos hen, hrun]; rfl
    · left; rw [Cluster.step, if_neg hen]
  | heartbeatTick id =>
    by_cases hen : id ∈ cfg.ids ∧ (s.nodes id).killed = false ∧ (s.nodes id).role = .leader
    · right
      obtain ⟨sent, hrun, hsent⟩ := (h.nodes id).broadcastHeartbeats
      refine ⟨s.send sent, ?_, h.send (h.nodes id) (Onward.refl _) hsent
        (congrArg Cluster.nodes (setNode_self s id)).symm fun q hq => List.mem_append.mp hq⟩
      rw [Cluster.step, if_pos hen, hrun]; rfl
    · left; rw [Cluster.step, if_neg hen]
  | submit id key value tombstone =>
    by_cases hen : id ∈ cfg.ids
    · right
      obtain ⟨r, res, sent, hrun, hr, hon, hsent⟩ := (h.nodes id).submit key value tombstone
      refine ⟨(s.setNode id r).send sent, ?_,
        h.send hr hon hsent rfl fun q hq => List.mem_append.mp hq⟩
      rw [Cluster.step, if_pos hen, hrun]; rfl
    · left; rw [Cluster.step, if_neg hen]
  | deliver i =>
    cases hq : s.net[i]? with
    | none => left; simp only [Cluster.step, hq]
    | some q =>
      right
      obtain ⟨s', hrun, hs'⟩ := h.receive hq
      refine ⟨s', ?_, hs'⟩
      simp only [Cluster.step, hq, hrun]; rfl
  | lose i =>
    by_cases hi : i < s.net.length
    · right
      exact ⟨s.take i, if_pos hi, h.nodes, fun q hq => h.packets q (List.mem_of_mem_eraseIdx hq)⟩
    · left; rw [Cluster.step, if_neg hi]
  | kill id =>
    by_cases hen : id ∈ cfg.ids
    · right
      refine ⟨s.setNode id { s.nodes id with killed := true }, if_pos hen,
        h.replace (h.nodes id).kill ⟨le_refl _, Or.inl, fun hl => Or.inr (Or.inr ⟨hl, le_refl _⟩)⟩
          rfl fun q hq args hargs => Or.inl ⟨q, hq, hargs⟩⟩
    · left; rw [Cluster.step, if_neg hen]

end ClusterOk

/-- **Every run** keeps the logs well formed and the indices within them. -/
theorem clusterOk_of_reached (hs : Reached cfg acts s) : ClusterOk cfg s := by
  refine Run.Reached.invariant (I := fun _ s => ClusterOk cfg s) (clusterOk_initial cfg) ?_ hs
  intro acts s act s' _ h hstep
  rcases h.step act with hno | ⟨u, hrun, hu⟩
  · rw [hstep] at hno; cases hno
  · rw [hstep] at hrun
    rwa [Except.ok.inj hrun]

/-! ### Results -/

/-- **No read of a log is out of range.**  A leader's indices stay within its log, every append
    request in flight starts from a position, and no step of any node panics, whatever arrives
    next. -/
theorem indices_in_range (hs : Reached cfg acts s) :
    (∀ id ∈ cfg.ids, (s.nodes id).role = .leader → ∀ p ∈ cfg.peers id,
      (1 ≤ (s.nodes id).nextIndex p ∧ (s.nodes id).nextIndex p ≤ (s.nodes id).log.length) ∧
      (0 ≤ (s.nodes id).matchIndex p ∧ (s.nodes id).matchIndex p < (s.nodes id).log.length)) ∧
    (∀ peer args, Packet.appendRequest peer args ∈ s.net → 0 ≤ args.prevLogIndex) ∧
    ∀ act, s.step cfg act ≠ .error .panic := by
  have h := clusterOk_of_reached hs
  refine ⟨fun id _ hlead p hp => ⟨(h.nodes id).next hlead p hp, (h.nodes id).matched hlead p hp⟩,
    fun peer args hmem => ?_, fun act hpanic => ?_⟩
  · obtain ⟨_, p, _, _, hprev, _⟩ := (h.packets _ hmem args rfl).quotes
    omega
  · rcases h.step act with hno | ⟨u, hrun, _⟩
    · rw [hno] at hpanic; cases hpanic
    · rw [hrun] at hpanic; cases hpanic

/-- After `pairRun` node 0 leads with one entry that node 1 holds. -/
theorem indices_in_range_pair : ∃ s, Reached pair pairRun s ∧ (s.nodes 0).role = .leader ∧
    (s.nodes 0).nextIndex 1 ≤ (s.nodes 0).log.length ∧
    ∀ act, s.step pair act ≠ .error .panic := by
  obtain ⟨s, hs, hlead⟩ := Run.exists_reached (Cluster.step pair) (Cluster.initial pair) pairRun
    (fun s => (s.nodes 0).role) .leader (by decide)
  obtain ⟨hindex, _, hpanic⟩ := indices_in_range hs
  exact ⟨s, hs, hlead, (hindex 0 (by decide) hlead 1 (by decide)).1.2, hpanic⟩

/-- **Logs are well formed.**  The dummy entry is at position 0, every entry names its position,
    the terms start from 1 and do not decrease, and the last one is not later than the node's
    own. -/
theorem logs_well_formed (hs : Reached cfg acts s) : ∀ id ∈ cfg.ids,
    (s.nodes id).log[0]? = some dummyEntry ∧
    (∀ (i : ℕ) (e : RaftLogEntry), (s.nodes id).log[i]? = some e → e.index = i) ∧
    (∀ (i : ℕ) (e : RaftLogEntry), 1 ≤ i → (s.nodes id).log[i]? = some e → 1 ≤ e.term) ∧
    (∀ (i j : ℕ) (d e : RaftLogEntry), i ≤ j → (s.nodes id).log[i]? = some d →
      (s.nodes id).log[j]? = some e → d.term ≤ e.term) ∧
    ∀ e, (s.nodes id).log.getLast? = some e → e.term ≤ (s.nodes id).currentTerm := by
  intro id _
  have hlog := ((clusterOk_of_reached hs).nodes id).log
  exact ⟨hlog.dummy, hlog.numbered, fun _ _ => hlog.pos, fun _ _ _ _ => hlog.sorted,
    fun e he => hlog.le e (List.mem_of_getLast? he)⟩

/-- After `pairRun` the log of node 1 ends with the command of node 0. -/
theorem logs_well_formed_pair : ∃ s, Reached pair pairRun s ∧ (s.nodes 1).log.length = 2 ∧
    ∀ e, (s.nodes 1).log[1]? = some e → e.index = 1 ∧ 1 ≤ e.term := by
  obtain ⟨s, hs, hlen⟩ := Run.exists_reached (Cluster.step pair) (Cluster.initial pair) pairRun
    (fun s => (s.nodes 1).log.length) 2 (by decide)
  obtain ⟨_, hindex, hterm, _⟩ := logs_well_formed hs 1 (by decide)
  exact ⟨s, hs, hlen, fun e he => ⟨hindex 1 e he, hterm 1 e (le_refl 1) he⟩⟩

end Hallownest.Consensus
