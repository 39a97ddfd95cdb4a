import Hallownest.Consensus.Cluster
import Hallownest.Lib.Lists

namespace Hallownest.Consensus

/-!
# Consensus — what a handler can do

For every function of a node, what a call that returns has done: which fields it has changed
and what it has sent.  Nothing is assumed about the node, so these facts also hold of nodes
that have lost their memory.

* `Commits` — only the commit index and what follows from it has changed.
* `Settles` — a candidate or leader afterwards was it before, in the same term.  All functions
  but the two that run an election are such.
* `Takes` — the steps of a cluster, one constructor for each handler (`step_takes`).

The rules go the other way (`requestVote_rule`, `appendEntries_rule`, …): a handler
returns, with a result that has a property, if it does so in each of its cases.
-/

namespace RaftNode

variable {r r' : RaftNode}

/-! ### Sent on the channel -/

/-- Only the commit index, the last applied index and the channel have changed, and what was
    sent on the channel before has stayed. -/
def Commits (r r' : RaftNode) : Prop :=
  ∃ (commitIndex lastApplied : Int) (more : List ApplyMsg), r' =
    { r with
      commitIndex := commitIndex
      lastApplied := lastApplied
      applyCh := r.applyCh.map (· ++ more) }

theorem Commits.refl (r : RaftNode) : Commits r r :=
  ⟨r.commitIndex, r.lastApplied, [], by cases r; simp⟩

/-- What `deliver` puts on a channel comes behind what is there. -/
theorem deliver_eq (ch : Option (List ApplyMsg)) (entry : RaftLogEntry) :
    ∃ more, deliver ch entry = ch.map (· ++ more) := by
  by_cases hidx : entry.index > 0
  · exact ⟨[applyMsg entry], by simp [deliver, hidx]⟩
  · exact ⟨[], by simp [deliver, hidx]⟩

/-- The loop of `applyLogs` moves `lastApplied` and sends on the channel. -/
theorem commits_applyLoop : ∀ {n : ℕ} {r : RaftNode}, applyLoop n r = some r' → Commits r r' := by
  intro n
  induction n with
  | zero =>
    intro r h
    rw [applyLoop] at h
    obtain rfl := Option.some.inj h
    exact Commits.refl r
  | succ n ih =>
    intro r h
    rw [applyLoop] at h
    split at h
    · obtain ⟨entry, _, hrest⟩ := Option.bind_eq_some_iff.mp h
      obtain ⟨ci, la, more, rfl⟩ := ih hrest
      obtain ⟨first, hfirst⟩ := deliver_eq r.applyCh entry
      refine ⟨ci, la, first ++ more, ?_⟩
      simp [hfirst, Function.comp_def]
    · obtain rfl := Option.some.inj h
      exact Commits.refl r

theorem commits_applyLogs {N : Int} (h : applyLogs { r with commitIndex := N } = some r') :
    Commits r r' := by
  obtain ⟨ci, la, more, rfl⟩ := commits_applyLoop h
  exact ⟨ci, la, more, rfl⟩

/-- The loop of `applyLogs` leaves the commit index. -/
theorem applyLoop_commitIndex : ∀ {n : ℕ} {r : RaftNode}, applyLoop n r = some r' →
    r'.commitIndex = r.commitIndex := by
  intro n
  induction n with
  | zero =>
    intro r h
    rw [applyLoop] at h
    rw [Option.some.inj h]
  | succ n ih =>
    intro r h
    rw [applyLoop] at h
    split at h
    · obtain ⟨entry, _, hrest⟩ := Option.bind_eq_some_iff.mp h
      rw [ih hrest]
    · rw [Option.some.inj h]

/-- The loop of `checkAdvanceCommitIndex` commits and applies. -/
theorem commits_advanceLoop : ∀ {n : ℕ} {N : Int}, advanceLoop n N r = some r' →
    Commits r r' := by
  intro n
  induction n with
  | zero =>
    intro N h
    rw [advanceLoop] at h
    obtain rfl := Option.some.inj h
    exact Commits.refl r
  | succ n ih =>
    intro N h
    rw [advanceLoop] at h
    split at h
    · obtain ⟨entry, _, hrest⟩ := Option.bind_eq_some_iff.mp h
      split at hrest
      · exact ih hrest
      · split at hrest
        · exact commits_applyLogs hrest
        · exact ih hrest
    · obtain rfl := Option.some.inj h
      exact Commits.refl r

/-- A follower that hears of a commit index commits and applies. -/
theorem commits_followCommit {leaderCommit : Int} (h : r.followCommit leaderCommit = some r') :
    Commits r r' := by
  unfold followCommit at h
  split at h
  · exact commits_applyLogs h
  · obtain rfl := Option.some.inj h
    exact Commits.refl r

/-- A node that follows a leader commits no further than that. -/
theorem followCommit_le {leaderCommit : Int} (h : r.followCommit leaderCommit = some r') :
    r'.commitIndex ≤ max r.commitIndex leaderCommit := by
  unfold followCommit at h
  split at h
  · rw [applyLoop_commitIndex h]
    dsimp only
    split <;> omega
  · obtain rfl := Option.some.inj h
    exact le_max_left _ _

/-- A node that follows a leader commits as far, if its log reaches. -/
theorem le_followCommit {leaderCommit : Int} (h : r.followCommit leaderCommit = some r')
    (hlt : leaderCommit < r.log.length) : leaderCommit ≤ r'.commitIndex := by
  unfold followCommit at h
  split at h
  · rw [applyLoop_commitIndex h]
    dsimp only
    split <;> omega
  · obtain rfl := Option.some.inj h
    omega

/-! ### Heartbeats -/

/-- An append request of node `r`, with entries from its log. -/
def Quotes (r : RaftNode) (q : Packet) : Prop :=
  ∃ peer args, q = .appendRequest peer args ∧ args.leaderID = r.id ∧
    args.term = r.currentTerm ∧ ∀ e ∈ args.entries, e ∈ r.log

/-- The request to one peer carries the whole rest of the log. -/
theorem heartbeatFor_eq {peerID : Int} {q : Packet} (h : r.heartbeatFor peerID = some q) :
    ∃ args, q = .appendRequest peerID args ∧ args.leaderID = r.id ∧
      args.term = r.currentTerm ∧ args.leaderCommit = r.commitIndex ∧
      Slice.after r.log (args.prevLogIndex + 1) = some args.entries := by
  unfold heartbeatFor at h
  obtain ⟨prev, _, h⟩ := Option.bind_eq_some_iff.mp h
  obtain ⟨entries, hentries, h⟩ := Option.bind_eq_some_iff.mp h
  exact ⟨_, (Option.some.inj h).symm, rfl, rfl, rfl, hentries⟩

/-- A request for a peer quotes the log of its sender. -/
theorem quotes_heartbeatFor {peerID : Int} {q : Packet} (h : r.heartbeatFor peerID = some q) :
    Quotes r q := by
  obtain ⟨args, hq, hid, hterm, _, hentries⟩ := heartbeatFor_eq h
  exact ⟨peerID, args, hq, hid, hterm, fun e he => Slice.mem_of_mem_after hentries he⟩

/-- The request that starts from entry `e` at position `n`. -/
def requestFrom (r : RaftNode) (n : ℕ) (e : RaftLogEntry) : AppendEntriesArgs where
  term := r.currentTerm
  leaderID := r.id
  prevLogIndex := n
  prevLogTerm := e.term
  entries := r.log.drop (n + 1)
  leaderCommit := r.commitIndex

/-- The two reads of the log for the request to one peer. -/
theorem heartbeatFor_of_next {peerID : Int} {n : ℕ} {e : RaftLogEntry}
    (hnext : r.nextIndex peerID = n + 1) (he : r.log[n]? = some e) :
    r.heartbeatFor peerID = some (.appendRequest peerID (r.requestFrom n e)) := by
  have hlt := (List.getElem?_eq_some_iff.mp he).1
  have hafter := Slice.after_of_le (s := r.log) (i := ((n : Int) + 1)) (by omega) (by omega)
  rw [heartbeatFor, show r.nextIndex peerID - 1 = n by omega, if_neg (by omega),
    Slice.get_natCast, he, hafter, show ((n : Int) + 1).toNat = n + 1 by omega]
  rfl

/-- With a next index within the log there is a request to send. -/
theorem heartbeatFor_returns {peerID : Int} (hlo : 1 ≤ r.nextIndex peerID)
    (hhi : r.nextIndex peerID ≤ r.log.length) :
    ∃ (p : ℕ) (e : RaftLogEntry), r.log[p]? = some e ∧ r.heartbeatFor peerID =
      some (.appendRequest peerID
        { term := r.currentTerm
          leaderID := r.id
          prevLogIndex := p
          prevLogTerm := e.term
          entries := r.log.drop (p + 1)
          leaderCommit := r.commitIndex }) := by
  obtain ⟨p, hp⟩ : ∃ p : ℕ, r.nextIndex peerID = p + 1 := ⟨(r.nextIndex peerID - 1).toNat, by omega⟩
  have he : r.log[p]? = some r.log[p] := List.getElem?_eq_getElem (by omega)
  exact ⟨p, _, he, heartbeatFor_of_next hp he⟩

/-- What a broadcast sends: a leader's requests, one to each peer. -/
theorem mem_broadcast {sent : List Packet} (h : r.broadcastHeartbeats = some sent) {q : Packet}
    (hq : q ∈ sent) : r.role = .leader ∧ ∃ p ∈ r.peers, r.heartbeatFor p = some q := by
  unfold broadcastHeartbeats at h
  split at h
  · obtain rfl := Option.some.inj h
    simp at hq
  · rename_i hrole
    exact ⟨by simpa using hrole, Lists.exists_of_mem_result h hq⟩

/-- Every request of a broadcast quotes the log of its sender. -/
theorem quotes_broadcast {sent : List Packet} (h : r.broadcastHeartbeats = some sent) :
    ∀ q ∈ sent, Quotes r q := by
  intro q hq
  obtain ⟨_, p, _, hp⟩ := mem_broadcast h hq
  exact quotes_heartbeatFor hp

/-! ### Requests -/

/-- Both request handlers first catch up with a later term. -/
def catchUp (r : RaftNode) (t : Int) : RaftNode :=
  if t > r.currentTerm then r.becomeFollower t else r

/-- A later term makes the node its follower; an earlier one changes nothing. -/
theorem catchUp_cases (r : RaftNode) (t : Int) :
    (r.currentTerm < t ∧ r.catchUp t = r.becomeFollower t) ∨
      (t ≤ r.currentTerm ∧ r.catchUp t = r) := by
  unfold catchUp
  by_cases ht : t > r.currentTerm
  · exact Or.inl ⟨ht, if_pos ht⟩
  · exact Or.inr ⟨by omega, if_neg ht⟩

@[simp] theorem catchUp_log (r : RaftNode) (t : Int) : (r.catchUp t).log = r.log := by
  unfold catchUp
  split <;> rfl

@[simp] theorem catchUp_commitIndex (r : RaftNode) (t : Int) :
    (r.catchUp t).commitIndex = r.commitIndex := by
  unfold catchUp
  split <;> rfl

@[simp] theorem catchUp_applyCh (r : RaftNode) (t : Int) :
    (r.catchUp t).applyCh = r.applyCh := by
  unfold catchUp
  split <;> rfl

/-- The node is in the later of the two terms. -/
theorem catchUp_term (r : RaftNode) (t : Int) :
    (r.catchUp t).currentTerm = max r.currentTerm t := by
  rcases catchUp_cases r t with ⟨hlt, h⟩ | ⟨hle, h⟩
  · rw [h, max_eq_right hlt.le]; rfl
  · rw [h, max_eq_left hle]

theorem le_catchUp (r : RaftNode) (t : Int) : t ≤ (r.catchUp t).currentTerm :=
  (le_max_right _ _).trans_eq (catchUp_term r t).symm

/-- **A vote request** is refused, or the vote is free and granted. -/
theorem requestVote_cases {args : RequestVoteArgs} {reply : RequestVoteReply}
    (h : r.requestVote args = some (r', reply)) :
    (r' = r.catchUp args.term ∧ reply = ⟨(r.catchUp args.term).currentTerm, false⟩) ∨
      (r' = { r.catchUp args.term with votedFor := args.candidateID } ∧
        reply = ⟨(r.catchUp args.term).currentTerm, true⟩ ∧
        args.term = (r.catchUp args.term).currentTerm) := by
  rw [requestVote, ← catchUp] at h
  have hle := le_catchUp r args.term
  generalize r.catchUp args.term = r₁ at *
  by_cases hlt : args.term < r₁.currentTerm
  · simp only [hlt, if_true, Option.pure_def, Option.some.injEq, Prod.mk.injEq] at h
    obtain ⟨rfl, rfl⟩ := h
    exact Or.inl ⟨rfl, rfl⟩
  · simp only [hlt, if_false] at h
    obtain ⟨last, _, h⟩ := Option.bind_eq_some_iff.mp h
    split at h
    · obtain ⟨rfl, rfl⟩ := Prod.mk.inj (Option.some.inj h)
      exact Or.inr ⟨rfl, rfl, by omega⟩
    · obtain ⟨rfl, rfl⟩ := Prod.mk.inj (Option.some.inj h)
      exact Or.inl ⟨rfl, rfl⟩

/-- The loop over the entries of a request takes entries from the log and the request. -/
theorem mem_appendNew : ∀ {es log log' : List RaftLogEntry} {idx : Int},
    appendNew log idx es = some log' → ∀ e ∈ log', e ∈ log ∨ e ∈ es := by
  intro es
  induction es with
  | nil =>
    intro log log' idx h e he
    rw [appendNew] at h
    obtain rfl := Option.some.inj h
    exact Or.inl he
  | cons d es ih =>
    intro log log' idx h e he
    -- whatever the round makes of the log, it holds old entries and perhaps `d`
    have hround : ∀ {mid : List RaftLogEntry}, appendNew mid (idx + 1) es = some log' →
        (∀ x ∈ mid, x ∈ log ∨ x = d) → e ∈ log ∨ e ∈ d :: es := by
      intro mid hrest hmid
      rcases ih hrest e he with hm | hm
      · rcases hmid e hm with hm | rfl
        · exact Or.inl hm
        · exact Or.inr (by simp)
      · exact Or.inr (by simp [hm])
    rw [appendNew] at h
    split at h
    · obtain ⟨held, _, h⟩ := Option.bind_eq_some_iff.mp h
      split at h
      · obtain ⟨kept, hkept, h⟩ := Option.bind_eq_some_iff.mp h
        apply hround h
        intro x hx
        rcases List.mem_append.mp hx with hx | hx
        · exact Or.inl (Slice.mem_of_mem_upTo hkept hx)
        · exact Or.inr (List.mem_singleton.mp hx)
      · exact hround h fun x hx => Or.inl hx
    · apply hround h
      intro x hx
      rcases List.mem_append.mp hx with hx | hx
      · exact Or.inl hx
      · exact Or.inr (List.mem_singleton.mp hx)

/-- **An append request** is of an earlier term, or does not match the log, or its entries are
    taken over and its commit index is followed. -/
theorem appendEntries_inv {args : AppendEntriesArgs} {reply : AppendEntriesReply}
    (h : r.appendEntries args = some (r', reply)) :
    (r' = r.catchUp args.term ∧ args.term < (r.catchUp args.term).currentTerm ∧
        reply = ⟨(r.catchUp args.term).currentTerm, false⟩) ∨
      (r' = { r.catchUp args.term with role := .follower } ∧
        reply = ⟨(r.catchUp args.term).currentTerm, false⟩) ∨
      ((r.catchUp args.term).currentTerm = args.term ∧ reply = ⟨r'.currentTerm, true⟩ ∧
        ∃ prev log, Slice.get r.log args.prevLogIndex = some prev ∧
          prev.term = args.prevLogTerm ∧
          appendNew r.log (args.prevLogIndex + 1) args.entries = some log ∧
          followCommit { r.catchUp args.term with role := .follower, log := log }
            args.leaderCommit = some r') := by
  have hle := le_catchUp r args.term
  rw [appendEntries, ← catchUp] at h
  rw [← catchUp_log r args.term]
  generalize r.catchUp args.term = r₁ at *
  by_cases hlt : args.term < r₁.currentTerm
  · simp only [hlt, if_true, Option.pure_def, Option.some.injEq, Prod.mk.injEq] at h
    obtain ⟨rfl, rfl⟩ := h
    exact Or.inl ⟨rfl, hlt, rfl⟩
  · right
    simp only [hlt, if_false] at h
    split at h
    · obtain ⟨rfl, rfl⟩ := Prod.mk.inj (Option.some.inj h)
      exact Or.inl ⟨rfl, rfl⟩
    · obtain ⟨prev, hprev, h⟩ := Option.bind_eq_some_iff.mp h
      split at h
      · obtain ⟨rfl, rfl⟩ := Prod.mk.inj (Option.some.inj h)
        exact Or.inl ⟨rfl, rfl⟩
      · rename_i hmatch
        obtain ⟨log, hlog, h⟩ := Option.bind_eq_some_iff.mp h
        obtain ⟨r₂, hfollow, h⟩ := Option.bind_eq_some_iff.mp h
        obtain ⟨rfl, rfl⟩ := Prod.mk.inj (Option.some.inj h)
        exact Or.inr ⟨by omega, rfl, prev, log, hprev, by simpa using hmatch, hlog, hfollow⟩

/-- What an append request does to the node, whatever the reply. -/
theorem appendEntries_cases {args : AppendEntriesArgs} {reply : AppendEntriesReply}
    (h : r.appendEntries args = some (r', reply)) :
    (r' = r.catchUp args.term ∧ args.term < (r.catchUp args.term).currentTerm) ∨
      r' = { r.catchUp args.term with role := .follower } ∨
      ∃ log, appendNew r.log (args.prevLogIndex + 1) args.entries = some log ∧
        Commits { r.catchUp args.term with role := .follower, log := log } r' := by
  rcases appendEntries_inv h with ⟨hr', hlt, _⟩ | ⟨hr', _⟩ | ⟨_, _, _, log, _, _, hlog, hfollow⟩
  · exact Or.inl ⟨hr', hlt⟩
  · exact Or.inr (Or.inl hr')
  · exact Or.inr (Or.inr ⟨log, hlog, commits_followCommit hfollow⟩)

/-! ### Replies and proposals -/

/-- The node once `peerID` has acknowledged everything before `next`. -/
def acknowledge (r : RaftNode) (peerID next : Int) : RaftNode :=
  { r with
    nextIndex := fun p => if p = peerID then next else r.nextIndex p
    matchIndex := fun p => if p = peerID then next - 1 else r.matchIndex p }

/-- **An append reply** changes something only at the leader of its term: it steps down, counts
    the acknowledgement, or backs off. -/
theorem handleAppendReply_cases {peerID : Int} {args : AppendEntriesArgs}
    {reply : AppendEntriesReply} (h : r.handleAppendReply peerID args reply = some r') :
    r' = r ∨ (r.currentTerm < reply.term ∧ r' = r.becomeFollower reply.term) ∨
      (r.role = .leader ∧ r.currentTerm = args.term ∧ reply.success = true ∧
        (r.acknowledge peerID (args.prevLogIndex + args.entries.length + 1)).checkAdvanceCommitIndex
          = some r') ∨
      ∃ next, r' = { r with nextIndex := next } := by
  unfold handleAppendReply at h
  split at h
  case isFalse => exact Or.inl (Option.some.inj h).symm
  case isTrue hcur =>
    split at h
    case isTrue hlater => exact Or.inr (Or.inl ⟨hlater, (Option.some.inj h).symm⟩)
    case isFalse =>
      split at h
      case isTrue hs => exact Or.inr (Or.inr (Or.inl ⟨hcur.1, hcur.2, hs, h⟩))
      case isFalse =>
        split at h
        · exact Or.inr (Or.inr (Or.inr ⟨_, (Option.some.inj h).symm⟩))
        · exact Or.inl (Option.some.inj h).symm

/-- A reply of success to a request of this leadership. -/
theorem handleAppendReply_success {peerID : Int} {args : AppendEntriesArgs}
    {reply : AppendEntriesReply} (hlead : r.role = .leader) (hterm : r.currentTerm = args.term)
    (hreply : reply.term ≤ r.currentTerm) (hs : reply.success = true) :
    r.handleAppendReply peerID args reply = (r.acknowledge peerID
      (args.prevLogIndex + args.entries.length + 1)).checkAdvanceCommitIndex := by
  rw [handleAppendReply, if_pos ⟨hlead, hterm⟩, if_neg (by omega), if_pos hs]
  rfl

/-- A reply of failure to a request of this leadership. -/
theorem handleAppendReply_failure {peerID : Int} {args : AppendEntriesArgs}
    {reply : AppendEntriesReply} (hlead : r.role = .leader) (hterm : r.currentTerm = args.term)
    (hreply : reply.term ≤ r.currentTerm) (hs : reply.success = false)
    (hnext : 1 < r.nextIndex peerID) :
    r.handleAppendReply peerID args reply = some { r with
      nextIndex := fun p => if p = peerID then r.nextIndex p - 1 else r.nextIndex p } := by
  rw [handleAppendReply, if_pos ⟨hlead, hterm⟩, if_neg (by omega), if_neg (by simp [hs]),
    if_pos hnext]

/-- The entry a leader appends for a command. -/
def newEntry (r : RaftNode) (key value : Bytes) (tombstone : Bool) : RaftLogEntry where
  index := r.log.length
  term := r.currentTerm
  key := key
  value := value
  tombstone := tombstone

/-- **A proposal** is refused, or appended by a leader and sent to its peers. -/
theorem submit_cases {key value : Bytes} {tombstone : Bool} {res : Int × Int × Bool}
    {sent : List Packet} (h : r.submit key value tombstone = some (r', res, sent)) :
    (r.role ≠ .leader ∧ r' = r ∧ res = (-1, r.currentTerm, false) ∧ sent = []) ∨
      (r.role = .leader ∧ r' = { r with log := r.log ++ [r.newEntry key value tombstone] } ∧
        res = ((r.log.length : Int), r.currentTerm, true) ∧
        r'.broadcastHeartbeats = some sent) := by
  unfold submit at h
  split at h
  case isTrue hrole =>
    obtain ⟨rfl, rfl, rfl⟩ : _ ∧ _ ∧ _ := by simpa using h
    exact Or.inl ⟨hrole, rfl, rfl, rfl⟩
  case isFalse hrole =>
    obtain ⟨sent', hsent, h⟩ := Option.bind_eq_some_iff.mp h
    obtain ⟨rfl, hres, rfl⟩ : _ ∧ _ ∧ _ := by simpa using h
    exact Or.inr ⟨by simpa using hrole, rfl, hres.symm, hsent⟩

/-! ### Elections -/

/-- The node as a candidate in the next term. -/
def stands (r : RaftNode) : RaftNode :=
  { r with role := .candidate, currentTerm := r.currentTerm + 1, votedFor := r.id }

/-- The node as the leader of its term. -/
def elected (r : RaftNode) : RaftNode :=
  { r with
    role := .leader
    nextIndex := fun p => if p ∈ r.peers then (r.log.length : Int) else r.nextIndex p
    matchIndex := fun p => if p ∈ r.peers then 0 else r.matchIndex p }

/-- What `becomeLeader` does and sends. -/
theorem becomeLeader_eq {sent : List Packet} (h : r.becomeLeader = some (r', sent)) :
    r' = r.elected ∧ r'.broadcastHeartbeats = some sent := by
  unfold becomeLeader at h
  obtain ⟨sent', hsent, h⟩ := Option.bind_eq_some_iff.mp h
  obtain ⟨rfl, rfl⟩ := Prod.mk.inj (Option.some.inj h)
  exact ⟨rfl, hsent⟩

/-- **An election timeout**: a node that is a majority by itself leads at once, another one asks
    its peers for their votes. -/
theorem startElection_cases {votes : Int} {sent : List Packet}
    (h : r.startElection = some (r', votes, sent)) :
    votes = 1 ∧
      ((1 ≥ r.majorityNeeded ∧ r' = r.stands.elected ∧ r'.broadcastHeartbeats = some sent) ∨
        (r' = r.stands ∧ ∃ args : RequestVoteArgs, args.term = r.currentTerm + 1 ∧
          args.candidateID = r.id ∧ sent = r.peers.map fun p => .voteRequest p args)) := by
  unfold startElection at h
  obtain ⟨last, _, h⟩ := Option.bind_eq_some_iff.mp h
  dsimp only at h
  split at h
  case isTrue hmaj =>
    obtain ⟨⟨r₁, sent₁⟩, hlead, h⟩ := Option.bind_eq_some_iff.mp h
    obtain ⟨rfl, rfl, rfl⟩ : _ ∧ _ ∧ _ := by simpa using h
    exact ⟨rfl, Or.inl ⟨hmaj, becomeLeader_eq hlead⟩⟩
  case isFalse =>
    obtain ⟨rfl, rfl, rfl⟩ : _ ∧ _ ∧ _ := by simpa using h
    exact ⟨rfl, Or.inr ⟨rfl, _, rfl, rfl, rfl⟩⟩

/-- **A vote reply**: nothing happens, or the candidate steps down, or it counts the vote and
    leads if that makes a majority. -/
theorem handleVoteReply_cases {args : RequestVoteArgs} {reply : RequestVoteReply}
    {votes votes' : Int} {sent : List Packet}
    (h : r.handleVoteReply args reply votes = some (r', votes', sent)) :
    (r' = r ∧ votes' = votes ∧ sent = []) ∨
      (r.currentTerm < reply.term ∧ r' = r.becomeFollower reply.term ∧ votes' = votes ∧
        sent = []) ∨
      (r.role = .candidate ∧ r.currentTerm = args.term ∧ reply.voteGranted = true ∧
        votes' = votes + 1 ∧
        ((r' = r ∧ sent = []) ∨
          (votes' ≥ r.majorityNeeded ∧ r' = r.elected ∧
            r'.broadcastHeartbeats = some sent))) := by
  unfold handleVoteReply at h
  split at h
  case isFalse =>
    obtain ⟨rfl, rfl, rfl⟩ : _ ∧ _ ∧ _ := by simpa using h
    exact Or.inl ⟨rfl, rfl, rfl⟩
  case isTrue hcur =>
    split at h
    case isTrue hlater =>
      obtain ⟨rfl, rfl, rfl⟩ : _ ∧ _ ∧ _ := by simpa using h
      exact Or.inr (Or.inl ⟨hlater, rfl, rfl, rfl⟩)
    case isFalse =>
      split at h
      case isFalse =>
        obtain ⟨rfl, rfl, rfl⟩ : _ ∧ _ ∧ _ := by simpa using h
        exact Or.inl ⟨rfl, rfl, rfl⟩
      case isTrue hg =>
        right; right
        refine ⟨hcur.1, hcur.2, hg, ?_⟩
        split at h
        case isTrue hmaj =>
          obtain ⟨⟨r₁, sent₁⟩, hlead, h⟩ := Option.bind_eq_some_iff.mp h
          obtain ⟨rfl, rfl, rfl⟩ : _ ∧ _ ∧ _ := by simpa using h
          exact ⟨rfl, Or.inr ⟨hmaj, becomeLeader_eq hlead⟩⟩
        case isFalse =>
          obtain ⟨rfl, rfl, rfl⟩ : _ ∧ _ ∧ _ := by simpa using h
          exact ⟨rfl, Or.inl ⟨rfl, rfl⟩⟩

/-! ### Rules

For each handler, what is to be shown of its cases so that it returns, with a result as wanted. -/

/-- **The rule for a vote request**: what holds of a refusal and of a vote holds of the outcome, and
    there is one. -/
theorem requestVote_rule {r₁ : RaftNode} {args : RequestVoteArgs}
    {Q : RaftNode → RequestVoteReply → Prop} (hr₁ : r.catchUp args.term = r₁)
    (hpos : 0 < r₁.log.length)
    (hrefuse : Q r₁ { term := r₁.currentTerm, voteGranted := false })
    (hgrant : r₁.currentTerm = args.term → ∀ last,
      Slice.get r₁.log ((r₁.log.length : Int) - 1) = some last →
      r₁.votedFor = -1 ∨ r₁.votedFor = args.candidateID →
      args.lastLogTerm > last.term ∨
        (args.lastLogTerm = last.term ∧ args.lastLogIndex ≥ (r₁.log.length : Int) - 1) →
      Q { r₁ with votedFor := args.candidateID }
        { term := r₁.currentTerm, voteGranted := true }) :
    ∃ r' reply, r.requestVote args = some (r', reply) ∧ Q r' reply := by
  have hle := le_catchUp r args.term
  obtain ⟨last, hlast⟩ := Slice.exists_get (s := r₁.log) (i := (r₁.log.length : Int) - 1)
    (by omega) (by omega)
  rw [requestVote, ← catchUp, hr₁]
  rw [hr₁] at hle
  by_cases hlt : args.term < r₁.currentTerm
  · rw [if_pos hlt]
    exact ⟨_, _, rfl, hrefuse⟩
  · simp only [if_neg hlt, hlast, Option.bind_eq_bind, Option.bind_some]
    split
    case isTrue hfree => exact ⟨_, _, rfl, hgrant (by omega) last hlast hfree.1 hfree.2⟩
    case isFalse => exact ⟨_, _, rfl, hrefuse⟩

/-- **The rule for an append request.** -/
theorem appendEntries_rule {r₁ : RaftNode} {args : AppendEntriesArgs}
    {Q : RaftNode → AppendEntriesReply → Prop} (hr₁ : r.catchUp args.term = r₁)
    (h0 : 0 ≤ args.prevLogIndex)
    (hrefuse : args.term < r₁.currentTerm →
      Q r₁ { term := r₁.currentTerm, success := false })
    (hmismatch : r₁.currentTerm = args.term →
      (∀ prev, Slice.get r₁.log args.prevLogIndex = some prev → prev.term ≠ args.prevLogTerm) →
      Q { r₁ with role := .follower } { term := r₁.currentTerm, success := false })
    (hmatch : r₁.currentTerm = args.term → ∀ prev,
      Slice.get r₁.log args.prevLogIndex = some prev → prev.term = args.prevLogTerm →
      ∃ log r', appendNew r₁.log (args.prevLogIndex + 1) args.entries = some log ∧
        followCommit { r₁ with role := .follower, log := log } args.leaderCommit = some r' ∧
        Q r' { term := r'.currentTerm, success := true }) :
    ∃ r' reply, r.appendEntries args = some (r', reply) ∧ Q r' reply := by
  have hle := le_catchUp r args.term
  rw [appendEntries, ← catchUp, hr₁]
  rw [hr₁] at hle
  by_cases hlt : args.term < r₁.currentTerm
  · rw [if_pos hlt]
    exact ⟨_, _, rfl, hrefuse hlt⟩
  have hterm : r₁.currentTerm = args.term := by omega
  rw [if_neg hlt]
  by_cases hshort : args.prevLogIndex ≥ (r₁.log.length : Int)
  · -- the log does not reach the position the request starts from
    simp only [if_pos hshort]
    refine ⟨_, _, rfl, hmismatch hterm fun prev hprev => ?_⟩
    have := (List.getElem?_eq_some_iff.mp (Slice.get_eq_some.mp hprev).2).1
    omega
  obtain ⟨prev, hprev⟩ := Slice.exists_get h0 (not_le.mp hshort)
  simp only [if_neg hshort, hprev, Option.bind_eq_bind, Option.bind_some]
  by_cases hmis : prev.term = args.prevLogTerm
  · obtain ⟨log, r', hlog, hfollow, hQ⟩ := hmatch hterm prev hprev hmis
    rw [if_neg (by simpa using hmis), hlog, Option.bind_some, hfollow]
    exact ⟨_, _, rfl, hQ⟩
  · rw [if_pos hmis]
    refine ⟨_, _, rfl, hmismatch hterm fun d hd => ?_⟩
    rwa [Option.some.inj (hd.symm.trans hprev)]

/-- **The rule for an append reply.** -/
theorem handleAppendReply_rule {peerID : Int} {args : AppendEntriesArgs}
    {reply : AppendEntriesReply} {Q : RaftNode → Prop} (hsame : Q r)
    (hlater : r.currentTerm < reply.term → Q (r.becomeFollower reply.term))
    (hsuccess : r.role = .leader → r.currentTerm = args.term → reply.success = true →
      ∃ r', (r.acknowledge peerID
        (args.prevLogIndex + args.entries.length + 1)).checkAdvanceCommitIndex = some r' ∧ Q r')
    (hback : r.role = .leader → r.nextIndex peerID > 1 → Q { r with
      nextIndex := fun p => if p = peerID then r.nextIndex p - 1 else r.nextIndex p }) :
    ∃ r', r.handleAppendReply peerID args reply = some r' ∧ Q r' := by
  unfold handleAppendReply
  split
  case isFalse => exact ⟨r, rfl, hsame⟩
  case isTrue hcur =>
    split
    case isTrue h => exact ⟨_, rfl, hlater h⟩
    case isFalse =>
      split
      case isTrue h => exact hsuccess hcur.1 hcur.2 h
      case isFalse =>
        split
        case isTrue h => exact ⟨_, rfl, hback hcur.1 h⟩
        case isFalse => exact ⟨r, rfl, hsame⟩

/-- **The rule for a proposal.** -/
theorem submit_rule {key value : Bytes} {tombstone : Bool}
    {Q : RaftNode → Int × Int × Bool → List Packet → Prop}
    (hrefuse : r.role ≠ .leader → Q r (-1, r.currentTerm, false) [])
    (haccept : r.role = .leader → ∃ sent,
      broadcastHeartbeats { r with log := r.log ++ [r.newEntry key value tombstone] } = some sent ∧
      Q { r with log := r.log ++ [r.newEntry key value tombstone] }
        ((r.log.length : Int), r.currentTerm, true) sent) :
    ∃ r' res sent, r.submit key value tombstone = some (r', res, sent) ∧ Q r' res sent := by
  by_cases hlead : r.role = .leader
  · obtain ⟨sent, hsent, hQ⟩ := haccept hlead
    refine ⟨_, _, sent, ?_, hQ⟩
    rw [submit, if_neg (by simp [hlead])]
    exact congrArg (Option.bind · _) hsent
  · exact ⟨r, _, [], if_pos hlead, hrefuse hlead⟩

/-- **The rule for an election**: the node leads at once, or asks its peers. -/
theorem startElection_rule {Q : RaftNode → List Packet → Prop} (hpos : 0 < r.log.length)
    (hlead : 1 ≥ r.majorityNeeded → ∃ sent, r.stands.elected.broadcastHeartbeats = some sent ∧
      Q r.stands.elected sent)
    (hstand : ∀ last, Slice.get r.log ((r.log.length : Int) - 1) = some last →
      Q r.stands (r.peers.map fun peerID => .voteRequest peerID
        { term := r.stands.currentTerm
          candidateID := r.id
          lastLogIndex := (r.log.length : Int) - 1
          lastLogTerm := last.term })) :
    ∃ r' sent, r.startElection = some (r', 1, sent) ∧ Q r' sent := by
  obtain ⟨last, hlast⟩ := Slice.exists_get (s := r.log) (i := (r.log.length : Int) - 1)
    (by omega) (by omega)
  rw [startElection, ← stands]
  simp only [show r.stands.log = r.log from rfl, hlast, Option.bind_eq_bind, Option.bind_some]
  by_cases hmaj : (1 : Int) ≥ r.stands.majorityNeeded
  · obtain ⟨sent, hsent, hQ⟩ := hlead hmaj
    have hbecome : r.stands.becomeLeader = some (r.stands.elected, sent) :=
      congrArg (Option.bind · _) hsent
    rw [if_pos hmaj, hbecome]
    exact ⟨_, sent, rfl, hQ⟩
  · rw [if_neg hmaj]
    exact ⟨_, _, rfl, hstand last hlast⟩

/-- **The rule for a vote reply.** -/
theorem handleVoteReply_rule {args : RequestVoteArgs} {reply : RequestVoteReply} {votes : Int}
    {Q : RaftNode → Int → List Packet → Prop} (hsame : Q r votes [])
    (hlater : r.role = .candidate → r.currentTerm < reply.term →
      Q (r.becomeFollower reply.term) votes [])
    (hcount : r.role = .candidate → r.currentTerm = args.term → reply.voteGranted = true →
      Q r (votes + 1) [])
    (hlead : r.role = .candidate → r.currentTerm = args.term → reply.voteGranted = true →
      votes + 1 ≥ r.majorityNeeded → ∃ sent, r.elected.broadcastHeartbeats = some sent ∧
        Q r.elected (votes + 1) sent) :
    ∃ r' votes' sent, r.handleVoteReply args reply votes = some (r', votes', sent) ∧
      Q r' votes' sent := by
  unfold handleVoteReply
  split
  case isFalse => exact ⟨_, _, _, rfl, hsame⟩
  case isTrue hcur =>
    split
    case isTrue h => exact ⟨_, _, _, rfl, hlater hcur.1 h⟩
    case isFalse =>
      split
      case isFalse => exact ⟨_, _, _, rfl, hsame⟩
      case isTrue hg =>
        split
        case isFalse => exact ⟨_, _, _, rfl, hcount hcur.1 hcur.2 hg⟩
        case isTrue hmaj =>
          obtain ⟨sent, hsent, hQ⟩ := hlead hcur.1 hcur.2 hg hmaj
          have hbecome : r.becomeLeader = some (r.elected, sent) :=
            congrArg (Option.bind · _) hsent
          rw [hbecome]
          exact ⟨_, _, sent, rfl, hQ⟩

/-! ### Roles -/

/-- A candidate or leader afterwards was it before, in the same term. -/
structure Settles (r r' : RaftNode) : Prop where
  id_eq : r'.id = r.id
  peers_eq : r'.peers = r.peers
  term_le : r.currentTerm ≤ r'.currentTerm
  candidate : r'.role = .candidate → r.role = .candidate ∧ r'.currentTerm = r.currentTerm
  leader : r'.role = .leader → r.role = .leader ∧ r'.currentTerm = r.currentTerm

/-- A node that stays in its role and term settles. -/
theorem settles_of_eq (hid : r'.id = r.id) (hpeers : r'.peers = r.peers)
    (hterm : r'.currentTerm = r.currentTerm) (hrole : r'.role = r.role) : Settles r r' where
  id_eq := hid
  peers_eq := hpeers
  term_le := hterm.ge
  candidate := fun h => ⟨hrole ▸ h, hterm⟩
  leader := fun h => ⟨hrole ▸ h, hterm⟩

theorem Settles.refl (r : RaftNode) : Settles r r := settles_of_eq rfl rfl rfl rfl

/-- A follower settles whatever it was. -/
theorem settles_of_follower (hid : r'.id = r.id) (hpeers : r'.peers = r.peers)
    (hterm : r.currentTerm ≤ r'.currentTerm) (hrole : r'.role = .follower) : Settles r r' where
  id_eq := hid
  peers_eq := hpeers
  term_le := hterm
  candidate := by intro h; rw [hrole] at h; cases h
  leader := by intro h; rw [hrole] at h; cases h

/-- A node that steps down into a later term settles. -/
theorem settles_becomeFollower {t : Int} (ht : r.currentTerm < t) :
    Settles r (r.becomeFollower t) :=
  settles_of_follower rfl rfl (le_of_lt ht) rfl

/-- Catching up with a term makes nobody candidate or leader. -/
theorem settles_catchUp (r : RaftNode) (t : Int) : Settles r (r.catchUp t) := by
  rcases catchUp_cases r t with ⟨hlt, h⟩ | ⟨_, h⟩
  · rw [h]; exact settles_becomeFollower hlt
  · rw [h]; exact Settles.refl r

/-- Committing makes nobody candidate or leader. -/
theorem Commits.settles {r₁ : RaftNode} (hc : Commits r₁ r') (h : Settles r r₁) :
    Settles r r' := by
  obtain ⟨ci, la, more, rfl⟩ := hc
  exact ⟨h.id_eq, h.peers_eq, h.term_le, h.candidate, h.leader⟩

/-- A vote request makes nobody candidate or leader. -/
theorem settles_requestVote {args : RequestVoteArgs} {reply : RequestVoteReply}
    (h : r.requestVote args = some (r', reply)) : Settles r r' := by
  have hs := settles_catchUp r args.term
  rcases requestVote_cases h with ⟨rfl, _⟩ | ⟨rfl, _⟩
  · exact hs
  · exact ⟨hs.id_eq, hs.peers_eq, hs.term_le, hs.candidate, hs.leader⟩

/-- An append request makes nobody candidate or leader. -/
theorem settles_appendEntries {args : AppendEntriesArgs} {reply : AppendEntriesReply}
    (h : r.appendEntries args = some (r', reply)) : Settles r r' := by
  have hs := settles_catchUp r args.term
  rcases appendEntries_cases h with ⟨rfl, _⟩ | rfl | ⟨log, _, hc⟩
  · exact hs
  · exact settles_of_follower hs.id_eq hs.peers_eq hs.term_le rfl
  · exact hc.settles (settles_of_follower hs.id_eq hs.peers_eq hs.term_le rfl)

/-- An append reply makes nobody candidate or leader. -/
theorem settles_handleAppendReply {peerID : Int} {args : AppendEntriesArgs}
    {reply : AppendEntriesReply} (h : r.handleAppendReply peerID args reply = some r') :
    Settles r r' := by
  rcases handleAppendReply_cases h with rfl | ⟨hlater, rfl⟩ | ⟨_, _, _, hcheck⟩ | ⟨next, rfl⟩
  · exact Settles.refl r'
  · exact settles_becomeFollower hlater
  · exact (commits_advanceLoop hcheck).settles (settles_of_eq rfl rfl rfl rfl)
  · exact settles_of_eq rfl rfl rfl rfl

/-- A proposal makes nobody candidate or leader. -/
theorem settles_submit {key value : Bytes} {tombstone : Bool} {res : Int × Int × Bool}
    {sent : List Packet} (h : r.submit key value tombstone = some (r', res, sent)) :
    Settles r r' := by
  rcases submit_cases h with ⟨_, rfl, _⟩ | ⟨_, rfl, _⟩
  · exact Settles.refl r'
  · exact settles_of_eq rfl rfl rfl rfl

/-! ### Logs and channels -/

/-- The log is as before, and what was sent on the channel before has stayed. -/
structure KeepsLog (r r' : RaftNode) : Prop where
  log : r'.log = r.log
  applyCh : ∃ more, r'.applyCh = r.applyCh.map (· ++ more)

/-- A node whose log and channel are the same keeps them. -/
theorem keepsLog_of_eq (hlog : r'.log = r.log) (hch : r'.applyCh = r.applyCh) :
    KeepsLog r r' := ⟨hlog, [], by rw [hch]; simp⟩

/-- Committing leaves the log. -/
theorem Commits.keepsLog (h : Commits r r') : KeepsLog r r' := by
  obtain ⟨ci, la, more, rfl⟩ := h
  exact ⟨rfl, more, rfl⟩

/-- Standing for election does not touch the log. -/
theorem keepsLog_startElection {votes : Int} {sent : List Packet}
    (h : r.startElection = some (r', votes, sent)) : KeepsLog r r' := by
  rcases startElection_cases h with ⟨_, ⟨_, rfl, _⟩ | ⟨rfl, _⟩⟩
  · exact keepsLog_of_eq rfl rfl
  · exact keepsLog_of_eq rfl rfl

/-- Voting does not touch the log. -/
theorem keepsLog_requestVote {args : RequestVoteArgs} {reply : RequestVoteReply}
    (h : r.requestVote args = some (r', reply)) : KeepsLog r r' := by
  rcases requestVote_cases h with ⟨rfl, _⟩ | ⟨rfl, _⟩
  · exact keepsLog_of_eq (catchUp_log _ _) (catchUp_applyCh _ _)
  · exact keepsLog_of_eq (catchUp_log _ _) (catchUp_applyCh _ _)

/-- Counting a vote does not touch the log. -/
theorem keepsLog_handleVoteReply {args : RequestVoteArgs} {reply : RequestVoteReply}
    {votes votes' : Int} {sent : List Packet}
    (h : r.handleVoteReply args reply votes = some (r', votes', sent)) : KeepsLog r r' := by
  rcases handleVoteReply_cases h with ⟨rfl, _⟩ | ⟨_, rfl, _⟩ |
    ⟨_, _, _, _, ⟨rfl, _⟩ | ⟨_, rfl, _⟩⟩ <;> exact keepsLog_of_eq rfl rfl

/-- An append reply moves indices, not entries. -/
theorem keepsLog_handleAppendReply {peerID : Int} {args : AppendEntriesArgs}
    {reply : AppendEntriesReply} (h : r.handleAppendReply peerID args reply = some r') :
    KeepsLog r r' := by
  rcases handleAppendReply_cases h with rfl | ⟨_, rfl⟩ | ⟨_, _, _, hcheck⟩ | ⟨next, rfl⟩
  · exact keepsLog_of_eq rfl rfl
  · exact keepsLog_of_eq rfl rfl
  · obtain ⟨hlog, hch⟩ := (commits_advanceLoop hcheck).keepsLog
    exact ⟨hlog, hch⟩
  · exact keepsLog_of_eq rfl rfl

/-- An append request changes the log of followers only. -/
theorem appendEntries_log {args : AppendEntriesArgs} {reply : AppendEntriesReply}
    (h : r.appendEntries args = some (r', reply)) :
    (∃ more, r'.applyCh = r.applyCh.map (· ++ more)) ∧
      (r'.role = .leader → r'.log = r.log) := by
  rcases appendEntries_cases h with ⟨rfl, _⟩ | rfl | ⟨log, _, ci, la, more, rfl⟩
  · exact ⟨⟨[], by simp⟩, fun _ => catchUp_log _ _⟩
  · exact ⟨⟨[], by simp⟩, fun _ => catchUp_log _ _⟩
  · exact ⟨⟨more, by simp⟩, fun hlead => by cases hlead⟩

/-- A vote reply does not take a leader to another term. -/
private theorem handleVoteReply_leader {args : RequestVoteArgs} {reply : RequestVoteReply}
    {votes votes' : Int} {sent : List Packet}
    (h : r.handleVoteReply args reply votes = some (r', votes', sent)) (hlead : r.role = .leader)
    (hlead' : r'.role = .leader) : r'.currentTerm = r.currentTerm := by
  rcases handleVoteReply_cases h with ⟨rfl, _⟩ | ⟨_, rfl, _⟩ | ⟨hrole, _⟩
  · rfl
  · cases hlead'
  · rw [hlead] at hrole; cases hrole

end RaftNode

/-! ### Steps of a cluster -/

/-- A call that returns does not panic. -/
theorem orPanic_eq_ok {α : Type} {x : Option α} {a : α} : orPanic x = .ok a ↔ x = some a := by
  cases x with
  | none => simp [orPanic]
  | some b => simp [orPanic]

namespace Cluster

variable {cfg : Config} {s s' : Cluster} {act : Action}

@[simp] theorem setNode_nodes_self (s : Cluster) (id : Int) (r : RaftNode) :
    (s.setNode id r).nodes id = r := if_pos rfl

/-- Replacing a node leaves the others. -/
theorem setNode_nodes_of_ne {id j : Int} (r : RaftNode) (h : j ≠ id) :
    (s.setNode id r).nodes j = s.nodes j := if_neg h

@[simp] theorem setNode_net (s : Cluster) (id : Int) (r : RaftNode) :
    (s.setNode id r).net = s.net := rfl
@[simp] theorem setVotes_nodes (s : Cluster) (id term votes : Int) :
    (s.setVotes id term votes).nodes = s.nodes := rfl
@[simp] theorem setVotes_net (s : Cluster) (id term votes : Int) :
    (s.setVotes id term votes).net = s.net := rfl
@[simp] theorem send_nodes (s : Cluster) (ps : List Packet) : (s.send ps).nodes = s.nodes := rfl
@[simp] theorem send_net (s : Cluster) (ps : List Packet) : (s.send ps).net = s.net ++ ps := rfl
@[simp] theorem take_nodes (s : Cluster) (i : ℕ) : (s.take i).nodes = s.nodes := rfl
@[simp] theorem take_net (s : Cluster) (i : ℕ) : (s.take i).net = s.net.eraseIdx i := rfl

/-- Replacing one node by one that is as good. -/
theorem setNode_forall {I : Int → RaftNode → Prop} {id : Int} {r : RaftNode}
    (hall : ∀ j ∈ cfg.ids, I j (s.nodes j)) (hr : id ∈ cfg.ids → I id r) :
    ∀ j ∈ cfg.ids, I j ((s.setNode id r).nodes j) := by
  intro j hj
  by_cases hji : j = id
  · subst hji
    rw [setNode_nodes_self]
    exact hr hj
  · rw [setNode_nodes_of_ne r hji]
    exact hall j hj

/-- What a step that takes place has done. -/
inductive Takes (cfg : Config) (s : Cluster) : Action → Cluster → Prop
  | electionTimeout {id : Int} {r : RaftNode} {votes : Int} {sent : List Packet}
      (hid : id ∈ cfg.ids) (hrole : (s.nodes id).role ≠ .leader)
      (h : (s.nodes id).startElection = some (r, votes, sent)) :
      Takes cfg s (.electionTimeout id)
        (((s.setNode id r).setVotes id r.currentTerm votes).send sent)
  | heartbeatTick {id : Int} {sent : List Packet} (hid : id ∈ cfg.ids)
      (h : (s.nodes id).broadcastHeartbeats = some sent) :
      Takes cfg s (.heartbeatTick id) (s.send sent)
  | submit {id : Int} {key value : Bytes} {tombstone : Bool} {r : RaftNode}
      {res : Int × Int × Bool} {sent : List Packet} (hid : id ∈ cfg.ids)
      (h : (s.nodes id).submit key value tombstone = some (r, res, sent)) :
      Takes cfg s (.submit id key value tombstone) ((s.setNode id r).send sent)
  | voteRequest {i : ℕ} {peer : Int} {args : RequestVoteArgs} {r : RaftNode}
      {reply : RequestVoteReply} (hp : s.net[i]? = some (.voteRequest peer args))
      (h : (s.nodes peer).requestVote args = some (r, reply)) :
      Takes cfg s (.deliver i) (((s.take i).setNode peer r).send [.voteReply peer args reply])
  | voteReply {i : ℕ} {peer : Int} {args : RequestVoteArgs} {reply : RequestVoteReply}
      {r : RaftNode} {votes : Int} {sent : List Packet}
      (hp : s.net[i]? = some (.voteReply peer args reply))
      (h : (s.nodes args.candidateID).handleVoteReply args reply
        (s.votesReceived args.candidateID args.term) = some (r, votes, sent)) :
      Takes cfg s (.deliver i)
        ((((s.take i).setNode args.candidateID r).setVotes args.candidateID args.term votes).send
          sent)
  | appendRequest {i : ℕ} {peer : Int} {args : AppendEntriesArgs} {r : RaftNode}
      {reply : AppendEntriesReply} (hp : s.net[i]? = some (.appendRequest peer args))
      (h : (s.nodes peer).appendEntries args = some (r, reply)) :
      Takes cfg s (.deliver i) (((s.take i).setNode peer r).send [.appendReply peer args reply])
  | appendReply {i : ℕ} {peer : Int} {args : AppendEntriesArgs} {reply : AppendEntriesReply}
      {r : RaftNode} (hp : s.net[i]? = some (.appendReply peer args reply))
      (h : (s.nodes args.leaderID).handleAppendReply peer args reply = some r) :
      Takes cfg s (.deliver i) ((s.take i).setNode args.leaderID r)
  | lose {i : ℕ} : Takes cfg s (.lose i) (s.take i)
  | kill {id : Int} : Takes cfg s (.kill id) (s.setNode id { s.nodes id with killed := true })

/-- **Inversion of a step.** -/
theorem step_takes (h : s.step cfg act = .ok s') : Takes cfg s act s' := by
  cases act with
  | electionTimeout id =>
    rw [step] at h
    split at h
    case isFalse => cases h
    case isTrue hen =>
      obtain ⟨⟨r, votes, sent⟩, hrun, h⟩ := Option.bind_eq_some_iff.mp (orPanic_eq_ok.mp h)
      obtain rfl := Option.some.inj h
      exact .electionTimeout hen.1 hen.2.2 hrun
  | heartbeatTick id =>
    rw [step] at h
    split at h
    case isFalse => cases h
    case isTrue hen =>
      obtain ⟨sent, hrun, h⟩ := Option.bind_eq_some_iff.mp (orPanic_eq_ok.mp h)
      obtain rfl := Option.some.inj h
      exact .heartbeatTick hen.1 hrun
  | submit id key value tombstone =>
    rw [step] at h
    split at h
    case isFalse => cases h
    case isTrue hid =>
      obtain ⟨⟨r, res, sent⟩, hrun, h⟩ := Option.bind_eq_some_iff.mp (orPanic_eq_ok.mp h)
      obtain rfl := Option.some.inj h
      exact .submit hid hrun
  | deliver i =>
    rw [step] at h
    split at h
    case h_2 => cases h
    case h_1 p hp =>
      have h := orPanic_eq_ok.mp h
      cases p with
      | voteRequest peer args =>
        obtain ⟨⟨r, reply⟩, hrun, h⟩ := Option.bind_eq_some_iff.mp h
        obtain rfl := Option.some.inj h
        exact .voteRequest hp hrun
      | voteReply peer args reply =>
        obtain ⟨⟨r, votes, sent⟩, hrun, h⟩ := Option.bind_eq_some_iff.mp h
        obtain rfl := Option.some.inj h
        exact .voteReply hp hrun
      | appendRequest peer args =>
        obtain ⟨⟨r, reply⟩, hrun, h⟩ := Option.bind_eq_some_iff.mp h
        obtain rfl := Option.some.inj h
        exact .appendRequest hp hrun
      | appendReply peer args reply =>
        obtain ⟨r, hrun, h⟩ := Option.bind_eq_some_iff.mp h
        obtain rfl := Option.some.inj h
        exact .appendReply hp hrun
  | lose i =>
    rw [step] at h
    split at h
    case isFalse => cases h
    case isTrue =>
      obtain rfl := Except.ok.inj h
      exact .lose
  | kill id =>
    rw [step] at h
    split at h
    case isFalse => cases h
    case isTrue =>
      obtain rfl := Except.ok.inj h
      exact .kill

/-- The delivery of an append request. -/
theorem step_appendRequest {i : ℕ} {peer : Int} {args : AppendEntriesArgs}
    (h : s.step cfg (.deliver i) = .ok s') (hp : s.net[i]? = some (.appendRequest peer args)) :
    ∃ r reply, (s.nodes peer).appendEntries args = some (r, reply) ∧
      s' = ((s.take i).setNode peer r).send [.appendReply peer args reply] := by
  simp only [step, hp] at h
  obtain ⟨⟨r, reply⟩, hrun, h⟩ := Option.bind_eq_some_iff.mp (orPanic_eq_ok.mp h)
  exact ⟨r, reply, hrun, (Option.some.inj h).symm⟩

/-- The delivery of an append reply. -/
theorem step_appendReply {i : ℕ} {peer : Int} {args : AppendEntriesArgs}
    {reply : AppendEntriesReply} (h : s.step cfg (.deliver i) = .ok s')
    (hp : s.net[i]? = some (.appendReply peer args reply)) :
    ∃ r, (s.nodes args.leaderID).handleAppendReply peer args reply = some r ∧
      s' = (s.take i).setNode args.leaderID r := by
  simp only [step, hp] at h
  obtain ⟨r, hrun, h⟩ := Option.bind_eq_some_iff.mp (orPanic_eq_ok.mp h)
  exact ⟨r, hrun, (Option.some.inj h).symm⟩

/-- What holds between a node and its replacement, and between a node and itself, holds between
    all nodes. -/
theorem setNode_relates {R : RaftNode → RaftNode → Prop} (hrefl : ∀ r, R r r) {id : Int}
    {r : RaftNode} (hr : R (s.nodes id) r) (j : Int) :
    R (s.nodes j) ((s.setNode id r).nodes j) := by
  by_cases hj : j = id
  · subst hj
    rw [setNode_nodes_self]
    exact hr
  · rw [setNode_nodes_of_ne r hj]
    exact hrefl _

/-- **What was sent on a channel** stays. -/
theorem step_applyCh (h : s.step cfg act = .ok s') (j : Int) :
    ∃ more, (s'.nodes j).applyCh = (s.nodes j).applyCh.map (· ++ more) := by
  have hrefl : ∀ r : RaftNode, ∃ more, r.applyCh = r.applyCh.map (· ++ more) :=
    fun r => ⟨[], by simp⟩
  have hset : ∀ {id : Int} {r : RaftNode},
      (∃ more, r.applyCh = (s.nodes id).applyCh.map (· ++ more)) →
      ∃ more, ((s.setNode id r).nodes j).applyCh = (s.nodes j).applyCh.map (· ++ more) :=
    fun hr => setNode_relates (R := fun r r' => ∃ more, r'.applyCh = r.applyCh.map (· ++ more))
      hrefl hr j
  cases step_takes h with
  | electionTimeout _ _ hrun => exact hset (RaftNode.keepsLog_startElection hrun).applyCh
  | heartbeatTick _ _ => exact hrefl _
  | submit _ hrun =>
    rcases RaftNode.submit_cases hrun with ⟨_, rfl, _⟩ | ⟨_, rfl, _⟩
    · exact hset (hrefl _)
    · exact hset ⟨[], by simp⟩
  | voteRequest _ hrun => exact hset (RaftNode.keepsLog_requestVote hrun).applyCh
  | voteReply _ hrun => exact hset (RaftNode.keepsLog_handleVoteReply hrun).applyCh
  | appendRequest _ hrun => exact hset (RaftNode.appendEntries_log hrun).1
  | appendReply _ hrun => exact hset (RaftNode.keepsLog_handleAppendReply hrun).applyCh
  | lose => exact hrefl _
  | kill => exact hset ⟨[], by simp⟩

/-- **A node that stays leader** stays in its term, and its log only changes by `Submit`. -/
theorem step_leader (h : s.step cfg act = .ok s') {j : Int}
    (hlead : (s.nodes j).role = .leader) (hlead' : (s'.nodes j).role = .leader) :
    (s'.nodes j).currentTerm = (s.nodes j).currentTerm ∧
      ((s'.nodes j).log = (s.nodes j).log ∨
        ∃ key value tombstone, act = .submit j key value tombstone) := by
  -- the steps that replace a node without a `Submit`
  have hset : ∀ {id : Int} {r : RaftNode},
      ((s.nodes id).role = .leader → r.role = .leader →
        r.currentTerm = (s.nodes id).currentTerm ∧ r.log = (s.nodes id).log) →
      ((s.setNode id r).nodes j).role = .leader →
      ((s.setNode id r).nodes j).currentTerm = (s.nodes j).currentTerm ∧
        (((s.setNode id r).nodes j).log = (s.nodes j).log ∨
          ∃ key value tombstone, act = .submit j key value tombstone) := by
    intro id r hr hrole
    have := setNode_relates (R := fun r r' => r.role = .leader → r'.role = .leader →
      r'.currentTerm = r.currentTerm ∧ r'.log = r.log) (fun _ _ _ => ⟨rfl, rfl⟩) hr j hlead hrole
    exact ⟨this.1, Or.inl this.2⟩
  cases step_takes h with
  | electionTimeout _ hrole _ => exact hset (fun hl _ => absurd hl hrole) hlead'
  | heartbeatTick _ _ => exact ⟨rfl, Or.inl rfl⟩
  | @submit id key value tombstone r res sent _ hrun =>
    by_cases hj : j = id
    · subst hj
      refine ⟨?_, Or.inr ⟨key, value, tombstone, rfl⟩⟩
      rw [send_nodes, setNode_nodes_self] at hlead' ⊢
      exact ((RaftNode.settles_submit hrun).leader hlead').2
    · rw [send_nodes, setNode_nodes_of_ne r hj]
      exact ⟨rfl, Or.inl rfl⟩
  | voteRequest _ hrun =>
    exact hset (fun _ hl => ⟨((RaftNode.settles_requestVote hrun).leader hl).2,
      (RaftNode.keepsLog_requestVote hrun).log⟩) hlead'
  | voteReply _ hrun =>
    exact hset (fun hl hl' => ⟨RaftNode.handleVoteReply_leader hrun hl hl',
      (RaftNode.keepsLog_handleVoteReply hrun).log⟩) hlead'
  | appendRequest _ hrun =>
    exact hset (fun _ hl => ⟨((RaftNode.settles_appendEntries hrun).leader hl).2,
      (RaftNode.appendEntries_log hrun).2 hl⟩) hlead'
  | appendReply _ hrun =>
    exact hset (fun _ hl => ⟨((RaftNode.settles_handleAppendReply hrun).leader hl).2,
      (RaftNode.keepsLog_handleAppendReply hrun).log⟩) hlead'
  | lose => exact ⟨rfl, Or.inl rfl⟩
  | kill => exact hset (fun _ _ => ⟨rfl, rfl⟩) hlead'

/-- Such a node appends at most one entry, of its term. -/
theorem step_appends (h : s.step cfg act = .ok s') {j : Int}
    (hlead : (s.nodes j).role = .leader) (hlead' : (s'.nodes j).role = .leader) :
    ∃ es, (s'.nodes j).log = (s.nodes j).log ++ es ∧
      ∀ e ∈ es, e.term = (s.nodes j).currentTerm := by
  obtain ⟨_, hlog | ⟨key, value, tombstone, rfl⟩⟩ := step_leader h hlead hlead'
  · exact ⟨[], by rw [hlog, List.append_nil], by simp⟩
  · cases step_takes h with
    | submit _ hrun =>
      obtain ⟨hnot, _⟩ | ⟨_, rfl, _⟩ := RaftNode.submit_cases hrun
      · exact absurd hlead hnot
      · refine ⟨[(s.nodes j).newEntry key value tombstone], ?_, by simp [RaftNode.newEntry]⟩
        rw [send_nodes, setNode_nodes_self]

end Cluster

/-! ### Roles over time -/

/-- A node stays in its role in its term, or turns from candidate to leader, or steps down; every
    other change is a change to a later term. -/
structure Climbs (r r' : RaftNode) : Prop where
  term_le : r.currentTerm ≤ r'.currentTerm
  role : r.currentTerm < r'.currentTerm ∨ r'.role = r.role ∨ r'.role = .follower ∨
    (r.role = .candidate ∧ r'.role = .leader)

theorem Climbs.refl (r : RaftNode) : Climbs r r := ⟨le_refl _, Or.inr (Or.inl rfl)⟩

/-- A node that settles climbs. -/
theorem RaftNode.Settles.climbs {r r' : RaftNode} (h : r.Settles r') : Climbs r r' := by
  refine ⟨h.term_le, ?_⟩
  cases hrole : r'.role with
  | follower => exact Or.inr (Or.inr (Or.inl rfl))
  | candidate => exact Or.inr (Or.inl (h.candidate hrole).1.symm)
  | leader => exact Or.inr (Or.inl (h.leader hrole).1.symm)

/-- An election starts a later term. -/
theorem climbs_startElection {r r' : RaftNode} {votes : Int} {sent : List Packet}
    (h : r.startElection = some (r', votes, sent)) : Climbs r r' := by
  have hlt : r.currentTerm < r'.currentTerm := by
    obtain ⟨_, ⟨_, rfl, _⟩ | ⟨rfl, _⟩⟩ := RaftNode.startElection_cases h
    · exact Int.lt_succ r.currentTerm
    · exact Int.lt_succ r.currentTerm
  exact ⟨hlt.le, Or.inl hlt⟩

/-- A vote reply may make a candidate leader. -/
theorem climbs_handleVoteReply {r r' : RaftNode} {args : RequestVoteArgs}
    {reply : RequestVoteReply} {votes votes' : Int} {sent : List Packet}
    (h : r.handleVoteReply args reply votes = some (r', votes', sent)) : Climbs r r' := by
  obtain ⟨rfl, _⟩ | ⟨hlt, rfl, _⟩ | ⟨hrole, _, _, _, ⟨rfl, _⟩ | ⟨_, rfl, _⟩⟩ :=
    RaftNode.handleVoteReply_cases h
  · exact .refl _
  · exact (RaftNode.settles_becomeFollower hlt).climbs
  · exact .refl _
  · exact ⟨le_refl _, Or.inr (Or.inr (Or.inr ⟨hrole, rfl⟩))⟩

/-- **Every step** takes every node to a later term, or down, or from candidate to leader. -/
theorem Cluster.step_climbs {cfg : Config} {s s' : Cluster} {act : Action}
    (h : s.step cfg act = .ok s') (j : Int) : Climbs (s.nodes j) (s'.nodes j) := by
  cases step_takes h with
  | electionTimeout _ _ hrun => exact setNode_relates .refl (climbs_startElection hrun) j
  | heartbeatTick _ _ => exact .refl _
  | submit _ hrun => exact setNode_relates .refl (RaftNode.settles_submit hrun).climbs j
  | voteRequest _ hrun => exact setNode_relates .refl (RaftNode.settles_requestVote hrun).climbs j
  | voteReply _ hrun => exact setNode_relates .refl (climbs_handleVoteReply hrun) j
  | appendRequest _ hrun =>
    exact setNode_relates .refl (RaftNode.settles_appendEntries hrun).climbs j
  | appendReply _ hrun =>
    exact setNode_relates .refl (RaftNode.settles_handleAppendReply hrun).climbs j
  | lose => exact .refl _
  | kill => exact setNode_relates .refl ⟨le_refl _, Or.inr (Or.inl rfl)⟩ j

end Hallownest.Consensus
