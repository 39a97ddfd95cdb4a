import Hallownest.Consensus.Handlers
import Hallownest.Lib.Run

namespace Hallownest.Consensus

/-!
# Consensus — the apply channel (`raft_node.go`)

`applyLogs` sends on a channel of bounded capacity and holds the lock of the node while it
waits.  The rest of the development has it send all messages at once; here the rounds of its
loop interleave with a goroutine that receives them, and that needs no lock of the node.

* `Applying.step` — one round of the loop, which waits while the channel is full, or one message
  received.
* `Applying.bounded_channel` — whatever the capacity and the schedule, the loop comes to its end,
  with the same node and the same messages as if it never waited.
-/

open RaftNode (deliver)

variable {r r' : RaftNode} {entry : RaftLogEntry}

namespace RaftNode

/-- What a node has sent. -/
def sent (r : RaftNode) : List ApplyMsg := r.applyCh.getD []

/-- How many rounds the loop of `applyLogs` has left. -/
def unapplied (r : RaftNode) : ℕ := (r.commitIndex - r.lastApplied).toNat

/-- The node after a round of the loop of `applyLogs`. -/
def applied (r : RaftNode) (entry : RaftLogEntry) : RaftNode :=
  { r with lastApplied := r.lastApplied + 1, applyCh := deliver r.applyCh entry }

theorem unapplied_applied (h : r.commitIndex > r.lastApplied) (entry : RaftLogEntry) :
    r.unapplied = (r.applied entry).unapplied + 1 := by
  show (r.commitIndex - r.lastApplied).toNat = (r.commitIndex - (r.lastApplied + 1)).toNat + 1
  omega

/-- The loop goes on from where a round leaves the node. -/
private theorem applyLogs_applied (h : r.commitIndex > r.lastApplied)
    (hentry : Slice.get r.log (r.lastApplied + 1) = some entry) :
    r.applyLogs = (r.applied entry).applyLogs := by
  show applyLoop r.unapplied r = applyLoop (r.applied entry).unapplied (r.applied entry)
  rw [unapplied_applied h entry, applyLoop, if_pos h, hentry]
  rfl

private theorem applyLogs_of_le (h : r.commitIndex ≤ r.lastApplied) : r.applyLogs = some r := by
  have hnone : (r.commitIndex - r.lastApplied).toNat = 0 := by omega
  rw [applyLogs, hnone, applyLoop]

/-- A loop that comes to its end finds its next entry. -/
theorem exists_entry (hfinal : r.applyLogs = some r') (h : r.commitIndex > r.lastApplied) :
    ∃ entry, Slice.get r.log (r.lastApplied + 1) = some entry := by
  have hround : applyLoop r.unapplied r = some r' := hfinal
  have hpos : 0 < r.unapplied := Int.lt_toNat.mpr (by omega)
  obtain ⟨n, hn⟩ := Nat.exists_eq_add_one.mpr hpos
  rw [hn, applyLoop, if_pos h] at hround
  obtain ⟨entry, hentry, _⟩ := Option.bind_eq_some_iff.mp hround
  exact ⟨entry, hentry⟩

/-- What a round sends. -/
private theorem sent_applied (r : RaftNode) (entry : RaftLogEntry) :
    (r.applied entry).sent =
      if r.applyCh.isSome ∧ entry.index > 0 then r.sent ++ [applyMsg entry] else r.sent := by
  unfold sent applied deliver
  cases r.applyCh with
  | none => simp
  | some ch => by_cases hidx : entry.index > 0 <;> simp [hidx]

private theorem sent_prefix_of_applyLogs (h : r.applyLogs = some r') : r.sent <+: r'.sent := by
  obtain ⟨_, _, more, rfl⟩ := commits_applyLoop h
  unfold sent
  cases r.applyCh with
  | none => exact List.prefix_rfl
  | some ch => exact List.prefix_append ch more

end RaftNode

/-- A node in the loop of `applyLogs`, and how many of the messages it has sent so far were
    received at the other end of its channel. -/
structure Applying where
  node : RaftNode
  received : ℕ

/-- What may happen next: a round of the loop, or a message is received. -/
inductive Applying.Move
  | round
  | receive
  deriving DecidableEq, Repr

namespace Applying

/-- How many messages are in the channel. -/
def waiting (s : Applying) : ℕ := s.node.sent.length - s.received

/-- One step. -/
def step (capacity : ℕ) (s : Applying) : Move → Except Fault Applying
  | .round =>
    if s.node.commitIndex > s.node.lastApplied then
      match Slice.get s.node.log (s.node.lastApplied + 1) with
      | none => .error .panic
      | some entry =>
        -- a send waits while the channel is full
        if (s.node.applyCh.isSome ∧ entry.index > 0) ∧ capacity ≤ s.waiting then .error .disabled
        else .ok { s with node := s.node.applied entry }
    else .error .disabled
  | .receive =>
    if s.received < s.node.sent.length then .ok { s with received := s.received + 1 }
    else .error .disabled

variable {capacity : ℕ} {s s' : Applying} {x : Move}

/-- What a step that takes place has done. -/
inductive Moves (capacity : ℕ) (s : Applying) : Move → Applying → Prop
  | round {entry : RaftLogEntry} (hmore : s.node.commitIndex > s.node.lastApplied)
      (hentry : Slice.get s.node.log (s.node.lastApplied + 1) = some entry)
      (hroom : s.node.applyCh.isSome ∧ entry.index > 0 → s.waiting < capacity) :
      Moves capacity s .round { s with node := s.node.applied entry }
  | receive (hlt : s.received < s.node.sent.length) :
      Moves capacity s .receive { s with received := s.received + 1 }

theorem step_moves (h : s.step capacity x = .ok s') : Moves capacity s x s' := by
  cases x with
  | round =>
    rw [step] at h
    split at h
    next hmore =>
      split at h
      next => cases h
      next entry hentry =>
        split at h
        next => cases h
        next hroom =>
          obtain rfl := Except.ok.inj h
          exact .round hmore hentry fun hsends => not_le.mp fun hfull => hroom ⟨hsends, hfull⟩
    next => cases h
  | receive =>
    rw [step] at h
    split at h
    next hlt =>
      obtain rfl := Except.ok.inj h
      exact .receive hlt
    next => cases h

/-- A loop that would come to its end does not panic. -/
theorem step_ne_panic (hfinal : s.node.applyLogs = some r') (x : Move) :
    s.step capacity x ≠ .error .panic := by
  cases x with
  | round =>
    by_cases hmore : s.node.commitIndex > s.node.lastApplied
    · obtain ⟨entry, hentry⟩ := RaftNode.exists_entry hfinal hmore
      rw [step, if_pos hmore, hentry]
      dsimp only
      split <;> simp
    · rw [step, if_neg hmore]
      simp
  | receive =>
    rw [step]
    split <;> simp

/-- At most so many steps are left. -/
def left (s : Applying) : ℕ := 2 * s.node.unapplied + s.waiting

/-- What holds from the first round on, if the loop would come to `r'` without waiting. -/
structure Underway (capacity : ℕ) (r' : RaftNode) (bound : ℕ) (done : List Move) (s : Applying) :
    Prop where
  final : s.node.applyLogs = some r'
  received : s.received ≤ s.node.sent.length
  waiting : s.waiting ≤ capacity
  left : done.length + s.left ≤ bound

theorem Underway.step {bound : ℕ} {done : List Move} (h : Underway capacity r' bound done s)
    (hstep : s.step capacity x = .ok s') : Underway capacity r' bound (done ++ [x]) s' := by
  have hleft := h.left
  have hreceived := h.received
  have hwaiting := h.waiting
  unfold Applying.left Applying.waiting at hleft
  unfold Applying.waiting at hwaiting
  cases step_moves hstep with
  | @round entry hmore hentry hroom =>
    have hsent := s.node.sent_applied entry
    have hunapplied := RaftNode.unapplied_applied hmore entry
    have hfinal := RaftNode.applyLogs_applied hmore hentry
    have hlen : (s.node.applied entry).sent.length = s.node.sent.length ∨
        (s.node.applied entry).sent.length = s.node.sent.length + 1 ∧ s.waiting < capacity := by
      rw [hsent]
      split
      next hsends => exact .inr ⟨by simp, hroom hsends⟩
      next => exact .inl rfl
    unfold Applying.waiting at hlen
    exact
      { final := by rw [← hfinal, h.final]
        received := by
          show s.received ≤ (s.node.applied entry).sent.length
          omega
        waiting := by
          show (s.node.applied entry).sent.length - s.received ≤ capacity
          omega
        left := by
          show (done ++ [Move.round]).length + (2 * (s.node.applied entry).unapplied +
            ((s.node.applied entry).sent.length - s.received)) ≤ bound
          rw [List.length_append, List.length_singleton]
          omega }
  | receive hlt =>
    exact
      { final := h.final
        received := hlt
        waiting := by
          show s.node.sent.length - (s.received + 1) ≤ capacity
          omega
        left := by
          show (done ++ [Move.receive]).length + (2 * s.node.unapplied +
            (s.node.sent.length - (s.received + 1))) ≤ bound
          rw [List.length_append, List.length_singleton]
          omega }

/-- A loop that has rounds left, or a channel that is not empty, can go on. -/
theorem Underway.onward {bound : ℕ} {done : List Move} (h : Underway capacity r' bound done s)
    (hcapacity : 1 ≤ capacity) :
    (s.node = r' ∧ s.received = s.node.sent.length) ∨ ∃ x s', s.step capacity x = .ok s' := by
  by_cases hlt : s.received < s.node.sent.length
  · exact .inr ⟨.receive, _, by rw [Applying.step, if_pos hlt]⟩
  have hempty : ¬capacity ≤ s.waiting := by
    unfold Applying.waiting
    omega
  by_cases hmore : s.node.commitIndex > s.node.lastApplied
  · obtain ⟨entry, hentry⟩ := RaftNode.exists_entry h.final hmore
    refine .inr ⟨.round, { s with node := s.node.applied entry }, ?_⟩
    rw [Applying.step, if_pos hmore, hentry]
    simp only [hempty, and_false, if_false]
  · have hdone := RaftNode.applyLogs_of_le (not_lt.mp hmore)
    have hreceived := h.received
    exact .inl ⟨Option.some.inj (hdone.symm.trans h.final), by omega⟩

/-- **The apply channel may be bounded.**  Take a node whose `applyLogs` would end in `r'` if it
    never waited, and a channel that holds no more than its capacity.  Whatever the schedule, the
    loop does not panic, the channel keeps to its capacity, what is received is a beginning of
    what `r'` has sent, there are at most so many steps, and they end only when the node is `r'`
    and all its messages are received. -/
theorem bounded_channel (hcapacity : 1 ≤ capacity) (hfinal : r.applyLogs = some r') {k : ℕ}
    (hk : k ≤ r.sent.length) (hroom : r.sent.length - k ≤ capacity) {moves : List Move}
    (hs : Run.Reached (step capacity) ⟨r, k⟩ moves s) :
    (∀ x, s.step capacity x ≠ .error .panic) ∧ s.waiting ≤ capacity ∧
      s.node.sent.take s.received <+: r'.sent ∧
      moves.length ≤ 2 * r.unapplied + (r.sent.length - k) ∧
      ((s.node = r' ∧ s.received = r'.sent.length) ∨ ∃ x s', s.step capacity x = .ok s') := by
  have hinit : Underway capacity r' (left ⟨r, k⟩) [] ⟨r, k⟩ := ⟨hfinal, hk, hroom, by simp⟩
  have h : Underway capacity r' (left ⟨r, k⟩) moves s :=
    Run.Reached.invariant hinit (fun _ h hstep => h.step hstep) hs
  refine ⟨step_ne_panic h.final, h.waiting, ?_, (Nat.le_add_right _ _).trans h.left, ?_⟩
  · have htake := List.take_prefix s.received s.node.sent
    exact htake.trans (RaftNode.sent_prefix_of_applyLogs h.final)
  · rcases h.onward hcapacity with ⟨hnode, hreceived⟩ | hstep
    · exact .inl ⟨hnode, by rw [hreceived, hnode]⟩
    · exact .inr hstep

/-- A node that is about to apply three entries. -/
def threeCommitted : RaftNode :=
  { newRaftNode 0 [] (some []) with
    log := [dummyEntry, ⟨1, 1, [1], [10], false⟩, ⟨2, 1, [2], [20], false⟩, ⟨3, 1, [1], [], true⟩]
    commitIndex := 3 }

/-- With room for one message, the third round has to wait until the second is received. -/
theorem bounded_channel_three : ∃ r' s,
    threeCommitted.applyLogs = some r' ∧ r'.sent.length = 3 ∧
    Run.Reached (step 1) ⟨threeCommitted, 0⟩ [.round, .receive, .round] s ∧ s.waiting = 1 ∧
    s.node.sent.take s.received <+: r'.sent ∧ ∃ x s', s.step 1 x = .ok s' := by
  obtain ⟨r', hfinal, hlen⟩ : ∃ r', threeCommitted.applyLogs = some r' ∧ r'.sent.length = 3 :=
    ⟨_, rfl, rfl⟩
  obtain ⟨s, hs, hview⟩ := Run.exists_reached (step 1) ⟨threeCommitted, 0⟩
    [.round, .receive, .round] (fun s => (s.received, s.waiting)) (1, 1) rfl
  obtain ⟨hreceived, hwaiting⟩ := Prod.mk.inj hview
  obtain ⟨_, _, hbegin, _, honward⟩ := bounded_channel le_rfl hfinal (by decide) (by decide) hs
  refine ⟨r', s, hfinal, hlen, hs, hwaiting, hbegin, honward.resolve_left ?_⟩
  rintro ⟨_, hall⟩
  rw [hreceived, hlen] at hall
  cases hall

end Applying

end Hallownest.Consensus
