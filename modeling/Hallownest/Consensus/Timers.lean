import Hallownest.Consensus.Schedules

namespace Hallownest.Consensus

/-!
# Consensus — the timers (`raft_node.go`)

The two loops that drive a node, with the clock.  `runElectionLoop` looks at the election
deadline at every tick; the handlers move the deadline.  Every `becomeLeader` starts a
`runHeartbeatLoop` of its own, and a loop that finds the node killed or not leading ends.

Times are nanoseconds.  A tick, a delivery or a call may happen at any time; only the clock
does not go back.  A timed run without its times is a run of the cluster (`reached_cluster`).

* `timeout_window` — an election starts no sooner than the shortest timeout after the deadline
  was set, and at the first tick after the longest one;
* `loops_alive` — a leader has a heartbeat loop, and never more loops than terms.
-/

/-! ### Durations -/

/-- One millisecond. -/
def millisecond : Int := 1000000

/-- The shortest election timeout (`MinElectionTimeout`). -/
def minElectionTimeout : Int := 150 * millisecond

/-- The bound of election timeouts (`MaxElectionTimeout`). -/
def maxElectionTimeout : Int := 300 * millisecond

/-- What the random generator returns for the length of the interval between the timeouts. -/
abbrev Draw : Type := Fin (maxElectionTimeout - minElectionTimeout).toNat

/-- A random timeout. -/
def randomElectionDuration (extra : Draw) : Int := minElectionTimeout + extra.val

theorem minElectionTimeout_le (extra : Draw) :
    minElectionTimeout ≤ randomElectionDuration extra := by
  unfold randomElectionDuration
  omega

private theorem randomElectionDuration_lt (extra : Draw) :
    randomElectionDuration extra < maxElectionTimeout := by
  have h := extra.isLt
  unfold randomElectionDuration
  omega

/-! ### Who moves its deadline -/

namespace Cluster

/-- The node whose election timeout is reset when a packet is handled. -/
def resets (s : Cluster) : Packet → Option Int
  | .voteRequest peer args =>
    -- by `becomeFollower`, or when the vote is granted
    if args.term > (s.nodes peer).currentTerm ∨
        ((s.nodes peer).requestVote args).any (fun res => res.2.voteGranted) then some peer
    else none
  | .voteReply _ args reply =>
    let r := s.nodes args.candidateID
    if r.role = .candidate ∧ r.currentTerm = args.term ∧ reply.term > r.currentTerm then
      some args.candidateID
    else none
  | .appendRequest peer args =>
    if args.term < (s.nodes peer).currentTerm then none else some peer
  | .appendReply _ args reply =>
    let r := s.nodes args.leaderID
    if r.role = .leader ∧ r.currentTerm = args.term ∧ reply.term > r.currentTerm then
      some args.leaderID
    else none

end Cluster

/-! ### The clock -/

/-- A cluster with a clock.  `electionLoop` says whether the election loop of a node still runs,
    `heartbeatLoops` counts its heartbeat loops. -/
structure Timed where
  cluster : Cluster
  now : Int
  electionDeadline : Int → Int
  electionLoop : Int → Bool
  heartbeatLoops : Int → ℕ

/-- What may happen next.  A `draw` is used if a timeout is reset. -/
inductive Tick
  | electionTick (id : Int) (draw : Draw)
  | heartbeatTick (id : Int)
  | submit (id : Int) (key value : Bytes) (tombstone : Bool)
  | deliver (i : ℕ) (draw : Draw)
  | lose (i : ℕ)
  | kill (id : Int)
  deriving DecidableEq, Repr

namespace Timed

/-- All nodes are created at time `now`. -/
def initial (cfg : Config) (now : Int) (draw : Int → Draw) : Timed where
  cluster := Cluster.initial cfg
  now := now
  electionDeadline := fun id => now + randomElectionDuration (draw id)
  electionLoop := fun _ => true
  heartbeatLoops := fun _ => 0

/-- Set the election deadline of a node (`resetElectionTimeout`). -/
def resetElectionTimeout (s : Timed) (id : Int) (draw : Draw) : Timed :=
  { s with electionDeadline := fun j =>
      if j = id then s.now + randomElectionDuration draw else s.electionDeadline j }

/-- The cluster has made a step; a node that has become leader starts a heartbeat loop. -/
def move (s : Timed) (cluster : Cluster) : Timed :=
  { s with
    cluster := cluster
    heartbeatLoops := fun j =>
      if (s.cluster.nodes j).role ≠ .leader ∧ (cluster.nodes j).role = .leader then
        s.heartbeatLoops j + 1
      else s.heartbeatLoops j }

/-- The node starts an election at this tick. -/
def due (s : Timed) (id : Int) : Prop :=
  (s.cluster.nodes id).killed = false ∧ (s.cluster.nodes id).role ≠ .leader ∧
    s.electionDeadline id < s.now

instance (s : Timed) (id : Int) : Decidable (s.due id) :=
  inferInstanceAs (Decidable (_ ∧ _))

/-- One round of the election loop of a node. -/
def runElectionLoop (cfg : Config) (s : Timed) (id : Int) (draw : Draw) : Except Fault Timed :=
  if id ∈ cfg.ids ∧ s.electionLoop id = true then
    if (s.cluster.nodes id).killed then
      .ok { s with electionLoop := fun j => if j = id then false else s.electionLoop j }
    else if s.due id then do
      let cluster ← s.cluster.step cfg (.electionTimeout id)
      return (s.move cluster).resetElectionTimeout id draw
    else .ok s
  else .error .disabled

/-- One round of a heartbeat loop of a node. -/
def runHeartbeatLoop (cfg : Config) (s : Timed) (id : Int) : Except Fault Timed :=
  if id ∈ cfg.ids ∧ 0 < s.heartbeatLoops id then
    if (s.cluster.nodes id).killed ∨ (s.cluster.nodes id).role ≠ .leader then
      .ok { s with heartbeatLoops := fun j =>
        if j = id then s.heartbeatLoops j - 1 else s.heartbeatLoops j }
    else do
      let cluster ← s.cluster.step cfg (.heartbeatTick id)
      return s.move cluster
  else .error .disabled

/-- A packet arrives. -/
def deliver (cfg : Config) (s : Timed) (i : ℕ) (draw : Draw) : Except Fault Timed := do
  let cluster ← s.cluster.step cfg (.deliver i)
  match (s.cluster.net[i]?).bind s.cluster.resets with
  | some id => return (s.move cluster).resetElectionTimeout id draw
  | none => return s.move cluster

/-- Another step of the cluster. -/
def other (cfg : Config) (s : Timed) (act : Action) : Except Fault Timed := do
  let cluster ← s.cluster.step cfg act
  return s.move cluster

/-- One step, at time `x.1`. -/
def step (cfg : Config) (s : Timed) (x : Int × Tick) : Except Fault Timed :=
  if x.1 < s.now then .error .disabled
  else
    let s := { s with now := x.1 }
    match x.2 with
    | .electionTick id draw => s.runElectionLoop cfg id draw
    | .heartbeatTick id => s.runHeartbeatLoop cfg id
    | .submit id key value tombstone => s.other cfg (.submit id key value tombstone)
    | .deliver i draw => s.deliver cfg i draw
    | .lose i => s.other cfg (.lose i)
    | .kill id => s.other cfg (.kill id)

/-- `s` is reached from the creation of the nodes by the given ticks. -/
def Reached (cfg : Config) (now : Int) (draw : Int → Draw) (ticks : List (Int × Tick))
    (s : Timed) : Prop :=
  Run.Reached (step cfg) (initial cfg now draw) ticks s

/-- A step resets the election timeout of node `p`. -/
def Resets (s : Timed) (x : Int × Tick) (p : Int) : Prop :=
  match x.2 with
  | .electionTick id _ => id = p ∧ due { s with now := x.1 } id
  | .deliver i _ => (s.cluster.net[i]?).bind s.cluster.resets = some p
  | _ => False

instance (s : Timed) (x : Int × Tick) (p : Int) : Decidable (s.Resets x p) :=
  match x with
  | (_, .electionTick _ _) => inferInstanceAs (Decidable (_ ∧ _))
  | (_, .deliver _ _) => inferInstanceAs (Decidable (_ = _))
  | (_, .heartbeatTick _) => inferInstanceAs (Decidable False)
  | (_, .submit _ _ _ _) => inferInstanceAs (Decidable False)
  | (_, .lose _) => inferInstanceAs (Decidable False)
  | (_, .kill _) => inferInstanceAs (Decidable False)

variable {cfg : Config} {s s' : Timed} {x : Int × Tick} {now : Int} {draw : Int → Draw}
  {ticks : List (Int × Tick)}

theorem stepped_of_ok {act : Action} {after : Cluster → Timed}
    (h : (do let cluster ← s.cluster.step cfg act; return after cluster) = .ok s') :
    ∃ cluster, s.cluster.step cfg act = .ok cluster ∧ after cluster = s' := by
  cases hstep : s.cluster.step cfg act with
  | error e =>
    rw [hstep] at h
    cases h
  | ok cluster =>
    rw [hstep] at h
    exact ⟨cluster, rfl, Except.ok.inj h⟩

/-- What a step that takes place has done. -/
inductive Passes (cfg : Config) (s : Timed) : Int × Tick → Timed → Prop
  | ended {t id : Int} {draw : Draw} (hkilled : (s.cluster.nodes id).killed = true) :
      Passes cfg s (t, .electionTick id draw)
        { s with now := t, electionLoop := fun j => if j = id then false else s.electionLoop j }
  | started {t id : Int} {draw : Draw} {cluster : Cluster} (hdue : due { s with now := t } id)
      (hstep : s.cluster.step cfg (.electionTimeout id) = .ok cluster) :
      Passes cfg s (t, .electionTick id draw)
        ((move { s with now := t } cluster).resetElectionTimeout id draw)
  | waited {t id : Int} {draw : Draw} (hdue : ¬ due { s with now := t } id) :
      Passes cfg s (t, .electionTick id draw) { s with now := t }
  | stopped {t id : Int}
      (h : (s.cluster.nodes id).killed = true ∨ (s.cluster.nodes id).role ≠ .leader) :
      Passes cfg s (t, .heartbeatTick id)
        { s with
          now := t
          heartbeatLoops := fun j =>
            if j = id then s.heartbeatLoops j - 1 else s.heartbeatLoops j }
  | reset {t : Int} {i : ℕ} {draw : Draw} {id : Int} {cluster : Cluster}
      (hreset : (s.cluster.net[i]?).bind s.cluster.resets = some id)
      (hstep : s.cluster.step cfg (.deliver i) = .ok cluster) :
      Passes cfg s (t, .deliver i draw)
        ((move { s with now := t } cluster).resetElectionTimeout id draw)
  | moved {t : Int} {tick : Tick} {act : Action} {cluster : Cluster}
      (hact : ∀ id, act ≠ .electionTimeout id) (hreset : ∀ p, ¬ s.Resets (t, tick) p)
      (htick : ∀ id draw, tick ≠ .electionTick id draw)
      (hstep : s.cluster.step cfg act = .ok cluster) :
      Passes cfg s (t, tick) (move { s with now := t } cluster)

/-- **The steps of the clock**, one constructor for each thing a loop or a handler can do. -/
theorem step_passes (h : s.step cfg x = .ok s') : s.now ≤ x.1 ∧ Passes cfg s x s' := by
  obtain ⟨t, tick⟩ := x
  rw [step] at h
  split at h
  · cases h
  next hnow =>
  refine ⟨not_lt.mp hnow, ?_⟩
  -- what is no tick of a loop and resets no timer moves the cluster and the clock alone
  have hother : ∀ {act : Action}, (∀ id, act ≠ .electionTimeout id) →
      (∀ p, ¬ s.Resets (t, tick) p) → (∀ id draw, tick ≠ .electionTick id draw) →
      other cfg { s with now := t } act = .ok s' → Passes cfg s (t, tick) s' := by
    intro act hact hreset htick hrun
    obtain ⟨cluster, hstep, rfl⟩ := stepped_of_ok (s := s) hrun
    exact .moved hact hreset htick hstep
  cases tick with
  | electionTick id draw =>
    simp only [runElectionLoop] at h
    split at h
    · split at h
      next hkilled =>
        obtain rfl := Except.ok.inj h
        exact .ended hkilled
      next =>
        split at h
        next hdue =>
          obtain ⟨cluster, hstep, rfl⟩ := stepped_of_ok (s := s) h
          exact .started hdue hstep
        next hdue =>
          obtain rfl := Except.ok.inj h
          exact .waited hdue
    · cases h
  | heartbeatTick id =>
    simp only [runHeartbeatLoop] at h
    split at h
    · split at h
      next hend =>
        obtain rfl := Except.ok.inj h
        exact .stopped hend
      next =>
        obtain ⟨cluster, hstep, rfl⟩ := stepped_of_ok (s := s) h
        exact .moved (by simp) (fun _ hreset => hreset) (by simp) hstep
    · cases h
  | submit id key value tombstone =>
    exact hother (by simp) (fun _ hreset => hreset) (by simp) h
  | deliver i draw =>
    simp only [deliver] at h
    cases hreset : (s.cluster.net[i]?).bind s.cluster.resets with
    | some id =>
      rw [hreset] at h
      obtain ⟨cluster, hstep, rfl⟩ := stepped_of_ok (s := s) h
      exact .reset hreset hstep
    | none =>
      rw [hreset] at h
      obtain ⟨cluster, hstep, rfl⟩ := stepped_of_ok (s := s) h
      refine .moved (by simp) (fun p hp => ?_) (by simp) hstep
      cases hreset.symm.trans hp
  | lose i => exact hother (by simp) (fun _ hreset => hreset) (by simp) h
  | kill id => exact hother (by simp) (fun _ hreset => hreset) (by simp) h

/-- A step moves the deadline of the nodes it resets, and of no other. -/
theorem step_electionDeadline (h : s.step cfg x = .ok s') (p : Int) :
    (¬ s.Resets x p ∧ s'.electionDeadline p = s.electionDeadline p) ∨
      (s.Resets x p ∧ ∃ draw, s'.electionDeadline p = x.1 + randomElectionDuration draw) := by
  have hother : ∀ {id : Int} (draw : Draw) (cluster : Cluster), id ≠ p →
      ((move { s with now := x.1 } cluster).resetElectionTimeout id draw).electionDeadline p =
        s.electionDeadline p :=
    fun _ _ hid => if_neg (Ne.symm hid)
  cases (step_passes h).2 with
  | ended hkilled =>
    refine Or.inl ⟨fun hreset => ?_, rfl⟩
    obtain ⟨rfl, halive, _⟩ := hreset
    cases hkilled.symm.trans halive
  | @started t id draw cluster hdue hstep =>
    by_cases hid : id = p
    · exact Or.inr ⟨⟨hid, hdue⟩, draw, if_pos hid.symm⟩
    · exact Or.inl ⟨fun hreset => hid hreset.1, hother draw cluster hid⟩
  | waited hdue => exact Or.inl ⟨fun hreset => hdue hreset.2, rfl⟩
  | stopped _ => exact Or.inl ⟨fun hreset => hreset, rfl⟩
  | @reset t i draw id cluster hreset hstep =>
    by_cases hid : id = p
    · exact Or.inr ⟨hreset.trans (congrArg some hid), draw, if_pos hid.symm⟩
    · refine Or.inl ⟨fun hp => hid ?_, hother draw cluster hid⟩
      exact Option.some.inj (hreset.symm.trans hp)
  | moved _ hreset _ _ => exact Or.inl ⟨hreset p, rfl⟩

/-- The cluster stays or makes a step; an election is started by a tick that finds it due. -/
theorem step_cluster (h : s.step cfg x = .ok s') :
    s'.cluster = s.cluster ∨ ∃ act, s.cluster.step cfg act = .ok s'.cluster ∧
      ∀ id, act = .electionTimeout id →
        (∃ draw, x.2 = .electionTick id draw) ∧ due { s with now := x.1 } id := by
  cases (step_passes h).2 with
  | ended _ => exact Or.inl rfl
  | started hdue hstep =>
    refine Or.inr ⟨_, hstep, fun id hid => ?_⟩
    obtain rfl := Action.electionTimeout.inj hid
    exact ⟨⟨_, rfl⟩, hdue⟩
  | waited _ => exact Or.inl rfl
  | stopped _ => exact Or.inl rfl
  | reset _ hstep => exact Or.inr ⟨_, hstep, by simp⟩
  | moved hact _ _ hstep => exact Or.inr ⟨_, hstep, fun id hid => absurd hid (hact id)⟩

/-- The clock does not run backwards. -/
theorem step_now (h : s.step cfg x = .ok s') : s.now ≤ s'.now ∧ s'.now = x.1 := by
  obtain ⟨hnow, hpass⟩ := step_passes h
  have heq : s'.now = x.1 := by cases hpass <;> rfl
  exact ⟨heq ▸ hnow, heq⟩

/-- A timed run without its times is a run of the cluster. -/
theorem reached_cluster (h : Reached cfg now draw ticks s) :
    ∃ acts, Cluster.Reached cfg acts s.cluster := by
  refine Run.Reached.invariant
    (I := fun _ (s : Timed) => ∃ acts, Cluster.Reached cfg acts s.cluster) ?_
    (fun _ ih hstep => ?_) h
  · exact ⟨[], rfl⟩
  · obtain ⟨acts, hacts⟩ := ih
    rcases step_cluster hstep with hsame | ⟨act, hact, _⟩
    · exact ⟨acts, hsame ▸ hacts⟩
    · exact ⟨acts ++ [act], Run.reached_snoc.mpr ⟨_, hacts, hact⟩⟩

/-! ### The window of an election timeout -/

/-- At moment `m` of a run the timeout of node `p` has just been set, at time `t`: by its creation
    or by the step before. -/
def ResetAt (cfg : Config) (now : Int) (draw : Int → Draw) (ticks : List (Int × Tick)) (p : Int)
    (m : ℕ) (t : Int) : Prop :=
  (m = 0 ∧ t = now) ∨ ∃ j x u, m = j + 1 ∧ ticks[j]? = some x ∧
    Reached cfg now draw (ticks.take j) u ∧ u.Resets x p ∧ t = x.1

variable {p t : Int} {m k : ℕ}

/-- A deadline that has just been set is a random timeout away. -/
theorem ResetAt.electionDeadline (h : ResetAt cfg now draw ticks p m t)
    (hs : Reached cfg now draw (ticks.take m) s) :
    s.now = t ∧ ∃ draw, s.electionDeadline p = t + randomElectionDuration draw := by
  rcases h with ⟨rfl, rfl⟩ | ⟨j, x, u, rfl, hx, hu, hreset, rfl⟩
  · obtain rfl := Run.reached_nil.mp hs
    exact ⟨rfl, draw p, rfl⟩
  · rw [List.take_add_one, hx] at hs
    obtain ⟨w, hw, hstep⟩ := Run.reached_snoc.mp hs
    obtain rfl := hw.unique hu
    refine ⟨(step_now hstep).2, ?_⟩
    rcases step_electionDeadline hstep p with ⟨hnot, _⟩ | ⟨_, hdeadline⟩
    · exact absurd hreset hnot
    · exact hdeadline

/-- From a reset on, the deadline lies at least the shortest timeout after it. -/
theorem ResetAt.le_electionDeadline (h : ResetAt cfg now draw ticks p m t) (hmk : m ≤ k)
    {u : Timed} (hs : Reached cfg now draw (ticks.take m) s)
    (hu : Reached cfg now draw (ticks.take k) u) :
    t + minElectionTimeout ≤ u.electionDeadline p := by
  obtain ⟨hnow, extra, hdeadline⟩ := h.electionDeadline hs
  refine (hs.onward (I := fun u => t ≤ u.now ∧ t + minElectionTimeout ≤ u.electionDeadline p) hmk
    ⟨hnow.ge, ?_⟩ (fun _ _ _ _ hI hstep => ?_) hu).2
  · have := minElectionTimeout_le extra
    omega
  · obtain ⟨hle, hnow'⟩ := step_now hstep
    refine ⟨hI.1.trans hle, ?_⟩
    rcases step_electionDeadline hstep p with ⟨_, hsame⟩ | ⟨_, extra', hset⟩
    · exact hsame ▸ hI.2
    · -- a later reset happens at a later time
      have := minElectionTimeout_le extra'
      omega

/-- The deadline stays until the next reset. -/
theorem ResetAt.electionDeadline_eq (h : ResetAt cfg now draw ticks p m t) (hmk : m ≤ k)
    {u : Timed} (hs : Reached cfg now draw (ticks.take m) s)
    (hu : Reached cfg now draw (ticks.take k) u)
    (hquiet : ∀ i t', m < i → i ≤ k → ¬ ResetAt cfg now draw ticks p i t') :
    ∃ draw, u.electionDeadline p = t + randomElectionDuration draw := by
  refine hs.onward (I := fun u => ∃ draw, u.electionDeadline p = t + randomElectionDuration draw)
    hmk (h.electionDeadline hs).2 (fun {j v x v'} hj hjk hx hv hI hstep => ?_) hu
  rcases step_electionDeadline hstep p with ⟨_, hsame⟩ | ⟨hreset, _⟩
  · exact hsame ▸ hI
  · exact absurd (Or.inr ⟨j, x, v, rfl, hx, hv, hreset, rfl⟩)
      (hquiet (j + 1) x.1 (by omega) (by omega))

/-- **The election timeout.**  Let the timeout of node `p` have been set at time `t`, and let its
    election loop look at the clock later in the run.  Up to the shortest timeout the loop does
    nothing to the cluster.  After the longest one, if nothing has set the timeout again and the
    node neither leads nor has been killed, it votes for itself in the next term. -/
theorem timeout_window (h : Reached cfg now draw ticks s)
    (hset : ResetAt cfg now draw ticks p m t) (hmk : m ≤ k) {x : Int × Tick} {d : Draw}
    (hx : ticks[k]? = some x) (htick : x.2 = .electionTick p d) {u u' : Timed}
    (hu : Reached cfg now draw (ticks.take k) u)
    (hu' : Reached cfg now draw (ticks.take (k + 1)) u') :
    (x.1 ≤ t + minElectionTimeout → u'.cluster = u.cluster) ∧
    (t + maxElectionTimeout ≤ x.1 →
      (∀ i t', m < i → i ≤ k → ¬ ResetAt cfg now draw ticks p i t') →
      (u.cluster.nodes p).killed = false → (u.cluster.nodes p).role ≠ .leader →
      (u'.cluster.nodes p).currentTerm = (u.cluster.nodes p).currentTerm + 1 ∧
        (u'.cluster.nodes p).votedFor = (u.cluster.nodes p).id) := by
  obtain ⟨w, hw⟩ := h.take m
  obtain ⟨v, hstep, hv⟩ := h.next hx hu
  obtain rfl := hu'.unique hv
  obtain ⟨time, tick⟩ := x
  obtain rfl : tick = .electionTick p d := htick
  refine ⟨fun hearly => ?_, fun hlate hquiet halive hrole => ?_⟩
  -- the deadline is at least the shortest timeout away, so no election is due yet
  · have hle := hset.le_electionDeadline hmk hw hu
    cases (step_passes hstep).2 with
    | ended _ => rfl
    | waited _ => rfl
    | moved _ _ hnot _ => exact absurd rfl (hnot p d)
    | started hdue _ =>
      have hlt : u.electionDeadline p < time := hdue.2.2
      exact absurd (hlt.trans_le hearly) (not_lt.mpr hle)
  -- nothing has moved the deadline since, and the draw is below the longest timeout
  · obtain ⟨extra, hdeadline⟩ := hset.electionDeadline_eq hmk hw hu hquiet
    have hlt := randomElectionDuration_lt extra
    have hdue : due { u with now := time } p := by
      refine ⟨halive, hrole, ?_⟩
      show u.electionDeadline p < time
      simp only at hlate
      omega
    cases (step_passes hstep).2 with
    | ended hkilled => cases hkilled.symm.trans halive
    | waited hnot => exact absurd hdue hnot
    | moved _ _ hnot _ => exact absurd rfl (hnot p d)
    | started _ hrun =>
      cases Cluster.step_takes hrun with
      | electionTimeout _ _ hstart =>
        show ((Cluster.setNode _ p _).nodes p).currentTerm = _ ∧
          ((Cluster.setNode _ p _).nodes p).votedFor = _
        rw [Cluster.setNode_nodes_self]
        obtain ⟨_, ⟨_, rfl, _⟩ | ⟨rfl, _⟩⟩ := RaftNode.startElection_cases hstart
        · exact ⟨rfl, rfl⟩
        · exact ⟨rfl, rfl⟩

/-- The shortest timeout is drawn. -/
def noExtra : Draw := ⟨0, by decide⟩

/-- The election loop of node 0 looks at the clock three times. -/
def threeTicks : List (Int × Tick) :=
  [(160 * millisecond, .electionTick 0 noExtra), (170 * millisecond, .electionTick 0 noExtra),
    (460 * millisecond, .electionTick 0 noExtra)]

/-- Node 0 starts an election 160 ms after its creation, waits at 170 ms, and starts another one
    at 460 ms. -/
theorem timeout_window_pair : ∃ u v w, Reached pair 0 (fun _ => noExtra) (threeTicks.take 1) u ∧
    Reached pair 0 (fun _ => noExtra) (threeTicks.take 2) v ∧
    Reached pair 0 (fun _ => noExtra) threeTicks w ∧ v.cluster = u.cluster ∧
    (w.cluster.nodes 0).currentTerm = (v.cluster.nodes 0).currentTerm + 1 := by
  obtain ⟨u, hu, hsee⟩ := Run.exists_reached (step pair) (initial pair 0 fun _ => noExtra)
    (threeTicks.take 1)
    (fun u => decide (u.Resets (170 * millisecond, .electionTick 0 noExtra) 0)) false (by decide)
  obtain ⟨v, hv, hview⟩ := Run.exists_reached (step pair) (initial pair 0 fun _ => noExtra)
    (threeTicks.take 2)
    (fun v => ((v.cluster.nodes 0).killed, decide ((v.cluster.nodes 0).role = .leader)))
    (false, false) (by decide)
  obtain ⟨w, hw, _⟩ := Run.exists_reached (step pair) (initial pair 0 fun _ => noExtra)
    threeTicks (fun _ => ()) () (by decide)
  have hset : ResetAt pair 0 (fun _ => noExtra) threeTicks 0 1 (160 * millisecond) :=
    Or.inr ⟨0, _, _, rfl, rfl, rfl, by decide, rfl⟩
  obtain ⟨hkilled, hrole⟩ := Prod.mk.inj hview
  have hquiet : ∀ i t', 1 < i → i ≤ 2 →
      ¬ ResetAt pair 0 (fun _ => noExtra) threeTicks 0 i t' := by
    rintro i t' hlo hhi (⟨rfl, _⟩ | ⟨j, x, u', rfl, hx, hu', hreset, _⟩)
    · omega
    · obtain rfl : j = 1 := by omega
      obtain rfl := hu'.unique hu
      obtain rfl := Option.some.inj hx
      exact absurd hreset (of_decide_eq_false hsee)
  refine ⟨u, v, w, hu, hv, hw, ?_, ?_⟩
  · exact (timeout_window hw hset (le_refl 1) rfl rfl hu hv).1 (by decide)
  · exact ((timeout_window hw hset (by decide : 1 ≤ 2) rfl rfl hv hw).2 (by decide) hquiet hkilled
      (of_decide_eq_false hrole)).1

end Timed

/-! ### The heartbeat loops -/

/-- Nobody comes back from `Kill`. -/
theorem Cluster.step_kept_killed {cfg : Config} {s s' : Cluster} {act : Action}
    (h : s.step cfg act = .ok s') {j : Int} (halive : (s'.nodes j).killed = false) :
    (s.nodes j).killed = false := by
  by_cases hkill : ∃ id, act = .kill id
  · obtain ⟨id, rfl⟩ := hkill
    cases step_takes h with
    | kill =>
      by_cases hj : j = id
      · rw [hj, setNode_nodes_self] at halive
        cases halive
      · rwa [setNode_nodes_of_ne _ hj] at halive
  · rwa [step_killed (fun id hid => hkill ⟨id, hid⟩) h] at halive

/-- The loops of a node.  A candidate has not led its term yet, so it may start one loop more. -/
structure LoopsOk (r : RaftNode) (electionLoop : Bool) (heartbeatLoops : ℕ) : Prop where
  election : r.killed = false → electionLoop = true
  heartbeat : r.killed = false → r.role = .leader → 1 ≤ heartbeatLoops
  le_term : (heartbeatLoops : Int) ≤ r.currentTerm
  lt_term : r.role = .candidate → (heartbeatLoops : Int) < r.currentTerm

/-- A node that becomes leader starts a loop. -/
theorem LoopsOk.move {r r' : RaftNode} {loop : Bool} {n : ℕ} (h : LoopsOk r loop n)
    (hclimb : Climbs r r') (hkilled : r'.killed = false → r.killed = false) :
    LoopsOk r' loop (if r.role ≠ .leader ∧ r'.role = .leader then n + 1 else n) := by
  have hle := h.le_term
  have hterm := hclimb.term_le
  split
  next hnew =>
    -- a new leader was a candidate, or has come to a later term
    have hlt : (n : Int) < r'.currentTerm := by
      rcases hclimb.role with hlater | hsame | hdown | ⟨hcand, _⟩
      · exact hle.trans_lt hlater
      · exact absurd (hsame.symm.trans hnew.2) hnew.1
      · cases hdown.symm.trans hnew.2
      · exact (h.lt_term hcand).trans_le hterm
    refine ⟨fun halive => h.election (hkilled halive), fun _ _ => Nat.le_add_left 1 n, ?_, ?_⟩
    · push_cast
      exact hlt
    · intro hcand
      cases hcand.symm.trans hnew.2
  next hold =>
    refine ⟨fun halive => h.election (hkilled halive), fun halive hlead => ?_, hle.trans hterm, ?_⟩
    · have hlead' : r.role = .leader := by
        by_contra hne
        exact hold ⟨hne, hlead⟩
      exact h.heartbeat (hkilled halive) hlead'
    · intro hcand
      rcases hclimb.role with hlater | hsame | hdown | ⟨_, hlead⟩
      · exact hle.trans_lt hlater
      · exact (h.lt_term (hsame.symm.trans hcand)).trans_le hterm
      · cases hdown.symm.trans hcand
      · cases hlead.symm.trans hcand

/-- A heartbeat loop ends, as the node does not lead or has been killed. -/
theorem LoopsOk.ends {r : RaftNode} {loop : Bool} {n : ℕ} (h : LoopsOk r loop n)
    (hend : r.killed = true ∨ r.role ≠ .leader) : LoopsOk r loop (n - 1) := by
  refine ⟨h.election, fun halive hlead => ?_, ?_, fun hcand => ?_⟩
  · rcases hend with hkilled | hrole
    · cases hkilled.symm.trans halive
    · exact absurd hlead hrole
  · have := h.le_term
    omega
  · have := h.lt_term hcand
    omega

namespace Timed

variable {cfg : Config} {s s' : Timed} {x : Int × Tick} {now : Int} {draw : Int → Draw}
  {ticks : List (Int × Tick)}

/-- **Every step** keeps the loops of a node in order. -/
theorem step_loopsOk {id : Int}
    (h : LoopsOk (s.cluster.nodes id) (s.electionLoop id) (s.heartbeatLoops id))
    (hstep : s.step cfg x = .ok s') :
    LoopsOk (s'.cluster.nodes id) (s'.electionLoop id) (s'.heartbeatLoops id) := by
  have hmove : ∀ {act : Action} {cluster : Cluster}, s.cluster.step cfg act = .ok cluster →
      LoopsOk (cluster.nodes id) (s.electionLoop id)
        ((move { s with now := x.1 } cluster).heartbeatLoops id) :=
    fun hrun => h.move (Cluster.step_climbs hrun id) (Cluster.step_kept_killed hrun)
  cases (step_passes hstep).2 with
  | @ended t id' draw hkilled =>
    refine ⟨fun halive => ?_, h.heartbeat, h.le_term, h.lt_term⟩
    have hne : id ≠ id' := by
      rintro rfl
      cases hkilled.symm.trans halive
    exact (if_neg hne).trans (h.election halive)
  | started _ hrun => exact hmove hrun
  | waited _ => exact h
  | @stopped t id' hend =>
    show LoopsOk _ _ (if id = id' then s.heartbeatLoops id - 1 else s.heartbeatLoops id)
    split
    next hid => exact h.ends (hid ▸ hend)
    next => exact h
  | reset _ hrun => exact hmove hrun
  | moved _ _ _ hrun => exact hmove hrun

/-- **The loops stay alive.**  At every moment of every run, the election loop of a node runs as
    long as the node has not been killed, and a leader that has not been killed has a heartbeat
    loop.  A loop that is left over from an earlier term may run beside it, but a node never has
    more loops than it has seen terms. -/
theorem loops_alive (h : Reached cfg now draw ticks s) (id : Int) :
    ((s.cluster.nodes id).killed = false → s.electionLoop id = true) ∧
    ((s.cluster.nodes id).killed = false → (s.cluster.nodes id).role = .leader →
      1 ≤ s.heartbeatLoops id) ∧
    (s.heartbeatLoops id : Int) ≤ (s.cluster.nodes id).currentTerm := by
  have hok : LoopsOk (s.cluster.nodes id) (s.electionLoop id) (s.heartbeatLoops id) := by
    refine Run.Reached.invariant
      (I := fun _ (s : Timed) =>
        LoopsOk (s.cluster.nodes id) (s.electionLoop id) (s.heartbeatLoops id)) ?_
      (fun _ => step_loopsOk) h
    exact ⟨fun _ => rfl, fun _ hlead => (by cases hlead), le_refl _,
      fun hcand => (by cases hcand)⟩
  exact ⟨hok.election, hok.heartbeat, hok.le_term⟩

/-- Node 0 leads term 1, steps down for node 1, which stands in term 2, and leads term 3 before
    its first heartbeat loop has looked at the role. -/
def leadTwice : List (Int × Tick) :=
  [(160 * millisecond, .electionTick 0 noExtra), (160 * millisecond, .deliver 0 noExtra),
    (160 * millisecond, .deliver 0 noExtra), (160 * millisecond, .lose 0),
    (320 * millisecond, .electionTick 1 noExtra), (320 * millisecond, .deliver 0 noExtra),
    (320 * millisecond, .lose 0), (480 * millisecond, .electionTick 0 noExtra),
    (480 * millisecond, .deliver 0 noExtra), (480 * millisecond, .deliver 0 noExtra)]

/-- In that run node 0 has two heartbeat loops. -/
theorem loops_alive_pair : ∃ s, Reached pair 0 (fun _ => noExtra) leadTwice s ∧
    s.heartbeatLoops 0 = 2 ∧ (s.cluster.nodes 0).role = .leader ∧
    (s.heartbeatLoops 0 : Int) ≤ (s.cluster.nodes 0).currentTerm := by
  obtain ⟨s, hs, hview⟩ := Run.exists_reached (step pair) (initial pair 0 fun _ => noExtra)
    leadTwice (fun s => (s.heartbeatLoops 0, (s.cluster.nodes 0).role)) (2, .leader) (by decide)
  obtain ⟨hloops, hrole⟩ := Prod.mk.inj hview
  exact ⟨s, hs, hloops, hrole, (loops_alive hs 0).2.2⟩

end Timed

end Hallownest.Consensus
