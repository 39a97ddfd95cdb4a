import Hallownest.Consensus.Handlers
import Hallownest.Lib.Run
import Hallownest.Network.Server

namespace Hallownest.Network

open Bench (WAL)
open Consensus (Fault Packet RaftNode orPanic orPanic_eq_ok)
open Storage (MemTable Op)

/-!
# Network — listeners and accept loops (`server.go`)

`Start` opens a listener and spawns an accept loop, `Stop` closes the listener.  Neither waits
for the loops: a loop finds out at the head of its next round, or when `Accept` fails, and by
then the server may have been started again.  So there may be several loops, of which some still
wait on a listener that is closed.

* `Listening.step` — `Start`, `Stop` and each place where a loop may be interrupted.  The system
  refuses to open a listener on a port in use; port 0 stands for any free port.
* `Listening.running_serves` — a running server can always take the next connection, by the
  steps of one loop alone.
* `Listening.stopped_drains` — a stopped server takes no connection and changes nothing, and its
  loops end.
-/

namespace StagwayServer

/-- A request does not start or stop the server. -/
theorem handle_running {s s' : StagwayServer} {op : Op} {env : Env} {res : WriteResult}
    {sent : List Packet} (h : s.handle op env = some (s', res, sent)) :
    s'.running = s.running := by
  rw [handle_eq, write] at h
  obtain ⟨⟨s₁, res₁, sent₁⟩, hsubmit, hrest⟩ := Option.bind_eq_some_iff.mp h
  have hrunning := (submit_keeps hsubmit).2.2
  dsimp only at hrest
  split at hrest
  next =>
    obtain ⟨rfl, _⟩ := Prod.mk.inj (Option.some.inj hrest)
    exact hrunning
  next =>
    obtain ⟨s₂, hlog, hrest⟩ := Option.bind_eq_some_iff.mp hrest
    obtain ⟨s₃, hput, hrest⟩ := Option.bind_eq_some_iff.mp hrest
    obtain ⟨w, _, hlog⟩ := Option.bind_eq_some_iff.mp hlog
    obtain ⟨m, _, hput⟩ := Option.bind_eq_some_iff.mp hput
    obtain ⟨rfl, _⟩ := Prod.mk.inj (Option.some.inj hrest)
    obtain rfl := Option.some.inj hlog
    obtain rfl := Option.some.inj hput
    exact hrunning

/-- A stopped server refuses every request. -/
theorem handle_stopped {s : StagwayServer} (hstopped : s.running = false) (op : Op) (env : Env) :
    s.handle op env = some (s, ⟨-1, -1, false, some .serverClosed⟩, []) := by
  have hsubmit : s.submit op = some (s, ⟨-1, -1, false, some .serverClosed⟩, []) := by
    rw [submit, hstopped]
    rfl
  rw [handle_eq, write, hsubmit]
  rfl

end StagwayServer

/-- Where an accept loop stands: at the head of its loop, in `Accept` on a listener, after an
    error of `Accept`, or at its end. -/
inductive AcceptLoop
  | head
  | accepting (listener : ℕ)
  | failed
  | ended
  deriving DecidableEq, Repr

/-- A server with its accept loops.  Listeners are numbered in the order in which they are
    opened; `opened` are those not closed yet, and `accepted` says on which listener each
    connection came in.  The errors of the answers to requests are in `answers`. -/
structure Listening where
  server : StagwayServer
  port : ℕ
  listener : Option ℕ
  opened : List ℕ
  count : ℕ
  loops : List AcceptLoop
  accepted : List ℕ
  answers : List (Option ServerError)

/-- What may happen next.  The system may refuse a listener for reasons of its own, and `Accept`
    may fail on a listener that is open. -/
inductive Listening.Move
  | start (granted : Bool)
  | stop
  | round (i : ℕ)
  | accept (i : ℕ)
  | acceptError (i : ℕ)
  | request (op : Op) (env : Env)
  | raft (node : RaftNode)

namespace Listening

/-- A new server. -/
def init (raft : Option RaftNode) (memTable : Option MemTable) (wal : Option WAL) (port : ℕ) :
    Listening where
  server := newStagwayServer raft memTable wal
  port := port
  listener := none
  opened := []
  count := 0
  loops := []
  accepted := []
  answers := []

/-- The `i`-th accept loop comes to another place. -/
def setLoop (s : Listening) (i : ℕ) (l : AcceptLoop) : Listening :=
  { s with loops := s.loops.set i l }

/-- The system lets the server listen (`net.Listen`). -/
def Grants (s : Listening) (granted : Bool) : Prop :=
  granted = true ∧ (s.port = 0 ∨ s.opened = [])

instance (s : Listening) (granted : Bool) : Decidable (s.Grants granted) :=
  inferInstanceAs (Decidable (_ ∧ _))

/-- Open a listener and spawn an accept loop (`Start`). -/
def start (s : Listening) : Listening :=
  { s with
    server := s.server.start
    listener := some s.count
    opened := s.opened ++ [s.count]
    count := s.count + 1
    loops := s.loops ++ [.head] }

/-- Close the listener (`Stop`). -/
def stop (s : Listening) : Listening :=
  if s.server.running then
    { s with
      server := s.server.stop
      opened := match s.listener with
        | some l => s.opened.erase l
        | none => s.opened }
  else s

/-- One step. -/
def step (s : Listening) : Move → Except Fault Listening
  | .start granted => if s.Grants granted then .ok s.start else .ok s
  | .stop => .ok s.stop
  | .round i =>
    match s.loops[i]? with
    | some .head =>
      if !s.server.running then .ok (s.setLoop i .ended)
      else
        match s.listener with
        | some l => .ok (s.setLoop i (.accepting l))
        | none => .error .panic
    | some .failed =>
      if !s.server.running then .ok (s.setLoop i .ended) else .ok (s.setLoop i .head)
    | _ => .error .disabled
  | .accept i =>
    match s.loops[i]? with
    | some (.accepting l) =>
      if l ∈ s.opened then .ok { s.setLoop i .head with accepted := s.accepted ++ [l] }
      else .error .disabled
    | _ => .error .disabled
  | .acceptError i =>
    match s.loops[i]? with
    | some (.accepting _) => .ok (s.setLoop i .failed)
    | _ => .error .disabled
  | .request op env =>
    if s.accepted = [] then .error .disabled
    else orPanic do
      let (server, res, _) ← s.server.handle op env
      return { s with server := server, answers := s.answers ++ [res.err] }
  | .raft node => .ok { s with server := { s.server with raft := s.server.raft.map fun _ => node } }

/-- A step of an accept loop. -/
def Move.ofLoop : Move → Bool
  | .round _ => true
  | .accept _ => true
  | .acceptError _ => true
  | _ => false

/-- `s` is reached from a new server. -/
def Reached (raft : Option RaftNode) (memTable : Option MemTable) (wal : Option WAL) (port : ℕ)
    (moves : List Move) (s : Listening) : Prop :=
  Run.Reached step (init raft memTable wal port) moves s

variable {s s' u : Listening} {x : Move} {raft : Option RaftNode} {memTable : Option MemTable}
  {wal : Option WAL} {port : ℕ} {moves : List Move}

/-- What a step that takes place has done. -/
inductive Moves (s : Listening) : Move → Listening → Prop
  | started {granted : Bool} (hgrants : s.Grants granted) : Moves s (.start granted) s.start
  | refused {granted : Bool} (hgrants : ¬s.Grants granted) : Moves s (.start granted) s
  | stopped : Moves s .stop s.stop
  | ended {i : ℕ} {l : AcceptLoop} (hi : s.loops[i]? = some l) (hl : l = .head ∨ l = .failed)
      (hstopped : s.server.running = false) : Moves s (.round i) (s.setLoop i .ended)
  | accepting {i l : ℕ} (hi : s.loops[i]? = some .head) (hrunning : s.server.running = true)
      (hl : s.listener = some l) : Moves s (.round i) (s.setLoop i (.accepting l))
  | again {i : ℕ} (hi : s.loops[i]? = some .failed) (hrunning : s.server.running = true) :
      Moves s (.round i) (s.setLoop i .head)
  | accepted {i l : ℕ} (hi : s.loops[i]? = some (.accepting l)) (hl : l ∈ s.opened) :
      Moves s (.accept i) { s.setLoop i .head with accepted := s.accepted ++ [l] }
  | failed {i l : ℕ} (hi : s.loops[i]? = some (.accepting l)) :
      Moves s (.acceptError i) (s.setLoop i .failed)
  | answered {op : Op} {env : Env} {server : StagwayServer} {res : WriteResult}
      {sent : List Packet} (h : s.server.handle op env = some (server, res, sent)) :
      Moves s (.request op env) { s with server := server, answers := s.answers ++ [res.err] }
  | raft {node : RaftNode} :
      Moves s (.raft node)
        { s with server := { s.server with raft := s.server.raft.map fun _ => node } }

/-- **Inversion of a step.** -/
theorem step_moves (h : s.step x = .ok s') : Moves s x s' := by
  cases x with
  | start granted =>
    rw [step] at h
    split at h
    next hgrants =>
      obtain rfl := Except.ok.inj h
      exact .started hgrants
    next hgrants =>
      obtain rfl := Except.ok.inj h
      exact .refused hgrants
  | stop =>
    obtain rfl := Except.ok.inj h
    exact .stopped
  | round i =>
    rw [step] at h
    split at h
    next hi =>
      split at h
      next hstopped =>
        obtain rfl := Except.ok.inj h
        exact .ended hi (.inl rfl) (by simpa using hstopped)
      next hrunning =>
        split at h
        next l hl =>
          obtain rfl := Except.ok.inj h
          exact .accepting hi (by simpa using hrunning) hl
        next => cases h
    -- a loop whose `Accept` has returned with an error
    next hi =>
      split at h
      next hstopped =>
        obtain rfl := Except.ok.inj h
        exact .ended hi (.inr rfl) (by simpa using hstopped)
      next hrunning =>
        obtain rfl := Except.ok.inj h
        exact .again hi (by simpa using hrunning)
    next => cases h
  | accept i =>
    rw [step] at h
    split at h
    next l hi =>
      split at h
      next hl =>
        obtain rfl := Except.ok.inj h
        exact .accepted hi hl
      next => cases h
    next => cases h
  | acceptError i =>
    rw [step] at h
    split at h
    next l hi =>
      obtain rfl := Except.ok.inj h
      exact .failed hi
    next => cases h
  | request op env =>
    rw [step] at h
    split at h
    next => cases h
    next =>
      obtain ⟨⟨server, res, sent⟩, hhandle, hrest⟩ :=
        Option.bind_eq_some_iff.mp (orPanic_eq_ok.mp h)
      obtain rfl := Option.some.inj hrest
      exact .answered hhandle
  | raft node =>
    obtain rfl := Except.ok.inj h
    exact .raft

/-! ### A running server -/

/-- What holds at all times of a server with a port of its own. -/
structure WellFormed (s : Listening) : Prop where
  port : s.port ≠ 0
  running : s.server.running = true → ∃ l, s.listener = some l ∧ s.opened = [l]
  stopped : s.server.running = false → s.opened = []
  alive : s.server.running = true → ∃ (i : ℕ) (l : AcceptLoop), s.loops[i]? = some l ∧ l ≠ .ended

/-- Another loop, or another place of this one, is still there. -/
theorem alive_setLoop {i : ℕ} {l : AcceptLoop} (hi : i < s.loops.length) (hl : l ≠ .ended) :
    ∃ (j : ℕ) (l' : AcceptLoop), (s.setLoop i l).loops[j]? = some l' ∧ l' ≠ .ended :=
  ⟨i, l, by rw [setLoop, List.getElem?_set_self hi], hl⟩

/-- Every step keeps a listening server well formed. -/
theorem WellFormed.step (h : WellFormed s) (hstep : s.step x = .ok s') : WellFormed s' := by
  cases step_moves hstep with
  -- the port is fixed, so a granted start means that no listener was open
  | started hgrants =>
    have hopened : s.opened = [] := hgrants.2.resolve_left h.port
    exact
      { port := h.port
        running := fun _ => ⟨s.count, rfl, by rw [start, hopened, List.nil_append]⟩
        stopped := fun hstopped => by cases hstopped
        alive := fun _ => ⟨s.loops.length, .head, by simp [start], by simp⟩ }
  | refused hgrants => exact h
  | stopped =>
    rw [stop]
    split
    next hrunning =>
      obtain ⟨l, hl, hopened⟩ := h.running hrunning
      exact
        { port := h.port
          running := fun hrunning' => by cases hrunning'
          stopped := fun _ => by simp [hl, hopened]
          alive := fun hrunning' => by cases hrunning' }
    next => exact h
  | ended hi hl hstopped =>
    exact
      { port := h.port
        running := h.running
        stopped := h.stopped
        -- a loop ends only once the server has stopped, where `alive` says nothing
        alive := fun hrunning => by
          have hfalse : s.server.running = true := hrunning
          rw [hstopped] at hfalse
          cases hfalse }
  | accepting hi hrunning hl =>
    exact ⟨h.port, h.running, h.stopped, fun _ =>
      alive_setLoop (List.getElem?_eq_some_iff.mp hi).1 (by simp)⟩
  | again hi hrunning =>
    exact ⟨h.port, h.running, h.stopped, fun _ =>
      alive_setLoop (List.getElem?_eq_some_iff.mp hi).1 (by simp)⟩
  | accepted hi hl =>
    exact ⟨h.port, h.running, h.stopped, fun _ =>
      alive_setLoop (List.getElem?_eq_some_iff.mp hi).1 (by simp)⟩
  | failed hi =>
    exact ⟨h.port, h.running, h.stopped, fun _ =>
      alive_setLoop (List.getElem?_eq_some_iff.mp hi).1 (by simp)⟩
  | answered hhandle =>
    have hkeeps := StagwayServer.handle_running hhandle
    exact
      { port := h.port
        running := fun hrunning => h.running (hkeeps.symm.trans hrunning)
        stopped := fun hstopped => h.stopped (hkeeps.symm.trans hstopped)
        alive := fun hrunning => h.alive (hkeeps.symm.trans hrunning) }
  | raft => exact ⟨h.port, h.running, h.stopped, h.alive⟩

/-- With a fixed port every reached state is well formed. -/
theorem Reached.wellFormed (hport : port ≠ 0) (hs : Reached raft memTable wal port moves s) :
    WellFormed s :=
  hs.along
    { port := hport
      running := fun hrunning => by cases hrunning
      stopped := fun _ => rfl
      alive := fun hrunning => by cases hrunning }
    fun _ _ h hstep => h.step hstep

/-- The steps of the `i`-th loop. -/
def Move.Of (i : ℕ) (x : Move) : Prop := x = .round i ∨ x = .accept i ∨ x = .acceptError i

/-- The `i`-th loop can take a connection on the listener `l`, in at most `n` steps. -/
def Takes (s : Listening) (i l n : ℕ) : Prop :=
  ∃ more s', more.length ≤ n ∧ (∀ x ∈ more, Move.Of i x) ∧ Run.Reached step s more s' ∧
    s'.accepted = s.accepted ++ [l]

/-- A step of the loop before it takes a connection. -/
theorem Takes.cons {i l n : ℕ} (hx : Move.Of i x) (hstep : s.step x = .ok s')
    (haccepted : s'.accepted = s.accepted) (h : Takes s' i l n) : Takes s i l (n + 1) := by
  obtain ⟨more, v, hlen, hof, hrun, hv⟩ := h
  refine ⟨x :: more, v, Nat.succ_le_succ hlen, List.forall_mem_cons.mpr ⟨hx, hof⟩, ?_, ?_⟩
  · rw [Run.Reached, List.foldlM_cons, hstep]
    exact hrun
  · rw [hv, haccepted]

section Takes

variable {i l : ℕ}

/-- A loop that waits in `Accept` on an open listener takes the next connection. -/
theorem takes_of_accepting (hi : s.loops[i]? = some (.accepting l)) (hl : l ∈ s.opened) :
    Takes s i l 1 := by
  refine ⟨[.accept i], { s.setLoop i .head with accepted := s.accepted ++ [l] }, le_rfl,
    List.forall_mem_singleton.mpr (.inr (.inl rfl)), ?_, rfl⟩
  rw [Run.Reached, List.foldlM_cons, step, hi]
  simp only [hl, if_true]
  rfl

/-- A loop at its head takes the next connection after one step. -/
theorem takes_of_head (hrunning : s.server.running = true) (hlistener : s.listener = some l)
    (hl : l ∈ s.opened) (hi : s.loops[i]? = some .head) : Takes s i l 2 := by
  have hlen := (List.getElem?_eq_some_iff.mp hi).1
  have hstep : s.step (.round i) = .ok (s.setLoop i (.accepting l)) := by
    simp [step, hi, hrunning, hlistener]
  exact .cons (.inl rfl) hstep rfl
    (takes_of_accepting (by rw [setLoop, List.getElem?_set_self hlen]) hl)

/-- A loop whose `Accept` has failed takes it after two. -/
theorem takes_of_failed (hrunning : s.server.running = true) (hlistener : s.listener = some l)
    (hl : l ∈ s.opened) (hi : s.loops[i]? = some .failed) : Takes s i l 3 := by
  have hlen := (List.getElem?_eq_some_iff.mp hi).1
  have hstep : s.step (.round i) = .ok (s.setLoop i .head) := by simp [step, hi, hrunning]
  have hhead : (s.setLoop i .head).loops[i]? = some .head := by
    rw [setLoop, List.getElem?_set_self hlen]
  exact .cons (.inl rfl) hstep rfl (takes_of_head hrunning hlistener hl hhead)

/-- A loop that waits on a listener that is closed gets an error first. -/
private theorem takes_of_waiting (hrunning : s.server.running = true)
    (hlistener : s.listener = some l) (hl : l ∈ s.opened) {l' : ℕ}
    (hi : s.loops[i]? = some (.accepting l')) : Takes s i l 4 := by
  have hlen := (List.getElem?_eq_some_iff.mp hi).1
  have hstep : s.step (.acceptError i) = .ok (s.setLoop i .failed) := by simp [step, hi]
  have hfailed : (s.setLoop i .failed).loops[i]? = some .failed := by
    rw [setLoop, List.getElem?_set_self hlen]
  exact .cons (.inr (.inr rfl)) hstep rfl (takes_of_failed hrunning hlistener hl hfailed)

end Takes

/-- More steps are allowed. -/
theorem Takes.mono {i l n k : ℕ} (h : Takes s i l n) (hnk : n ≤ k) : Takes s i l k := by
  obtain ⟨more, v, hlen, hrest⟩ := h
  exact ⟨more, v, hlen.trans hnk, hrest⟩

/-- **A running server serves.**  It has one open listener, the one it uses, and at least one
    accept loop; and each of its loops can take a connection on that listener by itself. -/
theorem running_serves (hport : port ≠ 0) (hs : Reached raft memTable wal port moves s)
    (hrunning : s.server.running = true) :
    ∃ l, s.listener = some l ∧ s.opened = [l] ∧
      (∃ (i : ℕ) (st : AcceptLoop), s.loops[i]? = some st ∧ st ≠ .ended) ∧
      ∀ (i : ℕ) (st : AcceptLoop), s.loops[i]? = some st → st ≠ .ended → Takes s i l 4 := by
  have hwf := hs.wellFormed hport
  obtain ⟨l, hlistener, hopened⟩ := hwf.running hrunning
  have hl : l ∈ s.opened := by simp [hopened]
  refine ⟨l, hlistener, hopened, hwf.alive hrunning, fun i st hi hst => ?_⟩
  cases st with
  | head => exact (takes_of_head hrunning hlistener hl hi).mono (by decide)
  | accepting l' =>
    by_cases hl' : l' = l
    · subst hl'
      exact (takes_of_accepting hi hl).mono (by decide)
    · exact takes_of_waiting hrunning hlistener hl hi
  | failed => exact (takes_of_failed hrunning hlistener hl hi).mono (by decide)
  | ended => exact absurd rfl hst

/-- A server is stopped and started again while its accept loop waits. -/
def restarted : List Move := [.start true, .round 0, .stop, .start false, .start true]

/-- The old loop waits on the listener that is closed. -/
theorem running_serves_restarted :
    ∃ s, Reached none none none 50051 restarted s ∧ s.loops = [.accepting 0, .head] ∧
      Takes s 0 1 4 := by
  obtain ⟨s, hs, hview⟩ := Run.exists_reached step (init none none none 50051) restarted
    (fun s => (s.loops, s.server.running, s.listener)) ([.accepting 0, .head], true, some 1) rfl
  obtain ⟨hloops, hrest⟩ := Prod.mk.inj hview
  obtain ⟨hrunning, hlistener⟩ := Prod.mk.inj hrest
  obtain ⟨l, hl, _, _, htakes⟩ := running_serves (by decide) hs hrunning
  obtain rfl := Option.some.inj (hlistener.symm.trans hl)
  exact ⟨s, hs, hloops, htakes 0 (.accepting 0) (by rw [hloops]; rfl) (by decide)⟩

/-! ### A stopped server -/

/-- How many steps a loop takes until its end if the server stays stopped. -/
def rank : AcceptLoop → ℕ
  | .head => 1
  | .accepting _ => 2
  | .failed => 1
  | .ended => 0

/-- How many steps the loops take until their ends. -/
def pending (s : Listening) : ℕ := (s.loops.map rank).sum

/-- What a loop has still to do, when it moves. -/
private theorem pending_setLoop {i : ℕ} {l : AcceptLoop} (hi : s.loops[i]? = some l)
    (l' : AcceptLoop) : (s.setLoop i l').pending + rank l = s.pending + rank l' := by
  obtain ⟨hlen, hget⟩ := List.getElem?_eq_some_iff.mp hi
  have hsplit : s.loops = s.loops.take i ++ l :: s.loops.drop (i + 1) := by
    rw [← hget, List.getElem_cons_drop, List.take_append_drop]
  have hset : (s.setLoop i l').loops = s.loops.take i ++ l' :: s.loops.drop (i + 1) := by
    rw [setLoop, List.set_eq_take_append_cons_drop, if_pos hlen]
  rw [pending, pending, hset]
  nth_rewrite 3 [hsplit]
  simp only [List.map_append, List.map_cons, List.sum_append, List.sum_cons]
  omega

private theorem rank_le (l : AcceptLoop) : rank l ≤ 2 := by cases l <;> simp [rank]

/-- No loop has more than two steps to do. -/
private theorem pending_le (s : Listening) : s.pending ≤ 2 * s.loops.length := by
  rw [pending]
  induction s.loops with
  | nil => simp
  | cons l ls ih =>
    have hl := rank_le l
    simp only [List.map_cons, List.sum_cons, List.length_cons]
    omega

/-- What a server that was stopped at `u` has come to after the moves `done`. -/
structure Drained (u : Listening) (done : List Move) (s : Listening) : Prop where
  running : s.server.running = false
  opened : s.opened = []
  accepted : s.accepted = u.accepted
  memTable : s.server.memTable = u.server.memTable
  wal : s.server.wal = u.server.wal
  answers : ∃ k, s.answers = u.answers ++ List.replicate k (some .serverClosed)
  pending : done.countP Move.ofLoop + s.pending = u.pending

/-- A server that has just been stopped. -/
private theorem drained_refl (hopened : s.opened = []) (hstopped : s.server.running = false) :
    Drained s [] s where
  running := hstopped
  opened := hopened
  accepted := rfl
  memTable := rfl
  wal := rfl
  answers := ⟨0, by simp⟩
  pending := by simp

/-- A loop goes on its way to its end. -/
theorem Drained.setLoop {done : List Move} (h : Drained u done s) {i : ℕ} {l l' : AcceptLoop}
    (hi : s.loops[i]? = some l) (hrank : rank l = rank l' + 1) (hx : x.ofLoop = true) :
    Drained u (done ++ [x]) (s.setLoop i l') where
  running := h.running
  opened := h.opened
  accepted := h.accepted
  memTable := h.memTable
  wal := h.wal
  answers := h.answers
  pending := by
    have hset := pending_setLoop hi l'
    have hcount : (done ++ [x]).countP Move.ofLoop = done.countP Move.ofLoop + 1 := by
      rw [List.countP_append, List.countP_singleton, if_pos hx]
    have hpending := h.pending
    omega

/-- A step of another kind does not count. -/
theorem Drained.idle {done : List Move} (h : Drained u done s) (hx : x.ofLoop = false) :
    Drained u (done ++ [x]) s :=
  { h with
    pending := by
      have hcount : (done ++ [x]).countP Move.ofLoop = done.countP Move.ofLoop := by simp [hx]
      rw [hcount]
      exact h.pending }

/-- Answering that the server is closed changes no loop. -/
theorem Drained.answered {done : List Move} (h : Drained u done s) :
    Drained u done { s with answers := s.answers ++ [some .serverClosed] } where
  running := h.running
  opened := h.opened
  accepted := h.accepted
  memTable := h.memTable
  wal := h.wal
  answers := by
    obtain ⟨k, hk⟩ := h.answers
    exact ⟨k + 1, by rw [hk, List.append_assoc, List.replicate_succ']⟩
  pending := h.pending

/-- What the node does meanwhile changes no loop. -/
theorem Drained.setRaft {done : List Move} (h : Drained u done s) (node : Option RaftNode) :
    Drained u done { s with server := { s.server with raft := node } } where
  running := h.running
  opened := h.opened
  accepted := h.accepted
  memTable := h.memTable
  wal := h.wal
  answers := h.answers
  pending := h.pending

/-- Every step of a stopped server takes a loop nearer to its end. -/
theorem Drained.step {done : List Move} (h : Drained u done s) (hx : x ≠ .start true)
    (hstep : s.step x = .ok s') : Drained u (done ++ [x]) s' := by
  have hrunning : ¬s.server.running = true := by simp [h.running]
  cases step_moves hstep with
  | started hgrants =>
    rw [hgrants.1] at hx
    exact absurd rfl hx
  | refused => exact h.idle rfl
  | stopped =>
    rw [stop, if_neg hrunning]
    exact h.idle rfl
  | ended hi hl => exact h.setLoop hi (by obtain rfl | rfl := hl <;> rfl) rfl
  | accepting hi hrunning' => exact absurd hrunning' hrunning
  | again hi hrunning' => exact absurd hrunning' hrunning
  | accepted hi hl =>
    rw [h.opened] at hl
    cases hl
  | failed hi => exact h.setLoop hi rfl rfl
  | answered hhandle =>
    rw [StagwayServer.handle_stopped h.running] at hhandle
    obtain ⟨rfl, hres⟩ := Prod.mk.inj (Option.some.inj hhandle)
    obtain ⟨rfl, _⟩ := Prod.mk.inj hres
    exact (h.idle rfl).answered
  | raft => exact (h.idle rfl).setRaft _

/-- The loops of a stopped server are not stuck. -/
private theorem exists_move (hstopped : s.server.running = false) {l : AcceptLoop}
    (hl : l ∈ s.loops) (hended : l ≠ .ended) : ∃ x s', x.ofLoop = true ∧ s.step x = .ok s' := by
  obtain ⟨i, hi⟩ := List.mem_iff_getElem?.mp hl
  cases l with
  | head => exact ⟨.round i, s.setLoop i .ended, rfl, by simp [step, hi, hstopped]⟩
  | accepting l => exact ⟨.acceptError i, s.setLoop i .failed, rfl, by simp [step, hi]⟩
  | failed => exact ⟨.round i, s.setLoop i .ended, rfl, by simp [step, hi, hstopped]⟩
  | ended => exact absurd rfl hended

/-- **A stopped server drains.**  From a moment at which it is stopped until a listener is opened
    again, the server takes no connection, refuses every request and changes neither its table nor
    its log; and its accept loops end: they take at most two steps each, and are never stuck
    before. -/
theorem stopped_drains (hport : port ≠ 0) (hs : Reached raft memTable wal port moves s) {i : ℕ}
    (hu : Reached raft memTable wal port (moves.take i) u) (hstopped : u.server.running = false)
    (hstart : ∀ x ∈ moves.drop i, x ≠ .start true) :
    s.accepted = u.accepted ∧
      s.server.memTable = u.server.memTable ∧ s.server.wal = u.server.wal ∧
      (∃ k, s.answers = u.answers ++ List.replicate k (some .serverClosed)) ∧
      (moves.drop i).countP Move.ofLoop ≤ 2 * u.loops.length ∧
      ∀ l ∈ s.loops, l ≠ .ended → ∃ x s', x.ofLoop = true ∧ s.step x = .ok s' := by
  have hrest : (∀ x ∈ moves.drop i, x ≠ .start true) → Drained u (moves.drop i) s := by
    refine Run.Reached.invariant
      (I := fun done v => (∀ x ∈ done, x ≠ .start true) → Drained u done v)
      (fun _ => drained_refl ((hu.wellFormed hport).stopped hstopped) hstopped) ?_ (hu.drop hs)
    intro done v x v' _ ih hstep hne
    obtain ⟨hdone, hx⟩ := List.forall_mem_append.mp hne
    exact (ih hdone).step (hx x (List.mem_singleton_self x)) hstep
  have hdrained := hrest hstart
  have hcount := hdrained.pending
  have hle := u.pending_le
  exact ⟨hdrained.accepted, hdrained.memTable, hdrained.wal, hdrained.answers, by omega,
    fun l hl hended => exists_move hdrained.running hl hended⟩

/-- A server is stopped while a client is connected and its accept loop waits. -/
def stoppedMoves : List Move :=
  [.start true, .round 0, .accept 0, .round 0, .stop, .request (.put [7] [1]) ⟨.ok, 1⟩,
    .acceptError 0, .start false, .round 0]

/-- A server that is stopped while it waits in `Accept`: its loop ends. -/
theorem stopped_drains_once :
    ∃ s u, Reached none none none 50051 stoppedMoves s ∧
      Reached none none none 50051 (stoppedMoves.take 5) u ∧ s.loops = [.ended] ∧
      s.accepted = u.accepted ∧
      ∃ k, s.answers = u.answers ++ List.replicate k (some .serverClosed) := by
  obtain ⟨s, hs, hloops⟩ := Run.exists_reached step (init none none none 50051) stoppedMoves
    (fun s => s.loops) [.ended] rfl
  obtain ⟨u, hu, hstopped⟩ := Run.exists_reached step (init none none none 50051)
    (stoppedMoves.take 5) (fun u => u.server.running) false rfl
  have hstart : ∀ x ∈ stoppedMoves.drop 5, x ≠ .start true := by simp [stoppedMoves]
  obtain ⟨haccepted, _, _, hanswers, _⟩ := stopped_drains (by decide) hs hu hstopped hstart
  exact ⟨s, u, hs, hu, hloops, haccepted, hanswers⟩

end Listening

end Hallownest.Network
