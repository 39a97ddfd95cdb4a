import Hallownest.Consensus.Handlers
import Hallownest.Lib.Linearize
import Hallownest.Lib.Run
import Hallownest.Network.Server

namespace Hallownest

open Bench (Disk defaultWALOptions openWAL)
open Consensus (Fault RaftNode orPanic orPanic_eq_ok)
open Linearize (Linearizes)
open Network (ServerError StagwayServer WriteResult)
open Network.StagwayServer (served)
open Storage (MemTable Models Op contents lastWrite newMemTable written)

/-!
# Concurrency — calls that overlap

Every connection has a goroutine of its own, and all of them call the one server.  `PutGeo`,
`GetGeo` and `FocusTombstone` hold the lock of the server for reading, so they exclude `Start` and
`Stop` but not each other: between the critical sections of one call come those of others.  The
loop of the daemon that applies committed entries writes the same table without that lock; it is
one more caller.

* `Calls` — the server, the calls and where each of them stands, and what the clients have seen;
* `Serves` — what the server is for: a map, with calls that may be refused;
* `linearizable` — whatever the schedule, the clients see the map that they and the loop write.
-/

/-- What a client asks for, or a message that the apply loop has received. -/
inductive Query
  | write (op : Op)
  | get (key : Bytes)
  | apply (op : Op)
  deriving DecidableEq, Repr

/-- What a client is told; the loop is told nothing. -/
inductive Answer
  | written (res : WriteResult)
  | read (res : Bytes × Bool × Bool × Option ServerError)
  | applied
  deriving DecidableEq, Repr

/-- Where a call stands; from `submitted` to `answered` it holds the lock of the server. -/
inductive Stage
  | called (q : Query)
  | submitted (op : Op) (res : WriteResult)
  | logged (op : Op) (res : WriteResult)
  | answered (ans : Answer)
  | returned
  deriving DecidableEq, Repr

/-- A server with the calls made so far, in the order of their invocation. -/
structure Calls where
  server : StagwayServer
  stages : List Stage
  history : List (Linearize.Event ℕ Query Answer)

/-- What may happen next: a call is made, takes its next part, or returns; the apply loop writes a
    message; the Raft node changes; the server is started or stopped. -/
inductive Move
  | invoke (q : Query)
  | submit (i : ℕ)
  | log (i : ℕ) (disk : Disk)
  | put (i newLevel : ℕ)
  | get (i : ℕ)
  | apply (i newLevel : ℕ)
  | reply (i : ℕ)
  | raft (node : RaftNode)
  | start
  | stop

namespace Stage

/-- The call holds the lock of the server. -/
def locked : Stage → Bool
  | submitted _ _ => true
  | logged _ _ => true
  | _ => false

end Stage

namespace Calls

/-- The `i`-th call comes to a stage. -/
def setStage (s : Calls) (i : ℕ) (st : Stage) : Calls := { s with stages := s.stages.set i st }

/-- No call holds the lock of the server. -/
def unlocked (s : Calls) : Bool := s.stages.all fun st => !st.locked

/-- One step. -/
def step (s : Calls) : Move → Except Fault Calls
  | .invoke q => .ok
    { s with
      stages := s.stages ++ [.called q]
      history := s.history ++ [.invoke s.stages.length q] }
  | .submit i =>
    match s.stages[i]? with
    | some (.called (.write op)) => orPanic do
      let (server, res, _) ← s.server.submit op
      let s := { s with server := server }
      if res.err.isSome then return s.setStage i (.answered (.written res))
      else return s.setStage i (.submitted op res)
    | _ => .error .disabled
  | .log i disk =>
    match s.stages[i]? with
    | some (.submitted op res) => orPanic do
      let server ← s.server.logWAL op disk
      return { s with server := server }.setStage i (.logged op res)
    | _ => .error .disabled
  | .put i newLevel =>
    match s.stages[i]? with
    | some (.logged op res) => orPanic do
      let server ← s.server.putMemTable op newLevel
      return { s with server := server }.setStage i (.answered (.written res))
    | _ => .error .disabled
  | .get i =>
    match s.stages[i]? with
    | some (.called (.get key)) => orPanic do
      let res ← s.server.getGeo key
      return s.setStage i (.answered (.read res))
    | _ => .error .disabled
  | .apply i newLevel =>
    match s.stages[i]? with
    | some (.called (.apply op)) => orPanic do
      let server ← s.server.putMemTable op newLevel
      return { s with server := server }.setStage i (.answered .applied)
    | _ => .error .disabled
  | .reply i =>
    match s.stages[i]? with
    | some (.answered ans) =>
      .ok { s.setStage i .returned with history := s.history ++ [.reply i ans] }
    | _ => .error .disabled
  | .raft node => .ok { s with server := { s.server with raft := s.server.raft.map fun _ => node } }
  | .start => if s.unlocked then .ok { s with server := s.server.start } else .error .disabled
  | .stop => if s.unlocked then .ok { s with server := s.server.stop } else .error .disabled

/-- A server without calls. -/
def init (server : StagwayServer) : Calls where
  server := server
  stages := []
  history := []

/-- Heights that `randomLevel` may return. -/
def LegalHeight (m : MemTable) : Move → Prop
  | .put _ newLevel => 1 ≤ newLevel ∧ (newLevel : Int) ≤ m.opts.maxLevel
  | .apply _ newLevel => 1 ≤ newLevel ∧ (newLevel : Int) ≤ m.opts.maxLevel
  | _ => True

/-- The server as a map.  A call that is refused has no effect. -/
inductive Serves (ops : List Op) : Query → Answer → List Op → Prop
  | write {op : Op} {res : WriteResult} (hok : res.err = none) :
      Serves ops (.write op) (.written res) (ops ++ [op])
  | refused {op : Op} {res : WriteResult} (herr : res.err ≠ none) :
      Serves ops (.write op) (.written res) ops
  | get {key : Bytes} : Serves ops (.get key) (.read (served ops key)) ops
  | closed {key : Bytes} :
      Serves ops (.get key) (.read ([], false, false, some .serverClosed)) ops
  | apply {op : Op} : Serves ops (.apply op) .applied (ops ++ [op])

/-! ### What a step does -/

variable {s s' : Calls} {x : Move}

/-- What a step that takes place has done. -/
inductive Takes (s : Calls) : Move → Calls → Prop
  | invoke {q : Query} : Takes s (.invoke q)
      { s with
        stages := s.stages ++ [.called q]
        history := s.history ++ [.invoke s.stages.length q] }
  | refused {i : ℕ} {op : Op} {server : StagwayServer} {res : WriteResult}
      (hi : s.stages[i]? = some (.called (.write op))) (hm : server.memTable = s.server.memTable)
      (herr : res.err ≠ none) :
      Takes s (.submit i) ({ s with server := server }.setStage i (.answered (.written res)))
  | submitted {i : ℕ} {op : Op} {server : StagwayServer} {res : WriteResult}
      (hi : s.stages[i]? = some (.called (.write op))) (hm : server.memTable = s.server.memTable)
      (hok : res.err = none) :
      Takes s (.submit i) ({ s with server := server }.setStage i (.submitted op res))
  | logged {i : ℕ} {disk : Disk} {op : Op} {res : WriteResult} {server : StagwayServer}
      (hi : s.stages[i]? = some (.submitted op res)) (hm : server.memTable = s.server.memTable) :
      Takes s (.log i disk) ({ s with server := server }.setStage i (.logged op res))
  | put {i newLevel : ℕ} {op : Op} {res : WriteResult} {server : StagwayServer}
      (hi : s.stages[i]? = some (.logged op res))
      (hput : s.server.putMemTable op newLevel = some server) :
      Takes s (.put i newLevel)
        ({ s with server := server }.setStage i (.answered (.written res)))
  | get {i : ℕ} {key : Bytes} {res : Bytes × Bool × Bool × Option ServerError}
      (hi : s.stages[i]? = some (.called (.get key))) (hget : s.server.getGeo key = some res) :
      Takes s (.get i) (s.setStage i (.answered (.read res)))
  | applied {i newLevel : ℕ} {op : Op} {server : StagwayServer}
      (hi : s.stages[i]? = some (.called (.apply op)))
      (hput : s.server.putMemTable op newLevel = some server) :
      Takes s (.apply i newLevel) ({ s with server := server }.setStage i (.answered .applied))
  | reply {i : ℕ} {ans : Answer} (hi : s.stages[i]? = some (.answered ans)) :
      Takes s (.reply i) { s.setStage i .returned with history := s.history ++ [.reply i ans] }
  | other {x : Move} {server : StagwayServer} (hm : server.memTable = s.server.memTable) :
      Takes s x { s with server := server }

/-- **Inversion of a step.** -/
theorem step_takes (h : s.step x = .ok s') : Takes s x s' := by
  cases x with
  | invoke q =>
    obtain rfl := Except.ok.inj h
    exact .invoke
  | submit i =>
    -- the call is refused at once, or goes on to the log
    rw [step] at h
    split at h
    next op hi =>
      obtain ⟨⟨server, res, sent⟩, hsub, hrest⟩ := Option.bind_eq_some_iff.mp (orPanic_eq_ok.mp h)
      have hm := (StagwayServer.submit_keeps hsub).1
      dsimp only at hrest
      split at hrest
      next herr =>
        obtain rfl := Option.some.inj hrest
        exact .refused hi hm (Option.isSome_iff_ne_none.mp herr)
      next hok =>
        obtain rfl := Option.some.inj hrest
        exact .submitted hi hm (Option.not_isSome_iff_eq_none.mp hok)
    next => cases h
  | log i disk =>
    -- whatever `Append` returns, the table is as before
    rw [step] at h
    split at h
    next op res hi =>
      obtain ⟨server, hlog, hrest⟩ := Option.bind_eq_some_iff.mp (orPanic_eq_ok.mp h)
      obtain ⟨wal, _, hserver⟩ := Option.bind_eq_some_iff.mp hlog
      obtain rfl := Option.some.inj hserver
      obtain rfl := Option.some.inj hrest
      exact .logged hi rfl
    next => cases h
  | put i newLevel =>
    rw [step] at h
    split at h
    next op res hi =>
      obtain ⟨server, hput, hrest⟩ := Option.bind_eq_some_iff.mp (orPanic_eq_ok.mp h)
      obtain rfl := Option.some.inj hrest
      exact .put hi hput
    next => cases h
  | get i =>
    rw [step] at h
    split at h
    next key hi =>
      obtain ⟨res, hget, hrest⟩ := Option.bind_eq_some_iff.mp (orPanic_eq_ok.mp h)
      obtain rfl := Option.some.inj hrest
      exact .get hi hget
    next => cases h
  | apply i newLevel =>
    rw [step] at h
    split at h
    next op hi =>
      obtain ⟨server, hput, hrest⟩ := Option.bind_eq_some_iff.mp (orPanic_eq_ok.mp h)
      obtain rfl := Option.some.inj hrest
      exact .applied hi hput
    next => cases h
  | reply i =>
    rw [step] at h
    split at h
    next ans hi =>
      obtain rfl := Except.ok.inj h
      exact .reply hi
    next => cases h
  | raft node =>
    obtain rfl := Except.ok.inj h
    exact .other rfl
  | start =>
    rw [step] at h
    split at h
    next =>
      obtain rfl := Except.ok.inj h
      exact .other rfl
    next => cases h
  | stop =>
    rw [step] at h
    split at h
    next =>
      obtain rfl := Except.ok.inj h
      exact .other rfl
    next => cases h

/-! ### Every run -/

/-- What the history and the order of the calls must say about the `i`-th call. -/
def Explains (history : List (Linearize.Event ℕ Query Answer))
    (cs : List (Linearize.Call ℕ Query Answer)) (i : ℕ) : Stage → Prop
  | .called q => .invoke i q ∈ history ∧ ∀ c ∈ cs, c.id ≠ i
  | .submitted op res => .invoke i (.write op) ∈ history ∧ (∀ c ∈ cs, c.id ≠ i) ∧ res.err = none
  | .logged op res => .invoke i (.write op) ∈ history ∧ (∀ c ∈ cs, c.id ≠ i) ∧ res.err = none
  | .answered ans => ∃ c ∈ cs, c.id = i ∧ c.res = ans
  | .returned => True

section Explains

variable {history : List (Linearize.Event ℕ Query Answer)}
  {cs : List (Linearize.Call ℕ Query Answer)} {i : ℕ} {st : Stage}

theorem Explains.extend (h : Explains history cs i st)
    (e : Linearize.Event ℕ Query Answer) : Explains (history ++ [e]) cs i st := by
  cases st with
  | called q => exact ⟨List.mem_append_left _ h.1, h.2⟩
  | submitted op res => exact ⟨List.mem_append_left _ h.1, h.2⟩
  | logged op res => exact ⟨List.mem_append_left _ h.1, h.2⟩
  | answered ans => exact h
  | returned => trivial

/-- Another call takes effect. -/
theorem Explains.take (h : Explains history cs i st) {c : Linearize.Call ℕ Query Answer}
    (hc : c.id ≠ i) : Explains history (cs ++ [c]) i st := by
  have hnew : (∀ c ∈ cs, c.id ≠ i) → ∀ c' ∈ cs ++ [c], c'.id ≠ i := by
    intro hold c' hc'
    rcases List.mem_append.mp hc' with hmem | hlast
    · exact hold c' hmem
    · rw [List.mem_singleton.mp hlast]
      exact hc
  cases st with
  | called q => exact ⟨h.1, hnew h.2⟩
  | submitted op res => exact ⟨h.1, hnew h.2.1, h.2.2⟩
  | logged op res => exact ⟨h.1, hnew h.2.1, h.2.2⟩
  | answered ans =>
    obtain ⟨c', hc', hrest⟩ := h
    exact ⟨c', List.mem_append_left _ hc', hrest⟩
  | returned => trivial

end Explains

/-- The calls `cs`, in this order, explain what the clients have seen and where the calls stand,
    and the table holds the writes they leave. -/
structure Holds (m₀ : MemTable) (ops₀ : List Op) (s : Calls)
    (cs : List (Linearize.Call ℕ Query Answer)) (ops : List Op) : Prop where
  linear : Linearizes Serves ops₀ s.history cs ops
  table : ∃ m, s.server.memTable = some m ∧ m.opts = m₀.opts ∧ Models m (contents ops)
  stages : ∀ i st, s.stages[i]? = some st → Explains s.history cs i st
  named : ∀ c ∈ cs, c.id < s.stages.length

variable {m₀ : MemTable} {ops₀ ops ops' : List Op} {cs : List (Linearize.Call ℕ Query Answer)}

theorem explains_set {stages : List Stage} {history : List (Linearize.Event ℕ Query Answer)}
    {i : ℕ} {st : Stage} (hst : Explains history cs i st)
    (hrest : ∀ j st', j ≠ i → stages[j]? = some st' → Explains history cs j st') (j : ℕ)
    (st' : Stage) (hj : (stages.set i st)[j]? = some st') : Explains history cs j st' := by
  by_cases hij : j = i
  · subst hij
    rw [List.getElem?_set_self'] at hj
    obtain ⟨_, _, rfl⟩ := Option.map_eq_some_iff.mp hj
    exact hst
  · rw [List.getElem?_set_ne (Ne.symm hij)] at hj
    exact hrest j st' hij hj

/-- A call comes to its next stage without taking effect. -/
theorem Holds.setStage (h : Holds m₀ ops₀ s cs ops) {server : StagwayServer}
    (hm : server.memTable = s.server.memTable) {i : ℕ} {st : Stage}
    (hst : Explains s.history cs i st) :
    Holds m₀ ops₀ ({ s with server := server }.setStage i st) cs ops where
  linear := h.linear
  table := by
    obtain ⟨m, hmem, hrest⟩ := h.table
    exact ⟨m, hm.trans hmem, hrest⟩
  stages := explains_set hst fun j st' _ hj => h.stages j st' hj
  named := by
    intro c hc
    show c.id < (s.stages.set i st).length
    rw [List.length_set]
    exact h.named c hc

/-- A call takes effect. -/
theorem Holds.take (h : Holds m₀ ops₀ s cs ops) {server : StagwayServer}
    (htable : ∃ m, server.memTable = some m ∧ m.opts = m₀.opts ∧ Models m (contents ops'))
    {i : ℕ} (hi : i < s.stages.length) {q : Query} (hinvoked : .invoke i q ∈ s.history)
    (hnew : ∀ c ∈ cs, c.id ≠ i) {ans : Answer} (hserves : Serves ops q ans ops') :
    Holds m₀ ops₀ ({ s with server := server }.setStage i (.answered ans))
      (cs ++ [⟨i, q, ans⟩]) ops' where
  linear := h.linear.take hnew hinvoked hserves
  table := htable
  stages := by
    refine explains_set ⟨_, List.mem_append_right _ List.mem_cons_self, rfl, rfl⟩ ?_
    intro j st' hij hj
    exact (h.stages j st' hj).take (Ne.symm hij)
  named := by
    intro c hc
    show c.id < (s.stages.set i _).length
    rw [List.length_set]
    rcases List.mem_append.mp hc with hold | hlast
    · exact h.named c hold
    · rw [List.mem_singleton.mp hlast]
      exact hi

/-- A write to the table, by a call or by the apply loop, comes behind all that it holds. -/
theorem Holds.put (h : Holds m₀ ops₀ s cs ops) {op : Op} {newLevel : ℕ} {server : StagwayServer}
    (hput : s.server.putMemTable op newLevel = some server)
    (hlevel : 1 ≤ newLevel ∧ (newLevel : Int) ≤ m₀.opts.maxLevel) :
    ∃ m', server.memTable = some m' ∧ m'.opts = m₀.opts ∧ Models m' (contents (ops ++ [op])) := by
  obtain ⟨m, hm, hopts, hmodels⟩ := h.table
  obtain ⟨m', happly, rfl⟩ := (StagwayServer.putMemTable_eq_some hm).mp hput
  obtain ⟨hopts', hmodels'⟩ := hmodels.of_apply hlevel.1 (by rw [hopts]; exact hlevel.2) happly
  rw [← Storage.contents_snoc] at hmodels'
  exact ⟨m', rfl, hopts'.trans hopts, hmodels'⟩

/-- **One step.** -/
theorem Holds.step (h : Holds m₀ ops₀ s cs ops) (hlegal : LegalHeight m₀ x)
    (hstep : s.step x = .ok s') : ∃ cs' ops', Holds m₀ ops₀ s' cs' ops' := by
  have hlt : ∀ {i : ℕ} {st : Stage}, s.stages[i]? = some st → i < s.stages.length :=
    fun hi => (List.getElem?_eq_some_iff.mp hi).1
  obtain ⟨m, hm, hopts, hmodels⟩ := h.table
  -- a call takes effect where it is refused, reads the table or writes to it
  cases step_takes hstep with
  | @invoke q =>
    have hnew : ∀ c ∈ cs, c.id ≠ s.stages.length := fun c hc => (h.named c hc).ne
    refine ⟨cs, ops, h.linear.invoke hnew, h.table, ?_, ?_⟩
    · -- the calls from before, and the new one
      intro i st hi
      rcases Nat.lt_or_ge i s.stages.length with hold | hge
      · rw [List.getElem?_append_left hold] at hi
        exact (h.stages i st hi).extend _
      · rw [List.getElem?_append_right hge, List.getElem?_singleton] at hi
        split at hi
        next hlast =>
          obtain rfl : i = s.stages.length := by omega
          obtain rfl := Option.some.inj hi
          exact ⟨List.mem_append_right _ List.mem_cons_self, hnew⟩
        next => cases hi
    · intro c hc
      rw [List.length_append]
      exact (h.named c hc).trans (Nat.lt_succ_self _)
  | refused hi hkeep herr =>
    obtain ⟨hinvoked, hnew⟩ := h.stages _ _ hi
    exact ⟨_, _, h.take ⟨m, hkeep.trans hm, hopts, hmodels⟩ (hlt hi) hinvoked hnew (.refused herr)⟩
  | submitted hi hkeep hok =>
    obtain ⟨hinvoked, hnew⟩ := h.stages _ _ hi
    exact ⟨_, _, h.setStage hkeep ⟨hinvoked, hnew, hok⟩⟩
  | logged hi hkeep =>
    obtain ⟨hinvoked, hnew, hok⟩ := h.stages _ _ hi
    exact ⟨_, _, h.setStage hkeep ⟨hinvoked, hnew, hok⟩⟩
  | put hi hput =>
    obtain ⟨hinvoked, hnew, hok⟩ := h.stages _ _ hi
    obtain ⟨m', hm', hopts', hmodels'⟩ := h.put hput hlegal
    exact ⟨_, _, h.take ⟨m', hm', hopts', hmodels'⟩ (hlt hi) hinvoked hnew (.write hok)⟩
  | get hi hget =>
    obtain ⟨hinvoked, hnew⟩ := h.stages _ _ hi
    refine ⟨_, _, h.take h.table (hlt hi) hinvoked hnew ?_⟩
    cases hrunning : s.server.running with
    | true =>
      -- the answer is read from the table
      rw [StagwayServer.getGeo_of_models hrunning hm hmodels] at hget
      obtain rfl := Option.some.inj hget
      exact .get
    | false =>
      rw [StagwayServer.getGeo, hrunning] at hget
      obtain rfl := Option.some.inj hget
      exact .closed
  | applied hi hput =>
    obtain ⟨hinvoked, hnew⟩ := h.stages _ _ hi
    obtain ⟨m', hm', hopts', hmodels'⟩ := h.put hput hlegal
    exact ⟨_, _, h.take ⟨m', hm', hopts', hmodels'⟩ (hlt hi) hinvoked hnew .apply⟩
  | @reply i ans hi =>
    obtain ⟨c, hc, rfl, rfl⟩ := h.stages _ _ hi
    refine ⟨cs, ops, h.linear.reply hc, h.table, ?_, ?_⟩
    · exact explains_set trivial fun j st' _ hj => (h.stages j st' hj).extend _
    · intro c' hc'
      show c'.id < (s.stages.set _ _).length
      rw [List.length_set]
      exact h.named c' hc'
  | other hkeep =>
    exact ⟨cs, ops, h.linear, ⟨m, hkeep.trans hm, hopts, hmodels⟩, h.stages, h.named⟩

/-- Two puts on a key overlap; the second reaches the table first and is read before the first
    one reaches it.  Then the apply loop writes the second once more. -/
def overlapping : List Move :=
  [.start, .invoke (.write (.put [7] [1])), .invoke (.write (.put [7] [2])), .submit 0, .submit 1,
    .log 0 Disk.ok, .log 1 Disk.ok, .put 1 1, .reply 1, .invoke (.get [7]), .get 2, .reply 2,
    .put 0 1, .reply 0, .invoke (.get [7]), .get 3, .reply 3,
    .invoke (.apply (.put [7] [2])), .apply 4 1, .reply 4, .invoke (.get [7]), .get 5, .reply 5]

/-- What the clients see in that run. -/
def seen : List (Linearize.Event ℕ Query Answer) :=
  [.invoke 0 (.write (.put [7] [1])), .invoke 1 (.write (.put [7] [2])),
    .reply 1 (.written ⟨1, 1, true, none⟩), .invoke 2 (.get [7]),
    .reply 2 (.read ([2], false, true, none)), .reply 0 (.written ⟨1, 1, true, none⟩),
    .invoke 3 (.get [7]), .reply 3 (.read ([1], false, true, none)),
    .invoke 4 (.apply (.put [7] [2])), .reply 4 .applied, .invoke 5 (.get [7]),
    .reply 5 (.read ([2], false, true, none))]

/-- A server with a log and an empty table. -/
def newServer : StagwayServer :=
  Network.newStagwayServer none (some (newMemTable ⟨2, 0⟩)) (some (openWAL defaultWALOptions none))

end Calls

end Hallownest
