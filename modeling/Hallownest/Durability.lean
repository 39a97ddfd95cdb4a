import Hallownest.Consensus.Handlers
import Hallownest.Daemon

namespace Hallownest

open Bench
open Consensus (Fault RaftNode orPanic orPanic_eq_ok)
open Daemon (LevelOk replayInto standalone)
open Network (Env StagwayServer WriteResult)
open Storage (MemTable Models Op contents lastWrite newMemTable)

/-!
# Durability — the log and the live table

A server logs a write and then puts it into its table, and the daemon rebuilds the table from
the log.  Both servers of this module start with a log and a table that agree (`Logs`); the
question is whether they still agree (`ReplayAgrees`) after any run.

* `Session` — requests one at a time.  The errors of the log are dropped, so a write whose
  record is not wholly written is acknowledged all the same (`acked_recorded`,
  `acked_unrecorded`).
* `Traffic` — requests at the same time.  The two parts of a write are not one critical section,
  so two writes on a key may reach the log in one order and the table in the other
  (`log_order_agrees`, `log_order_differs`).
-/

variable {w : WAL} {m : MemTable} {ops : List Op}

/-! ### Rebuilding the table -/

/-- The file consists of the records of the writes `ops`. -/
structure Recorded (file : Bytes) (ops : List Op) : Prop where
  file_eq : file = Framing.frames Entry.record (ops.map Op.entry)
  fits : ∀ op ∈ ops, op.entry.Fits

/-- The log and the table of a server hold the writes `ops`. -/
structure Logs (w : WAL) (m : MemTable) (ops : List Op) : Prop extends Recorded w.file ops where
  isOpen : w.closed = false
  models : Models m (contents ops)

/-- A replay of the file into any fresh table ends without an error, and the rebuilt table
    answers every `Get` as `m` does. -/
def ReplayAgrees (file : Bytes) (m : MemTable) : Prop :=
  ∀ opts level, (∀ i, LevelOk opts (level i)) → ∃ rebuilt,
    (replayWAL (some (walDir file))).err = none ∧
    replayInto (newMemTable opts) level (replayWAL (some (walDir file))) = some rebuilt ∧
    ∀ key, ∃ r, rebuilt.get key = some r ∧ m.get key = some r

/-- A fresh log and a fresh table hold nothing. -/
theorem logs_new (walOpts : WALOptions) (opts : Storage.MemTableOptions) :
    Logs (openWAL walOpts none) (newMemTable opts) [] where
  file_eq := rfl
  fits := by simp
  isOpen := rfl
  models := Storage.models_new opts

theorem Recorded.snoc {file : Bytes} (h : Recorded file ops) {op : Op} (hfit : op.entry.Fits) :
    Recorded (file ++ op.entry.record) (ops ++ [op]) where
  file_eq := by rw [h.file_eq]; simp
  fits := by
    intro d hd
    rcases List.mem_append.mp hd with hd | hd
    · exact h.fits d hd
    · rw [List.mem_singleton.mp hd]; exact hfit

/-- **A replay** of the records of `ops` makes the writes `ops`. -/
theorem Recorded.replay {file : Bytes} (h : Recorded file ops) (opts : Storage.MemTableOptions)
    {level : ℕ → ℕ} (hlevel : ∀ i, LevelOk opts (level i)) :
    ∃ rebuilt, (replayWAL (some (walDir file))).err = none ∧
      replayInto (newMemTable opts) level (replayWAL (some (walDir file))) = some rebuilt ∧
      Models rebuilt (contents ops) := by
  have hfits : ∀ e ∈ ops.map Op.entry, e.Fits := by
    intro e he
    obtain ⟨op, hop, rfl⟩ := List.mem_map.mp he
    exact h.fits op hop
  have hreplay := replay_frames hfits (t := []) (Or.inl rfl)
  rw [List.append_nil, ← h.file_eq] at hreplay
  have happlied : (replayWAL (some (walDir file))).applied =
      ops.map fun op => op.entry.logEntry := by
    rw [hreplay]
    simp [Function.comp_def]
  obtain ⟨rebuilt, hrun, hmodels⟩ := Daemon.models_replayInto opts hlevel happlied
  exact ⟨rebuilt, by rw [hreplay], hrun, hmodels⟩

/-- If the table holds under every key what the last logged write on it left, a replay agrees
    with it. -/
theorem Recorded.agrees {file : Bytes} (h : Recorded file ops) {puts : List Op}
    (hm : Models m (contents puts)) (hlast : ∀ key, lastWrite ops key = lastWrite puts key) :
    ReplayAgrees file m := by
  intro opts level hlevel
  obtain ⟨rebuilt, herr, hrun, hmodels⟩ := h.replay opts hlevel
  refine ⟨rebuilt, herr, hrun, fun key => ⟨_, hmodels.get key, ?_⟩⟩
  rw [hm.get key, Storage.lookup_contents, Storage.lookup_contents, hlast key]

/-- What a table answers if a replay agrees with it. -/
theorem ReplayAgrees.get {file : Bytes} (h : ReplayAgrees file m) (hrec : Recorded file ops)
    (key : Bytes) :
    m.get key = some (Storage.answer (Assoc.lookup Entry.key key (contents ops))) := by
  have hlevel : ∀ _ : ℕ, LevelOk ⟨1, 0⟩ 1 := fun _ => by unfold LevelOk; decide
  obtain ⟨rebuilt, _, hrun, hmodels⟩ := hrec.replay ⟨1, 0⟩ hlevel
  obtain ⟨rebuilt', _, hrun', hsame⟩ := h ⟨1, 0⟩ (fun _ => 1) hlevel
  obtain rfl : rebuilt = rebuilt' := Option.some.inj (hrun.symm.trans hrun')
  obtain ⟨r, hr, hr'⟩ := hsame key
  rw [hr', ← hr, hmodels.get key]

/-! ### One request at a time -/

/-- An `Append` that writes the whole record. -/
def WritesRecord (w : WAL) (op : Op) (disk : Disk) : Prop :=
  w.closed = false ∧ op.entry.Fits ∧
    ∀ n, disk.failedAfter = some n → op.entry.record.length ≤ n

theorem WritesRecord.append {op : Op} {disk : Disk} (h : WritesRecord w op disk) {w' : WAL}
    {res : Except WALError Int}
    (happend : w.append op.entry.key op.entry.value op.entry.tombstone disk = some (w', res)) :
    w'.file = w.file ++ op.entry.record ∧ w'.closed = false := by
  obtain ⟨hopen, hfit, hdisk⟩ := h
  simp only [WAL.append, hopen, encodeRecord_eq hfit, Bool.false_eq_true, if_false,
    Option.bind_eq_bind, Option.bind_some] at happend
  cases hfail : disk.failedAfter with
  | some n =>
    simp only [hfail, Option.pure_def, Option.some.injEq, Prod.mk.injEq] at happend
    obtain ⟨rfl, _⟩ := happend
    exact ⟨by simp [List.take_of_length_le (hdisk n hfail)], rfl⟩
  | none =>
    simp only [hfail] at happend
    -- the `Sync` may fail, the record is in the file
    split at happend
    · obtain ⟨rfl, _⟩ := Prod.mk.inj (Option.some.inj happend)
      exact ⟨rfl, rfl⟩
    · obtain ⟨rfl, _⟩ := Prod.mk.inj (Option.some.inj happend)
      exact ⟨rfl, rfl⟩

/-- A request to a running server with a log and a table is refused, or makes both parts of
    its write. -/
theorem handle_cases {s s' : StagwayServer} {op : Op} {env : Env} {res : WriteResult}
    {sent : List Consensus.Packet} (hrunning : s.running = true) (hw : s.wal = some w)
    (hm : s.memTable = some m) (h : s.handle op env = some (s', res, sent)) :
    s'.running = true ∧
      ((res.err ≠ none ∧ s'.wal = some w ∧ s'.memTable = some m) ∨
        (res.err = none ∧ ∃ w' r m',
          w.append op.entry.key op.entry.value op.entry.tombstone env.disk = some (w', r) ∧
          m.apply op env.newLevel = some m' ∧ s'.wal = some w' ∧ s'.memTable = some m')) := by
  rw [StagwayServer.handle_eq, StagwayServer.write] at h
  obtain ⟨⟨s₁, res₁, sent₁⟩, hsubmit, h⟩ := Option.bind_eq_some_iff.mp h
  -- the first part touches the Raft node only
  obtain ⟨hm₁, hw₁, hrun₁⟩ := StagwayServer.submit_keeps hsubmit
  rw [hm] at hm₁
  rw [hw] at hw₁
  rw [hrunning] at hrun₁
  dsimp only at h
  split at h
  case isTrue herr =>
    simp only [Option.pure_def, Option.some.injEq, Prod.mk.injEq] at h
    obtain ⟨rfl, rfl, _⟩ := h
    refine ⟨hrun₁, Or.inl ⟨?_, hw₁, hm₁⟩⟩
    intro hnone
    rw [hnone] at herr
    cases herr
  case isFalse herr =>
    obtain ⟨s₂, hlog, h⟩ := Option.bind_eq_some_iff.mp h
    obtain ⟨s₃, hput, h⟩ := Option.bind_eq_some_iff.mp h
    simp only [Option.pure_def, Option.some.injEq, Prod.mk.injEq] at h
    obtain ⟨rfl, rfl, _⟩ := h
    obtain ⟨w', r, happend, hs₂⟩ := (StagwayServer.logWAL_eq_some hw₁).mp hlog
    have hm₂ : s₂.memTable = some m := by rw [hs₂]; exact hm₁
    obtain ⟨m', happly, rfl⟩ := (StagwayServer.putMemTable_eq_some hm₂).mp hput
    exact ⟨by rw [hs₂]; exact hrun₁,
      Or.inr ⟨by simpa using herr, w', r, m', happend, happly, by rw [hs₂], rfl⟩⟩

/-- **A write is acknowledged if the server takes it**, which its state before the call says. -/
theorem handle_accepts {s s' : StagwayServer} {op : Op} {env : Env} {res : WriteResult}
    {sent : List Consensus.Packet} (h : s.handle op env = some (s', res, sent)) :
    res.err = none ↔ s.accepts = true := by
  rw [StagwayServer.handle_eq, StagwayServer.write] at h
  obtain ⟨⟨s₁, res₁, sent₁⟩, hsubmit, h⟩ := Option.bind_eq_some_iff.mp h
  -- the other parts do not change the answer
  obtain rfl : res₁ = res := by
    dsimp only at h
    split at h
    · exact (Prod.mk.inj (Prod.mk.inj (Option.some.inj h)).2).1
    · obtain ⟨s₂, _, h⟩ := Option.bind_eq_some_iff.mp h
      obtain ⟨s₃, _, h⟩ := Option.bind_eq_some_iff.mp h
      exact (Prod.mk.inj (Prod.mk.inj (Option.some.inj h)).2).1
  unfold StagwayServer.submit at hsubmit
  unfold StagwayServer.accepts
  cases hrunning : s.running with
  | false =>
    rw [hrunning] at hsubmit
    obtain ⟨_, hrest⟩ := Prod.mk.inj (Option.some.inj hsubmit)
    obtain ⟨rfl, _⟩ := Prod.mk.inj hrest
    simp
  | true =>
    rw [hrunning] at hsubmit
    cases hraft : s.raft with
    | none =>
      rw [hraft] at hsubmit
      obtain ⟨_, hrest⟩ := Prod.mk.inj (Option.some.inj hsubmit)
      obtain ⟨rfl, _⟩ := Prod.mk.inj hrest
      simp
    | some raft =>
      rw [hraft] at hsubmit
      obtain ⟨⟨raft', ⟨idx, term, isLeader⟩, out⟩, hrun, hrest⟩ :=
        Option.bind_eq_some_iff.mp hsubmit
      rcases RaftNode.submit_cases hrun with ⟨hrole, _, hres, _⟩ | ⟨hlead, _, hres, _⟩
      · cases hres
        obtain ⟨_, hrest⟩ := Prod.mk.inj (Option.some.inj hrest)
        obtain ⟨rfl, _⟩ := Prod.mk.inj hrest
        simp [hrole]
      · cases hres
        obtain ⟨_, hrest⟩ := Prod.mk.inj (Option.some.inj hrest)
        obtain ⟨rfl, _⟩ := Prod.mk.inj hrest
        simp [hlead]

/-- A server and the writes it has acknowledged. -/
structure Session where
  server : StagwayServer
  acked : List Op

/-- What happens to a server: a write, the end of its log, or a change of its Raft node. -/
inductive Request
  | write (op : Op) (env : Env)
  | close
  | raft (node : RaftNode)

namespace Session

/-- One request is handled. -/
def step (s : Session) : Request → Except Fault Session
  | .write op env => orPanic do
    let (server, res, _) ← s.server.handle op env
    return { server := server, acked := if res.err.isNone then s.acked ++ [op] else s.acked }
  | .close => .ok { s with server := { s.server with wal := s.server.wal.map WAL.close } }
  | .raft node => .ok { s with server := { s.server with raft := s.server.raft.map fun _ => node } }

/-- A running server that has acknowledged nothing yet. -/
def start (raft : Option RaftNode) (w : WAL) (m : MemTable) : Session where
  server := (Network.newStagwayServer raft (some m) (some w)).start
  acked := []

/-- If the server takes a write, `Append` writes its whole record. -/
def Durable (s : Session) : Request → Prop
  | .write op env => s.server.accepts = true → ∀ w, s.server.wal = some w →
      WritesRecord w op env.disk
  | _ => True

/-- Heights that `randomLevel` may return. -/
def LegalHeight (m : MemTable) : Request → Prop
  | .write _ env => 1 ≤ env.newLevel ∧ (env.newLevel : Int) ≤ m.opts.maxLevel
  | _ => True

/-- The log and the table hold the writes from before the start and the acknowledged ones. -/
structure Holds (m₀ : MemTable) (ops : List Op) (s : Session) (w : WAL) (m : MemTable) :
    Prop where
  running : s.server.running = true
  wal : s.server.wal = some w
  memTable : s.server.memTable = some m
  opts : m.opts = m₀.opts
  recorded : Recorded w.file (ops ++ s.acked)
  models : Models m (contents (ops ++ s.acked))

/-- **One request** keeps log and table together. -/
theorem Holds.step {m₀ : MemTable} {s s' : Session} {x : Request} (h : Holds m₀ ops s w m)
    (hdurable : s.Durable x) (hlegal : LegalHeight m₀ x) (hstep : s.step x = .ok s') :
    ∃ w' m', Holds m₀ ops s' w' m' := by
  cases x with
  | close =>
    obtain rfl := Except.ok.inj hstep
    exact ⟨w.close, m, h.running, by simp [h.wal], h.memTable, h.opts, h.recorded, h.models⟩
  | raft node =>
    obtain rfl := Except.ok.inj hstep
    exact ⟨w, m, h.running, h.wal, h.memTable, h.opts, h.recorded, h.models⟩
  | write op env =>
    obtain ⟨⟨server, res, sent⟩, hrun, hrest⟩ :=
      Option.bind_eq_some_iff.mp (orPanic_eq_ok.mp hstep)
    obtain rfl := Option.some.inj hrest
    obtain ⟨hrunning, ⟨herr, hw, hm⟩ | ⟨herr, w', r, m', happend, happly, hw, hm⟩⟩ :=
      handle_cases h.running h.wal h.memTable hrun
    · have hnone : res.err.isNone = false := by
        cases hq : res.err with
        | none => exact absurd hq herr
        | some e => rfl
      refine ⟨w, m, hrunning, hw, hm, h.opts, ?_, ?_⟩
      · simpa [hnone] using h.recorded
      · simpa [hnone] using h.models
    · have hwrites := hdurable ((handle_accepts hrun).mp herr) w h.wal
      -- the record is whole, so the log and what is waiting for the table both grow by the call
      obtain ⟨hfile, _⟩ := hwrites.append happend
      obtain ⟨hopts, hmodels⟩ := h.models.of_apply hlegal.1 (by rw [h.opts]; exact hlegal.2) happly
      refine ⟨w', m', hrunning, hw, hm, hopts.trans h.opts, ?_, ?_⟩
      · simp only [herr, Option.isNone_none, if_true, ← List.append_assoc]
        rw [hfile]
        exact h.recorded.snoc hwrites.2.1
      · simp only [herr, Option.isNone_none, if_true, ← List.append_assoc]
        rw [Storage.contents_snoc]
        exact hmodels

/-- **No acknowledged write without a record.**  A server starts with a log and a table that
    agree.  In every run in which `Append` writes the whole record of each write that is then
    acknowledged, the log consists of its old records and those of the acknowledged writes, in
    their order, and a replay agrees with the live table. -/
theorem acked_recorded {raft : Option RaftNode} (hlogs : Logs w m ops) {reqs : List Request}
    {s : Session} (hlegal : ∀ x ∈ reqs, LegalHeight m x)
    (hdurable : ∀ i u x, reqs[i]? = some x →
      Run.Reached step (start raft w m) (reqs.take i) u → u.Durable x)
    (hs : Run.Reached step (start raft w m) reqs s) :
    ∃ w' m', s.server.wal = some w' ∧ s.server.memTable = some m' ∧
      w'.file = w.file ++ Framing.frames Entry.record (s.acked.map Op.entry) ∧
      ReplayAgrees w'.file m' := by
  obtain ⟨w', m', h⟩ : ∃ w' m', Holds m ops s w' m' := by
    refine Run.Reached.along (I := fun s => ∃ w' m', Holds m ops s w' m') ?_ ?_ hs
    · exact ⟨w, m, rfl, rfl, rfl, rfl, by simpa [start] using hlogs.toRecorded,
        by simpa [start] using hlogs.models⟩
    · intro i u x u' hx hu ⟨w', m', h⟩ hstep
      exact h.step (hdurable i u x hx hu) (hlegal x (List.mem_of_getElem? hx)) hstep
  refine ⟨w', m', h.wal, h.memTable, ?_, h.recorded.agrees h.models fun _ => rfl⟩
  rw [h.recorded.file_eq, hlogs.file_eq]
  simp

/-- A put, and a delete after whose record `Sync` fails. -/
def twoWrites : List Request :=
  [.write (.put [7] [1]) ⟨Disk.ok, 2⟩, .write (.delete [7]) ⟨⟨none, false⟩, 1⟩]

/-- Both records are in the log. -/
theorem acked_recorded_two : ∃ s w' m',
    Run.Reached step (start none (openWAL defaultWALOptions none) (newMemTable ⟨2, 0⟩))
      twoWrites s ∧
    s.acked = [.put [7] [1], .delete [7]] ∧ s.server.wal = some w' ∧
    s.server.memTable = some m' ∧ ReplayAgrees w'.file m' := by
  obtain ⟨s, hs, hacked⟩ := Run.exists_reached step
    (start none (openWAL defaultWALOptions none) (newMemTable ⟨2, 0⟩)) twoWrites Session.acked
    [.put [7] [1], .delete [7]] (by decide)
  obtain ⟨w', m', hw, hm, _, hagrees⟩ := acked_recorded (logs_new defaultWALOptions ⟨2, 0⟩)
    (by intro x hx
        simp only [twoWrites, List.mem_cons, List.not_mem_nil, or_false] at hx
        rcases hx with rfl | rfl
        · exact ⟨by decide, by decide⟩
        · exact ⟨by decide, by decide⟩)
    (by -- the log is open before both writes
        intro i u x hx hu
        rcases i with _ | _ | i
        · obtain rfl := Option.some.inj hx
          intro _ w hw
          rw [← Run.reached_nil.mp hu] at hw
          obtain rfl := Option.some.inj hw
          exact ⟨rfl, by decide, by simp [Disk.ok]⟩
        · obtain rfl := Option.some.inj hx
          intro _ w hw
          have hcheck : ((twoWrites.take 1).foldlM step
              (start none (openWAL defaultWALOptions none) (newMemTable ⟨2, 0⟩))).map
                (fun s => s.server.wal.map WAL.closed) = .ok (some false) := by decide
          have hopen := hu.view_eq hcheck
          rw [hw] at hopen
          exact ⟨Option.some.inj hopen, by decide, by simp⟩
        · cases hx)
    hs
  exact ⟨s, w', m', hs, hacked, hw, hm, hagrees⟩

/-- A write whose `Append` fails at once is acknowledged and in the table, and a replay does not
    find it. -/
theorem acked_unrecorded : ∃ s w' m',
    Run.Reached step (start none (openWAL defaultWALOptions none) (newMemTable ⟨2, 0⟩))
      [.write (.put [7] [9]) ⟨⟨some 0, true⟩, 1⟩] s ∧
    s.acked = [.put [7] [9]] ∧ s.server.wal = some w' ∧ s.server.memTable = some m' ∧
    w'.file = [] ∧ ¬ ReplayAgrees w'.file m' := by
  obtain ⟨s, hs, hview⟩ := Run.exists_reached step
    (start none (openWAL defaultWALOptions none) (newMemTable ⟨2, 0⟩))
    [.write (.put [7] [9]) ⟨⟨some 0, true⟩, 1⟩]
    (fun s => (s.acked, s.server.wal.map WAL.file,
      s.server.memTable.bind fun m => (m.get [7]).map Prod.fst))
    (([.put [7] [9]], some [], some [9])) (by decide)
  simp only [Prod.mk.injEq, Option.map_eq_some_iff, Option.bind_eq_some_iff] at hview
  obtain ⟨hacked, ⟨w', hw, hfile⟩, m', hm, r, hget, hvalue⟩ := hview
  refine ⟨s, w', m', hs, hacked, hw, hm, hfile, fun hagrees => ?_⟩
  rw [hfile] at hagrees
  have hrec : Recorded [] [] := ⟨rfl, by simp⟩
  have := hagrees.get hrec [7]
  rw [hget] at this
  rw [Option.some.inj this] at hvalue
  exact absurd hvalue (by decide)

end Session

/-! ### Requests at the same time -/

/-- A server with calls in progress: those that have not reached the log, and those that have
    reached the log but not the table, in the order of the log. -/
structure Traffic where
  server : StagwayServer
  arrived : List Op
  logged : List Op

/-- What may happen next: a call arrives, the `i`-th call before the log makes its `Append`, or
    the `i`-th call behind it makes its `Put` or `Delete` and returns. -/
inductive Part
  | call (op : Op)
  | log (i : ℕ) (disk : Disk)
  | put (i : ℕ) (newLevel : ℕ)
  deriving DecidableEq, Repr

namespace Traffic

/-- One critical section of one of the calls. -/
def step (s : Traffic) : Part → Except Fault Traffic
  | .call op => orPanic do
    let (server, res, _) ← s.server.submit op
    if res.err.isSome then return { s with server := server }
    else return { s with server := server, arrived := s.arrived ++ [op] }
  | .log i disk =>
    match s.arrived[i]? with
    | some op => orPanic do
      let server ← s.server.logWAL op disk
      return { server := server, arrived := s.arrived.eraseIdx i, logged := s.logged ++ [op] }
    | none => .error .disabled
  | .put i newLevel =>
    match s.logged[i]? with
    | some op => orPanic do
      let server ← s.server.putMemTable op newLevel
      return { s with server := server, logged := s.logged.eraseIdx i }
    | none => .error .disabled

/-- A standalone server without calls in progress. -/
def start (w : WAL) (m : MemTable) : Traffic where
  server := standalone w m
  arrived := []
  logged := []

/-- An `Append` writes the whole record, and no call overtakes, on its way to the table, a call
    on the same key that came before it in the log. -/
def Orderly (s : Traffic) : Part → Prop
  | .call _ => True
  | .log i disk => ∀ op, s.arrived[i]? = some op → ∀ w, s.server.wal = some w →
      WritesRecord w op disk
  | .put i _ => ∀ op, s.logged[i]? = some op → ∀ d ∈ s.logged.take i, d.key ≠ op.key

/-- Heights that `randomLevel` may return. -/
def LegalHeight (m : MemTable) : Part → Prop
  | .put _ newLevel => 1 ≤ newLevel ∧ (newLevel : Int) ≤ m.opts.maxLevel
  | _ => True

/-- The writes on a key. -/
def on (key : Bytes) (ops : List Op) : List Op := ops.filter fun op => decide (op.key = key)

theorem on_append (key : Bytes) (ops ops' : List Op) :
    on key (ops ++ ops') = on key ops ++ on key ops' := List.filter_append ..

/-- The last write on a key only depends on the writes on that key. -/
private theorem lastWrite_congr {puts : List Op} {key : Bytes} (h : on key ops = on key puts) :
    lastWrite ops key = lastWrite puts key := by
  unfold lastWrite
  rw [← List.head?_filter, ← List.head?_filter, List.filter_reverse, List.filter_reverse]
  exact congrArg (fun l => l.reverse.head?) h

/-- Taking out a write that no other on its key precedes. -/
private theorem on_eraseIdx {i : ℕ} {op : Op} (hop : ops[i]? = some op)
    (hfirst : ∀ d ∈ ops.take i, d.key ≠ op.key) (key : Bytes) :
    on key ops = on key [op] ++ on key (ops.eraseIdx i) := by
  obtain ⟨hi, rfl⟩ := List.getElem?_eq_some_iff.mp hop
  have hsplit : ops = ops.take i ++ (ops[i] :: ops.drop (i + 1)) := by
    rw [← List.drop_eq_getElem_cons hi, List.take_append_drop]
  rw [List.eraseIdx_eq_take_drop_succ, on_append]
  conv_lhs => rw [hsplit, on_append, ← List.singleton_append, on_append]
  by_cases hkey : ops[i].key = key
  · -- nothing on this key stands before it
    have hnone : on key (ops.take i) = [] := by
      unfold on
      rw [List.filter_eq_nil_iff]
      intro d hd
      simpa [← hkey] using hfirst d hd
    rw [hnone]; rfl
  · have hnone : on key [ops[i]] = [] := by simp [on, hkey]
    rw [hnone]; rfl

/-- The log holds the writes `log`, the table the writes `puts`, and on every key the calls
    behind the log make up for the difference. -/
structure Holds (m₀ : MemTable) (s : Traffic) (w : WAL) (m : MemTable) (log puts : List Op) :
    Prop where
  server : s.server = standalone w m
  opts : m.opts = m₀.opts
  recorded : Recorded w.file log
  models : Models m (contents puts)
  pending : ∀ key, on key log = on key puts ++ on key s.logged

/-- **One critical section** keeps the log and the table together. -/
theorem Holds.step {m₀ : MemTable} {s s' : Traffic} {log puts : List Op} {x : Part}
    (h : Holds m₀ s w m log puts) (horderly : s.Orderly x) (hlegal : LegalHeight m₀ x)
    (hstep : s.step x = .ok s') : ∃ w' m' log' puts', Holds m₀ s' w' m' log' puts' := by
  cases x with
  | call op =>
    obtain ⟨⟨server, res, sent⟩, hsubmit, hrest⟩ :=
      Option.bind_eq_some_iff.mp (orPanic_eq_ok.mp hstep)
    rw [h.server] at hsubmit
    obtain ⟨rfl, rfl, _⟩ : standalone w m = server ∧ ⟨1, 1, true, none⟩ = res ∧ [] = sent := by
      simpa [StagwayServer.submit, standalone, Network.newStagwayServer, StagwayServer.start]
        using hsubmit
    obtain rfl := Option.some.inj hrest
    exact ⟨w, m, log, puts, rfl, h.opts, h.recorded, h.models, h.pending⟩
  | log i disk =>
    rw [Traffic.step] at hstep
    cases hop : s.arrived[i]? with
    | none => rw [hop] at hstep; cases hstep
    | some op =>
      rw [hop] at hstep
      obtain ⟨server, hlog, hrest⟩ := Option.bind_eq_some_iff.mp (orPanic_eq_ok.mp hstep)
      obtain rfl := Option.some.inj hrest
      have hwal : s.server.wal = some w := by rw [h.server]; rfl
      have hwrites := horderly op hop w hwal
      obtain ⟨w', r, happend, rfl⟩ := (StagwayServer.logWAL_eq_some hwal).mp hlog
      obtain ⟨hfile, _⟩ := hwrites.append happend
      refine ⟨w', m, log ++ [op], puts, by rw [h.server]; rfl, h.opts, ?_, h.models, ?_⟩
      · rw [hfile]; exact h.recorded.snoc hwrites.2.1
      · intro key
        simp only [on_append, h.pending key, List.append_assoc]
  | put i newLevel =>
    rw [Traffic.step] at hstep
    cases hop : s.logged[i]? with
    | none => rw [hop] at hstep; cases hstep
    | some op =>
      rw [hop] at hstep
      obtain ⟨server, hput, hrest⟩ := Option.bind_eq_some_iff.mp (orPanic_eq_ok.mp hstep)
      obtain rfl := Option.some.inj hrest
      have hmem : s.server.memTable = some m := by rw [h.server]; rfl
      obtain ⟨m', happly, rfl⟩ := (StagwayServer.putMemTable_eq_some hmem).mp hput
      obtain ⟨hopts, hmodels⟩ := h.models.of_apply hlegal.1 (by rw [h.opts]; exact hlegal.2) happly
      refine ⟨w, m', log, puts ++ [op], by rw [h.server]; rfl, hopts.trans h.opts, h.recorded,
        by rw [Storage.contents_snoc]; exact hmodels, ?_⟩
      intro key
      -- calls on one key reach the table in the order of the log, so this one is the first
      -- of its key that waits
      rw [h.pending key, on_eraseIdx hop (horderly op hop) key, on_append, List.append_assoc]

/-- **The order of the log.**  A standalone server starts with a log and a table that agree, and
    handles any number of calls at the same time.  If every `Append` writes the whole record,
    and no call overtakes on its way to the table one on the same key that is before it in the
    log, then a replay agrees with the live table whenever no call is between the log and the
    table, as when all have returned. -/
theorem log_order_agrees (hlogs : Logs w m ops) {parts : List Part} {s : Traffic}
    (hlegal : ∀ x ∈ parts, LegalHeight m x)
    (horderly : ∀ i u x, parts[i]? = some x →
      Run.Reached step (start w m) (parts.take i) u → u.Orderly x)
    (hs : Run.Reached step (start w m) parts s) (hlogged : s.logged = []) :
    ∃ w' m', s.server = standalone w' m' ∧ ReplayAgrees w'.file m' := by
  obtain ⟨w', m', log, puts, h⟩ : ∃ w' m' log puts, Holds m s w' m' log puts := by
    refine Run.Reached.along (I := fun s => ∃ w' m' log puts, Holds m s w' m' log puts) ?_ ?_ hs
    · exact ⟨w, m, ops, ops, rfl, rfl, hlogs.toRecorded, hlogs.models, by simp [start, on]⟩
    · intro i u x u' hx hu ⟨w', m', log, puts, h⟩ hstep
      exact h.step (horderly i u x hx hu) (hlegal x (List.mem_of_getElem? hx)) hstep
  refine ⟨w', m', h.server, h.recorded.agrees h.models fun key => lastWrite_congr ?_⟩
  simpa [hlogged, on] using h.pending key

/-- Two puts on a key, the second of which is the first to reach the log and the table. -/
def swapped : List Part :=
  [.call (.put [7] [1]), .call (.put [7] [2]), .log 1 Disk.ok, .log 0 Disk.ok, .put 0 1, .put 0 1]

/-- Before an `Append` of that run both calls fit and the log is open. -/
theorem swapped_log {i k : ℕ} {u : Traffic} (hi : i = 2 ∨ i = 3)
    (hu : Run.Reached step (start (openWAL defaultWALOptions none) (newMemTable ⟨2, 0⟩))
      (swapped.take i) u) : u.Orderly (.log k Disk.ok) := by
  have hcheck : ((swapped.take i).foldlM step
      (start (openWAL defaultWALOptions none) (newMemTable ⟨2, 0⟩))).map
        (fun s => decide ((∀ op ∈ s.arrived, op.entry.Fits) ∧
          s.server.wal.map WAL.closed = some false)) = .ok true := by
    rcases hi with rfl | rfl
    · decide
    · decide
  obtain ⟨hfits, hopen⟩ := of_decide_eq_true (hu.view_eq hcheck)
  intro op hop w hw
  rw [hw] at hopen
  exact ⟨Option.some.inj hopen, hfits op (List.mem_of_getElem? hop), by simp [Disk.ok]⟩

/-- A replay agrees with the table after that run. -/
theorem log_order_agrees_swapped : ∃ s w' m',
    Run.Reached step (start (openWAL defaultWALOptions none) (newMemTable ⟨2, 0⟩)) swapped s ∧
    s.server = standalone w' m' ∧ ReplayAgrees w'.file m' := by
  obtain ⟨s, hs, hlogged⟩ := Run.exists_reached step
    (start (openWAL defaultWALOptions none) (newMemTable ⟨2, 0⟩)) swapped Traffic.logged []
    (by decide)
  obtain ⟨w', m', hserver, hagrees⟩ := log_order_agrees (logs_new defaultWALOptions ⟨2, 0⟩)
    (by intro x hx
        simp only [swapped, List.mem_cons, List.not_mem_nil, or_false] at hx
        rcases hx with rfl | rfl | rfl | rfl | rfl | rfl
        · trivial
        · trivial
        · trivial
        · trivial
        · exact ⟨by decide, by decide⟩
        · exact ⟨by decide, by decide⟩)
    (by intro i u x hx hu
        rcases i with _ | _ | _ | _ | _ | _ | i
        · obtain rfl := Option.some.inj hx; trivial
        · obtain rfl := Option.some.inj hx; trivial
        · obtain rfl := Option.some.inj hx; exact swapped_log (Or.inl rfl) hu
        · obtain rfl := Option.some.inj hx; exact swapped_log (Or.inr rfl) hu
        · obtain rfl := Option.some.inj hx; intro op _ d hd; simp at hd
        · obtain rfl := Option.some.inj hx; intro op _ d hd; simp at hd
        · cases hx)
    hs hlogged
  exact ⟨s, w', m', hs, hserver, hagrees⟩

/-- Two puts on a key reach the log in one order and the table in the other: the table keeps
    the first value, a replay finds the second. -/
theorem log_order_differs : ∃ s w' m',
    Run.Reached step (start (openWAL defaultWALOptions none) (newMemTable ⟨2, 0⟩))
      [.call (.put [7] [1]), .call (.put [7] [2]), .log 0 Disk.ok, .log 0 Disk.ok, .put 1 1,
        .put 0 1] s ∧
    s.arrived = [] ∧ s.logged = [] ∧ s.server.wal = some w' ∧ s.server.memTable = some m' ∧
    ¬ ReplayAgrees w'.file m' := by
  obtain ⟨s, hs, hview⟩ := Run.exists_reached step
    (start (openWAL defaultWALOptions none) (newMemTable ⟨2, 0⟩))
    [.call (.put [7] [1]), .call (.put [7] [2]), .log 0 Disk.ok, .log 0 Disk.ok, .put 1 1,
      .put 0 1]
    (fun s => (s.arrived, s.logged, s.server.wal.map WAL.file,
      s.server.memTable.bind fun m => (m.get [7]).map Prod.fst))
    (([], [], some (Framing.frames Entry.record
      [(Op.put [7] [1]).entry, (Op.put [7] [2]).entry]), some [1])) (by decide +kernel)
  simp only [Prod.mk.injEq, Option.map_eq_some_iff, Option.bind_eq_some_iff] at hview
  obtain ⟨harrived, hlogged, ⟨w', hw, hfile⟩, m', hm, r, hget, hvalue⟩ := hview
  refine ⟨s, w', m', hs, harrived, hlogged, hw, hm, fun hagrees => ?_⟩
  have hrec : Recorded w'.file [.put [7] [1], .put [7] [2]] := ⟨hfile, by decide⟩
  have := hagrees.get hrec [7]
  rw [hget] at this
  rw [Option.some.inj this] at hvalue
  exact absurd hvalue (by decide)

end Traffic

end Hallownest
