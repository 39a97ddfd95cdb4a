import Hallownest.Cli
import Hallownest.Deployment
import Hallownest.Durability
import Hallownest.Gateway

namespace Hallownest.Lives

open Bench
open Consensus (Fault RaftLogEntry RaftNode dummyEntry newRaftNode orPanic orPanic_eq_ok)
open Daemon (LevelOk replayInto)
open Gateway (Flags HttpRequest HttpResponse PutJSONRequest serveHTTP writeOf)
open Network
open Session (Holds)
open Storage (MemTable Models Op contents lastWrite newMemTable defaultMemTableOptions written)

/-!
# Lives of the daemon (`main.go`)

The daemon as it is shipped: one Raft node without peers, one log file, a MemTable, and two front
ends.  A life begins with the replay of the log and ends with a signal or a crash; requests are
served one at a time, over HTTP or on a connection, and a crash may come within one, between the
log and the answer.  A panic ends a run; `net/http` would recover one in a handler.

* `lives_serve` — over any number of lives, whatever front end a client uses: it reads the last
  write that was logged over either of them, in this life or an earlier one, and the acknowledged
  writes are among these;
* `solo_receipts` — the index a client is told counts the writes of the present life, and nothing
  is ever sent on the apply channel.
-/

/-! ### The process -/

/-- The daemon; the loop over `applyCh` has received `consumed` messages. -/
structure Process where
  server : StagwayServer
  consumed : ℕ

/-- A request over HTTP, or one request on a connection. -/
inductive Call
  | http (r : HttpRequest)
  | tcp (headerBuf key val : Bytes)

/-- What a client is sent. -/
inductive Answer
  | http (resp : HttpResponse)
  | tcp (out : Bytes)

variable (unmarshal : Bytes → Option PutJSONRequest) (flags : Flags)

/-- The write a call asks for. -/
def Call.write : Call → Option Op
  | .http r => writeOf unmarshal r
  | .tcp headerBuf key val =>
    if headerOp headerBuf = opPut then some (.put key val)
    else if headerOp headerBuf = opTombstone then some (.delete key)
    else none

/-- What a client takes for the acknowledgement of a write. -/
def Answer.acknowledges : Answer → Bool
  | .http resp => decide (resp.status = 200)
  | .tcp out => decide (out.head? = some 1)

namespace Process

/-- The start of the daemon in a directory with the given log file.  An error of the replay is
    logged, and the daemon goes on with what was replayed before it. -/
def boot (file : Option Bytes) (level : ℕ → ℕ) : Option Process := do
  let wal := openWAL defaultWALOptions file
  let memTable ← replayInto (newMemTable defaultMemTableOptions) level
    (replayWAL (some (walDir wal.file)))
  let raftNode := newRaftNode flags.nodeID [] (some [])
  return {
    server := (newStagwayServer (some raftNode) (some memTable) (some wal)).start
    consumed := 0 }

/-- One request on a connection. -/
def serveFrame (s : StagwayServer) (headerBuf key val : Bytes) (env : Env) :
    Option (StagwayServer × Bytes) :=
  match Conn.respond (undisturbed fun _ => env) ⟨s, 0, [], []⟩ (.request headerBuf key val) with
  | .ok c => some (c.server, c.out)
  | .error _ => none

/-- Serve a call. -/
def serve (p : Process) (env : Env) : Call → Option (Process × Answer)
  | .http r => do
    let (server, resp, _) ← serveHTTP unmarshal flags p.server r env
    return ({ p with server := server }, .http resp)
  | .tcp headerBuf key val => do
    let (server, out) ← serveFrame p.server headerBuf key val env
    return ({ p with server := server }, .tcp out)

/-- A round of the election loop that finds the deadline passed. -/
def electionTick (p : Process) : Except Fault Process :=
  match p.server.raft with
  | some r =>
    if r.killed = false ∧ r.role ≠ .leader then
      orPanic do
        let (r, _, _) ← r.startElection
        return { p with server := { p.server with raft := some r } }
    else .error .disabled
  | none => .error .disabled

/-- A round of a heartbeat loop. -/
def heartbeatTick (p : Process) : Except Fault Process :=
  match p.server.raft with
  | some r =>
    if r.killed = false ∧ r.role = .leader then
      orPanic do
        let _ ← r.broadcastHeartbeats
        return p
    else .error .disabled
  | none => .error .disabled

/-- A round of the loop over `applyCh`. -/
def apply (p : Process) (newLevel : ℕ) : Except Fault Process :=
  match (p.server.raft.bind RaftNode.applyCh).bind fun sent => sent[p.consumed]? with
  | some msg =>
    orPanic do
      let memTable ← p.server.memTable.mapM fun m => Deployment.applyCommitted m msg newLevel
      return { server := { p.server with memTable := memTable }, consumed := p.consumed + 1 }
  | none => .error .disabled

/-- The log file. -/
def file (p : Process) : Option Bytes := p.server.wal.map WAL.file

/-- The deferred calls after a signal: `Stop`, `Kill`, `Close`. -/
def shutdown (p : Process) : Process :=
  { p with server :=
    { p.server.stop with
      raft := p.server.raft.map fun r => { r with killed := true }
      wal := p.server.wal.map WAL.close } }

end Process

/-! ### Lives -/

/-- The daemon is down, with the given log file, or up. -/
inductive Machine
  | down (file : Option Bytes)
  | up (p : Process)

/-- The machine, the writes logged and those acknowledged so far, and the latter of the present
    life. -/
structure World where
  machine : Machine
  logged : List Op
  acked : List Op
  life : List Op

/-- What may happen next. -/
inductive Event
  | boot (level : ℕ → ℕ)
  | electionTick
  | heartbeatTick
  | apply (newLevel : ℕ)
  | serve (call : Call) (env : Env)
  | signal
  | crash
  | crashIn (call : Call) (disk : Disk)

namespace World

/-- An empty directory. -/
def fresh : World where
  machine := .down none
  logged := []
  acked := []
  life := []

/-- The contents of the log file. -/
def file (w : World) : Bytes :=
  match w.machine with
  | .down file => file.getD []
  | .up p => p.file.getD []

/-- The process does something besides serving. -/
def runs (w : World) (f : Process → Except Fault Process) : Except Fault World :=
  match w.machine with
  | .up p => do
    let p ← f p
    return { w with machine := .up p }
  | .down _ => .error .disabled

/-- A call is served, and its write counts if the client is told so. -/
def serve (w : World) (call : Call) (env : Env) : Except Fault World :=
  match w.machine with
  | .up p =>
    orPanic do
      let (p, answer) ← p.serve unmarshal flags env call
      let acked := if answer.acknowledges then (call.write unmarshal).toList else []
      return {
        machine := .up p
        logged := w.logged ++ acked
        acked := w.acked ++ acked
        life := w.life ++ acked }
  | .down _ => .error .disabled

/-- The process ends. -/
def ends (w : World) (f : Process → Process) : Except Fault World :=
  match w.machine with
  | .up p => .ok { w with machine := .down (f p).file }
  | .down _ => .error .disabled

/-- The process ends within a call, when the write is logged and before the client is told. -/
def cutOff (w : World) (call : Call) (disk : Disk) : Except Fault World :=
  match w.machine, call.write unmarshal with
  | .up p, some op =>
    if p.server.accepts then
      orPanic do
        let (server, _, _) ← p.server.submit op
        let server ← server.logWAL op disk
        return { w with machine := .down (server.wal.map WAL.file), logged := w.logged ++ [op] }
    else .error .disabled
  | _, _ => .error .disabled

/-- The process starts. -/
def boots (w : World) (level : ℕ → ℕ) : Except Fault World :=
  match w.machine with
  | .down file =>
    orPanic do
      let p ← Process.boot flags file level
      return { w with machine := .up p, life := [] }
  | .up _ => .error .disabled

/-- One step. -/
def step (w : World) : Event → Except Fault World
  | .boot level => w.boots flags level
  | .electionTick => w.runs Process.electionTick
  | .heartbeatTick => w.runs Process.heartbeatTick
  | .apply newLevel => w.runs fun p => p.apply newLevel
  | .serve call env => w.serve unmarshal flags call env
  | .signal => w.ends Process.shutdown
  | .crash => w.ends id
  | .crashIn call disk => w.cutOff unmarshal call disk

/-- `w` is reached from an empty directory by the given events. -/
def Reached (events : List Event) (w : World) : Prop :=
  Run.Reached (step unmarshal flags) fresh events w

end World

/-! ### A node without peers -/

/-- The entries of a life: all are of term 1, and numbered from 1. -/
def entriesOf (life : List Op) : List RaftLogEntry :=
  life.mapIdx fun i op =>
    { index := i + 1
      term := 1
      key := op.entry.key
      value := op.entry.value
      tombstone := op.entry.tombstone }

/-- The Raft node of the daemon: it has led term 1 since its first election, holds the writes of
    this life and commits none of them. -/
structure Solo (r : RaftNode) (life : List Op) : Prop where
  peers : r.peers = []
  alive : r.killed = false
  log : r.log = dummyEntry :: entriesOf life
  commitIndex : r.commitIndex = 0
  applyCh : r.applyCh = some []
  role : (r.role = .follower ∧ r.currentTerm = 0 ∧ life = []) ∨
    (r.role = .leader ∧ r.currentTerm = 1)

/-- A node without peers when it starts. -/
theorem solo_new (id : Int) : Solo (newRaftNode id [] (some [])) [] where
  peers := rfl
  alive := rfl
  log := rfl
  commitIndex := rfl
  applyCh := rfl
  role := Or.inl ⟨rfl, rfl, rfl⟩

/-- A node without peers has nobody to send to. -/
theorem Solo.broadcastHeartbeats {r : RaftNode} {life : List Op} (h : Solo r life) :
    r.broadcastHeartbeats = some [] := by
  simp [RaftNode.broadcastHeartbeats, h.peers]

/-- An election without peers is won at once. -/
theorem Solo.startElection {r r' : RaftNode} {life : List Op} (h : Solo r life) {votes : Int}
    {sent : List Consensus.Packet} (hrole : r.role ≠ .leader)
    (hrun : r.startElection = some (r', votes, sent)) : Solo r' life := by
  obtain ⟨_, hterm, hlife⟩ | ⟨hlead, _⟩ := h.role
  · have hmajority : (1 : Int) ≥ r.stands.majorityNeeded := by
      simp [RaftNode.majorityNeeded, RaftNode.stands, h.peers]
    rw [RaftNode.startElection] at hrun
    obtain ⟨last, _, hrun⟩ := Option.bind_eq_some_iff.mp hrun
    obtain ⟨⟨r₁, sent₁⟩, hlead, hrun⟩ :=
      Option.bind_eq_some_iff.mp ((if_pos hmajority).symm.trans hrun)
    obtain ⟨rfl, _⟩ := Prod.mk.inj (Option.some.inj hrun)
    obtain ⟨rfl, _⟩ := RaftNode.becomeLeader_eq hlead
    refine ⟨h.peers, h.alive, h.log, h.commitIndex, h.applyCh, Or.inr ⟨rfl, ?_⟩⟩
    show r.currentTerm + 1 = 1
    rw [hterm]
    rfl
  · exact absurd hlead hrole

/-- Such a node takes a proposal exactly if it leads, and the receipt counts its life. -/
theorem Solo.submit {r r' : RaftNode} {life : List Op} (h : Solo r life) {op : Op}
    {res : Int × Int × Bool} {sent : List Consensus.Packet}
    (hrun : r.submit op.entry.key op.entry.value op.entry.tombstone = some (r', res, sent)) :
    (r.role ≠ .leader ∧ r' = r ∧ res.2.2 = false) ∨
      (r.role = .leader ∧ Solo r' (life ++ [op]) ∧ res = ((life.length : Int) + 1, 1, true)) := by
  obtain ⟨hrole, hr', hres, _⟩ | ⟨hlead, hr', hres, _⟩ := RaftNode.submit_cases hrun
  · exact Or.inl ⟨hrole, hr', by rw [hres]⟩
  · obtain ⟨hfollow, _⟩ | ⟨_, hterm⟩ := h.role
    · rw [hlead] at hfollow
      cases hfollow
    have hlength : (r.log.length : Int) = life.length + 1 := by
      rw [h.log]
      simp [entriesOf]
    refine Or.inr ⟨hlead, ?_, by rw [hres, hlength, hterm]⟩
    subst hr'
    refine ⟨h.peers, h.alive, ?_, h.commitIndex, h.applyCh, Or.inr ⟨hlead, hterm⟩⟩
    simp [h.log, entriesOf, RaftNode.newEntry, hterm]

/-! ### What a call does -/

section Calls

variable {unmarshal flags} {p p' : Process} {call : Call} {answer : Answer} {env : Env}

/-- The index and the term that a client is told. -/
def Answer.Tells (index term : Int) : Answer → Prop
  | .http resp => ∃ j, resp.body = .json j ∧ j.success = true ∧ j.index = index ∧ j.term = term
  | .tcp out => out = sendWriteResponse ⟨index, term, true, none⟩

/-- The Raft node of a server that handles a write. -/
theorem handle_raft {s s' : StagwayServer} {op : Op} {res : WriteResult}
    {sent : List Consensus.Packet} {r : RaftNode} (hrunning : s.running = true)
    (hraft : s.raft = some r) (h : s.handle op env = some (s', res, sent)) :
    ∃ r' idx term isLeader,
      r.submit op.entry.key op.entry.value op.entry.tombstone =
        some (r', (idx, term, isLeader), sent) ∧
      s'.running = true ∧ s'.raft = some r' ∧
      res = if isLeader then ⟨idx, term, true, none⟩ else ⟨-1, term, false, some .notLeader⟩ := by
  rw [StagwayServer.handle_eq, StagwayServer.write] at h
  obtain ⟨⟨s₁, res₁, sent₁⟩, hsubmit, h⟩ := Option.bind_eq_some_iff.mp h
  rw [StagwayServer.submit, hrunning, hraft] at hsubmit
  obtain ⟨⟨r', ⟨idx, term, isLeader⟩, sent'⟩, hrun, hsubmit⟩ := Option.bind_eq_some_iff.mp hsubmit
  refine ⟨r', idx, term, isLeader, ?_⟩
  cases isLeader with
  | false =>
    obtain ⟨rfl, hrest⟩ := Prod.mk.inj (Option.some.inj hsubmit)
    obtain ⟨rfl, rfl⟩ := Prod.mk.inj hrest
    obtain ⟨rfl, hrest⟩ := Prod.mk.inj (Option.some.inj h)
    obtain ⟨rfl, rfl⟩ := Prod.mk.inj hrest
    exact ⟨hrun, rfl, rfl, rfl⟩
  | true =>
    obtain ⟨rfl, hrest⟩ := Prod.mk.inj (Option.some.inj hsubmit)
    obtain ⟨rfl, rfl⟩ := Prod.mk.inj hrest
    obtain ⟨s₂, hlog, h⟩ := Option.bind_eq_some_iff.mp h
    obtain ⟨s₃, hput, h⟩ := Option.bind_eq_some_iff.mp h
    obtain ⟨wal, _, hlog⟩ := Option.bind_eq_some_iff.mp hlog
    obtain ⟨memTable, _, hput⟩ := Option.bind_eq_some_iff.mp hput
    obtain rfl := Option.some.inj hlog
    obtain rfl := Option.some.inj hput
    obtain ⟨rfl, hrest⟩ := Prod.mk.inj (Option.some.inj h)
    obtain ⟨rfl, rfl⟩ := Prod.mk.inj hrest
    exact ⟨hrun, rfl, rfl, rfl⟩

/-- What a call that asks for a write does. -/
structure Written (unmarshal : Bytes → Option PutJSONRequest) (p p' : Process) (env : Env)
    (call : Call) (answer : Answer) (op : Op) (res : WriteResult) : Prop where
  write : call.write unmarshal = some op
  handle : ∃ sent, p.server.handle op env = some (p'.server, res, sent)
  acknowledges : answer.acknowledges = true ↔ res.err = none
  tells : res.err = none → answer.Tells res.index res.term

/-- A frame with a write is answered by the handler of the write. -/
private theorem serveFrame_write {s s' : StagwayServer} {headerBuf key val out : Bytes}
    {handled : Option (StagwayServer × WriteResult × List Consensus.Packet)}
    (hrespond : Conn.respond (undisturbed fun _ => env) ⟨s, 0, [], []⟩
      (.request headerBuf key val) = Conn.respondWrite ⟨s, 0, [], []⟩ handled)
    (h : Process.serveFrame s headerBuf key val env = some (s', out)) :
    ∃ res sent, handled = some (s', res, sent) ∧ out = sendWriteResponse res := by
  rw [Process.serveFrame, hrespond] at h
  cases handled with
  | none => cases h
  | some r =>
    obtain ⟨server, res, sent⟩ := r
    obtain ⟨rfl, rfl⟩ := Prod.mk.inj (Option.some.inj h)
    exact ⟨res, sent, rfl, List.nil_append _⟩

/-- Every other frame leaves the server. -/
private theorem serveFrame_other {s s' : StagwayServer} {headerBuf key val out : Bytes}
    (hput : headerOp headerBuf ≠ opPut) (hdelete : headerOp headerBuf ≠ opTombstone)
    (h : Process.serveFrame s headerBuf key val env = some (s', out)) : s' = s := by
  rw [Process.serveFrame, Conn.respond] at h
  simp only [hput, hdelete, if_false] at h
  split at h
  next c hc =>
    obtain ⟨rfl, _⟩ := Prod.mk.inj (Option.some.inj h)
    split at hc
    · simp only [Conn.respondRead] at hc
      split at hc
      · cases hc
      · split at hc
        · cases hc
        · obtain rfl := Except.ok.inj hc
          rfl
    · obtain rfl := Except.ok.inj hc
      rfl
  next => cases h

/-- The response to a write on a connection. -/
theorem written_tcp {p : Process} {s' : StagwayServer} {r : RaftNode}
    {headerBuf key val out : Bytes} {op : Op} (hrunning : p.server.running = true)
    (hraft : p.server.raft = some r)
    (hwrite : (Call.tcp headerBuf key val).write unmarshal = some op)
    (hrespond : Conn.respond (undisturbed fun _ => env) ⟨p.server, 0, [], []⟩
      (.request headerBuf key val) =
        Conn.respondWrite ⟨p.server, 0, [], []⟩ (p.server.handle op env))
    (h : Process.serveFrame p.server headerBuf key val env = some (s', out)) :
    ∃ res, Written unmarshal p { p with server := s' } env (.tcp headerBuf key val) (.tcp out) op
      res := by
  obtain ⟨res, sent, hrun, rfl⟩ := serveFrame_write hrespond h
  obtain ⟨r', idx, term, isLeader, _, _, _, hres⟩ := handle_raft hrunning hraft hrun
  refine ⟨res, hwrite, ⟨sent, hrun⟩, ?_, ?_⟩
  · cases isLeader with
    | false => simp [hres, Answer.acknowledges, sendWriteResponse, flag]
    | true => simp [hres, Answer.acknowledges, sendWriteResponse, flag]
  · intro herr
    cases isLeader with
    | false => simp [hres] at herr
    | true => simp [hres, Answer.Tells]

/-- **A call** makes the write it asks for, and is answered accordingly; or it asks for none, and
    changes nothing. -/
theorem serve_cases {r : RaftNode} (hrunning : p.server.running = true)
    (hraft : p.server.raft = some r)
    (h : p.serve unmarshal flags env call = some (p', answer)) :
    p'.consumed = p.consumed ∧
      ((∃ op res, Written unmarshal p p' env call answer op res) ∨
        (call.write unmarshal = none ∧ p' = p)) := by
  cases call with
  | http req =>
    obtain ⟨⟨server, resp, sent⟩, hrun, h⟩ := Option.bind_eq_some_iff.mp h
    obtain ⟨rfl, rfl⟩ := Prod.mk.inj (Option.some.inj h)
    refine ⟨rfl, ?_⟩
    rcases Gateway.serveHTTP_cases hrun with
      ⟨op, hop, res, hhandle, hstatus, hbody⟩ | ⟨hnone, hs, _⟩
    · exact Or.inl ⟨op, res, hop, ⟨sent, hhandle⟩, by simpa [Answer.acknowledges] using hstatus,
        hbody⟩
    · obtain rfl : server = p.server := hs
      exact Or.inr ⟨hnone, rfl⟩
  | tcp headerBuf key val =>
    obtain ⟨⟨server, out⟩, hrun, h⟩ := Option.bind_eq_some_iff.mp h
    obtain ⟨rfl, rfl⟩ := Prod.mk.inj (Option.some.inj h)
    refine ⟨rfl, ?_⟩
    by_cases hput : headerOp headerBuf = opPut
    · have hwrite : (Call.tcp headerBuf key val).write unmarshal = some (.put key val) :=
        if_pos hput
      obtain ⟨res, hwritten⟩ := written_tcp hrunning hraft hwrite (if_pos hput) hrun
      exact Or.inl ⟨_, res, hwritten⟩
    by_cases hdelete : headerOp headerBuf = opTombstone
    · have hwrite : (Call.tcp headerBuf key val).write unmarshal = some (.delete key) :=
        (if_neg hput).trans (if_pos hdelete)
      have hget : headerOp headerBuf ≠ opGet := by
        rw [hdelete]
        decide
      obtain ⟨res, hwritten⟩ := written_tcp hrunning hraft hwrite
        ((if_neg hput).trans ((if_neg hget).trans (if_pos hdelete))) hrun
      exact Or.inl ⟨_, res, hwritten⟩
    · obtain rfl := serveFrame_other hput hdelete hrun
      exact Or.inr ⟨(if_neg hput).trans (if_neg hdelete), rfl⟩

end Calls

/-! ### The Raft node of a process -/

section Alone

variable {unmarshal flags} {p p' : Process} {life : List Op} {r : RaftNode} {w w' : World}
  {x : Event} {events : List Event}

/-- The process serves, and its Raft node holds the writes of its life. -/
structure Alone (p : Process) (life : List Op) (r : RaftNode) : Prop where
  running : p.server.running = true
  raft : p.server.raft = some r
  solo : Solo r life
  consumed : p.consumed = 0

/-- **A write** is acknowledged, with the next index and term 1, if the node leads; otherwise it
    changes nothing. -/
theorem Alone.write (h : Alone p life r) {env : Env} {call : Call} {answer : Answer} {op : Op}
    (hop : call.write unmarshal = some op)
    (hserve : p.serve unmarshal flags env call = some (p', answer)) :
    (r.role = .leader ∧ answer.acknowledges = true ∧ answer.Tells (life.length + 1) 1 ∧
        ∃ r', Alone p' (life ++ [op]) r') ∨
      (r.role ≠ .leader ∧ answer.acknowledges = false ∧ p' = p) := by
  obtain ⟨hconsumed, ⟨op', res, hwritten⟩ | ⟨hnone, _⟩⟩ := serve_cases h.running h.raft hserve
  · obtain rfl : op' = op := Option.some.inj (hwritten.write.symm.trans hop)
    obtain ⟨sent, hrun⟩ := hwritten.handle
    obtain ⟨r', idx, term, isLeader, hsubmit, hrunning, hraft, hres⟩ :=
      handle_raft h.running h.raft hrun
    rcases h.solo.submit hsubmit with ⟨hrole, _, hrefused⟩ | ⟨hrole, hsolo, haccepted⟩
    · obtain rfl : isLeader = false := hrefused
      have herr : res.err ≠ none := by simp [hres]
      refine Or.inr ⟨hrole, ?_, ?_⟩
      · rwa [Bool.eq_false_iff, ne_eq, hwritten.acknowledges]
      · obtain ⟨server, consumed⟩ := p
        obtain ⟨server', consumed'⟩ := p'
        obtain rfl : server' = server := (Gateway.handle_refused hrun herr).1
        obtain rfl : consumed' = consumed := hconsumed
        rfl
    · obtain ⟨rfl, hrest⟩ := Prod.mk.inj haccepted
      obtain ⟨rfl, rfl⟩ := Prod.mk.inj hrest
      subst hres
      exact Or.inl ⟨hrole, hwritten.acknowledges.mpr rfl, hwritten.tells rfl, r', hrunning, hraft,
        hsolo, hconsumed.trans h.consumed⟩
  · cases hnone.symm.trans hop

/-- A call adds what it acknowledges to the life of the node. -/
theorem Alone.serve (h : Alone p life r) {env : Env} {call : Call} {answer : Answer}
    (hserve : p.serve unmarshal flags env call = some (p', answer)) :
    ∃ r', Alone p' (life ++ if answer.acknowledges then (call.write unmarshal).toList else [])
      r' := by
  cases hop : call.write unmarshal with
  | none =>
    obtain ⟨_, ⟨op, res, hwritten⟩ | ⟨_, rfl⟩⟩ := serve_cases h.running h.raft hserve
    · cases hop.symm.trans hwritten.write
    · exact ⟨r, by simpa using h⟩
  | some op =>
    obtain ⟨_, hack, _, hnext⟩ | ⟨_, hack, rfl⟩ := h.write hop hserve
    · simpa [hack] using hnext
    · exact ⟨r, by simpa [hack] using h⟩

/-- An election makes the node leader and nothing else. -/
theorem Alone.electionTick (h : Alone p life r) (hrun : p.electionTick = .ok p') :
    ∃ r', p' = { p with server := { p.server with raft := some r' } } ∧ Alone p' life r' := by
  rw [Process.electionTick, h.raft] at hrun
  dsimp only at hrun
  split at hrun
  next henabled =>
    obtain ⟨⟨r', votes, sent⟩, hstart, hrest⟩ :=
      Option.bind_eq_some_iff.mp (orPanic_eq_ok.mp hrun)
    obtain rfl := Option.some.inj hrest
    exact ⟨r', rfl, h.running, rfl, h.solo.startElection henabled.2 hstart, h.consumed⟩
  next => cases hrun

/-- A heartbeat changes nothing. -/
theorem Alone.heartbeatTick (h : Alone p life r) (hrun : p.heartbeatTick = .ok p') : p' = p := by
  rw [Process.heartbeatTick, h.raft] at hrun
  dsimp only at hrun
  split at hrun
  · rw [h.solo.broadcastHeartbeats] at hrun
    exact (Except.ok.inj hrun).symm
  · cases hrun

/-- There is nothing to apply. -/
theorem Alone.apply (h : Alone p life r) {newLevel : ℕ} : p.apply newLevel ≠ .ok p' := by
  simp [Process.apply, h.raft, h.solo.applyCh]

/-- What a step of a machine that is up has done. -/
inductive Happens (unmarshal : Bytes → Option PutJSONRequest) (flags : Flags) (w : World)
    (p : Process) : Event → World → Prop
  | runs {x : Event} {p' : Process} (hrun : (x = .electionTick ∧ p.electionTick = .ok p') ∨
      (x = .heartbeatTick ∧ p.heartbeatTick = .ok p') ∨
      (∃ newLevel, x = .apply newLevel ∧ p.apply newLevel = .ok p')) :
      Happens unmarshal flags w p x { w with machine := .up p' }
  | serve {call : Call} {env : Env} {p' : Process} {answer : Answer} {acked : List Op}
      (hserve : p.serve unmarshal flags env call = some (p', answer))
      (hacked : acked = if answer.acknowledges then (call.write unmarshal).toList else []) :
      Happens unmarshal flags w p (.serve call env)
        ⟨.up p', w.logged ++ acked, w.acked ++ acked, w.life ++ acked⟩
  | ends {x : Event} (hfile : x = .signal ∨ x = .crash) :
      Happens unmarshal flags w p x { w with machine := .down p.file }
  | cutOff {call : Call} {disk : Disk} {op : Op} {s s' : StagwayServer} {res : WriteResult}
      {sent : List Consensus.Packet} (hop : call.write unmarshal = some op)
      (hsubmit : p.server.submit op = some (s, res, sent)) (hlog : s.logWAL op disk = some s') :
      Happens unmarshal flags w p (.crashIn call disk)
        { w with machine := .down (s'.wal.map WAL.file), logged := w.logged ++ [op] }

/-- A process that is up does something besides serving. -/
theorem runs_of_ok {logged acked : List Op} {f : Process → Except Fault Process}
    (h : World.runs ⟨.up p, logged, acked, life⟩ f = .ok w') :
    ∃ p', f p = .ok p' ∧ w' = ⟨.up p', logged, acked, life⟩ := by
  simp only [World.runs] at h
  cases hf : f p with
  | error e =>
    rw [hf] at h
    cases h
  | ok p' =>
    rw [hf] at h
    exact ⟨p', rfl, (Except.ok.inj h).symm⟩

/-- Stopping leaves the file. -/
theorem shutdown_file (p : Process) : p.shutdown.file = p.file := by
  rw [Process.file, Process.file, Process.shutdown, Option.map_map]
  rfl

/-- **One step**: the daemon starts, or something happens while it is up. -/
theorem step_cases (h : w.step unmarshal flags x = .ok w') :
    (∃ file level p, w.machine = .down file ∧ x = .boot level ∧
        Process.boot flags file level = some p ∧ w' = { w with machine := .up p, life := [] }) ∨
      ∃ p, w.machine = .up p ∧ Happens unmarshal flags w p x w' := by
  obtain ⟨machine, logged, acked, life⟩ := w
  cases machine with
  | down file =>
    cases x with
    | boot level =>
      obtain ⟨p, hboot, hrest⟩ := Option.bind_eq_some_iff.mp (orPanic_eq_ok.mp h)
      exact Or.inl ⟨file, level, p, rfl, rfl, hboot, (Option.some.inj hrest).symm⟩
    | _ => cases h
  | up p =>
    refine Or.inr ⟨p, rfl, ?_⟩
    cases x with
    | boot level => cases h
    | electionTick =>
      obtain ⟨p', hrun, rfl⟩ := runs_of_ok h
      exact .runs (Or.inl ⟨rfl, hrun⟩)
    | heartbeatTick =>
      obtain ⟨p', hrun, rfl⟩ := runs_of_ok h
      exact .runs (Or.inr (Or.inl ⟨rfl, hrun⟩))
    | apply newLevel =>
      obtain ⟨p', hrun, rfl⟩ := runs_of_ok (f := fun p => p.apply newLevel) h
      exact .runs (Or.inr (Or.inr ⟨newLevel, rfl, hrun⟩))
    | serve call env =>
      obtain ⟨⟨p', answer⟩, hserve, hrest⟩ := Option.bind_eq_some_iff.mp (orPanic_eq_ok.mp h)
      obtain rfl := Option.some.inj hrest
      exact .serve hserve rfl
    | signal =>
      obtain rfl := Except.ok.inj h
      rw [shutdown_file]
      exact .ends (Or.inl rfl)
    | crash =>
      obtain rfl := Except.ok.inj h
      exact .ends (Or.inr rfl)
    -- the call has been submitted and logged, and its answer is lost with the process
    | crashIn call disk =>
      simp only [World.step, World.cutOff] at h
      split at h
      next p₁ op hp hop =>
        obtain rfl := Machine.up.inj hp
        split at h
        next =>
          obtain ⟨⟨s₁, res, sent⟩, hsubmit, hrest⟩ :=
            Option.bind_eq_some_iff.mp (orPanic_eq_ok.mp h)
          obtain ⟨s₂, hlog, hrest⟩ := Option.bind_eq_some_iff.mp hrest
          obtain rfl := Option.some.inj hrest
          exact .cutOff hop hsubmit hlog
        next => cases h
      next => cases h

/-- Whatever is up is alone. -/
def AloneOk (w : World) : Prop := ∀ p, w.machine = .up p → ∃ r, Alone p w.life r

/-- **Every event** keeps the node of the running process alone. -/
theorem AloneOk.step (h : AloneOk w) (hstep : w.step unmarshal flags x = .ok w') : AloneOk w' := by
  rcases step_cases hstep with ⟨file, level, p, _, _, hboot, rfl⟩ | ⟨p, hp, hhappens⟩
  · intro p' hp'
    obtain rfl := Machine.up.inj hp'
    obtain ⟨m, _, hboot⟩ := Option.bind_eq_some_iff.mp hboot
    obtain rfl := Option.some.inj hboot
    exact ⟨_, rfl, rfl, solo_new flags.nodeID, rfl⟩
  · obtain ⟨r, halone⟩ := h p hp
    cases hhappens with
    | runs hrun =>
      intro p' hp'
      obtain rfl := Machine.up.inj hp'
      rcases hrun with ⟨_, hrun⟩ | ⟨_, hrun⟩ | ⟨newLevel, _, hrun⟩
      · obtain ⟨r', _, halone'⟩ := halone.electionTick hrun
        exact ⟨r', halone'⟩
      · obtain rfl := halone.heartbeatTick hrun
        exact ⟨r, halone⟩
      · exact absurd hrun halone.apply
    | serve hserve hacked =>
      intro p' hp'
      obtain rfl := Machine.up.inj hp'
      rw [hacked]
      exact halone.serve hserve
    | ends _ =>
      intro p' hp'
      cases hp'
    | cutOff _ _ _ =>
      intro p' hp'
      cases hp'

/-- **Receipts of the shipped daemon.**  Whatever the disk does: the Raft node of a daemon that is
    up holds the writes acknowledged in this life, has committed none of them, and has sent
    nothing on the apply channel.  If it leads, the next write is acknowledged with the number of
    the write in this life as its index, and with term 1; otherwise nothing has been acknowledged
    in this life, and a write is refused and changes nothing. -/
theorem solo_receipts (hs : World.Reached unmarshal flags events w) {p : Process}
    (hp : w.machine = .up p) :
    ∃ r, p.server.raft = some r ∧ r.log = dummyEntry :: entriesOf w.life ∧ r.commitIndex = 0 ∧
      r.applyCh = some [] ∧
      ∀ env call op p' answer, call.write unmarshal = some op →
        p.serve unmarshal flags env call = some (p', answer) →
        (r.role = .leader ∧ answer.acknowledges = true ∧ answer.Tells (w.life.length + 1) 1) ∨
          (w.life = [] ∧ answer.acknowledges = false ∧ p' = p) := by
  have hok : AloneOk w := Run.Reached.invariant (I := fun _ w => AloneOk w)
    (fun p hp => by cases hp) (fun _ h hstep => h.step hstep) hs
  obtain ⟨r, halone⟩ := hok p hp
  refine ⟨r, halone.raft, halone.solo.log, halone.solo.commitIndex, halone.solo.applyCh, ?_⟩
  intro env call op p' answer hop hserve
  rcases halone.write hop hserve with ⟨hlead, hack, htells, _⟩ | ⟨hrole, hack, hsame⟩
  · exact Or.inl ⟨hlead, hack, htells⟩
  · obtain ⟨_, _, hlife⟩ | ⟨hlead, _⟩ := halone.solo.role
    · exact Or.inr ⟨hlife, hack, hsame⟩
    · exact absurd hlead hrole

/-- The daemon starts, wins its election, acknowledges a put over HTTP, crashes and starts again. -/
def putThenRestart : List Event :=
  [.boot fun _ => 1, .electionTick, .serve (.http ⟨.post, "/put", some [], []⟩) ⟨Disk.ok, 1⟩,
    .crash, .boot fun _ => 1]

/-- The flags that the daemon has by default. -/
def defaultFlags : Flags := ⟨1, 50051, 8080⟩

/-- A decoder that finds the same put in every body. -/
def onePut (_ : Bytes) : Option PutJSONRequest := some ⟨[7], [9]⟩

/-- Whether the daemon is up. -/
def Machine.isUp : Machine → Bool
  | .up _ => true
  | .down _ => false

/-- The process of a machine that is up. -/
theorem Machine.exists_up {machine : Machine} (h : machine.isUp = true) :
    ∃ p, machine = .up p := by
  cases machine with
  | up p => exact ⟨p, rfl⟩
  | down _ => cases h

/-- After the crash no write is acknowledged before the next election. -/
theorem solo_receipts_restart : ∃ w p, World.Reached onePut defaultFlags putThenRestart w ∧
    w.machine = .up p ∧ w.acked = [.put [7] [9]] ∧ w.life = [] ∧
    ∃ r, p.server.raft = some r ∧ r.log = [dummyEntry] ∧ r.applyCh = some [] := by
  obtain ⟨w, hw, hview⟩ := Run.exists_reached (World.step onePut defaultFlags) World.fresh
    putThenRestart (fun w => (w.machine.isUp, w.acked, w.life)) (true, [.put [7] [9]], [])
    (by decide +kernel)
  rw [Prod.mk.injEq, Prod.mk.injEq] at hview
  obtain ⟨hup, hacked, hlife⟩ := hview
  obtain ⟨p, hp⟩ := Machine.exists_up hup
  obtain ⟨r, hraft, hlog, _, hch, _⟩ := solo_receipts hw hp
  rw [hlife] at hlog
  exact ⟨w, p, hw, hp, hacked, hlife, r, hraft, hlog, hch⟩

end Alone

/-! ### The log and the table -/

section Invariant

variable {unmarshal flags} {w w' : World} {x : Event} {events : List Event}

/-- What the environment grants: heights that `randomLevel` may return, records that fit, and a
    disk that takes the whole record of a write. -/
def Event.Granted (unmarshal : Bytes → Option PutJSONRequest) : Event → Prop
  | .boot level => ∀ i, LevelOk defaultMemTableOptions (level i)
  | .serve call env => LevelOk defaultMemTableOptions env.newLevel ∧
      ∀ op, call.write unmarshal = some op → op.entry.Fits ∧
        ∀ n, env.disk.failedAfter = some n → op.entry.record.length ≤ n
  | .crashIn call disk => ∀ op, call.write unmarshal = some op → op.entry.Fits ∧
      ∀ n, disk.failedAfter = some n → op.entry.record.length ≤ n
  | _ => True

/-- The process holds the logged writes in its log, which is open, and in its table. -/
structure Up (p : Process) (logged : List Op) (wal : WAL) (m : MemTable) : Prop where
  holds : Holds (newMemTable defaultMemTableOptions) [] ⟨p.server, logged⟩ wal m
  isOpen : wal.closed = false

/-- The log file holds the logged writes, whether the daemon is up or down. -/
def WorldOk (w : World) : Prop :=
  match w.machine with
  | .down file => Recorded (file.getD []) w.logged
  | .up p => ∃ wal m, Up p w.logged wal m

/-- The file of a process is that of its log. -/
theorem Up.file {p : Process} {logged : List Op} {wal : WAL} {m : MemTable}
    (h : Up p logged wal m) : p.file = some wal.file := by
  have hwal : p.server.wal = some wal := h.holds.wal
  rw [Process.file, hwal]
  rfl

/-- Up or down, the file holds the logged writes. -/
theorem WorldOk.recorded (h : WorldOk w) : Recorded w.file w.logged := by
  unfold WorldOk at h
  unfold World.file
  split at h
  · exact h
  · obtain ⟨wal, m, hup⟩ := h
    rw [hup.file]
    exact hup.holds.recorded

/-- **A start** replays the logged writes. -/
theorem boot_up {file : Option Bytes} {logged : List Op} {level : ℕ → ℕ} {p : Process}
    (hfile : Recorded (file.getD []) logged)
    (hlevel : ∀ i, LevelOk defaultMemTableOptions (level i))
    (h : Process.boot flags file level = some p) : ∃ wal m, Up p logged wal m := by
  obtain ⟨m, hreplay, hboot⟩ := Option.bind_eq_some_iff.mp h
  obtain rfl := Option.some.inj hboot
  obtain ⟨rebuilt, _, hrebuilt, hmodels⟩ := hfile.replay defaultMemTableOptions hlevel
  obtain rfl : m = rebuilt := Option.some.inj (hreplay.symm.trans hrebuilt)
  exact ⟨openWAL defaultWALOptions file, m,
    ⟨rfl, rfl, rfl, Daemon.replayInto_opts hreplay, hfile, hmodels⟩, rfl⟩

/-- **A call** keeps log and table together, as the write of a session does. -/
theorem Up.serve {p p' : Process} {logged : List Op} {wal : WAL} {m : MemTable} {r : RaftNode}
    (h : Up p logged wal m) (hraft : p.server.raft = some r) {call : Call} {env : Env}
    {answer : Answer} (hgranted : (Event.serve call env).Granted unmarshal)
    (hserve : p.serve unmarshal flags env call = some (p', answer)) :
    ∃ wal' m', Up p' (logged ++ if answer.acknowledges then (call.write unmarshal).toList else [])
      wal' m' := by
  have hrunning : p.server.running = true := h.holds.running
  have hwal : p.server.wal = some wal := h.holds.wal
  obtain ⟨_, ⟨op, res, hwritten⟩ | ⟨hnone, rfl⟩⟩ := serve_cases hrunning hraft hserve
  · obtain ⟨sent, hrun⟩ := hwritten.handle
    obtain ⟨hfits, hdisk⟩ := hgranted.2 op hwritten.write
    have hwrites : WritesRecord wal op env.disk := ⟨h.isOpen, hfits, hdisk⟩
    have hlogged : (logged ++ if answer.acknowledges then (call.write unmarshal).toList else []) =
        if res.err.isNone then logged ++ [op] else logged := by
      rw [hwritten.write]
      by_cases herr : res.err = none
      · simp [herr, hwritten.acknowledges.mpr herr]
      · have hack : answer.acknowledges = false := by
          rwa [Bool.eq_false_iff, ne_eq, hwritten.acknowledges]
        simp [herr, hack]
    -- the same write in a session of the server
    have hstep : Session.step ⟨p.server, logged⟩ (.write op env) =
        .ok ⟨p'.server, logged ++ if answer.acknowledges then (call.write unmarshal).toList
          else []⟩ := by
      rw [hlogged]
      simp [Session.step, hrun, orPanic]
    obtain ⟨wal', m', hholds⟩ := h.holds.step (x := .write op env)
      (fun _ w hw => Option.some.inj (hwal.symm.trans hw) ▸ hwrites) hgranted.1 hstep
    refine ⟨wal', m', hholds, ?_⟩
    have hwal' : p'.server.wal = some wal' := hholds.wal
    obtain ⟨_, ⟨_, hsame, _⟩ | ⟨_, wal₁, _, _, happend, _, hlogged, _⟩⟩ :=
      handle_cases hrunning hwal h.holds.memTable hrun
    · obtain rfl := Option.some.inj (hsame.symm.trans hwal')
      exact h.isOpen
    · obtain rfl := Option.some.inj (hlogged.symm.trans hwal')
      exact (hwrites.append happend).2
  · exact ⟨wal, m, by simpa [hnone] using h⟩

/-- **One step** keeps the invariant. -/
theorem WorldOk.step (h : WorldOk w) (halone : AloneOk w) (hgranted : x.Granted unmarshal)
    (hstep : w.step unmarshal flags x = .ok w') : WorldOk w' := by
  rcases step_cases hstep with ⟨file, level, p, hdown, rfl, hboot, rfl⟩ | ⟨p, hp, hhappens⟩
  · rw [WorldOk, hdown] at h
    exact boot_up h hgranted hboot
  · obtain ⟨r, halone⟩ := halone p hp
    rw [WorldOk, hp] at h
    obtain ⟨wal, m, hup⟩ := h
    cases hhappens with
    | runs hrun =>
      -- an election, a heartbeat or a round of the apply loop, which has nothing to apply
      refine ⟨wal, m, ?_⟩
      rcases hrun with ⟨_, hrun⟩ | ⟨_, hrun⟩ | ⟨newLevel, _, hrun⟩
      · obtain ⟨r', rfl, _⟩ := halone.electionTick hrun
        obtain ⟨hrunning, hwal, hm, hopts, hrecorded, hmodels⟩ := hup.holds
        exact ⟨⟨hrunning, hwal, hm, hopts, hrecorded, hmodels⟩, hup.isOpen⟩
      · obtain rfl := halone.heartbeatTick hrun
        exact hup
      · exact absurd hrun halone.apply
    | serve hserve hacked =>
      rw [hacked]
      exact hup.serve halone.raft hgranted hserve
    | ends _ =>
      -- what is left is the file
      show Recorded (p.file.getD []) w.logged
      rw [hup.file]
      exact hup.holds.recorded
    | cutOff hop hsubmit hlog =>
      -- the record is in the file, and neither the table nor the client knows
      obtain ⟨hfits, hdisk⟩ := hgranted _ hop
      have hwal : p.server.wal = some wal := hup.holds.wal
      rw [← (StagwayServer.submit_keeps hsubmit).2.1] at hwal
      obtain ⟨wal', res, happend, rfl⟩ := (StagwayServer.logWAL_eq_some hwal).mp hlog
      obtain ⟨hfile, _⟩ := WritesRecord.append ⟨hup.isOpen, hfits, hdisk⟩ happend
      show Recorded wal'.file (w.logged ++ [_])
      rw [hfile]
      exact hup.holds.recorded.snoc hfits

/-- Whatever is acknowledged is logged. -/
theorem acked_sublist_step (h : w.acked.Sublist w.logged)
    (hstep : w.step unmarshal flags x = .ok w') : w'.acked.Sublist w'.logged := by
  rcases step_cases hstep with ⟨_, _, _, _, _, _, rfl⟩ | ⟨p, _, hhappens⟩
  · exact h
  · cases hhappens with
    | runs _ => exact h
    | serve _ _ => exact h.append (List.Sublist.refl _)
    | ends _ => exact h
    | cutOff _ _ _ => exact h.trans (List.sublist_append_left _ _)

/-- **Over every run** the file holds the logged writes, and a running process serves them. -/
theorem worldOk_of_reached (hgranted : ∀ x ∈ events, x.Granted unmarshal)
    (hs : World.Reached unmarshal flags events w) : WorldOk w := by
  have hfresh : WorldOk World.fresh := by
    show Recorded [] []
    exact ⟨rfl, by simp⟩
  refine (Run.Reached.along (I := fun w => WorldOk w ∧ AloneOk w)
    ⟨hfresh, fun p hp => by cases hp⟩ ?_ hs).1
  intro i u x u' hx hu hok hstep
  exact ⟨hok.1.step hok.2 (hgranted x (List.mem_of_getElem? hx)) hstep, hok.2.step hstep⟩

/-! ### Reads -/

/-- What a get over HTTP answers after a last write, or without one. -/
def httpAnswer (key : Bytes) : Option Op → HttpResponse
  | none => Gateway.respondJSON 404
      { success := false, key := key, message := Gateway.text "404 Key Not Found" }
  | some (.delete _) => Gateway.respondJSON 200
      { success := false
        key := key
        found := true
        tombstone := true
        message := Gateway.text "Key Deleted (Tombstone)" }
  | some (.put _ value) => Gateway.respondJSON 200
      { success := true, key := key, value := value, found := true }

section Reads

variable {p : Process} {logged : List Op} {wal : WAL} {m : MemTable} {env : Env}

/-- A running process reads the last logged write of a key. -/
theorem Up.getGeo (h : Up p logged wal m) (key : Bytes) :
    p.server.getGeo key = some ((written (lastWrite logged key)).1,
      (written (lastWrite logged key)).2.1, (written (lastWrite logged key)).2.2, none) := by
  have hrunning : p.server.running = true := h.holds.running
  have hmemTable : p.server.memTable = some m := h.holds.memTable
  have hmodels : Models m (contents logged) := h.holds.models
  simp [StagwayServer.getGeo, hrunning, hmemTable, hmodels.get_contents]

/-- A client over HTTP reads the last logged write of a key. -/
theorem Up.serve_http (h : Up p logged wal m) {req : HttpRequest} (hpath : req.path = "/get")
    (hkey : req.key ≠ []) :
    p.serve unmarshal flags env (.http req) =
      some (p, .http (httpAnswer req.key (lastWrite logged req.key))) := by
  have hget : Gateway.handleGet p.server req =
      some (httpAnswer req.key (lastWrite logged req.key)) := by
    rw [Gateway.handleGet, if_neg hkey, h.getGeo]
    cases lastWrite logged req.key with
    | none => rfl
    | some op => cases op <;> rfl
  simp [Process.serve, serveHTTP, hpath, hget]

/-- What is recorded leaves room for the six bytes before the value in a response. -/
theorem Up.short (h : Up p logged wal m) (key : Bytes) :
    (written (lastWrite logged key)).1.length < 2 ^ 32 - 6 := by
  cases hlast : lastWrite logged key with
  | none => simp [written]
  | some op =>
    have hmem : op ∈ logged := List.mem_reverse.mp (List.mem_of_find?_eq_some hlast)
    have hfit : headerSize + op.entry.key.length + op.entry.value.length < 2 ^ 32 :=
      h.holds.recorded.fits op hmem
    have hvalue : (written (some op)).1.length = op.entry.value.length := by cases op <;> rfl
    have hheader : headerSize = 13 := rfl
    omega

/-- A client over TCP reads the last logged write of a key. -/
theorem Up.serve_tcp (h : Up p logged wal m) {headerBuf key val : Bytes}
    (hop : headerOp headerBuf = opGet) :
    ∃ out, p.serve unmarshal flags env (.tcp headerBuf key val) = some (p, .tcp out) ∧
      Cli.readReadResponse out = some ((Cli.plainMap logged).answer (.get key), []) := by
  have hput : headerOp headerBuf ≠ opPut := by
    rw [hop]
    decide
  have hframe : ∃ out, Process.serveFrame p.server headerBuf key val env = some (p.server, out) ∧
      Cli.readReadResponse out = some ((Cli.plainMap logged).answer (.get key), []) := by
    have hread := Cli.readReadResponse_eq (h.short key) (Cli.written_empty _) []
    rw [← Cli.answer_get, List.append_nil] at hread
    refine ⟨_, ?_, hread⟩
    have hget : Conn.respond (undisturbed fun _ => env) ⟨p.server, 0, [], []⟩
        (.request headerBuf key val) =
          Conn.respondRead (undisturbed fun _ => env) ⟨p.server, 0, [], []⟩
            (p.server.getGeo key) :=
      (if_neg hput).trans (if_pos hop)
    rw [Process.serveFrame, hget, h.getGeo, Conn.respondRead]
    simp only [Cli.sendReadResponse_eq (h.short key)]
    rfl
  obtain ⟨out, hserve, hread⟩ := hframe
  refine ⟨out, ?_, hread⟩
  rw [Process.serve, hserve]
  rfl

end Reads

/-- **Reads over any number of lives.**  Let the daemon be started, stopped, crashed and restarted
    on one directory, and serve calls over HTTP and on connections in between, one at a time; let
    it crash within a call as well, when the write is logged and not answered; let the disk take
    the whole record of every write.  Then the log file consists of the records of the logged
    writes of all lives, in their order, all acknowledged writes are among them, and whenever the
    daemon is up, a get over HTTP or on a connection is answered with the last of them on its
    key. -/
theorem lives_serve (hgranted : ∀ x ∈ events, x.Granted unmarshal)
    (hs : World.Reached unmarshal flags events w) :
    w.acked.Sublist w.logged ∧
    w.file = Framing.frames Entry.record (w.logged.map Op.entry) ∧
    ∀ p, w.machine = .up p → ∀ env,
      (∀ r : HttpRequest, r.path = "/get" → r.key ≠ [] →
        p.serve unmarshal flags env (.http r) =
          some (p, .http (httpAnswer r.key (lastWrite w.logged r.key)))) ∧
      ∀ headerBuf key val, headerOp headerBuf = opGet → ∃ out,
        p.serve unmarshal flags env (.tcp headerBuf key val) = some (p, .tcp out) ∧
          Cli.readReadResponse out = some ((Cli.plainMap w.logged).answer (.get key), []) := by
  have hok := worldOk_of_reached hgranted hs
  have hacked : w.acked.Sublist w.logged := Run.Reached.invariant
    (I := fun _ w => w.acked.Sublist w.logged) (List.Sublist.refl _)
    (fun _ h hstep => acked_sublist_step h hstep) hs
  refine ⟨hacked, hok.recorded.file_eq, fun p hp env => ?_⟩
  rw [WorldOk, hp] at hok
  obtain ⟨wal, m, hup⟩ := hok
  exact ⟨fun r hpath hkey => hup.serve_http hpath hkey,
    fun headerBuf key val hop => hup.serve_tcp hop⟩

/-- A second put on the key is cut off between the log and its answer, and the daemon starts
    again. -/
def cutOffThenRestart : List Event :=
  [.boot fun _ => 1, .electionTick, .serve (.http ⟨.post, "/put", some [], []⟩) ⟨Disk.ok, 1⟩,
    .crashIn (.tcp [1] [7] [8]) Disk.ok, .boot fun _ => 1]

/-- The put that was not answered is read after the restart. -/
theorem lives_serve_restart : ∃ w p, World.Reached onePut defaultFlags cutOffThenRestart w ∧
    w.machine = .up p ∧ w.acked = [.put [7] [9]] ∧ w.logged = [.put [7] [9], .put [7] [8]] ∧
    ∀ env, p.serve onePut defaultFlags env (.http ⟨.get, "/get", none, [7]⟩) =
      some (p, .http (httpAnswer [7] (some (.put [7] [8])))) := by
  obtain ⟨w, hw, hview⟩ := Run.exists_reached (World.step onePut defaultFlags) World.fresh
    cutOffThenRestart (fun w => (w.machine.isUp, w.acked, w.logged))
    (true, [.put [7] [9]], [.put [7] [9], .put [7] [8]]) (by decide +kernel)
  rw [Prod.mk.injEq, Prod.mk.injEq] at hview
  obtain ⟨hup, hacked, hlogged⟩ := hview
  obtain ⟨p, hp⟩ := Machine.exists_up hup
  have hgranted : ∀ x ∈ cutOffThenRestart, x.Granted onePut := by
    have hlevel : LevelOk defaultMemTableOptions 1 := ⟨by decide, by decide⟩
    intro x hx
    simp only [cutOffThenRestart, List.mem_cons, List.not_mem_nil, or_false] at hx
    rcases hx with rfl | rfl | rfl | rfl | rfl
    · exact fun _ => hlevel
    · trivial
    · refine ⟨hlevel, fun op hop => ?_⟩
      obtain rfl : Op.put [7] [9] = op := Option.some.inj hop
      exact ⟨by decide, by simp [Disk.ok]⟩
    · intro op hop
      obtain rfl : Op.put [7] [8] = op := Option.some.inj hop
      exact ⟨by decide, by simp [Disk.ok]⟩
    · exact fun _ => hlevel
  obtain ⟨_, _, hreads⟩ := lives_serve hgranted hw
  refine ⟨w, p, hw, hp, hacked, hlogged, fun env => ?_⟩
  rw [(hreads p hp env).1 _ rfl (by decide), hlogged]
  rfl

end Invariant

end Hallownest.Lives
