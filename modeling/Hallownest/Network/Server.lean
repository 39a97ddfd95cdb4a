import Hallownest.Bench.WAL
import Hallownest.Consensus.RaftNode
import Hallownest.Storage.Writes

namespace Hallownest.Network

open Bench (Disk WAL)
open Consensus (Packet RaftNode)
open Storage (MemTable Models Op contents lastWrite written)

/-!
# Network — the request handlers (`server.go`)

`PutGeo`, `GetGeo` and `FocusTombstone` of the Stagway server.  A component the server was
created without (a nil pointer) is `none`; `none` as the result of a function is a panic.
What the environment decides during a write (the outcome of the disk operations, the height
of a new node of the MemTable) is a parameter.  A write has three parts, each of which is one
critical section of the component it calls; other requests may come in between.

The connections are in `Network.Connection`, the listener and its accept loops in
`Network.Listener`.
-/

/-- Why the server refuses a request (`ErrServerClosed`, `ErrNotLeader`). -/
inductive ServerError
  | serverClosed
  | notLeader
  deriving DecidableEq, Repr

/-- The server (`StagwayServer`). -/
structure StagwayServer where
  raft : Option RaftNode
  memTable : Option MemTable
  wal : Option WAL
  running : Bool

/-- A server that is not started yet (`NewStagwayServer`). -/
def newStagwayServer (raft : Option RaftNode) (memTable : Option MemTable) (wal : Option WAL) :
    StagwayServer where
  raft := raft
  memTable := memTable
  wal := wal
  running := false

/-- What the environment decides during a write. -/
structure Env where
  disk : Disk
  newLevel : ℕ
  deriving DecidableEq, Repr

/-- What a write returns: index, term, `isLeader` and the error. -/
structure WriteResult where
  index : Int
  term : Int
  isLeader : Bool
  err : Option ServerError
  deriving DecidableEq, Repr

namespace StagwayServer

/-- The server accepts requests (`Start`). -/
def start (s : StagwayServer) : StagwayServer := { s with running := true }

/-- The server refuses requests (`Stop`). -/
def stop (s : StagwayServer) : StagwayServer := { s with running := false }

/-- The first part of a write: through Raft if there is a Raft node.  Returns what the write
    will return if nothing stops it, and the requests the Raft node sends. -/
def submit (s : StagwayServer) (op : Op) : Option (StagwayServer × WriteResult × List Packet) :=
  if !s.running then some (s, ⟨-1, -1, false, some .serverClosed⟩, [])
  else
    match s.raft with
    | some raft => do
      let (raft, (idx, term, isLeader), sent) ←
        raft.submit op.entry.key op.entry.value op.entry.tombstone
      let s := { s with raft := some raft }
      if !isLeader then return (s, ⟨-1, term, false, some .notLeader⟩, sent)
      else return (s, ⟨idx, term, true, none⟩, sent)
    | none => some (s, ⟨1, 1, true, none⟩, [])

/-- The server takes a write: it is running, and its Raft node, if it has one, leads. -/
def accepts (s : StagwayServer) : Bool :=
  s.running && s.raft.all fun raft => decide (raft.role = .leader)

/-- The second part: log to the local WAL, whatever it answers. -/
def logWAL (s : StagwayServer) (op : Op) (disk : Disk) : Option StagwayServer := do
  let wal ← s.wal.mapM fun w =>
    (w.append op.entry.key op.entry.value op.entry.tombstone disk).map Prod.fst
  return { s with wal := wal }

/-- The third part: write to the MemTable. -/
def putMemTable (s : StagwayServer) (op : Op) (newLevel : ℕ) : Option StagwayServer := do
  let memTable ← s.memTable.mapM fun m => m.apply op newLevel
  return { s with memTable := memTable }

/-- Logging a write that the log takes. -/
theorem logWAL_eq_some {s s' : StagwayServer} {op : Op} {disk : Disk} {w : WAL}
    (hw : s.wal = some w) : s.logWAL op disk = some s' ↔ ∃ w' r,
      w.append op.entry.key op.entry.value op.entry.tombstone disk = some (w', r) ∧
        s' = { s with wal := some w' } := by
  simp only [logWAL, hw, Option.mapM_some]
  cases w.append op.entry.key op.entry.value op.entry.tombstone disk with
  | none => simp
  | some res =>
    obtain ⟨w', r⟩ := res
    simp [eq_comm]

/-- Putting a write into the table. -/
theorem putMemTable_eq_some {s s' : StagwayServer} {op : Op} {newLevel : ℕ} {m : MemTable}
    (hm : s.memTable = some m) : s.putMemTable op newLevel = some s' ↔ ∃ m',
      m.apply op newLevel = some m' ∧ s' = { s with memTable := some m' } := by
  simp only [putMemTable, hm, Option.mapM_some]
  cases m.apply op newLevel with
  | none => simp
  | some m' => simp [eq_comm]

/-- The common body of `PutGeo` and `FocusTombstone`. -/
def write (s : StagwayServer) (op : Op) (env : Env) :
    Option (StagwayServer × WriteResult × List Packet) := do
  let (s, res, sent) ← s.submit op
  if res.err.isSome then return (s, res, sent)
  else do
    let s ← s.logWAL op env.disk
    let s ← s.putMemTable op env.newLevel
    return (s, res, sent)

/-- Write a value (`PutGeo`). -/
def putGeo (s : StagwayServer) (key value : Bytes) (env : Env) :
    Option (StagwayServer × WriteResult × List Packet) := s.write (.put key value) env

/-- Delete a key (`FocusTombstone`). -/
def focusTombstone (s : StagwayServer) (key : Bytes) (env : Env) :
    Option (StagwayServer × WriteResult × List Packet) := s.write (.delete key) env

/-- Look a key up in the MemTable (`GetGeo`): value, tombstone flag, whether it was found, and
    the error. -/
def getGeo (s : StagwayServer) (key : Bytes) :
    Option (Bytes × Bool × Bool × Option ServerError) :=
  if !s.running then some ([], false, false, some .serverClosed)
  else
    match s.memTable with
    | some m => do
      let (value, tombstone, found) ← m.get key
      return (value, tombstone, found, none)
    | none => some ([], false, false, none)

/-- The answer to a read of a server that has served the given writes. -/
def served (ops : List Op) (key : Bytes) : Bytes × Bool × Bool × Option ServerError :=
  ((written (lastWrite ops key)).1, (written (lastWrite ops key)).2.1,
    (written (lastWrite ops key)).2.2, none)

/-- **A running server answers a read from its table.** -/
theorem getGeo_of_models {s : StagwayServer} (hrunning : s.running = true) {m : MemTable}
    (hm : s.memTable = some m) {ops : List Op} (hmodels : Models m (contents ops)) (key : Bytes) :
    s.getGeo key = some (served ops key) := by
  simp only [getGeo, hrunning, hm, hmodels.get_contents key]
  rfl

/-- The first part of a write leaves the table and the log alone. -/
theorem submit_keeps {s s' : StagwayServer} {op : Op} {res : WriteResult} {sent : List Packet}
    (h : s.submit op = some (s', res, sent)) :
    s'.memTable = s.memTable ∧ s'.wal = s.wal ∧ s'.running = s.running := by
  rw [submit] at h
  split at h
  · obtain ⟨rfl, _⟩ := Prod.mk.inj (Option.some.inj h)
    exact ⟨rfl, rfl, rfl⟩
  · split at h
    next raft hraft =>
      obtain ⟨⟨raft', ⟨idx, term, isLeader⟩, out⟩, _, hrest⟩ := Option.bind_eq_some_iff.mp h
      cases isLeader
      all_goals
        obtain ⟨rfl, _⟩ := Prod.mk.inj (Option.some.inj hrest)
        exact ⟨rfl, rfl, rfl⟩
    next =>
      obtain ⟨rfl, _⟩ := Prod.mk.inj (Option.some.inj h)
      exact ⟨rfl, rfl, rfl⟩

/-- Handle one request: `PutGeo` for a put, `FocusTombstone` for a delete. -/
def handle (s : StagwayServer) (op : Op) (env : Env) :
    Option (StagwayServer × WriteResult × List Packet) :=
  match op with
  | .put key value => s.putGeo key value env
  | .delete key => s.focusTombstone key env

/-- The two handlers are one write, of a value or of a tombstone. -/
theorem handle_eq (s : StagwayServer) (op : Op) (env : Env) : s.handle op env = s.write op env := by
  cases op <;> rfl

/-- Handle a sequence of requests, one at a time. -/
def handleAll (s : StagwayServer) (reqs : List (Op × Env)) : Option StagwayServer :=
  reqs.foldlM (fun s req => (s.handle req.1 req.2).map Prod.fst) s

end StagwayServer

end Hallownest.Network
