import Hallownest.Record
import Mathlib.Data.Char
import Mathlib.Data.List.Lex

namespace Hallownest.Bench

/-!
# Bench — the write-ahead log (`wal.go`)

A log file is a byte string of records; a directory is a list of entries.

The outcome of `file.Write` and `file.Sync` is a parameter of `append`.  Reads return the
bytes of the file in order, so the only way a read fails is at the end of the file; opening
and seeking succeed.
-/

/-! ### Directories -/

/-- An entry of a directory. -/
structure DirEntry where
  name : List Char
  isDir : Bool
  data : Bytes
  deriving DecidableEq, Repr

/-- The extension of a file name: from its last dot on (`filepath.Ext`). -/
def ext (name : List Char) : List Char :=
  let after := (name.reverse.takeWhile (· ≠ '.')).reverse
  if after.length < name.length then '.' :: after else []

/-- Whether `ReplayWAL` reads an entry. -/
def isWAL (f : DirEntry) : Bool := !f.isDir && ext f.name == ['.', 'w', 'a', 'l']

/-- The result of a replay: the calls of `applyFn`, their number as counted, and the error. -/
structure Replay where
  applied : List LogEntry
  replayedCount : ℕ
  err : Option ReadError
  deriving DecidableEq, Repr

/-- The loop of `ReplayWAL` over the log files. -/
def replayFiles : List DirEntry → Replay
  | [] => { applied := [], replayedCount := 0, err := none }
  | f :: fs =>
    match Framing.decode readRecord f.data with
    | (items, some e) => { applied := items, replayedCount := items.length, err := some e }
    | (items, none) =>
      let r := replayFiles fs
      { applied := items ++ r.applied
        replayedCount := items.length + r.replayedCount
        err := r.err }

/-- Replay every log file of a directory in the order of their names (`ReplayWAL`); `none`
    is a directory that does not exist. -/
def replayWAL : Option (List DirEntry) → Replay
  | none => { applied := [], replayedCount := 0, err := none }
  | some dir =>
    replayFiles ((dir.filter isWAL).mergeSort fun f g => decide (f.name ≤ g.name))

/-! ### The log -/

/-- Options (`WALOptions`); the directory is an argument of `openWAL`, and the segment size is
    read nowhere. -/
structure WALOptions where
  syncOnWrite : Bool
  deriving DecidableEq, Repr

/-- Standard options (`DefaultWALOptions`). -/
def defaultWALOptions : WALOptions where
  syncOnWrite := true

/-- The log (`WAL`), with the contents of its file. -/
structure WAL where
  opts : WALOptions
  file : Bytes
  closed : Bool
  size : Int
  deriving DecidableEq, Repr

/-- Name of the log file. -/
def walName : List Char := ['b', 'e', 'n', 'c', 'h', '_', '0', '.', 'w', 'a', 'l']

/-- The directory that holds the log file and nothing else. -/
def walDir (file : Bytes) : List DirEntry :=
  [{ name := walName, isDir := false, data := file }]

/-- Open the log in a directory (`OpenWAL`); `file` is what its log file contains, if it has
    one.  The file is opened for appending, whatever it ends with. -/
def openWAL (opts : WALOptions) (file : Option Bytes) : WAL where
  opts := opts
  file := file.getD []
  closed := false
  size := (file.getD []).length

/-- Why the log refuses an operation. -/
inductive WALError
  | closed
  | write
  | sync
  | read (e : ReadError)
  deriving DecidableEq, Repr

/-- What the file system does: `failedAfter n` is an error of `Write` once `n` bytes are
    written. -/
structure Disk where
  failedAfter : Option ℕ
  syncOk : Bool
  deriving DecidableEq, Repr

/-- All writes succeed. -/
def Disk.ok : Disk where
  failedAfter := none
  syncOk := true

namespace WAL

/-- Append a record (`Append`). -/
def append (w : WAL) (key value : Bytes) (tombstone : Bool) (disk : Disk) :
    Option (WAL × Except WALError Int) :=
  if w.closed then some (w, .error .closed)
  else do
    let encoded ← encodeRecord key value tombstone
    match disk.failedAfter with
    | some n => return ({ w with file := w.file ++ encoded.take n }, .error .write)
    | none =>
      let w := { w with file := w.file ++ encoded, size := w.size + encoded.length }
      if w.opts.syncOnWrite && !disk.syncOk then return (w, .error .sync)
      else return (w, .ok encoded.length)

/-- Read the log from its beginning (`Recover`). -/
def recover (w : WAL) : Except WALError (List LogEntry) :=
  if w.closed then .error .closed
  else
    match Framing.decode readRecord w.file with
    | (entries, none) => .ok entries
    | (_, some e) => .error (.read e)

/-- Close the log (`Close`). -/
def close (w : WAL) : WAL := { w with closed := true }

end WAL

end Hallownest.Bench
