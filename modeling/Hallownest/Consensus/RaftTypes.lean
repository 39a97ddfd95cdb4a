import Hallownest.Lib.Bytes
import Mathlib.Data.Int.Notation

namespace Hallownest.Consensus

/-!
# Consensus — the types of `raft_types.go`

Roles, log entries, the two RPCs with their replies, and the messages handed to the
storage engine.  Go's `int` is `Int`; a `[]byte` is a list of bytes.
-/

/-- Role of a node. -/
inductive Role
  | follower
  | candidate
  | leader
  deriving DecidableEq, Repr

/-- An entry of the Raft log. -/
structure RaftLogEntry where
  index : Int
  term : Int
  key : Bytes
  value : Bytes
  tombstone : Bool
  deriving DecidableEq, Repr

/-- Request sent by a candidate. -/
structure RequestVoteArgs where
  term : Int
  candidateID : Int
  lastLogIndex : Int
  lastLogTerm : Int
  deriving DecidableEq, Repr

/-- Answer to a `RequestVoteArgs`. -/
structure RequestVoteReply where
  term : Int
  voteGranted : Bool
  deriving DecidableEq, Repr

/-- Request sent by a leader, for replication and as a heartbeat. -/
structure AppendEntriesArgs where
  term : Int
  leaderID : Int
  prevLogIndex : Int
  prevLogTerm : Int
  entries : List RaftLogEntry
  leaderCommit : Int
  deriving DecidableEq, Repr

/-- Answer to an `AppendEntriesArgs`. -/
structure AppendEntriesReply where
  term : Int
  success : Bool
  deriving DecidableEq, Repr

/-- What the storage engine receives for a committed entry. -/
structure ApplyMsg where
  commandValid : Bool
  commandIndex : Int
  commandTerm : Int
  key : Bytes
  value : Bytes
  tombstone : Bool
  deriving DecidableEq, Repr

/-- An RPC in flight.  Each goroutine started by `startElection` or `broadcastHeartbeats`
    carries one: first the request on its way to `peer`, then, once `peer` has handled it,
    the reply on its way back.  The variables the goroutine captured are the fields of
    `args`, and the node it belongs to is the `candidateID` or `leaderID`. -/
inductive Packet
  | voteRequest (peer : Int) (args : RequestVoteArgs)
  | voteReply (peer : Int) (args : RequestVoteArgs) (reply : RequestVoteReply)
  | appendRequest (peer : Int) (args : AppendEntriesArgs)
  | appendReply (peer : Int) (args : AppendEntriesArgs) (reply : AppendEntriesReply)
  deriving DecidableEq, Repr

end Hallownest.Consensus
