import Hallownest.Consensus.RaftTypes
import Hallownest.Lib.Slice

namespace Hallownest.Consensus

/-!
# Consensus — one node (`raft_node.go`)

Every function of `raft_node.go` that runs under the node's mutex, as a function on the
node.  `none` is a run-time panic (an index out of range); a function that starts
goroutines returns the packets they send.

Timers are not modelled: an election timeout or a heartbeat tick may happen at any time.
The two loops over the log are written by recursion on the number of rounds the Go loop
makes.
-/

/-- A node (`RaftNode`).  The maps `nextIndex` and `matchIndex` read `0` at a missing key.
    `applyCh` is `none` for a nil channel and otherwise lists what was sent on it. -/
structure RaftNode where
  id : Int
  peers : List Int
  currentTerm : Int
  votedFor : Int
  log : List RaftLogEntry
  commitIndex : Int
  lastApplied : Int
  role : Role
  nextIndex : Int → Int
  matchIndex : Int → Int
  applyCh : Option (List ApplyMsg)
  killed : Bool

/-- The dummy entry at position 0 of every log. -/
def dummyEntry : RaftLogEntry :=
  { index := 0, term := 0, key := [], value := [], tombstone := false }

/-- A fresh node (`NewRaftNode`). -/
def newRaftNode (id : Int) (peers : List Int) (applyCh : Option (List ApplyMsg)) : RaftNode where
  id := id
  peers := peers
  currentTerm := 0
  votedFor := -1
  log := [dummyEntry]
  commitIndex := 0
  lastApplied := 0
  role := .follower
  nextIndex := fun _ => 0
  matchIndex := fun _ => 0
  applyCh := applyCh
  killed := false

namespace RaftNode

/-- Number of votes or acknowledgements that make a majority: `(len(peers)+1)/2 + 1`. -/
def majorityNeeded (r : RaftNode) : Int := ((r.peers.length : Int) + 1) / 2 + 1

/-- Step down to follower in the given term. -/
def becomeFollower (r : RaftNode) (term : Int) : RaftNode :=
  { r with role := .follower, currentTerm := term, votedFor := -1 }

/-- The request `broadcastHeartbeats` builds for one peer: everything the leader holds from
    `nextIndex` on. -/
def heartbeatFor (r : RaftNode) (peerID : Int) : Option Packet := do
  let prevIndex := if r.nextIndex peerID - 1 < 0 then 0 else r.nextIndex peerID - 1
  let prev ← Slice.get r.log prevIndex
  let entries ← Slice.after r.log (prevIndex + 1)
  return .appendRequest peerID
    { term := r.currentTerm
      leaderID := r.id
      prevLogIndex := prevIndex
      prevLogTerm := prev.term
      entries := entries
      leaderCommit := r.commitIndex }

/-- Send an `AppendEntries` request to every peer. -/
def broadcastHeartbeats (r : RaftNode) : Option (List Packet) :=
  if r.role ≠ .leader then some [] else r.peers.mapM r.heartbeatFor

/-- Take over leadership: reset `nextIndex` and `matchIndex` of every peer, then send the
    first heartbeats. -/
def becomeLeader (r : RaftNode) : Option (RaftNode × List Packet) := do
  let r := { r with
    role := .leader
    nextIndex := fun p => if p ∈ r.peers then (r.log.length : Int) else r.nextIndex p
    matchIndex := fun p => if p ∈ r.peers then 0 else r.matchIndex p }
  let sent ← r.broadcastHeartbeats
  return (r, sent)

/-- Start an election.  The second component is the counter `votesReceived` that the
    goroutines of this election share. -/
def startElection (r : RaftNode) : Option (RaftNode × Int × List Packet) := do
  let r := { r with
    role := .candidate
    currentTerm := r.currentTerm + 1
    votedFor := r.id }
  let lastLogIndex : Int := r.log.length - 1
  let last ← Slice.get r.log lastLogIndex
  let votesReceived : Int := 1
  if votesReceived ≥ r.majorityNeeded then
    let (r, sent) ← r.becomeLeader
    return (r, votesReceived, sent)
  else
    return (r, votesReceived, r.peers.map fun peerID => .voteRequest peerID
      { term := r.currentTerm
        candidateID := r.id
        lastLogIndex := lastLogIndex
        lastLogTerm := last.term })

/-- The part of `startElection`'s goroutine that runs when the reply has arrived.
    `votesReceived` is the counter of the election the request belonged to. -/
def handleVoteReply (r : RaftNode) (args : RequestVoteArgs) (reply : RequestVoteReply)
    (votesReceived : Int) : Option (RaftNode × Int × List Packet) :=
  if r.role = .candidate ∧ r.currentTerm = args.term then
    if reply.term > r.currentTerm then some (r.becomeFollower reply.term, votesReceived, [])
    else if reply.voteGranted then
      if votesReceived + 1 ≥ r.majorityNeeded then do
        let (r, sent) ← r.becomeLeader
        return (r, votesReceived + 1, sent)
      else some (r, votesReceived + 1, [])
    else some (r, votesReceived, [])
  else some (r, votesReceived, [])

/-- The message sent on `applyCh` for an entry. -/
def applyMsg (entry : RaftLogEntry) : ApplyMsg where
  commandValid := true
  commandIndex := entry.index
  commandTerm := entry.term
  key := entry.key
  value := entry.value
  tombstone := entry.tombstone

/-- Send an entry on `applyCh`, if there is a channel and the entry is not the dummy. -/
def deliver (applyCh : Option (List ApplyMsg)) (entry : RaftLogEntry) : Option (List ApplyMsg) :=
  applyCh.map fun sent => if entry.index > 0 then sent ++ [applyMsg entry] else sent

/-- `n` rounds of the loop of `applyLogs`. -/
def applyLoop : ℕ → RaftNode → Option RaftNode
  | 0, r => some r
  | n + 1, r =>
    if r.commitIndex > r.lastApplied then do
      let entry ← Slice.get r.log (r.lastApplied + 1)
      applyLoop n { r with
        lastApplied := r.lastApplied + 1
        applyCh := deliver r.applyCh entry }
    else some r

/-- Deliver every committed entry that is not applied yet. -/
def applyLogs (r : RaftNode) : Option RaftNode :=
  applyLoop (r.commitIndex - r.lastApplied).toNat r

/-- Number of nodes known to hold the leader's log up to `N`, the leader included. -/
def matchCount (r : RaftNode) (N : Int) : Int :=
  1 + (r.peers.countP fun p => decide (r.matchIndex p ≥ N) : ℕ)

/-- `n` rounds of the loop of `checkAdvanceCommitIndex`, from position `N` downwards. -/
def advanceLoop : ℕ → Int → RaftNode → Option RaftNode
  | 0, _, r => some r
  | n + 1, N, r =>
    if N > r.commitIndex then do
      let entry ← Slice.get r.log N
      if entry.term ≠ r.currentTerm then advanceLoop n (N - 1) r
      else if r.matchCount N ≥ r.majorityNeeded then applyLogs { r with commitIndex := N }
      else advanceLoop n (N - 1) r
    else some r

/-- Commit the highest entry of the current term that a majority holds. -/
def checkAdvanceCommitIndex (r : RaftNode) : Option RaftNode :=
  advanceLoop ((r.log.length : Int) - 1 - r.commitIndex).toNat ((r.log.length : Int) - 1) r

/-- The part of `broadcastHeartbeats`'s goroutine that runs when the reply has arrived. -/
def handleAppendReply (r : RaftNode) (peerID : Int) (args : AppendEntriesArgs)
    (reply : AppendEntriesReply) : Option RaftNode :=
  if r.role = .leader ∧ r.currentTerm = args.term then
    if reply.term > r.currentTerm then some (r.becomeFollower reply.term)
    else if reply.success then
      let next := args.prevLogIndex + args.entries.length + 1
      checkAdvanceCommitIndex { r with
        nextIndex := fun p => if p = peerID then next else r.nextIndex p
        matchIndex := fun p => if p = peerID then next - 1 else r.matchIndex p }
    else if r.nextIndex peerID > 1 then
      some { r with
        nextIndex := fun p => if p = peerID then r.nextIndex p - 1 else r.nextIndex p }
    else some r
  else some r

/-- Handle a vote request. -/
def requestVote (r : RaftNode) (args : RequestVoteArgs) :
    Option (RaftNode × RequestVoteReply) := do
  let r := if args.term > r.currentTerm then r.becomeFollower args.term else r
  if args.term < r.currentTerm then
    return (r, { term := r.currentTerm, voteGranted := false })
  let lastLogIndex : Int := r.log.length - 1
  let last ← Slice.get r.log lastLogIndex
  let logUpToDate := args.lastLogTerm > last.term ∨
    (args.lastLogTerm = last.term ∧ args.lastLogIndex ≥ lastLogIndex)
  if (r.votedFor = -1 ∨ r.votedFor = args.candidateID) ∧ logUpToDate then
    return ({ r with votedFor := args.candidateID },
      { term := r.currentTerm, voteGranted := true })
  else
    return (r, { term := r.currentTerm, voteGranted := false })

/-- The loop of `appendEntries` over the entries of the request, from position `idx` on. -/
def appendNew : List RaftLogEntry → Int → List RaftLogEntry → Option (List RaftLogEntry)
  | log, _, [] => some log
  | log, idx, entry :: rest =>
    if idx < log.length then do
      let held ← Slice.get log idx
      if held.term ≠ entry.term then
        let kept ← Slice.upTo log idx
        appendNew (kept ++ [entry]) (idx + 1) rest
      else appendNew log (idx + 1) rest
    else appendNew (log ++ [entry]) (idx + 1) rest

/-- The end of `appendEntries`: follow the leader's commit index, clamped to the own log. -/
def followCommit (r : RaftNode) (leaderCommit : Int) : Option RaftNode :=
  if leaderCommit > r.commitIndex then
    applyLogs { r with
      commitIndex :=
        if leaderCommit < (r.log.length : Int) - 1 then leaderCommit
        else (r.log.length : Int) - 1 }
  else some r

/-- Handle an append request. -/
def appendEntries (r : RaftNode) (args : AppendEntriesArgs) :
    Option (RaftNode × AppendEntriesReply) := do
  let r := if args.term > r.currentTerm then r.becomeFollower args.term else r
  if args.term < r.currentTerm then
    return (r, { term := r.currentTerm, success := false })
  let r := { r with role := .follower }
  if args.prevLogIndex ≥ r.log.length then
    return (r, { term := r.currentTerm, success := false })
  let prev ← Slice.get r.log args.prevLogIndex
  if prev.term ≠ args.prevLogTerm then
    return (r, { term := r.currentTerm, success := false })
  let log ← appendNew r.log (args.prevLogIndex + 1) args.entries
  let r ← followCommit { r with log := log } args.leaderCommit
  return (r, { term := r.currentTerm, success := true })

/-- Propose a command.  Returns the node, what `Submit` returns (index, term, isLeader) and
    the requests sent. -/
def submit (r : RaftNode) (key value : Bytes) (tombstone : Bool) :
    Option (RaftNode × (Int × Int × Bool) × List Packet) :=
  if r.role ≠ .leader then some (r, (-1, r.currentTerm, false), [])
  else do
    let index : Int := r.log.length
    let entry : RaftLogEntry :=
      { index := index, term := r.currentTerm, key := key, value := value,
        tombstone := tombstone }
    let r := { r with log := r.log ++ [entry] }
    let sent ← r.broadcastHeartbeats
    return (r, (index, r.currentTerm, true), sent)

/-- The term of the node, and whether it leads (`GetState`). -/
def getState (r : RaftNode) : Int × Bool := (r.currentTerm, decide (r.role = .leader))

end RaftNode

end Hallownest.Consensus
