import Hallownest.Consensus.Handlers
import Hallownest.Consensus.Safety
import Hallownest.Daemon

namespace Hallownest

open Bench (Disk WAL)
open Consensus
open Network (StagwayServer WriteResult)
open Storage (MemTable Op)

/-!
# Deployment — a cluster of servers

Every node is a Stagway server over a Raft node, with the daemon's loop that writes applied
commands into the server's MemTable.  A write of a client is in progress from its `Submit` to
its return; its three parts are separate steps, and anything may happen between them.

A server acknowledges a write as soon as its Raft node, being leader, has appended it to its
own log.  What is applied at the acknowledged index is that write if every node that leads a
later term holds it (`acked_applied`); without that it may be another one
(`acked_write_lost`).
-/

/-- What a client is told about a write. -/
structure Reply where
  op : Op
  result : WriteResult
  deriving DecidableEq, Repr

/-- The log entry of an acknowledged write. -/
def Reply.command (r : Reply) : RaftLogEntry where
  index := r.result.index
  term := r.result.term
  key := r.op.entry.key
  value := r.op.entry.value
  tombstone := r.op.entry.tombstone

/-- A write in progress: the reply it will return, and whether it is in the WAL. -/
structure Call where
  id : Int
  reply : Reply
  logged : Bool
  deriving DecidableEq, Repr

/-- What a node has besides its Raft node.  The loop over `applyCh` has received `consumed`
    messages. -/
structure Host where
  memTable : Option MemTable
  wal : Option WAL
  running : Bool
  consumed : ℕ

/-- State of a deployment; `replies` are all replies so far. -/
structure Deployment where
  cluster : Cluster
  hosts : Int → Host
  calls : List Call
  replies : List Reply

/-- What may happen next: a step of the Raft nodes or the network, one of the parts of a write,
    a round of an apply loop, the start or stop of a server. -/
inductive Event
  | raft (act : Action)
  | submit (id : Int) (op : Op)
  | logWAL (k : ℕ) (disk : Disk)
  | putMemTable (k newLevel : ℕ)
  | apply (id : Int) (newLevel : ℕ)
  | start (id : Int)
  | stop (id : Int)
  deriving DecidableEq, Repr

namespace Deployment

/-! ### Steps -/

/-- The deployment before the first step. -/
def initial (cfg : Config) (hosts : Int → Host) : Deployment where
  cluster := Cluster.initial cfg
  hosts := hosts
  calls := []
  replies := []

/-- The server of a node. -/
def server (d : Deployment) (id : Int) : StagwayServer where
  raft := some (d.cluster.nodes id)
  memTable := (d.hosts id).memTable
  wal := (d.hosts id).wal
  running := (d.hosts id).running

/-- Replace what a node has besides its Raft node. -/
def setHost (d : Deployment) (id : Int) (h : Host) : Deployment :=
  { d with hosts := fun j => if j = id then h else d.hosts j }

/-- Replace the server of a node. -/
def setServer (d : Deployment) (id : Int) (s : StagwayServer) : Deployment :=
  { d.setHost id { d.hosts id with memTable := s.memTable, wal := s.wal, running := s.running } with
    cluster := d.cluster.setNode id (s.raft.getD (d.cluster.nodes id)) }

/-- What the apply loop does with a message. -/
def applyCommitted (m : MemTable) (msg : ApplyMsg) (newLevel : ℕ) : Option MemTable :=
  if msg.commandValid then
    if msg.tombstone then (m.delete msg.key newLevel).map Prod.fst
    else (m.put msg.key msg.value newLevel).map Prod.fst
  else some m

/-- The first part of a write at a node. -/
def submit (cfg : Config) (d : Deployment) (id : Int) (op : Op) : Except Fault Deployment :=
  if id ∈ cfg.ids then
    orPanic do
      let (s, res, sent) ← (d.server id).submit op
      let d := d.setServer id s
      let d := { d with cluster := d.cluster.send sent }
      -- a write that is refused returns at once
      if res.err.isSome then return { d with replies := d.replies ++ [⟨op, res⟩] }
      else return { d with calls := d.calls ++ [⟨id, ⟨op, res⟩, false⟩] }
  else .error .disabled

/-- The second part of the `k`-th write in progress. -/
def logWAL (d : Deployment) (k : ℕ) (disk : Disk) : Except Fault Deployment :=
  match d.calls[k]? with
  | some ⟨id, reply, false⟩ =>
    orPanic do
      let s ← (d.server id).logWAL reply.op disk
      return { d.setServer id s with calls := d.calls.set k ⟨id, reply, true⟩ }
  | _ => .error .disabled

/-- The third part of the `k`-th write in progress, after which it returns. -/
def putMemTable (d : Deployment) (k newLevel : ℕ) : Except Fault Deployment :=
  match d.calls[k]? with
  | some ⟨id, reply, true⟩ =>
    orPanic do
      let s ← (d.server id).putMemTable reply.op newLevel
      return { d.setServer id s with
        calls := d.calls.eraseIdx k
        replies := d.replies ++ [reply] }
  | _ => .error .disabled

/-- One round of the apply loop of a node. -/
def apply (d : Deployment) (id : Int) (newLevel : ℕ) : Except Fault Deployment :=
  match (d.cluster.nodes id).applyCh.bind fun sent => sent[(d.hosts id).consumed]? with
  | some msg =>
    orPanic do
      let memTable ← (d.hosts id).memTable.mapM fun m => applyCommitted m msg newLevel
      return d.setHost id
        { d.hosts id with memTable := memTable, consumed := (d.hosts id).consumed + 1 }
  | none => .error .disabled

/-- `Start` and `Stop` wait for the writes in progress, which hold the lock of the server. -/
def idle (d : Deployment) (id : Int) : Bool := d.calls.all fun c => c.id ≠ id

/-- One step. -/
def step (cfg : Config) (d : Deployment) : Event → Except Fault Deployment
  | .raft act => do
    let cluster ← d.cluster.step cfg act
    return { d with cluster := cluster }
  | .submit id op => d.submit cfg id op
  | .logWAL k disk => d.logWAL k disk
  | .putMemTable k newLevel => d.putMemTable k newLevel
  | .apply id newLevel => d.apply id newLevel
  | .start id =>
    if d.idle id then .ok (d.setServer id (d.server id).start) else .error .disabled
  | .stop id =>
    if d.idle id then .ok (d.setServer id (d.server id).stop) else .error .disabled

/-- `d` is reached from the initial deployment by the given events. -/
def Reached (cfg : Config) (hosts : Int → Host) (events : List Event) (d : Deployment) : Prop :=
  Run.Reached (step cfg) (initial cfg hosts) events d

/-! ### What a step does -/

variable {cfg : Config} {hosts : Int → Host} {events : List Event} {d d' : Deployment}

/-- The replies that are given or will be. -/
def answers (d : Deployment) : List Reply := d.calls.map Call.reply ++ d.replies

/-- The leader of the term of a reply has the write in its log. -/
def Accepted (cfg : Config) (s : Cluster) (r : Reply) : Prop :=
  ∃ id ∈ cfg.ids, (s.nodes id).role = .leader ∧ (s.nodes id).currentTerm = r.result.term ∧
    Slice.get (s.nodes id).log r.result.index = some r.command

private theorem accepted_of_node {s : Cluster} {r : Reply} {id : Int} {node : RaftNode}
    (hid : id ∈ cfg.ids) (hnode : s.nodes id = node)
    (h : node.role = .leader ∧ node.currentTerm = r.result.term ∧
      Slice.get node.log r.result.index = some r.command) : Accepted cfg s r :=
  ⟨id, hid, by rw [hnode]; exact h⟩

/-- A part of a write that leaves the Raft node alone. -/
theorem setServer_eq {id : Int} {s : StagwayServer} (h : s.raft = some (d.cluster.nodes id)) :
    d.setServer id s = d.setHost id
      { d.hosts id with memTable := s.memTable, wal := s.wal, running := s.running } := by
  have hcluster : d.cluster.setNode id (s.raft.getD (d.cluster.nodes id)) = d.cluster := by
    rw [h]
    exact setNode_self _ _
  rw [setServer, hcluster]
  rfl

/-- The reply to a write that a leader accepts. -/
def acceptance (d : Deployment) (id : Int) (op : Op) : Reply where
  op := op
  result := ⟨(d.cluster.nodes id).log.length, (d.cluster.nodes id).currentTerm, true, none⟩

theorem setHost_self (d : Deployment) (id : Int) : d.setHost id (d.hosts id) = d := by
  have hhosts : (fun j => if j = id then d.hosts id else d.hosts j) = d.hosts := by
    funext j
    split
    · rename_i hj; rw [hj]
    · rfl
  rw [setHost, hhosts]

private theorem setServer_self (d : Deployment) (id : Int) : d.setServer id (d.server id) = d := by
  rw [setServer_eq rfl]
  exact setHost_self d id

/-- The first part of a write is refused, by the server or by a Raft node that does not lead, or
    it is a `Submit` that appends the command. -/
theorem submit_cases {id : Int} {op : Op} {s : StagwayServer} {res : WriteResult}
    {sent : List Packet} (h : (d.server id).submit op = some (s, res, sent)) :
    (s = d.server id ∧ sent = [] ∧ res.err ≠ none) ∨
    ((d.cluster.nodes id).role = .leader ∧ res = (d.acceptance id op).result ∧
      ∃ r out, s = { d.server id with raft := some r } ∧
        r = { d.cluster.nodes id with
          log := (d.cluster.nodes id).log ++ [(d.acceptance id op).command] } ∧
        (d.cluster.nodes id).submit op.entry.key op.entry.value op.entry.tombstone =
          some (r, out, sent)) := by
  unfold StagwayServer.submit at h
  by_cases hrun : (d.server id).running = true
  · -- the server has a Raft node, so the write is its `Submit`
    rw [if_neg (by simp [hrun])] at h
    obtain ⟨⟨r, out, sent'⟩, hraft, hres⟩ := Option.bind_eq_some_iff.mp h
    rcases RaftNode.submit_cases hraft with ⟨_, rfl, rfl, rfl⟩ | ⟨hlead, hr, rfl, _⟩
    · obtain ⟨rfl, rfl, rfl⟩ : _ ∧ _ ∧ _ := by simpa using hres
      exact Or.inl ⟨rfl, rfl, by simp⟩
    · obtain ⟨rfl, rfl, rfl⟩ : _ ∧ _ ∧ _ := by simpa using hres
      exact Or.inr ⟨hlead, rfl, r, _, rfl, hr, hraft⟩
  · left
    rw [if_pos (by simpa using hrun)] at h
    obtain ⟨rfl, rfl, rfl⟩ : _ ∧ _ ∧ _ := by simpa using h
    exact ⟨rfl, rfl, by simp⟩

/-- What a step that takes place has done. -/
inductive Happens (cfg : Config) (d : Deployment) : Event → Deployment → Prop
  | raft {act : Action} {cluster : Cluster} (h : d.cluster.step cfg act = .ok cluster) :
      Happens cfg d (.raft act) { d with cluster := cluster }
  | refused {id : Int} {op : Op} {res : WriteResult} (herr : res.err ≠ none) :
      Happens cfg d (.submit id op) { d with replies := d.replies ++ [⟨op, res⟩] }
  | accepted {id : Int} {op : Op} {r : RaftNode} {sent : List Packet} (hid : id ∈ cfg.ids)
      (hlead : (d.cluster.nodes id).role = .leader)
      (hr : r = { d.cluster.nodes id with
        log := (d.cluster.nodes id).log ++ [(d.acceptance id op).command] })
      (h : d.cluster.step cfg (.submit id op.entry.key op.entry.value op.entry.tombstone) =
        .ok ((d.cluster.setNode id r).send sent)) :
      Happens cfg d (.submit id op)
        { d with
          cluster := (d.cluster.setNode id r).send sent
          calls := d.calls ++ [⟨id, d.acceptance id op, false⟩] }
  | logWAL {k : ℕ} {disk : Disk} {id : Int} {reply : Reply} {wal : Option WAL}
      (hcall : d.calls[k]? = some ⟨id, reply, false⟩) :
      Happens cfg d (.logWAL k disk)
        { d.setHost id { d.hosts id with wal := wal } with
          calls := d.calls.set k ⟨id, reply, true⟩ }
  | putMemTable {k newLevel : ℕ} {id : Int} {reply : Reply} {memTable : Option MemTable}
      (hcall : d.calls[k]? = some ⟨id, reply, true⟩)
      (hput : (d.hosts id).memTable.mapM (fun m => m.apply reply.op newLevel) = some memTable) :
      Happens cfg d (.putMemTable k newLevel)
        { d.setHost id { d.hosts id with memTable := memTable } with
          calls := d.calls.eraseIdx k
          replies := d.replies ++ [reply] }
  | apply {id : Int} {newLevel : ℕ} {sent : List ApplyMsg} {msg : ApplyMsg}
      {memTable : Option MemTable} (hsent : (d.cluster.nodes id).applyCh = some sent)
      (hmsg : sent[(d.hosts id).consumed]? = some msg)
      (happly : (d.hosts id).memTable.mapM (fun m => applyCommitted m msg newLevel) =
        some memTable) :
      Happens cfg d (.apply id newLevel)
        (d.setHost id
          { d.hosts id with memTable := memTable, consumed := (d.hosts id).consumed + 1 })
  | start {id : Int} : Happens cfg d (.start id) (d.setHost id { d.hosts id with running := true })
  | stop {id : Int} : Happens cfg d (.stop id) (d.setHost id { d.hosts id with running := false })

/-- **Inversion of a step.** -/
theorem step_happens {e : Event} (h : d.step cfg e = .ok d') : Happens cfg d e d' := by
  cases e with
  | raft act =>
    rw [step] at h
    cases hact : d.cluster.step cfg act with
    | error f => rw [hact] at h; cases h
    | ok c =>
      rw [hact] at h
      obtain rfl := Except.ok.inj h
      exact .raft hact
  | submit id op =>
    rw [step, submit] at h
    split at h
    case isFalse => cases h
    case isTrue hid =>
      obtain ⟨⟨s, res, sent⟩, hsub, hrest⟩ := Option.bind_eq_some_iff.mp (orPanic_eq_ok.mp h)
      dsimp only at hrest
      rcases submit_cases hsub with ⟨rfl, rfl, herr⟩ | ⟨hlead, rfl, r, out, rfl, hr, hraft⟩
      -- a refusal is answered at once, and neither the node nor the network changes
      · rw [if_pos (Option.isSome_iff_ne_none.mpr herr), setServer_self] at hrest
        obtain rfl := Option.some.inj hrest
        rw [send_nil]
        exact .refused herr
      -- the leader's `Submit` is a step of the cluster, and the call waits for its log append
      · have hstep : d.cluster.step cfg
            (.submit id op.entry.key op.entry.value op.entry.tombstone) =
              .ok ((d.cluster.setNode id r).send sent) := by
          rw [Cluster.step, if_pos hid, hraft]
          rfl
        obtain rfl := Option.some.inj hrest
        have hhosts : (d.setHost id (d.hosts id)).hosts = d.hosts := by rw [setHost_self]
        show Happens cfg d _ { d with
          cluster := (d.cluster.setNode id r).send sent
          hosts := (d.setHost id (d.hosts id)).hosts
          calls := d.calls ++ [⟨id, d.acceptance id op, false⟩] }
        rw [hhosts]
        exact .accepted hid hlead hr hstep
  | logWAL k disk =>
    rw [step, logWAL] at h
    split at h
    case h_2 => cases h
    case h_1 id reply hcall =>
      obtain ⟨s, hlog, hrest⟩ := Option.bind_eq_some_iff.mp (orPanic_eq_ok.mp h)
      obtain ⟨wal, _, hs⟩ := Option.bind_eq_some_iff.mp hlog
      obtain rfl := Option.some.inj hs
      rw [setServer_eq rfl] at hrest
      obtain rfl := Option.some.inj hrest
      exact .logWAL hcall
  | putMemTable k newLevel =>
    rw [step, putMemTable] at h
    split at h
    case h_2 => cases h
    case h_1 id reply hcall =>
      obtain ⟨s, hput, hrest⟩ := Option.bind_eq_some_iff.mp (orPanic_eq_ok.mp h)
      obtain ⟨memTable, hm, hs⟩ := Option.bind_eq_some_iff.mp hput
      obtain rfl := Option.some.inj hs
      rw [setServer_eq rfl] at hrest
      obtain rfl := Option.some.inj hrest
      exact .putMemTable hcall hm
  | apply id newLevel =>
    rw [step, apply] at h
    split at h
    case h_2 => cases h
    case h_1 msg hmsg =>
      obtain ⟨sent, hsent, hmsg⟩ := Option.bind_eq_some_iff.mp hmsg
      obtain ⟨memTable, hm, hrest⟩ := Option.bind_eq_some_iff.mp (orPanic_eq_ok.mp h)
      obtain rfl := Option.some.inj hrest
      exact .apply hsent hmsg hm
  | start id =>
    rw [step] at h
    split at h
    · obtain rfl := Except.ok.inj h
      rw [setServer_eq rfl]
      exact .start
    · cases h
  | stop id =>
    rw [step] at h
    split at h
    · obtain rfl := Except.ok.inj h
      rw [setServer_eq rfl]
      exact .stop
    · cases h

/-- The replies after a step are those from before, and perhaps one more, which is a refusal or
    the reply to a write that its leader has in its log. -/
theorem answers_step {e : Event} (h : Happens cfg d e d') :
    d'.answers.Perm d.answers ∨ ∃ r, d'.answers.Perm (r :: d.answers) ∧
      (r.result.err ≠ none ∨ Accepted cfg d'.cluster r) := by
  cases h with
  | raft h => exact Or.inl (List.Perm.refl _)
  | @refused id op res herr =>
    refine Or.inr ⟨⟨op, res⟩, ?_, Or.inl herr⟩
    show (d.calls.map Call.reply ++ (d.replies ++ [_])).Perm _
    rw [← List.append_assoc]
    exact List.perm_append_singleton _ _
  | @accepted id op r sent hid hlead hr h =>
    refine Or.inr ⟨d.acceptance id op, ?_, Or.inr ?_⟩
    · show ((d.calls ++ [_]).map Call.reply ++ d.replies).Perm _
      rw [List.map_append, List.append_assoc]
      exact List.perm_middle
    · have hself : ((d.cluster.setNode id r).send sent).nodes id = r := by simp
      refine accepted_of_node hid hself ?_
      subst hr
      refine ⟨hlead, rfl, ?_⟩
      show Slice.get _ ((d.cluster.nodes id).log.length : Int) = _
      rw [Slice.get_natCast]
      simp
  | @logWAL k disk id reply wal hcall =>
    left
    have hsame : (d.calls.set k ⟨id, reply, true⟩).map Call.reply = d.calls.map Call.reply := by
      obtain ⟨hlt, heq⟩ := List.getElem?_eq_some_iff.mp hcall
      have hself := @List.set_getElem_self _ (d.calls.map Call.reply) k (by simpa using hlt)
      rw [List.getElem_map, heq] at hself
      rw [List.map_set]
      exact hself
    show ((d.calls.set k _).map Call.reply ++ d.replies).Perm _
    rw [hsame]
    exact List.Perm.refl _
  | @putMemTable k newLevel id reply memTable hcall hput =>
    left
    -- the reply was that of the call which returns
    obtain ⟨hlt, heq⟩ := List.getElem?_eq_some_iff.mp hcall
    have hperm := (List.getElem_cons_eraseIdx_perm hlt).map Call.reply
    rw [heq] at hperm
    show ((d.calls.eraseIdx k).map Call.reply ++ (d.replies ++ [reply])).Perm
      (d.calls.map Call.reply ++ d.replies)
    rw [← List.append_assoc]
    exact (List.perm_append_singleton _ _).trans (hperm.append_right d.replies)
  | apply _ _ _ => exact Or.inl (List.Perm.refl _)
  | start => exact Or.inl (List.Perm.refl _)
  | stop => exact Or.inl (List.Perm.refl _)

/-- The cluster makes a step or none, and a write that is newly acknowledged is in the log of
    its leader. -/
def Moves (cfg : Config) (d d' : Deployment) : Prop :=
  (d'.cluster = d.cluster ∨ ∃ act, d.cluster.step cfg act = .ok d'.cluster) ∧
    ∀ r ∈ d'.answers, r.result.err = none → r ∈ d.answers ∨ Accepted cfg d'.cluster r

/-- **One step.** -/
theorem step_moves {e : Event} (h : d.step cfg e = .ok d') : Moves cfg d d' := by
  have hhappens := step_happens h
  refine ⟨?_, fun r hr hnone => ?_⟩
  · cases hhappens with
    | raft hact => exact Or.inr ⟨_, hact⟩
    | accepted _ _ _ hact => exact Or.inr ⟨_, hact⟩
    | _ => exact Or.inl rfl
  · rcases answers_step hhappens with hperm | ⟨r', hperm, hnew⟩
    · exact Or.inl (hperm.mem_iff.mp hr)
    · rcases List.mem_cons.mp (hperm.mem_iff.mp hr) with rfl | hold
      · exact Or.inr (hnew.resolve_left (not_not_intro hnone))
      · exact Or.inl hold

/-- What is answered stays answered. -/
theorem answers_mono {e : Event} (h : d.step cfg e = .ok d') {r : Reply} (hr : r ∈ d.answers) :
    r ∈ d'.answers := by
  rcases answers_step (step_happens h) with hperm | ⟨r', hperm, _⟩
  · exact hperm.mem_iff.mpr hr
  · exact hperm.mem_iff.mpr (List.mem_cons_of_mem _ hr)

/-! ### Runs -/

/-- What is answered at some moment of a run is answered at every later one. -/
theorem Reached.answers_mono {i l : ℕ} (hil : i ≤ l) {u v : Deployment}
    (hu : Reached cfg hosts (events.take i) u) (hv : Reached cfg hosts (events.take l) v)
    {r : Reply} (hr : r ∈ u.answers) : r ∈ v.answers :=
  Run.Reached.relates (R := fun d d' : Deployment => ∀ r ∈ d.answers, r ∈ d'.answers)
    (fun _ _ h => h) (fun h h' r hr => h' r (h r hr))
    (fun hx _ hr => Deployment.answers_mono hx hr) hil hu hv r hr

/-- **Where an acknowledged write comes from.**  It was in the log of the leader of its term at
    some moment of the run. -/
theorem Reached.accepted (h : Reached cfg hosts events d) {r : Reply} (hr : r ∈ d.answers)
    (hok : r.result.err = none) :
    ∃ j ≤ events.length, ∃ u, Reached cfg hosts (events.take j) u ∧ Accepted cfg u.cluster r := by
  revert r
  refine Run.Reached.invariant (I := fun events d => ∀ {r : Reply}, r ∈ d.answers →
    r.result.err = none → ∃ j ≤ events.length, ∃ u, Reached cfg hosts (events.take j) u ∧
      Accepted cfg u.cluster r) ?_ ?_ h
  · intro r hr; simp [answers, initial] at hr
  · intro events d x d' hd ih hx r hr hok
    rcases (step_moves hx).2 r hr hok with hold | hnew
    · -- a moment of the run so far is one of the longer run
      obtain ⟨j, hj, u, hu, hacc⟩ := ih hold hok
      refine ⟨j, by rw [List.length_append]; omega, u, ?_, hacc⟩
      rwa [List.take_append_of_le_length hj]
    · refine ⟨(events ++ [x]).length, le_refl _, d', ?_, hnew⟩
      rw [List.take_length]
      exact Run.reached_snoc.mpr ⟨d, hd, hx⟩

/-- **Refinement of runs.** -/
theorem exists_abstract_run (hids : (-1 : Int) ∉ cfg.ids) (hosts : Int → Host)
    (events : List Event) :
    ∃ f : ℕ → Abs,
      (∀ (i : ℕ) (d : Deployment), Reached cfg hosts (events.take i) d →
        ∃ counted, Sim cfg d.cluster (f i) counted) ∧
      (∀ {i j : ℕ}, i ≤ j → Replog.Steps (protocol cfg) (f i) (f j)) ∧
      ∀ (i : ℕ) (d : Deployment), Reached cfg hosts (events.take i) d → ∀ {t c}, (f i).led t c →
        ∃ j ≤ i, ∃ u, Reached cfg hosts (events.take j) u ∧
          (u.cluster.nodes c).role = .leader ∧ (u.cluster.nodes c).currentTerm = t := by
  refine exists_abstract_trace (step cfg) (initial cfg hosts) cluster hids rfl ?_ events
  intro d e d' hstep a counted hsim
  rcases (step_moves hstep).1 with hsame | ⟨act, hact⟩
  · rw [hsame]; exact hsim.follows_refl
  · exact hsim.follows_step hact

/-! ### Acknowledged writes -/

/-- Every node that leads a later term than that of the entry holds the entry. -/
def HeldAbove (cfg : Config) (s : Cluster) (e : RaftLogEntry) : Prop :=
  ∀ b ∈ cfg.ids, (s.nodes b).role = .leader → e.term < (s.nodes b).currentTerm →
    Slice.get (s.nodes b).log e.index = some e

instance (cfg : Config) (s : Cluster) (e : RaftLogEntry) : Decidable (HeldAbove cfg s e) :=
  inferInstanceAs (Decidable (∀ b ∈ cfg.ids, (s.nodes b).role = .leader →
    e.term < (s.nodes b).currentTerm → Slice.get (s.nodes b).log e.index = some e))

/-- The write is in the log of some node at its index, and in the log of every node that has
    committed that much. -/
structure Held (cfg : Config) (s : Cluster) (r : Reply) : Prop where
  pos : 1 ≤ r.result.index
  holder : ∃ c ∈ cfg.ids, Slice.get (s.nodes c).log r.result.index = some r.command
  committed : ∀ n ∈ cfg.ids, r.result.index ≤ (s.nodes n).commitIndex →
    Slice.get (s.nodes n).log r.result.index = some r.command

theorem Reached.sim (hids : (-1 : Int) ∉ cfg.ids) {l : ℕ}
    (h : Reached cfg hosts (events.take l) d) : ∃ a counted, Sim cfg d.cluster a counted := by
  obtain ⟨f, hf, _⟩ := exists_abstract_run hids hosts events
  exact ⟨f l, hf l d h⟩

/-- **Accepted writes are held**, in a run in whose states every leader of a later term holds
    them. -/
theorem Reached.held (hids : (-1 : Int) ∉ cfg.ids) {l : ℕ}
    (hv : Reached cfg hosts (events.take l) d) {r : Reply} (hr : r ∈ d.answers)
    (hok : r.result.err = none) (hheld : ∀ j ≤ l, ∀ x, Reached cfg hosts (events.take j) x →
      HeldAbove cfg x.cluster r.command) : Held cfg d.cluster r := by
  obtain ⟨f, hf, hsteps, hled⟩ := exists_abstract_run hids hosts events
  obtain ⟨_, hsim⟩ := hf l d hv
  -- what a leader holds at some moment is in the leader's log for good
  have hread : ∀ {j : ℕ} {x : Deployment} {b : Int}, j ≤ l → Reached cfg hosts (events.take j) x →
      b ∈ cfg.ids → (x.cluster.nodes b).role = .leader → ∀ {k : ℕ} {e : RaftLogEntry},
      (x.cluster.nodes b).log[k]? = some e →
        (f l).led (x.cluster.nodes b).currentTerm b ∧
        ((f l).lead (x.cluster.nodes b).currentTerm)[k]? = some e := by
    intro j x b hj hx hb hrole k e he
    obtain ⟨_, hsimx⟩ := hf j x hx
    exact hsimx.leader_read hb hrole (Replog.Steps.inv_extends hsimx.ok.inv (hsteps hj)).2 he
  -- the leader that accepted the write
  obtain ⟨j, _, w, hw, c, hc, hrole, hterm, hget⟩ := Reached.accepted hv hr hok
  rw [List.take_take] at hw
  have hjl : min j l ≤ l := min_le_right j l
  obtain ⟨hidx, he⟩ := Slice.get_eq_some.mp hget
  obtain ⟨hledT, heT⟩ := hread hjl hw hc hrole he
  rw [hterm] at hledT heT
  -- the leaders of later terms
  have hlater : ∀ {t b}, r.result.term < t → (f l).led t b →
      ((f l).lead t)[r.result.index.toNat]? = some r.command := by
    intro t b ht hb
    obtain ⟨j', hj', x, hx, hroleb, rfl⟩ := hled l d hv hb
    obtain ⟨C, _, hC, _⟩ := hsim.ok.inv.lead_eq hb
    have hmem := hsim.ok.member hC
    have hholds := hheld j' hj' x hx b hmem hroleb ht
    exact (hread hj' hx hmem hroleb (Slice.get_eq_some.mp hholds).2).2
  -- the index is not that of the dummy entry, whose term nobody leads
  have hpos : 1 ≤ r.result.index.toNat := by
    by_contra hzero
    obtain ⟨rest, hrest⟩ := (hsim.ok.inv.lead_wf hledT).base
    rw [show r.result.index.toNat = 0 by omega, ← hrest] at heT
    have hgt := hsim.ok.inv.led_gt hledT
    rw [show r.result.term = dummyEntry.term from
      (congrArg RaftLogEntry.term (Option.some.inj heT)).symm] at hgt
    exact lt_irrefl (0 : Int) hgt
  refine ⟨by omega, ⟨c, hc, Slice.get_eq_some.mpr ⟨hidx, ?_⟩⟩, fun n hn hcommit => ?_⟩
  · -- the leader that accepted it still holds it
    obtain ⟨_, hsimw⟩ := hf (min j l) w hw
    rw [← (hsimw.nodes c hc).log] at he
    have hkept := Replog.Steps.keeps_held hsimw.ok.inv (hsteps hjl) Relation.ReflTransGen.refl he
      hlater
    rw [← (hsim.nodes c hc).log]
    exact Replog.getElem?_of_stretch hkept (Nat.lt_succ_self _) he
  · obtain ⟨t, m, hch, _, hkm, hlog⟩ := hsim.committed_chosen hn hpos (by omega)
    rw [hsim.ok.inv.chosen_read hledT heT hlater hch hkm] at hlog
    exact Slice.get_eq_some.mpr ⟨hidx, hlog⟩

/-- **An acknowledged write is applied at its index** by every node that has applied that much,
    in a run in whose states every leader of a later term holds the write. -/
theorem acked_applied (hids : (-1 : Int) ∉ cfg.ids) {i l : ℕ} {u v : Deployment}
    (hu : Reached cfg hosts (events.take i) u) (hil : i ≤ l)
    (hv : Reached cfg hosts (events.take l) v) {op : Op} {idx term : Int}
    (hack : (⟨op, ⟨idx, term, true, none⟩⟩ : Reply) ∈ u.replies)
    (hheld : ∀ j ≤ l, ∀ x, Reached cfg hosts (events.take j) x →
      HeldAbove cfg x.cluster (Reply.command ⟨op, ⟨idx, term, true, none⟩⟩))
    {n : Int} (hn : n ∈ cfg.ids) (happlied : idx ≤ (v.cluster.nodes n).lastApplied) :
    Slice.get (v.cluster.nodes n).log idx =
        some ⟨idx, term, op.entry.key, op.entry.value, op.entry.tombstone⟩ ∧
      ∀ sent, (v.cluster.nodes n).applyCh = some sent →
        Slice.get sent (idx - 1) =
          some ⟨true, idx, term, op.entry.key, op.entry.value, op.entry.tombstone⟩ := by
  have hfate := hv.held hids (hu.answers_mono hil hv (List.mem_append_right _ hack)) rfl hheld
  obtain ⟨a, _, hsim⟩ := hv.sim hids
  have hnode := hsim.nodes n hn
  have hcommit := hnode.applied
  have hlog := hfate.committed n hn (by rw [← hcommit]; exact happlied)
  refine ⟨hlog, fun sent hsent => ?_⟩
  have hpos : 1 ≤ idx := hfate.pos
  have hdel := hnode.delivered hsent (i := idx.toNat - 1) (by omega)
  rw [Nat.sub_add_cancel (by omega), (Slice.get_eq_some.mp hlog).2] at hdel
  rw [Slice.get_eq_some, show (idx - 1).toNat = idx.toNat - 1 by omega]
  exact ⟨by omega, hdel⟩

/-- Servers that are not started, with an empty MemTable and an empty log. -/
def newHosts : Int → Host := fun _ =>
  { memTable := some (Storage.newMemTable ⟨2, 0⟩)
    wal := some (Bench.openWAL Bench.defaultWALOptions none)
    running := false
    consumed := 0 }

/-- Of two nodes, node 0 acknowledges a write, replicates and commits it; then node 1 takes
    over. -/
def takeover : List Event :=
  [.start 0, .raft (.electionTimeout 0), .raft (.deliver 0), .raft (.deliver 0),
    .submit 0 (.put [7] [9]), .logWAL 0 Disk.ok, .putMemTable 0 1, .raft (.deliver 1),
    .raft (.deliver 1), .raft (.heartbeatTick 0), .raft (.deliver 1),
    .raft (.electionTimeout 1), .raft (.deliver 2), .raft (.deliver 2)]

/-- In that run both nodes have applied the write at the acknowledged index. -/
theorem acked_applied_pair : ∃ u v, Reached pair newHosts (takeover.take 7) u ∧
    Reached pair newHosts (takeover.take 14) v ∧
    (⟨.put [7] [9], ⟨1, 1, true, none⟩⟩ : Reply) ∈ u.replies ∧
    (v.cluster.nodes 1).role = .leader ∧ (v.cluster.nodes 1).currentTerm = 2 ∧
    ∀ n ∈ pair.ids, (v.cluster.nodes n).lastApplied = 1 ∧
      Slice.get (v.cluster.nodes n).log 1 = some ⟨1, 1, [7], [9], false⟩ := by
  obtain ⟨u, hu, hreplies⟩ := Run.exists_reached (step pair) (initial pair newHosts)
    (takeover.take 7) replies [⟨.put [7] [9], ⟨1, 1, true, none⟩⟩] (by decide +kernel)
  obtain ⟨v, hv, hview⟩ := Run.exists_reached (step pair) (initial pair newHosts)
    (takeover.take 14) (fun d => ((d.cluster.nodes 1).role, (d.cluster.nodes 1).currentTerm,
      (d.cluster.nodes 0).lastApplied, (d.cluster.nodes 1).lastApplied)) (.leader, 2, 1, 1)
    (by decide +kernel)
  simp only [Prod.mk.injEq] at hview
  obtain ⟨hrole, hterm, h0, h1⟩ := hview
  have hack : (⟨.put [7] [9], ⟨1, 1, true, none⟩⟩ : Reply) ∈ u.replies := by
    rw [hreplies]; simp
  -- the condition, evaluated in each of the states
  have hheld : ∀ j ≤ 14, ∀ x, Reached pair newHosts (takeover.take j) x →
      HeldAbove pair x.cluster (Reply.command ⟨.put [7] [9], ⟨1, 1, true, none⟩⟩) := by
    have hcheck : ∀ j ≤ 14, ((takeover.take j).foldlM (step pair) (initial pair newHosts)).map
        (fun d => decide (HeldAbove pair d.cluster
          (Reply.command ⟨.put [7] [9], ⟨1, 1, true, none⟩⟩))) = .ok true := by
      decide +kernel
    exact fun j hj x hx => of_decide_eq_true (hx.view_eq (hcheck j hj))
  refine ⟨u, v, hu, hv, hack, hrole, hterm, fun n hn => ?_⟩
  have hlast : (v.cluster.nodes n).lastApplied = 1 := by
    rcases List.mem_pair.mp hn with rfl | rfl
    · exact h0
    · exact h1
  exact ⟨hlast, (acked_applied (by decide) hu (by decide) hv hack hheld hn
    (by rw [hlast])).1⟩

/-- Node 0 acknowledges a write before anyone has received it; node 1 is elected by node 2 and
    commits another write at the same index. -/
def lostWrite : List Event :=
  [.start 0, .start 1, .raft (.electionTimeout 0), .raft (.deliver 0), .raft (.deliver 1),
    .submit 0 (.put [7] [9]), .logWAL 0 Disk.ok, .putMemTable 0 1,
    .raft (.electionTimeout 1), .raft (.deliver 6), .raft (.deliver 6),
    .submit 1 (.put [8] [1]), .raft (.deliver 9), .raft (.deliver 9)]

/-- **An acknowledged write is lost**: node 1 has applied another one at its index. -/
theorem acked_write_lost : ∃ u v, Reached trio newHosts (lostWrite.take 8) u ∧
    Reached trio newHosts (lostWrite.take 14) v ∧
    (⟨.put [7] [9], ⟨1, 1, true, none⟩⟩ : Reply) ∈ u.replies ∧
    (v.cluster.nodes 1).lastApplied = 1 ∧
    Slice.get (v.cluster.nodes 1).log 1 = some ⟨1, 2, [8], [1], false⟩ ∧
    (v.cluster.nodes 1).applyCh = some [⟨true, 1, 2, [8], [1], false⟩] := by
  obtain ⟨u, hu, hreplies⟩ := Run.exists_reached (step trio) (initial trio newHosts)
    (lostWrite.take 8) replies [⟨.put [7] [9], ⟨1, 1, true, none⟩⟩] (by decide +kernel)
  obtain ⟨v, hv, hview⟩ := Run.exists_reached (step trio) (initial trio newHosts)
    (lostWrite.take 14) (fun d => ((d.cluster.nodes 1).lastApplied,
      Slice.get (d.cluster.nodes 1).log 1, (d.cluster.nodes 1).applyCh))
    (1, some ⟨1, 2, [8], [1], false⟩, some [⟨true, 1, 2, [8], [1], false⟩]) (by decide +kernel)
  simp only [Prod.mk.injEq] at hview
  exact ⟨u, v, hu, hv, by rw [hreplies]; simp, hview⟩

end Deployment

end Hallownest
