import Hallownest.Consensus.Cluster
import Hallownest.Lib.Replog.Safety
import Hallownest.Lib.Replog.Splice

namespace Hallownest.Consensus

open Replog (Steps Extends Chosen)

/-!
# Consensus — the abstraction to replicated logs

The nodes of a cluster refine the replicated-log protocol of `Replog`, with the majorities
of the ids as quorums and the dummy entry as the common base.

* `NodeSim` — what a node's fields say about the abstract state, one field at a time.
* `PacketOk` — what a packet in flight says about the history: a vote request quotes the
  log its sender stood with, an append request quotes a stretch of the log of its term's
  leader, a granted vote and a successful append are on record.
* `Sim` — the whole cluster.  `tally` ties the vote counter of a candidate to the set of
  nodes whose votes it has counted; `calls` and `fresh` say that no vote can be counted
  twice, because every vote RPC is in flight at most once.
-/

/-- The replicated-log protocol a cluster runs. -/
def protocol (cfg : Config) : Replog.Protocol Int Int RaftLogEntry where
  termOf := RaftLogEntry.term
  Quorum := Replog.Majority cfg.ids.toFinset
  inter := Replog.Majority.inter
  base := [dummyEntry]
  origin := 0
  base_term := by intro e he; rw [List.mem_singleton] at he; subst he; rfl

/-- States of the protocol a cluster runs. -/
abbrev Abs := Replog.State Int Int RaftLogEntry

@[simp] theorem protocol_termOf (cfg : Config) (e : RaftLogEntry) :
    (protocol cfg).termOf e = e.term := rfl
@[simp] theorem protocol_base (cfg : Config) : (protocol cfg).base = [dummyEntry] := rfl
@[simp] theorem protocol_origin (cfg : Config) : (protocol cfg).origin = 0 := rfl
@[simp] theorem protocol_quorum (cfg : Config) :
    (protocol cfg).Quorum = Replog.Majority cfg.ids.toFinset := rfl

/-! ### Membership -/

/-- The peers of a node are the other nodes. -/
theorem mem_peers {cfg : Config} {id p : Int} (hid : id ∈ cfg.ids) :
    p ∈ cfg.peers id ↔ p ≠ id ∧ p ∈ cfg.ids := by
  rw [(cfg.peers_perm id hid).mem_iff, cfg.nodup.mem_erase_iff]

/-- No peer is listed twice. -/
theorem peers_nodup {cfg : Config} {id : Int} (hid : id ∈ cfg.ids) : (cfg.peers id).Nodup :=
  (cfg.peers_perm id hid).nodup_iff.mpr (cfg.nodup.erase id)

/-- The node and its peers are the cluster. -/
theorem peers_length {cfg : Config} {id : Int} (hid : id ∈ cfg.ids) :
    (cfg.peers id).length + 1 = cfg.ids.toFinset.card := by
  have hpos : 0 < cfg.ids.length := List.length_pos_of_mem hid
  rw [(cfg.peers_perm id hid).length_eq, List.length_erase_of_mem hid,
    List.toFinset_card_of_nodup cfg.nodup]
  omega

/-! ### Nodes -/

/-- Every entry sits at the position its `index` names. -/
def Numbered (log : List RaftLogEntry) : Prop :=
  ∀ (i : ℕ) (e : RaftLogEntry), log[i]? = some e → e.index = i

/-- What a node has sent on its channel once it has applied its log up to `lastApplied`. -/
def deliveredOf (log : List RaftLogEntry) (lastApplied : Int) : List ApplyMsg :=
  ((log.drop 1).take lastApplied.toNat).map RaftNode.applyMsg

/-- The abstract state `a` describes node `id`. -/
structure NodeSim (cfg : Config) (a : Abs) (id : Int) (r : RaftNode) : Prop where
  id_eq : r.id = id
  peers_eq : r.peers = cfg.peers id
  term : a.term id = r.currentTerm
  log : a.log id = r.log
  vote : r.votedFor = (a.vote r.currentTerm id).getD (-1)
  leader : r.role = .leader ↔ a.led r.currentTerm id
  candidate : r.role = .candidate → a.stood r.currentTerm id = some r.log
  commit : (a.commit id : Int) = r.commitIndex + 1
  applied : r.lastApplied = r.commitIndex
  applyCh : r.applyCh =
    if cfg.hasApplyCh id then some (deliveredOf r.log r.lastApplied) else none
  next : r.role = .leader → ∀ p ∈ cfg.peers id,
    1 ≤ r.nextIndex p ∧ r.nextIndex p ≤ r.log.length
  matched : r.role = .leader → ∀ p ∈ cfg.peers id,
    0 ≤ r.matchIndex p ∧ (0 < r.matchIndex p → r.matchIndex p < a.acked r.currentTerm p)

/-- Facts about the abstract state that do not mention the nodes.  `sentinel` says that no
    id is the value `votedFor` has in a node that has not voted. -/
structure AbsOk (cfg : Config) (a : Abs) : Prop where
  inv : Replog.Inv (protocol cfg) a
  member : ∀ {t c C}, a.stood t c = some C → c ∈ cfg.ids
  numbered : ∀ {t c}, a.led t c → Numbered (a.lead t)
  sentinel : (-1 : Int) ∉ cfg.ids

/-- The part of the abstract state that describes node `j` is the same in `a` and `a'`. -/
structure SameAt (a a' : Abs) (j : Int) : Prop where
  term : a'.term j = a.term j
  log : a'.log j = a.log j
  commit : a'.commit j = a.commit j
  vote : a'.vote (a.term j) j = a.vote (a.term j) j
  led : a'.led (a.term j) j → a.led (a.term j) j

theorem SameAt.refl (a : Abs) (j : Int) : SameAt a a j := ⟨rfl, rfl, rfl, rfl, id⟩

theorem SameAt.trans {a b c : Abs} {j : Int} (h : SameAt a b j) (h' : SameAt b c j) :
    SameAt a c j where
  term := h'.term.trans h.term
  log := h'.log.trans h.log
  commit := h'.commit.trans h.commit
  vote := by
    have := h'.vote
    rw [h.term] at this
    exact this.trans h.vote
  led := fun hl => h.led (by have := h'.led; rw [h.term] at this; exact this hl)

/-- A node is not affected by moves elsewhere. -/
theorem NodeSim.frame {cfg : Config} {a a' : Abs} {j : Int} {r : RaftNode}
    (hn : NodeSim cfg a j r) (hext : Extends a a') (hsame : SameAt a a' j) :
    NodeSim cfg a' j r where
  id_eq := hn.id_eq
  peers_eq := hn.peers_eq
  term := hsame.term.trans hn.term
  log := hsame.log.trans hn.log
  vote := by
    have := hsame.vote
    rw [hn.term] at this
    rw [this]; exact hn.vote
  leader := by
    have := hsame.led
    rw [hn.term] at this
    exact ⟨fun hl => hext.led (hn.leader.mp hl), fun hl => hn.leader.mpr (this hl)⟩
  candidate := fun hc => hext.stood (hn.candidate hc)
  commit := by rw [hsame.commit]; exact hn.commit
  applied := hn.applied
  applyCh := hn.applyCh
  next := hn.next
  matched := by
    intro hl p hp
    obtain ⟨h0, h1⟩ := hn.matched hl p hp
    refine ⟨h0, fun hpos => lt_of_lt_of_le (h1 hpos) ?_⟩
    exact_mod_cast hext.acked r.currentTerm p

/-! ### Packets -/

/-- A vote request quotes the log with which its sender stood. -/
structure VoteArgsOk (cfg : Config) (a : Abs) (peer : Int) (args : RequestVoteArgs) : Prop where
  sender : args.candidateID ∈ cfg.ids
  peer : peer ∈ cfg.peers args.candidateID
  quotes : ∃ C, a.stood args.term args.candidateID = some C ∧
    args.lastLogIndex = (C.length : Int) - 1 ∧ args.lastLogTerm = (protocol cfg).lastTerm C

/-- An append request quotes the log of its term's leader from `p` on, and a commit index
    within that quotation up to which that log is chosen. -/
structure AppendArgsOk (cfg : Config) (a : Abs) (peer : Int) (args : AppendEntriesArgs)
    (p : ℕ) : Prop where
  sender : args.leaderID ∈ cfg.ids
  peer : peer ∈ cfg.peers args.leaderID
  led : a.led args.term args.leaderID
  prev : args.prevLogIndex = p
  prevTerm : ∃ e, (a.lead args.term)[p]? = some e ∧ e.term = args.prevLogTerm
  entries : args.entries <+: (a.lead args.term).drop (p + 1)
  commit_le : args.leaderCommit ≤ p + args.entries.length
  commit : args.leaderCommit ≤ 0 ∨ ∃ t j, Chosen (protocol cfg) a t j ∧ t ≤ args.term ∧
    args.leaderCommit ≤ j ∧
      (a.lead t).take (args.leaderCommit.toNat + 1) <+: a.lead args.term

/-- A packet in flight is a true statement about the history. -/
def PacketOk (cfg : Config) (a : Abs) : Packet → Prop
  | .voteRequest peer args => VoteArgsOk cfg a peer args
  | .voteReply peer args reply => VoteArgsOk cfg a peer args ∧
      (reply.voteGranted = true → a.vote args.term peer = some args.candidateID)
  | .appendRequest peer args => ∃ p, AppendArgsOk cfg a peer args p
  | .appendReply peer args reply => ∃ p, AppendArgsOk cfg a peer args p ∧
      (reply.success = true → p + args.entries.length < a.acked args.term peer)

/-- A vote request stays true when the history grows. -/
theorem VoteArgsOk.mono {cfg : Config} {a a' : Abs} (hext : Extends a a') {peer : Int}
    {args : RequestVoteArgs} (h : VoteArgsOk cfg a peer args) : VoteArgsOk cfg a' peer args where
  sender := h.sender
  peer := h.peer
  quotes := by
    obtain ⟨C, hC, hi, ht⟩ := h.quotes
    exact ⟨C, hext.stood hC, hi, ht⟩

/-- What is quoted from a leader's log stays a quotation when that log grows. -/
theorem AppendArgsOk.mono {cfg : Config} {a a' : Abs} (hext : Extends a a') {peer : Int}
    {args : AppendEntriesArgs} {p : ℕ} (h : AppendArgsOk cfg a peer args p) :
    AppendArgsOk cfg a' peer args p where
  sender := h.sender
  peer := h.peer
  led := hext.led h.led
  prev := h.prev
  prevTerm := by
    obtain ⟨e, he, ht⟩ := h.prevTerm
    exact ⟨e, hext.read h.led he, ht⟩
  entries := h.entries.trans ((hext.lead h.led).drop _)
  commit_le := h.commit_le
  commit := by
    rcases h.commit with h0 | ⟨t, j, hch, ht, hj, hpre⟩
    · exact Or.inl h0
    · refine Or.inr ⟨t, j, hch.mono hext, ht, hj, ?_⟩
      rw [hch.take_eq hext (by omega)]
      exact hpre.trans (hext.lead h.led)

/-- A late packet is still true. -/
theorem PacketOk.mono {cfg : Config} {a a' : Abs} (hext : Extends a a') {p : Packet}
    (h : PacketOk cfg a p) : PacketOk cfg a' p := by
  cases p with
  | voteRequest peer args => exact VoteArgsOk.mono hext h
  | voteReply peer args reply => exact ⟨h.1.mono hext, fun hg => hext.vote (h.2 hg)⟩
  | appendRequest peer args =>
    obtain ⟨p, hp⟩ := h
    exact ⟨p, hp.mono hext⟩
  | appendReply peer args reply =>
    obtain ⟨p, hp, hs⟩ := h
    exact ⟨p, hp.mono hext, fun hg => lt_of_lt_of_le (hs hg) (hext.acked _ _)⟩

/-- The vote RPC a packet belongs to: candidate, term of the election, and voter. -/
def voteCall : Packet → Option (Int × Int × Int)
  | .voteRequest peer args => some (args.candidateID, args.term, peer)
  | .voteReply peer args _ => some (args.candidateID, args.term, peer)
  | .appendRequest _ _ => none
  | .appendReply _ _ _ => none

/-! ### Clusters -/

/-- The counter of a candidate's election counts the nodes in `counted`, all of which voted
    for it. -/
structure Tally (cfg : Config) (a : Abs) (id term votes : Int) (counted : Finset Int) : Prop where
  votes : votes = counted.card
  members : counted ⊆ cfg.ids.toFinset
  voted : ∀ v ∈ counted, a.vote term v = some id

/-- **The simulation relation.**  The cluster `s` is described by the abstract state `a`;
    `counted id term` is the set of nodes whose votes for `id` in `term` have been counted. -/
structure Sim (cfg : Config) (s : Cluster) (a : Abs) (counted : Int → Int → Finset Int) :
    Prop where
  ok : AbsOk cfg a
  nodes : ∀ id ∈ cfg.ids, NodeSim cfg a id (s.nodes id)
  packets : ∀ p ∈ s.net, PacketOk cfg a p
  calls : (s.net.filterMap voteCall).Nodup
  fresh : ∀ {c t p}, p ∈ counted c t → (c, t, p) ∉ s.net.filterMap voteCall
  tally : ∀ id ∈ cfg.ids, (s.nodes id).role = .candidate →
    Tally cfg a id (s.nodes id).currentTerm
      (s.votesReceived id (s.nodes id).currentTerm) (counted id (s.nodes id).currentTerm)

/-- The initial cluster is described by the initial state of the protocol. -/
theorem sim_initial {cfg : Config} (hids : (-1 : Int) ∉ cfg.ids) :
    Sim cfg (Cluster.initial cfg) (Replog.State.initial (protocol cfg)) (fun _ _ => ∅) where
  ok :=
    { inv := Replog.inv_initial _
      member := by intro t c C h; simp [Replog.State.initial] at h
      numbered := fun h => h.elim
      sentinel := hids }
  nodes := by
    intro id _
    exact {
      id_eq := rfl
      peers_eq := rfl
      term := rfl
      log := rfl
      vote := rfl
      leader := by simp [Cluster.initial, newRaftNode, Replog.State.initial]
      candidate := by simp [Cluster.initial, newRaftNode]
      commit := rfl
      applied := rfl
      applyCh := by
        simp only [Cluster.initial, newRaftNode]
        split <;> rfl
      next := by simp [Cluster.initial, newRaftNode]
      matched := by simp [Cluster.initial, newRaftNode] }
  packets := by intro p hp; simp [Cluster.initial] at hp
  calls := by simp [Cluster.initial]
  fresh := by intro c t p hp; simp at hp
  tally := by simp [Cluster.initial, newRaftNode]

end Hallownest.Consensus
