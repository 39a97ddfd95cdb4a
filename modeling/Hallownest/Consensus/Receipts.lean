import Hallownest.Consensus.Handlers
import Hallownest.Consensus.Safety

namespace Hallownest.Consensus

open Replog (Steps)
open Cluster (Reached)

/-!
# Consensus — receipts and apply streams

A successful `Submit` returns the index and the term of the entry it appends.  This module ties
these receipts to what the nodes deliver on their channels.

* `known_step` — entries are only made by `Submit`: every entry of a log or of a request in
  flight has a receipt.
* `submitted_unique` — no two receipts have the same index and term.
* `delivered_agree` — at any two moments, any two nodes deliver the same at the same position.
* `delivered_receipts` — the three together.
-/

variable {cfg : Config} {s s' u : Cluster} {acts : List Action}

/-- Step `j` of the run is a successful `Submit` of the command of `e`, which has returned the
    index and the term of `e`. -/
def Submitted (cfg : Config) (acts : List Action) (j : ℕ) (e : RaftLogEntry) : Prop :=
  ∃ id s r sent, acts[j]? = some (.submit id e.key e.value e.tombstone) ∧ id ∈ cfg.ids ∧
    Reached cfg (acts.take j) s ∧
    (s.nodes id).submit e.key e.value e.tombstone = some (r, (e.index, e.term, true), sent)

/-! ### Every entry has a receipt -/

/-- The dummy entry, or one with a receipt. -/
def Known (cfg : Config) (acts : List Action) (e : RaftLogEntry) : Prop :=
  e = dummyEntry ∨ ∃ j < acts.length, Submitted cfg acts j e

theorem Submitted.snoc {j : ℕ} {e : RaftLogEntry} (h : Submitted cfg acts j e)
    (hj : j < acts.length) (act : Action) : Submitted cfg (acts ++ [act]) j e := by
  obtain ⟨id, s, r, sent, hact, hid, hs, hsub⟩ := h
  refine ⟨id, s, r, sent, ?_, hid, ?_, hsub⟩
  · rw [List.getElem?_append_left hj]; exact hact
  · rw [List.take_append_of_le_length (le_of_lt hj)]; exact hs

theorem Known.snoc {e : RaftLogEntry} (h : Known cfg acts e) (act : Action) :
    Known cfg (acts ++ [act]) e := by
  rcases h with rfl | ⟨j, hj, hsub⟩
  · exact Or.inl rfl
  · exact Or.inr ⟨j, by simp; omega, hsub.snoc hj act⟩

/-- All entries of the logs and of the requests in flight are known. -/
structure AllKnown (cfg : Config) (acts : List Action) (s : Cluster) : Prop where
  logs : ∀ id, ∀ e ∈ (s.nodes id).log, Known cfg acts e
  requests : ∀ {peer args}, Packet.appendRequest peer args ∈ s.net →
    ∀ e ∈ args.entries, Known cfg acts e

/-- The entry for which a leader has just returned a receipt. -/
private theorem known_newEntry {id : Int} {key value : Bytes} {tombstone : Bool} {r : RaftNode}
    {res : Int × Int × Bool} {sent : List Packet} (hs : Reached cfg acts s) (hid : id ∈ cfg.ids)
    (hrun : (s.nodes id).submit key value tombstone = some (r, res, sent))
    (hlead : (s.nodes id).role = .leader) :
    Known cfg (acts ++ [.submit id key value tombstone])
      ((s.nodes id).newEntry key value tombstone) := by
  rcases RaftNode.submit_cases hrun with ⟨hno, _⟩ | ⟨_, _, rfl, _⟩
  · exact absurd hlead hno
  · exact Or.inr ⟨acts.length, by simp, id, s, r, sent, by simp [RaftNode.newEntry], hid,
      by rw [List.take_left']; exact hs; rfl, hrun⟩

/-- A node whose log is known sends known entries. -/
theorem known_of_quotes {r : RaftNode} {sent : List Packet} (hsent : ∀ q ∈ sent, r.Quotes q)
    (hlog : ∀ e ∈ r.log, Known cfg acts e) {peer : Int} {args : AppendEntriesArgs}
    (hmem : Packet.appendRequest peer args ∈ sent) : ∀ e ∈ args.entries, Known cfg acts e := by
  obtain ⟨peer', args', heq, _, _, hentries⟩ := hsent _ hmem
  cases heq
  exact fun e he => hlog e (hentries e he)

/-- A step that replaces one node and sends packets, after taking at most one away. -/
theorem AllKnown.replace (h : AllKnown cfg acts s) {id : Int} {r : RaftNode}
    (sent : List Packet) (hnodes : s'.nodes = (s.setNode id r).nodes)
    (hnet : ∀ q ∈ s'.net, q ∈ s.net ∨ q ∈ sent)
    (hlog : ∀ e ∈ r.log, Known cfg acts e)
    (hsent : ∀ {peer args}, Packet.appendRequest peer args ∈ sent →
      ∀ e ∈ args.entries, Known cfg acts e) : AllKnown cfg acts s' where
  logs := by
    intro j e he
    rw [hnodes] at he
    by_cases hj : j = id
    · subst hj
      rw [Cluster.setNode_nodes_self] at he
      exact hlog e he
    · rw [Cluster.setNode_nodes_of_ne r hj] at he
      exact h.logs j e he
  requests := by
    intro peer args hmem
    rcases hnet _ hmem with hold | hnew
    · exact h.requests hold
    · exact hsent hnew

/-- What is in flight after one packet was taken and others were sent. -/
theorem mem_take_send {i : ℕ} {sent : List Packet} :
    ∀ q ∈ s.net.eraseIdx i ++ sent, q ∈ s.net ∨ q ∈ sent := by
  intro q hq
  rcases List.mem_append.mp hq with hq | hq
  · exact Or.inl (List.mem_of_mem_eraseIdx hq)
  · exact Or.inr hq

/-- **One step** makes no entry without a receipt. -/
theorem known_step {act : Action} (hs : Reached cfg acts s) (h : AllKnown cfg acts s)
    (hstep : s.step cfg act = .ok s') : AllKnown cfg (acts ++ [act]) s' := by
  have h : AllKnown cfg (acts ++ [act]) s :=
    ⟨fun id e he => (h.logs id e he).snoc act,
      fun hmem e he => (h.requests hmem e he).snoc act⟩
  cases Cluster.step_takes hstep with
  | @electionTimeout id r votes sent hid hrole hrun =>
    have hknown : ∀ e ∈ r.log, Known cfg (acts ++ [.electionTimeout id]) e := by
      rw [(RaftNode.keepsLog_startElection hrun).log]; exact h.logs id
    refine h.replace _ rfl (fun q hq => List.mem_append.mp hq) hknown ?_
    intro peer args hmem
    rcases RaftNode.startElection_cases hrun with ⟨_, ⟨_, _, hcast⟩ | ⟨_, _, _, _, rfl⟩⟩
    · exact known_of_quotes (RaftNode.quotes_broadcast hcast) hknown hmem
    · simp at hmem
  | @heartbeatTick id sent hid hrun =>
    refine ⟨h.logs, fun hmem => ?_⟩
    rcases List.mem_append.mp hmem with hold | hnew
    · exact h.requests hold
    · exact known_of_quotes (RaftNode.quotes_broadcast hrun) (h.logs id) hnew
  | @submit id key value tombstone r res sent hid hrun =>
    have hnew := known_newEntry hs hid hrun
    rcases RaftNode.submit_cases hrun with ⟨_, rfl, _, rfl⟩ | ⟨hlead, rfl, _, hcast⟩
    · exact h.replace _ rfl (fun q hq => List.mem_append.mp hq) (h.logs id) (by simp)
    · have hknown : ∀ e ∈ (s.nodes id).log ++ [(s.nodes id).newEntry key value tombstone],
          Known cfg (acts ++ [.submit id key value tombstone]) e := by
        intro e he
        rcases List.mem_append.mp he with he | he
        · exact h.logs id e he
        · rw [List.mem_singleton.mp he]; exact hnew hlead
      exact h.replace _ rfl (fun q hq => List.mem_append.mp hq) hknown fun hmem =>
        known_of_quotes (RaftNode.quotes_broadcast hcast) hknown hmem
  | @voteRequest i peer args r reply hp hrun =>
    refine h.replace _ rfl mem_take_send ?_ (by simp)
    rw [(RaftNode.keepsLog_requestVote hrun).log]; exact h.logs peer
  | @voteReply i peer args reply r votes sent hp hrun =>
    have hknown : ∀ e ∈ r.log, Known cfg (acts ++ [.deliver i]) e := by
      rw [(RaftNode.keepsLog_handleVoteReply hrun).log]; exact h.logs _
    refine h.replace _ rfl mem_take_send hknown ?_
    intro peer' args' hmem
    rcases RaftNode.handleVoteReply_cases hrun with ⟨_, _, rfl⟩ | ⟨_, _, _, rfl⟩ |
      ⟨_, _, _, _, ⟨_, rfl⟩ | ⟨_, _, hcast⟩⟩
    · simp at hmem
    · simp at hmem
    · simp at hmem
    · exact known_of_quotes (RaftNode.quotes_broadcast hcast) hknown hmem
  | @appendRequest i peer args r reply hp hrun =>
    refine h.replace _ rfl mem_take_send ?_ (by simp)
    intro e he
    rcases RaftNode.appendEntries_cases hrun with ⟨rfl, _⟩ | rfl | ⟨log, hlog, ci, la, more, rfl⟩
    · exact h.logs peer e (by simpa using he)
    · exact h.logs peer e (by simpa using he)
    · -- taken over from the log or the request
      rcases RaftNode.mem_appendNew hlog e he with he | he
      · exact h.logs peer e he
      · exact h.requests (List.mem_of_getElem? hp) e he
  | @appendReply i peer args reply r hp hrun =>
    refine h.replace [] rfl (fun q hq => Or.inl (List.mem_of_mem_eraseIdx hq)) ?_
      (by simp)
    rw [(RaftNode.keepsLog_handleAppendReply hrun).log]; exact h.logs _
  | lose =>
    exact ⟨h.logs, fun hmem => h.requests (List.mem_of_mem_eraseIdx hmem)⟩
  | @kill id => exact h.replace [] rfl (fun q hq => Or.inl hq) (h.logs id) (by simp)

/-- **Every run** makes no entry without a receipt. -/
theorem allKnown_of_reached (hs : Reached cfg acts s) : AllKnown cfg acts s := by
  refine Run.Reached.invariant ?_ (fun hu h hstep => known_step hu h hstep) hs
  exact ⟨fun id e he => Or.inl (by simpa [Cluster.initial, newRaftNode] using he),
    fun hmem => by simp [Cluster.initial] at hmem⟩

/-! ### Receipts are unique -/

/-- A receipt is about the log of the leader of its term: the entry is at the end of it. -/
theorem Submitted.leads {j : ℕ} {e : RaftLogEntry} (h : Submitted cfg acts j e) :
    ∃ id s, id ∈ cfg.ids ∧ Reached cfg (acts.take j) s ∧
      acts[j]? = some (.submit id e.key e.value e.tombstone) ∧ (s.nodes id).role = .leader ∧
      e = (s.nodes id).newEntry e.key e.value e.tombstone := by
  obtain ⟨id, s, r, sent, hact, hid, hs, hsub⟩ := h
  refine ⟨id, s, hid, hs, hact, ?_⟩
  rcases RaftNode.submit_cases hsub with ⟨_, _, hres, _⟩ | ⟨hlead, _, hres, _⟩
  · simp at hres
  · simp only [Prod.mk.injEq, and_true] at hres
    refine ⟨hlead, ?_⟩
    cases e
    simp_all [RaftNode.newEntry]

/-- **No two receipts** have the same index and term. -/
theorem submitted_unique (hids : (-1 : Int) ∉ cfg.ids) (hs : Reached cfg acts s) {j j' : ℕ}
    {e e' : RaftLogEntry} (h : Submitted cfg acts j e) (h' : Submitted cfg acts j' e')
    (hindex : e.index = e'.index) (hterm : e.term = e'.term) : j = j' := by
  obtain ⟨f, hf, hrun⟩ := exists_abstract_run hids acts
  -- after the earlier one the log of the term is longer than the later one finds it
  have key : ∀ {j j' : ℕ} {e e' : RaftLogEntry}, Submitted cfg acts j e →
      Submitted cfg acts j' e' → e.index = e'.index → e.term = e'.term → ¬ j < j' := by
    intro j j' e e' h h' hindex hterm hlt
    obtain ⟨id, u, hid, hu, hact, hlead, he⟩ := h.leads
    obtain ⟨id', w, hid', hw, _, hlead', he'⟩ := h'.leads
    obtain ⟨v, hstep, hv⟩ := hs.next hact hu
    obtain ⟨_, hsimv⟩ := hf (j + 1) v hv
    obtain ⟨_, hsimw⟩ := hf j' w hw
    cases Cluster.step_takes hstep with
    | submit _ hsub =>
      rcases RaftNode.submit_cases hsub with ⟨hno, _⟩ | ⟨_, rfl, _⟩
      · exact hno hlead
      · -- what the term's leader holds right after the first `Submit`
        have hext := (Steps.inv_extends hsimv.ok.inv (hrun hlt)).2
        have hread := (hsimv.leader_read hid (by
            rw [Cluster.send_nodes, Cluster.setNode_nodes_self]; exact hlead) hext
            (k := (u.nodes id).log.length)
            (e := (u.nodes id).newEntry e.key e.value e.tombstone) (by simp)).2
        rw [Cluster.send_nodes, Cluster.setNode_nodes_self] at hread
        have hterms : (u.nodes id).currentTerm = (w.nodes id').currentTerm := by
          rw [he, he'] at hterm; exact hterm
        have hlens : ((u.nodes id).log.length : Int) = (w.nodes id').log.length := by
          rw [he, he'] at hindex; exact hindex
        have hlt' := (List.getElem?_eq_some_iff.mp hread).1
        rw [show (u.nodes id).currentTerm = (w.nodes id').currentTerm from hterms,
          ← (hsimw.nodes id' hid').log_lead hsimw.ok hlead'] at hlt'
        omega
  rcases lt_trichotomy j j' with hlt | heq | hgt
  · exact absurd hlt (key h h' hindex hterm)
  · exact heq
  · exact absurd hgt (key h' h hindex.symm hterm.symm)

/-! ### Deliveries -/

/-- What a node has delivered at position `k` is its committed log entry at `k + 1`. -/
theorem Sim.delivered_entry {a : Abs} {counted : Int → Int → Finset Int}
    (hsim : Sim cfg s a counted) {id : Int} (hid : id ∈ cfg.ids) {sent : List ApplyMsg}
    (hsent : (s.nodes id).applyCh = some sent) {k : ℕ} {m : ApplyMsg} (hm : sent[k]? = some m) :
    ((k + 1 : ℕ) : Int) ≤ (s.nodes id).commitIndex ∧
      ∃ e, (s.nodes id).log[k + 1]? = some e ∧ m = RaftNode.applyMsg e := by
  have hn := hsim.nodes id hid
  have happlied := hn.applied
  have hk : (k : Int) < (s.nodes id).lastApplied := by
    have hlt := (List.getElem?_eq_some_iff.mp hm).1
    rw [hn.sent_eq hsent, deliveredOf, List.length_map, List.length_take] at hlt
    omega
  refine ⟨by push_cast; omega, ?_⟩
  rw [hn.delivered hsent hk] at hm
  obtain ⟨e, he, rfl⟩ := Option.map_eq_some_iff.mp hm
  exact ⟨e, he, rfl⟩

/-- **Apply streams agree**, between any two nodes at any two moments of a run. -/
theorem delivered_agree (hids : (-1 : Int) ∉ cfg.ids) {i l : ℕ}
    (hs : Reached cfg (acts.take i) s) (hu : Reached cfg (acts.take l) u) {a b : Int}
    (ha : a ∈ cfg.ids) (hb : b ∈ cfg.ids) {sentA sentB : List ApplyMsg}
    (hsentA : (s.nodes a).applyCh = some sentA) (hsentB : (u.nodes b).applyCh = some sentB)
    {k : ℕ} {m m' : ApplyMsg} (hm : sentA[k]? = some m) (hm' : sentB[k]? = some m') :
    m = m' := by
  obtain ⟨f, hf, hrun⟩ := exists_abstract_run hids acts
  obtain ⟨_, hsim⟩ := hf i s hs
  obtain ⟨_, hsim'⟩ := hf l u hu
  obtain ⟨hkc, e, he, rfl⟩ := hsim.delivered_entry ha hsentA hm
  obtain ⟨hkc', e', he', rfl⟩ := hsim'.delivered_entry hb hsentB hm'
  obtain ⟨t, n, hch, _, hn, hread⟩ := hsim.committed_chosen ha (by omega) hkc
  obtain ⟨t', n', hch', _, hn', hread'⟩ := hsim'.committed_chosen hb (by omega) hkc'
  -- both stretches are chosen by the later of the two moments
  obtain ⟨hinv, hext⟩ := Steps.inv_extends hsim.ok.inv (hrun (le_max_left i l))
  have hext' := (Steps.inv_extends hsim'.ok.inv (hrun (le_max_right i l))).2
  have hagree := hinv.chosen_agree (hch.mono hext) (hch'.mono hext') hn hn'
  rw [hread] at he
  rw [hread'] at he'
  obtain ⟨⟨c, hled⟩, _⟩ := hch
  obtain ⟨⟨c', hled'⟩, _⟩ := hch'
  rw [hext.read hled he, hext'.read hled' he'] at hagree
  rw [Option.some.inj hagree]

/-- **Receipts and apply streams.**  At every moment of a run, what a node has sent on its
    channel is numbered 1, 2, 3 and so on; each message carries the command of exactly one
    `Submit`, an earlier one, which is the one that returned the message's index and term; and
    if the message at the index of a receipt has another term than the receipt, no node ever
    delivers the command of that receipt. -/
theorem delivered_receipts (hids : (-1 : Int) ∉ cfg.ids) (hrun : Reached cfg acts u) {i : ℕ}
    (hs : Reached cfg (acts.take i) s) {a : Int} (ha : a ∈ cfg.ids) {sent : List ApplyMsg}
    (hsent : (s.nodes a).applyCh = some sent) :
    (∀ (k : ℕ) (m : ApplyMsg), sent[k]? = some m → m.commandIndex = k + 1) ∧
    (∀ m ∈ sent, ∃ j < i,
      Submitted cfg acts j ⟨m.commandIndex, m.commandTerm, m.key, m.value, m.tombstone⟩ ∧
      ∀ j' e, Submitted cfg acts j' e → e.index = m.commandIndex → e.term = m.commandTerm →
        j' = j) ∧
    ∀ m ∈ sent, ∀ j e, Submitted cfg acts j e → m.commandIndex = e.index →
      m.commandTerm ≠ e.term → ∀ l v, Reached cfg (acts.take l) v → ∀ b ∈ cfg.ids,
        ∀ sent', (v.nodes b).applyCh = some sent' →
          ∀ m' ∈ sent', ¬ (m'.commandIndex = e.index ∧ m'.commandTerm = e.term) := by
  -- in every state a message is numbered by its position
  have hnumber : ∀ {l : ℕ} {v : Cluster} {b : Int} {sent' : List ApplyMsg},
      Reached cfg (acts.take l) v → b ∈ cfg.ids → (v.nodes b).applyCh = some sent' →
      ∀ (k : ℕ) (m : ApplyMsg), sent'[k]? = some m → m.commandIndex = k + 1 := by
    intro l v b sent' hv hb hsent' k m hm
    obtain ⟨α, _, hsim⟩ := exists_sim hids hv
    obtain ⟨_, e, he, rfl⟩ := hsim.delivered_entry hb hsent' hm
    have := (hsim.nodes b hb).numbered hsim.ok _ e he
    rw [show (RaftNode.applyMsg e).commandIndex = e.index from rfl, this]
    push_cast; rfl
  refine ⟨hnumber hs ha hsent, ?_, ?_⟩
  · intro m hm
    obtain ⟨k, hk⟩ := List.mem_iff_getElem?.mp hm
    have hindex := hnumber hs ha hsent k m hk
    obtain ⟨α, _, hsim⟩ := exists_sim hids hs
    obtain ⟨_, e, he, rfl⟩ := hsim.delivered_entry ha hsent hk
    rcases (allKnown_of_reached hs).logs a e (List.mem_of_getElem? he) with rfl | ⟨j, hj, hsub⟩
    · -- the dummy has index 0
      rw [show (RaftNode.applyMsg dummyEntry).commandIndex = 0 from rfl] at hindex
      omega
    · have hji : j < i ∧ j < acts.length := by
        rw [List.length_take] at hj; omega
      have hsub' : Submitted cfg acts j e := by
        obtain ⟨id, w, r, sent', hact, hid, hw, hrun'⟩ := hsub
        refine ⟨id, w, r, sent', ?_, hid, ?_, hrun'⟩
        · rwa [List.getElem?_take_of_lt hji.1] at hact
        · rwa [List.take_take, min_eq_left (le_of_lt hji.1)] at hw
      exact ⟨j, hji.1, hsub', fun j' e' h' hi ht =>
        submitted_unique hids hrun h' hsub' hi ht⟩
  · intro m hm j e _ hindex hterm l v hv b hb sent' hsent' m' hm' hsame
    obtain ⟨k, hk⟩ := List.mem_iff_getElem?.mp hm
    obtain ⟨k', hk'⟩ := List.mem_iff_getElem?.mp hm'
    have h1 := hnumber hs ha hsent k m hk
    have h2 := hnumber hv hb hsent' k' m' hk'
    obtain rfl : k = k' := by omega
    rw [delivered_agree hids hs hv ha hb hsent hsent' hk hk'] at hterm
    exact hterm hsame.2

/-- A `Submit` of a concrete run. -/
theorem submitted_of_map {j : ℕ} {e : RaftLogEntry} (id : Int)
    (hact : acts[j]? = some (.submit id e.key e.value e.tombstone)) (hid : id ∈ cfg.ids)
    (hrun : ((acts.take j).foldlM (Cluster.step cfg) (Cluster.initial cfg)).map (fun s =>
      ((s.nodes id).submit e.key e.value e.tombstone).map fun res => res.2.1) =
        .ok (some (e.index, e.term, true))) :
    Submitted cfg acts j e := by
  obtain ⟨s, hs, hres⟩ := Run.exists_reached (Cluster.step cfg) (Cluster.initial cfg) (acts.take j)
    _ _ hrun
  obtain ⟨⟨r, res, sent⟩, hsub, rfl⟩ := Option.map_eq_some_iff.mp hres
  exact ⟨id, s, r, sent, hact, hid, hs, hsub⟩

/-- Node 1 has delivered, after `pairRun`, the command of step 3 and of no other. -/
theorem delivered_receipts_pair : ∃ s, Reached pair pairRun s ∧
    (s.nodes 1).applyCh = some [⟨true, 1, 1, [7], [9], false⟩] ∧
    Submitted pair pairRun 3 ⟨1, 1, [7], [9], false⟩ ∧
    ∀ j e, Submitted pair pairRun j e → e.index = 1 → e.term = 1 → j = 3 := by
  obtain ⟨s, hs, hsent⟩ := Run.exists_reached (Cluster.step pair) (Cluster.initial pair) pairRun
    (fun s => (s.nodes 1).applyCh) (some [⟨true, 1, 1, [7], [9], false⟩]) (by decide)
  have hsub : Submitted pair pairRun 3 ⟨1, 1, [7], [9], false⟩ :=
    submitted_of_map 0 (by decide) (by decide) (by decide)
  obtain ⟨_, hreceipt, _⟩ := delivered_receipts (by decide) hs
    (i := pairRun.length) (by rw [List.take_length]; exact hs) (by decide) hsent
  obtain ⟨j, _, _, honly⟩ := hreceipt _ (List.mem_singleton_self _)
  refine ⟨s, hs, hsent, hsub, fun j' e h hi ht => ?_⟩
  rw [honly j' e h hi ht, honly 3 _ hsub rfl rfl]

/-- With an id -1 two `Submit`s return the same index and term, and node 0 has delivered the
    command of one of them. -/
theorem receipts_collide_sentinel : ∃ s m,
    Reached sentinelTrio (sentinelTakeover.take 10) s ∧
    (s.nodes 0).applyCh = some [m] ∧
    ¬ ∃ j < 10, Submitted sentinelTrio (sentinelTakeover.take 10) j
        ⟨m.commandIndex, m.commandTerm, m.key, m.value, m.tombstone⟩ ∧
      ∀ j' e, Submitted sentinelTrio (sentinelTakeover.take 10) j' e →
        e.index = m.commandIndex → e.term = m.commandTerm → j' = j := by
  obtain ⟨s, hs, hsent⟩ :=
    Run.exists_reached (Cluster.step sentinelTrio) (Cluster.initial sentinelTrio)
    (sentinelTakeover.take 10) (fun s => (s.nodes 0).applyCh) (some [⟨true, 1, 1, [7], [9], false⟩])
    (by decide)
  refine ⟨s, _, hs, hsent, ?_⟩
  rintro ⟨j, _, _, honly⟩
  have h6 : Submitted sentinelTrio (sentinelTakeover.take 10) 6 ⟨1, 1, [7], [9], false⟩ :=
    submitted_of_map 0 (by decide) (by decide) (by decide)
  have h7 : Submitted sentinelTrio (sentinelTakeover.take 10) 7 ⟨1, 1, [8], [], true⟩ :=
    submitted_of_map (-1) (by decide) (by decide) (by decide)
  have := honly 6 _ h6 rfl rfl
  have := honly 7 _ h7 rfl rfl
  omega

end Hallownest.Consensus
