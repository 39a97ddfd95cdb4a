import Hallownest.Consensus.SharedLog
import Hallownest.Replicas

namespace Hallownest

open Consensus
open Network (StagwayServer)
open Network.StagwayServer (served)
open Storage (MemTableOptions Op contents newMemTable)

namespace Deployment

/-!
# Deployment — what followers read

A server answers reads from the table of its own node, without asking the other nodes.  The
table of a leader is ahead of the log, since the server writes into it directly; the table of a
node that never took a write is not.

* `writes` — the writes that are committed, in the order of the one log;
* `Follows` — the table of a node is a first part of these writes;
* `follower_reads` — at any two moments, any two such nodes read the same sequence of writes, each
  up to some point, and no node goes back in it.
-/

variable {cfg : Config} {hosts : Int → Host} {events : List Event} {d d' u v : Deployment}

/-- The committed writes. -/
def writes (cfg : Config) (d : Deployment) : List Op :=
  ((d.cluster.committed cfg).drop 1).map fun e => writeOf (RaftNode.applyMsg e)

/-- A node with an empty table at the start, which does not lead when a client asks it for a
    write. -/
structure ReadsOnly (cfg : Config) (hosts : Int → Host) (events : List Event) (id : Int)
    (opts : MemTableOptions) : Prop where
  mem : id ∈ cfg.ids
  channel : cfg.hasApplyCh id = true
  fresh : (hosts id).memTable = some (newMemTable opts) ∧ (hosts id).consumed = 0
  legal : ∀ j e x, events[j]? = some e → Reached cfg hosts (events.take j) x →
    Legal (newMemTable opts).opts x id e
  refuses : ∀ j op x, events[j]? = some (.submit id op) → Reached cfg hosts (events.take j) x →
    (x.cluster.nodes id).role ≠ .leader

/-- The table of a node is what the messages out of its channel left, and it has no write in
    progress. -/
structure Follows (d : Deployment) (id : Int) (opts : MemTableOptions) (sent : List ApplyMsg) :
    Prop where
  table : Table (d.hosts id) opts (contents ((sent.take (d.hosts id).consumed).map writeOf))
  channel : (d.cluster.nodes id).applyCh = some sent
  consumed_le : (d.hosts id).consumed ≤ sent.length
  calls : ∀ c ∈ d.calls, c.id ≠ id

/-! ### One step -/

/-- A write in progress was so before, or a leader has accepted it. -/
theorem calls_step {e : Event} (hstep : d.step cfg e = .ok d') {c : Call} (hc : c ∈ d'.calls) :
    (∃ c₀ ∈ d.calls, c₀.id = c.id) ∨
      ∃ op, e = .submit c.id op ∧ (d.cluster.nodes c.id).role = .leader := by
  cases step_happens hstep with
  | @accepted id op _ _ _ hlead _ _ =>
    rcases List.mem_append.mp hc with hc | hc
    · exact Or.inl ⟨c, hc, rfl⟩
    · rw [List.mem_singleton.mp hc]
      exact Or.inr ⟨op, rfl, hlead⟩
  | @logWAL k _ id reply _ hcall =>
    rcases List.mem_or_eq_of_mem_set hc with hc | rfl
    · exact Or.inl ⟨c, hc, rfl⟩
    · exact Or.inl ⟨⟨id, reply, false⟩, List.mem_of_getElem? hcall, rfl⟩
  | putMemTable _ _ => exact Or.inl ⟨c, List.mem_of_mem_eraseIdx hc, rfl⟩
  | _ => exact Or.inl ⟨c, hc, rfl⟩

/-- **One step** of a node that takes no write: its table gets the next message, or stays. -/
theorem Follows.step {id : Int} {opts : MemTableOptions} {sent : List ApplyMsg}
    (h : Follows d id opts sent) {e : Event} (hstep : d.step cfg e = .ok d') (hid : id ∈ cfg.ids)
    (hlegal : Legal opts d id e) {a : Abs} {counted : Int → Int → Finset Int}
    (hsim : Sim cfg d.cluster a counted)
    (hrefuses : ∀ op, e = .submit id op → (d.cluster.nodes id).role ≠ .leader) :
    (∃ sent', Follows d' id opts sent') ∧ (d.hosts id).consumed ≤ (d'.hosts id).consumed := by
  have hcalls : ∀ c ∈ d'.calls, c.id ≠ id := by
    rintro c hc rfl
    rcases calls_step hstep hc with ⟨c₀, hc₀, heq⟩ | ⟨op, he, hlead⟩
    · exact h.calls c₀ hc₀ heq
    · exact hrefuses op he hlead
  rcases table_step hstep h.table hlegal with ⟨ht, hconsumed⟩ |
    ⟨k, _, reply, _, hcall, _⟩ | ⟨_, sent', msg, _, hsent', hmsg, ht, hconsumed, hcluster⟩
  · -- the channel may have got more messages
    obtain ⟨more, hmore⟩ := sent_grows hstep id
    refine ⟨⟨sent ++ more, ?_, by rw [hmore, h.channel]; rfl, ?_, hcalls⟩, hconsumed.ge⟩
    · rw [hconsumed, List.take_append_of_le_length h.consumed_le]
      exact ht
    · rw [hconsumed, List.length_append]
      exact h.consumed_le.trans (Nat.le_add_right _ _)
  · exact absurd rfl (h.calls _ (List.mem_of_getElem? hcall))
  · obtain rfl : sent = sent' := Option.some.inj (h.channel.symm.trans hsent')
    have hlt := (List.getElem?_eq_some_iff.mp hmsg).1
    refine ⟨⟨sent, ?_, by rw [hcluster]; exact h.channel, by omega, hcalls⟩, by omega⟩
    rw [hconsumed, List.take_add_one, hmsg, Option.toList_some, List.map_append,
      List.map_singleton, Storage.contents_snoc]
    exact ht (sent_valid hsim hid hsent' hmsg)

/-! ### Every run -/

section Runs

variable {id : Int} {opts : MemTableOptions} {i j : ℕ}

/-- **Every run** of a node that takes no write. -/
theorem ReadsOnly.follows (h : ReadsOnly cfg hosts events id opts) (hids : (-1 : Int) ∉ cfg.ids)
    (hv : Reached cfg hosts (events.take j) v) :
    ∃ sent, Follows v id (newMemTable opts).opts sent := by
  refine Run.Reached.onward (I := fun d => ∃ sent, Follows d id (newMemTable opts).opts sent)
    (Nat.zero_le j) (Run.reached_nil.mpr rfl) ⟨[], ?_, ?_, ?_, ?_⟩ ?_ hv
  · rw [List.take_nil]
    exact ⟨_, h.fresh.1, rfl, Storage.models_new _⟩
  · simp [initial, Cluster.initial, newRaftNode, h.channel]
  · exact h.fresh.2.le
  · intro c hc
    simp [initial] at hc
  · intro m y e y' _ _ he hy ih hstep
    obtain ⟨sent, hsent⟩ := ih
    obtain ⟨_, _, hsim⟩ := Reached.sim hids hy
    refine (hsent.step hstep h.mem (h.legal m e y he hy) hsim ?_).1
    rintro op rfl
    exact h.refuses m op y he hy

/-- Such a node does not go back in its channel. -/
theorem ReadsOnly.consumed_mono (h : ReadsOnly cfg hosts events id opts)
    (hids : (-1 : Int) ∉ cfg.ids) (hij : i ≤ j) (hu : Reached cfg hosts (events.take i) u)
    (hv : Reached cfg hosts (events.take j) v) :
    (u.hosts id).consumed ≤ (v.hosts id).consumed := by
  refine Run.Reached.onward (I := fun d => (u.hosts id).consumed ≤ (d.hosts id).consumed) hij hu
    (le_refl _) ?_ hv
  intro m y e y' _ _ he hy hle hstep
  obtain ⟨_, _, hsim⟩ := Reached.sim hids hy
  obtain ⟨sent, hsent⟩ := h.follows hids hy
  refine hle.trans (hsent.step hstep h.mem (h.legal m e y he hy) hsim ?_).2
  rintro op rfl
  exact h.refuses m op y he hy

/-- The committed writes only grow. -/
theorem Reached.writes_grow (hids : (-1 : Int) ∉ cfg.ids) (hij : i ≤ j)
    (hu : Reached cfg hosts (events.take i) u) (hv : Reached cfg hosts (events.take j) v) :
    u.writes cfg <+: v.writes cfg := by
  obtain ⟨f, hf, hsteps, _⟩ := exists_abstract_run hids hosts events
  obtain ⟨_, hsim⟩ := hf i u hu
  obtain ⟨_, hsim'⟩ := hf j v hv
  obtain ⟨n, hn, heq, _⟩ := Cluster.committed_spec cfg u.cluster
  have hgrows : u.cluster.committed cfg <+: v.cluster.committed cfg := by
    rw [heq]
    exact (hsim.committed_grows hsim' (hsteps hij) hn).trans (hsim'.committed_prefix_shared hn)
  exact (hgrows.drop 1).map _

/-- The table of a node that takes no write is what a first part of the committed writes left. -/
theorem ReadsOnly.table (h : ReadsOnly cfg hosts events id opts) (hids : (-1 : Int) ∉ cfg.ids)
    (hv : Reached cfg hosts (events.take j) v) :
    (v.hosts id).consumed ≤ (v.writes cfg).length ∧
      Table (v.hosts id) (newMemTable opts).opts
        (contents ((v.writes cfg).take (v.hosts id).consumed)) := by
  obtain ⟨sent, hsent⟩ := h.follows hids hv
  obtain ⟨_, _, hsim⟩ := Reached.sim hids hv
  have hseen := hsim.sent_eq_seen h.mem hsent.channel
  have hpre : sent.map writeOf <+: v.writes cfg := by
    have htake := List.take_prefix ((v.cluster.shared cfg).read id) (v.cluster.shared cfg).entries
    rw [hseen, List.map_map]
    exact (htake.drop 1).map _
  have hlen := hpre.length_le
  rw [List.length_map] at hlen
  have hle := hsent.consumed_le
  refine ⟨hle.trans hlen, ?_⟩
  have htake : (v.writes cfg).take (v.hosts id).consumed =
      (sent.take (v.hosts id).consumed).map writeOf := by
    obtain ⟨more, hmore⟩ := hpre
    rw [← hmore, List.take_append_of_le_length (by rw [List.length_map]; exact hle),
      List.map_take]
  rw [htake]
  exact hsent.table

theorem getGeo_of_table {ops : List Op} (h : Table (v.hosts id) opts (contents ops))
    (hrunning : (v.hosts id).running = true) (key : Bytes) :
    (v.server id).getGeo key = some (served ops key) := by
  obtain ⟨m, hm, _, hmodels⟩ := h
  exact StagwayServer.getGeo_of_models (s := v.server id) hrunning hm hmodels key

end Runs

/-- **Followers read one history.**  Take two nodes that took no write, or one of them twice, and
    a read at each, the second at the same moment or later.  Both answers are those of a single
    server that has served a first part of one sequence, the writes committed by the second
    moment; and a node that is read twice has not gone back in it. -/
theorem follower_reads (hids : (-1 : Int) ∉ cfg.ids) {a b : Int} {optsA optsB : MemTableOptions}
    (ha : ReadsOnly cfg hosts events a optsA) (hb : ReadsOnly cfg hosts events b optsB)
    {i j : ℕ} (hij : i ≤ j) (hu : Reached cfg hosts (events.take i) u)
    (hv : Reached cfg hosts (events.take j) v) (hrunA : (u.hosts a).running = true)
    (hrunB : (v.hosts b).running = true) :
    (u.hosts a).consumed ≤ (v.writes cfg).length ∧
    (v.hosts b).consumed ≤ (v.writes cfg).length ∧
    (a = b → (u.hosts a).consumed ≤ (v.hosts b).consumed) ∧
    ∀ key,
      (u.server a).getGeo key = some (served ((v.writes cfg).take (u.hosts a).consumed) key) ∧
      (v.server b).getGeo key = some (served ((v.writes cfg).take (v.hosts b).consumed) key) := by
  obtain ⟨hleA, htableA⟩ := ha.table hids hu
  obtain ⟨hleB, htableB⟩ := hb.table hids hv
  have hgrow := hu.writes_grow hids hij hv
  -- the first read in terms of the later sequence
  have htake : (u.writes cfg).take (u.hosts a).consumed =
      (v.writes cfg).take (u.hosts a).consumed := by
    obtain ⟨more, hmore⟩ := hgrow
    rw [← hmore, List.take_append_of_le_length hleA]
  rw [htake] at htableA
  refine ⟨hleA.trans hgrow.length_le, hleB, ?_, fun key => ⟨?_, ?_⟩⟩
  · rintro rfl
    exact ha.consumed_mono hids hij hu hv
  · exact getGeo_of_table htableA hrunA key
  · exact getGeo_of_table htableB hrunB key

/-- Of three nodes, node 0 is elected and accepts a put and a delete of one key; both are
    committed.  Node 1 gets both from its channel, then node 2 gets the first. -/
def laggard : List Event :=
  [.start 0, .start 1, .start 2, .raft (.electionTimeout 0), .raft (.deliver 0),
    .raft (.deliver 1), .submit 0 (.put [7] [1]), .submit 0 (.delete [7]), .raft (.deliver 5),
    .raft (.deliver 6), .raft (.heartbeatTick 0), .raft (.deliver 6), .raft (.deliver 6),
    .apply 1 1, .apply 1 1, .apply 2 1]

/-- The later read, at node 2, answers with the put that node 1 has already seen deleted: both
    read the sequence of the put and the delete. -/
theorem follower_reads_trio : ∃ u v, Reached trio newHosts (laggard.take 15) u ∧
    Reached trio newHosts (laggard.take 16) v ∧
    v.writes trio = [.put [7] [1], .delete [7]] ∧
    (u.server 1).getGeo [7] = some ([], true, true, none) ∧
    (v.server 2).getGeo [7] = some ([1], false, true, none) := by
  obtain ⟨u, hu, hview⟩ := Run.exists_reached (step trio) (initial trio newHosts)
    (laggard.take 15) (fun d => decide ((d.hosts 1).running = true ∧ (d.hosts 1).consumed = 2))
    true (by decide +kernel)
  obtain ⟨v, hv, hview'⟩ := Run.exists_reached (step trio) (initial trio newHosts)
    (laggard.take 16) (fun d => decide ((d.hosts 2).running = true ∧ (d.hosts 2).consumed = 1 ∧
      d.writes trio = [.put [7] [1], .delete [7]])) true (by decide +kernel)
  obtain ⟨hrun, hconsumed⟩ := of_decide_eq_true hview
  obtain ⟨hrun', hconsumed', hwrites⟩ := of_decide_eq_true hview'
  have hlegal : ∀ e ∈ laggard, ∀ x id, Legal (newMemTable ⟨2, 0⟩).opts x id e := by
    simp [laggard, Legal, newMemTable]
  have hasked : ∀ e ∈ laggard, ∀ id op, e = .submit id op → id = 0 := by
    simp [laggard]
  have hreads : ∀ id ∈ trio.ids, id ≠ 0 → ReadsOnly trio newHosts laggard id ⟨2, 0⟩ := by
    intro id hid hne
    refine ⟨hid, rfl, ⟨rfl, rfl⟩, ?_, ?_⟩
    · intro j e x he _
      exact hlegal e (List.mem_of_getElem? he) x id
    · intro j op x he _
      exact absurd (hasked _ (List.mem_of_getElem? he) id op rfl) hne
  obtain ⟨_, _, _, hread⟩ := follower_reads (by decide) (hreads 1 (by decide) (by decide))
    (hreads 2 (by decide) (by decide)) (by decide : 15 ≤ 16) hu hv hrun hrun'
  obtain ⟨hfirst, hsecond⟩ := hread [7]
  rw [hwrites, hconsumed] at hfirst
  rw [hwrites, hconsumed'] at hsecond
  exact ⟨u, v, hu, hv, hwrites, hfirst, hsecond⟩

end Deployment

end Hallownest
