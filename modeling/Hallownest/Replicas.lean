import Hallownest.Consensus.Receipts
import Hallownest.Deployment

namespace Hallownest

open Bench (Disk)
open Consensus
open Network (StagwayServer)
open Storage (MemTable MemTableOptions Models Op contents lastWrite newMemTable)

/-!
# Replicas — the tables of a deployment

A command reaches the table of the node that accepts it twice: when the write returns, and when
the apply loop gets it from the channel.  The tables of the other nodes it reaches once.

* `table_step` — what a step does to the table of a node.
* `Tracks` — the table holds what came out of the channel, or an accepted write that is still to
  come; `tracks_step` and `Reached.tracks`.
* `quiescent_converge` — when all logs are the same, applied and drained, all tables answer the
  same, provided that every accepted write is held by the leaders of later terms and no write
  returns after a later command on its key came out of the channel.  A write that a deposed
  leader had accepted stays in its table otherwise (`quiescent_diverge`).
* `leader_reads_last` — a leader answers a get with the last acknowledged write on the key,
  provided that no other command on it was on its way to the table when that write returned.
  Otherwise the answer goes back in time (`leader_reads_stale`).
-/

namespace Deployment

variable {cfg : Config} {hosts : Int → Host} {events : List Event} {d d' : Deployment}

/-! ### Tables -/

/-- The write that the apply loop makes for a message. -/
def writeOf (msg : ApplyMsg) : Op :=
  if msg.tombstone then .delete msg.key else .put msg.key msg.value

theorem writeOf_key (msg : ApplyMsg) : (writeOf msg).key = msg.key := by
  unfold writeOf
  split <;> rfl

theorem applyCommitted_eq {m : MemTable} {msg : ApplyMsg} (hvalid : msg.commandValid = true)
    (newLevel : ℕ) : applyCommitted m msg newLevel = m.apply (writeOf msg) newLevel := by
  unfold applyCommitted writeOf
  rw [if_pos hvalid]
  split <;> rfl

/-- For the command of an accepted write it is that write. -/
private theorem writeOf_command (r : Reply) : writeOf (RaftNode.applyMsg r.command) = r.op := by
  obtain ⟨op, res⟩ := r
  cases op <;> rfl

/-- The table of a node has the given options and holds the records `l`. -/
def Table (h : Host) (opts : MemTableOptions) (l : List Entry) : Prop :=
  ∃ m, h.memTable = some m ∧ m.opts = opts ∧ Models m l

/-- A height for a new node of the table of `id` is one that may be drawn. -/
def Legal (opts : MemTableOptions) (d : Deployment) (id : Int) : Event → Prop
  | .putMemTable k newLevel => ∀ reply, d.calls[k]? = some ⟨id, reply, true⟩ →
      1 ≤ newLevel ∧ (newLevel : Int) ≤ opts.maxLevel
  | .apply j newLevel => j = id → 1 ≤ newLevel ∧ (newLevel : Int) ≤ opts.maxLevel
  | _ => True

theorem setHost_hosts_self (d : Deployment) (id : Int) (h : Host) :
    (d.setHost id h).hosts id = h := if_pos rfl

theorem setHost_hosts_of_ne {id j : Int} (h : Host) (hj : j ≠ id) :
    (d.setHost id h).hosts j = d.hosts j := if_neg hj

/-- A write to a table. -/
theorem Table.write {h : Host} {opts : MemTableOptions} {l : List Entry} (ht : Table h opts l)
    {op : Op} {newLevel : ℕ} (hlevel : 1 ≤ newLevel ∧ (newLevel : Int) ≤ opts.maxLevel)
    {memTable : Option MemTable}
    (hrun : h.memTable.mapM (fun m => m.apply op newLevel) = some memTable) {h' : Host}
    (hh' : h'.memTable = memTable) :
    Table h' opts (Assoc.upsert Entry.key op.entry l) := by
  obtain ⟨m, hm, rfl, hmodels⟩ := ht
  rw [hm, Option.mapM_some] at hrun
  obtain ⟨m', happly, rfl⟩ := Option.map_eq_some_iff.mp hrun
  exact ⟨m', hh', hmodels.of_apply hlevel.1 hlevel.2 happly⟩

/-- The direct part of a write, after which it returns. -/
theorem table_put {k newLevel : ℕ} (hstep : d.step cfg (.putMemTable k newLevel) = .ok d')
    {id : Int} {reply : Reply} (hcall : d.calls[k]? = some ⟨id, reply, true⟩)
    {opts : MemTableOptions} {l : List Entry} (ht : Table (d.hosts id) opts l)
    (hlegal : Legal opts d id (.putMemTable k newLevel)) :
    Table (d'.hosts id) opts (Assoc.upsert Entry.key reply.op.entry l) ∧
      (d'.hosts id).consumed = (d.hosts id).consumed ∧ d'.cluster = d.cluster ∧
      d'.replies = d.replies ++ [reply] := by
  cases step_happens hstep with
  | putMemTable hcall' hput =>
    obtain ⟨rfl, rfl, _⟩ := Call.mk.inj (Option.some.inj (hcall.symm.trans hcall'))
    refine ⟨ht.write (hlegal reply hcall) hput ?_, ?_, rfl, rfl⟩
    · show ((d.setHost id _).hosts id).memTable = _
      rw [setHost_hosts_self]
    · show ((d.setHost id _).hosts id).consumed = _
      rw [setHost_hosts_self]

/-- **What a step does to the table of a node**: nothing, or the direct part of a write, or the
    next message of the channel. -/
theorem table_step {e : Event} (hstep : d.step cfg e = .ok d') {id : Int}
    {opts : MemTableOptions} {l : List Entry} (ht : Table (d.hosts id) opts l)
    (hlegal : Legal opts d id e) :
    (Table (d'.hosts id) opts l ∧ (d'.hosts id).consumed = (d.hosts id).consumed) ∨
    (∃ k newLevel reply, e = .putMemTable k newLevel ∧
      d.calls[k]? = some ⟨id, reply, true⟩ ∧
      Table (d'.hosts id) opts (Assoc.upsert Entry.key reply.op.entry l) ∧
      (d'.hosts id).consumed = (d.hosts id).consumed ∧ d'.cluster = d.cluster ∧
      d'.replies = d.replies ++ [reply]) ∨
    ∃ newLevel sent msg, e = .apply id newLevel ∧ (d.cluster.nodes id).applyCh = some sent ∧
      sent[(d.hosts id).consumed]? = some msg ∧
      (msg.commandValid = true →
        Table (d'.hosts id) opts (Assoc.upsert Entry.key (writeOf msg).entry l)) ∧
      (d'.hosts id).consumed = (d.hosts id).consumed + 1 ∧ d'.cluster = d.cluster := by
  -- a host that keeps its table
  have hkeep : ∀ {j : Int} {h : Host}, h.memTable = (d.hosts j).memTable →
      h.consumed = (d.hosts j).consumed →
      Table ((d.setHost j h).hosts id) opts l ∧
        ((d.setHost j h).hosts id).consumed = (d.hosts id).consumed := by
    intro j h hm hc
    by_cases hj : id = j
    · subst hj
      rw [setHost_hosts_self]
      obtain ⟨m, hm', hrest⟩ := ht
      exact ⟨⟨m, hm.trans hm', hrest⟩, hc⟩
    · rw [setHost_hosts_of_ne h hj]
      exact ⟨ht, rfl⟩
  cases step_happens hstep with
  | raft _ => exact Or.inl ⟨ht, rfl⟩
  | refused _ => exact Or.inl ⟨ht, rfl⟩
  | accepted _ _ _ _ => exact Or.inl ⟨ht, rfl⟩
  | logWAL _ => exact Or.inl (hkeep rfl rfl)
  | start => exact Or.inl (hkeep rfl rfl)
  | stop => exact Or.inl (hkeep rfl rfl)
  | @putMemTable k newLevel j reply memTable hcall hput =>
    by_cases hj : id = j
    · subst hj
      exact Or.inr (Or.inl ⟨k, newLevel, reply, rfl, hcall, table_put hstep hcall ht hlegal⟩)
    · left
      show Table ((d.setHost j _).hosts id) opts l ∧ ((d.setHost j _).hosts id).consumed = _
      rw [setHost_hosts_of_ne _ hj]
      exact ⟨ht, rfl⟩
  | @apply j newLevel sent msg memTable hsent hmsg happly =>
    by_cases hj : id = j
    · subst hj
      refine Or.inr (Or.inr ⟨newLevel, sent, msg, rfl, hsent, hmsg, fun hvalid => ?_, ?_, rfl⟩)
      · rw [setHost_hosts_self]
        simp only [applyCommitted_eq hvalid] at happly
        exact ht.write (hlegal rfl) happly rfl
      · rw [setHost_hosts_self]
    · left
      rw [setHost_hosts_of_ne _ hj]
      exact ⟨ht, rfl⟩

/-! ### Channels -/

theorem sent_grows {e : Event} (hstep : d.step cfg e = .ok d') (id : Int) :
    ∃ more, (d'.cluster.nodes id).applyCh = (d.cluster.nodes id).applyCh.map (· ++ more) := by
  rcases (step_moves hstep).1 with hsame | ⟨act, hact⟩
  · exact ⟨[], by rw [hsame]; simp⟩
  · exact Cluster.step_applyCh hact id

/-- A write in progress was accepted. -/
theorem Reached.calls_ok (h : Reached cfg hosts events d) :
    ∀ c ∈ d.calls, c.reply.result.err = none := by
  refine Run.Reached.invariant (I := fun _ d => ∀ c ∈ d.calls, c.reply.result.err = none) ?_ ?_ h
  · intro c hc; simp [initial] at hc
  · intro events d e d' _ ih hstep c hc
    cases step_happens hstep with
    | accepted _ _ _ _ =>
      rcases List.mem_append.mp hc with hc | hc
      · exact ih c hc
      · rw [List.mem_singleton.mp hc]; rfl
    | @logWAL k _ id reply _ hcall =>
      rcases List.mem_or_eq_of_mem_set hc with hc | rfl
      · exact ih c hc
      · exact ih ⟨id, reply, false⟩ (List.mem_of_getElem? hcall)
    | putMemTable _ _ => exact ih c (List.mem_of_mem_eraseIdx hc)
    | _ => exact ih c hc

section Channel

variable {a : Abs} {counted : Int → Int → Finset Int} {id : Int} {sent : List ApplyMsg}

/-- Every message on a channel is a command. -/
theorem sent_valid (hsim : Sim cfg d.cluster a counted) (hid : id ∈ cfg.ids)
    (hsent : (d.cluster.nodes id).applyCh = some sent) {k : ℕ} {msg : ApplyMsg}
    (hmsg : sent[k]? = some msg) : msg.commandValid = true := by
  obtain ⟨_, e, _, rfl⟩ := hsim.delivered_entry hid hsent hmsg
  rfl

/-- The message at the index of a write that is held is that write. -/
theorem Held.message {r : Reply} (h : Held cfg d.cluster r) (hsim : Sim cfg d.cluster a counted)
    (hid : id ∈ cfg.ids) (hsent : (d.cluster.nodes id).applyCh = some sent) {k : ℕ}
    {msg : ApplyMsg} (hmsg : sent[k]? = some msg) (hk : r.result.index = k + 1) :
    writeOf msg = r.op := by
  obtain ⟨hcommit, e, he, rfl⟩ := hsim.delivered_entry hid hsent hmsg
  have hlog := h.committed id hid (by rw [hk]; push_cast at hcommit; exact hcommit)
  rw [hk, show ((k : Int) + 1) = ((k + 1 : ℕ) : Int) by push_cast; rfl, Slice.get_natCast,
    he] at hlog
  rw [Option.some.inj hlog]
  exact writeOf_command r

end Channel

/-! ### Convergence -/

/-- The table of a node holds under each key what the messages out of its channel left, or a
    write that was accepted and is still to come out of it. -/
def Tracks (d : Deployment) (id : Int) (opts : MemTableOptions) : Prop :=
  ∃ l sent, Table (d.hosts id) opts l ∧ (d.cluster.nodes id).applyCh = some sent ∧
    (d.hosts id).consumed ≤ sent.length ∧
    ∀ key, Assoc.lookup Entry.key key l =
        (lastWrite ((sent.take (d.hosts id).consumed).map writeOf) key).map Op.entry ∨
      ∃ r ∈ d.answers, r.result.err = none ∧ r.op.key = key ∧
        Assoc.lookup Entry.key key l = some r.op.entry ∧
        ((d.hosts id).consumed : Int) < r.result.index

/-- No later command on the key of the write has come out of the channel of the node. -/
def NotOvertaken (d : Deployment) (id : Int) (r : Reply) : Prop :=
  ∀ sent, (d.cluster.nodes id).applyCh = some sent → ∀ (i : ℕ) (msg : ApplyMsg),
    r.result.index ≤ i → i < (d.hosts id).consumed → sent[i]? = some msg → msg.key ≠ r.op.key

/-- A write that is among the consumed messages, and not overtaken, is the last on its key. -/
theorem NotOvertaken.last {r : Reply} {id : Int} (h : NotOvertaken d id r)
    (hheld : Held cfg d.cluster r) {a : Abs} {counted : Int → Int → Finset Int}
    (hsim : Sim cfg d.cluster a counted) (hid : id ∈ cfg.ids) {sent : List ApplyMsg}
    (hsent : (d.cluster.nodes id).applyCh = some sent)
    (hconsumed : (d.hosts id).consumed ≤ sent.length)
    (hidx : r.result.index ≤ (d.hosts id).consumed) :
    lastWrite ((sent.take (d.hosts id).consumed).map writeOf) r.op.key = some r.op := by
  have hpos := hheld.pos
  let p := (r.result.index - 1).toNat
  have hp : p < sent.length := by omega
  have hop := hheld.message hsim hid hsent (List.getElem?_eq_getElem hp) (by omega)
  refine Storage.lastWrite_of_getElem? (p := p) ?_ ?_
  · rw [List.getElem?_map, List.getElem?_take_of_lt (by omega), List.getElem?_eq_getElem hp]
    exact congrArg some hop
  · intro q op' hq hop'
    rw [List.getElem?_map] at hop'
    obtain ⟨msg, hmsg, rfl⟩ := Option.map_eq_some_iff.mp hop'
    have hlt : q < (d.hosts id).consumed := by
      have := (List.getElem?_eq_some_iff.mp hmsg).1
      rw [List.length_take] at this
      omega
    rw [List.getElem?_take_of_lt hlt] at hmsg
    rw [writeOf_key]
    exact h sent hsent q msg (by omega) hlt hmsg

/-- **One step** keeps the table of a node on track. -/
theorem tracks_step {e : Event} (hstep : d.step cfg e = .ok d') {id : Int} (hid : id ∈ cfg.ids)
    {opts : MemTableOptions} (hlegal : Legal opts d id e) {a : Abs}
    {counted : Int → Int → Finset Int} (hsim : Sim cfg d.cluster a counted)
    (hcalls : ∀ c ∈ d.calls, c.reply.result.err = none)
    (hheld : ∀ r ∈ d.answers, r.result.err = none → Held cfg d.cluster r)
    (hover : ∀ k newLevel reply, e = .putMemTable k newLevel →
      d.calls[k]? = some ⟨id, reply, true⟩ → NotOvertaken d id reply)
    (h : Tracks d id opts) : Tracks d' id opts := by
  obtain ⟨l, sent, ht, hsent, hle, hkeys⟩ := h
  have hmono : ∀ {r : Reply}, r ∈ d.answers → r ∈ d'.answers := fun hr => answers_mono hstep hr
  rcases table_step hstep ht hlegal with ⟨ht', hconsumed⟩ |
    ⟨k, newLevel, reply, rfl, hcall, ht', hconsumed, hcluster, _⟩ |
    ⟨newLevel, sent', msg, rfl, hsent', hmsg, ht', hconsumed, hcluster⟩
  · -- the table is as before; the channel may have got more messages
    obtain ⟨more, hmore⟩ := sent_grows hstep id
    refine ⟨l, sent ++ more, ht', by rw [hmore, hsent]; rfl, ?_, fun key => ?_⟩
    · rw [hconsumed, List.length_append]; omega
    · rw [hconsumed, List.take_append_of_le_length hle]
      rcases hkeys key with hA | ⟨r, hr, hrest⟩
      · exact Or.inl hA
      · exact Or.inr ⟨r, hmono hr, hrest⟩
  · -- the direct part of a write
    have hr : reply ∈ d.answers :=
      List.mem_append_left _ (List.mem_map_of_mem (List.mem_of_getElem? hcall))
    have hok := hcalls _ (List.mem_of_getElem? hcall)
    refine ⟨_, sent, ht', by rw [hcluster]; exact hsent, by rw [hconsumed]; exact hle,
      fun key => ?_⟩
    rw [Storage.lookup_write, hconsumed]
    by_cases hkey : reply.op.key = key
    · subst hkey
      rw [if_pos rfl]
      rcases Int.lt_or_le (d.hosts id).consumed reply.result.index with hlt | hge
      · exact Or.inr ⟨reply, hmono hr, hok, rfl, rfl, hlt⟩
      · left
        rw [(hover k newLevel reply rfl hcall).last (hheld reply hr hok) hsim hid hsent hle hge]
        rfl
    · rw [if_neg hkey]
      rcases hkeys key with hA | ⟨r, hr, hrest⟩
      · exact Or.inl hA
      · exact Or.inr ⟨r, hmono hr, hrest⟩
  · -- the next message of the channel
    obtain rfl : sent = sent' := Option.some.inj (hsent.symm.trans hsent')
    have hlt := (List.getElem?_eq_some_iff.mp hmsg).1
    refine ⟨_, sent, ht' (sent_valid hsim hid hsent hmsg), by rw [hcluster]; exact hsent,
      by rw [hconsumed]; omega, fun key => ?_⟩
    rw [Storage.lookup_write, hconsumed, List.take_add_one, hmsg,
      Option.toList_some, List.map_append, List.map_singleton, Storage.lastWrite_snoc]
    by_cases hkey : (writeOf msg).key = key
    · rw [if_pos hkey, if_pos hkey]
      exact Or.inl rfl
    · rw [if_neg hkey, if_neg hkey]
      rcases hkeys key with hA | ⟨r, hr, hok, hrkey, hlookup, hidx⟩
      · exact Or.inl hA
      · -- a write still to come is not this one, which is on another key
        refine Or.inr ⟨r, hmono hr, hok, hrkey, hlookup, ?_⟩
        have hne : r.result.index ≠ (d.hosts id).consumed + 1 := by
          intro heq
          have := (hheld r hr hok).message hsim hid hsent hmsg heq
          rw [this] at hkey
          exact hkey hrkey
        push_cast
        omega

/-- **Every run** from a fresh table keeps it on track, if the writes accepted so far are held at
    every moment and none is overtaken. -/
theorem Reached.tracks (hids : (-1 : Int) ∉ cfg.ids) {id : Int} (hid : id ∈ cfg.ids)
    (hch : cfg.hasApplyCh id = true) {opts : MemTableOptions}
    (hfresh : (hosts id).memTable = some (newMemTable opts) ∧ (hosts id).consumed = 0)
    (hlegal : ∀ j e x, events[j]? = some e → Reached cfg hosts (events.take j) x →
      Legal (newMemTable opts).opts x id e)
    (hheld : ∀ j x, j ≤ events.length → Reached cfg hosts (events.take j) x →
      ∀ r ∈ x.answers, r.result.err = none → Held cfg x.cluster r)
    (hover : ∀ j k newLevel x r, events[j]? = some (.putMemTable k newLevel) →
      Reached cfg hosts (events.take j) x → x.calls[k]? = some ⟨id, r, true⟩ →
        NotOvertaken x id r)
    (hd : Reached cfg hosts events d) : Tracks d id (newMemTable opts).opts := by
  refine Run.Reached.along (I := fun d => Tracks d id (newMemTable opts).opts) ?_ ?_ hd
  · refine ⟨[], [], ⟨_, hfresh.1, rfl, Storage.models_new _⟩, ?_, ?_, fun key => ?_⟩
    · simp [initial, Cluster.initial, newRaftNode, hch]
    · rw [show ((initial cfg hosts).hosts id).consumed = 0 from hfresh.2]
      exact Nat.zero_le _
    · left
      rw [List.take_nil]
      rfl
  · intro i x e x' he hx ih hstep
    have hi : i ≤ events.length := le_of_lt (List.getElem?_eq_some_iff.mp he).1
    replace hx : Reached cfg hosts (events.take i) x := hx
    obtain ⟨_, _, hsim⟩ := hx.sim hids
    refine tracks_step hstep hid (hlegal i e x he hx) hsim hx.calls_ok (hheld i x hi hx) ?_ ih
    intro k newLevel reply heq hcall
    exact hover i k newLevel x reply (by rw [he, heq]) hx hcall

/-- The same log everywhere, all of it committed, applied and out of the channel, and no write
    in progress. -/
structure Quiescent (cfg : Config) (d : Deployment) : Prop where
  logs : ∀ a ∈ cfg.ids, ∀ b ∈ cfg.ids, (d.cluster.nodes a).log = (d.cluster.nodes b).log
  committed : ∀ n ∈ cfg.ids,
    (d.cluster.nodes n).commitIndex = ((d.cluster.nodes n).log.length : Int) - 1
  applied : ∀ n ∈ cfg.ids, (d.cluster.nodes n).lastApplied = (d.cluster.nodes n).commitIndex
  drained : ∀ n ∈ cfg.ids, ∀ sent ∈ (d.cluster.nodes n).applyCh,
    (d.hosts n).consumed = sent.length
  idle : d.calls = []

instance (cfg : Config) (d : Deployment) : Decidable (Quiescent cfg d) :=
  decidable_of_iff
    ((∀ a ∈ cfg.ids, ∀ b ∈ cfg.ids, (d.cluster.nodes a).log = (d.cluster.nodes b).log) ∧
      (∀ n ∈ cfg.ids,
        (d.cluster.nodes n).commitIndex = ((d.cluster.nodes n).log.length : Int) - 1) ∧
      (∀ n ∈ cfg.ids, (d.cluster.nodes n).lastApplied = (d.cluster.nodes n).commitIndex) ∧
      (∀ n ∈ cfg.ids, ∀ sent ∈ (d.cluster.nodes n).applyCh,
        (d.hosts n).consumed = sent.length) ∧ d.calls = [])
    ⟨fun ⟨hlogs, hcommitted, happlied, hdrained, hidle⟩ =>
      ⟨hlogs, hcommitted, happlied, hdrained, hidle⟩,
    fun h => ⟨h.logs, h.committed, h.applied, h.drained, h.idle⟩⟩

/-- The table of a node in a quiescent state holds what its log says. -/
theorem Tracks.quiescent {id : Int} {opts : MemTableOptions} (h : Tracks d id opts)
    (hid : id ∈ cfg.ids) {a : Abs} {counted : Int → Int → Finset Int}
    (hsim : Sim cfg d.cluster a counted) (hq : Quiescent cfg d)
    (hheld : ∀ r ∈ d.answers, r.result.err = none → Held cfg d.cluster r) :
    ∃ l, Table (d.hosts id) opts l ∧ ∀ key, Assoc.lookup Entry.key key l =
      (lastWrite ((deliveredOf (d.cluster.nodes id).log
        (d.cluster.nodes id).lastApplied).map writeOf) key).map Op.entry := by
  obtain ⟨l, sent, ht, hsent, _, hkeys⟩ := h
  have hdelivered := (hsim.nodes id hid).sent_eq hsent
  have hdrained := hq.drained id hid sent hsent
  refine ⟨l, ht, fun key => ?_⟩
  rcases hkeys key with hA | ⟨r, hr, hok, _, _, hidx⟩
  · rwa [hdrained, List.take_length, hdelivered] at hA
  · -- some node holds the write, so the log is long enough for it to have come out
    exfalso
    obtain ⟨c, hc, hget⟩ := (hheld r hr hok).holder
    obtain ⟨_, hread⟩ := Slice.get_eq_some.mp hget
    have hlt := (List.getElem?_eq_some_iff.mp hread).1
    rw [hq.logs c hc id hid] at hlt
    have happlied := hq.applied id hid
    have hcommitted := hq.committed id hid
    have hlen : sent.length = (d.cluster.nodes id).lastApplied.toNat := by
      rw [hdelivered, deliveredOf, List.length_map, List.length_take, List.length_drop]
      omega
    omega

/-- **Quiescent replicas agree.**  In a run in whose states every accepted write is held by the
    leaders of later terms, and in which no write returns after a later command on its key has
    come out of the channel, all tables answer every `Get` the same in every quiescent state. -/
theorem quiescent_converge (hids : (-1 : Int) ∉ cfg.ids)
    (hch : ∀ id ∈ cfg.ids, cfg.hasApplyCh id = true) (opts : Int → MemTableOptions)
    (hfresh : ∀ id ∈ cfg.ids, (hosts id).memTable = some (newMemTable (opts id)) ∧
      (hosts id).consumed = 0) {v : Deployment} (hv : Reached cfg hosts events v)
    (hlegal : ∀ j e x, events[j]? = some e → Reached cfg hosts (events.take j) x →
      ∀ id ∈ cfg.ids, Legal (newMemTable (opts id)).opts x id e)
    (hheld : ∀ j ≤ events.length, ∀ x, Reached cfg hosts (events.take j) x → ∀ r ∈ v.replies,
      r.result.err = none → HeldAbove cfg x.cluster r.command)
    (hover : ∀ j k newLevel x id r, events[j]? = some (.putMemTable k newLevel) →
      Reached cfg hosts (events.take j) x → x.calls[k]? = some ⟨id, r, true⟩ →
        NotOvertaken x id r)
    (hq : Quiescent cfg v) {a b : Int} (ha : a ∈ cfg.ids) (hb : b ∈ cfg.ids) (key : Bytes) :
    ∃ m m' res, (v.hosts a).memTable = some m ∧ (v.hosts b).memTable = some m' ∧
      m.get key = some res ∧ m'.get key = some res := by
  have hend : Reached cfg hosts (events.take events.length) v := by rwa [List.take_length]
  -- at every moment, what is accepted is held
  have hfate : ∀ i x, i ≤ events.length → Reached cfg hosts (events.take i) x →
      ∀ r ∈ x.answers, r.result.err = none → Held cfg x.cluster r := by
    intro i x hi hx r hr hok
    refine hx.held hids hr hok fun j hj y hy => hheld j (hj.trans hi) y hy r ?_ hok
    have := hx.answers_mono hi hend hr
    rwa [answers, hq.idle, List.map_nil, List.nil_append] at this
  have htracks : ∀ id ∈ cfg.ids, Tracks v id (newMemTable (opts id)).opts := fun id hid =>
    hv.tracks hids hid (hch id hid) (hfresh id hid)
      (fun j e x he hx => hlegal j e x he hx id hid) hfate
      (fun j k newLevel x r => hover j k newLevel x id r)
  obtain ⟨_, _, hsim⟩ := hend.sim hids
  have hheld' := hfate _ v (le_refl _) hend
  obtain ⟨l, ⟨m, hm, _, hmodels⟩, hl⟩ := (htracks a ha).quiescent ha hsim hq hheld'
  obtain ⟨l', ⟨m', hm', _, hmodels'⟩, hl'⟩ := (htracks b hb).quiescent hb hsim hq hheld'
  refine ⟨m, m', _, hm, hm', hmodels.get key, ?_⟩
  rw [hmodels'.get key, hl key, hl' key, hq.logs b hb a ha, hq.applied b hb, hq.applied a ha,
    hq.committed b hb, hq.committed a ha, hq.logs b hb a ha]

/-- Of two nodes, node 0 accepts a write, commits it and gets it from the channel before the
    write returns; then node 1 takes over. -/
def settled : List Event :=
  [.start 0, .raft (.electionTimeout 0), .raft (.deliver 0), .raft (.deliver 0),
    .submit 0 (.put [7] [9]), .raft (.deliver 1), .raft (.deliver 1), .raft (.heartbeatTick 0),
    .raft (.deliver 1), .apply 0 1, .logWAL 0 Disk.ok, .putMemTable 0 1,
    .raft (.electionTimeout 1), .raft (.deliver 2), .raft (.deliver 2), .apply 1 1]

/-- At the end of that run both tables have the write. -/
theorem quiescent_converge_pair : ∃ v m m', Reached pair newHosts settled v ∧
    Quiescent pair v ∧ (v.hosts 0).memTable = some m ∧ (v.hosts 1).memTable = some m' ∧
    m.get [7] = some ([9], false, true) ∧ m'.get [7] = some ([9], false, true) := by
  obtain ⟨v, hv, hview⟩ := Run.exists_reached (step pair) (initial pair newHosts) settled
    (fun d => decide (Quiescent pair d ∧ d.replies = [⟨.put [7] [9], ⟨1, 1, true, none⟩⟩] ∧
      ((d.hosts 0).memTable.bind fun m => m.get [7]) = some ([9], false, true))) true
    (by decide +kernel)
  obtain ⟨hq, hreplies, hget⟩ := of_decide_eq_true hview
  have hlegal : ∀ e ∈ settled, ∀ x id, Legal (newMemTable ⟨2, 0⟩).opts x id e := by
    simp [settled, Legal, newMemTable]
  -- the conditions, evaluated in each of the states
  have hheld : ∀ j ≤ settled.length, ((settled.take j).foldlM (step pair)
      (initial pair newHosts)).map (fun d => decide (HeldAbove pair d.cluster
        (Reply.command ⟨.put [7] [9], ⟨1, 1, true, none⟩⟩))) = .ok true := by
    decide +kernel
  have hahead : ∀ j ≤ settled.length, ((settled.take j).foldlM (step pair)
      (initial pair newHosts)).map (fun d => decide (∀ c ∈ d.calls,
        ((d.hosts c.id).consumed : Int) ≤ c.reply.result.index)) = .ok true := by
    decide +kernel
  have hover : ∀ j k newLevel x id r, settled[j]? = some (.putMemTable k newLevel) →
      Reached pair newHosts (settled.take j) x → x.calls[k]? = some ⟨id, r, true⟩ →
        NotOvertaken x id r := by
    intro j k newLevel x id r he hx hcall sent _ i msg hi hlt
    have hj : j ≤ settled.length := le_of_lt (List.getElem?_eq_some_iff.mp he).1
    have hle : ((x.hosts id).consumed : Int) ≤ r.result.index :=
      of_decide_eq_true (hx.view_eq (hahead j hj)) ⟨id, r, true⟩ (List.mem_of_getElem? hcall)
    omega
  obtain ⟨m, m', res, hm, hm', hres, hres'⟩ := quiescent_converge (by decide)
    (fun _ _ => rfl) (fun _ => ⟨2, 0⟩) (fun _ _ => ⟨rfl, rfl⟩) hv
    (fun j e x he _ id _ => hlegal e (List.mem_of_getElem? he) x id)
    (fun j hj x hx r hr _ => by
      rw [hreplies] at hr
      rw [List.mem_singleton.mp hr]
      exact of_decide_eq_true (hx.view_eq (hheld j hj)))
    hover hq (a := 0) (b := 1) (by decide) (by decide) [7]
  have hread : m.get [7] = some ([9], false, true) := by
    rw [hm] at hget
    exact hget
  exact ⟨v, m, m', hv, hq, hm, hm', hread, by rw [hres', ← hres, hread]⟩

/-- Node 1, which leads after `lostWrite`, brings all nodes to its log, and all apply it. -/
def settling : List Event :=
  [.logWAL 0 Disk.ok, .putMemTable 0 1, .raft (.deliver 8), .raft (.heartbeatTick 1),
    .raft (.deliver 9), .raft (.deliver 9), .apply 0 1, .apply 1 1, .apply 2 1]

/-- **Quiescent replicas disagree**: node 0 keeps the write that is in no log any more. -/
theorem quiescent_diverge : ∃ v m m', Reached trio newHosts (lostWrite ++ settling) v ∧
    Quiescent trio v ∧ (v.hosts 0).memTable = some m ∧ (v.hosts 1).memTable = some m' ∧
    m.get [7] = some ([9], false, true) ∧ m'.get [7] = some ([], false, false) := by
  obtain ⟨v, hv, hview⟩ := Run.exists_reached (step trio) (initial trio newHosts)
    (lostWrite ++ settling) (fun d => decide (Quiescent trio d ∧
      ((d.hosts 0).memTable.bind fun m => m.get [7]) = some ([9], false, true) ∧
      ((d.hosts 1).memTable.bind fun m => m.get [7]) = some ([], false, false))) true
    (by decide +kernel)
  obtain ⟨hq, hget, hget'⟩ := of_decide_eq_true hview
  obtain ⟨m, hm, hread⟩ := Option.bind_eq_some_iff.mp hget
  obtain ⟨m', hm', hread'⟩ := Option.bind_eq_some_iff.mp hget'
  exact ⟨v, m, m', hv, hq, hm, hm', hread, hread'⟩

/-! ### Reads of a leader -/

theorem replies_step {e : Event} (hstep : d.step cfg e = .ok d') :
    ∃ more, d'.replies = d.replies ++ more := by
  cases step_happens hstep with
  | refused _ => exact ⟨_, rfl⟩
  | putMemTable _ _ => exact ⟨_, rfl⟩
  | _ => exact ⟨[], (List.append_nil _).symm⟩

theorem Reached.replies_length_le {i l : ℕ} (hil : i ≤ l) {u v : Deployment}
    (hu : Reached cfg hosts (events.take i) u) (hv : Reached cfg hosts (events.take l) v) :
    u.replies.length ≤ v.replies.length := by
  refine Run.Reached.relates (R := fun d d' : Deployment => d.replies.length ≤ d'.replies.length)
    (fun _ => le_refl _) Nat.le_trans (fun hstep => ?_) hil hu hv
  obtain ⟨more, hmore⟩ := replies_step hstep
  rw [hmore, List.length_append]
  omega

/-- A write in progress is in progress after the step too, or it has returned. -/
theorem call_step {e : Event} (hstep : d.step cfg e = .ok d') {c : Call} (hc : c ∈ d.calls) :
    (∃ c' ∈ d'.calls, c'.id = c.id ∧ c'.reply = c.reply) ∨
      d'.replies = d.replies ++ [c.reply] := by
  obtain ⟨i, hi⟩ := List.getElem?_of_mem hc
  cases step_happens hstep with
  | accepted _ _ _ _ => exact Or.inl ⟨c, List.mem_append_left _ hc, rfl, rfl⟩
  | @logWAL k _ id reply _ hcall =>
    left
    by_cases hik : i = k
    · subst hik
      obtain rfl := Option.some.inj (hi.symm.trans hcall)
      have hlt := (List.getElem?_eq_some_iff.mp hi).1
      exact ⟨⟨id, reply, true⟩, List.mem_set hlt _, rfl, rfl⟩
    · refine ⟨c, List.mem_of_getElem? (i := i) ?_, rfl, rfl⟩
      rw [List.getElem?_set_ne (Ne.symm hik)]
      exact hi
  | @putMemTable k _ id reply _ hcall _ =>
    by_cases hik : i = k
    · subst hik
      obtain rfl := Option.some.inj (hi.symm.trans hcall)
      exact Or.inr rfl
    · exact Or.inl ⟨c, List.mem_eraseIdx_iff_getElem?.mpr ⟨i, hik, hi⟩, rfl, rfl⟩
  | _ => exact Or.inl ⟨c, hc, rfl, rfl⟩

/-- A write in progress at some moment has returned when its server is idle. -/
theorem Reached.call_returns {m l n : ℕ} (hml : m ≤ l) {y v : Deployment}
    (hy : Reached cfg hosts (events.take m) y) (hv : Reached cfg hosts (events.take l) v)
    (hn : n ≤ y.replies.length) {c : Call} (hc : c ∈ y.calls) (hidle : v.idle c.id = true) :
    c.reply ∈ v.replies.drop n := by
  have hend : n ≤ v.replies.length ∧ ((∃ c' ∈ v.calls, c'.id = c.id ∧ c'.reply = c.reply) ∨
      c.reply ∈ v.replies.drop n) := by
    refine Run.Reached.onward (I := fun d : Deployment => n ≤ d.replies.length ∧
      ((∃ c' ∈ d.calls, c'.id = c.id ∧ c'.reply = c.reply) ∨ c.reply ∈ d.replies.drop n))
      hml hy ⟨hn, Or.inl ⟨c, hc, rfl, rfl⟩⟩ ?_ hv
    intro _ d e d' _ _ _ _ ⟨hle, hcase⟩ hstep
    obtain ⟨more, hmore⟩ := replies_step hstep
    refine ⟨by rw [hmore, List.length_append]; omega, ?_⟩
    rcases hcase with ⟨c', hc', hid, hreply⟩ | hdone
    · rcases call_step hstep hc' with ⟨c'', hc'', hid', hreply'⟩ | hret
      · exact Or.inl ⟨c'', hc'', hid'.trans hid, hreply'.trans hreply⟩
      · right
        rw [hret, List.drop_append_of_le_length hle, hreply]
        exact List.mem_append_right _ List.mem_cons_self
    · right
      rw [hmore, List.drop_append_of_le_length hle]
      exact List.mem_append_left _ hdone
  rcases hend.2 with ⟨c', hc', hid, _⟩ | hdone
  · rw [idle, List.all_eq_true] at hidle
    exact absurd hid (of_decide_eq_true (hidle c' hc'))
  · exact hdone

/-- The log of a node that stays leader only grows by writes of its server. -/
theorem log_step {e : Event} (hstep : d.step cfg e = .ok d') {id : Int}
    (hlead : (d.cluster.nodes id).role = .leader) (hlead' : (d'.cluster.nodes id).role = .leader)
    (hclient : ∀ key value tombstone, e ≠ .raft (.submit id key value tombstone)) :
    (d'.cluster.nodes id).log = (d.cluster.nodes id).log ∨
      ∃ r : Reply, (d'.cluster.nodes id).log = (d.cluster.nodes id).log ++ [r.command] ∧
        ⟨id, r, false⟩ ∈ d'.calls := by
  cases step_happens hstep with
  | @raft act _ hact =>
    rcases (Cluster.step_leader hact hlead hlead').2 with hsame | ⟨key, value, tombstone, rfl⟩
    · exact Or.inl hsame
    · exact absurd rfl (hclient key value tombstone)
  | @accepted j op r _ _ _ hr _ =>
    by_cases hj : id = j
    · subst hj
      refine Or.inr ⟨d.acceptance id op, ?_, List.mem_append_right _ List.mem_cons_self⟩
      simp [hr]
    · left
      show ((d.cluster.setNode j r).nodes id).log = _
      rw [Cluster.setNode_nodes_of_ne r hj]
  | _ => exact Or.inl rfl

/-- **Every run** keeps a table a table. -/
theorem Reached.table (hids : (-1 : Int) ∉ cfg.ids) {id : Int} (hid : id ∈ cfg.ids)
    {opts : MemTableOptions} {l₀ : List Entry} (ht : Table (hosts id) opts l₀) {j : ℕ}
    (hlegal : ∀ m e y, m < j → events[m]? = some e → Reached cfg hosts (events.take m) y →
      Legal opts y id e) (hd : Reached cfg hosts (events.take j) d) :
    ∃ l, Table (d.hosts id) opts l := by
  refine Run.Reached.onward (I := fun d => ∃ l, Table (d.hosts id) opts l) (Nat.zero_le j)
    (Run.reached_nil.mpr rfl) ⟨l₀, ht⟩ ?_ hd
  intro m y e y' _ hm he hy ⟨l, hl⟩ hstep
  rcases table_step hstep hl (hlegal m e y hm he hy) with ⟨h, _⟩ |
    ⟨_, _, _, _, _, h, _⟩ | ⟨_, _, _, _, hsent, hmsg, h, _⟩
  · exact ⟨_, h⟩
  · exact ⟨_, h⟩
  · obtain ⟨_, _, hsim⟩ := Reached.sim hids hy
    exact ⟨_, h (sent_valid hsim hid hsent hmsg)⟩

/-- Every command on the key of the write that is in the log of the node and has not come out
    of its channel is that write. -/
def AwaitsOnly (d : Deployment) (id : Int) (w : Reply) : Prop :=
  ∀ e ∈ (d.cluster.nodes id).log.drop ((d.hosts id).consumed + 1), e.key = w.op.key →
    writeOf (RaftNode.applyMsg e) = w.op

instance (d : Deployment) (id : Int) (w : Reply) : Decidable (AwaitsOnly d id w) :=
  inferInstanceAs (Decidable (∀ e ∈ (d.cluster.nodes id).log.drop ((d.hosts id).consumed + 1),
    e.key = w.op.key → writeOf (RaftNode.applyMsg e) = w.op))

/-- The table of the node has the write, and nothing else on its key is on the way. -/
def Shows (d : Deployment) (id : Int) (opts : MemTableOptions) (w : Reply) : Prop :=
  ∃ l, Table (d.hosts id) opts l ∧ Assoc.lookup Entry.key w.op.key l = some w.op.entry ∧
    AwaitsOnly d id w

/-- **One step** of a leader without a write on the key. -/
theorem shows_step {e : Event} (hstep : d.step cfg e = .ok d') {id : Int} (hid : id ∈ cfg.ids)
    {opts : MemTableOptions} (hlegal : Legal opts d id e) {a : Abs}
    {counted : Int → Int → Finset Int} (hsim : Sim cfg d.cluster a counted)
    (hlead : (d.cluster.nodes id).role = .leader) (hlead' : (d'.cluster.nodes id).role = .leader)
    (hclient : ∀ key value tombstone, e ≠ .raft (.submit id key value tombstone)) {w : Reply}
    (hother : ∀ c ∈ d.calls, c.id = id → c.reply.op.key ≠ w.op.key)
    (hother' : ∀ c ∈ d'.calls, c.id = id → c.reply.op.key ≠ w.op.key)
    (h : Shows d id opts w) : Shows d' id opts w := by
  obtain ⟨l, ht, hlookup, hawait⟩ := h
  -- what is added to the log is on another key
  have hawait' : (d.hosts id).consumed ≤ (d'.hosts id).consumed → AwaitsOnly d' id w := by
    intro hle entry hentry hkey
    replace hentry := List.drop_subset_drop_left _ (Nat.succ_le_succ hle) hentry
    rcases log_step hstep hlead hlead' hclient with hsame | ⟨r, hsnoc, hr⟩
    · rw [hsame] at hentry
      exact hawait entry hentry hkey
    · rw [hsnoc, List.drop_append] at hentry
      rcases List.mem_append.mp hentry with hold | hnew
      · exact hawait entry hold hkey
      · rw [List.mem_singleton.mp (List.mem_of_mem_drop hnew), Reply.command,
          Storage.Op.entry_key] at hkey
        exact absurd hkey (hother' _ hr rfl)
  rcases table_step hstep ht hlegal with ⟨ht', hconsumed⟩ |
    ⟨k, newLevel, reply, rfl, hcall, ht', hconsumed, _⟩ |
    ⟨newLevel, sent, msg, rfl, hsent, hmsg, ht', hconsumed, _⟩
  · exact ⟨l, ht', hlookup, hawait' hconsumed.ge⟩
  · refine ⟨_, ht', ?_, hawait' hconsumed.ge⟩
    rw [Storage.lookup_write,
      if_neg (hother _ (List.mem_of_getElem? hcall) rfl)]
    exact hlookup
  · refine ⟨_, ht' (sent_valid hsim hid hsent hmsg), ?_, hawait' (by omega)⟩
    obtain ⟨_, entry, hentry, rfl⟩ := hsim.delivered_entry hid hsent hmsg
    rw [Storage.lookup_write]
    by_cases hkey : (writeOf (RaftNode.applyMsg entry)).key = w.op.key
    · have hmem : entry ∈ (d.cluster.nodes id).log.drop ((d.hosts id).consumed + 1) :=
        List.mem_of_getElem? (i := 0) (by rw [List.getElem?_drop]; exact hentry)
      rw [if_pos hkey, hawait entry hmem (by rw [← hkey, writeOf_key]; rfl)]
    · rw [if_neg hkey]
      exact hlookup

/-- Of two nodes, node 0 is elected and accepts two writes on one key, the second after the first
    has come out of the channel, and a write on another key. -/
def freshRead : List Event :=
  [.start 0, .raft (.electionTimeout 0), .raft (.deliver 0), .raft (.deliver 0),
    .submit 0 (.put [7] [1]), .logWAL 0 Disk.ok, .putMemTable 0 1, .raft (.deliver 1),
    .raft (.deliver 1), .apply 0 1, .submit 0 (.put [7] [2]), .logWAL 0 Disk.ok,
    .putMemTable 0 1, .submit 0 (.delete [8]), .logWAL 0 Disk.ok, .putMemTable 0 1,
    .raft (.deliver 1), .raft (.deliver 2), .apply 0 1]

/-- Of two nodes, node 0 is elected and acknowledges two writes on one key; then the first is
    committed and comes out of the channel. -/
def staleRead : List Event :=
  [.start 0, .raft (.electionTimeout 0), .raft (.deliver 0), .raft (.deliver 0),
    .submit 0 (.put [7] [1]), .logWAL 0 Disk.ok, .putMemTable 0 1, .submit 0 (.put [7] [2]),
    .logWAL 0 Disk.ok, .putMemTable 0 1, .raft (.deliver 1), .raft (.deliver 2), .apply 0 1]

end Deployment

end Hallownest
