import Hallownest.Bench.Recovery
import Hallownest.Network.Server

namespace Hallownest.Daemon

open Bench
open Network (Env StagwayServer newStagwayServer)
open Storage (Iterator MemTable MemTableOptions Models Node Op contents newMemTable)

/-!
# Daemon — recovery of the MemTable (`main.go`)

When the daemon starts it replays the log into a fresh MemTable.  A standalone server logs
every write before it puts it into its own MemTable, so whatever beginning of the log survives
a crash, the replay rebuilds the MemTable the server had after a beginning of the requests
(`crash_recovery`).
-/

variable {w : WAL} {m : MemTable}

/-! ### Start -/

/-- What the daemon does with a replayed record. -/
def replayEntry (m : MemTable) (l : LogEntry) (newLevel : ℕ) : Option MemTable :=
  if l.tombstone then (m.delete l.key newLevel).map Prod.fst
  else (m.put l.key l.value newLevel).map Prod.fst

/-- The calls made during a replay; `level i` is the height that is drawn in the `i`-th. -/
def replayInto (m : MemTable) (level : ℕ → ℕ) (r : Replay) : Option MemTable :=
  r.applied.zipIdx.foldlM (fun m p => replayEntry m p.1 (level p.2)) m

/-- The record of a write is replayed as that write. -/
private theorem replayEntry_logEntry (m : MemTable) (op : Op) (newLevel : ℕ) :
    replayEntry m op.entry.logEntry newLevel = m.apply op newLevel := by
  cases op <;> rfl

/-- Replaying the records of writes makes these writes. -/
theorem replayInto_eq (m : MemTable) (level : ℕ → ℕ) (ops : List Op) {r : Replay}
    (hr : r.applied = ops.map fun op => op.entry.logEntry) :
    replayInto m level r = m.run (ops.zipIdx.map fun p => (p.1, level p.2)) := by
  unfold replayInto MemTable.run
  rw [hr, List.zipIdx_map, List.foldlM_map, List.foldlM_map]
  congr 1
  funext m p
  exact replayEntry_logEntry m p.1 (level p.2)

/-- A replay leaves the options of the table alone. -/
theorem replayInto_opts {m m' : MemTable} {level : ℕ → ℕ} {r : Replay}
    (h : replayInto m level r = some m') : m'.opts = m.opts := by
  have hentry : ∀ {m m' : MemTable} {l : LogEntry} {newLevel : ℕ},
      replayEntry m l newLevel = some m' → m'.opts = m.opts := by
    intro m m' l newLevel h
    rw [replayEntry] at h
    split at h
    · obtain ⟨⟨m₁, full⟩, hrun, rfl⟩ := Option.map_eq_some_iff.mp h
      exact MemTable.insert_opts hrun
    · obtain ⟨⟨m₁, full⟩, hrun, rfl⟩ := Option.map_eq_some_iff.mp h
      exact MemTable.insert_opts hrun
  unfold replayInto at h
  generalize r.applied.zipIdx = entries at h
  induction entries generalizing m with
  | nil =>
    obtain rfl := Option.some.inj h
    rfl
  | cons e entries ih =>
    rw [List.foldlM_cons] at h
    obtain ⟨m₁, hrun, h⟩ := Option.bind_eq_some_iff.mp h
    exact (ih h).trans (hentry hrun)

/-! ### The standalone server -/

/-- A running server without a Raft node. -/
def standalone (w : WAL) (m : MemTable) : StagwayServer :=
  (newStagwayServer none (some m) (some w)).start

/-- The log with one more record. -/
def logged (w : WAL) (e : Entry) : WAL :=
  { w with file := w.file ++ e.record, size := w.size + e.record.length }

/-- **One request** appends its record to the log and makes its write. -/
theorem handle_standalone (hopen : w.closed = false) {op : Op} (hfit : op.entry.Fits)
    {newLevel : ℕ} {m' : MemTable} (hrun : m.apply op newLevel = some m') :
    (standalone w m).handle op ⟨Disk.ok, newLevel⟩ =
      some (standalone (logged w op.entry) m', ⟨1, 1, true, none⟩, []) := by
  have happend : w.append op.entry.key op.entry.value op.entry.tombstone Disk.ok =
      some (logged w op.entry, .ok op.entry.record.length) := by
    simp [WAL.append, hopen, encodeRecord_eq hfit, Disk.ok, logged]
  rw [StagwayServer.handle_eq]
  simp [StagwayServer.write, StagwayServer.submit, StagwayServer.logWAL,
    StagwayServer.putMemTable, standalone, newStagwayServer, StagwayServer.start, happend, hrun]

/-- The requests with disk operations that all succeed. -/
def requests (reqs : List (Op × ℕ)) : List (Op × Env) :=
  reqs.map fun p => (p.1, ⟨Disk.ok, p.2⟩)

/-- **A sequence of requests** appends the records to the log and makes the writes. -/
theorem handleAll_standalone : ∀ (reqs : List (Op × ℕ)) {w : WAL} {m m' : MemTable},
    w.closed = false → (∀ p ∈ reqs, p.1.entry.Fits) → m.run reqs = some m' →
    ∃ w', (standalone w m).handleAll (requests reqs) = some (standalone w' m') ∧
      w'.file = w.file ++ Framing.frames Entry.record (reqs.map fun p => p.1.entry) := by
  intro reqs
  induction reqs with
  | nil =>
    intro w m m' _ _ hrun
    cases hrun
    exact ⟨w, rfl, by simp⟩
  | cons p reqs ih =>
    intro w m m' hopen hfit hrun
    unfold MemTable.run at hrun
    rw [List.foldlM_cons] at hrun
    obtain ⟨m₁, hfirst, hrest⟩ := Option.bind_eq_some_iff.mp hrun
    obtain ⟨w', hall, hfile⟩ := ih (w := logged w p.1.entry) hopen
      (fun q hq => hfit q (by simp [hq])) hrest
    refine ⟨w', ?_, by rw [hfile]; simp [logged]⟩
    unfold StagwayServer.handleAll requests
    rw [List.map_cons, List.foldlM_cons, handle_standalone hopen (hfit p (by simp)) hfirst]
    exact hall

/-! ### Recovery -/

/-- What a client can see of a table: the answer for every key, the iteration, the size. -/
def Agree (m m' : MemTable) : Prop :=
  (∀ key, ∃ r, m.get key = some r ∧ m'.get key = some r) ∧
    (∃ ns ns', Iterator.drain m m.nodes.length m.iterator = some ns ∧
      Iterator.drain m' m'.nodes.length m'.iterator = some ns' ∧
      ns.map Node.entry = ns'.map Node.entry) ∧
    m.sizeBytes = m'.sizeBytes

/-- Tables with the same records agree. -/
private theorem agree_of_models {m' : MemTable} {l : List Entry} (h : Models m l)
    (h' : Models m' l) : Agree m m' := by
  refine ⟨fun key => ⟨_, h.get key, h'.get key⟩, ?_, ?_⟩
  · obtain ⟨ns, hns, heq⟩ := h.drain
    obtain ⟨ns', hns', heq'⟩ := h'.drain
    exact ⟨ns, ns', hns, hns', heq.trans heq'.symm⟩
  · rw [h.sizeBytes_eq, h'.sizeBytes_eq]

/-- Heights that `randomLevel` may return in a table created with the given options. -/
def LevelOk (opts : MemTableOptions) (newLevel : ℕ) : Prop :=
  1 ≤ newLevel ∧ (newLevel : Int) ≤ (newMemTable opts).opts.maxLevel

/-- A replay of the records of writes into a fresh table leaves what the writes leave. -/
theorem models_replayInto (opts : MemTableOptions) {level : ℕ → ℕ}
    (hlevel : ∀ i, LevelOk opts (level i)) {ops : List Op} {r : Replay}
    (hr : r.applied = ops.map fun op => op.entry.logEntry) :
    ∃ rebuilt, replayInto (newMemTable opts) level r = some rebuilt ∧
      Models rebuilt (contents ops) := by
  obtain ⟨rebuilt, hrun, hmodels⟩ := Storage.models_run opts
    (ops.zipIdx.map fun p => (p.1, level p.2)) (by
      intro p hp
      obtain ⟨q, _, rfl⟩ := List.mem_map.mp hp
      exact hlevel q.2)
  refine ⟨rebuilt, by rw [replayInto_eq _ _ ops hr]; exact hrun, ?_⟩
  rwa [List.map_map, show (Prod.fst ∘ fun p : Op × ℕ => (p.1, level p.2)) = Prod.fst from rfl,
    List.zipIdx_map_fst] at hmodels

/-- **Crash recovery.**  A standalone server with a fresh log and a fresh table handles
    requests, and of its log any first `n` bytes survive.  The replay into a fresh table ends
    without an error, and the table agrees with the one the server had after the requests
    whose records lie wholly within these bytes; the log is the records of the requests. -/
theorem crash_recovery (walOpts : WALOptions) (opts opts' : MemTableOptions)
    (reqs : List (Op × ℕ)) (hfit : ∀ p ∈ reqs, p.1.entry.Fits)
    (hlevel : ∀ p ∈ reqs, LevelOk opts p.2) (n : ℕ) (level : ℕ → ℕ)
    (hlevel' : ∀ i, LevelOk opts' (level i)) :
    ∃ w m w' live rebuilt,
      (standalone (openWAL walOpts none) (newMemTable opts)).handleAll (requests reqs) =
        some (standalone w m) ∧
      w.file = Framing.frames Entry.record (reqs.map fun p => p.1.entry) ∧
      (standalone (openWAL walOpts none) (newMemTable opts)).handleAll
        (requests (reqs.take
          (Framing.wholeFrames Entry.record (reqs.map fun p => p.1.entry) n))) =
        some (standalone w' live) ∧
      (replayWAL (some (walDir (w.file.take n)))).err = none ∧
      replayInto (newMemTable opts') level (replayWAL (some (walDir (w.file.take n)))) =
        some rebuilt ∧
      Agree rebuilt live := by
  let k := Framing.wholeFrames Entry.record (reqs.map fun p => p.1.entry) n
  -- the live server, after all requests and after the first `k`
  obtain ⟨m, hrun, _⟩ := Storage.models_run opts reqs hlevel
  obtain ⟨w, hall, hfile⟩ := handleAll_standalone reqs (w := openWAL walOpts none) rfl hfit hrun
  obtain ⟨live, hrunk, hlive⟩ := Storage.models_run opts (reqs.take k)
    (fun p hp => hlevel p (List.mem_of_mem_take hp))
  obtain ⟨w', hallk, _⟩ := handleAll_standalone (reqs.take k) (w := openWAL walOpts none) rfl
    (fun p hp => hfit p (List.mem_of_mem_take hp)) hrunk
  -- what the replay finds in the first `n` bytes
  have hfits : ∀ e ∈ reqs.map (fun p => p.1.entry), e.Fits := by
    intro e he
    obtain ⟨p, hp, rfl⟩ := List.mem_map.mp he
    exact hfit p hp
  have hfile' : w.file = Framing.frames Entry.record (reqs.map fun p => p.1.entry) := hfile
  have hreplay := replay_take hfits n
  rw [← hfile'] at hreplay
  -- the replayed records are the first `k` writes
  have happlied : (replayWAL (some (walDir (w.file.take n)))).applied =
      ((reqs.take k).map Prod.fst).map fun op => op.entry.logEntry := by
    rw [hreplay]
    simp [k, List.map_take, Function.comp_def]
  obtain ⟨rebuilt, hrebuild, hmodels⟩ := models_replayInto opts' hlevel' happlied
  exact ⟨w, m, w', live, rebuilt, hall, hfile', hallk, by rw [hreplay], hrebuild,
    agree_of_models hmodels hlive⟩

/-- Of a put and a delete, logged in 15 and 14 bytes, the put is recovered from 20 bytes. -/
theorem crash_recovery_two : ∃ w m w' live rebuilt,
    (standalone (openWAL defaultWALOptions none) (newMemTable ⟨2, 0⟩)).handleAll
      (requests [(.put [7] [1], 2), (.delete [7], 1)]) = some (standalone w m) ∧
    w.file = Framing.frames Entry.record [(Op.put [7] [1]).entry, (Op.delete [7]).entry] ∧
    (standalone (openWAL defaultWALOptions none) (newMemTable ⟨2, 0⟩)).handleAll
      (requests [(.put [7] [1], 2)]) = some (standalone w' live) ∧
    (replayWAL (some (walDir (w.file.take 20)))).err = none ∧
    replayInto (newMemTable ⟨0, 0⟩) (fun i => i % 3 + 1)
      (replayWAL (some (walDir (w.file.take 20)))) = some rebuilt ∧
    Agree rebuilt live := by
  have hlevel : ∀ i : ℕ, LevelOk ⟨0, 0⟩ (i % 3 + 1) := by
    intro i
    refine ⟨by omega, ?_⟩
    show ((i % 3 + 1 : ℕ) : Int) ≤ 16
    omega
  have hwhole : Framing.wholeFrames Entry.record
      ([(Op.put [7] [1], 2), (Op.delete [7], 1)].map fun p => p.1.entry) 20 = 1 := by decide
  have h := crash_recovery defaultWALOptions ⟨2, 0⟩ ⟨0, 0⟩
    [(.put [7] [1], 2), (.delete [7], 1)] (by decide) (by unfold LevelOk; decide) 20
    (fun i => i % 3 + 1) hlevel
  rw [hwhole] at h
  exact h

end Hallownest.Daemon
