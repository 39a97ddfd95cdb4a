import Hallownest.Bench.Recovery
import Hallownest.Damage

namespace Hallownest.Bench

/-!
# Bench — power failures

What `Append` writes is in the memory of the system until an `fsync`, which `Append` makes itself
with `SyncOnWrite`, and which `Sync` and `Close` make.  When the power fails, the file keeps what
was synced; of the rest it keeps some beginning, or holds anything.

Any number of calls, with failing writes and failing syncs, and then a power failure: every entry
that is `safe`, which means acknowledged before a sync that succeeded, is replayed
(`power_cut_keeps_safe`).  The one condition is that nothing is appended behind a write that
failed.
-/

/-- Write the log to the disk (`Sync`); `syncOk` is the outcome of the `fsync`. -/
def WAL.sync (w : WAL) (syncOk : Bool) : Except WALError Unit :=
  if w.closed then .error .closed
  else if syncOk then .ok ()
  else .error .sync

/-- A log on a device that keeps the first `synced` bytes of the file, with the entries whose
    `Append` has reached the file, those that were acknowledged, and those that were acknowledged
    before a sync. -/
structure Device where
  wal : WAL
  synced : ℕ
  attempted : List Entry
  acked : List Entry
  safe : List Entry

/-- What may be called, with what the file system does. -/
inductive Call
  | append (e : Entry) (disk : Disk)
  | sync (syncOk : Bool)
  | recover
  | close (syncOk : Bool)
  deriving DecidableEq, Repr

namespace Call

/-- The entry that is appended. -/
def entry : Call → Option Entry
  | .append e _ => some e
  | _ => none

/-- A write that fails. -/
def Tears : Call → Prop
  | .append _ disk => disk.failedAfter ≠ none
  | _ => False

end Call

namespace Device

/-- A log that was just opened in an empty directory. -/
def start (opts : WALOptions) : Device where
  wal := openWAL opts none
  synced := 0
  attempted := []
  acked := []
  safe := []

/-- An `fsync` has succeeded. -/
def synchronised (d : Device) : Device :=
  { d with synced := d.wal.file.length, safe := d.acked }

/-- An `Append` has returned. -/
def appended (d : Device) (e : Entry) (w : WAL) : Except WALError Int → Device
  | .error _ => { d with wal := w, attempted := d.attempted ++ [e] }
  | .ok _ =>
    let d := { d with wal := w, attempted := d.attempted ++ [e], acked := d.acked ++ [e] }
    if w.opts.syncOnWrite then d.synchronised else d

/-- One call; `none` is a panic of `EncodeRecord`. -/
def step (d : Device) : Call → Option Device
  | .append e disk =>
    (d.wal.append e.key e.value e.tombstone disk).map fun r =>
      if d.wal.closed then d else d.appended e r.1 r.2
  | .sync syncOk =>
    match d.wal.sync syncOk with
    | .error _ => some d
    | .ok () => some d.synchronised
  | .recover => some d
  | .close syncOk =>
    if d.wal.closed then some d
    else if syncOk then some { d with wal := d.wal.close }.synchronised
    else some { d with wal := d.wal.close }

/-- The entries `es` are among those whose records lie in the first `n` bytes of the log of
    `attempted`. -/
def Within (es attempted : List Entry) (n : ℕ) : Prop :=
  ∃ pre, pre <+: attempted ∧ es.Sublist pre ∧ (Framing.frames Entry.record pre).length ≤ n

theorem Within.append {es attempted : List Entry} {n : ℕ} (h : Within es attempted n) (e : Entry)
    {n' : ℕ} (hn : n ≤ n') : Within es (attempted ++ [e]) n' := by
  obtain ⟨pre, hpre, hsub, hlen⟩ := h
  exact ⟨pre, hpre.trans (List.prefix_append _ _), hsub, hlen.trans hn⟩

/-- What holds after the calls `done` on a log with the options `opts`. -/
structure Holds (opts : WALOptions) (done : List Call) (d : Device) : Prop where
  opts_eq : d.wal.opts = opts
  fits : ∀ e ∈ d.attempted, e.Fits
  beginning : d.wal.file <+: Framing.frames Entry.record d.attempted
  whole : (∀ x ∈ done, ¬ x.Tears) → d.wal.file = Framing.frames Entry.record d.attempted
  synced_le : d.synced ≤ d.wal.file.length
  acked : Within d.acked d.attempted d.wal.file.length
  safe : Within d.safe d.attempted d.synced
  safe_eq : opts.syncOnWrite = true → d.safe = d.acked

variable {opts : WALOptions} {done : List Call} {d : Device}

private theorem holds_start (opts : WALOptions) : Holds opts [] (start opts) where
  opts_eq := rfl
  fits := by simp [start]
  beginning := List.nil_prefix
  whole := fun _ => rfl
  synced_le := le_refl _
  acked := ⟨[], List.nil_prefix, List.Sublist.refl _, le_refl _⟩
  safe := ⟨[], List.nil_prefix, List.Sublist.refl _, le_refl _⟩
  safe_eq := fun _ => rfl

theorem Holds.synchronised (h : Holds opts done d) : Holds opts done d.synchronised :=
  { h with
    synced_le := le_refl _
    safe := h.acked
    safe_eq := fun _ => rfl }

/-- A call that writes nothing to the file. -/
theorem Holds.snoc (h : Holds opts done d) (x : Call) : Holds opts (done ++ [x]) d :=
  { h with whole := fun hnone => h.whole fun y hy => hnone y (by simp [hy]) }

theorem Holds.close (h : Holds opts done d) : Holds opts done { d with wal := d.wal.close } :=
  { h with }

/-- What an `Append` to an open log leaves of a record that fits. -/
private theorem append_open {w : WAL} (hopen : w.closed = false) {e : Entry} (he : e.Fits)
    (disk : Disk) :
    ∃ w' res written, w.append e.key e.value e.tombstone disk = some (w', res) ∧
      w'.opts = w.opts ∧ w'.file = w.file ++ written ∧ written <+: e.record ∧
      (disk.failedAfter = none → written = e.record) ∧
      ∀ n, res = .ok n → written = e.record := by
  unfold WAL.append
  simp only [hopen, Bool.false_eq_true, if_false, encodeRecord_eq he, Option.bind_eq_bind,
    Option.bind_some]
  cases disk.failedAfter with
  | some n =>
    exact ⟨_, _, e.record.take n, rfl, rfl, rfl, List.take_prefix _ _, nofun, nofun⟩
  | none =>
    dsimp only
    split
    · exact ⟨_, _, e.record, rfl, rfl, rfl, List.prefix_rfl, fun _ => rfl, nofun⟩
    · exact ⟨_, _, e.record, rfl, rfl, rfl, List.prefix_rfl, fun _ => rfl, fun _ _ => rfl⟩

/-- A record, or its beginning, is written behind whole records. -/
theorem Holds.write (h : Holds opts done d) {e : Entry} (he : e.Fits)
    (hwhole : d.wal.file = Framing.frames Entry.record d.attempted) {w : WAL}
    (hopts : w.opts = d.wal.opts) {written : Bytes} (hfile : w.file = d.wal.file ++ written)
    (hwritten : written <+: e.record) {x : Call} (htears : ¬ x.Tears → written = e.record) :
    Holds opts (done ++ [x]) { d with wal := w, attempted := d.attempted ++ [e] } where
  opts_eq := hopts.trans h.opts_eq
  fits := by
    intro e' he'
    rcases List.mem_append.mp he' with he' | he'
    · exact h.fits e' he'
    · rwa [List.mem_singleton.mp he']
  beginning := by
    show w.file <+: _
    rw [hfile, hwhole, Framing.frames_append]
    simpa using hwritten
  whole := by
    intro hnone
    show w.file = _
    rw [hfile, hwhole, htears (hnone x (by simp))]
    simp
  synced_le := by
    have := h.synced_le
    show d.synced ≤ w.file.length
    rw [hfile, List.length_append]
    omega
  acked := h.acked.append e (by
    show _ ≤ w.file.length
    rw [hfile, List.length_append]
    omega)
  safe := h.safe.append e (le_refl _)
  safe_eq := h.safe_eq

/-- **An `Append` to an open log** that consists of whole records. -/
theorem Holds.append (h : Holds opts done d) (hopen : d.wal.closed = false) {e : Entry}
    (he : e.Fits) (hwhole : d.wal.file = Framing.frames Entry.record d.attempted) (disk : Disk) :
    ∃ d', d.step (.append e disk) = some d' ∧ Holds opts (done ++ [.append e disk]) d' := by
  obtain ⟨w, res, written, hrun, hopts, hfile, hpre, htears, hok⟩ := append_open hopen he disk
  have hwrite := h.write he hwhole hopts hfile hpre (x := .append e disk)
    fun hnone => htears (not_not.mp hnone)
  refine ⟨d.appended e w res, by simp [Device.step, hrun, hopen], ?_⟩
  cases res with
  | error err => exact hwrite
  | ok n =>
    -- the acknowledged entries are in the file
    have hacked : Within (d.acked ++ [e]) (d.attempted ++ [e]) w.file.length := by
      obtain ⟨pre, hpre, hsub, _⟩ := h.acked
      refine ⟨d.attempted ++ [e], List.prefix_rfl, (hsub.trans hpre.sublist).append_right [e], ?_⟩
      rw [hfile, hwhole, hok n rfl]
      simp
    unfold appended
    dsimp only
    split
    · exact ⟨hwrite.opts_eq, hwrite.fits, hwrite.beginning, hwrite.whole, le_refl _, hacked, hacked,
        fun _ => rfl⟩
    · rename_i hsync
      refine ⟨hwrite.opts_eq, hwrite.fits, hwrite.beginning, hwrite.whole, hwrite.synced_le, hacked,
        hwrite.safe, fun hopt => absurd ?_ hsync⟩
      exact (congrArg WALOptions.syncOnWrite hwrite.opts_eq).trans hopt

/-- **One call** on a log behind whose torn end nothing is appended. -/
theorem Holds.step (h : Holds opts done d) {x : Call} (hfits : ∀ e, x.entry = some e → e.Fits)
    (hclean : ∀ y ∈ done, y.Tears → x.entry = none) :
    ∃ d', d.step x = some d' ∧ Holds opts (done ++ [x]) d' := by
  cases x with
  | recover => exact ⟨d, rfl, h.snoc _⟩
  | sync syncOk =>
    cases hsync : d.wal.sync syncOk with
    | error e => exact ⟨d, by simp [Device.step, hsync], h.snoc _⟩
    | ok _ => exact ⟨d.synchronised, by simp [Device.step, hsync], h.synchronised.snoc _⟩
  | close syncOk =>
    unfold Device.step
    cases d.wal.closed with
    | true => exact ⟨d, rfl, h.snoc _⟩
    | false =>
      cases syncOk with
      | false => exact ⟨_, rfl, h.close.snoc _⟩
      | true => exact ⟨_, rfl, h.close.synchronised.snoc _⟩
  | append e disk =>
    cases hclosed : d.wal.closed with
    | true => exact ⟨d, by simp [Device.step, WAL.append, hclosed], h.snoc _⟩
    | false =>
      refine h.append hclosed (hfits e rfl) (h.whole fun y hy htears => ?_) disk
      cases hclean y hy htears

/-- A replay finds the records at the beginning of the file, whatever is behind them. -/
theorem replay_beginning {es : List Entry} (hfit : ∀ e ∈ es, e.Fits) (rest : Bytes) :
    ∃ more, (replayWAL (some (walDir (Framing.frames Entry.record es ++ rest)))).applied =
      es.map Entry.logEntry ++ more := by
  have hdecode := (Framing.chain_frames record_format es hfit rest).decode readRecord_advances
  refine ⟨(Framing.decode readRecord rest).1, ?_⟩
  rw [replayWAL_walDir]
  unfold walDir replayFiles
  rw [hdecode]
  cases (Framing.decode readRecord rest).2 <;> simp [replayFiles]

/-- **After a power failure the safe entries are there.**  Take any calls on a log that was opened
    in an empty directory, with writes and syncs that may fail, where every entry fits and nothing
    is appended behind a write that failed.  Let the power fail at the end, and keep at least the
    synced bytes of the file.  If the file ends there, a replay reports no error and finds a
    beginning of what was written; if anything else stands behind them, it still finds every
    entry that was acknowledged before a successful sync.  With `SyncOnWrite` these are all that
    were acknowledged. -/
theorem power_cut_keeps_safe (opts : WALOptions) (calls : List Call)
    (hfits : ∀ x ∈ calls, ∀ e, x.entry = some e → e.Fits)
    (hclean : calls.Pairwise fun x y => x.Tears → y.entry = none) :
    ∃ d, calls.foldlM step (start opts) = some d ∧
      (opts.syncOnWrite = true → d.safe = d.acked) ∧
      ∀ n, d.synced ≤ n →
        (∃ k, replayWAL (some (walDir (d.wal.file.take n))) =
          { applied := (d.attempted.take k).map Entry.logEntry
            replayedCount := (d.attempted.take k).length
            err := none }) ∧
        ∀ tail, d.safe.Sublist ((replayWAL
          (some (walDir (d.wal.file.take n ++ tail)))).applied.map LogEntry.entry) := by
  obtain ⟨d, hrun, h⟩ : ∃ d, calls.foldlM step (start opts) = some d ∧ Holds opts calls d := by
    refine Run.exists_foldlM (m := Option) (I := Holds opts) (holds_start opts) ?_
    rintro done x rest d rfl h
    refine h.step (hfits x (by simp)) fun y hy htears => ?_
    exact (List.pairwise_append.mp hclean).2.2 y hy x (by simp) htears
  refine ⟨d, hrun, h.safe_eq, fun n hn => ⟨?_, fun tail => ?_⟩⟩
  · -- the file is a beginning of the log of what was written
    obtain ⟨m, hm⟩ : ∃ m, d.wal.file.take n = (Framing.frames Entry.record d.attempted).take m := by
      have htake := List.take_prefix n d.wal.file
      exact ⟨_, List.prefix_iff_eq_take.mp (htake.trans h.beginning)⟩
    exact ⟨_, by rw [hm]; exact replay_take h.fits m⟩
  · obtain ⟨pre, hpre, hsub, hlen⟩ := h.safe
    have hframes : Framing.frames Entry.record pre <+: d.wal.file.take n := by
      have hfull : Framing.frames Entry.record pre <+:
          Framing.frames Entry.record d.attempted := by
        obtain ⟨rest, hrest⟩ := hpre
        rw [← hrest, Framing.frames_append]
        exact List.prefix_append _ _
      have hfile := List.prefix_of_prefix_length_le hfull h.beginning (hlen.trans h.synced_le)
      rw [List.prefix_take_iff]
      exact ⟨hfile, hlen.trans hn⟩
    obtain ⟨rest, hrest⟩ := hframes
    have hfit : ∀ e ∈ pre, e.Fits := fun e he => h.fits e (hpre.subset he)
    obtain ⟨more, hmore⟩ := replay_beginning hfit (rest ++ tail)
    rw [← hrest, List.append_assoc, hmore, List.map_append, List.map_map]
    have hid : pre.map (LogEntry.entry ∘ Entry.logEntry) = pre := List.map_id' _
    rw [hid]
    exact hsub.trans (List.sublist_append_left _ _)

/-- An entry that is acknowledged, one whose sync fails, and one that is torn. -/
def threeAppends : List Call :=
  [.append (small 1 2) Disk.ok, .append (small 3 4) ⟨none, false⟩,
    .append (small 5 6) ⟨some 5, true⟩]

theorem power_cut_keeps_safe_three : ∃ d,
    threeAppends.foldlM step (start defaultWALOptions) = some d ∧ d.wal.file.length = 35 ∧
    ∀ tail, [small 1 2].Sublist ((replayWAL
      (some (walDir (d.wal.file.take 15 ++ tail)))).applied.map LogEntry.entry) := by
  obtain ⟨d, hrun, hsafe, hcut⟩ := power_cut_keeps_safe defaultWALOptions threeAppends
    (by decide) (by simp [threeAppends, Call.Tears, Disk.ok])
  have hview : (threeAppends.foldlM step (start defaultWALOptions)).map
      (fun d => (d.synced, d.acked, d.wal.file.length)) = some (15, [small 1 2], 35) := by
    decide +kernel
  rw [hrun, Option.map_some, Option.some.injEq, Prod.mk.injEq, Prod.mk.injEq] at hview
  obtain ⟨hsynced, hacked, hlen⟩ := hview
  refine ⟨d, hrun, hlen, fun tail => ?_⟩
  have hkept := (hcut 15 hsynced.le).2 tail
  rwa [hsafe rfl, hacked] at hkept

end Device

end Hallownest.Bench
