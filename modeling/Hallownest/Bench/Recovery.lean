import Hallownest.Bench.WAL
import Hallownest.Lib.Run

namespace Hallownest.Bench

/-!
# Bench — recovery after crashes

What a replay of the log finds after any number of crashes.  An epoch opens the log, appends
records that are acknowledged, and crashes, which may leave a beginning of one more record at
the end of the file.

The log is opened for appending without cutting off such a torn end, so whatever a later epoch
writes comes to stand behind it and is read as a part of the torn record.  As long as nothing
is written behind a torn end, a replay finds exactly the acknowledged records
(`replay_epochs`); `lostAfterTorn` is a run in which an acknowledged record is lost.
-/

/-! ### Appending and replaying -/

/-- Append an acknowledged entry: `none` unless `Append` returns without an error. -/
def WAL.appendOk (w : WAL) (e : Entry) : Option WAL := do
  match ← w.append e.key e.value e.tombstone Disk.ok with
  | (w, .ok _) => some w
  | (_, .error _) => none

/-- An entry that fits is appended to the file of an open log. -/
theorem appendOk_eq {w : WAL} (hopen : w.closed = false) {e : Entry} (he : e.Fits) :
    w.appendOk e =
      some { w with file := w.file ++ e.record, size := w.size + e.record.length } := by
  simp [WAL.appendOk, WAL.append, hopen, encodeRecord_eq he, Disk.ok]

/-- A sequence of appends writes the records one behind the other. -/
private theorem foldlM_appendOk {w : WAL} (hopen : w.closed = false) {es : List Entry}
    (hfit : ∀ e ∈ es, e.Fits) :
    ∃ w', es.foldlM WAL.appendOk w = some w' ∧ w'.closed = false ∧
      w'.file = w.file ++ Framing.frames Entry.record es := by
  refine Run.exists_foldlM (m := Option) (I := fun done (w' : WAL) => w'.closed = false ∧
    w'.file = w.file ++ Framing.frames Entry.record done) ⟨hopen, by simp⟩ ?_
  rintro done e rest w₁ hes ⟨hopen₁, hfile₁⟩
  refine ⟨_, appendOk_eq hopen₁ (hfit e (by rw [hes]; simp)), hopen₁, ?_⟩
  show w₁.file ++ e.record = _
  rw [hfile₁]
  simp

/-- The log file is read, whatever it contains. -/
theorem replayWAL_walDir (file : Bytes) :
    replayWAL (some (walDir file)) = replayFiles (walDir file) := by
  have hsel : (walDir file).filter isWAL = walDir file := by
    unfold walDir
    rw [List.filter_cons_of_pos]
    · rfl
    · show (!false && ext walName == ['.', 'w', 'a', 'l']) = true
      decide
  rw [replayWAL, hsel]
  exact congrArg replayFiles (List.mergeSort_singleton _)

/-- **Replaying whole records**, with a cut one behind them. -/
theorem replay_frames {es : List Entry} (hfit : ∀ e ∈ es, e.Fits) {t : Bytes}
    (ht : t = [] ∨ ∃ e : Entry, e.Fits ∧ t <+: e.record ∧ t ≠ e.record) :
    replayWAL (some (walDir (Framing.frames Entry.record es ++ t))) =
      { applied := es.map Entry.logEntry, replayedCount := es.length, err := none } := by
  have hstop : readRecord t = .stop := by
    rcases ht with rfl | ⟨e, he, hpre, hne⟩
    · rfl
    · exact readRecord_cut he hpre hne
  have hdecode := Framing.decode_frames record_format hfit hstop
  rw [replayWAL_walDir]
  simp [walDir, replayFiles, hdecode]

/-- **Replaying a cut log** finds the records that lie wholly before the cut. -/
theorem replay_take {es : List Entry} (hfit : ∀ e ∈ es, e.Fits) (n : ℕ) :
    replayWAL (some (walDir ((Framing.frames Entry.record es).take n))) =
      { applied := (es.take (Framing.wholeFrames Entry.record es n)).map Entry.logEntry
        replayedCount := (es.take (Framing.wholeFrames Entry.record es n)).length
        err := none } := by
  obtain ⟨t, hcut, ht⟩ := Framing.take_frames Entry.record es n
  rw [hcut]
  refine replay_frames (fun e he => hfit e (List.mem_of_mem_take he)) ?_
  exact ht.imp_right fun ⟨e, he, h⟩ => ⟨e, hfit e he, h⟩

/-! ### Epochs -/

/-- One life of the process: the options it opens the log with, what it appends, each append
    acknowledged, and the bytes of one more record that a crash leaves at the end of the file. -/
structure Epoch where
  opts : WALOptions
  acked : List Entry
  torn : Bytes
  deriving DecidableEq, Repr

namespace Epoch

/-- The bytes left by the crash are a strict beginning of an encoded record. -/
def Torn (ep : Epoch) : Prop :=
  ∃ (key value : Bytes) (tombstone : Bool) (bs : Bytes),
    encodeRecord key value tombstone = some bs ∧ ep.torn <+: bs ∧ ep.torn ≠ bs

/-- The epoch leaves the file as it is. -/
def Idle (ep : Epoch) : Prop := ep.acked = [] ∧ ep.torn = []

/-- What an epoch makes of the log file, which is `none` in an empty directory; the result is
    `none` unless every append returns without an error.  `ReplayWAL` only reads the file. -/
def run (file : Option Bytes) (ep : Epoch) : Option (Option Bytes) := do
  let w ← ep.acked.foldlM WAL.appendOk (openWAL ep.opts file)
  return some (w.file ++ ep.torn)

end Epoch

/-- The log file after a sequence of epochs that starts in an empty directory. -/
def runEpochs (eps : List Epoch) : Option (Option Bytes) := eps.foldlM Epoch.run none

/-- The directory a log is in. -/
def dirOf : Option Bytes → List DirEntry
  | none => []
  | some file => walDir file

/-- A directory without a log replays as one with an empty log. -/
private theorem replayWAL_dirOf (file : Option Bytes) :
    replayWAL (some (dirOf file)) = replayWAL (some (walDir (file.getD []))) := by
  cases file with
  | none =>
    rw [replayWAL_walDir]
    show replayFiles (List.mergeSort [] _) = _
    rw [List.mergeSort_nil]
    rfl
  | some file => rfl

/-- One epoch on a file of whole records. -/
theorem Epoch.run_eq {file : Option Bytes} {es : List Entry}
    (hfile : file.getD [] = Framing.frames Entry.record es) {ep : Epoch}
    (hfit : ∀ e ∈ ep.acked, e.Fits) :
    ep.run file = some (some (Framing.frames Entry.record (es ++ ep.acked) ++ ep.torn)) := by
  obtain ⟨w', hrun, _, hw'⟩ := foldlM_appendOk (w := openWAL ep.opts file) rfl hfit
  have hstart : (openWAL ep.opts file).file = Framing.frames Entry.record es := hfile
  unfold Epoch.run
  rw [hrun, Option.bind_eq_bind, Option.bind_some, hw', hstart, ← Framing.frames_append]
  rfl

private theorem foldlM_idle {eps : List Epoch} (hidle : ∀ ep ∈ eps, ep.Idle) (file : Bytes) :
    eps.foldlM Epoch.run (some file) = some (some file) := by
  induction eps with
  | nil => rfl
  | cons ep eps ih =>
    obtain ⟨hacked, htorn⟩ := hidle ep (by simp)
    have hstep : ep.run (some file) = some (some file) := by
      simp [Epoch.run, hacked, htorn, openWAL]
    rw [List.foldlM_cons, hstep]
    exact ih fun ep' h => hidle ep' (by simp [h])

/-- **The file after a run of epochs** of which none writes behind a torn end: the
    acknowledged records, and at most one torn end. -/
theorem foldlM_run : ∀ (eps : List Epoch) (file : Option Bytes) (es : List Entry),
    file.getD [] = Framing.frames Entry.record es →
    (∀ ep ∈ eps, ep.Torn ∧ ∀ e ∈ ep.acked, e.Fits) →
    eps.Pairwise (fun ep ep' => ep.torn = [] ∨ ep'.Idle) →
    ∃ file' t, eps.foldlM Epoch.run file = some file' ∧
      file'.getD [] = Framing.frames Entry.record (es ++ eps.flatMap Epoch.acked) ++ t ∧
      (t = [] ∨ ∃ e : Entry, e.Fits ∧ t <+: e.record ∧ t ≠ e.record) := by
  intro eps
  induction eps with
  | nil =>
    intro file es hfile _ _
    exact ⟨file, [], rfl, by simpa using hfile, Or.inl rfl⟩
  | cons ep eps ih =>
    intro file es hfile hok hclean
    obtain ⟨hfirst, hlater⟩ := List.pairwise_cons.mp hclean
    obtain ⟨⟨key, value, tombstone, bs, henc, hpre, hne⟩, hfit⟩ := hok ep (by simp)
    rw [List.foldlM_cons, Epoch.run_eq hfile hfit, Option.bind_eq_bind, Option.bind_some]
    by_cases htorn : ep.torn = []
    · -- a clean end: the next epoch starts behind whole records again
      obtain ⟨file', t, hrun, hfile', ht⟩ := ih
        (some (Framing.frames Entry.record (es ++ ep.acked) ++ ep.torn)) (es ++ ep.acked)
        (by simp [htorn]) (fun ep' h => hok ep' (by simp [h])) hlater
      exact ⟨file', t, hrun, by rw [hfile']; simp, ht⟩
    · -- behind a torn end nothing is written any more
      have hidle : ∀ ep' ∈ eps, ep'.Idle := fun ep' h => (hfirst ep' h).resolve_left htorn
      have hnone : eps.flatMap Epoch.acked = [] := by
        rw [List.flatMap_eq_nil_iff]
        exact fun ep' h => (hidle ep' h).1
      obtain ⟨hfits, rfl⟩ := encodeRecord_truncate henc
      refine ⟨_, ep.torn, foldlM_idle hidle _, ?_, Or.inr ⟨_, hfits, hpre, hne⟩⟩
      rw [List.flatMap_cons, hnone, List.append_nil]
      rfl

/-- **Durability across crashes.**  If every appended record fits and no epoch writes behind a
    torn end, a final replay ends without an error and finds exactly the acknowledged records
    of all epochs, in order. -/
theorem replay_epochs (eps : List Epoch) (htorn : ∀ ep ∈ eps, ep.Torn)
    (hfit : ∀ ep ∈ eps, ∀ e ∈ ep.acked, e.Fits)
    (hclean : eps.Pairwise fun ep ep' => ep.torn = [] ∨ ep'.Idle) :
    ∃ file, runEpochs eps = some file ∧ (replayWAL (some (dirOf file))).err = none ∧
      (replayWAL (some (dirOf file))).applied.map LogEntry.entry = eps.flatMap Epoch.acked := by
  obtain ⟨file, t, hrun, hfile, ht⟩ :=
    foldlM_run eps none [] rfl (fun ep h => ⟨htorn ep h, hfit ep h⟩) hclean
  have hall : ∀ e ∈ eps.flatMap Epoch.acked, e.Fits := by
    intro e he
    obtain ⟨ep, hep, hmem⟩ := List.mem_flatMap.mp he
    exact hfit ep hep e hmem
  refine ⟨file, hrun, ?_⟩
  rw [replayWAL_dirOf, hfile, List.nil_append, replay_frames hall ht]
  refine ⟨rfl, ?_⟩
  rw [List.map_map]
  exact List.map_id _

/-- An entry of one key byte and one value byte. -/
def small (key value : UInt8) : Entry := ⟨[key], [value], false⟩

theorem small_torn (opts : WALOptions) (acked : List Entry) (key value : UInt8) {n : ℕ}
    (hn : n < 15) : (Epoch.mk opts acked ((small key value).record.take n)).Torn := by
  have hfits : (small key value).Fits := by
    show 13 + 1 + 1 < 2 ^ 32
    decide
  refine ⟨[key], [value], false, (small key value).record,
    encodeRecord_eq (e := small key value) hfits, List.take_prefix _ _, fun heq => ?_⟩
  have := congrArg List.length heq
  simp only [List.length_take, (small key value).length_record] at this
  simp [small, headerSize] at this
  omega

/-- Two epochs with two records, of which the second crashes inside a third record. -/
theorem replay_epochs_two : ∃ file,
    runEpochs [⟨defaultWALOptions, [small 1 2], []⟩,
      ⟨defaultWALOptions, [small 3 4], (small 5 6).record.take 5⟩] = some file ∧
    (replayWAL (some (dirOf file))).err = none ∧
    (replayWAL (some (dirOf file))).applied.map LogEntry.entry = [small 1 2, small 3 4] := by
  have htorn : ∀ ep ∈ [Epoch.mk defaultWALOptions [small 1 2] [],
      ⟨defaultWALOptions, [small 3 4], (small 5 6).record.take 5⟩], ep.Torn := by
    intro ep hep
    simp only [List.mem_cons, List.not_mem_nil, or_false] at hep
    obtain rfl | rfl := hep
    · exact small_torn _ _ 5 6 (n := 0) (by omega)
    · exact small_torn _ _ 5 6 (by omega)
  exact replay_epochs _ htorn (by decide) (by simp)

/-- The run in which an acknowledged record is lost: the first epoch crashes five bytes into its
    second record, and the second epoch appends behind them. -/
def lostAfterTorn : List Epoch :=
  [⟨defaultWALOptions, [small 1 2], (small 5 6).record.take 5⟩,
    ⟨defaultWALOptions, [small 3 4], []⟩]

/-- The replay after `lostAfterTorn` ends without an error and does not find the record that
    the second epoch acknowledged. -/
theorem replay_loses_acked : (∀ ep ∈ lostAfterTorn, ep.Torn) ∧
    ∃ file, runEpochs lostAfterTorn = some file ∧
      (replayWAL (some (dirOf file))).err = none ∧
      (replayWAL (some (dirOf file))).applied.map LogEntry.entry = [small 1 2] ∧
      lostAfterTorn.flatMap Epoch.acked = [small 1 2, small 3 4] := by
  refine ⟨?_, _, rfl, ?_⟩
  · intro ep hep
    simp only [lostAfterTorn, List.mem_cons, List.not_mem_nil, or_false] at hep
    obtain rfl | rfl := hep
    · exact small_torn _ _ 5 6 (by omega)
    · exact small_torn _ _ 5 6 (n := 0) (by omega)
  · decide +kernel

end Hallownest.Bench
