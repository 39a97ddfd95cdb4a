import Hallownest.Bench.Corruption
import Hallownest.Bench.Loops
import Hallownest.Storage.Scan

namespace Hallownest

/-!
# Short bursts

The checksum of a record is over everything behind it, so a change within four bytes in a row of
the tombstone, the key and the value is found by all three readers: the loops of `Recover` and
`ReplayWAL`, wherever in the log the record stands, and the scan of `Get` over a block.
-/

open Bench

/-- The bytes of a record in the log, or in a table (where its length is computed as an `int`). -/
def Written (key value : Bytes) (tombstone : Bool) (record : Bytes) : Prop :=
  encodeRecord key value tombstone = some record ∨
    fillRecord (headerSize + key.length + value.length) key value tombstone = some record

/-- Both are the record of the entry. -/
theorem Written.eq_record {e : Entry} {record : Bytes} (h : e.Fits)
    (hw : Written e.key e.value e.tombstone record) : record = e.record := by
  rcases hw with henc | hfill
  · rw [encodeRecord_eq h] at henc
    exact (Option.some.inj henc).symm
  · rw [fillRecord_eq h.writable] at hfill
    exact (Option.some.inj hfill).symm

/-- What the loop reads when a bad frame stands behind whole records. -/
private theorem decode_frames_bad {es : List Entry} (hfit : ∀ e ∈ es, e.Fits) {bs : Bytes}
    (hbad : BadFrame bs) :
    Framing.decode readRecord (Framing.frames Entry.record es ++ bs) =
      (es.map Entry.logEntry, some (.crcMismatch (storedCrc bs) (frameCrc bs))) := by
  rw [(Framing.chain_frames record_format es hfit bs).decode readRecord_advances,
    readRecord_advances.decode_fail hbad.read, List.append_nil]

/-- **Every short burst is found.**  A record whose length is below `2 ^ 32` is changed within
    four bytes in a row of its tombstone, key and value, and stands behind any encoded records
    and in front of anything.  The stored checksum is not that of the changed bytes: the rounds
    of both loops fail there, `Recover` returns the mismatch, `ReplayWAL` returns it after it has
    applied the records in front, and so does the scan of a block that starts there. -/
theorem burst_detected (opts : WALOptions) (key value : Bytes) (tombstone : Bool)
    (hfit : 13 + key.length + value.length < 2 ^ 32) (record changed : Bytes)
    (hrecord : Written key value tombstone record) (hburst : Burst record changed)
    (before : List Bytes) (hbefore : ∀ bs ∈ before, Encoded bs) (after : Bytes) :
    let file := before.flatten ++ (changed ++ after)
    let mismatch : ReadError :=
      .crcMismatch (storedCrc (changed ++ after)) (frameCrc (changed ++ after))
    storedCrc (changed ++ after) ≠ frameCrc (changed ++ after) ∧
    recoverRound (changed ++ after) = .fail mismatch ∧
    replayRound (changed ++ after) = .fail mismatch ∧
    (∃ entries, (openWAL opts (some before.flatten)).recoverEntries = .ok entries ∧
      (openWAL opts (some file)).recoverEntries = .error (.read mismatch) ∧
      ∀ dir f, dir.filter isWAL = [f] → f.data = file → replayCalls (some dir) =
        ({ applied := entries.map LogEntry.entry, replayedCount := entries.length },
          some mismatch)) ∧
    ∀ k, Storage.scan k (changed ++ after) =
      .error (.crcMismatch (storedCrc (changed ++ after)) (frameCrc (changed ++ after))) := by
  intro file mismatch
  let e : Entry := ⟨key, value, tombstone⟩
  have he : e.Fits := hfit
  have heq : record = e.record := Written.eq_record he hrecord
  subst heq
  obtain ⟨hbad, _⟩ := badFrame_burst after he hburst
  obtain ⟨es, hes, hflat⟩ := exists_entries hbefore
  -- both loops decode the records in front and stop with the mismatch at the changed one
  have hfile : Framing.decode readRecord file = (es.map Entry.logEntry, some mismatch) := by
    show Framing.decode readRecord (before.flatten ++ (changed ++ after)) = _
    rw [hflat]
    exact decode_frames_bad hes hbad
  have hfront : Framing.decode readRecord before.flatten = (es.map Entry.logEntry, none) := by
    have hdecode := Framing.decode_frames record_format hes (show readRecord [] = .stop from rfl)
    rwa [List.append_nil, ← hflat] at hdecode
  refine ⟨hbad.crc_ne, ?_, ?_, ⟨es.map Entry.logEntry, ?_, ?_, ?_⟩, fun k => Storage.scan_bad hbad⟩
  · rw [recoverRound_eq]
    exact hbad.read
  · rw [replayRound_eq, hbad.read]
    rfl
  · rw [recoverEntries_open, hfront]
    rfl
  · rw [recoverEntries_open, hfile]
    rfl
  · rintro dir f hdir hdata
    rw [replayCalls_only hdir, hdata, hfile]

/-- Tombstone, key and value of the second of two records are changed. -/
theorem burst_detected_three :
    let changed := (small 3 4).record.take 12 ++ [1, 7, 9]
    (openWAL defaultWALOptions (some ((small 1 2).record ++ changed))).recoverEntries =
      .error (.read (.crcMismatch (storedCrc changed) (frameCrc changed))) := by
  intro changed
  have hburst : Burst (small 3 4).record changed := by
    have hlen : changed.length = 15 := by decide +kernel
    have hlen' : (small 3 4).record.length = 15 := by decide +kernel
    have hfront : ∀ i < 12, changed[i]? = (small 3 4).record[i]? := by decide +kernel
    refine ⟨hlen.trans hlen'.symm, ⟨12, by decide, ?_⟩, by decide +kernel⟩
    rintro i (hi | hi)
    · exact hfront i hi
    · rw [List.getElem?_eq_none (by omega), List.getElem?_eq_none (by omega)]
  obtain ⟨_, _, _, ⟨_, _, herror, _⟩, _⟩ := burst_detected defaultWALOptions [3] [4] false
    (by decide) (small 3 4).record changed (Or.inl (encodeRecord_eq (e := small 3 4) (by decide)))
    hburst [(small 1 2).record] (by simpa using encoded_small 1 2) []
  simpa using herror

end Hallownest
