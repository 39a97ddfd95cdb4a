import Hallownest.Bench.Recovery
import Hallownest.Damage

namespace Hallownest.Bench

/-!
# Bench — a changed byte in the log

A record of the log with a changed byte, and records behind it.  If the byte is not one of the
two lengths, both readers report the record.  If it is, another part of the file is taken for
the body of the record, and the readers report it only if that body is within the file and its
checksum is not the stored one (`changed_reported_iff`).  When the file ends before that body
does, they take the record for a torn end: they return no error, and the records behind are
dropped.  `changed_length_dropped` is a log of two records of which both are dropped.

`Reported` says by its frames alone when a log is reported.
-/

/-- Behind good frames there is a bad one. -/
inductive Reported : Bytes → Prop
  | bad {bs : Bytes} (h : BadFrame bs) : Reported bs
  | behind {bs : Bytes} (h : GoodFrame bs) (hrest : Reported (behind bs)) : Reported bs

/-- What the first frame says about the log. -/
theorem reported_cases {bs : Bytes} :
    Reported bs ↔ BadFrame bs ∨ GoodFrame bs ∧ Reported (behind bs) := by
  constructor
  · intro h
    cases h with
    | bad h => exact Or.inl h
    | behind h hrest => exact Or.inr ⟨h, hrest⟩
  · rintro (h | ⟨h, hrest⟩)
    · exact .bad h
    · exact .behind h hrest

/-- **When the loop ends with a wrong checksum.** -/
theorem reported_iff {bs : Bytes} :
    Reported bs ↔ ∃ e, (Framing.decode readRecord bs).2 = some e ∧ e ≠ .panic := by
  constructor
  · intro h
    induction h with
    | bad h =>
      rw [readRecord_advances.decode_fail h.read]
      exact ⟨_, rfl, by simp⟩
    | behind h _ ih =>
      rw [readRecord_advances.decode_item h.read]
      exact ih
  · rintro ⟨e, he, hne⟩
    obtain ⟨rest, hchain, hend⟩ := readRecord_advances.exists_chain bs
    rw [he] at hend
    obtain ⟨e', heq, hfail⟩ := hend.resolve_left (by simp)
    cases heq
    cases e with
    | panic => exact absurd rfl hne
    | crcMismatch x y => exact of_chain .behind hchain (.bad (readRecord_mismatch_iff.mp hfail).1)

/-- `Recover` returns an error. -/
def WAL.Reports (w : WAL) : Prop := ∃ e, w.recover = .error e ∧ e ≠ .read .panic

/-- `ReplayWAL` returns an error. -/
def Replay.Reports (r : Replay) : Prop := ∃ e, r.err = some e ∧ e ≠ .panic

theorem recover_reports_iff {opts : WALOptions} {file : Bytes} :
    (openWAL opts (some file)).Reports ↔ Reported file := by
  rw [reported_iff]
  simp only [WAL.Reports, WAL.recover, openWAL, Option.getD_some, Bool.false_eq_true, if_false]
  obtain ⟨items, err⟩ := Framing.decode readRecord file
  cases err with
  | none => simp
  | some e => simp

theorem replay_reports_iff {file : Bytes} :
    (replayWAL (some (walDir file))).Reports ↔ Reported file := by
  rw [reported_iff, Replay.Reports, replayWAL_walDir]
  have hfiles : (replayFiles (walDir file)).err = (Framing.decode readRecord file).2 := by
    unfold walDir replayFiles
    obtain ⟨items, err⟩ := Framing.decode readRecord file
    cases err <;> rfl
  rw [hfiles]

/-- What `EncodeRecord` returns. -/
def Encoded (bs : Bytes) : Prop :=
  ∃ key value tombstone, encodeRecord key value tombstone = some bs

/-- Encoded records are records of entries that fit. -/
theorem Encoded.exists_entry {bs : Bytes} (h : Encoded bs) :
    ∃ e : Entry, e.Fits ∧ bs = e.record := by
  obtain ⟨key, value, tombstone, henc⟩ := h
  exact ⟨_, encodeRecord_truncate henc⟩

theorem exists_entries {bss : List Bytes} (h : ∀ bs ∈ bss, Encoded bs) :
    ∃ es : List Entry, (∀ e ∈ es, e.Fits) ∧ bss.flatten = Framing.frames Entry.record es := by
  induction bss with
  | nil => exact ⟨[], by simp, rfl⟩
  | cons bs bss ih =>
    obtain ⟨e, he, rfl⟩ := (h bs (by simp)).exists_entry
    obtain ⟨es, hes, hflat⟩ := ih fun bs hbs => h bs (by simp [hbs])
    refine ⟨e :: es, ?_, by rw [List.flatten_cons, hflat]; rfl⟩
    intro d hd
    rcases List.mem_cons.mp hd with rfl | hd
    · exact he
    · exact hes d hd

/-- Whole records in front do not matter. -/
private theorem reported_frames {es : List Entry} (hfit : ∀ e ∈ es, e.Fits) (t : Bytes) :
    Reported (Framing.frames Entry.record es ++ t) ↔ Reported t := by
  rw [reported_iff, reported_iff,
    (Framing.chain_frames record_format es hfit t).decode readRecord_advances]

/-- **A changed byte in the log.**  Take a log of encoded records and change one byte of one of
    them.  `Recover` and `ReplayWAL` both return an error if and only if the byte is outside the
    two lengths of the record; or the record with its new lengths is still within the file, its
    size does not wrap around, and the checksum of these bytes is not the stored one; or it is
    by a collision, and the log goes on behind these bytes to a place that is `Reported`. -/
theorem changed_reported_iff (opts : WALOptions) (before after : List Bytes) (record : Bytes)
    (hbefore : ∀ bs ∈ before, Encoded bs) (hrecord : Encoded record)
    (o : ℕ) (b : UInt8) (ho : o < record.length) (hb : b ≠ record[o]) :
    let changed := record.set o b ++ after.flatten
    let file := before.flatten ++ changed
    ((openWAL opts (some file)).Reports ∧ (replayWAL (some (walDir file))).Reports) ↔
      (o < 4 ∨ 12 ≤ o) ∨
        (headerSize + bodyLenOf changed ≤ changed.length ∧ 9 + bodyLenOf changed < 2 ^ 32 ∧
          (storedCrc changed ≠ frameCrc changed ∨
            storedCrc changed = frameCrc changed ∧ keyLenOf changed + valLenOf changed < 2 ^ 32 ∧
              Reported (behind changed))) := by
  intro changed file
  obtain ⟨es, hes, hflat⟩ := exists_entries hbefore
  obtain ⟨e, he, rfl⟩ := hrecord.exists_entry
  have hfile : Reported file ↔ Reported changed := by
    show Reported (before.flatten ++ _) ↔ _
    rw [hflat, reported_frames hes]
  rw [recover_reports_iff, replay_reports_iff, and_self, hfile]
  constructor
  · intro h
    refine Or.inr ?_
    rcases reported_cases.mp h with hbad | ⟨hgood, hrest⟩
    · exact ⟨hbad.whole, hbad.body_lt, Or.inl hbad.crc_ne⟩
    · exact ⟨hgood.whole, hgood.body_lt, Or.inr ⟨hgood.crc_eq, hgood.lengths_lt, hrest⟩⟩
  · rintro (hout | ⟨hwhole, hbody, hcrc | ⟨hcrc, hlen, hrest⟩⟩)
    · exact .bad (badFrame_changed _ he ho hb hout)
    · exact .bad ⟨hwhole, hbody, hcrc⟩
    · exact .behind ⟨hwhole, hbody, hcrc, hlen⟩ hrest

theorem encoded_small (key value : UInt8) : Encoded (small key value).record :=
  ⟨[key], [value], false, encodeRecord_eq (e := small key value)
    (show 13 + 1 + 1 < 2 ^ 32 by decide)⟩

/-- The value of the first of two records is changed. -/
theorem changed_value_reported :
    let file := (small 1 2).record.set 14 9 ++ (small 3 4).record
    (openWAL defaultWALOptions (some file)).Reports ∧ (replayWAL (some (walDir file))).Reports :=
  (changed_reported_iff defaultWALOptions [] [(small 3 4).record] (small 1 2).record (by simp)
    (encoded_small 1 2) 14 9 (by decide +kernel) (by decide +kernel)).mpr
    (Or.inl (Or.inr (by decide)))

/-- The key length of the first of two records is changed.  No error is returned, and both
    records are dropped. -/
theorem changed_length_dropped :
    Encoded (small 1 2).record ∧ Encoded (small 3 4).record ∧ (small 1 2).record[4]? = some 0 ∧
    (let file := (small 1 2).record.set 4 1 ++ (small 3 4).record
    (openWAL defaultWALOptions (some file)).recover = .ok [] ∧
      replayWAL (some (walDir file)) = { applied := [], replayedCount := 0, err := none }) := by
  refine ⟨encoded_small 1 2, encoded_small 3 4, by decide +kernel, by decide +kernel, ?_⟩
  rw [replayWAL_walDir]
  decide +kernel

end Hallownest.Bench
