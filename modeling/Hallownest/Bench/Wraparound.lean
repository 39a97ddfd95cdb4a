import Hallownest.Bench.Loops

namespace Hallownest.Bench

/-!
# Bench — lengths near `2 ^ 32`

Lengths are added in `uint32`: `keyLen + valLen` and `9 + bodyLen` in the two reading loops,
`HeaderSize + keyLen + valLen` in the encoder.

* `decodedSafely_iff` — the loops slice out of range exactly if behind good frames there is an
  overflowing one.  The checksum does not protect them: it is compared with that of the body
  which was read, and a file of 13 bytes has a body of none (`wrapped_panics`).
* `logged_iff` — the encoder panics for the last lengths below `2 ^ 32`.
-/

/-! ### The reading loops -/

/-- Behind good frames there is an overflowing one. -/
inductive Overflows : Bytes → Prop
  | here {bs : Bytes} (h : OverflowingFrame bs) : Overflows bs
  | behind {bs : Bytes} (h : GoodFrame bs) (hrest : Overflows (behind bs)) : Overflows bs

/-- **When the loop panics.** -/
theorem overflows_iff {bs : Bytes} :
    Overflows bs ↔ (Framing.decode readRecord bs).2 = some .panic := by
  constructor
  · intro h
    induction h with
    | here h => rw [readRecord_advances.decode_fail h.read]
    | behind h _ ih =>
      rw [readRecord_advances.decode_item h.read]
      exact ih
  · intro hpanic
    obtain ⟨rest, hchain, hend⟩ := readRecord_advances.exists_chain bs
    rw [hpanic] at hend
    obtain ⟨e, heq, hfail⟩ := hend.resolve_left (by simp)
    cases heq
    exact of_chain .behind hchain (.here (readRecord_panic_iff.mp hfail))

/-- The loop with the rounds `next` starts a round at `bs`. -/
def Arrives {β : Type} (next : Bytes → Framing.Next β ReadError) (file bs : Bytes) : Prop :=
  ∃ items, Framing.Chain next file items bs

/-- Both loops start their rounds where `readRecord` does. -/
private theorem arrives_readRecord {file bs : Bytes}
    (h : Arrives recoverRound file bs ∨ Arrives replayRound file bs) :
    Arrives readRecord file bs := by
  rcases h with ⟨items, hchain⟩ | ⟨calls, hchain⟩
  · rw [funext recoverRound_eq] at hchain
    exact ⟨items, hchain⟩
  · induction hchain with
    | nil bs => exact ⟨[], .nil bs⟩
    | @cons bs mid rest call calls head _ ih =>
      obtain ⟨items, hitems⟩ := ih
      rw [replayRound_eq] at head
      cases hread : readRecord bs with
      | stop => rw [hread] at head; cases head
      | fail e => rw [hread] at head; cases head
      | item l tail =>
        rw [hread] at head
        cases head
        exact ⟨l :: items, .cons hread hitems⟩

/-- At `bs` the header `headerBuf` and the body `bodyBuf` were read, and `buf`, which was filled
    from them, has the checksum in the header. -/
structure Passed (bs headerBuf bodyBuf buf : Bytes) : Prop where
  read : ∃ tail rest, Bytes.readFull headerSize bs = some (headerBuf, tail) ∧
    Bytes.readFull (bodyLenOf headerBuf) tail = some (bodyBuf, rest)
  check : checkBuf headerBuf bodyBuf (bodyLenOf headerBuf) = some buf
  crc : storedCrc headerBuf = Crc32.checksum buf

/-- What passes the test in a frame that does not overflow. -/
theorem Passed.whole {bs headerBuf bodyBuf buf : Bytes} (h : Passed bs headerBuf bodyBuf buf)
    (hover : ¬ OverflowingFrame bs) :
    bodyBuf.length = keyLenOf headerBuf + valLenOf headerBuf ∧
      buf = headerBuf.drop 4 ++ bodyBuf := by
  have hh : headerSize = 13 := rfl
  obtain ⟨tail, rest, hhead, hread⟩ := h.read
  obtain ⟨hheader, rfl⟩ := Bytes.readFull_eq_some hhead
  obtain ⟨hbody, rfl⟩ := Bytes.readFull_eq_some hread
  have htake : (headerBuf ++ (bodyBuf ++ rest)).take 12 = headerBuf.take 12 :=
    List.take_append_of_le_length (by omega)
  obtain ⟨hstored, hkey, hval, hlen⟩ := fields_congr htake
  -- the buffer is filled, so its length did not wrap around
  have hcheck := h.check.symm.trans (checkBuf_read hhead hread)
  split at hcheck
  · cases hcheck
  cases hcheck
  refine ⟨?_, rfl⟩
  by_contra hne
  -- the checksum in the header is that of the frame
  have hframe : frameCrc (headerBuf ++ (bodyBuf ++ rest)) =
      Crc32.checksum (headerBuf.drop 4 ++ bodyBuf) := by
    rw [frameCrc, hlen, ← hbody, List.drop_append_of_le_length (by omega), ← List.append_assoc,
      List.take_left' (by rw [List.length_append, List.length_drop]; omega)]
  refine hover ⟨?_, Or.inr ⟨?_, ?_⟩⟩
  · rw [hlen, List.length_append, List.length_append]
    omega
  · rw [hstored, hframe, h.crc]
  · rw [hkey, hval]
    unfold bodyLenOf uint32 at hbody
    omega

/-- Neither loop slices out of range, and in each of their rounds what passes the test is a body
    of the announced lengths, checked together with the nine bytes in front of it. -/
structure DecodedSafely (opts : WALOptions) (file : Bytes) : Prop where
  recover : (openWAL opts (some file)).recoverEntries ≠ .error (.read .panic)
  replay : ∀ dir f, dir.filter isWAL = [f] → f.data = file →
    (replayCalls (some dir)).2 ≠ some .panic
  passed : ∀ bs, Arrives recoverRound file bs ∨ Arrives replayRound file bs →
    ∀ headerBuf bodyBuf buf, Passed bs headerBuf bodyBuf buf →
      bodyBuf.length = keyLenOf headerBuf + valLenOf headerBuf ∧
        buf = headerBuf.drop 4 ++ bodyBuf

/-- **Which files are decoded safely**: those without an overflowing frame behind good ones. -/
theorem decodedSafely_iff (opts : WALOptions) (file : Bytes) :
    DecodedSafely opts file ↔ ¬ Overflows file := by
  constructor
  · intro h hover
    refine h.recover ?_
    rw [recoverEntries_open, overflows_iff.mp hover]
    rfl
  · intro hover
    refine ⟨?_, ?_, ?_⟩
    · intro hpanic
      rw [recoverEntries_open] at hpanic
      refine hover (overflows_iff.mpr ?_)
      cases herr : (Framing.decode readRecord file).2 with
      | none => rw [herr] at hpanic; cases hpanic
      | some e => rw [herr] at hpanic; cases hpanic; rfl
    · rintro dir f hdir rfl hpanic
      rw [replayCalls_only hdir] at hpanic
      exact hover (overflows_iff.mpr hpanic)
    · intro bs hbs headerBuf bodyBuf buf hpass
      obtain ⟨items, hchain⟩ := arrives_readRecord hbs
      exact hpass.whole fun hframe => hover (of_chain .behind hchain (.here hframe))

/-- A header that announces a key of `2 ^ 32 - 1` bytes and a value of one, with the checksum of
    its last nine bytes. -/
def wrapped : Bytes :=
  let fields := Bytes.be 4 (2 ^ 32 - 1) ++ Bytes.be 4 1 ++ [0]
  Bytes.be 4 (Crc32.checksum fields).toNat ++ fields

/-- The sum of the lengths is zero in 32 bits, and the checksum of the header alone is right:
    both loops pass the test and cut a key out of an empty body. -/
theorem wrapped_panics :
    (openWAL defaultWALOptions (some wrapped)).recoverEntries = .error (.read .panic) ∧
    (replayCalls (some (walDir wrapped))).2 = some .panic ∧
    Passed wrapped wrapped [] (wrapped.drop 4) ∧ keyLenOf wrapped + valLenOf wrapped = 2 ^ 32 := by
  have hdir : (walDir wrapped).filter isWAL = [⟨walName, false, wrapped⟩] := by decide +kernel
  refine ⟨by decide +kernel, ?_, ?_, by decide +kernel⟩
  · rw [replayCalls_only hdir]
    decide +kernel
  · exact ⟨⟨[], [], by decide +kernel, by decide +kernel⟩, by decide +kernel, by decide +kernel⟩

/-! ### The encoder -/

/-- The encoder returns, with a record of the right length from which `Recover` reads the entry
    back. -/
def Logged (opts : WALOptions) (key value : Bytes) (tombstone : Bool) : Prop :=
  ∃ record, encodeRecord key value tombstone = some record ∧
    record.length = 13 + key.length + value.length ∧
    ∃ crc, (openWAL opts (some record)).recoverEntries = .ok [⟨crc, key, value, tombstone⟩]

/-- A record whose length does not fit into 32 bits is not written. -/
private theorem length_lt_of_encodeRecord {key value record : Bytes} {tombstone : Bool}
    (h : encodeRecord key value tombstone = some record) : record.length < 2 ^ 32 := by
  obtain ⟨hfits, rfl⟩ := encodeRecord_truncate h
  rw [Entry.length_record]
  exact hfits

/-- The encoder panics when the length of the record wraps around. -/
private theorem encodeRecord_eq_none {key value : Bytes} {tombstone : Bool}
    (hkey : key.length < 2 ^ 32) (hvalue : value.length < 2 ^ 32)
    (hwrap : 2 ^ 32 ≤ 13 + key.length + value.length) :
    encodeRecord key value tombstone = none := by
  cases henc : encodeRecord key value tombstone with
  | none => rfl
  | some record =>
    -- lengths below `2 ^ 32` are not cut
    obtain ⟨hfits, _⟩ := encodeRecord_truncate henc
    have hlen : 13 + (key.take (uint32 key.length)).length +
        (value.take (uint32 value.length)).length < 2 ^ 32 := hfits
    rw [uint32_of_lt hkey, uint32_of_lt hvalue, List.take_length, List.take_length] at hlen
    omega

/-- What fits is written and read back. -/
private theorem logged_of_fits {e : Entry} (opts : WALOptions) (h : e.Fits) :
    Logged opts e.key e.value e.tombstone := by
  have hdecode : Framing.decode readRecord e.record = ([e.logEntry], none) := by
    have hread := readRecord_record h []
    rw [List.append_nil] at hread
    rw [readRecord_advances.decode_item hread]
    rfl
  refine ⟨e.record, encodeRecord_eq h, e.length_record, e.crc, ?_⟩
  rw [recoverEntries_open, hdecode]
  rfl

/-- **Which entries can be logged**: those whose record has a length below `2 ^ 32`. -/
theorem logged_iff (opts : WALOptions) (key value : Bytes) (tombstone : Bool) :
    Logged opts key value tombstone ↔ 13 + key.length + value.length < 2 ^ 32 := by
  constructor
  · rintro ⟨record, henc, hlen, _⟩
    rw [← hlen]
    exact length_lt_of_encodeRecord henc
  · intro hfit
    exact logged_of_fits (e := ⟨key, value, tombstone⟩) opts hfit

/-- A key of `2 ^ 32 - 13` bytes without a value: the server admits it, and the encoder panics. -/
theorem longest_not_logged :
    let key : Bytes := List.replicate (2 ^ 32 - 13) 0
    key.length + ([] : Bytes).length < 2 ^ 32 ∧ encodeRecord key [] false = none ∧
      ¬ Logged defaultWALOptions key [] false := by
  intro key
  have hkey : key.length = 2 ^ 32 - 13 := List.length_replicate
  have hvalue : ([] : Bytes).length = 0 := rfl
  have hnone : encodeRecord key [] false = none :=
    encodeRecord_eq_none (by omega) (by omega) (by omega)
  refine ⟨by omega, hnone, ?_⟩
  rintro ⟨record, henc, _⟩
  rw [hnone] at henc
  cases henc

end Hallownest.Bench
