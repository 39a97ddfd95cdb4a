import Hallownest.Record

namespace Hallownest

/-!
# Damaged records

What the decoder makes of bytes that no encoder wrote.

The front of a byte string is a *cut* frame, an *overflowing* one, a *bad* one or a *good* one
(`frame_cases`), by the lengths it announces and the checksum it stores; the decoder stops,
panics, reports or reads accordingly (`CutFrame.read`, `readRecord_panic_iff`,
`readRecord_mismatch_iff`, `readRecord_item_iff`).

A record with a short burst behind its lengths is a bad frame (`badFrame_burst`).  A changed byte
makes a record one unless it is one of the eight bytes of the two lengths
(`badFrame_changed`).  With a changed length another part of what follows is taken for the body,
which may be longer than what is there: the frame is cut then, as at the end of a file.
-/

/-- The body that is announced is not all there. -/
def CutFrame (bs : Bytes) : Prop := bs.length < headerSize + bodyLenOf bs

/-- The body is there, and one of the buffers cut out for it is out of range: `checkBuf` since
    `9 + bodyLen` wraps around, or `bodyBuf` since `keyLen + valLen` does. -/
structure OverflowingFrame (bs : Bytes) : Prop where
  whole : headerSize + bodyLenOf bs ≤ bs.length
  wraps : 2 ^ 32 ≤ 9 + bodyLenOf bs ∨
    storedCrc bs = frameCrc bs ∧ 2 ^ 32 ≤ keyLenOf bs + valLenOf bs

/-- The body is there, and the checksum is not the stored one. -/
structure BadFrame (bs : Bytes) : Prop where
  whole : headerSize + bodyLenOf bs ≤ bs.length
  body_lt : 9 + bodyLenOf bs < 2 ^ 32
  crc_ne : storedCrc bs ≠ frameCrc bs

/-- The body is there, with the stored checksum and lengths that do not wrap around. -/
structure GoodFrame (bs : Bytes) : Prop where
  whole : headerSize + bodyLenOf bs ≤ bs.length
  body_lt : 9 + bodyLenOf bs < 2 ^ 32
  crc_eq : storedCrc bs = frameCrc bs
  lengths_lt : keyLenOf bs + valLenOf bs < 2 ^ 32

/-- What stands behind the first frame. -/
def behind (bs : Bytes) : Bytes := bs.drop (headerSize + bodyLenOf bs)

variable {bs : Bytes}

private theorem keyLenOf_lt (bs : Bytes) : keyLenOf bs < 2 ^ 32 := Bytes.ofBe_take_lt 4 _

theorem valLenOf_lt (bs : Bytes) : valLenOf bs < 2 ^ 32 := Bytes.ofBe_take_lt 4 _

/-- The body is shorter than the key exactly if the sum of the lengths wraps around. -/
theorem bodyLenOf_lt_iff : bodyLenOf bs < keyLenOf bs ↔ 2 ^ 32 ≤ keyLenOf bs + valLenOf bs := by
  have hk := keyLenOf_lt bs
  have hv := valLenOf_lt bs
  unfold bodyLenOf uint32
  omega

theorem uint32_nine_add_lt_iff : uint32 (9 + bodyLenOf bs) < 9 ↔ 2 ^ 32 ≤ 9 + bodyLenOf bs := by
  have hlt : bodyLenOf bs < 2 ^ 32 := Nat.mod_lt _ (by decide)
  unfold uint32
  omega

/-- The decoder stops at a cut frame. -/
theorem CutFrame.read (h : CutFrame bs) : readRecord bs = .stop := by
  rw [readRecord_eq]
  exact if_pos h

/-- It panics at an overflowing one. -/
theorem OverflowingFrame.read (h : OverflowingFrame bs) : readRecord bs = .fail .panic := by
  rw [readRecord_eq, if_neg (not_lt.mpr h.whole)]
  by_cases hbody : 2 ^ 32 ≤ 9 + bodyLenOf bs
  · rw [if_pos (uint32_nine_add_lt_iff.mpr hbody)]
  · obtain ⟨hcrc, hlen⟩ := h.wraps.resolve_left hbody
    rw [if_neg (mt uint32_nine_add_lt_iff.mp hbody), if_neg (not_not.mpr hcrc),
      if_pos (bodyLenOf_lt_iff.mpr hlen)]

/-- It reports a bad one, with both checksums. -/
theorem BadFrame.read (h : BadFrame bs) :
    readRecord bs = .fail (.crcMismatch (storedCrc bs) (frameCrc bs)) := by
  rw [readRecord_eq, if_neg (not_lt.mpr h.whole),
    if_neg (mt uint32_nine_add_lt_iff.mp (not_le.mpr h.body_lt)), if_pos h.crc_ne]

/-- It reads a good one. -/
theorem GoodFrame.read (h : GoodFrame bs) : readRecord bs = .item (logEntryOf bs) (behind bs) := by
  rw [readRecord_eq, if_neg (not_lt.mpr h.whole),
    if_neg (mt uint32_nine_add_lt_iff.mp (not_le.mpr h.body_lt)), if_neg (not_not.mpr h.crc_eq),
    if_neg (mt bodyLenOf_lt_iff.mp (not_le.mpr h.lengths_lt))]
  rfl

/-- **Every front is one of four.** -/
theorem frame_cases (bs : Bytes) :
    CutFrame bs ∨ OverflowingFrame bs ∨ BadFrame bs ∨ GoodFrame bs := by
  by_cases hcut : CutFrame bs
  · exact Or.inl hcut
  have hwhole : headerSize + bodyLenOf bs ≤ bs.length := not_lt.mp hcut
  refine Or.inr ?_
  by_cases hbody : 2 ^ 32 ≤ 9 + bodyLenOf bs
  · exact Or.inl ⟨hwhole, Or.inl hbody⟩
  by_cases hcrc : storedCrc bs = frameCrc bs
  · by_cases hlen : 2 ^ 32 ≤ keyLenOf bs + valLenOf bs
    · exact Or.inl ⟨hwhole, Or.inr ⟨hcrc, hlen⟩⟩
    · exact Or.inr (Or.inr ⟨hwhole, not_le.mp hbody, hcrc, not_le.mp hlen⟩)
  · exact Or.inr (Or.inl ⟨hwhole, not_le.mp hbody, hcrc⟩)

/-- A panic comes from an overflowing frame only. -/
theorem readRecord_panic_iff : readRecord bs = .fail .panic ↔ OverflowingFrame bs := by
  refine ⟨fun h => ?_, OverflowingFrame.read⟩
  rcases frame_cases bs with hf | hf | hf | hf
  · rw [hf.read] at h; cases h
  · exact hf
  all_goals rw [hf.read] at h; cases h

/-- A mismatch comes from a bad frame only. -/
theorem readRecord_mismatch_iff {expected actual : BitVec 32} :
    readRecord bs = .fail (.crcMismatch expected actual) ↔
      BadFrame bs ∧ expected = storedCrc bs ∧ actual = frameCrc bs := by
  constructor
  · intro h
    rcases frame_cases bs with hf | hf | hf | hf
    · rw [hf.read] at h; cases h
    · rw [hf.read] at h; cases h
    · rw [hf.read] at h
      cases h
      exact ⟨hf, rfl, rfl⟩
    · rw [hf.read] at h; cases h
  · rintro ⟨hf, rfl, rfl⟩
    exact hf.read

/-- An entry comes from a good frame only. -/
theorem readRecord_item_iff {l : LogEntry} {rest : Bytes} :
    readRecord bs = .item l rest ↔ GoodFrame bs ∧ l = logEntryOf bs ∧ rest = behind bs := by
  constructor
  · intro h
    rcases frame_cases bs with hf | hf | hf | hf
    · rw [hf.read] at h; cases h
    · rw [hf.read] at h; cases h
    · rw [hf.read] at h; cases h
    · rw [hf.read] at h
      cases h
      exact ⟨hf, rfl, rfl⟩
  · rintro ⟨hf, rfl, rfl⟩
    exact hf.read

/-- The numbers in a header stand in its first twelve bytes. -/
theorem fields_congr {cs : Bytes} (h : cs.take 12 = bs.take 12) :
    storedCrc cs = storedCrc bs ∧ keyLenOf cs = keyLenOf bs ∧ valLenOf cs = valLenOf bs ∧
      bodyLenOf cs = bodyLenOf bs := by
  have hfield : ∀ i, i + 4 ≤ 12 → (cs.drop i).take 4 = (bs.drop i).take 4 := by
    intro i hi
    have hcut : ∀ xs : Bytes, (xs.drop i).take 4 = ((xs.take 12).drop i).take 4 := by
      intro xs
      rw [List.drop_take, List.take_take, min_eq_left (by omega)]
    rw [hcut cs, hcut bs, h]
  have hcrc : storedCrc cs = storedCrc bs :=
    congrArg (fun x => BitVec.ofNat 32 (Bytes.ofBe x)) (hfield 0 (by omega))
  have hkey : keyLenOf cs = keyLenOf bs := congrArg Bytes.ofBe (hfield 4 (by omega))
  have hval : valLenOf cs = valLenOf bs := congrArg Bytes.ofBe (hfield 8 (by omega))
  refine ⟨hcrc, hkey, hval, ?_⟩
  rw [bodyLenOf, hkey, hval]
  rfl

/-- Only the bytes of a good frame matter for what is read. -/
theorem GoodFrame.congr {cs : Bytes} (h : GoodFrame bs)
    (heq : cs.take (headerSize + bodyLenOf bs) = bs.take (headerSize + bodyLenOf bs)) :
    readRecord cs = .item (logEntryOf bs) (behind cs) ∧ bodyLenOf cs = bodyLenOf bs := by
  have hh : headerSize = 13 := rfl
  -- any part of the frame is the same in both
  have hpart : ∀ {i n : ℕ}, i + n ≤ headerSize + bodyLenOf bs →
      (cs.drop i).take n = (bs.drop i).take n := by
    intro i n hle
    have hcut : ∀ xs : Bytes, (xs.drop i).take n =
        (((xs.take (headerSize + bodyLenOf bs)).drop i).take n) := by
      intro xs
      rw [List.drop_take, List.take_take, min_eq_left (by omega)]
    rw [hcut cs, hcut bs, heq]
  have htake : cs.take 12 = bs.take 12 := hpart (i := 0) (by omega)
  obtain ⟨hcrc, hkey, hval, hbody⟩ := fields_congr htake
  have hframe : frameCrc cs = frameCrc bs := by
    rw [frameCrc, frameCrc, hbody, hpart (by omega)]
  have hitem : logEntryOf cs = logEntryOf bs := by
    have htomb : cs[12]? = bs[12]? := by
      have := congrArg (fun xs => xs[0]?) (hpart (i := 12) (n := 1) (by omega))
      simpa using this
    unfold logEntryOf
    rw [hcrc, hkey, hbody, hpart (by omega), htomb]
  have hgood : GoodFrame cs := by
    refine ⟨?_, by rw [hbody]; exact h.body_lt, by rw [hcrc, hframe]; exact h.crc_eq,
      by rw [hkey, hval]; exact h.lengths_lt⟩
    have hlen := congrArg List.length heq
    have hwhole := h.whole
    rw [List.length_take, List.length_take] at hlen
    omega
  refine ⟨?_, hbody⟩
  rw [← hitem]
  exact hgood.read

/-- A chain of records can be cut off behind its last record. -/
theorem exists_front {rest : Bytes} {items : List LogEntry}
    (h : Framing.Chain readRecord bs items rest) :
    ∃ front, bs = front ++ rest ∧ Framing.Chain readRecord front items [] := by
  induction h with
  | nil bs => exact ⟨[], rfl, .nil []⟩
  | @cons bs mid rest l items head _ ih =>
    obtain ⟨front, hmid, hchain⟩ := ih
    obtain ⟨hgood, rfl, hbehind⟩ := readRecord_item_iff.mp head
    have hlen : (bs.take (headerSize + bodyLenOf bs)).length = headerSize + bodyLenOf bs := by
      rw [List.length_take]
      exact min_eq_left hgood.whole
    refine ⟨bs.take (headerSize + bodyLenOf bs) ++ front, ?_, .cons ?_ hchain⟩
    · rw [List.append_assoc, ← hmid, hbehind, behind, List.take_append_drop]
    · have hfront :
          (bs.take (headerSize + bodyLenOf bs) ++ front).take (headerSize + bodyLenOf bs) =
            bs.take (headerSize + bodyLenOf bs) := List.take_left' hlen
      obtain ⟨hread, hbody⟩ := hgood.congr hfront
      rw [hread, behind, hbody, List.drop_left' hlen]

/-- Every entry that is read takes bytes, and the end of the file is no entry. -/
theorem readRecord_advances : Framing.Advances readRecord where
  nil := rfl
  shrinks := by
    intro bs l rest h
    obtain ⟨hf, _, rfl⟩ := readRecord_item_iff.mp h
    have hwhole := hf.whole
    rw [behind, List.length_drop]
    unfold headerSize at hwhole ⊢
    omega

/-- What holds at the end of a chain holds at its beginning, if good frames can be put in front
    of it. -/
theorem of_chain {P : Bytes → Prop} (hgood : ∀ {bs}, GoodFrame bs → P (behind bs) → P bs)
    {rest : Bytes} {items : List LogEntry} (h : Framing.Chain readRecord bs items rest)
    (hrest : P rest) : P bs := by
  induction h with
  | nil bs => exact hrest
  | cons head _ ih =>
    obtain ⟨hframe, _, rfl⟩ := readRecord_item_iff.mp head
    exact hgood hframe (ih hrest)

/-- The key of a good frame is as long as announced, and so is the value. -/
theorem GoodFrame.lengths (h : GoodFrame bs) :
    (logEntryOf bs).key.length = keyLenOf bs ∧ (logEntryOf bs).value.length = valLenOf bs := by
  have hwhole := h.whole
  have hbody : bodyLenOf bs = keyLenOf bs + valLenOf bs := uint32_of_lt h.lengths_lt
  have hlen : ((bs.drop headerSize).take (bodyLenOf bs)).length = keyLenOf bs + valLenOf bs := by
    rw [List.length_take, List.length_drop]
    omega
  constructor
  · show (((bs.drop headerSize).take (bodyLenOf bs)).take (keyLenOf bs)).length = _
    rw [List.length_take, hlen]
    omega
  · show (((bs.drop headerSize).take (bodyLenOf bs)).drop (keyLenOf bs)).length = _
    rw [List.length_drop, hlen]
    omega

/-- The key of a good frame stands behind its header. -/
theorem GoodFrame.key_eq (h : GoodFrame bs) :
    (logEntryOf bs).key = (bs.drop headerSize).take (keyLenOf bs) := by
  have hbody : bodyLenOf bs = keyLenOf bs + valLenOf bs := uint32_of_lt h.lengths_lt
  show ((bs.drop headerSize).take (bodyLenOf bs)).take (keyLenOf bs) = _
  rw [List.take_take, min_eq_left (by omega)]

/-- The fields of an intact record. -/
theorem fields_record {e : Entry} (rest : Bytes) (h : e.Fits) :
    storedCrc (e.record ++ rest) = e.crc ∧ keyLenOf (e.record ++ rest) = e.key.length ∧
      valLenOf (e.record ++ rest) = e.value.length ∧
      bodyLenOf (e.record ++ rest) = e.key.length + e.value.length ∧
      frameCrc (e.record ++ rest) = e.crc := by
  have hrec : e.record ++ rest = e.header ++ (e.key ++ e.value ++ rest) := by
    rw [e.record_eq, List.append_assoc]
  obtain ⟨hcrc, hkey, hval, hbody⟩ := Entry.header_fields h (e.key ++ e.value ++ rest)
  rw [← hrec] at hcrc hkey hval hbody
  refine ⟨hcrc, hkey, hval, hbody, ?_⟩
  rw [frameCrc, Entry.frame_eq h]
  rfl

/-! ### A short burst -/

/-- At most four bytes in a row have changed, and none in front of the tombstone. -/
structure Burst (record changed : Bytes) : Prop where
  length_eq : changed.length = record.length
  within : ∃ o, 12 ≤ o ∧ ∀ i, i < o ∨ o + 4 ≤ i → changed[i]? = record[i]?
  ne : changed ≠ record

/-- **A short burst behind the lengths is seen.** -/
theorem badFrame_burst {e : Entry} {changed : Bytes} (rest : Bytes) (h : e.Fits)
    (hburst : Burst e.record changed) :
    BadFrame (changed ++ rest) ∧ storedCrc (changed ++ rest) = e.crc := by
  have hfit : headerSize + e.key.length + e.value.length < 2 ^ 32 := h
  have hh : headerSize = 13 := rfl
  have hlen := e.length_record
  obtain ⟨o, ho, hsame⟩ := hburst.within
  obtain ⟨old, new, back, hrec, hchanged, hburstlen, hfour⟩ :=
    Bytes.exists_burst hburst.length_eq hsame
  have hfront : 12 ≤ (e.record.take o).length := by
    rw [List.length_take]
    omega
  generalize e.record.take o = front at hrec hchanged hfront
  have hne : new ≠ old := by
    rintro rfl
    exact hburst.ne (hchanged.trans hrec.symm)
  -- the numbers in the header are the old ones
  have htake : (changed ++ rest).take 12 = (e.record ++ rest).take 12 := by
    rw [hchanged, hrec, List.append_assoc front, List.append_assoc front,
      List.take_append_of_le_length hfront, List.take_append_of_le_length hfront]
  obtain ⟨hcrc, _, _, hbody⟩ := fields_congr htake
  obtain ⟨hcrc₀, _, _, hbody₀, _⟩ := fields_record rest h
  -- the checksum is taken over all of the changed record behind its own four bytes
  have hframe : frameCrc (changed ++ rest) = Crc32.checksum (front.drop 4 ++ (new ++ back)) := by
    have hdrop : changed.drop 4 = front.drop 4 ++ (new ++ back) := by
      rw [hchanged, List.drop_append_of_le_length (by omega)]
    have hlen' : changed.length = headerSize + e.key.length + e.value.length :=
      hburst.length_eq.trans hlen
    have hcut : (changed.drop 4).length = 9 + (e.key.length + e.value.length) := by
      rw [List.length_drop]
      omega
    rw [frameCrc, hbody, hbody₀, List.drop_append_of_le_length (by omega), List.take_left' hcut,
      hdrop]
  have hpayload : e.crc = Crc32.checksum (front.drop 4 ++ (old ++ back)) := by
    have hdrop : e.record.drop 4 = e.payload := List.drop_left' (Bytes.length_be _ _)
    rw [Entry.crc, ← hdrop, hrec, List.drop_append_of_le_length (by omega)]
  rw [hcrc₀] at hcrc
  refine ⟨⟨?_, by omega, ?_⟩, hcrc⟩
  · rw [List.length_append, hburst.length_eq]
    omega
  · rw [hcrc, hframe, hpayload]
    exact (Crc32.checksum_burst_ne hburstlen hfour hne _ _).symm

/-! ### One changed byte -/

section Changed

variable {e : Entry} {o : ℕ} {b : UInt8} (rest : Bytes)

theorem set_record_append (ho : o < e.record.length) :
    e.record.set o b ++ rest = (e.record ++ rest).set o b :=
  (List.set_append_left o b ho).symm

/-- A changed byte of one of the numbers in the header changes the number. -/
theorem field_changed (hlt : o < e.record.length) (hb : b ≠ e.record[o]) {n : ℕ} (hlo : n ≤ o)
    (hhi : o < n + 4) :
    Bytes.ofBe (((e.record.set o b ++ rest).drop n).take 4) ≠
      Bytes.ofBe (((e.record ++ rest).drop n).take 4) := by
  have ho : o < (e.record ++ rest).length := by
    rw [List.length_append]
    omega
  rw [set_record_append rest hlt]
  refine Bytes.ofBe_set_ne ho ?_ hlo hhi
  rwa [List.getElem_append_left hlt]

/-- A changed byte of the checksum changes the stored checksum. -/
private theorem storedCrc_changed (h : e.Fits) (ho : o < 4) (hlt : o < e.record.length)
    (hb : b ≠ e.record[o]) : storedCrc (e.record.set o b ++ rest) ≠ e.crc := by
  obtain ⟨hcrc, _⟩ := fields_record rest h
  have hne := field_changed rest hlt hb (Nat.zero_le o) (by omega)
  rw [List.drop_zero, List.drop_zero] at hne
  rw [← hcrc]
  intro heq
  have hnat := congrArg BitVec.toNat heq
  have hnew := Bytes.ofBe_take_lt 4 (e.record.set o b ++ rest)
  have hold := Bytes.ofBe_take_lt 4 (e.record ++ rest)
  rw [storedCrc, storedCrc, BitVec.toNat_ofNat, BitVec.toNat_ofNat, Nat.mod_eq_of_lt (by omega),
    Nat.mod_eq_of_lt (by omega)] at hnat
  exact hne hnat

/-- A changed byte is the shortest burst. -/
private theorem burst_set (ho : 12 ≤ o) (hlt : o < e.record.length) (hb : b ≠ e.record[o]) :
    Burst e.record (e.record.set o b) := by
  refine ⟨List.length_set .., ⟨o, ho, ?_⟩, ?_⟩
  · intro i hi
    exact List.getElem?_set_ne (by omega)
  · intro heq
    have hget : (e.record.set o b)[o]? = some b := List.getElem?_set_self hlt
    rw [heq, List.getElem?_eq_getElem hlt] at hget
    exact hb (Option.some.inj hget).symm

/-- **A changed byte outside the two lengths is seen.** -/
theorem badFrame_changed (h : e.Fits) (hlt : o < e.record.length) (hb : b ≠ e.record[o])
    (hout : o < 4 ∨ 12 ≤ o) : BadFrame (e.record.set o b ++ rest) := by
  rcases hout with ho | ho
  · -- only the stored checksum has changed
    have hfit : headerSize + e.key.length + e.value.length < 2 ^ 32 := h
    have hh : headerSize = 13 := rfl
    obtain ⟨_, _, _, hbody₀, hcrc₀⟩ := fields_record rest h
    have hdrop : (e.record.set o b ++ rest).drop 4 = (e.record ++ rest).drop 4 := by
      rw [set_record_append rest hlt, List.drop_set_of_lt ho]
    have hbody : bodyLenOf (e.record.set o b ++ rest) = e.key.length + e.value.length := by
      have hvalue : ∀ xs : Bytes, valLenOf xs = Bytes.ofBe (((xs.drop 4).drop 4).take 4) := by
        intro xs
        rw [List.drop_drop, valLenOf]
      rw [← hbody₀, bodyLenOf, bodyLenOf, keyLenOf, keyLenOf, hvalue, hvalue, hdrop]
    have hcrc : frameCrc (e.record.set o b ++ rest) = e.crc := by
      rw [← hcrc₀, frameCrc, frameCrc, hbody, hbody₀, hdrop]
    refine ⟨?_, by omega, ?_⟩
    · rw [hbody, List.length_append, List.length_set, e.length_record]
      omega
    · rw [hcrc]
      exact storedCrc_changed rest h ho hlt hb
  · exact (badFrame_burst rest h (burst_set ho hlt hb)).1

/-- A changed byte of the key length changes the key length. -/
theorem keyLenOf_changed (h : e.Fits) (hlt : o < e.record.length) (hb : b ≠ e.record[o])
    (hlo : 4 ≤ o) (hhi : o < 8) : keyLenOf (e.record.set o b ++ rest) ≠ e.key.length := by
  obtain ⟨_, hkey, _⟩ := fields_record rest h
  rw [← hkey]
  exact field_changed rest hlt hb hlo hhi

/-- A changed byte of the value length changes the value length and leaves the key length. -/
theorem valLenOf_changed (h : e.Fits) (hlt : o < e.record.length) (hb : b ≠ e.record[o])
    (hlo : 8 ≤ o) (hhi : o < 12) : valLenOf (e.record.set o b ++ rest) ≠ e.value.length ∧
      keyLenOf (e.record.set o b ++ rest) = e.key.length := by
  obtain ⟨_, hkey, hval, _⟩ := fields_record rest h
  rw [← hkey, ← hval]
  refine ⟨field_changed rest hlt hb hlo hhi, ?_⟩
  rw [set_record_append rest hlt]
  exact congrArg Bytes.ofBe (Bytes.take_drop_set b (by omega))

/-- The body is where it was. -/
theorem body_changed (ho : o < headerSize) :
    (e.record.set o b ++ rest).drop headerSize = e.key ++ e.value ++ rest := by
  have hlt : o < e.record.length := by
    rw [e.length_record]
    omega
  rw [set_record_append rest hlt, List.drop_set_of_lt ho, e.record_eq, List.append_assoc,
    List.drop_left' e.length_header]

end Changed

end Hallownest
