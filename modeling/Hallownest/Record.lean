import Hallownest.Lib.Crc32
import Hallownest.Lib.Framing
import Hallownest.Lib.Slice

namespace Hallownest

/-!
# Records

The record format that the write-ahead log (`wal.go`) and the SSTables (`sstable.go`) share:

    [4 bytes CRC-32][4 bytes key length][4 bytes value length][1 byte tombstone][key][value]

with all numbers big-endian and the checksum over everything behind it.  `uint32` arithmetic is
arithmetic modulo `2 ^ 32`.  Panics (a slice bound out of range) are explicit: `none` in the
encoder, an error of its own in the decoder.

* `encodeRecord` and `readRecord` are translated from the source; `record` is the format.
* `record_format` — the decoder reads back what the encoder writes; `readRecord_cut` — it takes
  a cut record for the end of the file.
-/

/-- A key with its value, or with a tombstone. -/
structure Entry where
  key : Bytes
  value : Bytes
  tombstone : Bool
  deriving DecidableEq, Repr

/-- The accounted size of an entry. -/
def Entry.size (e : Entry) : Int := (e.key.length : Int) + e.value.length

/-- Length of a record header (`HeaderSize`, `RecordHeaderSize`). -/
def headerSize : ℕ := 13

/-- A record that was read (`LogEntry`). -/
structure LogEntry where
  crc32 : BitVec 32
  key : Bytes
  value : Bytes
  tombstone : Bool
  deriving DecidableEq, Repr

/-- The entry in a record that was read. -/
def LogEntry.entry (l : LogEntry) : Entry where
  key := l.key
  value := l.value
  tombstone := l.tombstone

/-- Conversion to `uint32`. -/
def uint32 (n : ℕ) : ℕ := n % 2 ^ 32

/-- Write a record into a buffer of the given length. -/
def fillRecord (totalLen : ℕ) (key value : Bytes) (tombstone : Bool) : Option Bytes := do
  let keyLen := uint32 key.length
  let valLen := uint32 value.length
  let buf : Bytes := List.replicate totalLen 0
  let buf ← Bytes.blit buf 4 8 (Bytes.be 4 keyLen)
  let buf ← Bytes.blit buf 8 12 (Bytes.be 4 valLen)
  let buf ← Slice.put buf 12 (if tombstone then 1 else 0)
  let buf ← Bytes.blit buf 13 (uint32 (13 + keyLen)) key
  let buf ← Bytes.blit buf (uint32 (13 + keyLen)) buf.length value
  let checksum := Crc32.checksum (buf.drop 4)
  Bytes.blit buf 0 4 (Bytes.be 4 checksum.toNat)

/-- Serialise a record (`EncodeRecord`); the length of the buffer is a `uint32`. -/
def encodeRecord (key value : Bytes) (tombstone : Bool) : Option Bytes :=
  fillRecord (uint32 (headerSize + uint32 key.length + uint32 value.length)) key value tombstone

/-- Why reading a record fails: a wrong checksum, or a panic. -/
inductive ReadError
  | crcMismatch (expected actual : BitVec 32)
  | panic
  deriving DecidableEq, Repr

/-- One round of the loops in `Recover`, `ReplayWAL` and `SSTableReader.Get`: read a header,
    then a body, compare the checksum, and cut the body into key and value. -/
def readRecord (bs : Bytes) : Framing.Next LogEntry ReadError :=
  match Bytes.readFull headerSize bs with
  | none => .stop
  | some (headerBuf, bs) =>
    let expectedCRC := BitVec.ofNat 32 (Bytes.ofBe (headerBuf.take 4))
    let keyLen := Bytes.ofBe ((headerBuf.drop 4).take 4)
    let valLen := Bytes.ofBe ((headerBuf.drop 8).take 4)
    let tombstone := headerBuf[12]? == some 1
    let bodyLen := uint32 (keyLen + valLen)
    match Bytes.readFull bodyLen bs with
    | none => .stop
    | some (bodyBuf, rest) =>
      -- `checkBuf[0:9]` is out of range when the length of `checkBuf` wraps around
      if uint32 (9 + bodyLen) < 9 then .fail .panic
      else
        let actualCRC := Crc32.checksum (headerBuf.drop 4 ++ bodyBuf)
        if expectedCRC ≠ actualCRC then .fail (.crcMismatch expectedCRC actualCRC)
        -- `bodyBuf[:keyLen]` is out of range when the length of `bodyBuf` has wrapped around
        else if bodyLen < keyLen then .fail .panic
        else .item ⟨expectedCRC, bodyBuf.take keyLen, bodyBuf.drop keyLen, tombstone⟩ rest

/-! ### The format -/

namespace Entry

/-- The record of the entry has a length below `2 ^ 32`. -/
def Fits (e : Entry) : Prop := headerSize + e.key.length + e.value.length < 2 ^ 32

instance (e : Entry) : Decidable e.Fits := inferInstanceAs (Decidable (_ < _))

/-- The lengths of the entry can be written into a record. -/
def Writable (e : Entry) : Prop := headerSize + e.key.length < 2 ^ 32 ∧ e.value.length < 2 ^ 32

theorem Fits.writable {e : Entry} (h : e.Fits) : e.Writable := by
  have hfit : headerSize + e.key.length + e.value.length < 2 ^ 32 := h
  exact ⟨by omega, by omega⟩

/-- The tombstone byte. -/
def flag (e : Entry) : UInt8 := if e.tombstone then 1 else 0

/-- What the checksum is over. -/
def payload (e : Entry) : Bytes :=
  Bytes.be 4 e.key.length ++ Bytes.be 4 e.value.length ++ [e.flag] ++ e.key ++ e.value

/-- The checksum of the record. -/
def crc (e : Entry) : BitVec 32 := Crc32.checksum e.payload

/-- The record. -/
def record (e : Entry) : Bytes := Bytes.be 4 e.crc.toNat ++ e.payload

/-- The entry as it is read back. -/
def logEntry (e : Entry) : LogEntry where
  crc32 := e.crc
  key := e.key
  value := e.value
  tombstone := e.tombstone

theorem length_record (e : Entry) :
    e.record.length = headerSize + e.key.length + e.value.length := by
  simp [record, payload, headerSize]
  omega

end Entry

variable {e : Entry}

theorem uint32_of_lt {n : ℕ} (h : n < 2 ^ 32) : uint32 n = n := Nat.mod_eq_of_lt h

/-- **A buffer of the right length is filled with the record**, as long as the lengths in it fit
    into 32 bits. -/
theorem fillRecord_eq (h : e.Writable) :
    fillRecord (headerSize + e.key.length + e.value.length) e.key e.value e.tombstone =
      some e.record := by
  have hh : headerSize = 13 := rfl
  obtain ⟨hkey, hvalue⟩ := h
  let zeros : ℕ → Bytes := fun n => List.replicate n 0
  let k := Bytes.be 4 e.key.length
  let v := Bytes.be 4 e.value.length
  -- the buffer after each of the writes, cut into the fields
  have h0 : zeros (headerSize + e.key.length + e.value.length) =
      zeros 4 ++ zeros 4 ++ (zeros 4 ++ 0 :: (zeros e.key.length ++ zeros e.value.length)) := by
    show List.replicate _ _ = _
    rw [show headerSize + e.key.length + e.value.length =
      4 + 4 + (4 + (1 + (e.key.length + e.value.length))) by omega]
    simp only [List.replicate_add, List.replicate_one]
    rfl
  have h1 : Bytes.blit (zeros (headerSize + e.key.length + e.value.length)) 4 8 k =
      some (zeros 4 ++ k ++ (zeros 4 ++ 0 :: (zeros e.key.length ++ zeros e.value.length))) := by
    rw [h0]
    exact Bytes.blit_append _ _ _ _ (by simp [zeros]) (by simp [zeros]) (by simp [zeros, k])
  have h2 : Bytes.blit (zeros 4 ++ k ++ (zeros 4 ++ 0 :: (zeros e.key.length ++
      zeros e.value.length))) 8 12 v =
      some (zeros 4 ++ k ++ v ++ 0 :: (zeros e.key.length ++ zeros e.value.length)) := by
    rw [← List.append_assoc (zeros 4 ++ k)]
    exact Bytes.blit_append _ _ _ _ (by simp [zeros, k]) (by simp [zeros, k]) (by simp [zeros, v])
  have h3 : Slice.put (zeros 4 ++ k ++ v ++ 0 :: (zeros e.key.length ++ zeros e.value.length)) 12
      e.flag = some (zeros 4 ++ k ++ v ++ e.flag :: (zeros e.key.length ++ zeros e.value.length)) :=
    Slice.put_append (by simp [zeros, k, v]) 0 e.flag
  have h4 : Bytes.blit (zeros 4 ++ k ++ v ++ e.flag :: (zeros e.key.length ++
      zeros e.value.length)) 13 (13 + e.key.length) e.key =
      some (zeros 4 ++ k ++ v ++ [e.flag] ++ e.key ++ zeros e.value.length) := by
    rw [show zeros 4 ++ k ++ v ++ e.flag :: (zeros e.key.length ++ zeros e.value.length) =
      zeros 4 ++ k ++ v ++ [e.flag] ++ zeros e.key.length ++ zeros e.value.length by simp]
    exact Bytes.blit_append _ _ _ _ (by simp [zeros, k, v]) (by simp [zeros, k, v])
      (by simp [zeros])
  have h5 : Bytes.blit (zeros 4 ++ k ++ v ++ [e.flag] ++ e.key ++ zeros e.value.length)
      (13 + e.key.length)
      (zeros 4 ++ k ++ v ++ [e.flag] ++ e.key ++ zeros e.value.length).length e.value =
      some (zeros 4 ++ e.payload) := by
    have hlast := Bytes.blit_append (zeros 4 ++ k ++ v ++ [e.flag] ++ e.key)
      (zeros e.value.length) [] e.value (show 13 + e.key.length = _ by simp [zeros, k, v]; omega)
      (List.length_append) (by simp [zeros])
    rw [List.append_nil, List.append_nil] at hlast
    rw [hlast]
    simp [Entry.payload, k, v]
  have h6 : Bytes.blit (zeros 4 ++ e.payload) 0 4 (Bytes.be 4 e.crc.toNat) = some e.record :=
    Bytes.blit_append [] (zeros 4) e.payload _ rfl rfl (by simp [zeros])
  -- the checksum is taken over what stands behind its own four bytes
  have hdrop : (zeros 4 ++ e.payload).drop 4 = e.payload := by
    rw [List.drop_append_of_le_length (by simp [zeros])]
    simp [zeros]
  unfold fillRecord
  dsimp only
  rw [uint32_of_lt (show e.key.length < 2 ^ 32 by omega), uint32_of_lt hvalue,
    uint32_of_lt (show 13 + e.key.length < 2 ^ 32 by omega)]
  show (Bytes.blit (zeros _) 4 8 k).bind (fun buf => (Bytes.blit buf 8 12 v).bind fun buf =>
    (Slice.put buf 12 e.flag).bind _) = _
  rw [h1, Option.bind_some, h2, Option.bind_some, h3]
  simp only [Option.bind_eq_bind, Option.bind_some, h4, h5, hdrop]
  exact h6

/-- **The encoder writes the record.** -/
theorem encodeRecord_eq (h : e.Fits) :
    encodeRecord e.key e.value e.tombstone = some e.record := by
  have hfit : headerSize + e.key.length + e.value.length < 2 ^ 32 := h
  unfold encodeRecord
  rw [uint32_of_lt (show e.key.length < 2 ^ 32 by omega),
    uint32_of_lt (show e.value.length < 2 ^ 32 by omega), uint32_of_lt hfit]
  exact fillRecord_eq h.writable

/-- The entry that is left when lengths are cut to 32 bits. -/
def truncate (key value : Bytes) (tombstone : Bool) : Entry where
  key := key.take (uint32 key.length)
  value := value.take (uint32 value.length)
  tombstone := tombstone

theorem uint32_le (n : ℕ) : uint32 n ≤ n := Nat.mod_le _ _

/-- **The encoder in general.**  Unless it panics it writes the record of the entry cut to
    32-bit lengths, which fits. -/
theorem encodeRecord_truncate {key value bs : Bytes} {tombstone : Bool}
    (h : encodeRecord key value tombstone = some bs) :
    (truncate key value tombstone).Fits ∧ bs = (truncate key value tombstone).record := by
  have hklt : uint32 key.length < 2 ^ 32 := Nat.mod_lt _ (by decide)
  have hvlt : uint32 value.length < 2 ^ 32 := Nat.mod_lt _ (by decide)
  have hh : headerSize = 13 := rfl
  have hall := h
  simp only [encodeRecord, fillRecord, Option.bind_eq_bind, Option.bind_eq_some_iff] at h
  obtain ⟨b₁, h₁, b₂, h₂, b₃, h₃, b₄, h₄, b₅, h₅, h₆⟩ := h
  -- the bounds of the slice the key is copied into say that nothing wraps around
  have hlen : b₃.length = uint32 (headerSize + uint32 key.length + uint32 value.length) := by
    rw [Slice.length_of_put h₃, (Bytes.blit_eq_some h₂).2.2, (Bytes.blit_eq_some h₁).2.2,
      List.length_replicate]
  obtain ⟨hlo, hhi, hlen₄⟩ := Bytes.blit_eq_some h₄
  rw [hlen] at hhi hlen₄
  have hfit : headerSize + uint32 key.length + uint32 value.length < 2 ^ 32 := by
    unfold uint32 at hlo hhi hklt hvlt ⊢
    omega
  have hk : (key.take (uint32 key.length)).length = uint32 key.length := by
    rw [List.length_take, min_eq_left (uint32_le _)]
  have hv : (value.take (uint32 value.length)).length = uint32 value.length := by
    rw [List.length_take, min_eq_left (uint32_le _)]
  have hfits : (truncate key value tombstone).Fits := by
    show headerSize + (key.take _).length + (value.take _).length < _
    rw [hk, hv]; exact hfit
  refine ⟨hfits, ?_⟩
  -- of the key and the value no more is copied than the cut lengths
  have hsame : encodeRecord (key.take (uint32 key.length)) (value.take (uint32 value.length))
      tombstone = some bs := by
    rw [uint32_of_lt hfit] at hlen₄
    have hsum : uint32 (13 + uint32 key.length) = 13 + uint32 key.length :=
      uint32_of_lt (by omega)
    simp only [encodeRecord, fillRecord, hk, hv, uint32_of_lt hklt, uint32_of_lt hvlt, h₁, h₂, h₃,
      Option.bind_eq_bind, Option.bind_some]
    rw [Bytes.blit_take _ _ (by rw [hsum]; omega), h₄, Option.bind_some,
      Bytes.blit_take _ _ (by rw [hsum, hlen₄]; omega), h₅]
    exact h₆
  generalize hcut : truncate key value tombstone = e at hfits
  have heq : encodeRecord e.key e.value e.tombstone = some bs := by rw [← hcut]; exact hsame
  rw [encodeRecord_eq hfits] at heq
  exact (Option.some.inj heq).symm

/-- The header of a record. -/
def Entry.header (e : Entry) : Bytes :=
  Bytes.be 4 e.crc.toNat ++ Bytes.be 4 e.key.length ++ Bytes.be 4 e.value.length ++ [e.flag]

theorem Entry.record_eq (e : Entry) : e.record = e.header ++ (e.key ++ e.value) := by
  simp [Entry.record, Entry.payload, Entry.header]

theorem Entry.length_header (e : Entry) : e.header.length = headerSize := by
  simp [Entry.header, headerSize]

/-! ### What the decoder sees -/

/-- The checksum stored at the front of `bs`. -/
def storedCrc (bs : Bytes) : BitVec 32 := BitVec.ofNat 32 (Bytes.ofBe (bs.take 4))

/-- The key length announced at the front of `bs`. -/
def keyLenOf (bs : Bytes) : ℕ := Bytes.ofBe ((bs.drop 4).take 4)

/-- The value length announced at the front of `bs`. -/
def valLenOf (bs : Bytes) : ℕ := Bytes.ofBe ((bs.drop 8).take 4)

/-- The length of the body that is read for them. -/
def bodyLenOf (bs : Bytes) : ℕ := uint32 (keyLenOf bs + valLenOf bs)

/-- The checksum of the header fields and the body that is read. -/
def frameCrc (bs : Bytes) : BitVec 32 := Crc32.checksum ((bs.drop 4).take (9 + bodyLenOf bs))

/-- The record read for them. -/
def logEntryOf (bs : Bytes) : LogEntry where
  crc32 := storedCrc bs
  key := ((bs.drop headerSize).take (bodyLenOf bs)).take (keyLenOf bs)
  value := ((bs.drop headerSize).take (bodyLenOf bs)).drop (keyLenOf bs)
  tombstone := bs[12]? == some 1

/-- **The decoder**, by the fields at the front of the stream. -/
theorem readRecord_eq (bs : Bytes) : readRecord bs =
    if bs.length < headerSize + bodyLenOf bs then .stop
    else if uint32 (9 + bodyLenOf bs) < 9 then .fail .panic
    else if storedCrc bs ≠ frameCrc bs then .fail (.crcMismatch (storedCrc bs) (frameCrc bs))
    else if bodyLenOf bs < keyLenOf bs then .fail .panic
    else .item (logEntryOf bs) (bs.drop (headerSize + bodyLenOf bs)) := by
  have hh : headerSize = 13 := rfl
  unfold readRecord
  by_cases hshort : bs.length < headerSize
  · rw [Bytes.readFull_of_lt hshort, if_pos (by omega)]
  · -- the fields of the header are those of the stream
    have hcrc : (bs.take headerSize).take 4 = bs.take 4 := by
      rw [List.take_take, min_eq_left (by omega)]
    have hkey : ((bs.take headerSize).drop 4).take 4 = (bs.drop 4).take 4 := by
      rw [List.drop_take, List.take_take, min_eq_left (by omega)]
    have hval : ((bs.take headerSize).drop 8).take 4 = (bs.drop 8).take 4 := by
      rw [List.drop_take, List.take_take, min_eq_left (by omega)]
    have htomb : (bs.take headerSize)[12]? = bs[12]? := List.getElem?_take_of_lt (by omega)
    rw [Bytes.readFull, if_pos (by omega)]
    simp only [hcrc, hkey, hval, htomb]
    have hbody : uint32 (Bytes.ofBe ((bs.drop 4).take 4) + Bytes.ofBe ((bs.drop 8).take 4)) =
        bodyLenOf bs := rfl
    -- header fields and body stand one behind the other in the stream
    have hframe : (bs.take headerSize).drop 4 ++ (bs.drop headerSize).take (bodyLenOf bs) =
        (bs.drop 4).take (9 + bodyLenOf bs) := by
      rw [List.drop_take, List.take_add, List.drop_drop]
      rfl
    rw [hbody]
    by_cases hcut : bs.length < headerSize + bodyLenOf bs
    · rw [if_pos hcut, Bytes.readFull_of_lt (by rw [List.length_drop]; omega)]
    · rw [if_neg hcut, Bytes.readFull, if_pos (by rw [List.length_drop]; omega)]
      simp only [hframe, List.drop_drop]
      rfl

/-- What the decoder makes of the header of a record. -/
theorem Entry.header_fields (h : e.Fits) (body : Bytes) :
    storedCrc (e.header ++ body) = e.crc ∧ keyLenOf (e.header ++ body) = e.key.length ∧
      valLenOf (e.header ++ body) = e.value.length ∧
      bodyLenOf (e.header ++ body) = e.key.length + e.value.length := by
  have hfit : headerSize + e.key.length + e.value.length < 2 ^ 32 := h
  have hc : Bytes.ofBe (Bytes.be 4 e.crc.toNat) = e.crc.toNat := by
    rw [Bytes.ofBe_be, Nat.mod_eq_of_lt (by have := e.crc.isLt; omega)]
  have hkey : keyLenOf (e.header ++ body) = e.key.length := by
    have hk : Bytes.ofBe (Bytes.be 4 e.key.length) = e.key.length := by
      rw [Bytes.ofBe_be, Nat.mod_eq_of_lt (by omega)]
    simp [keyLenOf, Entry.header, hk]
  have hval : valLenOf (e.header ++ body) = e.value.length := by
    have hv : Bytes.ofBe (Bytes.be 4 e.value.length) = e.value.length := by
      rw [Bytes.ofBe_be, Nat.mod_eq_of_lt (by omega)]
    have hdrop : (e.header ++ body).drop 8 =
        Bytes.be 4 e.value.length ++ ([e.flag] ++ body) := by
      rw [Entry.header, List.append_assoc, List.append_assoc]
      exact List.drop_left' (by simp)
    rw [valLenOf, hdrop, List.take_left' (Bytes.length_be _ _), hv]
  refine ⟨?_, hkey, hval, ?_⟩
  · simp [storedCrc, Entry.header, hc]
  · rw [bodyLenOf, hkey, hval, uint32_of_lt (by omega)]

/-- The header fields and the body make up the payload. -/
theorem Entry.frame_eq (h : e.Fits) (rest : Bytes) :
    ((e.record ++ rest).drop 4).take (9 + bodyLenOf (e.record ++ rest)) = e.payload := by
  obtain ⟨_, _, _, hbody⟩ := Entry.header_fields h (e.key ++ e.value ++ rest)
  rw [← List.append_assoc, ← e.record_eq] at hbody
  have hlen : e.payload.length = 9 + (e.key.length + e.value.length) := by
    simp [Entry.payload]; omega
  rw [hbody, Entry.record, List.append_assoc, List.drop_left' (Bytes.length_be _ _),
    List.take_left' hlen]

/-- **A whole record is read off the front.** -/
theorem readRecord_record (h : e.Fits) (rest : Bytes) :
    readRecord (e.record ++ rest) = .item e.logEntry rest := by
  have hfit : headerSize + e.key.length + e.value.length < 2 ^ 32 := h
  have hh : headerSize = 13 := rfl
  have hframe := Entry.frame_eq h rest
  have hrec : e.record ++ rest = e.header ++ (e.key ++ e.value ++ rest) := by
    rw [e.record_eq, List.append_assoc]
  obtain ⟨hcrc, hkey, hval, hbody⟩ := Entry.header_fields h (e.key ++ e.value ++ rest)
  rw [← hrec] at hcrc hkey hval hbody
  have hlen : (e.record ++ rest).length = headerSize + (e.key.length + e.value.length) +
      rest.length := by
    rw [List.length_append, e.length_record]; omega
  have hfront : (e.record ++ rest).drop headerSize = e.key ++ e.value ++ rest := by
    rw [hrec, List.drop_left' e.length_header]
  have hitem : logEntryOf (e.record ++ rest) = e.logEntry := by
    have htomb : ((e.record ++ rest)[12]? == some 1) = e.tombstone := by
      rw [hrec, List.getElem?_append_left (by rw [e.length_header]; decide)]
      cases ht : e.tombstone <;> simp [Entry.header, Entry.flag, ht]
    unfold logEntryOf
    rw [hcrc, hkey, hbody, hfront, htomb, List.take_left' (List.length_append), List.take_left' rfl,
      List.drop_left' rfl]
    rfl
  rw [readRecord_eq, if_neg (by omega), if_neg (by rw [uint32_of_lt (by omega)]; omega),
    if_neg, if_neg (by omega), hitem, hbody, e.record_eq, List.drop_left']
  · rw [List.length_append, e.length_header, List.length_append]
  · -- the checksum is that of the payload
    rw [hcrc, frameCrc, hframe]
    simp [Entry.crc]

/-- **A cut record** is taken for the end of the file. -/
theorem readRecord_cut (h : e.Fits) {t : Bytes} (ht : t <+: e.record) (hne : t ≠ e.record) :
    readRecord t = .stop := by
  have hlt : t.length < e.record.length := by
    refine lt_of_le_of_ne ht.length_le fun heq => hne (ht.eq_of_length heq)
  rw [e.length_record] at hlt
  rw [readRecord_eq, if_pos]
  by_cases hshort : t.length < headerSize
  · -- the cut is inside the header
    omega
  · -- the cut is inside the body, whose length the header tells
    obtain ⟨body, rfl⟩ : ∃ body, t = e.header ++ body := by
      refine ⟨t.drop headerSize, ?_⟩
      have htake : t.take headerSize = e.header := by
        have h1 := List.prefix_iff_eq_take.mp ht
        rw [h1, List.take_take, min_eq_left (by omega), e.record_eq,
          List.take_left' e.length_header]
      rw [← htake, List.take_append_drop]
    obtain ⟨_, _, _, hbody⟩ := Entry.header_fields h body
    rw [hbody]
    omega

/-- **The record format**, as a format of frames. -/
theorem record_format : Framing.Format readRecord Entry.record Entry.logEntry Entry.Fits where
  nonempty := by
    intro e _ hnil
    have := e.length_record
    rw [hnil, List.length_nil, headerSize] at this
    omega
  whole := readRecord_record

end Hallownest
