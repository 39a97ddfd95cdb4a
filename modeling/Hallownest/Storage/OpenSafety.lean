import Hallownest.Storage.Scan

namespace Hallownest.Storage

/-!
# Storage — opening and reading any file

`OpenSSTable` and `Get` on a file of any bytes.  Opening takes the lengths of the index block and
the filter block from the footer: it panics if no buffer can have one of them, or if the filter
block is empty (`openSSTable_cases`).  `Get` takes the ends of a block from the index and panics
if they are the wrong way round or too far apart, or if the scan comes to a record whose lengths
wrap around (`get_panic_iff`).  Other than that, both return a result or an error
(`open_get_safe_iff`).
-/

/-! ### Blocks of a file -/

/-- A part of a file that can be read as a whole; nothing can be read at any place that is not
    negative. -/
def blockAt (file : Bytes) (off n : ℕ) : Option Bytes :=
  if off < 2 ^ 63 ∧ (n = 0 ∨ off + n ≤ file.length) then some ((file.drop off).take n) else none

private theorem length_blockAt {file bs : Bytes} {off n : ℕ} (h : blockAt file off n = some bs) :
    bs.length = n := by
  unfold blockAt at h
  split at h
  · rename_i hblock
    cases h
    rw [List.length_take, List.length_drop]
    omega
  · cases h

private theorem lt_of_blockAt {file bs : Bytes} {off n : ℕ} (h : blockAt file off n = some bs) :
    off < 2 ^ 63 := by
  unfold blockAt at h
  split at h
  · rename_i hblock
    exact hblock.1
  · cases h

/-- **Reading a block** of a file panics, fails or yields it. -/
theorem readBlock_cases {file : Bytes} (hfile : file.length < 2 ^ 63) {off : ℕ}
    (hoff : off < 2 ^ 64) (n : ℕ) (e : SSTableError) :
    (2 ^ 48 < n ∧ readBlock file n off e = .error .panic) ∨
      n ≤ 2 ^ 48 ∧ ((blockAt file off n = none ∧ readBlock file n off e = .error e) ∨
        ∃ bs, blockAt file off n = some bs ∧ readBlock file n off e = .ok bs) := by
  unfold readBlock make
  by_cases hn : n ≤ 2 ^ 48
  · refine Or.inr ⟨hn, ?_⟩
    rw [if_pos hn]
    dsimp only [bind, Except.bind]
    rw [readAt_int64 file n hoff]
    unfold blockAt
    by_cases hread : off + min n (2 ^ 30) < 2 ^ 63
    · rw [if_pos hread]
      dsimp only
      by_cases hblock : n = 0 ∨ off + n ≤ file.length
      · rw [if_pos ⟨by omega, hblock⟩, if_neg]
        · exact Or.inr ⟨_, rfl, rfl⟩
        · rw [List.length_take, List.length_drop]
          omega
      · rw [if_neg fun h => hblock h.2, if_pos]
        · exact Or.inl ⟨rfl, rfl⟩
        · rw [List.length_take, List.length_drop]
          omega
    · -- such a read would end behind the file
      rw [if_neg hread, if_neg (by omega)]
      exact Or.inl ⟨rfl, rfl⟩
  · refine Or.inl ⟨not_le.mp hn, ?_⟩
    rw [if_neg hn]
    rfl

/-! ### Opening -/

/-- The footer of a file. -/
def fileFooter (file : Bytes) : Footer := decodeFooter (file.drop (file.length - footerSize))

/-- The index block can be read and is a whole number of entries. -/
def IndexBlock (file : Bytes) (index : List IndexEntry) : Prop :=
  (fileFooter file).indexLen ≤ 2 ^ 48 ∧
    ∃ buf, blockAt file (fileFooter file).indexOffset (fileFooter file).indexLen = some buf ∧
      Framing.decode readIndexEntry buf = (index, none)

/-- Reading the filter block makes a buffer that is too long, or looks at the first byte of one
    that has none. -/
def FilterOverruns (file : Bytes) : Prop :=
  2 ^ 48 < (fileFooter file).filterLen ∨
    (fileFooter file).filterLen = 0 ∧ (fileFooter file).filterOffset < 2 ^ 63

/-- The filter block can be read and is a filter. -/
def FilterBlock (file : Bytes) (bf : LumaflyBloom) : Prop :=
  ∃ buf, blockAt file (fileFooter file).filterOffset (fileFooter file).filterLen = some buf ∧
    lumaflyDeserialize buf = some bf

/-- Opening the file makes a buffer for the index block that is too long, or overruns at the
    filter block. -/
def OpenOverruns (file : Bytes) : Prop :=
  footerSize ≤ file.length ∧
    (2 ^ 48 < (fileFooter file).indexLen ∨
      (∃ index, IndexBlock file index) ∧ FilterOverruns file)

/-- The file has an index block and a filter block. -/
structure Parsed (file : Bytes) (index : List IndexEntry) (bf : LumaflyBloom) : Prop where
  size : footerSize ≤ file.length
  index : IndexBlock file index
  filterLen_pos : 0 < (fileFooter file).filterLen
  filterLen_le : (fileFooter file).filterLen ≤ 2 ^ 48
  filter : FilterBlock file bf

/-- They are determined by the file. -/
theorem Parsed.unique {file : Bytes} {index index' : List IndexEntry} {bf bf' : LumaflyBloom}
    (h : Parsed file index bf) (h' : Parsed file index' bf') : index' = index ∧ bf' = bf := by
  obtain ⟨_, buf, hbuf, hdec⟩ := h.index
  obtain ⟨_, buf', hbuf', hdec'⟩ := h'.index
  obtain ⟨fbuf, hfbuf, hbf⟩ := h.filter
  obtain ⟨fbuf', hfbuf', hbf'⟩ := h'.filter
  cases hbuf.symm.trans hbuf'
  cases hfbuf.symm.trans hfbuf'
  exact ⟨congrArg Prod.fst (hdec'.symm.trans hdec), Option.some.inj (hbf'.symm.trans hbf)⟩

/-- The reader of such a file. -/
def openedReader (filename : List Char) (file : Bytes) (index : List IndexEntry)
    (bf : LumaflyBloom) : SSTableReader where
  file := some file
  filename := filename
  footer := fileFooter file
  index := index
  bloomFilter := some bf

theorem fileFooter_lt (file : Bytes) : (fileFooter file).indexOffset < 2 ^ 64 ∧
    (fileFooter file).filterOffset < 2 ^ 64 :=
  ⟨Bytes.ofBe_take_lt 8 _, Bytes.ofBe_take_lt 8 _⟩

/-- Reading the footer does not fail. -/
private theorem readBlock_footer {file : Bytes} (hsize : footerSize ≤ file.length)
    (hfile : file.length < 2 ^ 63) :
    readBlock file footerSize (file.length - footerSize) .readFooter =
      .ok (file.drop (file.length - footerSize)) := by
  have hblock : blockAt file (file.length - footerSize) footerSize =
      some (file.drop (file.length - footerSize)) := by
    unfold blockAt
    rw [if_pos ⟨by omega, by omega⟩, List.take_of_length_le (by rw [List.length_drop]; omega)]
  rcases readBlock_cases hfile (show file.length - footerSize < 2 ^ 64 by omega) footerSize
    .readFooter with ⟨hge, _⟩ | ⟨_, ⟨hnone, _⟩ | ⟨bs, hsome, hread⟩⟩
  · exact absurd hge (by decide)
  · rw [hblock] at hnone
    cases hnone
  · rw [hblock] at hsome
    rw [hread, Option.some.inj hsome]

theorem readIndexEntry_advances : Framing.Advances readIndexEntry where
  nil := rfl
  shrinks := by
    intro bs ie rest h
    unfold readIndexEntry at h
    split at h
    · cases h
    · rename_i kLen mid hlen
      split at h
      · cases h
      · rename_i keyBuf mid' hkey
        split at h
        · cases h
        · rename_i offset rest' hoff
          cases h
          obtain ⟨hfour, rfl⟩ := Bytes.readFull_eq_some hlen
          obtain ⟨_, rfl⟩ := Bytes.readFull_eq_some hkey
          obtain ⟨_, rfl⟩ := Bytes.readFull_eq_some hoff
          simp only [List.length_append]
          omega

/-- An index entry that is not whole is `ErrSSTableCorrupted`. -/
private theorem decode_index_error {buf : Bytes} {index : List IndexEntry} {e : SSTableError}
    (h : Framing.decode readIndexEntry buf = (index, some e)) : e = .corrupted := by
  obtain ⟨rest, _, ⟨hnone, _⟩ | ⟨e', he', hfail⟩⟩ := readIndexEntry_advances.exists_chain buf
  · rw [h] at hnone
    cases hnone
  · rw [h] at he'
    cases he'
    unfold readIndexEntry at hfail
    split at hfail
    · cases hfail
    · split at hfail
      · cases hfail
        rfl
      · split at hfail
        · cases hfail
          rfl
        · cases hfail

/-- The part of `OpenSSTable` that reads the index block. -/
def readIndex (file : Bytes) (footer : Footer) : Except SSTableError (List IndexEntry) := do
  let indexBuf ← readBlock file footer.indexLen footer.indexOffset .readIndex
  match Framing.decode readIndexEntry indexBuf with
  | (_, some e) => .error e
  | (index, none) => .ok index

/-- The part that reads the filter block. -/
def readFilter (file : Bytes) (footer : Footer) : Except SSTableError LumaflyBloom := do
  let filterBuf ← readBlock file footer.filterLen footer.filterOffset .readFilter
  if filterBuf.length = 0 then .error .panic
  else
    match lumaflyDeserialize filterBuf with
    | none => .error .deserializeFilter
    | some cFilter => .ok cFilter

theorem openSSTable_eq (filename : List Char) {file : Bytes} (hsize : footerSize ≤ file.length)
    (hfile : file.length < 2 ^ 63) :
    openSSTable filename file = (do
      let index ← readIndex file (fileFooter file)
      let bf ← readFilter file (fileFooter file)
      .ok (openedReader filename file index bf)) := by
  unfold openSSTable readIndex readFilter
  rw [if_neg (not_lt.mpr hsize), readBlock_footer hsize hfile]
  simp only [bind, Except.bind]
  rw [show decodeFooter (file.drop (file.length - footerSize)) = fileFooter file from rfl]
  cases readBlock file (fileFooter file).indexLen (fileFooter file).indexOffset .readIndex with
  | error e => rfl
  | ok indexBuf =>
    dsimp only
    obtain ⟨index, err⟩ := Framing.decode readIndexEntry indexBuf
    cases err with
    | some e => rfl
    | none =>
      dsimp only
      cases readBlock file (fileFooter file).filterLen (fileFooter file).filterOffset
        .readFilter with
      | error e => rfl
      | ok filterBuf =>
        dsimp only
        split
        · rfl
        · cases lumaflyDeserialize filterBuf <;> rfl

/-- **Reading the index block** panics, yields the index or fails. -/
theorem readIndex_cases {file : Bytes} (hfile : file.length < 2 ^ 63) :
    (2 ^ 48 < (fileFooter file).indexLen ∧ readIndex file (fileFooter file) = .error .panic) ∨
      (fileFooter file).indexLen ≤ 2 ^ 48 ∧
        ((∃ index, IndexBlock file index ∧ readIndex file (fileFooter file) = .ok index) ∨
          (¬ ∃ index, IndexBlock file index) ∧
            ∃ e, e ≠ .panic ∧ readIndex file (fileFooter file) = .error e) := by
  unfold readIndex
  simp only [bind, Except.bind]
  rcases readBlock_cases hfile (fileFooter_lt file).1 (fileFooter file).indexLen .readIndex with
    ⟨hlong, hread⟩ | ⟨hle, ⟨hnone, hread⟩ | ⟨buf, hsome, hread⟩⟩
  · rw [hread]
    exact Or.inl ⟨hlong, rfl⟩
  · rw [hread]
    refine Or.inr ⟨hle, Or.inr ⟨?_, .readIndex, by simp, rfl⟩⟩
    rintro ⟨index, _, buf, hsome, _⟩
    rw [hnone] at hsome
    cases hsome
  · rw [hread]
    refine Or.inr ⟨hle, ?_⟩
    dsimp only
    cases hdec : Framing.decode readIndexEntry buf with
    | mk index err =>
    cases err with
    | none => exact Or.inl ⟨index, ⟨hle, buf, hsome, hdec⟩, rfl⟩
    | some e =>
      cases decode_index_error hdec
      refine Or.inr ⟨?_, .corrupted, by simp, rfl⟩
      rintro ⟨index', _, buf', hsome', hdec'⟩
      rw [hsome] at hsome'
      cases hsome'
      rw [hdec] at hdec'
      cases hdec'

/-- **Reading the filter block** panics, yields the filter or fails. -/
theorem readFilter_cases {file : Bytes} (hfile : file.length < 2 ^ 63) :
    (FilterOverruns file ∧ readFilter file (fileFooter file) = .error .panic) ∨
      ¬ FilterOverruns file ∧
        ((∃ bf, 0 < (fileFooter file).filterLen ∧ FilterBlock file bf ∧
            readFilter file (fileFooter file) = .ok bf) ∨
          (¬ ∃ bf, FilterBlock file bf) ∧
            ∃ e, e ≠ .panic ∧ readFilter file (fileFooter file) = .error e) := by
  unfold readFilter
  simp only [bind, Except.bind]
  rcases readBlock_cases hfile (fileFooter_lt file).2 (fileFooter file).filterLen .readFilter with
    ⟨hlong, hread⟩ | ⟨hle, ⟨hnone, hread⟩ | ⟨buf, hsome, hread⟩⟩
  · rw [hread]
    exact Or.inl ⟨Or.inl hlong, rfl⟩
  · rw [hread]
    refine Or.inr ⟨?_, Or.inr ⟨?_, .readFilter, by simp, rfl⟩⟩
    · -- an empty block can be read unless its place is negative
      rintro (hlong | ⟨hzero, hoff⟩)
      · exact absurd hle (not_le.mpr hlong)
      · unfold blockAt at hnone
        rw [if_pos ⟨hoff, Or.inl hzero⟩] at hnone
        cases hnone
    · rintro ⟨bf, buf, hsome, _⟩
      rw [hnone] at hsome
      cases hsome
  · have hlen := length_blockAt hsome
    rw [hread]
    dsimp only
    by_cases hzero : buf.length = 0
    · rw [if_pos hzero]
      exact Or.inl ⟨Or.inr ⟨by omega, lt_of_blockAt hsome⟩, rfl⟩
    rw [if_neg hzero]
    refine Or.inr ⟨?_, ?_⟩
    · rintro (hlong | ⟨hempty, _⟩)
      · exact absurd hle (not_le.mpr hlong)
      · omega
    cases hfilter : lumaflyDeserialize buf with
    | some bf => exact Or.inl ⟨bf, by omega, ⟨buf, hsome, hfilter⟩, rfl⟩
    | none =>
      refine Or.inr ⟨?_, .deserializeFilter, by simp, rfl⟩
      rintro ⟨bf, buf', hsome', hbf⟩
      rw [hsome] at hsome'
      cases hsome'
      rw [hfilter] at hbf
      cases hbf

/-- **Opening a file.** -/
theorem openSSTable_cases (filename : List Char) {file : Bytes} (hfile : file.length < 2 ^ 63) :
    (OpenOverruns file ∧ openSSTable filename file = .error .panic) ∨
      ¬ OpenOverruns file ∧
        ((∃ index bf, Parsed file index bf ∧
            openSSTable filename file = .ok (openedReader filename file index bf)) ∨
          (¬ ∃ index bf, Parsed file index bf) ∧
            ∃ e, e ≠ .panic ∧ openSSTable filename file = .error e) := by
  by_cases hshort : file.length < footerSize
  · refine Or.inr ⟨fun h => absurd h.1 (not_le.mpr hshort), Or.inr ⟨?_, .corrupted, by simp, ?_⟩⟩
    · rintro ⟨index, bf, h⟩
      exact absurd h.size (not_le.mpr hshort)
    · exact if_pos hshort
  have hsize := not_lt.mp hshort
  rw [openSSTable_eq filename hsize hfile]
  rcases readIndex_cases hfile with
    ⟨hlong, hread⟩ | ⟨hle, ⟨index, hindex, hread⟩ | ⟨hno, e, he, hread⟩⟩
  · rw [hread]
    exact Or.inl ⟨⟨hsize, Or.inl hlong⟩, rfl⟩
  · have hover : OpenOverruns file ↔ FilterOverruns file := by
      refine ⟨?_, fun h => ⟨hsize, Or.inr ⟨⟨index, hindex⟩, h⟩⟩⟩
      rintro ⟨_, hlong | ⟨_, h⟩⟩
      · exact absurd hle (not_le.mpr hlong)
      · exact h
    rw [hread, hover]
    rcases readFilter_cases hfile with
      ⟨hfover, hfread⟩ | ⟨hfover, ⟨bf, hpos, hfilter, hfread⟩ | ⟨hno, e, he, hfread⟩⟩
    · rw [hfread]
      exact Or.inl ⟨hfover, rfl⟩
    · rw [hfread]
      have hfle := not_lt.mp fun hlong => hfover (Or.inl hlong)
      exact Or.inr ⟨hfover, Or.inl ⟨index, bf, ⟨hsize, hindex, hpos, hfle, hfilter⟩, rfl⟩⟩
    · rw [hfread]
      exact Or.inr ⟨hfover, Or.inr ⟨fun ⟨_, bf, h⟩ => hno ⟨bf, h.filter⟩, e, he, rfl⟩⟩
  · rw [hread]
    refine Or.inr ⟨?_, Or.inr ⟨fun ⟨index, _, h⟩ => hno ⟨index, h.index⟩, e, he, rfl⟩⟩
    rintro ⟨_, hlong | ⟨hindex, _⟩⟩
    · exact absurd hle (not_le.mpr hlong)
    · exact hno hindex

/-! ### Looking a key up -/

/-- A block as `Get` reads it: what lies behind the end of the file is zero. -/
def paddedAt (file : Bytes) (off n : ℕ) : Bytes :=
  (file.drop off).take n ++ List.replicate (n - ((file.drop off).take n).length) 0

/-- Looking up a key that the filter contains makes a buffer that is too long, or reads a block
    and comes to a record whose lengths wrap around behind records with smaller keys. -/
def GetOverruns (filename : List Char) (file : Bytes) (index : List IndexEntry) (bf : LumaflyBloom)
    (key : Bytes) : Prop :=
  let r := openedReader filename file index bf
  lumaflyContains bf key = some true ∧ index ≠ [] ∧
    ∃ start stop, r.startOffset (r.searchIndex key) = .ok start ∧
      r.endOffset (r.searchIndex key) = .ok stop ∧
      let n := uint64 (stop + (2 ^ 64 - start))
      (2 ^ 48 < n ∨ start + min n (2 ^ 30) < 2 ^ 63 ∧ ∃ items rest,
        Framing.Chain readRecord (paddedAt file start n) items rest ∧
          (∀ l ∈ items, l.key < key) ∧ OverflowingFrame rest)

section Get

variable {filename : List Char} {file : Bytes} {index : List IndexEntry} {bf : LumaflyBloom}

/-- The search stays within the index. -/
private theorem exists_offsets (r : SSTableReader) (key : Bytes) :
    ∃ start stop, r.startOffset (r.searchIndex key) = .ok start ∧
      r.endOffset (r.searchIndex key) = .ok stop := by
  have hle : r.searchIndex key ≤ r.index.length := Search.search_le _ _
  have hstart : ∃ start, r.startOffset (r.searchIndex key) = .ok start := by
    unfold SSTableReader.startOffset
    split
    · rw [List.getElem?_eq_getElem (by omega)]
      exact ⟨_, rfl⟩
    · exact ⟨0, rfl⟩
  have hstop : ∃ stop, r.endOffset (r.searchIndex key) = .ok stop := by
    unfold SSTableReader.endOffset
    split
    · rename_i hlt
      rw [List.getElem?_eq_getElem hlt]
      exact ⟨_, rfl⟩
    · exact ⟨_, rfl⟩
  obtain ⟨start, hstart⟩ := hstart
  obtain ⟨stop, hstop⟩ := hstop
  exact ⟨start, stop, hstart, hstop⟩

/-- **Reading a block for `Get`** panics, fails or yields it. -/
theorem readData_cases {start : ℕ} (hstart : start < 2 ^ 64) (stop : ℕ) :
    let r := openedReader filename file index bf
    let n := uint64 (stop + (2 ^ 64 - start))
    (2 ^ 48 < n ∧ r.readData start stop = .error .panic) ∨
      n ≤ 2 ^ 48 ∧
        ((2 ^ 63 ≤ start + min n (2 ^ 30) ∧ r.readData start stop = .error .readData) ∨
          start + min n (2 ^ 30) < 2 ^ 63 ∧
            r.readData start stop = .ok (paddedAt file start n)) := by
  intro r n
  have hmake : r.readData start stop = make n >>= fun scanLen =>
      (r.file.bind fun file => readAt file scanLen (int64 start)).elim (.error .readData)
        fun buf => .ok (buf ++ List.replicate (scanLen - buf.length) 0) := by
    unfold SSTableReader.readData
    cases make n with
    | error e => rfl
    | ok scanLen =>
      dsimp only [bind, Except.bind]
      cases r.file.bind fun file => readAt file scanLen (int64 start) <;> rfl
  rw [hmake]
  unfold make
  by_cases hn : n ≤ 2 ^ 48
  · refine Or.inr ⟨hn, ?_⟩
    rw [if_pos hn]
    show (_ ∧ (readAt file n (int64 start)).elim _ _ = _) ∨
      _ ∧ (readAt file n (int64 start)).elim _ _ = _
    rw [readAt_int64 file n hstart]
    by_cases hread : start + min n (2 ^ 30) < 2 ^ 63
    · rw [if_pos hread]
      exact Or.inr ⟨hread, rfl⟩
    · rw [if_neg hread]
      exact Or.inl ⟨not_lt.mp hread, rfl⟩
  · rw [if_neg hn]
    exact Or.inl ⟨not_le.mp hn, rfl⟩

/-- An offset in an index is a 64-bit word. -/
private theorem readIndexEntry_offset_lt {bs rest : Bytes} {ie : IndexEntry}
    (h : readIndexEntry bs = .item ie rest) : ie.offset < 2 ^ 64 := by
  unfold readIndexEntry at h
  split at h
  · cases h
  · split at h
    · cases h
    · split at h
      · cases h
      · rename_i offset _ hoff
        cases h
        obtain ⟨hlen, _⟩ := Bytes.readFull_eq_some hoff
        have hlt := Bytes.ofBe_take_lt 8 offset
        rwa [List.take_of_length_le (le_of_eq hlen)] at hlt

theorem IndexBlock.offset_lt (h : IndexBlock file index) : ∀ ie ∈ index, ie.offset < 2 ^ 64 := by
  obtain ⟨_, buf, _, hdec⟩ := h
  obtain ⟨rest, hchain, _⟩ := readIndexEntry_advances.exists_chain buf
  rw [hdec] at hchain
  exact hchain.forall_items readIndexEntry_offset_lt

/-- The block of a key starts at a 64-bit offset. -/
private theorem startOffset_lt {r : SSTableReader} (hoff : ∀ ie ∈ r.index, ie.offset < 2 ^ 64)
    {idx start : ℕ} (h : r.startOffset idx = .ok start) : start < 2 ^ 64 := by
  unfold SSTableReader.startOffset at h
  split at h
  · cases hget : r.index[idx - 1]? with
    | none => rw [hget] at h; cases h
    | some ie =>
      rw [hget] at h
      cases h
      exact hoff ie (List.mem_of_getElem? hget)
  · cases h
    decide

/-- **When `Get` panics.** -/
theorem get_panic_iff (hbf : bf.WellFormed) (hoff : ∀ ie ∈ index, ie.offset < 2 ^ 64)
    (key : Bytes) :
    (openedReader filename file index bf).get key = .error .panic ↔
      GetOverruns filename file index bf key := by
  let r := openedReader filename file index bf
  obtain ⟨contains, hcontains⟩ := LumaflyBloom.contains_isSome hbf key
  obtain ⟨start, stop, hstart, hstop⟩ := exists_offsets r key
  have hmay : r.mayContain key = .ok contains := SSTableReader.mayContain_eq rfl hcontains
  have hget : r.get key =
      if !contains then .ok ([], false, false)
      else if r.index.length = 0 then .ok ([], false, false)
      else r.readData start stop >>= fun buf => scan key buf := by
    unfold SSTableReader.get
    simp only [hmay, bind, Except.bind, hstart, hstop]
    rfl
  show r.get key = _ ↔ _
  rw [hget]
  cases contains with
  | false =>
    -- the filter ends the lookup
    constructor
    · intro h
      cases h
    · intro h
      have htrue := h.1
      rw [hcontains] at htrue
      cases htrue
  | true =>
    rw [if_neg (by decide)]
    by_cases hnil : r.index.length = 0
    · rw [if_pos hnil]
      constructor
      · intro h
        cases h
      · intro h
        exact absurd (List.length_eq_zero_iff.mp hnil) h.2.1
    rw [if_neg hnil]
    have hne : index ≠ [] := fun h => hnil (List.length_eq_zero_iff.mpr h)
    -- the two offsets are those that are found
    have hover : GetOverruns filename file index bf key ↔
        2 ^ 48 < uint64 (stop + (2 ^ 64 - start)) ∨
          start + min (uint64 (stop + (2 ^ 64 - start))) (2 ^ 30) < 2 ^ 63 ∧
            scan key (paddedAt file start (uint64 (stop + (2 ^ 64 - start)))) = .error .panic := by
      rw [scan_panic_iff]
      constructor
      · rintro ⟨_, _, start', stop', hstart', hstop', h⟩
        cases hstart.symm.trans hstart'
        cases hstop.symm.trans hstop'
        exact h
      · intro h
        exact ⟨hcontains, hne, start, stop, hstart, hstop, h⟩
    rw [hover]
    rcases readData_cases (startOffset_lt hoff hstart) stop with
      ⟨hlong, hread⟩ | ⟨hle, ⟨hge, hread⟩ | ⟨hlt, hread⟩⟩
    · -- the buffer is too long
      rw [show r.readData start stop = _ from hread]
      exact ⟨fun _ => Or.inl hlong, fun _ => rfl⟩
    · -- `ReadAt` refuses the offset
      rw [show r.readData start stop = _ from hread]
      constructor
      · intro h
        cases h
      · rintro (h | ⟨h, _⟩)
        · exact absurd hle (not_le.mpr h)
        · exact absurd hge (not_le.mpr h)
    · -- the block is scanned
      rw [show r.readData start stop = _ from hread]
      refine ⟨fun h => Or.inr ⟨hlt, h⟩, ?_⟩
      rintro (h | ⟨_, h⟩)
      · exact absurd hle (not_le.mpr h)
      · exact h

end Get

/-- **Opening and reading any file.**  If the filter block of a file is no filter or a well-formed
    one, then `OpenSSTable` and every `Get` on the reader return a result or an error, without a
    panic, if and only if opening does not overrun and no lookup does. -/
theorem open_get_safe_iff (filename : List Char) (file : Bytes) (hfile : file.length < 2 ^ 63)
    (hbf : ∀ index bf, Parsed file index bf → bf.WellFormed) :
    (openSSTable filename file ≠ .error .panic ∧
        ∀ r, openSSTable filename file = .ok r → ∀ key, r.get key ≠ .error .panic) ↔
      ¬ OpenOverruns file ∧
        ∀ index bf, Parsed file index bf → ∀ key, ¬ GetOverruns filename file index bf key := by
  rcases openSSTable_cases filename hfile with
    ⟨hover, hopen⟩ | ⟨hover, ⟨index, bf, hparsed, hopen⟩ | ⟨hnone, e, he, hopen⟩⟩
  · exact ⟨fun h => absurd hopen h.1, fun h => absurd hover h.1⟩
  · have hget : ∀ key, (openedReader filename file index bf).get key = .error .panic ↔
        GetOverruns filename file index bf key :=
      get_panic_iff (hbf index bf hparsed) hparsed.index.offset_lt
    rw [hopen]
    constructor
    · rintro ⟨_, hsafe⟩
      refine ⟨hover, fun index' bf' hparsed' key hkey => ?_⟩
      obtain ⟨rfl, rfl⟩ := hparsed.unique hparsed'
      exact hsafe _ rfl key ((hget key).mpr hkey)
    · rintro ⟨_, hsafe⟩
      refine ⟨by simp, fun r hr key hpanic => ?_⟩
      cases hr
      exact hsafe index bf hparsed key ((hget key).mp hpanic)
  · rw [hopen]
    constructor
    · intro _
      exact ⟨hover, fun index bf h => absurd ⟨index, bf, h⟩ hnone⟩
    · intro _
      refine ⟨by simpa using he, fun r hr => ?_⟩
      cases hr

/-- A filter of eight bits and no hash, which contains every key. -/
def openFilter : Bytes := [8, 0, 0, 0, 0, 0, 0, 0, 0, 0, 0, 0, 0, 0, 0, 0, 0]

/-- A file with one record. -/
def recordTable : Bytes :=
  (⟨[1], [2], false⟩ : Entry).record ++ encodeIndexEntry ⟨[1], 0⟩ ++ openFilter ++
    encodeFooter ⟨15, 13, 28, 17⟩

private theorem recordTable_footer : fileFooter recordTable = ⟨15, 13, 28, 17⟩ := by
  decide +kernel

/-- The blocks of that file are an index of one entry and the filter. -/
private theorem recordTable_parsed {index : List IndexEntry} {bf : LumaflyBloom}
    (h : Parsed recordTable index bf) : index = [⟨[1], 0⟩] ∧ bf = ⟨8, 0, [0]⟩ := by
  have hblock : blockAt recordTable 15 13 = some (encodeIndexEntry ⟨[1], 0⟩) := by decide +kernel
  have hdec : Framing.decode readIndexEntry (encodeIndexEntry ⟨[1], 0⟩) = ([⟨[1], 0⟩], none) := by
    decide +kernel
  have hfblock : blockAt recordTable 28 17 = some openFilter := by decide +kernel
  have hfilter : lumaflyDeserialize openFilter = some ⟨8, 0, [0]⟩ := by decide +kernel
  obtain ⟨_, buf, hbuf, hindex⟩ := h.index
  obtain ⟨fbuf, hfbuf, hbf⟩ := h.filter
  rw [recordTable_footer] at hbuf hfbuf
  cases hblock.symm.trans hbuf
  cases hfblock.symm.trans hfbuf
  exact ⟨(congrArg Prod.fst (hdec.symm.trans hindex)).symm,
    (Option.some.inj (hfilter.symm.trans hbf)).symm⟩

/-- The block of a key is empty for the keys below the record, and the record for the others. -/
private theorem recordTable_offsets {key : Bytes} {start stop : ℕ}
    (hstart : (openedReader ['t'] recordTable [⟨[1], 0⟩] ⟨8, 0, [0]⟩).startOffset
      ((openedReader ['t'] recordTable [⟨[1], 0⟩] ⟨8, 0, [0]⟩).searchIndex key) = .ok start)
    (hstop : (openedReader ['t'] recordTable [⟨[1], 0⟩] ⟨8, 0, [0]⟩).endOffset
      ((openedReader ['t'] recordTable [⟨[1], 0⟩] ⟨8, 0, [0]⟩).searchIndex key) = .ok stop) :
    start = 0 ∧ (stop = 0 ∨ stop = 15) := by
  have hle : (openedReader ['t'] recordTable [⟨[1], 0⟩] ⟨8, 0, [0]⟩).searchIndex key ≤ 1 :=
    Search.search_le _ _
  have hoffset : (fileFooter recordTable).indexOffset = 15 := by rw [recordTable_footer]
  generalize SSTableReader.searchIndex _ key = idx at hle hstart hstop
  rcases Nat.le_one_iff_eq_zero_or_eq_one.mp hle with rfl | rfl
  · cases hstart
    cases hstop
    exact ⟨rfl, Or.inl rfl⟩
  · cases hstart
    cases hstop
    exact ⟨rfl, Or.inr hoffset⟩

/-- Reading a file with one record is safe, and the record is found. -/
theorem record_table_safe : openSSTable ['t'] recordTable ≠ .error .panic ∧
    (∀ r, openSSTable ['t'] recordTable = .ok r → ∀ key, r.get key ≠ .error .panic) ∧
    ∃ r, openSSTable ['t'] recordTable = .ok r ∧ r.get [1] = .ok ([2], false, true) := by
  have hfile : recordTable.length < 2 ^ 63 := by decide +kernel
  have hsafe := (open_get_safe_iff ['t'] recordTable hfile ?_).mpr ⟨?_, ?_⟩
  · exact ⟨hsafe.1, hsafe.2, openedReader ['t'] recordTable [⟨[1], 0⟩] ⟨8, 0, [0]⟩,
      by decide +kernel, by decide +kernel⟩
  · -- the filter is well formed
    intro index bf h
    obtain ⟨_, rfl⟩ := recordTable_parsed h
    exact ⟨by decide, by decide, by decide, by decide⟩
  · -- both blocks are short, and the filter block is not empty
    unfold OpenOverruns FilterOverruns
    rw [recordTable_footer]
    rintro ⟨_, h | ⟨_, h | ⟨h, _⟩⟩⟩
    · exact absurd h (by decide)
    · exact absurd h (by decide)
    · exact absurd h (by decide)
  · -- both blocks that a lookup may read are whole records
    rintro index bf h key ⟨_, _, start, stop, hstart, hstop, hover⟩
    obtain ⟨rfl, rfl⟩ := recordTable_parsed h
    obtain ⟨rfl, hstop⟩ := recordTable_offsets hstart hstop
    have hdec : (Framing.decode readRecord
        (paddedAt recordTable 0 (uint64 (stop + (2 ^ 64 - 0))))).2 = none := by
      rcases hstop with rfl | rfl <;> decide +kernel
    rcases hover with hlong | ⟨_, items, rest, hchain, _, hrest⟩
    · rcases hstop with rfl | rfl <;> exact absurd hlong (by decide)
    · rw [hchain.decode readRecord_advances, readRecord_advances.decode_fail hrest.read] at hdec
      cases hdec

/-- A file whose index has one entry, at an offset behind the data. -/
def backwardTable : Bytes :=
  encodeIndexEntry ⟨[], 1⟩ ++ openFilter ++ encodeFooter ⟨0, 12, 12, 17⟩

/-- Opening 32 zero bytes panics, and so does looking up the empty key in a file whose index
    entry is behind the data. -/
theorem open_get_panics : openSSTable ['t'] (List.replicate 32 0) = .error .panic ∧
    ∃ r bf, openSSTable ['t'] backwardTable = .ok r ∧ r.bloomFilter = some bf ∧ bf.WellFormed ∧
      r.get [] = .error .panic := by
  refine ⟨by decide +kernel, openedReader ['t'] backwardTable [⟨[], 1⟩] ⟨8, 0, [0]⟩, ⟨8, 0, [0]⟩,
    by decide +kernel, rfl, ⟨by decide, by decide, by decide, by decide⟩, by decide +kernel⟩

end Hallownest.Storage
