import Hallownest.Storage.FiniteMap
import Hallownest.Storage.SSTable

namespace Hallownest.Storage

/-!
# Storage — what a table file contains

For the record list of a MemTable: the index that is written with it (`indexOf`), the file as a
whole (`tableBytes`), that the code writes this file (`writeTable_eq`), and that opening it
gives back the index, the filter and the footer, even if something else stands in the place of
the data (`openSSTable_tableWith`).
-/

variable {l : List Entry} {S : ℕ} {bf : LumaflyBloom}

/-- The data block. -/
def dataBlock (l : List Entry) : Bytes := Framing.frames Entry.record l

@[simp] theorem dataBlock_append (l l' : List Entry) :
    dataBlock (l ++ l') = dataBlock l ++ dataBlock l' := Framing.frames_append l l'

/-- Where the record at position `p` starts. -/
def offsetAt (l : List Entry) (p : ℕ) : ℕ := (dataBlock (l.take p)).length

theorem offsetAt_le (l : List Entry) (p : ℕ) : offsetAt l p ≤ (dataBlock l).length := by
  conv => rhs; rw [← List.take_append_drop p l]
  rw [dataBlock_append, List.length_append]
  exact Nat.le_add_right _ _

theorem offsetAt_append (l' : List Entry) {p : ℕ} (hp : p ≤ l.length) :
    offsetAt (l ++ l') p = offsetAt l p := by
  unfold offsetAt
  rw [List.take_append_of_le_length hp]

/-- The sparse index with interval `S`. -/
def indexOf (S : ℕ) (l : List Entry) : List IndexEntry :=
  (l.zipIdx.filter fun p => p.2 % S = 0).map fun p => ⟨p.1.key, offsetAt l p.2⟩

/-- One more record: it is indexed if its position is a multiple of the interval. -/
theorem indexOf_append (S : ℕ) (l : List Entry) (e : Entry) :
    indexOf S (l ++ [e]) =
      indexOf S l ++ if l.length % S = 0 then [⟨e.key, (dataBlock l).length⟩] else [] := by
  -- the records before the new one stay where they are
  have hold : ∀ p ∈ l.zipIdx, offsetAt (l ++ [e]) p.2 = offsetAt l p.2 := by
    rintro ⟨d, i⟩ hp
    have hi : i < l.length := by
      have := (List.mk_mem_zipIdx_iff_getElem?.mp hp)
      exact (List.getElem?_eq_some_iff.mp this).1
    exact offsetAt_append [e] (by omega)
  have hnew : offsetAt (l ++ [e]) l.length = (dataBlock l).length := by
    rw [offsetAt_append [e] (le_refl _), offsetAt, List.take_length]
  unfold indexOf
  rw [List.zipIdx_append, List.filter_append, List.map_append]
  congr 1
  · apply List.map_congr_left
    intro p hp
    rw [hold p (List.mem_of_mem_filter hp)]
  · by_cases hS : l.length % S = 0
    · simp [hS, hnew]
    · simp [hS]

/-- What an index entry says. -/
theorem mem_indexOf {ie : IndexEntry} (h : ie ∈ indexOf S l) :
    ∃ p e, l[p]? = some e ∧ p % S = 0 ∧ ie.key = e.key ∧ ie.offset = offsetAt l p := by
  obtain ⟨⟨e, p⟩, hp, rfl⟩ := List.mem_map.mp h
  obtain ⟨hmem, hS⟩ := List.mem_filter.mp hp
  exact ⟨p, e, List.mk_mem_zipIdx_iff_getElem?.mp hmem, by simpa using hS, rfl, rfl⟩

/-- **The entries of the index** are the records at the multiples of the interval. -/
theorem getElem?_indexOf (hS : 0 < S) (l : List Entry) (i : ℕ) :
    (indexOf S l)[i]? = (l[i * S]?).map fun e => ⟨e.key, offsetAt l (i * S)⟩ := by
  induction l using List.reverseRecOn generalizing i with
  | nil => rfl
  | append_singleton l e ih =>
    have hsome : ∀ {j : ℕ}, j * S < l.length ↔ j < (indexOf S l).length := by
      intro j
      have hj := ih j
      constructor
      · intro hlt
        rw [List.getElem?_eq_getElem hlt] at hj
        exact (List.getElem?_eq_some_iff.mp hj).1
      · intro hlt
        by_contra hge
        rw [List.getElem?_eq_none (not_lt.mp hge), List.getElem?_eq_getElem hlt] at hj
        cases hj
    rw [indexOf_append]
    by_cases hi : i * S < l.length
    · rw [List.getElem?_append_left (hsome.mp hi), ih, List.getElem?_append_left hi,
        offsetAt_append [e] (le_of_lt hi)]
    · have hge : (indexOf S l).length ≤ i := not_lt.mp (mt hsome.mpr hi)
      rw [List.getElem?_append_right hge]
      by_cases heq : i * S = l.length
      · -- the new record is at a multiple of the interval
        have hlen : (indexOf S l).length = i := by
          refine le_antisymm hge (not_lt.mp fun hlt => ?_)
          have hmul : (indexOf S l).length * S < i * S := Nat.mul_lt_mul_of_pos_right hlt hS
          rw [heq] at hmul
          exact lt_irrefl _ (hsome.mp hmul)
        rw [if_pos (by rw [← heq, Nat.mul_mod_left]), hlen, Nat.sub_self, heq,
          offsetAt_append [e] (le_refl _), offsetAt, List.take_length]
        simp
      · -- neither the index nor the list reaches so far
        have hnone : (l ++ [e])[i * S]? = none := by
          rw [List.getElem?_eq_none]
          rw [List.length_append, List.length_singleton]
          omega
        rw [hnone, Option.map_none, List.getElem?_eq_none]
        split
        · rename_i hmul
          obtain ⟨c, hc⟩ := Nat.dvd_of_mod_eq_zero hmul
          have hlen : (indexOf S l).length ≤ c :=
            not_lt.mp (mt hsome.mpr (by rw [hc, Nat.mul_comm]; exact lt_irrefl _))
          have hci : c * S < i * S := by rw [Nat.mul_comm c S, ← hc]; omega
          have hlt := Nat.lt_of_mul_lt_mul_right hci
          rw [List.length_singleton]
          omega
        · simp

/-- The record that an index position is for. -/
theorem exists_indexed (hS : 0 < S) {i : ℕ} (hi : i < (indexOf S l).length) :
    ∃ e, l[i * S]? = some e ∧ (indexOf S l)[i]? = some ⟨e.key, offsetAt l (i * S)⟩ := by
  have hget := getElem?_indexOf hS l i
  obtain ⟨e, he, hentry⟩ :=
    Option.map_eq_some_iff.mp (hget.symm.trans (List.getElem?_eq_getElem hi))
  exact ⟨e, he, by rw [hget, he]; rfl⟩

/-- The index is in key order. -/
theorem sorted_indexOf (hl : Assoc.Sorted Entry.key l) :
    (indexOf S l).Pairwise fun a b => a.key < b.key := by
  have hzip : l.zipIdx.Pairwise fun a b => a.1.key < b.1.key := by
    have hmap : (l.zipIdx.map Prod.fst).Pairwise fun a b => a.key < b.key := by
      rw [List.zipIdx_map_fst]
      exact hl
    have hpair := List.pairwise_map.mp hmap
    exact hpair
  exact List.pairwise_map.mpr (hzip.sublist List.filter_sublist)

/-- The first record is indexed. -/
theorem indexOf_ne_nil (hl : l ≠ []) : indexOf S l ≠ [] := by
  obtain ⟨e, rest, rfl⟩ := List.exists_cons_of_ne_nil hl
  unfold indexOf
  rw [List.zipIdx_cons, List.filter_cons_of_pos (by simp)]
  simp

/-- The footer of a table. -/
def footerOf (l : List Entry) (ix : List IndexEntry) (bf : LumaflyBloom) : Footer where
  indexOffset := (dataBlock l).length
  indexLen := (Framing.frames encodeIndexEntry ix).length
  filterOffset := (dataBlock l).length + (Framing.frames encodeIndexEntry ix).length
  filterLen := bf.bytes.length

/-- The table file. -/
def tableBytes (l : List Entry) (ix : List IndexEntry) (bf : LumaflyBloom) : Bytes :=
  dataBlock l ++ Framing.frames encodeIndexEntry ix ++ bf.bytes ++ encodeFooter (footerOf l ix bf)

theorem length_encodeFooter (f : Footer) : (encodeFooter f).length = footerSize := by
  simp [encodeFooter, footerSize]

theorem length_tableBytes (l : List Entry) (ix : List IndexEntry) (bf : LumaflyBloom) :
    (tableBytes l ix bf).length = (dataBlock l).length +
      (Framing.frames encodeIndexEntry ix).length + bf.bytes.length + footerSize := by
  simp only [tableBytes, List.length_append, length_encodeFooter]

/-! ### Writing -/

theorem uint64_of_lt {n : ℕ} (h : n < 2 ^ 64) : uint64 n = n := Nat.mod_eq_of_lt h

/-- The state of the loop after the records `l`, when it started with the filter `bf`. -/
structure Built (S : ℕ) (bf : LumaflyBloom) (l : List Entry) (b : Builder) : Prop where
  filter : b.filter.WellFormed
  covers : b.filter.Covers (l.map Entry.key)
  size : b.filter.bitArray.length = bf.bitArray.length
  index : b.index = indexOf S l
  data : b.data = dataBlock l
  offset : b.currentOffset = (dataBlock l).length
  count : b.keyCount = l.length

/-- Before the first round nothing is written. -/
def emptyBuilder (bf : LumaflyBloom) : Builder where
  filter := bf
  index := []
  data := []
  currentOffset := 0
  keyCount := 0

theorem built_empty (S : ℕ) (hbf : bf.Zeroed) : Built S bf [] (emptyBuilder bf) where
  filter := hbf.wellFormed
  covers := by simp [LumaflyBloom.Covers]
  size := rfl
  index := rfl
  data := rfl
  offset := rfl
  count := rfl

/-- All file operations succeed. -/
def allOk : FileOp → Bool := fun _ => true

/-- **One round of the loop** writes one record. -/
theorem writeNode_spec {b : Builder} (hb : Built S bf l b) {node : Node} (hw : node.entry.Writable)
    (hsize : (dataBlock (l ++ [node.entry])).length < 2 ^ 64) :
    ∃ b', writeNode S allOk b node = .ok b' ∧ Built S bf (l ++ [node.entry]) b' := by
  obtain ⟨bf', hadd, hwf, hcov, hlen⟩ :=
    LumaflyBloom.lumaflyAdd_spec hb.filter hb.covers node.key
  have hfill : fillRecord (headerSize + node.key.length + node.value.length) node.key node.value
      node.tombstone = some node.entry.record := fillRecord_eq hw
  have hdata : dataBlock (l ++ [node.entry]) = dataBlock l ++ node.entry.record := by
    simp [dataBlock]
  refine ⟨_, by rw [writeNode, hadd, hfill]; rfl, ?_⟩
  exact {
    filter := hwf
    covers := by rw [List.map_append]; exact hcov
    size := hlen.trans hb.size
    index := by
      rw [indexOf_append, ← hb.count, ← hb.offset, ← hb.index]
      show (if b.keyCount % S = 0 then _ else _) = _
      split
      · rfl
      · rw [List.append_nil]
    data := by rw [hdata, ← hb.data]
    -- the offset is a 64-bit word, which the file does not overflow
    offset := by
      show uint64 (b.currentOffset + node.entry.record.length) = _
      rw [hdata, List.length_append] at hsize ⊢
      rw [hb.offset, uint64_of_lt hsize]
    count := by
      show b.keyCount + 1 = _
      rw [hb.count, List.length_append]
      rfl }

/-- **The loop** writes all records. -/
theorem foldlM_writeNode {b : Builder} (hb : Built S bf [] b) {nodes : List Node}
    (hfit : ∀ n ∈ nodes, n.entry.Writable)
    (hsize : (dataBlock (nodes.map Node.entry)).length < 2 ^ 64) :
    ∃ b', nodes.foldlM (writeNode S allOk) b = .ok b' ∧ Built S bf (nodes.map Node.entry) b' := by
  refine Run.exists_foldlM (m := Except SSTableError)
    (I := fun done b' => Built S bf (done.map Node.entry) b') hb ?_
  intro done n rest b₁ hnodes hb₁
  have hstep : (dataBlock (done.map Node.entry ++ [n.entry])).length < 2 ^ 64 := by
    rw [hnodes, List.map_append, List.map_cons, List.append_cons, dataBlock_append,
      List.length_append] at hsize
    omega
  obtain ⟨b', hrun, hb'⟩ := writeNode_spec hb₁ (hfit n (by rw [hnodes]; simp)) hstep
  exact ⟨b', hrun, by rw [List.map_append]; exact hb'⟩

/-- The blocks behind the data complete the table file. -/
theorem writeBlocks_eq {b : Builder} (hb : Built S bf l b)
    (hsize : (tableBytes l (indexOf S l) b.filter).length < 2 ^ 64) :
    writeBlocks allOk b = .ok (tableBytes l (indexOf S l) b.filter) := by
  rw [length_tableBytes] at hsize
  unfold writeBlocks
  rw [LumaflyBloom.lumaflySerialize_eq, hb.index, hb.offset, hb.data]
  show Except.ok _ = Except.ok _
  rw [uint64_of_lt (show (Framing.frames encodeIndexEntry (indexOf S l)).length < _ by omega),
    uint64_of_lt (show b.filter.bytes.length < _ by omega), uint64_of_lt (by omega)]
  rfl

/-- The interval `BuildSSTable` uses. -/
def interval (opts : SSTableOptions) : ℕ := opts.normalize.sparseInterval.toNat

theorem interval_pos (opts : SSTableOptions) : 0 < interval opts := by
  unfold interval SSTableOptions.normalize
  dsimp only
  split
  · decide
  · omega

/-- Filters of the same size make files of the same size. -/
theorem length_tableBytes_congr {bf' : LumaflyBloom} (ix : List IndexEntry)
    (h : bf'.bitArray.length = bf.bitArray.length) :
    (tableBytes l ix bf').length = (tableBytes l ix bf).length := by
  rw [length_tableBytes, length_tableBytes, bf.length_bytes, bf'.length_bytes]
  unfold lumaflyGetSerializedSize
  rw [h]

/-- **What is written** for a table with the records `l`: the table file, with a filter that
    covers their keys. -/
theorem writeTable_eq {create : ℕ → Float → Option LumaflyBloom} {m : MemTable}
    {expectedEntries : Int} {opts : SSTableOptions} (hm : Models m l) (hw : ∀ e ∈ l, e.Writable)
    (hcreate : create (expectedEntries % 2 ^ 64).toNat opts.normalize.fpRate = some bf)
    (hbf : bf.Zeroed) (hsize : (tableBytes l (indexOf (interval opts) l) bf).length < 2 ^ 64) :
    ∃ bf', writeTable create allOk m expectedEntries opts =
        .ok (tableBytes l (indexOf (interval opts) l) bf') ∧
      bf'.WellFormed ∧ bf'.Covers (l.map Entry.key) ∧
      bf'.bitArray.length = bf.bitArray.length := by
  obtain ⟨nodes, hdrain, hnodes⟩ := hm.drain
  obtain ⟨b, hrun, hb⟩ := foldlM_writeNode (built_empty (interval opts) hbf)
    (fun n hn => hw _ (hnodes ▸ List.mem_map_of_mem hn))
    (by rw [length_tableBytes] at hsize; rw [hnodes]; omega)
  rw [hnodes] at hb
  refine ⟨b.filter, ?_, hb.filter, hb.covers, hb.size⟩
  rw [← length_tableBytes_congr _ hb.size] at hsize
  unfold writeTable
  dsimp only
  rw [hcreate, hdrain]
  show (nodes.foldlM (writeNode (interval opts) allOk) (emptyBuilder bf)).bind _ = _
  rw [hrun]
  exact writeBlocks_eq hb hsize

/-! ### Opening -/

/-- An index entry that can be written without loss. -/
def IndexEntry.Fits (ie : IndexEntry) : Prop := ie.key.length < 2 ^ 32 ∧ ie.offset < 2 ^ 64

/-- The index of records that can be written can be written without loss. -/
theorem fits_indexOf (hw : ∀ e ∈ l, e.Writable) (hsize : (dataBlock l).length < 2 ^ 64) :
    ∀ ie ∈ indexOf S l, ie.Fits := by
  intro ie hie
  obtain ⟨p, e, hp, _, hkey, hoff⟩ := mem_indexOf hie
  obtain ⟨he, _⟩ := hw e (List.mem_of_getElem? hp)
  have hle := offsetAt_le l p
  refine ⟨?_, ?_⟩
  · rw [hkey]; omega
  · rw [hoff]; omega

/-- **The index format.** -/
theorem index_format : Framing.Format readIndexEntry encodeIndexEntry id IndexEntry.Fits where
  nonempty := by
    intro ie _ hnil
    have := congrArg List.length hnil
    simp [encodeIndexEntry] at this
  whole := by
    intro ie h rest
    obtain ⟨hkey, hoff⟩ := h
    have hlen : Bytes.ofBe (Bytes.be 4 ie.key.length) = ie.key.length := by
      rw [Bytes.ofBe_be, Nat.mod_eq_of_lt (by omega)]
    have hoffset : Bytes.ofBe (Bytes.be 8 ie.offset) = ie.offset := by
      rw [Bytes.ofBe_be, Nat.mod_eq_of_lt (by omega)]
    unfold readIndexEntry encodeIndexEntry
    rw [List.append_assoc, List.append_assoc, Bytes.readFull_append (Bytes.length_be _ _)]
    simp only [hlen]
    rw [Bytes.readFull_append rfl]
    simp only
    rw [Bytes.readFull_append (Bytes.length_be _ _)]
    simp only [hoffset, id]

theorem decodeFooter_encodeFooter {f : Footer} (h1 : f.indexOffset < 2 ^ 64)
    (h2 : f.indexLen < 2 ^ 64) (h3 : f.filterOffset < 2 ^ 64) (h4 : f.filterLen < 2 ^ 64) :
    decodeFooter (encodeFooter f) = f := by
  have hread : ∀ {n : ℕ}, n < 2 ^ 64 → Bytes.ofBe (Bytes.be 8 n) = n := by
    intro n hn
    rw [Bytes.ofBe_be, Nat.mod_eq_of_lt (by omega)]
  have hd2 : (encodeFooter f).drop 16 = Bytes.be 8 f.filterOffset ++ Bytes.be 8 f.filterLen := by
    rw [encodeFooter, List.append_assoc]
    exact List.drop_left' (by simp)
  have hd3 : (encodeFooter f).drop 24 = Bytes.be 8 f.filterLen := List.drop_left' (by simp)
  have hd1 : (encodeFooter f).drop 8 = Bytes.be 8 f.indexLen ++
      (Bytes.be 8 f.filterOffset ++ Bytes.be 8 f.filterLen) := by
    rw [encodeFooter, List.append_assoc, List.append_assoc]
    exact List.drop_left' (by simp)
  have hd0 : (encodeFooter f).take 8 = Bytes.be 8 f.indexOffset := by
    rw [encodeFooter, List.append_assoc, List.append_assoc]
    exact List.take_left' (by simp)
  unfold decodeFooter
  rw [hd0, hd1, hd2, hd3, List.take_left' (Bytes.length_be _ _),
    List.take_left' (Bytes.length_be _ _), List.take_of_length_le (by simp), hread h1, hread h2,
    hread h3, hread h4]

/-- Reading a part of a file that is there. -/
theorem readBlock_append (pre mid post : Bytes) (n off : ℕ) (hoff : off = pre.length)
    (hn : n = mid.length) (hsize : (pre ++ mid ++ post).length ≤ 2 ^ 48) (e : SSTableError) :
    readBlock (pre ++ mid ++ post) n off e = .ok mid := by
  subst hoff hn
  simp only [List.length_append] at hsize
  have hread : readAt (pre ++ mid ++ post) mid.length (int64 pre.length) = some mid := by
    rw [readAt_int64 _ _ (by omega), if_pos (by omega), List.append_assoc, List.drop_left' rfl,
      List.take_left' rfl]
  unfold readBlock make
  rw [if_pos (by omega)]
  dsimp only [bind, Except.bind]
  rw [hread]
  dsimp only
  rw [if_neg (lt_irrefl _)]
  rfl

/-- The reader of a table file. -/
def readerOf (filename : List Char) (l : List Entry) (ix : List IndexEntry) (bf : LumaflyBloom) :
    SSTableReader where
  file := some (tableBytes l ix bf)
  filename := filename
  footer := footerOf l ix bf
  index := ix
  bloomFilter := some bf

/-- The table file with other bytes in the place of the data. -/
def tableWith (data : Bytes) (l : List Entry) (ix : List IndexEntry) (bf : LumaflyBloom) : Bytes :=
  data ++ Framing.frames encodeIndexEntry ix ++ bf.bytes ++ encodeFooter (footerOf l ix bf)

/-- The reader of such a file. -/
def readerWith (filename : List Char) (data : Bytes) (l : List Entry) (ix : List IndexEntry)
    (bf : LumaflyBloom) : SSTableReader :=
  { readerOf filename l ix bf with file := some (tableWith data l ix bf) }

private theorem length_tableWith {data : Bytes} (hdata : data.length = (dataBlock l).length)
    (ix : List IndexEntry) :
    (tableWith data l ix bf).length = (tableBytes l ix bf).length := by
  simp only [tableWith, tableBytes, List.length_append, hdata]

/-- **Opening a table file**, whatever stands in the place of the data. -/
theorem openSSTable_tableWith (filename : List Char) {data : Bytes}
    (hdata : data.length = (dataBlock l).length) {ix : List IndexEntry}
    (hix : ∀ ie ∈ ix, ie.Fits) (hbf : bf.WellFormed)
    (hsize : (tableBytes l ix bf).length ≤ 2 ^ 48) :
    openSSTable filename (tableWith data l ix bf) = .ok (readerWith filename data l ix bf) := by
  have hlen := length_tableBytes l ix bf
  rw [← length_tableWith hdata] at hlen hsize
  have hfilter : 16 ≤ bf.bytes.length := by
    rw [bf.length_bytes, lumaflyGetSerializedSize]; omega
  -- the three blocks that are read
  have hfooter : readBlock (tableWith data l ix bf) footerSize
      ((tableWith data l ix bf).length - footerSize) .readFooter =
      .ok (encodeFooter (footerOf l ix bf)) := by
    have := readBlock_append (data ++ Framing.frames encodeIndexEntry ix ++ bf.bytes)
      (encodeFooter (footerOf l ix bf)) [] footerSize
      ((tableWith data l ix bf).length - footerSize)
      (by rw [hlen]; simp only [List.length_append]; omega) (length_encodeFooter _).symm
      (by rw [List.append_nil]; exact hsize) .readFooter
    rwa [List.append_nil] at this
  have hindex : readBlock (tableWith data l ix bf) (footerOf l ix bf).indexLen
      (footerOf l ix bf).indexOffset .readIndex = .ok (Framing.frames encodeIndexEntry ix) := by
    have := readBlock_append data (Framing.frames encodeIndexEntry ix)
      (bf.bytes ++ encodeFooter (footerOf l ix bf)) (footerOf l ix bf).indexLen
      (footerOf l ix bf).indexOffset hdata.symm rfl
      (by rw [← List.append_assoc]; exact hsize) .readIndex
    rwa [← List.append_assoc] at this
  have hblock : readBlock (tableWith data l ix bf) (footerOf l ix bf).filterLen
      (footerOf l ix bf).filterOffset .readFilter = .ok bf.bytes :=
    readBlock_append (data ++ Framing.frames encodeIndexEntry ix) bf.bytes
      (encodeFooter (footerOf l ix bf)) _ _ (by rw [List.length_append, hdata]; rfl) rfl hsize
      .readFilter
  -- what they say
  have hdecode : decodeFooter (encodeFooter (footerOf l ix bf)) = footerOf l ix bf := by
    apply decodeFooter_encodeFooter <;> (unfold footerOf; dsimp only; omega)
  have hentries : Framing.decode readIndexEntry (Framing.frames encodeIndexEntry ix) =
      (ix, none) := by
    have := Framing.decode_frames index_format hix (t := []) rfl
    rwa [List.append_nil, List.map_id] at this
  unfold openSSTable
  rw [if_neg (by omega), hfooter]
  simp only [bind, Except.bind, hdecode, hindex, hentries, hblock,
    LumaflyBloom.lumaflyDeserialize_bytes hbf]
  rw [if_neg (by omega)]
  rfl

/-- **Opening a table file.** -/
theorem openSSTable_tableBytes (filename : List Char) {ix : List IndexEntry}
    (hix : ∀ ie ∈ ix, ie.Fits) (hbf : bf.WellFormed)
    (hsize : (tableBytes l ix bf).length ≤ 2 ^ 48) :
    openSSTable filename (tableBytes l ix bf) = .ok (readerOf filename l ix bf) :=
  openSSTable_tableWith filename rfl hix hbf hsize

end Hallownest.Storage
