import Hallownest.Storage.TableFile
import Hallownest.Storage.Writes

namespace Hallownest.Storage

/-!
# Storage — looking keys up in a table

`Get` on the reader of a table file answers what the record list holds (`Opened.get`).  The
filter lets every stored key pass, the index leads to a block outside of which the key cannot
be (`startsAt_searchIndex`, `endsAt_searchIndex`), and the scan finds the record in the block
(`scanBlock_dataBlock`).

With the refinement of the MemTable this gives the round trip: a table answers as the MemTable
it was built from (`sstable_round_trip`).
-/

variable {l : List Entry} {S : ℕ} {bf : LumaflyBloom} {filename : List Char} {key : Bytes}

/-! ### Scanning a block -/

/-- **The scan** of sorted records finds the record of the key. -/
theorem scanBlock_dataBlock (key : Bytes) : ∀ (l : List Entry) (fuel : ℕ),
    Assoc.Sorted Entry.key l → (∀ e ∈ l, e.Fits) → (dataBlock l).length ≤ fuel →
    scanBlock key fuel (dataBlock l) = .ok (answer (Assoc.lookup Entry.key key l)) := by
  intro l
  induction l with
  | nil =>
    intro fuel _ _ _
    cases fuel <;> rfl
  | cons e l ih =>
    intro fuel hl hfit hfuel
    obtain ⟨hlt, htail⟩ := List.pairwise_cons.mp hl
    have hcons : dataBlock (e :: l) = e.record ++ dataBlock l := rfl
    have hpos := e.length_record
    have hheader : headerSize = 13 := rfl
    rw [hcons, List.length_append] at hfuel
    rw [hcons]
    obtain ⟨fuel, rfl⟩ : ∃ f, fuel = f + 1 := ⟨fuel - 1, by omega⟩
    rw [scanBlock, readRecord_record (hfit e (by simp)), Assoc.lookup_cons]
    show (if e.key = key then _ else _) = _
    by_cases heq : e.key = key
    · rw [if_pos heq, if_pos heq]
      rfl
    · -- the scan stops early at a key that is above
      rw [if_neg heq, if_neg heq]
      show (if key < e.key then _ else _) = _
      by_cases hgt : key < e.key
      · -- the records behind are above the key as well
        rw [if_pos hgt, Assoc.lookup_of_gt fun d hd => lt_trans hgt (hlt d hd)]
        rfl
      · rw [if_neg hgt]
        exact ih fuel htail (fun d hd => hfit d (by simp [hd])) (by omega)

/-! ### Finding the block -/

/-- Position `p` is not behind the key: everything before it is below the key. -/
def StartsAt (l : List Entry) (key : Bytes) (p : ℕ) : Prop := ∀ e ∈ l.take p, e.key < key

/-- Everything from position `q` on is above the key. -/
def EndsAt (l : List Entry) (key : Bytes) (q : ℕ) : Prop := ∀ e ∈ l.drop q, key < e.key

/-- In a sorted list, what is before a position is below the key there. -/
private theorem key_lt_of_mem_take (hl : Assoc.Sorted Entry.key l) {p : ℕ} {e d : Entry}
    (hp : l[p]? = some e) (hd : d ∈ l.take p) : d.key < e.key := by
  obtain ⟨i, hi, hlt⟩ := List.mem_take_iff_getElem.mp hd
  obtain ⟨hplt, rfl⟩ := List.getElem?_eq_some_iff.mp hp
  rw [← hlt]
  exact List.pairwise_iff_getElem.mp hl i p (by omega) hplt (by omega)

/-- In a sorted list, what is from a position on is not below the key there. -/
private theorem key_le_of_mem_drop (hl : Assoc.Sorted Entry.key l) {p : ℕ} {e d : Entry}
    (hp : l[p]? = some e) (hd : d ∈ l.drop p) : e.key ≤ d.key := by
  obtain ⟨hplt, rfl⟩ := List.getElem?_eq_some_iff.mp hp
  obtain ⟨i, hi, hlt⟩ := List.mem_drop_iff_getElem.mp hd
  rw [← hlt]
  rcases Nat.eq_zero_or_pos i with rfl | hpos
  · exact le_refl _
  · exact le_of_lt (List.pairwise_iff_getElem.mp hl p (p + i) hplt (by omega) (by omega))

/-- What the search in the index finds. -/
theorem searchIndex_spec {r : SSTableReader} (hsorted : r.index.Pairwise fun a b => a.key < b.key)
    (key : Bytes) : r.searchIndex key ≤ r.index.length ∧
      (∀ i ie, r.index[i]? = some ie → i < r.searchIndex key → ie.key ≤ key) ∧
      ∀ i ie, r.index[i]? = some ie → r.searchIndex key ≤ i → key < ie.key := by
  have hmono : Search.Monotone r.index.length
      fun i => (r.index[i]?).any fun ie => decide (key < ie.key) := by
    intro a b hab hb ha
    have hga := List.getElem?_eq_getElem (show a < r.index.length by omega)
    have hgb := List.getElem?_eq_getElem hb
    simp only [hga, hgb, Option.any_some, decide_eq_true_eq] at ha ⊢
    rcases Nat.eq_or_lt_of_le hab with rfl | hlt
    · exact ha
    · exact lt_trans ha (List.pairwise_iff_getElem.mp hsorted a b (by omega) hb hlt)
  obtain ⟨hbelow, habove⟩ := Search.search_spec hmono
  refine ⟨Search.search_le _ _, ?_, ?_⟩
  · intro i ie hi hlt
    have := hbelow i hlt
    simp only [hi, Option.any_some, decide_eq_false_iff_not, not_lt] at this
    exact this
  · intro i ie hi hle
    have := habove i hle (List.getElem?_eq_some_iff.mp hi).1
    simpa [hi] using this

/-- The block before index position `k` starts with the record that position `k - 1` is for. -/
theorem startOffset_eq (hS : 0 < S) {k : ℕ} (hk : k ≤ (indexOf S l).length) :
    (readerOf filename l (indexOf S l) bf).startOffset k = .ok (offsetAt l ((k - 1) * S)) := by
  unfold SSTableReader.startOffset
  by_cases hpos : k > 0
  · obtain ⟨e, _, hentry⟩ := exists_indexed hS (show k - 1 < (indexOf S l).length by omega)
    rw [if_pos hpos]
    show orPanic (((indexOf S l)[k - 1]?).map IndexEntry.offset) = _
    rw [hentry]
    rfl
  · obtain rfl : k = 0 := by omega
    rw [if_neg hpos, Nat.zero_sub, Nat.zero_mul]
    rfl

/-- The records do not reach further than the index. -/
theorem length_le_of_indexOf (hS : 0 < S) {k : ℕ} (hk : (indexOf S l).length ≤ k) :
    l.length ≤ k * S := by
  have hget := getElem?_indexOf hS l k
  rw [List.getElem?_eq_none hk] at hget
  exact List.getElem?_eq_none_iff.mp (Option.map_eq_none_iff.mp hget.symm)

/-- It ends before the record that position `k` is for. -/
theorem endOffset_eq (hS : 0 < S) (k : ℕ) :
    (readerOf filename l (indexOf S l) bf).endOffset k = .ok (offsetAt l (k * S)) := by
  unfold SSTableReader.endOffset
  by_cases hlt : k < (indexOf S l).length
  · obtain ⟨e, _, hentry⟩ := exists_indexed hS hlt
    refine (if_pos hlt).trans ?_
    show orPanic (((indexOf S l)[k]?).map IndexEntry.offset) = _
    rw [hentry]
    rfl
  · -- the last block ends with the data
    refine (if_neg hlt).trans ?_
    rw [offsetAt, List.take_of_length_le (length_le_of_indexOf hS (not_lt.mp hlt))]
    rfl

/-- Index positions before the block are for records that are not above the key. -/
private theorem key_le_of_lt_searchIndex (hS : 0 < S) (hl : Assoc.Sorted Entry.key l) {i : ℕ}
    (hi : i < (readerOf filename l (indexOf S l) bf).searchIndex key) {d : Entry}
    (hd : l[i * S]? = some d) : d.key ≤ key := by
  obtain ⟨_, hbelow, _⟩ := searchIndex_spec (r := readerOf filename l (indexOf S l) bf)
    (sorted_indexOf hl) key
  refine hbelow i ⟨d.key, offsetAt l (i * S)⟩ ?_ hi
  show (indexOf S l)[i]? = _
  rw [getElem?_indexOf hS, hd]
  rfl

/-- **The key is not before its block.** -/
theorem startsAt_searchIndex (filename : List Char) (bf : LumaflyBloom) (hS : 0 < S)
    (hl : Assoc.Sorted Entry.key l) (key : Bytes) :
    StartsAt l key (((readerOf filename l (indexOf S l) bf).searchIndex key - 1) * S) := by
  let r := readerOf filename l (indexOf S l) bf
  obtain ⟨hle, _, _⟩ := searchIndex_spec (r := r) (sorted_indexOf hl) key
  intro d hd
  by_cases hpos : r.searchIndex key > 0
  · -- the block of the last index entry that is not above the key
    obtain ⟨e, he, _⟩ := exists_indexed hS
      (show r.searchIndex key - 1 < (indexOf S l).length from by
        have : r.index.length = (indexOf S l).length := rfl
        omega)
    exact lt_of_lt_of_le (key_lt_of_mem_take hl he hd)
      (key_le_of_lt_searchIndex hS hl (Nat.sub_lt hpos Nat.one_pos) he)
  · have hzero : r.searchIndex key - 1 = 0 := by omega
    rw [hzero, Nat.zero_mul] at hd
    cases hd

/-- **It is not behind it.** -/
theorem endsAt_searchIndex (filename : List Char) (bf : LumaflyBloom) (hS : 0 < S)
    (hl : Assoc.Sorted Entry.key l) (key : Bytes) :
    EndsAt l key ((readerOf filename l (indexOf S l) bf).searchIndex key * S) := by
  let r := readerOf filename l (indexOf S l) bf
  obtain ⟨_, _, habove⟩ := searchIndex_spec (r := r) (sorted_indexOf hl) key
  intro d hd
  by_cases hlt : r.searchIndex key < (indexOf S l).length
  · -- the first index entry above the key
    obtain ⟨e, he, hentry⟩ := exists_indexed hS hlt
    exact lt_of_lt_of_le (habove _ _ hentry (le_refl _)) (key_le_of_mem_drop hl he hd)
  · rw [List.drop_of_length_le (length_le_of_indexOf hS (not_lt.mp hlt))] at hd
    cases hd

/-- A list cut into what is before a block, the block, and what is behind it. -/
theorem cut_eq {p q : ℕ} (hpq : p ≤ q) : l.take p ++ (l.take q).drop p ++ l.drop q = l := by
  have hpre : l.take p = (l.take q).take p := by rw [List.take_take, min_eq_left hpq]
  rw [hpre, List.take_append_drop, List.take_append_drop]

/-- The key is in the block if it is anywhere. -/
private theorem lookup_block {p q : ℕ} (hpq : p ≤ q) (hp : StartsAt l key p)
    (hq : EndsAt l key q) :
    Assoc.lookup Entry.key key l = Assoc.lookup Entry.key key ((l.take q).drop p) := by
  conv => lhs; rw [← cut_eq (l := l) hpq]
  rw [Assoc.lookup_append_of_gt hq, Assoc.lookup_append hp]

/-! ### Lookup -/

/-- The part of the data between the records at positions `p` and `q`. -/
def cutBlock (l : List Entry) (data : Bytes) (p q : ℕ) : Bytes :=
  (data.drop (offsetAt l p)).take (offsetAt l q - offsetAt l p)

theorem offsetAt_mono (l : List Entry) {p q : ℕ} (hpq : p ≤ q) : offsetAt l p ≤ offsetAt l q := by
  have hle := offsetAt_le (l.take q) p
  unfold offsetAt at hle ⊢
  rwa [List.take_take, min_eq_left hpq] at hle

/-- In the intact file it is the records between them. -/
theorem cutBlock_dataBlock (l : List Entry) {p q : ℕ} (hpq : p ≤ q) :
    cutBlock l (dataBlock l) p q = dataBlock ((l.take q).drop p) := by
  have hdata : dataBlock (l.take p) ++ dataBlock ((l.take q).drop p) ++ dataBlock (l.drop q) =
      dataBlock l := by
    rw [← dataBlock_append, ← dataBlock_append, cut_eq hpq]
  have hq : offsetAt l q = offsetAt l p + (dataBlock ((l.take q).drop p)).length := by
    have hsplit : l.take q = l.take p ++ (l.take q).drop p := by
      conv => lhs; rw [← List.take_append_drop p (l.take q)]
      rw [List.take_take, min_eq_left hpq]
    unfold offsetAt
    conv => lhs; rw [hsplit]
    rw [dataBlock_append, List.length_append]
  unfold cutBlock
  rw [← hdata, List.append_assoc, List.drop_left' (show _ = offsetAt l p from rfl),
    hq, Nat.add_sub_cancel_left, List.take_left' rfl]

/-- **Reading a block** of the data. -/
theorem readData_eq {data : Bytes} (hdata : data.length = (dataBlock l).length)
    {ix : List IndexEntry} {p q : ℕ} (hpq : p ≤ q)
    (hsize : (tableBytes l ix bf).length ≤ 2 ^ 48) :
    (readerWith filename data l ix bf).readData (offsetAt l p) (offsetAt l q) =
      .ok (cutBlock l data p q) := by
  have hlen := length_tableBytes l ix bf
  have hmono := offsetAt_mono l hpq
  have hle := offsetAt_le l q
  have hcut : (cutBlock l data p q).length = offsetAt l q - offsetAt l p := by
    rw [cutBlock, List.length_take, List.length_drop]
    omega
  -- the difference of the offsets does not wrap around
  have hscan : uint64 (offsetAt l q + (2 ^ 64 - offsetAt l p)) = (cutBlock l data p q).length := by
    unfold uint64
    omega
  have hread : readAt (tableWith data l ix bf) (cutBlock l data p q).length
      (int64 (offsetAt l p)) = some (cutBlock l data p q) := by
    rw [readAt_int64 _ _ (by omega), if_pos (by omega), tableWith, hcut]
    simp only [List.append_assoc]
    rw [List.drop_append_of_le_length (by omega),
      List.take_append_of_le_length (by rw [List.length_drop]; omega)]
    rfl
  unfold SSTableReader.readData make
  rw [hscan, if_pos (by omega)]
  dsimp only [bind, Except.bind]
  rw [show (readerWith filename data l ix bf).file.bind (fun file =>
    readAt file (cutBlock l data p q).length (int64 (offsetAt l p))) = _ from hread]
  simp
  rfl

section Reader

variable {data : Bytes}

/-- A key that the filter does not contain is not looked for. -/
theorem get_of_not_contains {ix : List IndexEntry} (h : lumaflyContains bf key = some false) :
    (readerWith filename data l ix bf).get key = .ok ([], false, false) := by
  have hfilter : (readerWith filename data l ix bf).mayContain key = .ok false :=
    SSTableReader.mayContain_eq rfl h
  unfold SSTableReader.get
  rw [hfilter]
  rfl

/-- **`Get` scans the block of the key**, for a key that the filter contains. -/
theorem get_eq_scanBlock (hS : 0 < S) (hl : Assoc.Sorted Entry.key l) (hnil : l ≠ [])
    (hdata : data.length = (dataBlock l).length)
    (hsize : (tableBytes l (indexOf S l) bf).length ≤ 2 ^ 48)
    (hcontains : lumaflyContains bf key = some true) :
    let k := (readerOf filename l (indexOf S l) bf).searchIndex key
    (readerWith filename data l (indexOf S l) bf).get key =
      scanBlock key (cutBlock l data ((k - 1) * S) (k * S)).length
        (cutBlock l data ((k - 1) * S) (k * S)) := by
  intro k
  let r := readerWith filename data l (indexOf S l) bf
  have hfilter : r.mayContain key = .ok true := SSTableReader.mayContain_eq rfl hcontains
  have hindex : ¬ r.index.length = 0 := by
    intro hzero
    exact indexOf_ne_nil hnil (List.length_eq_zero_iff.mp hzero)
  obtain ⟨hk, _, _⟩ := searchIndex_spec (r := r) (sorted_indexOf hl) key
  -- the offsets are read off the index alone
  have hstart : (readerOf filename l (indexOf S l) bf).startOffset k =
      .ok (offsetAt l ((k - 1) * S)) := startOffset_eq hS hk
  have hend : (readerOf filename l (indexOf S l) bf).endOffset k = .ok (offsetAt l (k * S)) :=
    endOffset_eq hS k
  have hstart' : r.startOffset (r.searchIndex key) = .ok (offsetAt l ((k - 1) * S)) := hstart
  have hend' : r.endOffset (r.searchIndex key) = .ok (offsetAt l (k * S)) := hend
  have hread : r.readData (offsetAt l ((k - 1) * S)) (offsetAt l (k * S)) =
      .ok (cutBlock l data ((k - 1) * S) (k * S)) :=
    readData_eq hdata (Nat.mul_le_mul_right S (Nat.sub_le k 1)) hsize
  show r.get key = _
  unfold SSTableReader.get
  simp only [hfilter, bind, Except.bind, hstart', hend', hread]
  rw [if_neg (by decide), if_neg hindex]

end Reader

/-- The reader `r` has opened the intact file of a table with the records `l`, indexed with
    interval `S`. -/
def Opened (S : ℕ) (l : List Entry) (r : SSTableReader) : Prop :=
  ∃ filename bf, r = readerOf filename l (indexOf S l) bf ∧ bf.WellFormed ∧
    bf.Covers (l.map Entry.key) ∧ (tableBytes l (indexOf S l) bf).length ≤ 2 ^ 48

/-- **A table answers what its record list holds.** -/
theorem Opened.get {r : SSTableReader} (h : Opened S l r) (hS : 0 < S)
    (hl : Assoc.Sorted Entry.key l) (hfit : ∀ e ∈ l, e.Fits) (key : Bytes) :
    r.get key = .ok (answer (Assoc.lookup Entry.key key l)) := by
  obtain ⟨filename, bf, rfl, hbf, hcov, hsize⟩ := h
  obtain ⟨contains, hcontains⟩ := LumaflyBloom.contains_isSome hbf key
  show (readerWith filename (dataBlock l) l (indexOf S l) bf).get key = _
  cases contains with
  | false =>
    -- a key that the filter does not contain was not added to it
    have hnone : Assoc.lookup Entry.key key l = none := by
      rw [Assoc.lookup_eq_none]
      rintro e he rfl
      have := LumaflyBloom.contains_of_covers hbf hcov (List.mem_map_of_mem he)
      rw [hcontains] at this
      cases this
    rw [get_of_not_contains hcontains, hnone]
    rfl
  | true =>
    by_cases hnil : l = []
    · subst hnil
      have hfilter : (readerWith filename (dataBlock []) [] (indexOf S []) bf).mayContain key =
          .ok true := SSTableReader.mayContain_eq rfl hcontains
      unfold SSTableReader.get
      rw [hfilter]
      rfl
    · have hpq : ∀ k : ℕ, (k - 1) * S ≤ k * S := fun k => Nat.mul_le_mul_right S (Nat.sub_le k 1)
      rw [get_eq_scanBlock hS hl hnil rfl hsize hcontains, cutBlock_dataBlock l (hpq _),
        lookup_block (hpq _) (startsAt_searchIndex filename bf hS hl key)
          (endsAt_searchIndex filename bf hS hl key)]
      refine scanBlock_dataBlock key _ _ ?_ ?_ (le_refl _)
      · exact (hl.sublist (List.take_sublist _ _)).sublist (List.drop_sublist _ _)
      · exact fun e he => hfit e (List.mem_of_mem_take (List.mem_of_mem_drop he))

/-- **Building a table** for a MemTable with the records `l`. -/
theorem buildSSTable_spec (create : ℕ → Float → Option LumaflyBloom) {m : MemTable}
    (expectedEntries : Int) {opts : SSTableOptions} (filename : List Char) (hm : Models m l)
    (hw : ∀ e ∈ l, e.Writable)
    (hcreate : create (expectedEntries % 2 ^ 64).toNat opts.normalize.fpRate = some bf)
    (hbf : bf.Zeroed)
    (hsize : (tableBytes l (indexOf (interval opts) l) bf).length ≤ 2 ^ 48) :
    ∃ file r, buildSSTable create allOk filename m expectedEntries opts = .ok (file, r) ∧
      Opened (interval opts) l r ∧ r.filename = filename ∧ r.file = some file ∧
      ∀ filename', ∃ r', openSSTable filename' file = .ok r' ∧ Opened (interval opts) l r' := by
  obtain ⟨bf', hwrite, hwf, hcov, hlen⟩ := writeTable_eq hm hw hcreate hbf (by omega)
  rw [← length_tableBytes_congr _ hlen] at hsize
  have hdata := length_tableBytes l (indexOf (interval opts) l) bf'
  have hopen : ∀ filename', openSSTable filename' (tableBytes l (indexOf (interval opts) l) bf') =
      .ok (readerOf filename' l (indexOf (interval opts) l) bf') := fun filename' =>
    openSSTable_tableBytes filename' (fits_indexOf hw (by omega)) hwf hsize
  have hopened : ∀ filename', Opened (interval opts) l
      (readerOf filename' l (indexOf (interval opts) l) bf') :=
    fun filename' => ⟨filename', bf', rfl, hwf, hcov, hsize⟩
  refine ⟨_, _, ?_, hopened filename, rfl, rfl, fun filename' => ⟨_, hopen filename', hopened _⟩⟩
  unfold buildSSTable
  rw [hwrite]
  show (openSSTable filename _).bind _ = _
  rw [hopen filename]
  rfl

/-- **SSTable round trip.**  Take any writes on a fresh MemTable whose records fit, any options
    and any expected number of entries, and a filter as `lumafly_create` returns it.  Building
    the table succeeds if the file has at most `2 ^ 48` bytes, and its reader, like any
    reader that opens the file later, answers for every key as the MemTable does. -/
theorem sstable_round_trip (memOpts : MemTableOptions) (ops : List (Op × ℕ))
    (hlevels : ∀ p ∈ ops, 1 ≤ p.2 ∧ (p.2 : Int) ≤ (newMemTable memOpts).opts.maxLevel)
    (hfit : ∀ e ∈ contents (ops.map Prod.fst), e.Fits)
    (create : ℕ → Float → Option LumaflyBloom) (filename : List Char) (expectedEntries : Int)
    (opts : SSTableOptions) (bf : LumaflyBloom)
    (hcreate : create (expectedEntries % 2 ^ 64).toNat opts.normalize.fpRate = some bf)
    (hbf : bf.Zeroed)
    (hsize : (tableBytes (contents (ops.map Prod.fst))
      (indexOf (interval opts) (contents (ops.map Prod.fst))) bf).length ≤ 2 ^ 48) :
    ∃ m file r, (newMemTable memOpts).run ops = some m ∧
      buildSSTable create allOk filename m expectedEntries opts = .ok (file, r) ∧
      (∀ key, ∃ res, m.get key = some res ∧ r.get key = .ok res) ∧
      ∀ filename', ∃ r', openSSTable filename' file = .ok r' ∧
        ∀ key, ∃ res, m.get key = some res ∧ r'.get key = .ok res := by
  obtain ⟨m, hrun, hm⟩ := models_run memOpts ops hlevels
  obtain ⟨file, r, hbuild, hr, _, _, hopen⟩ :=
    buildSSTable_spec create _ filename hm (fun e he => (hfit e he).writable) hcreate hbf hsize
  have hgets := fun key => hr.get (interval_pos opts) hm.sorted hfit key
  refine ⟨m, file, r, hrun, hbuild, fun key => ⟨_, hm.get key, hgets key⟩, ?_⟩
  intro filename'
  obtain ⟨r', hr', hopened⟩ := hopen filename'
  exact ⟨r', hr', fun key => ⟨_, hm.get key, hopened.get (interval_pos opts) hm.sorted hfit key⟩⟩

/-- The smallest filter that `lumafly_create` makes. -/
def smallFilter : LumaflyBloom := ⟨64, 1, List.replicate 8 0⟩

theorem smallFilter_zeroed : smallFilter.Zeroed where
  numBits_ge := by decide
  numBits_lt := by decide
  numHashes_ge := by decide
  numHashes_lt := by decide
  bitArray_eq := rfl

/-- Three keys, one of them empty and one deleted, with every second key in the index. -/
theorem sstable_round_trip_three : ∃ m file r,
    (newMemTable ⟨2, 0⟩).run [(.put [7] [1], 2), (.delete [5], 1), (.put [] [3], 2)] = some m ∧
    buildSSTable (fun _ _ => some smallFilter) allOk ['t'] m 1 ⟨2, 0.01⟩ = .ok (file, r) ∧
    ∀ key, ∃ res, m.get key = some res ∧ r.get key = .ok res := by
  obtain ⟨m, file, r, hrun, hbuild, hget, _⟩ := sstable_round_trip ⟨2, 0⟩
    [(.put [7] [1], 2), (.delete [5], 1), (.put [] [3], 2)] (by decide) (by decide)
    (fun _ _ => some smallFilter) ['t'] 1 ⟨2, 0.01⟩ smallFilter rfl smallFilter_zeroed
    (by rw [length_tableBytes]; decide +kernel)
  exact ⟨m, file, r, hrun, hbuild, hget⟩

end Hallownest.Storage
