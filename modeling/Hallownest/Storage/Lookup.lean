import Hallownest.Storage.Scan
import Hallownest.Storage.TableGet

namespace Hallownest.Storage

/-!
# Storage — what a lookup reads

`Get` asks the filter, searches the sparse index and scans one block.  A plain lookup would scan
the data from the first record on.  Both give the same answer (`Opened.get_eq_scan`), and what
`Get` reads of the data is the block of the key alone: other blocks may hold anything
(`get_congr`).
-/

variable {l : List Entry} {S : ℕ} {bf : LumaflyBloom} {filename filename' : List Char}
  {key : Bytes}

/-- **The lookup agrees with the scan of all records.** -/
theorem Opened.get_eq_scan {r : SSTableReader} (h : Opened S l r) (hS : 0 < S)
    (hl : Assoc.Sorted Entry.key l) (hfit : ∀ e ∈ l, e.Fits) (key : Bytes) :
    r.get key = scan key (dataBlock l) := by
  rw [h.get hS hl hfit, scan, scanBlock_dataBlock key l _ hl hfit (le_refl _)]

/-! ### Other data in the file -/

/-- Two byte strings that agree between two places have the same bytes there. -/
theorem cut_congr {bs cs : Bytes} {start stop : ℕ}
    (h : ∀ i, start ≤ i → i < stop → cs[i]? = bs[i]?) :
    (cs.drop start).take (stop - start) = (bs.drop start).take (stop - start) := by
  apply List.ext_getElem?
  intro i
  simp only [List.getElem?_take, List.getElem?_drop]
  split
  · exact h _ (by omega) (by omega)
  · rfl

/-- A file of the same length that agrees with a table file behind the data is that file with
    other data. -/
private theorem eq_tableWith {ix : List IndexEntry} {file' : Bytes}
    (hlen : file'.length = (tableBytes l ix bf).length)
    (h : ∀ i, (dataBlock l).length ≤ i → file'[i]? = (tableBytes l ix bf)[i]?) :
    (file'.take (dataBlock l).length).length = (dataBlock l).length ∧
      file' = tableWith (file'.take (dataBlock l).length) l ix bf := by
  have htable := length_tableBytes l ix bf
  refine ⟨by rw [List.length_take]; omega, ?_⟩
  have hdrop : file'.drop (dataBlock l).length =
      (tableBytes l ix bf).drop (dataBlock l).length := by
    apply List.ext_getElem?
    intro i
    simp only [List.getElem?_drop]
    exact h _ (by omega)
  have hblocks : (tableBytes l ix bf).drop (dataBlock l).length =
      Framing.frames encodeIndexEntry ix ++ bf.bytes ++ encodeFooter (footerOf l ix bf) := by
    simp [tableBytes]
  calc file' = file'.take (dataBlock l).length ++ file'.drop (dataBlock l).length :=
        (List.take_append_drop _ _).symm
    _ = tableWith (file'.take (dataBlock l).length) l ix bf := by
        rw [hdrop, hblocks, tableWith]
        simp only [List.append_assoc]

/-- **A lookup reads its own block.**  Two files that agree in the block of a key give the same
    answer for it. -/
theorem get_congr (hS : 0 < S) (hl : Assoc.Sorted Entry.key l) (hbf : bf.WellFormed)
    (hsize : (tableBytes l (indexOf S l) bf).length ≤ 2 ^ 48) {data data' : Bytes}
    (hdata : data.length = (dataBlock l).length) (hdata' : data'.length = (dataBlock l).length)
    (hsame : let k := (readerOf filename l (indexOf S l) bf).searchIndex key
      cutBlock l data' ((k - 1) * S) (k * S) = cutBlock l data ((k - 1) * S) (k * S)) :
    (readerWith filename' data' l (indexOf S l) bf).get key =
      (readerWith filename data l (indexOf S l) bf).get key := by
  obtain ⟨contains, hcontains⟩ := LumaflyBloom.contains_isSome hbf key
  cases contains with
  | false => rw [get_of_not_contains hcontains, get_of_not_contains hcontains]
  | true =>
    by_cases hnil : l = []
    · -- there is no data
      subst hnil
      obtain rfl : data = [] := List.eq_nil_of_length_eq_zero hdata
      obtain rfl : data' = [] := List.eq_nil_of_length_eq_zero hdata'
      rfl
    · rw [get_eq_scanBlock hS hl hnil hdata' hsize hcontains,
        get_eq_scanBlock hS hl hnil hdata hsize hcontains]
      exact congrArg (fun block => scanBlock key block.length block) hsame

/-! ### The whole file -/

/-- The records of the block of a key are at most `S`. -/
private theorem length_block_le (l : List Entry) (S k : ℕ) :
    ((l.take (k * S)).drop ((k - 1) * S)).length ≤ S := by
  rw [List.length_drop, List.length_take]
  rcases k with _ | k
  · simp
  · rw [Nat.add_sub_cancel, Nat.succ_mul]
    omega

/-- What the lookup of `key` with the reader `r` of `file` depends on: a part of the data with the
    records of `block`, and what stands behind the data. -/
structure ReadsBlock (file : Bytes) (r : SSTableReader) (key : Bytes) (start stop : ℕ)
    (block : List Entry) : Prop where
  startsAt : r.startOffset (r.searchIndex key) = .ok start
  endsAt : r.endOffset (r.searchIndex key) = .ok stop
  records : (file.drop start).take (stop - start) = dataBlock block
  enough : ∀ (filename' : List Char) (file' : Bytes), file'.length = file.length →
    (∀ i, start ≤ i ∧ i < stop ∨ r.footer.indexOffset ≤ i → file'[i]? = file[i]?) →
    ∃ r', openSSTable filename' file' = .ok r' ∧ r'.get key = r.get key

/-- The data of a table file. -/
theorem take_tableBytes (l : List Entry) (ix : List IndexEntry) (bf : LumaflyBloom) :
    (tableBytes l ix bf).take (dataBlock l).length = dataBlock l := by
  simp [tableBytes, List.append_assoc]

/-- **The block of a key.** -/
theorem readsBlock (hS : 0 < S) (hl : Assoc.Sorted Entry.key l) (hfit : ∀ e ∈ l, e.Fits)
    (hbf : bf.WellFormed) (hsize : (tableBytes l (indexOf S l) bf).length ≤ 2 ^ 48) (key : Bytes) :
    ∃ start stop block, block.length ≤ S ∧ ReadsBlock (tableBytes l (indexOf S l) bf)
      (readerOf filename l (indexOf S l) bf) key start stop block := by
  let r := readerOf filename l (indexOf S l) bf
  let k := r.searchIndex key
  have hindexed : k ≤ r.index.length := (searchIndex_spec (r := r) (sorted_indexOf hl) key).1
  have hpq : (k - 1) * S ≤ k * S := Nat.mul_le_mul_right _ (Nat.sub_le k 1)
  have htable := length_tableBytes l (indexOf S l) bf
  have hstop := offsetAt_le l (k * S)
  -- below the end of the block the file and its data are the same
  have hdata : ∀ i < offsetAt l (k * S),
      (dataBlock l)[i]? = (tableBytes l (indexOf S l) bf)[i]? := by
    intro i hi
    rw [← take_tableBytes l (indexOf S l) bf, List.getElem?_take_of_lt (by omega)]
  refine ⟨offsetAt l ((k - 1) * S), offsetAt l (k * S), (l.take (k * S)).drop ((k - 1) * S),
    length_block_le l S k, startOffset_eq hS hindexed, endOffset_eq hS k, ?_, ?_⟩
  · rw [← cutBlock_dataBlock l hpq]
    exact cut_congr fun i _ hi => (hdata i hi).symm
  · intro filename' file' hlen' hsame
    obtain ⟨hdata', heq⟩ := eq_tableWith hlen' fun i hi => hsame i (Or.inr hi)
    refine ⟨readerWith filename' (file'.take (dataBlock l).length) l (indexOf S l) bf, ?_, ?_⟩
    · conv_lhs => rw [heq]
      exact openSSTable_tableWith filename' hdata'
        (fits_indexOf (fun e he => (hfit e he).writable) (by omega)) hbf hsize
    · refine get_congr hS hl hbf hsize rfl hdata'
        (cut_congr fun i hlo (hhi : i < offsetAt l (k * S)) => ?_)
      rw [List.getElem?_take_of_lt (by omega), hsame i (Or.inl ⟨hlo, hhi⟩), hdata i hhi]

/-- **A lookup agrees with a plain scan and reads one block.**  Take a table built from any writes
    on a fresh MemTable whose records fit.  For every key, `Get` answers what a scan of all
    records answers.  The index gives it a part of the file that holds at most as many records as
    the sparse interval says, and whatever else becomes of the data, a reader of a file with that
    part and the index, the filter and the footer still in place gives the same answer. -/
theorem lookup_reads_block (memOpts : MemTableOptions) (ops : List (Op × ℕ))
    (hlevels : ∀ p ∈ ops, 1 ≤ p.2 ∧ (p.2 : Int) ≤ (newMemTable memOpts).opts.maxLevel)
    (hfit : ∀ e ∈ contents (ops.map Prod.fst), e.Fits)
    (create : ℕ → Float → Option LumaflyBloom) (filename : List Char) (expectedEntries : Int)
    (opts : SSTableOptions) (bf : LumaflyBloom)
    (hcreate : create (expectedEntries % 2 ^ 64).toNat opts.normalize.fpRate = some bf)
    (hbf : bf.Zeroed)
    (hsize : (tableBytes (contents (ops.map Prod.fst))
      (indexOf (interval opts) (contents (ops.map Prod.fst))) bf).length ≤ 2 ^ 48) :
    ∃ m file r, (newMemTable memOpts).run ops = some m ∧
      buildSSTable create allOk filename m expectedEntries opts = .ok (file, r) ∧
      ∀ key, r.get key = scan key (file.take r.footer.indexOffset) ∧
        ∃ start stop block, block.length ≤ interval opts ∧
          ReadsBlock file r key start stop block := by
  obtain ⟨m, hrun, hm⟩ := models_run memOpts ops hlevels
  obtain ⟨file, r, hbuild, hopened, _, hfile, _⟩ :=
    buildSSTable_spec create _ filename hm (fun e he => (hfit e he).writable) hcreate hbf hsize
  have hscan := hopened.get_eq_scan (interval_pos opts) hm.sorted hfit
  obtain ⟨name, bf', rfl, hwf, _, hlen⟩ := hopened
  obtain rfl := Option.some.inj hfile
  refine ⟨m, _, _, hrun, hbuild, fun key => ⟨?_, ?_⟩⟩
  · exact (hscan key).trans (congrArg (scan key) (take_tableBytes _ _ bf').symm)
  · exact readsBlock (interval_pos opts) hm.sorted hfit hwf hlen key

/-- Three records, every second one in the index: the record of the second block may change without
    the lookup of a key of the first one being disturbed. -/
theorem lookup_reads_block_three : ∃ m file r,
    (newMemTable ⟨2, 0⟩).run [(.put [7] [1], 2), (.delete [5], 1), (.put [] [3], 2)] = some m ∧
    buildSSTable (fun _ _ => some smallFilter) allOk ['t'] m 1 ⟨2, 0.01⟩ = .ok (file, r) ∧
    r.footer.indexOffset = 43 ∧ ∀ b : UInt8, ∃ r',
      openSSTable ['t'] (file.set 28 b) = .ok r' ∧ r'.get [5] = r.get [5] := by
  obtain ⟨m, file, r, hrun, hbuild, hall⟩ := lookup_reads_block ⟨2, 0⟩
    [(.put [7] [1], 2), (.delete [5], 1), (.put [] [3], 2)] (by decide) (by decide)
    (fun _ _ => some smallFilter) ['t'] 1 ⟨2, 0.01⟩ smallFilter rfl smallFilter_zeroed
    (by rw [length_tableBytes]; decide +kernel)
  -- the block of the key ends before the byte that changes
  have heval : (((newMemTable ⟨2, 0⟩).run
      [(.put [7] [1], 2), (.delete [5], 1), (.put [] [3], 2)]).bind fun m =>
      (buildSSTable (fun _ _ => some smallFilter) allOk ['t'] m 1 ⟨2, 0.01⟩).toOption.map fun p =>
        ((p.2.endOffset (p.2.searchIndex [5])).toOption, p.2.footer.indexOffset)) =
      some (some 28, 43) := by decide +kernel
  rw [hrun] at heval
  simp only [Option.bind_some, hbuild, Except.toOption, Option.map_some, Option.some.injEq,
    Prod.mk.injEq] at heval
  obtain ⟨_, start, stop, _, _, hreads⟩ := hall [5]
  rw [hreads.endsAt] at heval
  obtain ⟨hstop, hindex⟩ := heval
  obtain rfl : stop = 28 := Option.some.inj hstop
  refine ⟨m, file, r, hrun, hbuild, hindex, fun b => ?_⟩
  refine hreads.enough ['t'] (file.set 28 b) List.length_set fun i hi => ?_
  exact List.getElem?_set_ne (by omega)

end Hallownest.Storage
