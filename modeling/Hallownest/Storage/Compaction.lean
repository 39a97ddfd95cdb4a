import Hallownest.Storage.TableGet

namespace Hallownest.Storage

/-!
# Storage — compaction (`compaction.go`)

`CompactL0ToL1` merges level-0 tables, given oldest first, into one level-1 table and deletes
them.

It collects the records by looking up the keys *in the sparse index* of each table.  A record
whose key is not in the index is not looked at, so the merged view is preserved only as far as
the indexed records represent it; and when nothing is retained, a sentinel key is stored that
no table contains.  `compaction_preserves_iff` states the exact condition, and
`compaction_loses_key` is a table with two keys of which one is lost.
-/

/-! ### The code -/

/-- The files of a file system, by name. -/
abbrev FileSystem := List Char → Option Bytes

/-- The file system with one file written, or removed. -/
def FileSystem.set (fs : FileSystem) (name : List Char) (content : Option Bytes) : FileSystem :=
  fun n => if n = name then content else fs n

/-- Why a compaction fails. -/
inductive CompactionError
  | noTables
  | build (e : SSTableError)
  | panic
  deriving DecidableEq, Repr

/-- One round of the loop over the index of a table: the record of the key, if it can be read,
    replaces what earlier tables had under the key.  The map is kept in the order in which its
    keys are sorted afterwards. -/
def extractEntry (reader : SSTableReader) (entryMap : List Entry) (idxEntry : IndexEntry) :
    Except CompactionError (List Entry) :=
  match reader.get idxEntry.key with
  | .error .panic => .error .panic
  | .error _ => .ok entryMap
  | .ok (value, tombstone, true) =>
    .ok (Assoc.upsert Entry.key ⟨idxEntry.key, value, tombstone⟩ entryMap)
  | .ok (_, _, false) => .ok entryMap

/-- The loops over the tables and their indices. -/
def extract (l0Readers : List SSTableReader) : Except CompactionError (List Entry) :=
  l0Readers.foldlM (fun entryMap reader => reader.index.foldlM (extractEntry reader) entryMap) []

/-- The key and value that stand for an empty table. -/
def sentinel : Entry where
  key := ['_', '_', 'a', 'b', 'y', 's', 's', '_', 'c', 'o', 'm', 'p', 'a', 'c', 't', 'i', 'o', 'n',
    '_', 's', 'e', 'n', 't', 'i', 'n', 'e', 'l', '_', '_'].map fun c => UInt8.ofNat c.toNat
  value := ['o', 'k'].map fun c => UInt8.ofNat c.toNat
  tombstone := false

/-- What is kept of the extracted records: tombstones are purged. -/
def retain (entries : List Entry) : List Entry :=
  if (entries.filter fun e => !e.tombstone).length = 0 then [sentinel]
  else entries.filter fun e => !e.tombstone

/-- The temporary MemTable; `level i` is the height that is drawn in the `i`-th `Put`. -/
def putAll (level : ℕ → ℕ) (entries : List Entry) : Option MemTable :=
  entries.zipIdx.foldlM (fun m p => (m.put p.1.key p.1.value (level p.2)).map Prod.fst)
    (newMemTable defaultMemTableOptions)

/-- What a compaction leaves: the files, the readers it was given, and its result. -/
structure Compaction where
  fs : FileSystem
  l0Readers : List SSTableReader
  result : Except CompactionError SSTableReader

/-- Delete the files of closed readers. -/
def removeAll (fs : FileSystem) (l0Readers : List SSTableReader) : FileSystem :=
  l0Readers.foldl (fun fs reader => fs.set reader.filename none) fs

/-- Merge level-0 tables into a level-1 table (`CompactL0ToL1`).  `left` is what a build that
    fails leaves in the destination. -/
def compactL0ToL1 (create : ℕ → Float → Option LumaflyBloom) (ok : FileOp → Bool)
    (level : ℕ → ℕ) (left : Option Bytes) (fs : FileSystem) (l0Readers : List SSTableReader)
    (destFile : List Char) (sstOpts : SSTableOptions) : Compaction :=
  if l0Readers.length = 0 then ⟨fs, l0Readers, .error .noTables⟩
  else
    match extract l0Readers with
    | .error e => ⟨fs, l0Readers, .error e⟩
    | .ok entryMap =>
      match putAll level (retain entryMap) with
      | none => ⟨fs, l0Readers, .error .panic⟩
      | some mem =>
        match buildSSTable create ok destFile mem (retain entryMap).length sstOpts with
        | .error e => ⟨fs.set destFile left, l0Readers, .error (.build e)⟩
        | .ok (file, l1Reader) =>
          ⟨removeAll (fs.set destFile (some file)) l0Readers,
            l0Readers.map SSTableReader.close, .ok l1Reader⟩

/-! ### The tables -/

/-- A level-0 table: built from a MemTable, with records that fit, and intact. -/
structure L0Table where
  memTable : MemTable
  records : List Entry
  models : Models memTable records
  fits : ∀ e ∈ records, e.Fits
  create : ℕ → Float → Option LumaflyBloom
  filename : List Char
  expectedEntries : Int
  opts : SSTableOptions
  interval_pos : 1 ≤ opts.sparseInterval
  filter : LumaflyBloom
  created : create (expectedEntries % 2 ^ 64).toNat opts.normalize.fpRate = some filter
  zeroed : filter.Zeroed
  size_le : (tableBytes records (indexOf (interval opts) records) filter).length ≤ 2 ^ 48
  file : Bytes
  reader : SSTableReader
  built : buildSSTable create allOk filename memTable expectedEntries opts = .ok (file, reader)

namespace L0Table

variable (t : L0Table)

/-- The reader of a table serves its records. -/
theorem opened : Opened (interval t.opts) t.records t.reader ∧ t.reader.filename = t.filename := by
  obtain ⟨file, r, hbuild, hr, hname, _, _⟩ :=
    buildSSTable_spec t.create _ t.filename t.models (fun e he => (t.fits e he).writable) t.created
      t.zeroed t.size_le
  have heq := t.built
  rw [hbuild] at heq
  cases heq
  exact ⟨hr, hname⟩

/-- The records whose keys are in the index. -/
def indexed : List Entry :=
  (t.records.zipIdx.filter fun p => p.2 % interval t.opts = 0).map Prod.fst

theorem sorted : Assoc.Sorted Entry.key t.records := t.models.sorted

/-- The indexed records are among the records. -/
theorem indexed_sublist : t.indexed.Sublist t.records := by
  have hsub := (List.filter_sublist (p := fun p => decide (p.2 % interval t.opts = 0))
    (l := t.records.zipIdx)).map Prod.fst
  rwa [List.zipIdx_map_fst] at hsub

private theorem sorted_indexed : Assoc.Sorted Entry.key t.indexed :=
  t.sorted.sublist t.indexed_sublist

/-- The index of the reader is that of the records. -/
theorem index_eq : t.reader.index = indexOf (interval t.opts) t.records := by
  obtain ⟨filename, bf, hr, _⟩ := t.opened.1
  rw [hr]
  rfl

/-- **The loop over one index** puts the indexed records of the table into the map. -/
theorem extract_eq (entryMap : List Entry) :
    t.reader.index.foldlM (extractEntry t.reader) entryMap =
      .ok (Assoc.merge Entry.key entryMap t.indexed) := by
  -- one round, for a record of the table
  have hround : ∀ e ∈ t.records, ∀ (offset : ℕ) (acc : List Entry),
      extractEntry t.reader acc ⟨e.key, offset⟩ = .ok (Assoc.upsert Entry.key e acc) := by
    intro e he offset acc
    have hget := t.opened.1.get (Storage.interval_pos _) t.sorted t.fits e.key
    rw [Assoc.lookup_of_mem t.sorted he] at hget
    unfold extractEntry
    rw [hget]
    rfl
  rw [t.index_eq]
  unfold indexOf indexed
  rw [List.foldlM_map]
  -- the induction is over the indexed positions, of which only this is needed
  have hmem : ∀ p ∈ t.records.zipIdx.filter fun p => p.2 % interval t.opts = 0,
      p.1 ∈ t.records := by
    rintro ⟨e, i⟩ hp
    exact List.mem_of_getElem? (List.mk_mem_zipIdx_iff_getElem?.mp (List.mem_of_mem_filter hp))
  generalize t.records.zipIdx.filter (fun p => decide (p.2 % interval t.opts = 0)) = ps at hmem
  induction ps generalizing entryMap with
  | nil => rfl
  | cons p ps ih =>
    rw [List.foldlM_cons, hround p.1 (hmem p (by simp))]
    exact ih _ fun q hq => hmem q (by simp [hq])

end L0Table

/-! ### The merged view -/

variable (ts : List L0Table)

/-- The record of a key in the last table that contains it. -/
def newest (key : Bytes) : Option Entry :=
  ts.reverse.findSome? fun t => Assoc.lookup Entry.key key t.records

/-- The record of a key in the last table that has it in its index. -/
def newestIndexed (key : Bytes) : Option Entry :=
  ts.reverse.findSome? fun t => Assoc.lookup Entry.key key t.indexed

/-- The value of a record, unless it is a tombstone. -/
def live : Option Entry → Option Bytes
  | some e => if e.tombstone then none else some e.value
  | none => none

/-- What a client sees of a value. -/
def shown : Option Bytes → Bytes × Bool × Bool
  | some value => (value, false, true)
  | none => ([], false, false)

/-- **The condition** under which a compaction preserves the merged view: the indexed records
    show it, and show something; or nothing indexed is live, and the only live key is the
    sentinel with the sentinel's value. -/
def IndexShowsAll : Prop :=
  ((∃ key, live (newestIndexed ts key) ≠ none) ∧
      ∀ key, live (newestIndexed ts key) = live (newest ts key)) ∨
    ((∀ key, live (newestIndexed ts key) = none) ∧
      ∀ key, live (newest ts key) = if key = sentinel.key then some sentinel.value else none)

/-- The records that the tables contribute. -/
def extracted : List Entry :=
  ts.foldl (fun acc t => Assoc.merge Entry.key acc t.indexed) []

/-- Extraction succeeds on tables whose records fit. -/
theorem extract_readers : extract (ts.map L0Table.reader) = .ok (extracted ts) := by
  unfold extract extracted
  rw [List.foldlM_map]
  generalize ([] : List Entry) = acc
  induction ts generalizing acc with
  | nil => rfl
  | cons t ts ih =>
    rw [List.foldlM_cons, t.extract_eq]
    exact ih _

/-- A newer table is merged over the older ones. -/
theorem extracted_snoc (t : L0Table) :
    extracted (ts ++ [t]) = Assoc.merge Entry.key (extracted ts) t.indexed := by
  unfold extracted
  rw [List.foldl_append]
  rfl

/-- What is extracted is sorted by key. -/
theorem sorted_extracted : Assoc.Sorted Entry.key (extracted ts) := by
  induction ts using List.reverseRecOn with
  | nil => exact List.Pairwise.nil
  | append_singleton ts t ih =>
    rw [extracted_snoc]
    exact Assoc.sorted_merge ih t.indexed

/-- What is extracted under a key is its newest indexed record. -/
theorem lookup_extracted (key : Bytes) :
    Assoc.lookup Entry.key key (extracted ts) = newestIndexed ts key := by
  induction ts using List.reverseRecOn with
  | nil => rfl
  | append_singleton ts t ih =>
    -- the newer table wins wherever it has the key in its index
    rw [extracted_snoc, Assoc.lookup_merge key t.sorted_indexed, ih]
    unfold newestIndexed
    rw [List.reverse_append, List.reverse_singleton, List.singleton_append, List.findSome?_cons]
    cases Assoc.lookup Entry.key key t.indexed <;> rfl

/-- What is extracted is a record of a table. -/
private theorem mem_extracted {e : Entry} (h : e ∈ extracted ts) : ∃ t ∈ ts, e ∈ t.records := by
  induction ts using List.reverseRecOn with
  | nil => cases h
  | append_singleton ts t ih =>
    rw [extracted_snoc] at h
    rcases Assoc.mem_merge h with h | h
    · obtain ⟨u, hu, he⟩ := ih h
      exact ⟨u, by simp [hu], he⟩
    · exact ⟨t, by simp, t.indexed_sublist.subset h⟩

/-! ### What is retained -/

section Retain

variable {es : List Entry}

/-- What is retained is sorted by key. -/
theorem sorted_retain (hes : Assoc.Sorted Entry.key es) : Assoc.Sorted Entry.key (retain es) := by
  unfold retain
  split
  · exact List.pairwise_singleton _ _
  · exact hes.sublist List.filter_sublist

/-- What is retained was extracted, or is the sentinel. -/
theorem mem_retain {e : Entry} (h : e ∈ retain es) : e = sentinel ∨ e ∈ es := by
  unfold retain at h
  split at h
  · exact Or.inl (List.mem_singleton.mp h)
  · exact Or.inr (List.mem_of_mem_filter h)

/-- No tombstone is retained. -/
theorem tombstone_of_mem_retain {e : Entry} (h : e ∈ retain es) : e.tombstone = false := by
  unfold retain at h
  split at h
  · rw [List.mem_singleton.mp h]; rfl
  · simpa using List.of_mem_filter h

/-- Looking a key up among the live records. -/
theorem live_filter (hes : Assoc.Sorted Entry.key es) (key : Bytes) :
    answer (Assoc.lookup Entry.key key (es.filter fun e => !e.tombstone)) =
      shown (live (Assoc.lookup Entry.key key es)) := by
  rw [Assoc.lookup_filter _ key hes]
  cases Assoc.lookup Entry.key key es with
  | none => rfl
  | some e =>
    obtain ⟨k, v, t⟩ := e
    cases t <;> rfl

/-- If some record is live, the live records are retained. -/
theorem answer_retain (hes : Assoc.Sorted Entry.key es)
    (hlive : ∃ key, live (Assoc.lookup Entry.key key es) ≠ none) (key : Bytes) :
    answer (Assoc.lookup Entry.key key (retain es)) =
      shown (live (Assoc.lookup Entry.key key es)) := by
  unfold retain
  rw [if_neg, live_filter hes]
  -- with nothing retained no key would show a value
  intro hnone
  obtain ⟨k, hk⟩ := hlive
  have := live_filter hes k
  rw [List.length_eq_zero_iff.mp hnone] at this
  cases hv : live (Assoc.lookup Entry.key k es) with
  | none => exact hk hv
  | some v => rw [hv] at this; cases this

/-- If none is live, only the sentinel is there. -/
theorem answer_retain_none (hes : Assoc.Sorted Entry.key es)
    (hdead : ∀ key, live (Assoc.lookup Entry.key key es) = none) (key : Bytes) :
    answer (Assoc.lookup Entry.key key (retain es)) =
      shown (if key = sentinel.key then some sentinel.value else none) := by
  have hempty : es.filter (fun e => !e.tombstone) = [] := by
    rw [List.filter_eq_nil_iff]
    intro e he hnot
    have := hdead e.key
    rw [Assoc.lookup_of_mem hes he, live, if_neg (by simpa using hnot)] at this
    cases this
  unfold retain
  rw [hempty, if_pos List.length_nil, Assoc.lookup_cons]
  by_cases hkey : key = sentinel.key
  · rw [if_pos hkey.symm, if_pos hkey]
    rfl
  · rw [if_neg (Ne.symm hkey), if_neg hkey]
    rfl

/-- Heights that `randomLevel` may return in the temporary MemTable. -/
def LevelsOk (level : ℕ → ℕ) : Prop := ∀ i, 1 ≤ level i ∧ (level i : Int) ≤ defaultMaxLevel

/-- **The temporary MemTable** holds the records that are put into it in ascending order. -/
theorem putAll_spec {level : ℕ → ℕ} (hlevel : LevelsOk level) (hes : Assoc.Sorted Entry.key es)
    (hput : ∀ e ∈ es, e.tombstone = false) :
    ∃ m, putAll level es = some m ∧ Models m es := by
  obtain ⟨m, hrun, hm⟩ := models_run defaultMemTableOptions
    (es.zipIdx.map fun p => (Op.put p.1.key p.1.value, level p.2)) (by
      intro p hp
      obtain ⟨q, _, rfl⟩ := List.mem_map.mp hp
      exact hlevel q.2)
  refine ⟨m, ?_, ?_⟩
  · unfold putAll
    unfold MemTable.run at hrun
    rw [List.foldlM_map] at hrun
    exact hrun
  · -- writing live records leaves these records
    have hself : ∀ p ∈ es.zipIdx, (Op.put p.1.key p.1.value).entry = p.1 := by
      rintro ⟨e, i⟩ hp
      have he := hput e (List.mem_of_getElem? (List.mk_mem_zipIdx_iff_getElem?.mp hp))
      obtain ⟨k, v, t⟩ := e
      cases he
      rfl
    have hentries : ((es.zipIdx.map fun p => (Op.put p.1.key p.1.value, level p.2)).map
        Prod.fst).map Op.entry = es := by
      rw [List.map_map, List.map_map]
      show es.zipIdx.map (fun p => (Op.put p.1.key p.1.value).entry) = es
      rw [List.map_congr_left hself]
      exact List.zipIdx_map_fst 0 es
    rw [contents_eq_merge, hentries, Assoc.merge_of_sorted (by simpa using hes)] at hm
    exact hm

end Retain

/-- What is retained fits, as it comes from tables or is the sentinel. -/
theorem fits_retain : ∀ e ∈ retain (extracted ts), e.Fits := by
  intro e he
  rcases mem_retain he with rfl | he
  · decide
  · obtain ⟨t, _, hmem⟩ := mem_extracted ts he
    exact t.fits e hmem

/-! ### The compaction -/

/-- What is deleted is the files of the tables. -/
theorem removeAll_of_ne {fs : FileSystem} {name : List Char} {rs : List SSTableReader}
    (h : ∀ r ∈ rs, r.filename ≠ name) : removeAll fs rs name = fs name := by
  unfold removeAll
  induction rs generalizing fs with
  | nil => rfl
  | cons r rs ih =>
    rw [List.foldl_cons, ih fun s hs => h s (by simp [hs])]
    exact if_neg (Ne.symm (h r (by simp)))

variable {ts} in
/-- A compaction of which every part succeeds. -/
theorem compactL0ToL1_of_build {create : ℕ → Float → Option LumaflyBloom} {level : ℕ → ℕ}
    {left : Option Bytes} {fs : FileSystem} {destFile : List Char} {opts : SSTableOptions}
    (hne : ts ≠ []) {m : MemTable} {file : Bytes} {r : SSTableReader}
    (hput : putAll level (retain (extracted ts)) = some m)
    (hbuild : buildSSTable create allOk destFile m (retain (extracted ts)).length opts =
      .ok (file, r)) :
    compactL0ToL1 create allOk level left fs (ts.map L0Table.reader) destFile opts =
      ⟨removeAll (fs.set destFile (some file)) (ts.map L0Table.reader),
        (ts.map L0Table.reader).map SSTableReader.close, .ok r⟩ := by
  have hlen : ¬ (ts.map L0Table.reader).length = 0 := by simpa using hne
  unfold compactL0ToL1
  rw [if_neg hlen, extract_readers]
  simp only [hput, hbuild]

variable (create : ℕ → Float → Option LumaflyBloom) (level : ℕ → ℕ) (left : Option Bytes)
  (fs : FileSystem) (destFile : List Char) (sstOpts : SSTableOptions) {bf : LumaflyBloom}

/-- **What a compaction does** with tables whose records fit: it builds a table of what is
    retained of the indexed records. -/
theorem compactL0ToL1_spec (hne : ts ≠ []) (hlevel : LevelsOk level)
    (hdest : ∀ t ∈ ts, t.filename ≠ destFile)
    (hcreate : create (((retain (extracted ts)).length : Int) % 2 ^ 64).toNat
      sstOpts.normalize.fpRate = some bf)
    (hbf : bf.Zeroed)
    (hsize : (tableBytes (retain (extracted ts))
      (indexOf (interval sstOpts) (retain (extracted ts))) bf).length ≤ 2 ^ 48) :
    let c := compactL0ToL1 create allOk level left fs (ts.map L0Table.reader) destFile sstOpts
    ∃ r, c.result = .ok r ∧ c.fs destFile = r.file ∧
      ∀ key, r.get key = .ok (answer (Assoc.lookup Entry.key key (retain (extracted ts)))) := by
  have hsorted := sorted_retain (sorted_extracted ts)
  have hfit := fits_retain ts
  obtain ⟨m, hput, hm⟩ := putAll_spec hlevel hsorted fun e he => tombstone_of_mem_retain he
  obtain ⟨file, r, hbuild, hr, _, hfile, _⟩ :=
    buildSSTable_spec create _ destFile hm (fun e he => (hfit e he).writable) hcreate hbf hsize
  intro c
  have hc : c = _ := compactL0ToL1_of_build hne hput hbuild
  rw [hc]
  refine ⟨r, rfl, ?_, fun key => hr.get (interval_pos _) hsorted hfit key⟩
  -- the new file is not among those that are deleted
  show removeAll (fs.set destFile (some file)) (ts.map L0Table.reader) destFile = r.file
  rw [removeAll_of_ne, hfile]
  · exact if_pos rfl
  · intro reader hreader
    obtain ⟨t, ht, rfl⟩ := List.mem_map.mp hreader
    rw [t.opened.2]
    exact hdest t ht

theorem shown_injective : Function.Injective shown := by
  intro a b h
  cases a <;> cases b <;> simp_all [shown]

/-- Tables of any contents exist. -/
theorem exists_l0Table (memOpts : MemTableOptions) (ops : List (Op × ℕ))
    (hlevels : ∀ p ∈ ops, 1 ≤ p.2 ∧ (p.2 : Int) ≤ (newMemTable memOpts).opts.maxLevel)
    (hfit : ∀ e ∈ contents (ops.map Prod.fst), e.Fits) (filename : List Char)
    (opts : SSTableOptions) (hpos : 1 ≤ opts.sparseInterval)
    (hsize : (tableBytes (contents (ops.map Prod.fst))
      (indexOf (interval opts) (contents (ops.map Prod.fst))) smallFilter).length ≤ 2 ^ 48) :
    ∃ t : L0Table, t.records = contents (ops.map Prod.fst) ∧ t.opts = opts ∧
      t.filename = filename := by
  obtain ⟨m, _, hm⟩ := models_run memOpts ops hlevels
  obtain ⟨file, r, hbuild, _⟩ := buildSSTable_spec (fun _ _ => some smallFilter) 1 filename hm
    (fun e he => (hfit e he).writable) rfl smallFilter_zeroed hsize
  exact ⟨{
    memTable := m
    records := contents (ops.map Prod.fst)
    models := hm
    fits := hfit
    create := fun _ _ => some smallFilter
    filename := filename
    expectedEntries := 1
    opts := opts
    interval_pos := hpos
    filter := smallFilter
    created := rfl
    zeroed := smallFilter_zeroed
    size_le := hsize
    file := file
    reader := r
    built := hbuild }, rfl, rfl, rfl⟩

/-- **Compaction preserves the merged view exactly when the index shows it.**  For tables whose
    records fit and a destination that is none of their files, a compaction succeeds, and the
    new table answers every key as the merged tables do if and only if the condition
    `IndexShowsAll` holds. -/
theorem compaction_preserves_iff (hne : ts ≠ []) (hlevel : LevelsOk level)
    (hdest : ∀ t ∈ ts, t.filename ≠ destFile)
    (hcreate : create (((retain (extracted ts)).length : Int) % 2 ^ 64).toNat
      sstOpts.normalize.fpRate = some bf)
    (hbf : bf.Zeroed)
    (hsize : (tableBytes (retain (extracted ts))
      (indexOf (interval sstOpts) (retain (extracted ts))) bf).length ≤ 2 ^ 48) :
    let c := compactL0ToL1 create allOk level left fs (ts.map L0Table.reader) destFile sstOpts
    ∃ r, c.result = .ok r ∧ c.fs destFile = r.file ∧
      ((∀ key, r.get key = .ok (shown (live (newest ts key)))) ↔ IndexShowsAll ts) := by
  intro c
  obtain ⟨r, hresult, hfile, hget⟩ :=
    compactL0ToL1_spec ts create level left fs destFile sstOpts hne hlevel hdest hcreate hbf hsize
  refine ⟨r, hresult, hfile, ?_⟩
  have hsorted := sorted_extracted ts
  -- the answer for a key, compared with the merged view
  have hiff : ∀ {a : Option Bytes} {key : Bytes},
      answer (Assoc.lookup Entry.key key (retain (extracted ts))) = shown a →
      (r.get key = .ok (shown (live (newest ts key))) ↔ a = live (newest ts key)) := by
    intro a key ha
    rw [hget key, ha]
    exact ⟨fun h => shown_injective (Except.ok.inj h), fun h => by rw [h]⟩
  by_cases hlive : ∃ key, live (newestIndexed ts key) ≠ none
  · -- something is retained: the table shows the indexed records
    have hlive' := hlive
    simp only [← lookup_extracted] at hlive'
    have hkeys := fun key => hiff (answer_retain hsorted hlive' key)
    simp only [lookup_extracted] at hkeys
    constructor
    · exact fun h => Or.inl ⟨hlive, fun key => (hkeys key).mp (h key)⟩
    · rintro (⟨_, h⟩ | ⟨hdead, _⟩)
      · exact fun key => (hkeys key).mpr (h key)
      · obtain ⟨key, hkey⟩ := hlive
        exact absurd (hdead key) hkey
  · -- nothing is retained: the table shows the sentinel
    have hdead : ∀ key, live (newestIndexed ts key) = none := by
      intro key
      by_contra hkey
      exact hlive ⟨key, hkey⟩
    have hdead' := hdead
    simp only [← lookup_extracted] at hdead'
    have hkeys := fun key => hiff (answer_retain_none hsorted hdead' key)
    constructor
    · exact fun h => Or.inr ⟨hdead, fun key => ((hkeys key).mp (h key)).symm⟩
    · rintro (⟨h, _⟩ | ⟨_, h⟩)
      · exact absurd h hlive
      · exact fun key => (hkeys key).mpr (h key).symm

theorem levelsOk_one : LevelsOk fun _ => 1 := by
  intro _
  show 1 ≤ 1 ∧ (1 : Int) ≤ defaultMaxLevel
  decide

/-- Two live keys. -/
def twoKeys : List (Op × ℕ) := [(.put [1] [10], 1), (.put [2] [20], 1)]

/-- A table of two keys with both of them in the index is preserved. -/
theorem compaction_preserves_two : ∃ (t : L0Table) (r : SSTableReader),
    t.records = [⟨[1], [10], false⟩, ⟨[2], [20], false⟩] ∧
    (compactL0ToL1 (fun _ _ => some smallFilter) allOk (fun _ => 1) none
      (FileSystem.set (fun _ => none) t.filename (some t.file)) [t.reader] ['b']
      ⟨1, 0.01⟩).result = .ok r ∧
    ∀ key, r.get key = .ok (shown (live (newest [t] key))) := by
  obtain ⟨t, hrecords, hopts, hname⟩ := exists_l0Table ⟨2, 0⟩ twoKeys (by decide) (by decide)
    ['a'] ⟨1, 0.01⟩ (by decide) (by rw [length_tableBytes]; decide +kernel)
  have hindexed : t.indexed = t.records := by
    unfold L0Table.indexed
    rw [hrecords, hopts]
    decide +kernel
  have hextracted : extracted [t] = [⟨[1], [10], false⟩, ⟨[2], [20], false⟩] := by
    show Assoc.merge Entry.key [] t.indexed = _
    rw [hindexed, hrecords]
    decide +kernel
  obtain ⟨r, hresult, _, hiff⟩ := compaction_preserves_iff [t] (fun _ _ => some smallFilter)
    (fun _ => 1) none (FileSystem.set (fun _ => none) t.filename (some t.file)) ['b'] ⟨1, 0.01⟩
    (by simp) levelsOk_one (by simp [hname]) rfl
    smallFilter_zeroed (by rw [hextracted, length_tableBytes]; decide +kernel)
  refine ⟨t, r, hrecords, hresult, hiff.mpr (Or.inl ⟨⟨[1], ?_⟩, fun key => ?_⟩)⟩
  · rw [← lookup_extracted, hextracted]
    decide
  · unfold newestIndexed newest
    simp only [List.reverse_singleton, List.findSome?_singleton, hindexed]

/-- With the standard interval the second of two keys is not in the index, and a compaction
    loses it. -/
theorem compaction_loses_key : ∃ (t : L0Table) (r : SSTableReader),
    t.records = [⟨[1], [10], false⟩, ⟨[2], [20], false⟩] ∧ t.opts.sparseInterval = 8 ∧
    (compactL0ToL1 (fun _ _ => some smallFilter) allOk (fun _ => 1) none
      (FileSystem.set (fun _ => none) t.filename (some t.file)) [t.reader] ['b']
      ⟨8, 0.01⟩).result = .ok r ∧
    newest [t] [2] = some ⟨[2], [20], false⟩ ∧ r.get [2] = .ok ([], false, false) := by
  obtain ⟨t, hrecords, hopts, hname⟩ := exists_l0Table ⟨2, 0⟩ twoKeys (by decide) (by decide)
    ['a'] ⟨8, 0.01⟩ (by decide) (by rw [length_tableBytes]; decide +kernel)
  have hindexed : t.indexed = [⟨[1], [10], false⟩] := by
    unfold L0Table.indexed
    rw [hrecords, hopts]
    decide +kernel
  have hextracted : extracted [t] = [⟨[1], [10], false⟩] := by
    show Assoc.merge Entry.key [] t.indexed = _
    rw [hindexed]
    rfl
  obtain ⟨r, hresult, _, hget⟩ := compactL0ToL1_spec [t] (fun _ _ => some smallFilter)
    (fun _ => 1) none (FileSystem.set (fun _ => none) t.filename (some t.file)) ['b'] ⟨8, 0.01⟩
    (by simp) levelsOk_one (by simp [hname]) rfl
    smallFilter_zeroed (by rw [hextracted, length_tableBytes]; decide +kernel)
  refine ⟨t, r, hrecords, by rw [hopts], hresult, ?_, ?_⟩
  · unfold newest
    rw [List.reverse_singleton, List.findSome?_singleton, hrecords]
    decide
  · rw [hget, hextracted]
    decide

end Hallownest.Storage
