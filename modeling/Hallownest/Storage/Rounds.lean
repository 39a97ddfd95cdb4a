import Hallownest.Storage.Compaction

namespace Hallownest.Storage

/-!
# Storage — tables and compactions over time

A caller of `BuildSSTable` and `CompactL0ToL1` builds tables from MemTables and, from time to time,
compacts the oldest of them into one.  With every record in the index (interval 1) the tables
together go on showing what was written, for every key but the sentinel
(`tables_refine_map`).

* `exists_compacted` — the result of a compaction is a table that can be compacted again.
* `partial_compaction_iff` — tombstones are purged even if there are older tables; when that is
  harmless.
-/

/-! ### Tables that are built and compacted -/

variable {create : ℕ → Float → Option LumaflyBloom} {level : ℕ → ℕ} {left : Option Bytes}
  {fs : FileSystem} {destFile : List Char} {opts : SSTableOptions} {bf : LumaflyBloom}
  {ts : List L0Table} {key : Bytes}

/-- The reader of a table has its file. -/
theorem L0Table.reader_file (t : L0Table) : t.reader.file = some t.file := by
  obtain ⟨file, r, hbuild, _, _, hfile, _⟩ := buildSSTable_spec t.create t.expectedEntries
    t.filename t.models (fun e he => (t.fits e he).writable) t.created t.zeroed t.size_le
  obtain ⟨rfl, rfl⟩ := Prod.mk.inj (Except.ok.inj (t.built.symm.trans hbuild))
  exact hfile

/-- A table answers from its records. -/
theorem L0Table.get (t : L0Table) (key : Bytes) :
    t.reader.get key = .ok (answer (Assoc.lookup Entry.key key t.records)) :=
  t.opened.1.get (Storage.interval_pos _) t.sorted t.fits key

/-- What `BuildSSTable` makes of a MemTable is a table. -/
theorem exists_table {m : MemTable} {l : List Entry} (hm : Models m l) (hfit : ∀ e ∈ l, e.Fits)
    (filename : List Char) (expectedEntries : Int) (hpos : 1 ≤ opts.sparseInterval)
    (hcreate : create (expectedEntries % 2 ^ 64).toNat opts.normalize.fpRate = some bf)
    (hbf : bf.Zeroed)
    (hsize : (tableBytes l (indexOf (interval opts) l) bf).length ≤ 2 ^ 48) :
    ∃ t : L0Table, t.records = l ∧ t.opts = opts ∧ t.filename = filename ∧
      buildSSTable create allOk filename m expectedEntries opts = .ok (t.file, t.reader) := by
  obtain ⟨file, r, hbuild, _⟩ := buildSSTable_spec create expectedEntries filename hm
    (fun e he => (hfit e he).writable) hcreate hbf hsize
  exact ⟨{
    memTable := m
    records := l
    models := hm
    fits := hfit
    create := create
    filename := filename
    expectedEntries := expectedEntries
    opts := opts
    interval_pos := hpos
    filter := bf
    created := hcreate
    zeroed := hbf
    size_le := hsize
    file := file
    reader := r
    built := hbuild }, rfl, rfl, rfl, hbuild⟩

section Compacted

variable (destFile : List Char) (hlevel : LevelsOk level) (hpos : 1 ≤ opts.sparseInterval)
  (hcreate : create (((retain (extracted ts)).length : Int) % 2 ^ 64).toNat
    opts.normalize.fpRate = some bf)
  (hbf : bf.Zeroed)
  (hsize : (tableBytes (retain (extracted ts))
    (indexOf (interval opts) (retain (extracted ts))) bf).length ≤ 2 ^ 48)

include hlevel hpos hcreate hbf hsize

/-- The table that is built from what is retained. -/
theorem exists_retained : ∃ (m : MemTable) (t : L0Table),
    putAll level (retain (extracted ts)) = some m ∧
    Models m (retain (extracted ts)) ∧
    buildSSTable create allOk destFile m (retain (extracted ts)).length opts =
      .ok (t.file, t.reader) ∧
    t.records = retain (extracted ts) ∧ t.opts = opts ∧ t.filename = destFile := by
  obtain ⟨m, hput, hm⟩ := putAll_spec hlevel (sorted_retain (sorted_extracted ts))
    fun e he => tombstone_of_mem_retain he
  obtain ⟨t, hrecords, hopts, hname, hbuild⟩ :=
    exists_table hm (fits_retain ts) destFile _ hpos hcreate hbf hsize
  exact ⟨m, t, hput, hm, hbuild, hrecords, hopts, hname⟩

/-- **What a compaction makes is a table.** -/
theorem exists_compacted (left : Option Bytes) (fs : FileSystem) (hne : ts ≠ []) :
    ∃ t : L0Table, t.records = retain (extracted ts) ∧ t.opts = opts ∧ t.filename = destFile ∧
      compactL0ToL1 create allOk level left fs (ts.map L0Table.reader) destFile opts =
        ⟨removeAll (fs.set destFile (some t.file)) (ts.map L0Table.reader),
          (ts.map L0Table.reader).map SSTableReader.close, .ok t.reader⟩ := by
  obtain ⟨m, t, hput, _, hbuild, hrecords, hopts, hname⟩ :=
    exists_retained destFile hlevel hpos hcreate hbf hsize
  exact ⟨t, hrecords, hopts, hname, compactL0ToL1_of_build hne hput hbuild⟩

end Compacted

/-! ### What tables show together -/

/-- Newer tables come first. -/
theorem newest_append (ts us : List L0Table) (key : Bytes) :
    newest (ts ++ us) key = (newest us key).or (newest ts key) := by
  simp only [newest, List.reverse_append, List.findSome?_append]

theorem newest_singleton (t : L0Table) (key : Bytes) :
    newest [t] key = Assoc.lookup Entry.key key t.records := by
  simp [newest]

/-- Newer tables come first. -/
theorem newest_cons (t : L0Table) (ts : List L0Table) (key : Bytes) :
    newest (t :: ts) key = (newest ts key).or (Assoc.lookup Entry.key key t.records) := by
  rw [← newest_singleton, ← newest_append, List.singleton_append]

/-- With interval 1 every record is in the index. -/
theorem L0Table.indexed_of_one {t : L0Table} (h : interval t.opts = 1) :
    t.indexed = t.records := by
  unfold L0Table.indexed
  rw [h]
  simp [Nat.mod_one]

/-- With every record in the index nothing is overlooked. -/
theorem newestIndexed_of_one (h : ∀ t ∈ ts, interval t.opts = 1) (key : Bytes) :
    newestIndexed ts key = newest ts key := by
  induction ts using List.reverseRecOn with
  | nil => rfl
  | append_singleton ts t ih =>
    have hts := ih fun u hu => h u (by simp [hu])
    unfold newestIndexed newest at hts ⊢
    simp only [List.reverse_append, List.reverse_singleton, List.singleton_append,
      List.findSome?_cons, L0Table.indexed_of_one (h t (by simp)), hts]

/-- What is retained shows what was extracted, for every key but the sentinel. -/
private theorem live_retain {es : List Entry} (hes : Assoc.Sorted Entry.key es)
    (hkey : key ≠ sentinel.key) :
    live (Assoc.lookup Entry.key key (retain es)) = live (Assoc.lookup Entry.key key es) := by
  have hfilter : live (Assoc.lookup Entry.key key (es.filter fun e => !e.tombstone)) =
      live (Assoc.lookup Entry.key key es) := by
    rw [Assoc.lookup_filter _ key hes]
    rcases Assoc.lookup Entry.key key es with _ | ⟨k, v, _ | _⟩ <;> rfl
  unfold retain
  split
  · -- nothing is live, and the sentinel has another key
    rename_i hnone
    rw [← hfilter, List.length_eq_zero_iff.mp hnone, Assoc.lookup_cons, if_neg (Ne.symm hkey)]
  · exact hfilter

/-- **A compaction shows the newest live records**, for every key but the sentinel. -/
theorem live_compacted (hone : ∀ t ∈ ts, interval t.opts = 1) {t : L0Table}
    (hrecords : t.records = retain (extracted ts)) (hkey : key ≠ sentinel.key) :
    live (Assoc.lookup Entry.key key t.records) = live (newest ts key) := by
  rw [hrecords, live_retain (sorted_extracted ts) hkey, lookup_extracted,
    newestIndexed_of_one hone]

/-- The records of a compacted table are live. -/
theorem tombstone_compacted {t : L0Table} (hrecords : t.records = retain (extracted ts))
    {e : Entry} (h : Assoc.lookup Entry.key key t.records = some e) : e.tombstone = false := by
  obtain ⟨he, _⟩ := Assoc.lookup_eq_some h
  rw [hrecords] at he
  exact tombstone_of_mem_retain he

/-- A record that is not a tombstone is answered as it is shown. -/
theorem answer_eq_shown {x : Option Entry} (h : ∀ e, x = some e → e.tombstone = false) :
    answer x = shown (live x) := by
  rcases x with _ | ⟨k, v, _ | _⟩ <;> simp_all [live, shown, answer]

/-- Tables behind others, seen through live records alone. -/
theorem live_or {x y z : Option Entry} (h : live y = live z) : live (x.or y) = live (x.or z) := by
  cases x with
  | none => exact h
  | some e => rfl

/-- Two records in front of others, the first of them live whenever it is there. -/
theorem live_or_iff {x y z : Option Entry} (h : live x = live y)
    (hx : ∀ e, x = some e → e.tombstone = false) :
    live (x.or z) = live (y.or z) ↔
      ∀ e, y = some e → e.tombstone = true → live z = none := by
  rcases x with _ | ⟨k, v, _ | _⟩ <;> rcases y with _ | ⟨k', v', _ | _⟩ <;> simp_all [live]

theorem FileSystem.set_self (fs : FileSystem) (name : List Char) (content : Option Bytes) :
    fs.set name content name = content := if_pos rfl

theorem FileSystem.set_of_ne {name name' : List Char} (h : name' ≠ name) (fs : FileSystem)
    (content : Option Bytes) : fs.set name content name' = fs name' := if_neg h

/-- What `BuildSSTable` leaves in its file is what it writes. -/
theorem writeTable_of_build {m : MemTable} {filename : List Char} {expectedEntries : Int}
    {file : Bytes} {r : SSTableReader}
    (h : buildSSTable create allOk filename m expectedEntries opts = .ok (file, r)) :
    writeTable create allOk m expectedEntries opts = .ok file ∧
      openSSTable filename file = .ok r := by
  unfold buildSSTable at h
  cases hwrite : writeTable create allOk m expectedEntries opts with
  | error e => rw [hwrite] at h; cases h
  | ok file' =>
    rw [hwrite] at h
    cases hopen : openSSTable filename file' with
    | error e => simp only [bind, Except.bind, hopen] at h; cases h
    | ok r' =>
      simp only [bind, Except.bind, hopen] at h
      obtain ⟨rfl, rfl⟩ := Prod.mk.inj (Except.ok.inj h)
      exact ⟨rfl, hopen⟩

/-! ### Tables over time -/

/-- The files and the open tables, oldest first. -/
structure Tables where
  fs : FileSystem
  readers : List SSTableReader

/-- What a caller does: build a table from a fresh MemTable that has seen some writes, or compact
    the oldest `k` tables. -/
inductive Use
  | build (ops : List (Op × ℕ)) (expectedEntries : Int) (filename : List Char)
  | compact (k : ℕ) (level : ℕ → ℕ) (filename : List Char)

/-- The file that is written. -/
def Use.filename : Use → List Char
  | .build _ _ filename => filename
  | .compact _ _ filename => filename

/-- The writes that go into a table. -/
def Use.writes : Use → List Op
  | .build ops _ _ => ops.map Prod.fst
  | .compact _ _ _ => []

/-- Look a key up in tables, the newest first. -/
def mergedGet (key : Bytes) : List SSTableReader → Except SSTableError (Bytes × Bool × Bool)
  | [] => .ok ([], false, false)
  | r :: rs => do
    let (value, tombstone, found) ← r.get key
    if found then return (value, tombstone, found) else mergedGet key rs

/-- The value that an answer shows, if the key is there and not deleted. -/
def visible : Bytes × Bool × Bool → Option Bytes
  | (value, tombstone, found) => if found && !tombstone then some value else none

namespace Tables

variable (create : ℕ → Float → Option LumaflyBloom) (memOpts : MemTableOptions)
  (opts : SSTableOptions)

/-- There is nothing yet. -/
def empty : Tables where
  fs := fun _ => none
  readers := []

/-- One use. -/
def step (s : Tables) : Use → Except CompactionError Tables
  | .build ops expectedEntries filename =>
    match (newMemTable memOpts).run ops with
    | none => .error .panic
    | some m =>
      match buildSSTable create allOk filename m expectedEntries opts with
      | .error e => .error (.build e)
      | .ok (file, r) =>
        .ok { fs := s.fs.set filename (some file), readers := s.readers ++ [r] }
  | .compact k level filename =>
    let c := compactL0ToL1 create allOk level none s.fs (s.readers.take k) filename opts
    match c.result with
    | .error e => .error e
    | .ok r => .ok { fs := c.fs, readers := r :: s.readers.drop k }

/-- What the caller and the environment grant: heights that `randomLevel` may return, records that
    fit, files of at most `2 ^ 48` bytes, and a table to compact. -/
def Granted (s : Tables) : Use → Prop
  | .build ops expectedEntries _ =>
    (∀ p ∈ ops, 1 ≤ p.2 ∧ (p.2 : Int) ≤ (newMemTable memOpts).opts.maxLevel) ∧
      (∀ e ∈ contents (ops.map Prod.fst), e.Fits) ∧
      ∃ bf, create (expectedEntries % 2 ^ 64).toNat opts.normalize.fpRate = some bf ∧ bf.Zeroed ∧
        (tableBytes (contents (ops.map Prod.fst))
          (indexOf (interval opts) (contents (ops.map Prod.fst))) bf).length ≤ 2 ^ 48
  | .compact k level _ => s.readers.take k ≠ [] ∧ LevelsOk level ∧
      ∀ entries, extract (s.readers.take k) = .ok entries →
        ∃ bf, create (((retain entries).length : Int) % 2 ^ 64).toNat opts.normalize.fpRate =
            some bf ∧ bf.Zeroed ∧
          (tableBytes (retain entries) (indexOf (interval opts) (retain entries)) bf).length ≤
            2 ^ 48

/-- The readers are those of the tables `ts`, whose files are on disk under different names among
    `names`, and which together show the writes `ops`. -/
structure Holds (names : List (List Char)) (ops : List Op) (s : Tables) (ts : List L0Table) :
    Prop where
  readers : s.readers = ts.map L0Table.reader
  indexed : ∀ t ∈ ts, interval t.opts = 1
  named : ∀ t ∈ ts, t.filename ∈ names
  distinct : (ts.map L0Table.filename).Nodup
  onDisk : ∀ t ∈ ts, s.fs t.filename = some t.file
  shows : ∀ key, key ≠ sentinel.key →
    live (newest ts key) = live ((lastWrite ops key).map Op.entry)

variable {create memOpts opts} {names : List (List Char)} {ops : List Op} {s : Tables}
  {ts : List L0Table} {x : Use}

theorem interval_of_one (hone : opts.sparseInterval = 1) : interval opts = 1 := by
  simp [interval, SSTableOptions.normalize, hone]

/-- The last write of a key is in the later part, if that writes the key. -/
private theorem lastWrite_append (ops ops' : List Op) (key : Bytes) :
    lastWrite (ops ++ ops') key = (lastWrite ops' key).or (lastWrite ops key) := by
  simp [lastWrite, List.find?_append]

/-- A new table comes behind the others. -/
theorem Holds.build (h : Holds names ops s ts) {ops' : List Op} {t : L0Table}
    (hindexed : interval t.opts = 1) (hfresh : t.filename ∉ names)
    (hrecords : t.records = contents ops') :
    Holds (names ++ [t.filename]) (ops ++ ops')
      ⟨s.fs.set t.filename (some t.file), s.readers ++ [t.reader]⟩ (ts ++ [t]) where
  readers := by rw [h.readers, List.map_append, List.map_singleton]
  indexed := by
    intro u hu
    rcases List.mem_append.mp hu with hu | hu
    · exact h.indexed u hu
    · rwa [List.mem_singleton.mp hu]
  named := by
    intro u hu
    rcases List.mem_append.mp hu with hu | hu
    · simp [h.named u hu]
    · simp [List.mem_singleton.mp hu]
  distinct := by
    rw [List.map_append, List.map_singleton, List.nodup_append]
    refine ⟨h.distinct, List.nodup_singleton _, fun name hname _ hnew => ?_⟩
    obtain ⟨u, hu, rfl⟩ := List.mem_map.mp hname
    rw [List.mem_singleton.mp hnew]
    exact ne_of_mem_of_not_mem (h.named u hu) hfresh
  onDisk := by
    intro u hu
    rcases List.mem_append.mp hu with hu | hu
    · exact (FileSystem.set_of_ne (ne_of_mem_of_not_mem (h.named u hu) hfresh) _ _).trans
        (h.onDisk u hu)
    · rw [List.mem_singleton.mp hu]
      exact FileSystem.set_self _ _ _
  shows := by
    intro key hkey
    rw [newest_append, newest_singleton, hrecords, lookup_contents, lastWrite_append,
      Option.map_or]
    exact live_or (h.shows key hkey)

/-- A compacted table takes the place of the oldest. -/
theorem Holds.compact (h : Holds names ops s ts) (k : ℕ) {t : L0Table}
    (hindexed : interval t.opts = 1) (hfresh : t.filename ∉ names)
    (hrecords : t.records = retain (extracted (ts.take k))) :
    Holds (names ++ [t.filename]) ops
      ⟨removeAll (s.fs.set t.filename (some t.file)) ((ts.take k).map L0Table.reader),
        t.reader :: s.readers.drop k⟩ (t :: ts.drop k) where
  readers := by rw [h.readers, List.map_cons, List.map_drop]
  indexed := by
    intro u hu
    rcases List.mem_cons.mp hu with rfl | hu
    · exact hindexed
    · exact h.indexed u (List.mem_of_mem_drop hu)
  named := by
    intro u hu
    rcases List.mem_cons.mp hu with rfl | hu
    · simp
    · simp [h.named u (List.mem_of_mem_drop hu)]
  distinct := by
    rw [List.map_cons, List.nodup_cons]
    refine ⟨fun hmem => ?_, (h.distinct.sublist ((List.drop_sublist k ts).map _))⟩
    obtain ⟨u, hu, hname⟩ := List.mem_map.mp hmem
    exact hfresh (hname ▸ h.named u (List.mem_of_mem_drop hu))
  onDisk := by
    -- what is removed are the files of the compacted tables
    have hremoved : ∀ name, (∀ u ∈ ts.take k, u.filename ≠ name) →
        removeAll (s.fs.set t.filename (some t.file)) ((ts.take k).map L0Table.reader) name =
          s.fs.set t.filename (some t.file) name := by
      intro name hname
      apply removeAll_of_ne
      intro r hr
      obtain ⟨u, hu, rfl⟩ := List.mem_map.mp hr
      rw [u.opened.2]
      exact hname u hu
    intro u hu
    dsimp only
    rcases List.mem_cons.mp hu with rfl | hu
    · rw [hremoved, FileSystem.set_self]
      exact fun v hv => ne_of_mem_of_not_mem (h.named v (List.mem_of_mem_take hv)) hfresh
    · have hsplit : (ts.take k).map L0Table.filename ++ (ts.drop k).map L0Table.filename =
          ts.map L0Table.filename := by
        rw [← List.map_append, List.take_append_drop]
      have hdisjoint := List.disjoint_of_nodup_append (hsplit ▸ h.distinct)
      have hmem := List.mem_of_mem_drop hu
      rw [hremoved, FileSystem.set_of_ne (ne_of_mem_of_not_mem (h.named u hmem) hfresh)]
      · exact h.onDisk u hmem
      · exact fun v hv heq => hdisjoint (List.mem_map_of_mem hv) (heq ▸ List.mem_map_of_mem hu)
  shows := by
    intro key hkey
    have hlive := live_compacted (fun u hu => h.indexed u (List.mem_of_mem_take hu)) hrecords hkey
    rw [newest_cons, live_or hlive, ← newest_append, List.take_append_drop]
    exact h.shows key hkey

/-- **One use succeeds**, and the tables go on showing what was written. -/
theorem Holds.step (h : Holds names ops s ts) (hone : opts.sparseInterval = 1)
    (hfresh : x.filename ∉ names) (hgranted : s.Granted create memOpts opts x) :
    ∃ s' ts', s.step create memOpts opts x = .ok s' ∧
      Holds (names ++ [x.filename]) (ops ++ x.writes) s' ts' := by
  have hpos : 1 ≤ opts.sparseInterval := by omega
  cases x with
  | build ops expectedEntries filename =>
    obtain ⟨hlevels, hfit, bf, hcreate, hbf, hsize⟩ := hgranted
    obtain ⟨m, hrun, hm⟩ := models_run memOpts ops hlevels
    obtain ⟨t, hrecords, hopts, rfl, hbuild⟩ :=
      exists_table hm hfit filename expectedEntries hpos hcreate hbf hsize
    refine ⟨_, _, ?_, h.build (hopts ▸ interval_of_one hone) hfresh hrecords⟩
    simp only [Tables.step, hrun, hbuild]
  | compact k level filename =>
    obtain ⟨hne, hlevel, hsmall⟩ := hgranted
    have hreaders : s.readers.take k = (ts.take k).map L0Table.reader := by
      rw [h.readers, List.map_take]
    rw [hreaders] at hne hsmall
    obtain ⟨bf, hcreate, hbf, hsize⟩ := hsmall _ (extract_readers _)
    obtain ⟨t, hrecords, hopts, rfl, hrun⟩ := exists_compacted filename hlevel hpos hcreate hbf
      hsize none s.fs (by simpa using hne)
    refine ⟨_, _, ?_, (List.append_nil ops).symm ▸
      h.compact k (hopts ▸ interval_of_one hone) hfresh hrecords⟩
    simp only [Tables.step, hreaders, hrun]

/-- A lookup in the readers of tables finds the newest record. -/
private theorem mergedGet_reverse (key : Bytes) (ts : List L0Table) :
    mergedGet key (ts.map L0Table.reader).reverse = .ok (answer (newest ts key)) := by
  induction ts using List.reverseRecOn with
  | nil => rfl
  | append_singleton ts t ih =>
    rw [List.map_append, List.map_singleton, List.reverse_append, List.reverse_singleton,
      List.singleton_append, newest_append, newest_singleton, mergedGet, t.get]
    cases Assoc.lookup Entry.key key t.records with
    | none => exact ih
    | some e => rfl

private theorem visible_answer (x : Option Entry) : visible (answer x) = live x := by
  rcases x with _ | ⟨k, v, _ | _⟩ <;> rfl

/-- **A run of uses** that are granted what they need. -/
theorem exists_holds {uses : List Use} (hone : opts.sparseInterval = 1)
    (hnames : (uses.map Use.filename).Nodup)
    (hgranted : ∀ i u x, uses[i]? = some x →
      Run.Reached (step create memOpts opts) empty (uses.take i) u →
      u.Granted create memOpts opts x) :
    ∃ s, uses.foldlM (step create memOpts opts) empty = pure s ∧
      Run.Reached (step create memOpts opts) empty uses s ∧
      ∃ ts, Holds (uses.map Use.filename) (uses.flatMap Use.writes) s ts := by
  have hempty : Holds [] [] empty [] :=
    ⟨rfl, by simp, by simp, List.nodup_nil, by simp, fun _ _ => rfl⟩
  refine Run.exists_foldlM (m := Except CompactionError)
    (I := fun done (s : Tables) => Run.Reached (step create memOpts opts) empty done s ∧
      ∃ ts, Holds (done.map Use.filename) (done.flatMap Use.writes) s ts)
    ⟨rfl, [], hempty⟩ ?_
  rintro done x rest u rfl ⟨hu, ts, h⟩
  have hfresh : x.filename ∉ done.map Use.filename := by
    rw [List.map_append, List.map_cons, List.nodup_append] at hnames
    exact fun hmem => hnames.2.2 _ hmem _ (by simp) rfl
  have hx := hgranted done.length u x (by simp) (by rwa [List.take_left' rfl])
  obtain ⟨u', ts', hstep, h'⟩ := h.step hone hfresh hx
  refine ⟨u', hstep, Run.reached_snoc.mpr ⟨u, hu, hstep⟩, ts', ?_⟩
  simpa using h'

/-- **Tables refine a map.**  With every record in the index, start without tables and take any
    sequence of uses that write files with different names, each of them granted what it needs
    when its turn comes.  All of them succeed.  The files of the open tables are on disk, and a
    lookup from the newest table to the oldest shows, for every key but the sentinel, the value
    that the last write on the key has put, however often the tables were compacted. -/
theorem tables_refine_map (create : ℕ → Float → Option LumaflyBloom) (memOpts : MemTableOptions)
    (opts : SSTableOptions) (uses : List Use) (hone : opts.sparseInterval = 1)
    (hnames : (uses.map Use.filename).Nodup)
    (hgranted : ∀ i u x, uses[i]? = some x →
      Run.Reached (step create memOpts opts) empty (uses.take i) u →
      u.Granted create memOpts opts x) :
    ∃ s, Run.Reached (step create memOpts opts) empty uses s ∧
      (∀ r ∈ s.readers, s.fs r.filename = r.file) ∧
      ∀ key, key ≠ sentinel.key → ∃ res, mergedGet key s.readers.reverse = .ok res ∧
        visible res = live ((lastWrite (uses.flatMap Use.writes) key).map Op.entry) := by
  obtain ⟨s, _, hs, ts, h⟩ := exists_holds hone hnames hgranted
  refine ⟨s, hs, ?_, fun key hkey => ⟨answer (newest ts key), ?_, ?_⟩⟩
  · intro r hr
    rw [h.readers] at hr
    obtain ⟨t, ht, rfl⟩ := List.mem_map.mp hr
    rw [t.opened.2, t.reader_file]
    exact h.onDisk t ht
  · rw [h.readers]
    exact mergedGet_reverse key ts
  · rw [visible_answer]
    exact h.shows key hkey

/-- Two tables, the second of which deletes the key of the first, and a compaction of both. -/
def deleteAndCompact : List Use :=
  [.build [(.put [1] [10], 1)] 1 ['a'], .build [(.delete [1], 1), (.put [2] [20], 1)] 2 ['b'],
    .compact 2 (fun _ => 1) ['c']]

/-- Every use in that run has its filter and its levels. -/
private theorem deleteAndCompact_granted (i : ℕ) (u : Tables) (x : Use)
    (hx : deleteAndCompact[i]? = some x)
    (hu : Run.Reached (step (fun _ _ => some smallFilter) ⟨2, 0⟩ ⟨1, 0.01⟩) empty
      (deleteAndCompact.take i) u) :
    u.Granted (fun _ _ => some smallFilter) ⟨2, 0⟩ ⟨1, 0.01⟩ x := by
  have hsmall : ∀ l, (tableBytes l (indexOf (interval ⟨1, 0.01⟩) l) smallFilter).length ≤ 2 ^ 48 →
      ∃ bf, some smallFilter = some bf ∧ bf.Zeroed ∧
        (tableBytes l (indexOf (interval ⟨1, 0.01⟩) l) bf).length ≤ 2 ^ 48 :=
    fun l hl => ⟨smallFilter, rfl, smallFilter_zeroed, hl⟩
  rcases i with _ | _ | _ | i
  · obtain rfl := Option.some.inj hx
    exact ⟨by decide, by decide, hsmall _ (by rw [length_tableBytes]; decide +kernel)⟩
  · obtain rfl := Option.some.inj hx
    exact ⟨by decide, by decide, hsmall _ (by rw [length_tableBytes]; decide +kernel)⟩
  · obtain rfl := Option.some.inj hx
    -- what is extracted from the two tables
    let view : Tables → ℕ × Option (List Entry) := fun u =>
      ((u.readers.take 2).length, (extract (u.readers.take 2)).toOption)
    have hview : view u = (2, some [⟨[1], [], true⟩, ⟨[2], [20], false⟩]) :=
      hu.view_eq (by decide +kernel)
    obtain ⟨hlen, hextract⟩ := Prod.mk.inj hview
    refine ⟨fun hnil => ?_, levelsOk_one, fun entries hentries => ?_⟩
    · rw [hnil] at hlen
      cases hlen
    · rw [hentries] at hextract
      obtain rfl := Option.some.inj hextract
      exact hsmall _ (by rw [length_tableBytes]; decide +kernel)
  · cases hx

/-- The deleted key stays deleted and the other one is found. -/
theorem tables_refine_map_three : ∃ s,
    Run.Reached (step (fun _ _ => some smallFilter) ⟨2, 0⟩ ⟨1, 0.01⟩) empty deleteAndCompact s ∧
    ∃ res res', mergedGet [1] s.readers.reverse = .ok res ∧ visible res = none ∧
      mergedGet [2] s.readers.reverse = .ok res' ∧ visible res' = some [20] := by
  obtain ⟨s, hs, _, hget⟩ := tables_refine_map (fun _ _ => some smallFilter) ⟨2, 0⟩ ⟨1, 0.01⟩
    deleteAndCompact rfl (by decide) deleteAndCompact_granted
  obtain ⟨res, hres, hvisible⟩ := hget [1] (by decide)
  obtain ⟨res', hres', hvisible'⟩ := hget [2] (by decide)
  exact ⟨s, hs, res, res', hres, hvisible, hres', hvisible'⟩

end Tables

end Hallownest.Storage
