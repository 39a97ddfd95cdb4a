import Hallownest.Storage.BitRot
import Hallownest.Storage.Compaction

namespace Hallownest.Storage

/-!
# Storage — compacting damaged tables

Level-0 tables whose data has changed on disk (`DamagedTable`), and a compaction in which file
operations may fail.

Whenever `CompactL0ToL1` returns an error, all tables are as they were.  But it does not return
one because a key could not be read: the loop over the index goes on with the next key, keys that
are not in the index are not read at all, and the tables are deleted once the new one is built.
An error is returned only if the new table cannot be built (`BuildFails`), and a panic of `Get` is
not caught; `compaction_reports_iff` puts this together.
-/

variable {S : ℕ} {bf : LumaflyBloom} {l : List Entry}

/-! ### Building when file operations fail -/

/-- The file operations of a build with `n` records, in the order in which they are made. -/
def buildOps (n : ℕ) : List FileOp :=
  .create :: (List.range n).map FileOp.record ++ [.index, .filter, .footer, .sync]

theorem mem_buildOps {n : ℕ} {op : FileOp} : op ∈ buildOps n ↔
    op = .create ∨ (∃ i < n, op = .record i) ∨ op ∈ [FileOp.index, .filter, .footer, .sync] := by
  unfold buildOps
  rw [List.cons_append, List.mem_cons, List.mem_append, List.mem_map]
  simp only [List.mem_range, eq_comm]

/-- The filter cannot be created, or one of the file operations fails. -/
def BuildFails (create : ℕ → Float → Option LumaflyBloom) (ok : FileOp → Bool) (n : ℕ)
    (opts : SSTableOptions) : Prop :=
  create ((n : Int) % 2 ^ 64).toNat opts.normalize.fpRate = none ∨ ∃ op ∈ buildOps n, ok op = false

section Build

variable {create : ℕ → Float → Option LumaflyBloom} (ok : FileOp → Bool)

private theorem writeNode_of_allOk {b b' : Builder} {node : Node}
    (h : writeNode S allOk b node = .ok b') :
    writeNode S ok b node =
      if ok (.record b.keyCount) then .ok b' else .error (.file (.record b.keyCount)) := by
  unfold writeNode at h ⊢
  cases hadd : orPanic (lumaflyAdd b.filter node.key) with
  | error e => rw [hadd] at h; cases h
  | ok filter =>
    cases hfill : orPanic (fillRecord (headerSize + node.key.length + node.value.length)
        node.key node.value node.tombstone) with
    | error e => rw [hadd, hfill] at h; cases h
    | ok recBuf =>
      rw [hadd, hfill] at h
      cases h
      cases ok (.record b.keyCount) <;> rfl

/-- **The loop over the nodes** is that of a build in which all operations succeed, up to the
    first write that fails. -/
theorem foldlM_writeNode_cases : ∀ (nodes : List Node) {l : List Entry} {b : Builder},
    Built S bf l b → (∀ n ∈ nodes, n.entry.Writable) →
    (dataBlock (l ++ nodes.map Node.entry)).length < 2 ^ 64 →
    ((∀ i, l.length ≤ i → i < l.length + nodes.length → ok (.record i) = true) ∧
        nodes.foldlM (writeNode S ok) b = nodes.foldlM (writeNode S allOk) b) ∨
      ∃ i, l.length ≤ i ∧ i < l.length + nodes.length ∧ ok (.record i) = false ∧
        nodes.foldlM (writeNode S ok) b = .error (.file (.record i)) := by
  intro nodes
  induction nodes with
  | nil =>
    intro l b _ _ _
    exact Or.inl ⟨fun i hlo hhi => absurd hhi (by simpa using hlo), rfl⟩
  | cons n nodes ih =>
    intro l b hb hw hsize
    rw [List.map_cons, List.append_cons] at hsize
    have hstep : (dataBlock (l ++ [n.entry])).length < 2 ^ 64 := by
      rw [dataBlock_append, List.length_append] at hsize
      omega
    obtain ⟨b₁, hrun₁, hb₁⟩ := writeNode_spec hb (hw n (by simp)) hstep
    have hround := writeNode_of_allOk ok hrun₁
    rw [hb.count] at hround
    rw [List.foldlM_cons, List.foldlM_cons, hrun₁, hround, List.length_cons]
    cases hok : ok (.record l.length) with
    | false => exact Or.inr ⟨l.length, le_refl _, by omega, hok, rfl⟩
    | true =>
      have hrest := ih hb₁ (fun m hm => hw m (by simp [hm])) hsize
      rw [List.length_append, List.length_singleton] at hrest
      rcases hrest with ⟨hall, heq⟩ | ⟨i, hlo, hhi, hno, heq⟩
      · refine Or.inl ⟨fun i hlo hhi => ?_, heq⟩
        rcases Nat.eq_or_lt_of_le hlo with rfl | hlt
        · exact hok
        · exact hall i (by omega) (by omega)
      · exact Or.inr ⟨i, by omega, by omega, hno, heq⟩

/-- The blocks behind the data are written, up to the first operation that fails. -/
theorem writeBlocks_cases {b : Builder} {file : Bytes} (h : writeBlocks allOk b = .ok file) :
    ((∀ op ∈ [FileOp.index, .filter, .footer, .sync], ok op = true) ∧
        writeBlocks ok b = .ok file) ∨
      ∃ op ∈ [FileOp.index, .filter, .footer, .sync], ok op = false ∧
        writeBlocks ok b = .error (.file op) := by
  unfold writeBlocks at h ⊢
  rw [LumaflyBloom.lumaflySerialize_eq] at h ⊢
  cases h
  cases hindex : ok .index with
  | false => exact Or.inr ⟨.index, by simp, hindex, rfl⟩
  | true =>
    cases hfilter : ok .filter with
    | false => exact Or.inr ⟨.filter, by simp, hfilter, rfl⟩
    | true =>
      cases hfooter : ok .footer with
      | false => exact Or.inr ⟨.footer, by simp, hfooter, rfl⟩
      | true =>
        cases hsync : ok .sync with
        | false => exact Or.inr ⟨.sync, by simp, hsync, rfl⟩
        | true => exact Or.inl ⟨by simp [hindex, hfilter, hfooter, hsync], rfl⟩

/-- The table is written, up to the first operation that fails. -/
theorem writeTable_cases {m : MemTable} {expectedEntries : Int} {opts : SSTableOptions}
    (hm : Models m l) (hw : ∀ e ∈ l, e.Writable)
    (hcreate : create (expectedEntries % 2 ^ 64).toNat opts.normalize.fpRate = some bf)
    (hbf : bf.Zeroed) (hsize : (tableBytes l (indexOf (interval opts) l) bf).length < 2 ^ 64) :
    ((∀ op ∈ buildOps l.length, ok op = true) ∧
        writeTable create ok m expectedEntries opts =
          writeTable create allOk m expectedEntries opts) ∨
      ∃ op ∈ buildOps l.length, ok op = false ∧
        writeTable create ok m expectedEntries opts = .error (.file op) := by
  obtain ⟨nodes, hdrain, hnodes⟩ := hm.drain
  have hlen : nodes.length = l.length := by rw [← hnodes, List.length_map]
  have hw' : ∀ n ∈ nodes, n.entry.Writable := fun n hn => hw _ (hnodes ▸ List.mem_map_of_mem hn)
  have hdata : (dataBlock (nodes.map Node.entry)).length < 2 ^ 64 := by
    rw [length_tableBytes] at hsize
    rw [hnodes]
    omega
  obtain ⟨b, hrun, hb⟩ := foldlM_writeNode (built_empty (interval opts) hbf) hw' hdata
  rw [hnodes] at hb
  rw [← length_tableBytes_congr _ hb.size] at hsize
  have hblocks := writeBlocks_eq hb hsize
  -- the steps of the build
  have hsteps : ∀ ok, ok .create = true → writeTable create ok m expectedEntries opts =
      (nodes.foldlM (writeNode (interval opts) ok) (emptyBuilder bf)).bind (writeBlocks ok) := by
    intro ok hok
    unfold writeTable
    dsimp only
    rw [hcreate, hdrain, hok]
    rfl
  have hall := hsteps allOk rfl
  rw [hrun] at hall
  cases hcr : ok .create with
  | false =>
    refine Or.inr ⟨.create, mem_buildOps.mpr (Or.inl rfl), hcr, ?_⟩
    unfold writeTable
    rw [hcr]
    rfl
  | true =>
    rw [hsteps ok hcr, hall]
    rcases foldlM_writeNode_cases ok nodes (built_empty (interval opts) hbf) hw' hdata with
      ⟨hrecords, heq⟩ | ⟨i, _, hi, hno, heq⟩
    · rw [heq, hrun]
      rcases writeBlocks_cases ok hblocks with ⟨hrest, heq⟩ | ⟨op, hop, hno, heq⟩
      · refine Or.inl ⟨fun op hop => ?_, heq.trans hblocks.symm⟩
        rcases mem_buildOps.mp hop with rfl | ⟨i, hi, rfl⟩ | hop
        · exact hcr
        · exact hrecords i (Nat.zero_le i) (by rw [hlen]; simpa using hi)
        · exact hrest op hop
      · exact Or.inr ⟨op, mem_buildOps.mpr (Or.inr (Or.inr hop)), hno, heq⟩
    · have hlt : i < l.length := by simpa [hlen] using hi
      exact Or.inr ⟨.record i, mem_buildOps.mpr (Or.inr (Or.inl ⟨i, hlt, rfl⟩)), hno,
        by rw [heq]; rfl⟩

/-- **A build fails** with an error if the filter cannot be created or a file operation fails,
    and otherwise it succeeds. -/
theorem buildSSTable_cases {m : MemTable} {opts : SSTableOptions} (filename : List Char)
    (hm : Models m l) (hw : ∀ e ∈ l, e.Writable)
    (hcreate : ∀ bf, create ((l.length : Int) % 2 ^ 64).toNat opts.normalize.fpRate = some bf →
      bf.Zeroed ∧ (tableBytes l (indexOf (interval opts) l) bf).length ≤ 2 ^ 48) :
    (BuildFails create ok l.length opts ∧ ∃ err, err ≠ .panic ∧
        buildSSTable create ok filename m l.length opts = .error err) ∨
      ¬ BuildFails create ok l.length opts ∧
        ∃ p, buildSSTable create ok filename m l.length opts = .ok p := by
  cases hc : create ((l.length : Int) % 2 ^ 64).toNat opts.normalize.fpRate with
  | none =>
    refine Or.inl ⟨Or.inl hc, ?_⟩
    have hwrite : ∃ err, err ≠ .panic ∧
        writeTable create ok m (l.length : Int) opts = .error err := by
      unfold writeTable
      dsimp only
      rw [hc]
      cases ok .create with
      | false => exact ⟨.file .create, by simp, rfl⟩
      | true => exact ⟨.createFilter, by simp, rfl⟩
    obtain ⟨err, hne, herr⟩ := hwrite
    exact ⟨err, hne, by rw [buildSSTable, herr]; rfl⟩
  | some bf =>
    obtain ⟨hbf, hsize⟩ := hcreate bf hc
    rcases writeTable_cases ok hm hw hc hbf (by omega) with ⟨hall, heq⟩ | ⟨op, hop, hno, heq⟩
    · refine Or.inr ⟨?_, ?_⟩
      · rintro (hnone | ⟨op, hop, hno⟩)
        · rw [hc] at hnone
          cases hnone
        · rw [hall op hop] at hno
          cases hno
      · obtain ⟨file, r, hbuild, _⟩ := buildSSTable_spec create _ filename hm hw hc hbf hsize
        refine ⟨(file, r), ?_⟩
        rw [← hbuild, buildSSTable, buildSSTable, heq]
    · refine Or.inl ⟨Or.inr ⟨op, hop, hno⟩, .file op, by simp, ?_⟩
      rw [buildSSTable, heq]
      rfl

end Build

/-! ### Extracting what can be read -/

/-- The record that `Get` returns for a key, if it returns one. -/
def readOf (r : SSTableReader) (key : Bytes) : Option Entry :=
  match r.get key with
  | .ok (value, tombstone, true) => some ⟨key, value, tombstone⟩
  | _ => none

/-- The records of a table whose keys are in the index and can be read. -/
def readIndexed (r : SSTableReader) : List Entry := r.index.filterMap fun ie => readOf r ie.key

/-- The records that tables contribute. -/
def readable (rs : List SSTableReader) : List Entry :=
  rs.foldl (fun acc r => Assoc.merge Entry.key acc (readIndexed r)) []

/-- `Get` does not panic on a key in the index. -/
def SSTableReader.Quiet (r : SSTableReader) : Prop :=
  ∀ ie ∈ r.index, r.get ie.key ≠ .error .panic

/-- **One round of the extraction.**  An error is skipped, a panic is not. -/
theorem extractEntry_eq (r : SSTableReader) (acc : List Entry) (ie : IndexEntry) :
    extractEntry r acc ie =
      if r.get ie.key = .error .panic then .error .panic
      else .ok (Assoc.merge Entry.key acc (readOf r ie.key).toList) := by
  unfold extractEntry readOf
  cases hget : r.get ie.key with
  | error e => cases e <;> rfl
  | ok res =>
    obtain ⟨value, tombstone, found⟩ := res
    cases found <;> rfl

private theorem merge_append (acc es es' : List Entry) :
    Assoc.merge Entry.key acc (es ++ es') =
      Assoc.merge Entry.key (Assoc.merge Entry.key acc es) es' := List.foldl_append

/-- **The loop over one index.** -/
theorem foldlM_extractEntry (r : SSTableReader) (ies : List IndexEntry) (acc : List Entry) :
    ((∀ ie ∈ ies, r.get ie.key ≠ .error .panic) ∧ ies.foldlM (extractEntry r) acc =
        .ok (Assoc.merge Entry.key acc (ies.filterMap fun ie => readOf r ie.key))) ∨
      (∃ ie ∈ ies, r.get ie.key = .error .panic) ∧
        ies.foldlM (extractEntry r) acc = .error .panic := by
  induction ies generalizing acc with
  | nil => exact Or.inl ⟨by simp, rfl⟩
  | cons ie ies ih =>
    rw [List.foldlM_cons, extractEntry_eq]
    by_cases hpanic : r.get ie.key = .error .panic
    · rw [if_pos hpanic]
      exact Or.inr ⟨⟨ie, by simp, hpanic⟩, rfl⟩
    · rw [if_neg hpanic]
      have hcons : (ie :: ies).filterMap (fun ie => readOf r ie.key) =
          (readOf r ie.key).toList ++ ies.filterMap fun ie => readOf r ie.key := by
        rw [List.filterMap_cons]
        cases readOf r ie.key <;> rfl
      rw [hcons, merge_append]
      rcases ih (Assoc.merge Entry.key acc (readOf r ie.key).toList) with
        ⟨hquiet, heq⟩ | ⟨⟨ie', hie', hget⟩, heq⟩
      · refine Or.inl ⟨fun ie' hie' => ?_, heq⟩
        rcases List.mem_cons.mp hie' with rfl | hie'
        · exact hpanic
        · exact hquiet ie' hie'
      · exact Or.inr ⟨⟨ie', by simp [hie'], hget⟩, heq⟩

/-- **The extraction** panics if a lookup does, and otherwise yields what can be read. -/
theorem extract_cases (rs : List SSTableReader) :
    ((∀ r ∈ rs, r.Quiet) ∧ extract rs = .ok (readable rs)) ∨
      (¬ ∀ r ∈ rs, r.Quiet) ∧ extract rs = .error .panic := by
  unfold extract readable
  generalize ([] : List Entry) = acc
  induction rs generalizing acc with
  | nil => exact Or.inl ⟨by simp, rfl⟩
  | cons r rs ih =>
    rw [List.foldlM_cons, List.forall_mem_cons]
    rcases foldlM_extractEntry r r.index acc with ⟨hquiet, heq⟩ | ⟨⟨ie, hie, hget⟩, heq⟩
    · rw [heq]
      rcases ih (Assoc.merge Entry.key acc (readIndexed r)) with ⟨hall, heq⟩ | ⟨hnot, heq⟩
      · exact Or.inl ⟨⟨hquiet, hall⟩, heq⟩
      · exact Or.inr ⟨fun h => hnot h.2, heq⟩
    · rw [heq]
      exact Or.inr ⟨fun h => h.1 ie hie hget, rfl⟩

private theorem sorted_readable (rs : List SSTableReader) :
    Assoc.Sorted Entry.key (readable rs) := by
  unfold readable
  induction rs using List.reverseRecOn with
  | nil => exact List.Pairwise.nil
  | append_singleton rs r ih =>
    rw [List.foldl_append]
    exact Assoc.sorted_merge ih _

private theorem mem_readable {rs : List SSTableReader} {e : Entry} (h : e ∈ readable rs) :
    ∃ r ∈ rs, ∃ ie ∈ r.index, readOf r ie.key = some e := by
  unfold readable at h
  induction rs using List.reverseRecOn with
  | nil => cases h
  | append_singleton rs r ih =>
    rw [List.foldl_append] at h
    rcases Assoc.mem_merge h with h | h
    · obtain ⟨r', hr', hie⟩ := ih h
      exact ⟨r', by simp [hr'], hie⟩
    · obtain ⟨ie, hie, hread⟩ := List.mem_filterMap.mp h
      exact ⟨r, by simp, ie, hie, hread⟩

/-- A value that is found in a block has a 32-bit length. -/
private theorem length_of_scanBlock {key value : Bytes} {tombstone : Bool} :
    ∀ {fuel : ℕ} {bs : Bytes}, scanBlock key fuel bs = .ok (value, tombstone, true) →
      value.length < 2 ^ 32 := by
  intro fuel
  induction fuel with
  | zero => intro bs h; cases h
  | succ fuel ih =>
    intro bs h
    rw [scanBlock] at h
    cases hread : readRecord bs with
    | stop => rw [hread] at h; cases h
    | fail e => rw [hread] at h; cases e <;> cases h
    | item l rest =>
      obtain ⟨hgood, rfl, _⟩ := readRecord_item_iff.mp hread
      rw [hread] at h
      dsimp only at h
      split at h
      · cases h
        rw [hgood.lengths.2]
        exact valLenOf_lt bs
      · split at h
        · cases h
        · exact ih h

theorem exists_of_bind_eq_ok {α β ε : Type} {x : Except ε α} {f : α → Except ε β} {y : β}
    (h : x >>= f = .ok y) : ∃ a, x = .ok a ∧ f a = .ok y := by
  cases x with
  | error err => cases h
  | ok a => exact ⟨a, rfl, h⟩

private theorem length_of_get {r : SSTableReader} {key value : Bytes} {tombstone : Bool}
    (h : r.get key = .ok (value, tombstone, true)) : value.length < 2 ^ 32 := by
  unfold SSTableReader.get at h
  obtain ⟨contains, _, h⟩ := exists_of_bind_eq_ok h
  split at h
  · cases h
  · split at h
    · cases h
    · obtain ⟨_, _, h⟩ := exists_of_bind_eq_ok h
      obtain ⟨_, _, h⟩ := exists_of_bind_eq_ok h
      obtain ⟨_, _, h⟩ := exists_of_bind_eq_ok h
      exact length_of_scanBlock h

/-- What is extracted can be written into a table. -/
private theorem writable_readable {rs : List SSTableReader}
    (hkeys : ∀ r ∈ rs, ∀ ie ∈ r.index, headerSize + ie.key.length < 2 ^ 32) :
    ∀ e ∈ retain (readable rs), e.Writable := by
  intro e he
  rcases mem_retain he with rfl | he
  · exact ⟨by decide, by decide⟩
  · obtain ⟨r, hr, ie, hie, hread⟩ := mem_readable he
    have hkey := hkeys r hr ie hie
    unfold readOf at hread
    split at hread
    · rename_i value tombstone hget
      cases hread
      exact ⟨hkey, length_of_get hget⟩
    · cases hread

/-! ### Compacting any tables -/

/-- The compaction returns an error: it neither succeeds nor panics. -/
def Compaction.ReturnsError (c : Compaction) : Prop :=
  ∃ e, c.result = .error e ∧ e ≠ .panic ∧ e ≠ .build .panic

section Compact

variable (create : ℕ → Float → Option LumaflyBloom) (ok : FileOp → Bool) {level : ℕ → ℕ}
  (left : Option Bytes) (fs : FileSystem) {rs : List SSTableReader} (destFile : List Char)
  (sstOpts : SSTableOptions)

/-- **What a compaction returns.**  It panics if a lookup of an indexed key does, it returns an
    error if the new table cannot be built, and otherwise it succeeds and the tables are gone. -/
theorem compactL0ToL1_cases (hne : rs ≠ []) (hlevel : LevelsOk level)
    (hkeys : ∀ r ∈ rs, ∀ ie ∈ r.index, headerSize + ie.key.length < 2 ^ 32)
    (hcreate : ∀ bf, create (((retain (readable rs)).length : Int) % 2 ^ 64).toNat
      sstOpts.normalize.fpRate = some bf → bf.Zeroed ∧
        (tableBytes (retain (readable rs))
          (indexOf (interval sstOpts) (retain (readable rs))) bf).length ≤ 2 ^ 48) :
    let c := compactL0ToL1 create ok level left fs rs destFile sstOpts
    ((¬ ∀ r ∈ rs, r.Quiet) ∧ c.result = .error .panic) ∨
      ((∀ r ∈ rs, r.Quiet) ∧ BuildFails create ok (retain (readable rs)).length sstOpts ∧
        ∃ err, err ≠ .panic ∧ c = ⟨fs.set destFile left, rs, .error (.build err)⟩) ∨
      ((∀ r ∈ rs, r.Quiet) ∧ ¬ BuildFails create ok (retain (readable rs)).length sstOpts ∧
        ∃ file l1Reader, c = ⟨removeAll (fs.set destFile (some file)) rs,
          rs.map SSTableReader.close, .ok l1Reader⟩) := by
  have hlen : ¬ rs.length = 0 := by simpa using hne
  rcases extract_cases rs with ⟨hquiet, hextract⟩ | ⟨hnot, hextract⟩
  · obtain ⟨m, hput, hm⟩ := putAll_spec hlevel (sorted_retain (sorted_readable rs))
      fun e he => tombstone_of_mem_retain he
    refine Or.inr ?_
    rcases buildSSTable_cases ok destFile hm (writable_readable hkeys) hcreate with
      ⟨hfails, err, hpanic, hbuild⟩ | ⟨hfails, ⟨file, r⟩, hbuild⟩
    · refine Or.inl ⟨hquiet, hfails, err, hpanic, ?_⟩
      unfold compactL0ToL1
      rw [if_neg hlen, hextract]
      simp only [hput, hbuild]
    · refine Or.inr ⟨hquiet, hfails, file, r, ?_⟩
      unfold compactL0ToL1
      rw [if_neg hlen, hextract]
      simp only [hput, hbuild]
  · refine Or.inl ⟨hnot, ?_⟩
    unfold compactL0ToL1
    rw [if_neg hlen, hextract]

/-- **A compaction that does not succeed** leaves the tables as they were. -/
theorem tables_kept (hdest : ∀ r ∈ rs, r.filename ≠ destFile) :
    let c := compactL0ToL1 create ok level left fs rs destFile sstOpts
    (∃ l1Reader, c.result = .ok l1Reader) ∨
      c.l0Readers = rs ∧ ∀ r ∈ rs, c.fs r.filename = fs r.filename := by
  unfold compactL0ToL1
  dsimp only
  split
  · exact Or.inr ⟨rfl, fun _ _ => rfl⟩
  · split
    · exact Or.inr ⟨rfl, fun _ _ => rfl⟩
    · split
      · exact Or.inr ⟨rfl, fun _ _ => rfl⟩
      · split
        · -- a failed build leaves something in the destination only
          exact Or.inr ⟨rfl, fun r hr => if_neg (hdest r hr)⟩
        · exact Or.inl ⟨_, rfl⟩

end Compact

/-! ### Damaged tables -/

/-- A level-0 table whose data on disk is no longer what was written. -/
structure DamagedTable where
  table : L0Table
  data : Bytes
  length_data : data.length = (dataBlock table.records).length

namespace DamagedTable

/-- Its reader, which has been opened before or after the damage. -/
def reader (t : DamagedTable) : SSTableReader :=
  { t.table.reader with
    file := t.table.reader.file.map fun file => t.data ++ file.drop t.data.length }

/-- `Get` returns an error for a key. -/
def ReadFails (t : DamagedTable) (key : Bytes) : Prop :=
  ∃ err, t.reader.get key = .error err ∧ err ≠ .panic

theorem filename_reader (t : DamagedTable) : t.reader.filename = t.table.filename :=
  t.table.opened.2

/-- The keys of the index are keys of records that fit. -/
theorem key_lt (t : DamagedTable) : ∀ ie ∈ t.reader.index, headerSize + ie.key.length < 2 ^ 32 := by
  intro ie hie
  have hindex : t.reader.index = indexOf (interval t.table.opts) t.table.records :=
    t.table.index_eq
  rw [hindex] at hie
  obtain ⟨p, e, hp, _, hkey, _⟩ := mem_indexOf hie
  rw [hkey]
  exact (t.table.fits e (List.mem_of_getElem? hp)).writable.1

theorem reader_eq (t : DamagedTable) : ∃ filename bf,
    t.reader = readerWith filename t.data t.table.records
      (indexOf (interval t.table.opts) t.table.records) bf ∧
    bf.WellFormed ∧ bf.Covers (t.table.records.map Entry.key) ∧
    (tableBytes t.table.records (indexOf (interval t.table.opts) t.table.records) bf).length ≤
      2 ^ 48 := by
  obtain ⟨filename, bf, hr, hbf, hcov, hsize⟩ := t.table.opened.1
  refine ⟨filename, bf, ?_, hbf, hcov, hsize⟩
  unfold reader readerWith
  rw [hr]
  unfold readerOf tableBytes tableWith
  simp only [Option.map_some, List.append_assoc, List.drop_left' t.length_data.symm]

/-- A record with a changed byte outside its lengths cannot be read. -/
private theorem get_changed_record (t : DamagedTable) (pre post : List Entry) {e : Entry} {o : ℕ}
    {b : UInt8} (hrecords : t.table.records = pre ++ e :: post)
    (hdata : t.data = changedData pre e post o b) (ho : o < e.record.length)
    (hb : b ≠ e.record[o]) (hout : o < 4 ∨ 12 ≤ o) :
    ∃ expected actual, t.reader.get e.key = .error (.crcMismatch expected actual) := by
  obtain ⟨filename, bf, hr, hbf, hcov, hsize⟩ := t.reader_eq
  have hsorted := t.table.sorted
  have hfit := t.table.fits
  have hS := interval_pos t.table.opts
  rw [hrecords, hdata] at hr
  rw [hrecords] at hsorted hfit hcov hsize
  have hreach : Reaches (readerOf filename (pre ++ e :: post)
      (indexOf (interval t.table.opts) (pre ++ e :: post)) bf) (interval t.table.opts) pre e.key :=
    reaches_key hS hsorted hbf hcov
  rw [hr, (get_changed hS hsorted hfit hbf hsize ho e.key).1 hreach, changedBlock,
    scan_bad (badFrame_changed _ (hfit e (by simp)) ho hb hout)]
  exact ⟨_, _, rfl⟩

end DamagedTable

/-- **Compaction of damaged tables.**  Take any level-0 tables with any damage to their data, file
    operations that may fail, and a destination that is none of their files.  Whenever the
    compaction returns an error, all readers and files of the tables are as they were.  It returns
    an error whenever `Get` returns one for a stored key if and only if `Get` returns an error for
    no stored key, or else no lookup of an indexed key panics and the new table cannot be built. -/
theorem compaction_reports_iff (ts : List DamagedTable) (create : ℕ → Float → Option LumaflyBloom)
    (ok : FileOp → Bool) (level : ℕ → ℕ) (left : Option Bytes) (fs : FileSystem)
    (destFile : List Char) (sstOpts : SSTableOptions) (hlevel : LevelsOk level)
    (hdest : ∀ t ∈ ts, t.table.filename ≠ destFile)
    (hcreate : ∀ bf, create
      (((retain (readable (ts.map DamagedTable.reader))).length : Int) % 2 ^ 64).toNat
      sstOpts.normalize.fpRate = some bf → bf.Zeroed ∧
        (tableBytes (retain (readable (ts.map DamagedTable.reader)))
          (indexOf (interval sstOpts) (retain (readable (ts.map DamagedTable.reader))))
          bf).length ≤ 2 ^ 48) :
    let c := compactL0ToL1 create ok level left fs (ts.map DamagedTable.reader) destFile sstOpts
    (c.ReturnsError → c.l0Readers = ts.map DamagedTable.reader ∧
        ∀ t ∈ ts, c.fs t.table.filename = fs t.table.filename) ∧
      ((∀ t ∈ ts, ∀ e ∈ t.table.records, t.ReadFails e.key → c.ReturnsError) ↔
        (∀ t ∈ ts, ∀ e ∈ t.table.records, ¬ t.ReadFails e.key) ∨
          (∀ t ∈ ts, t.reader.Quiet) ∧
            BuildFails create ok (retain (readable (ts.map DamagedTable.reader))).length
              sstOpts) := by
  intro c
  have hdest' : ∀ r ∈ ts.map DamagedTable.reader, r.filename ≠ destFile := by
    intro r hr
    obtain ⟨t, ht, rfl⟩ := List.mem_map.mp hr
    rw [t.filename_reader]
    exact hdest t ht
  have hkeys : ∀ r ∈ ts.map DamagedTable.reader, ∀ ie ∈ r.index,
      headerSize + ie.key.length < 2 ^ 32 := by
    intro r hr
    obtain ⟨t, _, rfl⟩ := List.mem_map.mp hr
    exact t.key_lt
  have hquiet : (∀ r ∈ ts.map DamagedTable.reader, r.Quiet) ↔ ∀ t ∈ ts, t.reader.Quiet :=
    List.forall_mem_map
  constructor
  · rintro ⟨err, herr, _⟩
    rcases tables_kept create ok left fs destFile sstOpts hdest' with ⟨r, hr⟩ | ⟨hreaders, hfiles⟩
    · rw [hr] at herr
      cases herr
    · refine ⟨hreaders, fun t ht => ?_⟩
      have hfile := hfiles t.reader (List.mem_map_of_mem ht)
      rwa [t.filename_reader] at hfile
  · constructor
    · intro hreports
      by_cases hnone : ∀ t ∈ ts, ∀ e ∈ t.table.records, ¬ t.ReadFails e.key
      · exact Or.inl hnone
      · -- there is an error, which did not come from a lookup
        refine Or.inr ?_
        push Not at hnone
        obtain ⟨t, ht, e, he, hfails⟩ := hnone
        obtain ⟨err, herr, hpanic, _⟩ := hreports t ht e he hfails
        have hne : ts.map DamagedTable.reader ≠ [] := List.ne_nil_of_mem (List.mem_map_of_mem ht)
        rcases compactL0ToL1_cases create ok left fs destFile sstOpts hne hlevel hkeys
          hcreate with
          ⟨_, hres⟩ | ⟨hq, hbuild, _⟩ | ⟨_, _, file, r, hc⟩
        · have heq := hres.symm.trans herr
          cases heq
          exact absurd rfl hpanic
        · exact ⟨hquiet.mp hq, hbuild⟩
        · have hres : c.result = .ok r := congrArg Compaction.result hc
          rw [hres] at herr
          cases herr
    · rintro (hnone | ⟨hq, hbuild⟩) t ht e he hfails
      · exact absurd hfails (hnone t ht e he)
      · have hne : ts.map DamagedTable.reader ≠ [] := List.ne_nil_of_mem (List.mem_map_of_mem ht)
        rcases compactL0ToL1_cases create ok left fs destFile sstOpts hne hlevel hkeys
          hcreate with
          ⟨hnot, _⟩ | ⟨_, _, err, hpanic, hc⟩ | ⟨_, hnot, _⟩
        · exact absurd (hquiet.mpr hq) hnot
        · have hres : c.result = .error (.build err) := congrArg Compaction.result hc
          exact ⟨_, hres, by simp, by simpa using hpanic⟩
        · exact absurd hbuild hnot

/-- A table of one record whose value is changed. -/
theorem exists_damaged : ∃ t : DamagedTable, t.table.records = [⟨[1], [2], false⟩] ∧
    t.table.filename = ['a'] ∧ t.ReadFails [1] ∧ t.reader.Quiet ∧ readable [t.reader] = [] := by
  obtain ⟨t, hrecords, hopts, hname⟩ := exists_l0Table ⟨2, 0⟩ [(.put [1] [2], 1)] (by decide)
    (by decide) ['a'] ⟨8, 0.01⟩ (by decide) (by rw [length_tableBytes]; decide +kernel)
  have hone : t.records = [⟨[1], [2], false⟩] := hrecords
  let d : DamagedTable := ⟨t, changedData [] ⟨[1], [2], false⟩ [] 14 9, by
    rw [hone]
    exact length_changedData⟩
  obtain ⟨x, y, hmismatch⟩ := d.get_changed_record [] [] hone rfl (by decide +kernel)
    (by decide +kernel) (Or.inr (by decide))
  have hget : d.reader.get [1] = .error (.crcMismatch x y) := hmismatch
  have hindex : d.reader.index = [⟨[1], 0⟩] := by
    show t.reader.index = _
    rw [t.index_eq, hone, hopts]
    decide +kernel
  have hnone : readOf d.reader [1] = none := by
    unfold readOf
    rw [hget]
  refine ⟨d, hone, hname, ⟨_, hget, by simp⟩, ?_, ?_⟩
  · intro ie hie
    rw [hindex, List.mem_singleton] at hie
    subst hie
    rw [hget]
    simp
  · show Assoc.merge Entry.key [] (d.reader.index.filterMap fun ie => readOf d.reader ie.key) = []
    rw [hindex]
    simp only [List.filterMap_cons, hnone, List.filterMap_nil]
    rfl

/-- The new table cannot be synced: an error is returned and the damaged table is kept. -/
theorem compaction_reports_sync : ∃ t : DamagedTable, t.ReadFails [1] ∧
    let fs := FileSystem.set (fun _ => none) t.table.filename t.reader.file
    let c := compactL0ToL1 (fun _ _ => some smallFilter) (fun op => op != .sync) (fun _ => 1) none
      fs [t.reader] ['b'] ⟨8, 0.01⟩
    c.ReturnsError ∧ c.l0Readers = [t.reader] ∧ c.fs t.table.filename = t.reader.file := by
  obtain ⟨t, hrecords, hname, hfails, hquiet, hread⟩ := exists_damaged
  have hread' : readable ([t].map DamagedTable.reader) = [] := hread
  have hretain : retain (readable ([t].map DamagedTable.reader)) = [sentinel] := by
    rw [hread']
    rfl
  let fs := FileSystem.set (fun _ => none) t.table.filename t.reader.file
  obtain ⟨hkept, hiff⟩ := compaction_reports_iff [t] (fun _ _ => some smallFilter)
    (fun op => op != .sync) (fun _ => 1) none fs ['b'] ⟨8, 0.01⟩ levelsOk_one
    (by simp [hname]) (by
      rintro bf heq
      cases heq
      rw [hretain, length_tableBytes]
      exact ⟨smallFilter_zeroed, by decide +kernel⟩)
  have hreports := hiff.mpr
    (Or.inr ⟨by simpa using hquiet, Or.inr ⟨.sync, by simp [buildOps], rfl⟩⟩)
  have herror := hreports t (by simp) ⟨[1], [2], false⟩ (by simp [hrecords]) hfails
  obtain ⟨hreaders, hfiles⟩ := hkept herror
  exact ⟨t, hfails, herror, hreaders, (hfiles t (by simp)).trans (if_pos rfl)⟩

/-- The key of a damaged table cannot be read.  The compaction succeeds, and the table is gone. -/
theorem compaction_deletes_unread : ∃ (t : DamagedTable) (l1Reader : SSTableReader),
    t.table.records = [⟨[1], [2], false⟩] ∧ t.ReadFails [1] ∧
    let fs := FileSystem.set (fun _ => none) t.table.filename t.reader.file
    let c := compactL0ToL1 (fun _ _ => some smallFilter) allOk (fun _ => 1) none fs [t.reader]
      ['b'] ⟨8, 0.01⟩
    c.result = .ok l1Reader ∧ c.l0Readers = [t.reader.close] ∧ c.fs t.table.filename = none := by
  obtain ⟨t, hrecords, hname, hfails, hquiet, hread⟩ := exists_damaged
  have hretain : retain (readable [t.reader]) = [sentinel] := by
    rw [hread]
    rfl
  let fs := FileSystem.set (fun _ => none) t.table.filename t.reader.file
  have hne : [t.reader] ≠ [] := by simp
  rcases compactL0ToL1_cases (fun _ _ => some smallFilter) allOk none fs ['b'] ⟨8, 0.01⟩ hne
    levelsOk_one (by simpa using t.key_lt) (by
      rintro bf heq
      cases heq
      rw [hretain, length_tableBytes]
      exact ⟨smallFilter_zeroed, by decide +kernel⟩) with
    ⟨hnot, _⟩ | ⟨_, hbuild, _⟩ | ⟨_, _, file, l1Reader, hc⟩
  · exact absurd (by simpa using hquiet) hnot
  · rcases hbuild with hnone | ⟨op, _, hno⟩
    · cases hnone
    · cases hno
  · refine ⟨t, l1Reader, hrecords, hfails, ?_⟩
    intro fs c
    have hc' : c = _ := hc
    rw [hc']
    refine ⟨rfl, rfl, ?_⟩
    show FileSystem.set _ t.reader.filename none t.table.filename = none
    rw [t.filename_reader]
    exact if_pos rfl

end Hallownest.Storage
