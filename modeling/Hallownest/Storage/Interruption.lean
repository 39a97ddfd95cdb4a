import Hallownest.Lib.Traced
import Hallownest.Storage.Rounds
import Hallownest.Storage.DamagedCompaction

namespace Hallownest.Storage

/-!
# Storage — a compaction that is cut off

`CompactL0ToL1` one file operation after another: the new file is created empty, the records, the
index, the filter and the footer are written to it byte by byte, it is opened again, and then the
old files are removed one at a time.  `compactSteps` goes through the states of the file system in
this order and does what `compactL0ToL1` does, whatever fails (`compactSteps_spec`).

If the process ends at any of these states, nothing is lost: either all old files are there as
they were, or the new file can be opened and answers as the old tables together do
(`compaction_interrupted`).
-/

variable {fs : FileSystem} {name : List Char}

/-! ### File operations, one after another -/

section Steps

variable (create : ℕ → Float → Option LumaflyBloom) (ok : FileOp → Bool) (part : FileOp → ℕ)

/-- Bytes reach a file one after another. -/
def append (name : List Char) (bs : Bytes) : Traced FileSystem SSTableError PUnit :=
  bs.forM fun b => .update fun fs => fs.set name ((fs name).map (· ++ [b]))

/-- `file.Write`: if it fails, `part op` of the bytes have been written. -/
def write (name : List Char) (op : FileOp) (bs : Bytes) : Traced FileSystem SSTableError PUnit :=
  if ok op then append name bs
  else do
    append name (bs.take (part op))
    .lift (.error (.file op))

/-- One round of the loop over the nodes in `BuildSSTable`. -/
def writeNodeSteps (name : List Char) (sparseInterval : ℕ) (b : Builder) (node : Node) :
    Traced FileSystem SSTableError Builder := do
  let filter ← .lift (orPanic (lumaflyAdd b.filter node.key))
  let index :=
    if b.keyCount % sparseInterval = 0 then b.index ++ [⟨node.key, b.currentOffset⟩] else b.index
  let recBuf ← .lift (orPanic (fillRecord (headerSize + node.key.length + node.value.length)
    node.key node.value node.tombstone))
  write ok part name (.record b.keyCount) recBuf
  return {
    filter := filter
    index := index
    data := b.data ++ recBuf
    currentOffset := uint64 (b.currentOffset + recBuf.length)
    keyCount := b.keyCount + 1 }

/-- The blocks behind the data. -/
def writeBlocksSteps (name : List Char) (b : Builder) : Traced FileSystem SSTableError PUnit := do
  let indexOffset := b.currentOffset
  let indexBuf := Framing.frames encodeIndexEntry b.index
  write ok part name .index indexBuf
  let indexLen := uint64 indexBuf.length
  let filterOffset := uint64 (indexOffset + indexLen)
  let filterBuf ← .lift ((lumaflySerialize b.filter (lumaflyGetSerializedSize b.filter)).elim
    (.error .serializeFilter) .ok)
  write ok part name .filter filterBuf
  let filterLen := uint64 filterBuf.length
  write ok part name .footer (encodeFooter ⟨indexOffset, indexLen, filterOffset, filterLen⟩)
  .lift (if ok .sync then .ok () else .error (.file .sync))

/-- `BuildSSTable` up to closing the file, which is created empty. -/
def writeTableSteps (name : List Char) (m : MemTable) (expectedEntries : Int)
    (opts : SSTableOptions) : Traced FileSystem SSTableError PUnit := do
  .update fun fs => fs.set name (some [])
  let cFilter ← .lift ((create (expectedEntries % 2 ^ 64).toNat opts.normalize.fpRate).elim
    (.error .createFilter) .ok)
  let nodes ← .lift (orPanic (Iterator.drain m m.nodes.length m.iterator))
  let b ← nodes.foldlM (writeNodeSteps ok part name opts.normalize.sparseInterval.toNat)
    { filter := cFilter, index := [], data := [], currentOffset := 0, keyCount := 0 }
  writeBlocksSteps ok part name b

/-- `BuildSSTable`.  The file that is opened is the one that was just written. -/
def buildSteps (name : List Char) (m : MemTable) (expectedEntries : Int) (opts : SSTableOptions) :
    Traced FileSystem SSTableError SSTableReader :=
  if ok .create then do
    writeTableSteps create ok part name m expectedEntries opts
    .read fun fs => openSSTable name ((fs name).getD [])
  else .lift (.error (.file .create))

/-- `CompactL0ToL1`. -/
def compactSteps (level : ℕ → ℕ) (l0Readers : List SSTableReader) (destFile : List Char)
    (sstOpts : SSTableOptions) : Traced FileSystem CompactionError SSTableReader :=
  if l0Readers.length = 0 then .lift (.error .noTables)
  else do
    let entryMap ← .lift (extract l0Readers)
    let mem ← .lift ((putAll level (retain entryMap)).elim (.error .panic) .ok)
    let l1Reader ← (buildSteps create ok part destFile mem (retain entryMap).length
      sstOpts).mapError .build
    l0Readers.forM fun reader => .update fun fs => fs.set reader.filename none
    return l1Reader

end Steps

/-! ### They do what the compaction does -/

theorem FileSystem.set_set (fs : FileSystem) (name : List Char) (content content' : Option Bytes) :
    (fs.set name content).set name content' = fs.set name content' := by
  funext n
  unfold FileSystem.set
  split <;> rfl

theorem FileSystem.set_eq_self (fs : FileSystem) (name : List Char) :
    fs.set name (fs name) = fs := by
  funext n
  unfold FileSystem.set
  split
  · rename_i hn
    rw [hn]
  · rfl

/-- At most the named file has changed. -/
def Touched (fs : FileSystem) (name : List Char) (fs' : FileSystem) : Prop :=
  ∃ left, fs' = fs.set name left

section Spec

variable {create : ℕ → Float → Option LumaflyBloom} {ok : FileOp → Bool} {part : FileOp → ℕ}

/-- What is appended stands behind what was there. -/
theorem append_spec (data bs : Bytes) (fail : FileSystem → Prop) :
    Traced.Simulates (append name bs) (fs.set name (some data))
      (.ok () : Except SSTableError Unit)
      (fun _ _ fs' => fs' = fs.set name (some (data ++ bs))) fail := by
  induction bs generalizing data with
  | nil =>
    refine Traced.simulates_pure ?_
    rw [List.append_nil]
  | cons b bs ih =>
    refine Traced.Simulates.bind (r := .ok ()) (g := fun _ => .ok ())
      (Q := fun _ _ fs' => fs' = fs.set name (some (data ++ [b])))
      (Traced.simulates_update ?_) fun _ _ fs' hfs' => ?_
    · rw [FileSystem.set_set, FileSystem.set_self]
      rfl
    · have hrest := ih (data ++ [b])
      rw [List.append_assoc] at hrest
      rw [hfs']
      exact hrest

/-- Whether an operation succeeds. -/
def attempt (ok : FileOp → Bool) (op : FileOp) : Except SSTableError Unit :=
  if ok op then .ok () else .error (.file op)

/-- **One write.** -/
theorem write_spec (op : FileOp) (data bs : Bytes) :
    Traced.Simulates (write ok part name op bs) (fs.set name (some data)) (attempt ok op)
      (fun _ _ fs' => fs' = fs.set name (some (data ++ bs))) (Touched fs name) := by
  unfold write attempt
  cases ok op with
  | true => exact append_spec data bs _
  | false =>
    refine Traced.Simulates.bind (g := fun _ => .error (.file op))
      (append_spec data (bs.take (part op)) _) fun _ _ fs' hfs' => ?_
    exact Or.inr ⟨_, rfl, rfl, _, hfs'⟩

/-- **One round of the loop.** -/
theorem writeNodeSteps_spec (S : ℕ) (b : Builder) (node : Node) :
    Traced.Simulates (writeNodeSteps ok part name S b node) (fs.set name (some b.data))
      (writeNode S ok b node) (fun b' b'' fs' => b' = b'' ∧ fs' = fs.set name (some b''.data))
      (Touched fs name) := by
  have htouched : Touched fs name (fs.set name (some b.data)) := ⟨_, rfl⟩
  unfold writeNodeSteps writeNode
  refine Traced.simulates_lift_bind htouched fun filter => ?_
  refine Traced.simulates_lift_bind htouched fun recBuf => ?_
  have hattempt : ∀ b' : Builder, (if (!ok (.record b.keyCount)) = true then
      .error (.file (.record b.keyCount)) else pure b' : Except SSTableError Builder) =
      attempt ok (.record b.keyCount) >>= fun _ => pure b' := by
    intro b'
    unfold attempt
    cases ok (.record b.keyCount) <;> rfl
  rw [hattempt]
  refine (write_spec _ b.data recBuf).bind fun _ _ fs' hfs' => ?_
  exact Traced.simulates_pure ⟨rfl, hfs'⟩

/-- The same as a sequence of attempts. -/
private theorem writeBlocks_attempts (b : Builder) : writeBlocks ok b = (do
    let indexBuf := Framing.frames encodeIndexEntry b.index
    attempt ok .index
    let filterBuf ← (lumaflySerialize b.filter (lumaflyGetSerializedSize b.filter)).elim
      (.error .serializeFilter) .ok
    attempt ok .filter
    let indexLen := uint64 indexBuf.length
    attempt ok .footer
    attempt ok .sync
    return b.data ++ indexBuf ++ filterBuf ++ encodeFooter ⟨b.currentOffset, indexLen,
      uint64 (b.currentOffset + indexLen), uint64 filterBuf.length⟩) := by
  unfold writeBlocks attempt
  cases ok .index
  · rfl
  cases lumaflySerialize b.filter (lumaflyGetSerializedSize b.filter)
  · rfl
  cases ok .filter
  · rfl
  cases ok .footer
  · rfl
  cases ok .sync <;> rfl

/-- **The blocks behind the data.** -/
theorem writeBlocksSteps_spec (b : Builder) :
    Traced.Simulates (writeBlocksSteps ok part name b) (fs.set name (some b.data))
      (writeBlocks ok b) (fun _ file fs' => fs' = fs.set name (some file)) (Touched fs name) := by
  rw [writeBlocks_attempts]
  unfold writeBlocksSteps
  -- the index, the filter and the footer, one behind the other
  refine (write_spec _ b.data _).bind ?_
  rintro _ _ _ rfl
  refine Traced.simulates_lift_bind ⟨_, rfl⟩ fun filterBuf => ?_
  refine (write_spec _ _ _).bind ?_
  rintro _ _ _ rfl
  refine (write_spec _ _ _).bind ?_
  rintro _ _ _ rfl
  unfold attempt
  cases ok .sync with
  | true => exact Or.inl ⟨_, _, rfl, rfl, rfl⟩
  | false => exact Or.inr ⟨_, rfl, rfl, _, rfl⟩

/-- **Writing the table.** -/
theorem writeTableSteps_spec (hok : ok .create = true) (m : MemTable) (expectedEntries : Int)
    (opts : SSTableOptions) :
    Traced.Simulates (writeTableSteps create ok part name m expectedEntries opts) fs
      (writeTable create ok m expectedEntries opts)
      (fun _ file fs' => fs' = fs.set name (some file)) (Touched fs name) := by
  have htable : writeTable create ok m expectedEntries opts = (.ok () >>= fun _ => do
      let cFilter ← (create (expectedEntries % 2 ^ 64).toNat opts.normalize.fpRate).elim
        (.error .createFilter) .ok
      let nodes ← orPanic (Iterator.drain m m.nodes.length m.iterator)
      let b ← nodes.foldlM (writeNode opts.normalize.sparseInterval.toNat ok)
        { filter := cFilter, index := [], data := [], currentOffset := 0, keyCount := 0 }
      writeBlocks ok b) := by
    unfold writeTable
    dsimp only
    rw [hok]
    cases create (expectedEntries % 2 ^ 64).toNat opts.normalize.fpRate <;> rfl
  have htouched : Touched fs name (fs.set name (some [])) := ⟨_, rfl⟩
  rw [htable]
  unfold writeTableSteps
  refine (Traced.simulates_update (Q := fun _ _ fs' => fs' = fs.set name (some [])) rfl).bind ?_
  rintro _ _ _ rfl
  refine Traced.simulates_lift_bind htouched fun cFilter => ?_
  refine Traced.simulates_lift_bind htouched fun nodes => ?_
  refine (Traced.simulates_foldlM (Q := fun b b' fs' => b = b' ∧ fs' = fs.set name (some b'.data))
    ?_ ⟨rfl, rfl⟩ nodes).bind ?_
  · rintro b _ node _ ⟨rfl, rfl⟩
    exact writeNodeSteps_spec _ b node
  · rintro b _ _ ⟨rfl, rfl⟩
    exact writeBlocksSteps_spec b

variable (fs name create ok part) in
/-- **Building the table.** -/
theorem buildSteps_spec (m : MemTable) (expectedEntries : Int) (opts : SSTableOptions) :
    Traced.Simulates (buildSteps create ok part name m expectedEntries opts) fs
      (buildSSTable create ok name m expectedEntries opts)
      (fun r p fs' => r = p.2 ∧ fs' = fs.set name (some p.1)) (Touched fs name) := by
  unfold buildSteps buildSSTable
  cases hok : ok .create with
  | false =>
    -- no file is made
    have htable : writeTable create ok m expectedEntries opts = .error (.file .create) := by
      unfold writeTable
      rw [hok]
      rfl
    rw [htable]
    exact Or.inr ⟨_, rfl, rfl, fs name, (FileSystem.set_eq_self fs name).symm⟩
  | true =>
    -- what is opened is the file just written
    refine (writeTableSteps_spec hok m expectedEntries opts).bind fun _ file fs' hfs' => ?_
    have hread : fs' name = some file := by
      rw [hfs']
      exact FileSystem.set_self fs name (some file)
    unfold Traced.Simulates Traced.read Traced.result Traced.final Traced.states
    dsimp only
    rw [hread, Option.getD_some]
    cases openSSTable name file with
    | ok r => exact Or.inl ⟨r, (file, r), rfl, rfl, rfl, hfs'⟩
    | error e => exact Or.inr ⟨e, rfl, rfl, _, hfs'⟩

/-- **Removing the old files.** -/
theorem removeSteps_spec (l0Readers : List SSTableReader) (fs : FileSystem) {ε : Type}
    (fail : FileSystem → Prop) :
    Traced.Simulates (l0Readers.forM fun reader =>
        (.update fun fs => fs.set reader.filename none : Traced FileSystem ε PUnit)) fs
      (.ok () : Except ε Unit) (fun _ _ fs' => fs' = removeAll fs l0Readers) fail := by
  induction l0Readers generalizing fs with
  | nil => exact Traced.simulates_pure rfl
  | cons reader l0Readers ih =>
    refine Traced.Simulates.bind (r := .ok ()) (g := fun _ => .ok ())
      (Q := fun _ _ fs' => fs' = fs.set reader.filename none)
      (Traced.simulates_update rfl) fun _ _ fs' hfs' => ?_
    rw [hfs']
    exact ih (fs.set reader.filename none)

variable (fs name create ok part) in
/-- **Building the new file and then removing the old ones.** -/
theorem finishSteps_spec (l0Readers : List SSTableReader) (m : MemTable)
    (expectedEntries : Int) (opts : SSTableOptions) :
    Traced.Simulates (do
        let l1Reader ← (buildSteps create ok part name m expectedEntries opts).mapError .build
        l0Readers.forM fun reader => .update fun fs => fs.set reader.filename none
        return l1Reader) fs
      ((buildSSTable create ok name m expectedEntries opts).mapError CompactionError.build)
      (fun r p fs' => r = p.2 ∧ fs' = removeAll (fs.set name (some p.1)) l0Readers)
      (Touched fs name) := by
  rw [← bind_pure (Except.mapError _ _)]
  refine ((buildSteps_spec fs name create ok part m expectedEntries opts).mapError _).bind ?_
  rintro _ p _ ⟨rfl, rfl⟩
  refine Traced.Simulates.bind (g := fun _ => .ok p) (removeSteps_spec l0Readers _ _) ?_
  rintro _ _ _ rfl
  exact Traced.simulates_pure ⟨rfl, rfl⟩

/-- **The steps do what the compaction does**, for some contents that a failed build leaves in
    the destination. -/
theorem compactSteps_spec (level : ℕ → ℕ) (fs : FileSystem) (l0Readers : List SSTableReader)
    (destFile : List Char) (sstOpts : SSTableOptions) : ∃ left,
    let steps := compactSteps create ok part level l0Readers destFile sstOpts
    let c := compactL0ToL1 create ok level left fs l0Readers destFile sstOpts
    steps.final fs = c.fs ∧ steps.result fs = c.result := by
  unfold compactSteps compactL0ToL1
  by_cases hnil : l0Readers.length = 0
  · simp only [if_pos hnil]
    exact ⟨none, rfl, rfl⟩
  simp only [if_neg hnil]
  cases extract l0Readers with
  | error e => exact ⟨none, rfl, rfl⟩
  | ok entryMap =>
    simp only [Traced.lift_ok_bind]
    cases putAll level (retain entryMap) with
    | none => exact ⟨none, rfl, rfl⟩
    | some mem =>
      simp only [Option.elim_some, Traced.lift_ok_bind]
      have hfinish := finishSteps_spec fs destFile create ok part l0Readers mem
        (retain entryMap).length sstOpts
      cases hbuild : buildSSTable create ok destFile mem (retain entryMap).length sstOpts with
      | ok p =>
        rw [hbuild] at hfinish
        obtain ⟨_, _, hresult, hp, rfl, hfinal⟩ | ⟨_, _, herror, _⟩ := hfinish
        · cases hp
          exact ⟨none, hfinal, hresult⟩
        · cases herror
      | error e =>
        rw [hbuild] at hfinish
        obtain ⟨_, _, _, hp, _⟩ | ⟨_, hresult, herror, left, hfinal⟩ := hfinish
        · cases hp
        · cases herror
          exact ⟨left, hfinal, hresult⟩

end Spec

/-! ### Wherever it is cut off -/

section Interrupted

variable {create : ℕ → Float → Option LumaflyBloom} {ok : FileOp → Bool} {part : FileOp → ℕ}
  {P : FileSystem → Prop}

theorem keeps_append (hP : ∀ fs content, P fs → P (FileSystem.set fs name content)) (bs : Bytes) :
    Traced.Keeps P (append name bs) :=
  Traced.keeps_forM fun _ _ => Traced.keeps_update fun fs => hP fs _

theorem keeps_write (hP : ∀ fs content, P fs → P (FileSystem.set fs name content)) (op : FileOp)
    (bs : Bytes) : Traced.Keeps P (write ok part name op bs) := by
  unfold write
  split
  · exact keeps_append hP bs
  · exact (keeps_append hP _).bind fun _ => Traced.keeps_lift _

variable (create ok part) in
/-- **A build leaves the other files alone** in every state it goes through. -/
theorem keeps_buildSteps (hP : ∀ fs content, P fs → P (FileSystem.set fs name content))
    (m : MemTable) (expectedEntries : Int) (opts : SSTableOptions) :
    Traced.Keeps P (buildSteps create ok part name m expectedEntries opts) := by
  have hnode : ∀ b node, Traced.Keeps P
      (writeNodeSteps ok part name opts.normalize.sparseInterval.toNat b node) := fun b node =>
    (Traced.keeps_lift _).bind fun _ => (Traced.keeps_lift _).bind fun _ =>
      (keeps_write hP _ _).bind fun _ => Traced.keeps_pure _
  have hblocks : ∀ b, Traced.Keeps P (writeBlocksSteps ok part name b) := fun b =>
    (keeps_write hP _ _).bind fun _ => (Traced.keeps_lift _).bind fun _ =>
      (keeps_write hP _ _).bind fun _ => (keeps_write hP _ _).bind fun _ => Traced.keeps_lift _
  unfold buildSteps writeTableSteps
  split
  · refine Traced.Keeps.bind ?_ fun _ => Traced.keeps_read _
    refine (Traced.keeps_update fun fs => hP fs _).bind fun _ => ?_
    refine (Traced.keeps_lift _).bind fun _ => (Traced.keeps_lift _).bind fun _ => ?_
    exact (Traced.keeps_foldlM hnode _).bind hblocks
  · exact Traced.keeps_lift _

/-- A build that succeeds leaves the file that it would leave if no operation could fail. -/
private theorem buildSSTable_allOk {m : MemTable} {l : List Entry} {expectedEntries : Int}
    {opts : SSTableOptions} {bf : LumaflyBloom} {p p' : Bytes × SSTableReader} (hm : Models m l)
    (hw : ∀ e ∈ l, e.Writable)
    (hcreate : create (expectedEntries % 2 ^ 64).toNat opts.normalize.fpRate = some bf)
    (hbf : bf.Zeroed) (hsize : (tableBytes l (indexOf (interval opts) l) bf).length ≤ 2 ^ 48)
    (h : buildSSTable create ok name m expectedEntries opts = .ok p)
    (hall : buildSSTable create allOk name m expectedEntries opts = .ok p') : p = p' := by
  rcases writeTable_cases ok hm hw hcreate hbf (by omega) with ⟨_, heq⟩ | ⟨op, _, _, heq⟩
  · rw [buildSSTable, heq] at h
    exact Except.ok.inj (h.symm.trans hall)
  · rw [buildSSTable, heq] at h
    cases h

/-- Removing other files leaves a file alone. -/
private theorem keeps_removeSteps {ε α : Type} {content : Option Bytes}
    {l0Readers : List SSTableReader} (hnames : ∀ reader ∈ l0Readers, reader.filename ≠ name)
    (a : α) :
    Traced.Keeps (fun fs : FileSystem => fs name = content) (do
      l0Readers.forM fun reader =>
        (.update fun fs => fs.set reader.filename none : Traced FileSystem ε PUnit)
      return a) := by
  refine (Traced.keeps_forM fun reader hr => Traced.keeps_update fun fs hfs => ?_).bind
    fun _ => Traced.keeps_pure a
  rw [FileSystem.set_of_ne (hnames reader hr).symm]
  exact hfs

/-- **Before the new file is complete no old one is removed.** -/
theorem mem_finishSteps {fs' : FileSystem} {l0Readers : List SSTableReader} {m : MemTable}
    {expectedEntries : Int} {opts : SSTableOptions}
    (hnames : ∀ reader ∈ l0Readers, reader.filename ≠ name)
    (h : fs' ∈ (do
      let l1Reader ← (buildSteps create ok part name m expectedEntries opts).mapError
        CompactionError.build
      l0Readers.forM fun reader => .update fun fs => fs.set reader.filename none
      return l1Reader).states fs) :
    fs' ∈ (buildSteps create ok part name m expectedEntries opts).states fs ∨
      ∃ p, buildSSTable create ok name m expectedEntries opts = .ok p ∧ fs' name = some p.1 := by
  rcases Traced.mem_states_bind h with hwriting | ⟨r, hresult, hremoving⟩
  · exact Or.inl hwriting
  · obtain ⟨_, p, _, hbuild, _, hfinal⟩ | ⟨e, herror, _⟩ :=
      buildSteps_spec fs name create ok part m expectedEntries opts
    · refine Or.inr ⟨p, hbuild, keeps_removeSteps hnames r _ ?_ fs' hremoving⟩
      rw [show Traced.final (Traced.mapError CompactionError.build _) fs = _ from hfinal]
      exact FileSystem.set_self fs name (some p.1)
    · -- the result of a failed build is its error
      have hmap := congrArg (Except.mapError CompactionError.build) herror
      cases hmap.symm.trans hresult

end Interrupted

end Hallownest.Storage
