import Hallownest.Lib.Search
import Hallownest.Record
import Hallownest.Storage.Lumafly
import Hallownest.Storage.MemTable

namespace Hallownest.Storage

/-!
# Storage — the SSTable (`sstable.go`)

A table file is a data block of records in key order, a sparse index of every `SparseInterval`-th
key with the offset of its record, the serialised Bloom filter, and a footer of 32 bytes with
the positions of the two blocks.

`uint64` arithmetic is arithmetic modulo `2 ^ 64`.  A panic, and undefined behaviour of the
filter, is an error of its own.  A file is the byte string it contains: reads return its bytes,
and opening it for reading succeeds.  Which writes succeed is a parameter, and so is
`lumafly_create`.
-/

def footerSize : ℕ := 32

def defaultIndexInterval : Int := 8

/-- An entry of the sparse index (`IndexEntry`). -/
structure IndexEntry where
  key : Bytes
  offset : ℕ
  deriving DecidableEq, Repr

/-- Where the blocks are (`Footer`). -/
structure Footer where
  indexOffset : ℕ
  indexLen : ℕ
  filterOffset : ℕ
  filterLen : ℕ
  deriving DecidableEq, Repr

/-- Options (`SSTableOptions`). -/
structure SSTableOptions where
  sparseInterval : Int
  fpRate : Float

/-- The options with defaults in place of values that make no sense. -/
def SSTableOptions.normalize (opts : SSTableOptions) : SSTableOptions where
  sparseInterval :=
    if opts.sparseInterval ≤ 0 then defaultIndexInterval else opts.sparseInterval
  fpRate := if opts.fpRate ≤ 0 then 0.0001 else opts.fpRate

/-- An open table (`SSTableReader`), with the contents of its file.  After `Close` there is
    neither a file nor a filter. -/
structure SSTableReader where
  file : Option Bytes
  filename : List Char
  footer : Footer
  index : List IndexEntry
  bloomFilter : Option LumaflyBloom
  deriving DecidableEq, Repr

/-- The file operations of `BuildSSTable` that may fail. -/
inductive FileOp
  | create
  | record (i : ℕ)
  | index
  | filter
  | footer
  | sync
  deriving DecidableEq, Repr

/-- Why an operation on a table fails.  The first two are `ErrSSTableCorrupted`. -/
inductive SSTableError
  | corrupted
  | crcMismatch (expected actual : BitVec 32)
  | file (op : FileOp)
  | createFilter
  | serializeFilter
  | deserializeFilter
  | readFooter
  | readIndex
  | readFilter
  | readData
  | panic
  deriving DecidableEq, Repr

/-- Conversion to `uint64`. -/
def uint64 (n : ℕ) : ℕ := n % 2 ^ 64

/-- Conversion of a `uint64` to `int64`. -/
def int64 (n : ℕ) : Int := if n < 2 ^ 63 then n else (n : Int) - 2 ^ 64

/-- The result of a computation that may panic. -/
def orPanic {α : Type} : Option α → Except SSTableError α
  | none => .error .panic
  | some a => .ok a

/-! ### `BuildSSTable` -/

/-- The state of the loop over the nodes: the filter, the index, the bytes written so far and
    the counters. -/
structure Builder where
  filter : LumaflyBloom
  index : List IndexEntry
  data : Bytes
  currentOffset : ℕ
  keyCount : ℕ

/-- One round of the loop over the nodes. -/
def writeNode (sparseInterval : ℕ) (ok : FileOp → Bool) (b : Builder) (node : Node) :
    Except SSTableError Builder := do
  let filter ← orPanic (lumaflyAdd b.filter node.key)
  let index :=
    if b.keyCount % sparseInterval = 0 then b.index ++ [⟨node.key, b.currentOffset⟩] else b.index
  let recBuf ← orPanic (fillRecord (headerSize + node.key.length + node.value.length)
    node.key node.value node.tombstone)
  if !ok (.record b.keyCount) then .error (.file (.record b.keyCount))
  else return {
    filter := filter
    index := index
    data := b.data ++ recBuf
    currentOffset := uint64 (b.currentOffset + recBuf.length)
    keyCount := b.keyCount + 1 }

/-- An index entry as it is written. -/
def encodeIndexEntry (ie : IndexEntry) : Bytes :=
  Bytes.be 4 ie.key.length ++ ie.key ++ Bytes.be 8 ie.offset

/-- The footer as it is written. -/
def encodeFooter (f : Footer) : Bytes :=
  Bytes.be 8 f.indexOffset ++ Bytes.be 8 f.indexLen ++ Bytes.be 8 f.filterOffset ++
    Bytes.be 8 f.filterLen

/-- The blocks behind the data, once all records are written. -/
def writeBlocks (ok : FileOp → Bool) (b : Builder) : Except SSTableError Bytes := do
  let indexOffset := b.currentOffset
  let indexBuf := Framing.frames encodeIndexEntry b.index
  if !ok .index then .error (.file .index)
  else
    let indexLen := uint64 indexBuf.length
    let filterOffset := uint64 (indexOffset + indexLen)
    match lumaflySerialize b.filter (lumaflyGetSerializedSize b.filter) with
    | none => .error .serializeFilter
    | some filterBuf =>
      if !ok .filter then .error (.file .filter)
      else
        let filterLen := uint64 filterBuf.length
        let footerBuf := encodeFooter ⟨indexOffset, indexLen, filterOffset, filterLen⟩
        if !ok .footer then .error (.file .footer)
        else if !ok .sync then .error (.file .sync)
        else return b.data ++ indexBuf ++ filterBuf ++ footerBuf

/-- What `BuildSSTable` writes, up to closing the file. -/
def writeTable (create : ℕ → Float → Option LumaflyBloom) (ok : FileOp → Bool) (m : MemTable)
    (expectedEntries : Int) (opts : SSTableOptions) : Except SSTableError Bytes := do
  let opts := opts.normalize
  if !ok .create then .error (.file .create)
  else
    match create (expectedEntries % 2 ^ 64).toNat opts.fpRate with
    | none => .error .createFilter
    | some cFilter => do
      let nodes ← orPanic (Iterator.drain m m.nodes.length m.iterator)
      let b ← nodes.foldlM (writeNode opts.sparseInterval.toNat ok)
        { filter := cFilter, index := [], data := [], currentOffset := 0, keyCount := 0 }
      writeBlocks ok b

/-! ### `OpenSSTable` -/

/-- `make([]byte, n)` for a `uint64` `n`: a length that is negative as an `int`, or above the 2^48
    bytes that the runtime can address, is a panic. -/
def make (n : ℕ) : Except SSTableError ℕ := if n ≤ 2 ^ 48 then .ok n else .error .panic

/-- `ReadAt`: at most `n` bytes from the offset on; `none` for an error.  A negative offset is
    refused, and so is a read that goes on behind the largest one; 2^30 bytes are asked for at a
    time. -/
def readAt (file : Bytes) (n : ℕ) (off : Int) : Option Bytes :=
  if off < 0 ∨ 2 ^ 63 ≤ off + (min n (2 ^ 30) : ℕ) then none
  else some ((file.drop off.toNat).take n)

/-- An offset is negative as an `int64` from 2^63 on. -/
theorem int64_neg_iff {n : ℕ} (h : n < 2 ^ 64) : int64 n < 0 ↔ 2 ^ 63 ≤ n := by
  unfold int64
  split <;> omega

/-- `ReadAt` at an offset that is a `uint64`. -/
theorem readAt_int64 (file : Bytes) (n : ℕ) {off : ℕ} (hoff : off < 2 ^ 64) :
    readAt file n (int64 off) =
      if off + min n (2 ^ 30) < 2 ^ 63 then some ((file.drop off).take n) else none := by
  unfold readAt
  by_cases hneg : int64 off < 0
  · have hge := (int64_neg_iff hoff).mp hneg
    rw [if_pos (Or.inl hneg), if_neg (by omega)]
  · have hlt : off < 2 ^ 63 := not_le.mp (mt (int64_neg_iff hoff).mpr hneg)
    have hint : int64 off = (off : Int) := if_pos hlt
    rw [hint, Int.toNat_natCast]
    by_cases hread : off + min n (2 ^ 30) < 2 ^ 63
    · rw [if_pos hread, if_neg (by omega)]
    · rw [if_neg hread, if_pos (by omega)]

/-- Read a block of a file, which must be there as a whole. -/
def readBlock (file : Bytes) (n off : ℕ) (e : SSTableError) : Except SSTableError Bytes := do
  let n ← make n
  match readAt file n (int64 off) with
  | none => .error e
  | some buf => if buf.length < n then .error e else return buf

/-- One round of the loop over the index block. -/
def readIndexEntry (bs : Bytes) : Framing.Next IndexEntry SSTableError :=
  match Bytes.readFull 4 bs with
  | none => .stop
  | some (kLen, bs) =>
    match Bytes.readFull (Bytes.ofBe kLen) bs with
    | none => .fail .corrupted
    | some (keyBuf, bs) =>
      match Bytes.readFull 8 bs with
      | none => .fail .corrupted
      | some (offset, rest) => .item ⟨keyBuf, Bytes.ofBe offset⟩ rest

/-- Read a footer. -/
def decodeFooter (buf : Bytes) : Footer where
  indexOffset := Bytes.ofBe (buf.take 8)
  indexLen := Bytes.ofBe ((buf.drop 8).take 8)
  filterOffset := Bytes.ofBe ((buf.drop 16).take 8)
  filterLen := Bytes.ofBe ((buf.drop 24).take 8)

/-- Open a table file (`OpenSSTable`). -/
def openSSTable (filename : List Char) (file : Bytes) : Except SSTableError SSTableReader := do
  if file.length < footerSize then .error .corrupted
  else
    let footerBuf ← readBlock file footerSize (file.length - footerSize) .readFooter
    let footer := decodeFooter footerBuf
    let indexBuf ← readBlock file footer.indexLen footer.indexOffset .readIndex
    match Framing.decode readIndexEntry indexBuf with
    | (_, some e) => .error e
    | (index, none) =>
      let filterBuf ← readBlock file footer.filterLen footer.filterOffset .readFilter
      -- `filterBuf[0]` is out of range in an empty block
      if filterBuf.length = 0 then .error .panic
      else
        match lumaflyDeserialize filterBuf with
        | none => .error .deserializeFilter
        | some cFilter =>
          return {
            file := some file
            filename := filename
            footer := footer
            index := index
            bloomFilter := some cFilter }

/-- Write a table and open it (`BuildSSTable`); returns the contents of the file as well. -/
def buildSSTable (create : ℕ → Float → Option LumaflyBloom) (ok : FileOp → Bool)
    (filename : List Char) (m : MemTable) (expectedEntries : Int) (opts : SSTableOptions) :
    Except SSTableError (Bytes × SSTableReader) := do
  let file ← writeTable create ok m expectedEntries opts
  let reader ← openSSTable filename file
  return (file, reader)

/-! ### `Get` -/

/-- The loop over the records of a block: value, tombstone flag, and whether the key was
    found. -/
def scanBlock (key : Bytes) : ℕ → Bytes → Except SSTableError (Bytes × Bool × Bool)
  | 0, _ => .ok ([], false, false)
  | fuel + 1, bs =>
    match readRecord bs with
    | .stop => .ok ([], false, false)
    | .fail (.crcMismatch expected actual) => .error (.crcMismatch expected actual)
    | .fail .panic => .error .panic
    | .item l rest =>
      if l.key = key then .ok (l.value, l.tombstone, true)
      else if key < l.key then .ok ([], false, false)
      else scanBlock key fuel rest

namespace SSTableReader

/-- The position behind the largest index entry that is not above the key. -/
def searchIndex (r : SSTableReader) (key : Bytes) : ℕ :=
  Search.search r.index.length fun i => (r.index[i]?).any fun ie => decide (key < ie.key)

/-- Where the block before index position `idx` starts. -/
def startOffset (r : SSTableReader) (idx : ℕ) : Except SSTableError ℕ :=
  if idx > 0 then orPanic ((r.index[idx - 1]?).map IndexEntry.offset) else .ok 0

/-- Where the block before index position `idx` ends. -/
def endOffset (r : SSTableReader) (idx : ℕ) : Except SSTableError ℕ :=
  if idx < r.index.length then orPanic ((r.index[idx]?).map IndexEntry.offset)
  else .ok r.footer.indexOffset

/-- Read the block from `startOffset` to `endOffset`; what lies behind the end of the file
    stays zero. -/
def readData (r : SSTableReader) (startOffset endOffset : ℕ) : Except SSTableError Bytes := do
  let scanLen ← make (uint64 (endOffset + (2 ^ 64 - startOffset)))
  match r.file.bind fun file => readAt file scanLen (int64 startOffset) with
  | none => .error .readData
  | some buf => return buf ++ List.replicate (scanLen - buf.length) 0

/-- Whether the filter lets a key pass; a filter that has been freed contains nothing. -/
def mayContain (r : SSTableReader) (key : Bytes) : Except SSTableError Bool :=
  match r.bloomFilter with
  | none => .ok false
  | some bf => orPanic (lumaflyContains bf key)

theorem mayContain_eq {r : SSTableReader} {bf : LumaflyBloom} {key : Bytes} {contains : Bool}
    (hbf : r.bloomFilter = some bf) (h : lumaflyContains bf key = some contains) :
    r.mayContain key = .ok contains := by
  unfold mayContain
  rw [hbf]
  exact congrArg orPanic h

/-- Look a key up (`Get`): value, tombstone flag, and whether it was found. -/
def get (r : SSTableReader) (key : Bytes) : Except SSTableError (Bytes × Bool × Bool) := do
  let contains ← r.mayContain key
  if !contains then return ([], false, false)
  else if r.index.length = 0 then return ([], false, false)
  else
    let idx := r.searchIndex key
    let startOffset ← r.startOffset idx
    let endOffset ← r.endOffset idx
    let dataBuf ← r.readData startOffset endOffset
    scanBlock key dataBuf.length dataBuf

/-- Release the file and the filter (`Close`). -/
def close (r : SSTableReader) : SSTableReader := { r with file := none, bloomFilter := none }

end SSTableReader

end Hallownest.Storage
