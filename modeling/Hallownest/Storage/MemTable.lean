import Hallownest.Lib.Bytes
import Hallownest.Lib.Slice
import Mathlib.Data.Int.Notation

namespace Hallownest.Storage

/-!
# Storage — the MemTable (`memtable.go`)

The skip list is a heap of nodes that point to each other.  A pointer is the position of the
node in the heap, `none` is `nil`; the head is node 0.  `none` as the result of a function is
a run-time panic (an index out of range or a nil pointer).

The random height of a new node is a parameter of `insert`: whatever `randomLevel` returns.
The walk along one level takes fuel, the number of nodes; running out of fuel counts as a
failure like a panic does, so that a result is a result of the Go loop.
-/

/-- A node of the skip list (`Node`). -/
structure Node where
  key : Bytes
  value : Bytes
  tombstone : Bool
  forward : List (Option ℕ)
  deriving DecidableEq, Repr

/-- Options (`MemTableOptions`), without the probability `P` of the random heights. -/
structure MemTableOptions where
  maxLevel : Int
  flushThreshold : Int
  deriving DecidableEq, Repr

def defaultMaxLevel : Int := 16

def defaultFlushThreshold : Int := 2 * 1024 * 1024

/-- Standard options (`DefaultMemTableOptions`). -/
def defaultMemTableOptions : MemTableOptions where
  maxLevel := defaultMaxLevel
  flushThreshold := defaultFlushThreshold

/-- The MemTable: the heap of nodes, the height of the list, the accounted size. -/
structure MemTable where
  nodes : List Node
  level : ℕ
  sizeBytes : Int
  opts : MemTableOptions
  deriving DecidableEq, Repr

/-- The head of the list. -/
def head : ℕ := 0

/-- An empty table (`NewMemTable`). -/
def newMemTable (opts : MemTableOptions) : MemTable :=
  let opts : MemTableOptions := {
    maxLevel := if opts.maxLevel ≤ 0 then defaultMaxLevel else opts.maxLevel
    flushThreshold :=
      if opts.flushThreshold ≤ 0 then defaultFlushThreshold else opts.flushThreshold }
  { nodes := [{ key := [], value := [], tombstone := false,
                forward := List.replicate opts.maxLevel.toNat none }]
    level := 1
    sizeBytes := 0
    opts := opts }

/-! ### Pointers -/

/-- The read `a.forward[i]`. -/
def forwardAt (nodes : List Node) (i a : ℕ) : Option (Option ℕ) := do
  let n ← nodes[a]?
  n.forward[i]?

/-- The assignment `a.forward[i] = p`. -/
def setForward (nodes : List Node) (i a : ℕ) (p : Option ℕ) : Option (List Node) := do
  let n ← nodes[a]?
  let forward ← Slice.put n.forward i p
  return nodes.set a { n with forward := forward }

/-- The inner loop of the search: follow level `i` while the next key is smaller. -/
def walk (nodes : List Node) (key : Bytes) (i : ℕ) : ℕ → ℕ → Option ℕ
  | 0, _ => none
  | fuel + 1, curr => do
    match ← forwardAt nodes i curr with
    | none => return curr
    | some p =>
      let n ← nodes[p]?
      if n.key < key then walk nodes key i fuel p else return curr

/-- The result of an addition in `int64`. -/
def wrap64 (x : Int) : Int := x.bmod (2 ^ 64)

namespace MemTable

/-! ### `insert` -/

/-- The outer loop of the search in `insert`, over the levels below `i`. -/
def search (m : MemTable) (key : Bytes) :
    ℕ → ℕ → List (Option ℕ) → Option (ℕ × List (Option ℕ))
  | 0, curr, update => some (curr, update)
  | i + 1, curr, update => do
    let curr ← walk m.nodes key i m.nodes.length curr
    let update ← Slice.put update i (some curr)
    search m key i curr update

/-- `n` rounds of the loop that puts the head into the slots of new levels. -/
def raise : ℕ → ℕ → List (Option ℕ) → Option (List (Option ℕ))
  | 0, _, update => some update
  | n + 1, i, update => do
    let update ← Slice.put update i (some head)
    raise n (i + 1) update

/-- `n` rounds of the loop that links the new node in, from level `i` on. -/
def link (update : List (Option ℕ)) (newNode : ℕ) : ℕ → ℕ → List Node → Option (List Node)
  | 0, _, nodes => some nodes
  | n + 1, i, nodes => do
    let slot ← update[i]?
    let u ← slot
    let next ← forwardAt nodes i u
    let nodes ← setForward nodes i newNode next
    let nodes ← setForward nodes i u (some newNode)
    link update newNode n (i + 1) nodes

/-- The branch of `insert` for a key that exists, held by node `p`. -/
def replace (m : MemTable) (p : ℕ) (curr : Node) (key value : Bytes) (tombstone : Bool) :
    MemTable × Bool :=
  let oldSize : Int := curr.key.length + curr.value.length
  let newSize : Int := key.length + value.length
  let m := { m with
    nodes := m.nodes.set p { curr with value := value, tombstone := tombstone }
    sizeBytes := wrap64 (m.sizeBytes + (newSize - oldSize)) }
  (m, decide (m.sizeBytes ≥ m.opts.flushThreshold))

/-- The branch of `insert` for a new key: a node of height `newLevel` is linked in behind the
    nodes in `update`. -/
def add (m : MemTable) (update : List (Option ℕ)) (key value : Bytes) (tombstone : Bool)
    (newLevel : ℕ) : Option (MemTable × Bool) := do
  let update ← raise (newLevel - m.level) m.level update
  let newNode : Node :=
    { key := key, value := value, tombstone := tombstone,
      forward := List.replicate newLevel none }
  let nodes ← link update m.nodes.length newLevel 0 (m.nodes ++ [newNode])
  let m := { m with
    nodes := nodes
    level := max m.level newLevel
    sizeBytes := wrap64 (m.sizeBytes + ((key.length : Int) + value.length)) }
  return (m, decide (m.sizeBytes ≥ m.opts.flushThreshold))

/-- Insert or update (`insert`).  Returns the table and whether the flush threshold is
    reached; `newLevel` is what `randomLevel` returns if it is called. -/
def insert (m : MemTable) (key value : Bytes) (tombstone : Bool) (newLevel : ℕ) :
    Option (MemTable × Bool) := do
  let (curr, update) ← m.search key m.level head (List.replicate m.opts.maxLevel.toNat none)
  match ← forwardAt m.nodes 0 curr with
  | some p =>
    let n ← m.nodes[p]?
    if n.key = key then return m.replace p n key value tombstone
    else m.add update key value tombstone newLevel
  | none => m.add update key value tombstone newLevel

/-- The options stay. -/
theorem insert_opts {m m' : MemTable} {key value : Bytes} {tombstone full : Bool} {newLevel : ℕ}
    (h : m.insert key value tombstone newLevel = some (m', full)) : m'.opts = m.opts := by
  have hadd : ∀ {update}, m.add update key value tombstone newLevel = some (m', full) →
      m'.opts = m.opts := by
    intro update hadd
    obtain ⟨update', _, hadd⟩ := Option.bind_eq_some_iff.mp hadd
    obtain ⟨nodes, _, hadd⟩ := Option.bind_eq_some_iff.mp hadd
    obtain ⟨rfl, _⟩ := Prod.mk.inj (Option.some.inj hadd)
    rfl
  obtain ⟨⟨curr, update⟩, _, h⟩ := Option.bind_eq_some_iff.mp h
  obtain ⟨next, _, h⟩ := Option.bind_eq_some_iff.mp h
  cases next with
  | none => exact hadd h
  | some p =>
    obtain ⟨n, _, h⟩ := Option.bind_eq_some_iff.mp h
    split at h
    · obtain ⟨rfl, _⟩ := Prod.mk.inj (Option.some.inj h)
      rfl
    · exact hadd h

/-- Insert or update a value (`Put`). -/
def put (m : MemTable) (key value : Bytes) (newLevel : ℕ) : Option (MemTable × Bool) :=
  m.insert key value false newLevel

/-- Insert a tombstone (`Delete`). -/
def delete (m : MemTable) (key : Bytes) (newLevel : ℕ) : Option (MemTable × Bool) :=
  m.insert key [] true newLevel

/-! ### Reading -/

/-- The outer loop of the search in `Get`, over the levels below `i`. -/
def descend (m : MemTable) (key : Bytes) : ℕ → ℕ → Option ℕ
  | 0, curr => some curr
  | i + 1, curr => do
    let curr ← walk m.nodes key i m.nodes.length curr
    descend m key i curr

/-- Look a key up (`Get`): value, tombstone flag, and whether it was found. -/
def get (m : MemTable) (key : Bytes) : Option (Bytes × Bool × Bool) := do
  let curr ← m.descend key m.level head
  match ← forwardAt m.nodes 0 curr with
  | some p =>
    let n ← m.nodes[p]?
    if n.key = key then return (n.value, n.tombstone, true) else return ([], false, false)
  | none => return ([], false, false)

/-- Whether the flush threshold is reached (`IsFull`). -/
def isFull (m : MemTable) : Bool := decide (m.sizeBytes ≥ m.opts.flushThreshold)

end MemTable

/-- An iterator, positioned at a node (`Iterator`). -/
structure Iterator where
  curr : ℕ

/-- An iterator before the first element. -/
def MemTable.iterator (_m : MemTable) : Iterator := { curr := head }

namespace Iterator

/-- Whether there is another element (`HasNext`). -/
def hasNext (m : MemTable) (it : Iterator) : Option Bool := do
  let next ← forwardAt m.nodes 0 it.curr
  return next.isSome

/-- Advance (`Next`); at the end the iterator stays and there is no node. -/
def next (m : MemTable) (it : Iterator) : Option (Iterator × Option Node) := do
  if ← it.hasNext m then
    match ← forwardAt m.nodes 0 it.curr with
    | some p =>
      let n ← m.nodes[p]?
      return ({ curr := p }, some n)
    | none => none
  else return (it, none)

/-- The nodes a loop `for it.HasNext() { it.Next() }` sees. -/
def drain (m : MemTable) : ℕ → Iterator → Option (List Node)
  | 0, _ => none
  | fuel + 1, it => do
    if ← it.hasNext m then
      let (it, n) ← it.next m
      let n ← n
      let rest ← drain m fuel it
      return n :: rest
    else return []

end Iterator

end Hallownest.Storage
