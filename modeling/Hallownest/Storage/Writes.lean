import Hallownest.Lib.Run
import Hallownest.Storage.FiniteMap

namespace Hallownest.Storage

/-!
# Storage — sequences of writes

A sequence of `Put` and `Delete` calls on a fresh table leaves the record list `contents`,
which holds under each key what the last write on it wrote (`lookup_contents`).  With the
refinement of the single write this gives what a table answers after any run.
-/

/-- A write to a table. -/
inductive Op
  | put (key value : Bytes)
  | delete (key : Bytes)
  deriving DecidableEq, Repr

/-- The key a write is on. -/
def Op.key : Op → Bytes
  | put key _ => key
  | delete key => key

/-- The record a write leaves. -/
def Op.entry : Op → Entry
  | put key value => ⟨key, value, false⟩
  | delete key => ⟨key, [], true⟩

theorem Op.entry_key (op : Op) : op.entry.key = op.key := by cases op <;> rfl

/-- One write, with the height a new node gets. -/
def MemTable.apply (m : MemTable) (op : Op) (newLevel : ℕ) : Option MemTable :=
  match op with
  | .put key value => (m.put key value newLevel).map Prod.fst
  | .delete key => (m.delete key newLevel).map Prod.fst

/-- A sequence of writes, each with the height a new node gets. -/
def MemTable.run (m : MemTable) (ops : List (Op × ℕ)) : Option MemTable :=
  ops.foldlM (fun m p => m.apply p.1 p.2) m

/-- The record list a sequence of writes leaves. -/
def contents (ops : List Op) : List Entry :=
  ops.foldl (fun l op => Assoc.upsert Entry.key op.entry l) []

theorem contents_eq_merge (ops : List Op) :
    contents ops = Assoc.merge Entry.key [] (ops.map Op.entry) := by
  unfold contents Assoc.merge
  rw [List.foldl_map]

theorem contents_snoc (ops : List Op) (op : Op) :
    contents (ops ++ [op]) = Assoc.upsert Entry.key op.entry (contents ops) := by
  unfold contents
  rw [List.foldl_append]
  rfl

/-- The last write on a key. -/
def lastWrite (ops : List Op) (key : Bytes) : Option Op :=
  ops.reverse.find? fun op => decide (op.key = key)

theorem lastWrite_snoc (ops : List Op) (op : Op) (key : Bytes) :
    lastWrite (ops ++ [op]) key = if op.key = key then some op else lastWrite ops key := by
  rw [lastWrite, lastWrite, List.reverse_append]
  by_cases hkey : op.key = key
  · simp [hkey]
  · simp [hkey]

/-- A write with no later one on its key is the last write on it. -/
theorem lastWrite_of_getElem? {ops : List Op} {p : ℕ} {op : Op} (hop : ops[p]? = some op)
    (hlater : ∀ (q : ℕ) (op' : Op), p < q → ops[q]? = some op' → op'.key ≠ op.key) :
    lastWrite ops op.key = some op := by
  induction ops using List.reverseRecOn with
  | nil => simp at hop
  | append_singleton ops last ih =>
    rw [lastWrite_snoc]
    rcases Nat.lt_or_ge p ops.length with hlt | hge
    · -- the last write of all is a later one
      rw [List.getElem?_append_left hlt] at hop
      rw [if_neg (hlater ops.length last hlt (by simp))]
      refine ih hop fun q op' hq hop' => hlater q op' hq ?_
      rw [List.getElem?_append_left (List.getElem?_eq_some_iff.mp hop').1]
      exact hop'
    · obtain rfl : last = op := by
        rw [List.getElem?_append_right hge] at hop
        exact List.mem_singleton.mp (List.mem_of_getElem? hop) |>.symm
      rw [if_pos rfl]

/-- What the record list holds after a write. -/
theorem lookup_write (op : Op) (key : Bytes) (l : List Entry) :
    Assoc.lookup Entry.key key (Assoc.upsert Entry.key op.entry l) =
      if op.key = key then some op.entry else Assoc.lookup Entry.key key l := by
  rw [Assoc.lookup_upsert, Op.entry_key]
  congr

/-- What the record list holds under a key is what the last write on it left. -/
theorem lookup_contents (ops : List Op) (key : Bytes) :
    Assoc.lookup Entry.key key (contents ops) = (lastWrite ops key).map Op.entry := by
  induction ops using List.reverseRecOn with
  | nil => rfl
  | append_singleton ops op ih =>
    rw [contents_snoc, lookup_write, ih, lastWrite_snoc]
    split
    · rfl
    · rfl

/-- One write is one map update. -/
theorem Models.apply {m : MemTable} {l : List Entry} (h : Models m l) (op : Op) {newLevel : ℕ}
    (h1 : 1 ≤ newLevel) (hle : (newLevel : Int) ≤ m.opts.maxLevel) :
    ∃ m', m.apply op newLevel = some m' ∧ m'.opts = m.opts ∧
      Models m' (Assoc.upsert Entry.key op.entry l) := by
  cases op with
  | put key value =>
    obtain ⟨m', hrun, hopts, hm'⟩ := h.insert key value false h1 hle
    exact ⟨m', by rw [MemTable.apply, MemTable.put, hrun]; rfl, hopts, hm'⟩
  | delete key =>
    obtain ⟨m', hrun, hopts, hm'⟩ := h.insert key [] true h1 hle
    exact ⟨m', by rw [MemTable.apply, MemTable.delete, hrun]; rfl, hopts, hm'⟩

/-- The same, for a write that was made. -/
theorem Models.of_apply {m m' : MemTable} {l : List Entry} (h : Models m l) {op : Op}
    {newLevel : ℕ} (h1 : 1 ≤ newLevel) (hle : (newLevel : Int) ≤ m.opts.maxLevel)
    (happly : m.apply op newLevel = some m') :
    m'.opts = m.opts ∧ Models m' (Assoc.upsert Entry.key op.entry l) := by
  obtain ⟨m₁, happly₁, hopts, hmodels⟩ := h.apply op h1 hle
  obtain rfl : m₁ = m' := Option.some.inj (happly₁.symm.trans happly)
  exact ⟨hopts, hmodels⟩

/-- **A run refines the sequence of map updates.** -/
theorem Models.run {m : MemTable} {l : List Entry} (h : Models m l) (ops : List (Op × ℕ))
    (hlevels : ∀ p ∈ ops, 1 ≤ p.2 ∧ (p.2 : Int) ≤ m.opts.maxLevel) :
    ∃ m', m.run ops = some m' ∧ m'.opts = m.opts ∧
      Models m' ((ops.map Prod.fst).foldl (fun l op => Assoc.upsert Entry.key op.entry l) l) := by
  refine Run.exists_foldlM (m := Option)
    (I := fun (done : List (Op × ℕ)) (m' : MemTable) => m'.opts = m.opts ∧
      Models m' ((done.map Prod.fst).foldl (fun l op => Assoc.upsert Entry.key op.entry l) l))
    ⟨rfl, h⟩ ?_
  rintro done p rest m₁ hops ⟨hopts₁, h₁⟩
  obtain ⟨h1, hle⟩ := hlevels p (by rw [hops]; simp)
  obtain ⟨m', hrun, hopts, h'⟩ := h₁.apply p.1 h1 (by rw [hopts₁]; exact hle)
  refine ⟨m', hrun, hopts.trans hopts₁, ?_⟩
  rw [List.map_append, List.foldl_append]
  exact h'

/-- The writes on a fresh table. -/
theorem models_run (opts : MemTableOptions) (ops : List (Op × ℕ))
    (hlevels : ∀ p ∈ ops, 1 ≤ p.2 ∧ (p.2 : Int) ≤ (newMemTable opts).opts.maxLevel) :
    ∃ m, (newMemTable opts).run ops = some m ∧ Models m (contents (ops.map Prod.fst)) := by
  obtain ⟨m, hrun, _, hm⟩ := (models_new opts).run ops hlevels
  exact ⟨m, hrun, hm⟩

theorem newMemTable_maxLevel {opts : MemTableOptions} (hmax : 1 ≤ opts.maxLevel) :
    (newMemTable opts).opts.maxLevel = opts.maxLevel := by
  show (if opts.maxLevel ≤ 0 then defaultMaxLevel else opts.maxLevel) = _
  rw [if_neg (by omega)]

/-- What `Get` answers after a last write, or without one. -/
def written : Option Op → Bytes × Bool × Bool
  | some (.put _ value) => (value, false, true)
  | some (.delete _) => ([], true, true)
  | none => ([], false, false)

/-- `Get` answers what the last write on the key wrote. -/
theorem Models.get_contents {m : MemTable} {ops : List Op} (h : Models m (contents ops))
    (key : Bytes) : m.get key = some (written (lastWrite ops key)) := by
  rw [h.get key, lookup_contents]
  cases lastWrite ops key with
  | none => rfl
  | some op => cases op <;> rfl

/-- **The MemTable refines a finite map.**  No sequence of writes on a fresh table panics,
    whatever heights in `1..MaxLevel` the nodes get, and `Get` answers for every key what the
    last write on it wrote.  So two runs of the same writes cannot be told apart by `Get`. -/
theorem memTable_refines_map (opts : MemTableOptions) (hmax : 1 ≤ opts.maxLevel)
    (ops : List (Op × ℕ)) (hlevels : ∀ p ∈ ops, 1 ≤ p.2 ∧ (p.2 : Int) ≤ opts.maxLevel) :
    ∃ m, (newMemTable opts).run ops = some m ∧
      (∀ key, m.get key = some (written (lastWrite (ops.map Prod.fst) key))) ∧
      ∀ ops' : List (Op × ℕ), ops'.map Prod.fst = ops.map Prod.fst →
        (∀ p ∈ ops', 1 ≤ p.2 ∧ (p.2 : Int) ≤ opts.maxLevel) →
        ∃ m', (newMemTable opts).run ops' = some m' ∧ ∀ key, m'.get key = m.get key := by
  rw [← newMemTable_maxLevel hmax] at hlevels
  obtain ⟨m, hrun, hm⟩ := models_run opts ops hlevels
  refine ⟨m, hrun, hm.get_contents, ?_⟩
  intro ops' hsame hlevels'
  rw [← newMemTable_maxLevel hmax] at hlevels'
  obtain ⟨m', hrun', hm'⟩ := models_run opts ops' hlevels'
  rw [hsame] at hm'
  exact ⟨m', hrun', fun key => by rw [hm'.get_contents, hm.get_contents]⟩

/-- Four writes on two keys, with nodes of height 2 and 1. -/
theorem memTable_refines_map_four : ∃ m,
    (newMemTable ⟨2, 0⟩).run
      [(.put [7] [1], 2), (.put [5] [2], 1), (.delete [7], 1), (.put [5] [3], 2)] = some m ∧
    m.get [7] = some ([], true, true) ∧ m.get [5] = some ([3], false, true) ∧
    m.get [6] = some ([], false, false) := by
  obtain ⟨m, hrun, hget, _⟩ := memTable_refines_map ⟨2, 0⟩ (by decide)
    [(.put [7] [1], 2), (.put [5] [2], 1), (.delete [7], 1), (.put [5] [3], 2)] (by decide)
  exact ⟨m, hrun, hget [7], hget [5], hget [6]⟩

end Hallownest.Storage
