import Hallownest.Storage.TableGet

namespace Hallownest.Storage

/-!
# Storage — a table file shows the contents only

Two MemTables with the same contents may be very different heaps: the order of the writes, the
values that were overwritten and the random heights all leave their traces.  None of them is
left in the table file.

The file is written from what the iterator yields (`writeTable_congr`), and tables that answer
alike have one and the same sorted record list (`Models.unique`).
-/

/-- A round of the loop over the nodes does not look at the pointers. -/
private theorem writeNode_congr (S : ℕ) (ok : FileOp → Bool) (b : Builder) {n n' : Node}
    (h : n.entry = n'.entry) : writeNode S ok b n = writeNode S ok b n' := by
  have hkey : n.key = n'.key := congrArg Entry.key h
  have hvalue : n.value = n'.value := congrArg Entry.value h
  have htomb : n.tombstone = n'.tombstone := congrArg Entry.tombstone h
  unfold writeNode
  rw [hkey, hvalue, htomb]

/-- Nor does the loop. -/
private theorem foldlM_writeNode_congr (S : ℕ) (ok : FileOp → Bool) : ∀ (nodes nodes' : List Node)
    (b : Builder), nodes.map Node.entry = nodes'.map Node.entry →
    nodes.foldlM (writeNode S ok) b = nodes'.foldlM (writeNode S ok) b := by
  intro nodes
  induction nodes with
  | nil =>
    intro nodes' b h
    rw [List.map_eq_nil_iff.mp h.symm]
  | cons n nodes ih =>
    intro nodes' b h
    cases nodes' with
    | nil => simp at h
    | cons n' nodes' =>
      rw [List.map_cons, List.map_cons, List.cons.injEq] at h
      rw [List.foldlM_cons, List.foldlM_cons, writeNode_congr S ok b h.1]
      congr 1
      funext b'
      exact ih nodes' b' h.2

/-- **The file is written from the record list.** -/
theorem writeTable_congr (create : ℕ → Float → Option LumaflyBloom) (ok : FileOp → Bool)
    (expectedEntries : Int) (opts : SSTableOptions) {m m' : MemTable} {l : List Entry}
    (hm : Models m l) (hm' : Models m' l) :
    writeTable create ok m expectedEntries opts = writeTable create ok m' expectedEntries opts := by
  obtain ⟨nodes, hdrain, hnodes⟩ := hm.drain
  obtain ⟨nodes', hdrain', hnodes'⟩ := hm'.drain
  unfold writeTable
  rw [hdrain, hdrain']
  simp only [orPanic, bind, Except.bind]
  have hloop := fun b => foldlM_writeNode_congr opts.normalize.sparseInterval.toNat ok nodes nodes'
    b (hnodes.trans hnodes'.symm)
  simp only [hloop]

/-- Answers under a key tell records apart. -/
theorem lookup_of_answer {l l' : List Entry} {key : Bytes}
    (h : answer (Assoc.lookup Entry.key key l) = answer (Assoc.lookup Entry.key key l')) :
    Assoc.lookup Entry.key key l = Assoc.lookup Entry.key key l' := by
  cases hl : Assoc.lookup Entry.key key l with
  | none =>
    cases hl' : Assoc.lookup Entry.key key l' with
    | none => rfl
    | some e' =>
      rw [hl, hl'] at h
      simp [answer] at h
  | some e =>
    cases hl' : Assoc.lookup Entry.key key l' with
    | none =>
      rw [hl, hl'] at h
      simp [answer] at h
    | some e' =>
      rw [hl, hl'] at h
      have hkey := (Assoc.lookup_eq_some hl).2.trans (Assoc.lookup_eq_some hl').2.symm
      simp only [answer, Prod.mk.injEq, and_true] at h
      rw [Option.some.injEq, Entry.mk.injEq]
      exact ⟨hkey, h⟩

/-- **Tables that answer alike** have the same record list. -/
theorem Models.unique {m m' : MemTable} {l l' : List Entry} (hm : Models m l) (hm' : Models m' l')
    (h : ∀ key, m.get key = m'.get key) : l = l' := by
  refine Assoc.eq_of_lookup hm.sorted hm'.sorted fun key => lookup_of_answer ?_
  have hkey := h key
  rw [hm.get key, hm'.get key] at hkey
  exact Option.some.inj hkey

/-- **The file shows the contents only.**  Take any two sequences of writes on fresh MemTables,
    with any heights of the nodes.  If the tables answer every key alike, `BuildSSTable` does
    the same with both: it writes the same bytes, or fails in the same way. -/
theorem table_bytes_determined (memOpts memOpts' : MemTableOptions) (ops ops' : List (Op × ℕ))
    (hlevels : ∀ p ∈ ops, 1 ≤ p.2 ∧ (p.2 : Int) ≤ (newMemTable memOpts).opts.maxLevel)
    (hlevels' : ∀ p ∈ ops', 1 ≤ p.2 ∧ (p.2 : Int) ≤ (newMemTable memOpts').opts.maxLevel)
    (create : ℕ → Float → Option LumaflyBloom) (ok : FileOp → Bool) (expectedEntries : Int)
    (opts : SSTableOptions) :
    ∃ m m', (newMemTable memOpts).run ops = some m ∧ (newMemTable memOpts').run ops' = some m' ∧
      ((∀ key, m.get key = m'.get key) →
        writeTable create ok m expectedEntries opts = writeTable create ok m' expectedEntries opts ∧
        ∀ filename, buildSSTable create ok filename m expectedEntries opts =
          buildSSTable create ok filename m' expectedEntries opts) := by
  obtain ⟨m, hrun, hm⟩ := models_run memOpts ops hlevels
  obtain ⟨m', hrun', hm'⟩ := models_run memOpts' ops' hlevels'
  refine ⟨m, m', hrun, hrun', fun h => ?_⟩
  have hl := hm.unique hm' h
  rw [← hl] at hm'
  have hwrite := writeTable_congr create ok expectedEntries opts hm hm'
  refine ⟨hwrite, fun filename => ?_⟩
  unfold buildSSTable
  rw [hwrite]

/-- A value and a tombstone, written at once. -/
def atOnce : List (Op × ℕ) := [(.put [5] [3], 1), (.delete [7], 2)]

/-- The same content, written over and over with other heights. -/
def overAndOver : List (Op × ℕ) :=
  [(.put [7] [1], 3), (.delete [5], 1), (.delete [7], 2), (.put [5] [3], 4)]

theorem table_bytes_determined_two : ∃ m m',
    (newMemTable ⟨2, 0⟩).run atOnce = some m ∧ (newMemTable ⟨4, 0⟩).run overAndOver = some m' ∧
    writeTable (fun _ _ => some smallFilter) allOk m 2 ⟨8, 0.01⟩ =
      writeTable (fun _ _ => some smallFilter) allOk m' 2 ⟨8, 0.01⟩ := by
  obtain ⟨m, m', hrun, hrun', hsame⟩ := table_bytes_determined ⟨2, 0⟩ ⟨4, 0⟩ atOnce overAndOver
    (by decide) (by decide) (fun _ _ => some smallFilter) allOk 2 ⟨8, 0.01⟩
  refine ⟨m, m', hrun, hrun', (hsame fun key => ?_).1⟩
  obtain ⟨m₁, hrun₁, hm⟩ := models_run ⟨2, 0⟩ atOnce (by decide)
  obtain ⟨m₂, hrun₂, hm'⟩ := models_run ⟨4, 0⟩ overAndOver (by decide)
  obtain rfl : m₁ = m := Option.some.inj (hrun₁.symm.trans hrun)
  obtain rfl : m₂ = m' := Option.some.inj (hrun₂.symm.trans hrun')
  have hcontents : contents (atOnce.map Prod.fst) = contents (overAndOver.map Prod.fst) := by
    decide
  rw [hm.get key, hm'.get key, hcontents]

end Hallownest.Storage
