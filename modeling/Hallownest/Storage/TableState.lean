import Hallownest.Storage.Writes
import Mathlib.Algebra.Order.BigOperators.Group.List

namespace Hallownest.Storage

open Pointers (Linked)

/-!
# Storage — a table after any writes

What holds of a MemTable after any sequence of `Put` and `Delete`, whatever heights its nodes
were given.

* `skip_list_structure` — every level links the nodes that reach it, in key order, and the
  search through all levels ends where a plain walk of level 0 does.
* `size_accounting` — the counter, kept in 64 bits, is the sum of the lengths of what an iterator
  yields as long as that sum fits, and the flag a write returns is that of `IsFull`.
-/

variable {m : MemTable} {nodes : List Node} {level maxLevel : ℕ} {c : List ℕ}

/-! ### The levels -/

/-- The last node of a level whose key is smaller, or the head. -/
def lastSmaller (nodes : List Node) (key : Bytes) (xs : List ℕ) : ℕ :=
  (xs.filter fun a => decide ((entryAt nodes a).key < key)).getLastD head

/-- On a sorted level the nodes with smaller keys are those before the cut. -/
theorem Chains.pred_eq (h : Chains nodes level maxLevel c) (key : Bytes) (i : ℕ) :
    pred nodes key c i = lastSmaller nodes key (onLevel nodes i c) := by
  have hbelow : (onLevel nodes i (below nodes key c)).filter
      (fun a => decide ((entryAt nodes a).key < key)) = onLevel nodes i (below nodes key c) := by
    rw [List.filter_eq_self]
    intro a ha
    exact decide_eq_true (key_lt_of_mem_below (mem_onLevel.mp ha).1)
  have hrest : (onLevel nodes i (rest nodes key c)).filter
      (fun a => decide ((entryAt nodes a).key < key)) = [] := by
    rw [List.filter_eq_nil_iff]
    intro a ha hlt
    exact not_lt.mpr (key_le_of_mem_rest h.sorted (mem_onLevel.mp ha).1) (of_decide_eq_true hlt)
  have hfilter : (onLevel nodes i c).filter (fun a => decide ((entryAt nodes a).key < key)) =
      onLevel nodes i (below nodes key c) := by
    conv_lhs => rw [← below_append_rest nodes key c]
    rw [onLevel_append, List.filter_append, hbelow, hrest, List.append_nil]
  rw [lastSmaller, hfilter]
  rfl

/-- Above the height of the list the head points nowhere. -/
theorem Chains.head_nil (h : Chains nodes level maxLevel c) {i : ℕ} (hlevel : level ≤ i)
    (hi : i < maxLevel) : forwardAt nodes i head = some none := by
  have hlink := h.linked i hi
  have hnone : onLevel nodes i c = [] := by
    rw [onLevel, List.filter_eq_nil_iff]
    intro a ha
    have := (h.heights a ha).2
    simp only [decide_eq_true_eq]
    omega
  rw [hnone] at hlink
  exact hlink

/-- **The skip list.**  After any writes each level below `m.level` links the nodes of level 0
    that are higher, in the same order and with increasing keys; the levels above are empty; and
    for every key the searches of `insert` and `Get` end where a plain walk of level 0 does, with
    the last smaller node of each level in `update`. -/
theorem skip_list_structure (opts : MemTableOptions) (ops : List (Op × ℕ))
    (hlevels : ∀ p ∈ ops, 1 ≤ p.2 ∧ (p.2 : Int) ≤ (newMemTable opts).opts.maxLevel) :
    ∃ m c, (newMemTable opts).run ops = some m ∧ Linked (forwardAt m.nodes 0) head c ∧
      (∀ i < m.level,
        Linked (forwardAt m.nodes i) head (c.filter fun a => decide (i < heightAt m.nodes a)) ∧
        (c.filter fun a => decide (i < heightAt m.nodes a)).Pairwise (KeyLt m.nodes)) ∧
      (∀ i, m.level ≤ i → i < m.opts.maxLevel.toNat → forwardAt m.nodes i head = some none) ∧
      ∀ key, ∃ curr update,
        m.search key m.level head (List.replicate m.opts.maxLevel.toNat none) =
          some (curr, update) ∧
        m.descend key m.level head = some curr ∧
        walk m.nodes key 0 m.nodes.length head = some curr ∧
        ∀ i < m.level, update[i]? = some (some (lastSmaller m.nodes key
          (c.filter fun a => decide (i < heightAt m.nodes a)))) := by
  obtain ⟨m, hrun, c, hc, _⟩ := models_run opts ops hlevels
  have hpos := hc.level_pos
  have hle := hc.level_le
  refine ⟨m, c, hrun, ?_, fun i hi => ⟨hc.linked i (by omega), ?_⟩, fun i => hc.head_nil, ?_⟩
  · have hlink := hc.linked 0 (by omega)
    rwa [hc.onLevel_zero fun a ha => ha] at hlink
  · exact hc.sorted.sublist List.filter_sublist
  · intro key
    obtain ⟨update, hsearch, _, hslots⟩ := hc.search_eq (m.level - 1) head
      (List.replicate m.opts.maxLevel.toNat none) (by omega)
      (by rw [List.length_replicate]; omega) List.mem_cons_self
    have hdescend := hc.descend_eq key (m.level - 1) head (by omega) List.mem_cons_self
    rw [Nat.sub_add_cancel hpos] at hsearch hdescend
    refine ⟨_, update, hsearch, hdescend, hc.walk_eq_pred (by omega) List.mem_cons_self,
      fun i hi => ?_⟩
    rw [hslots, if_pos (by omega), hc.pred_eq]
    rfl

/-- Three keys with nodes of heights 2, 1 and 3: the search for a key between the last two stops
    at the second. -/
theorem skip_list_structure_three : ∃ m curr update,
    (newMemTable ⟨3, 0⟩).run [(.put [5] [1], 2), (.put [7] [2], 1), (.put [9] [3], 3)] = some m ∧
    m.search [8] m.level head (List.replicate m.opts.maxLevel.toNat none) = some (curr, update) ∧
    walk m.nodes [8] 0 m.nodes.length head = some curr := by
  obtain ⟨m, c, hrun, _, _, _, hsearch⟩ := skip_list_structure ⟨3, 0⟩
    [(.put [5] [1], 2), (.put [7] [2], 1), (.put [9] [3], 3)] (by decide)
  obtain ⟨curr, update, hins, _, hwalk, _⟩ := hsearch [8]
  exact ⟨m, curr, update, hrun, hins, hwalk⟩

/-! ### The size -/

/-- One write, with what it returns: whether the flush threshold is reached. -/
def MemTable.write (m : MemTable) (newLevel : ℕ) : Op → Option (MemTable × Bool)
  | .put key value => m.put key value newLevel
  | .delete key => m.delete key newLevel

theorem sizeOf_nonneg (l : List Entry) : 0 ≤ sizeOf l := by
  refine List.sum_nonneg fun x hx => ?_
  obtain ⟨e, _, rfl⟩ := List.mem_map.mp hx
  simp only [Entry.size]
  omega

theorem wrap64_of_lt {x : Int} (h0 : 0 ≤ x) (hlt : x < 2 ^ 63) : wrap64 x = x := by
  unfold wrap64
  rw [Int.bmod_eq_of_le (by omega) (by omega)]

/-- A write returns what `IsFull` then says. -/
theorem Models.write {l : List Entry} (h : Models m l) (op : Op) {newLevel : ℕ}
    (h1 : 1 ≤ newLevel) (hle : (newLevel : Int) ≤ m.opts.maxLevel) :
    ∃ m', m.write newLevel op = some (m', m'.isFull) ∧ m'.opts = m.opts ∧
      Models m' (Assoc.upsert Entry.key op.entry l) := by
  cases op with
  | put key value => exact h.insert key value false h1 hle
  | delete key => exact h.insert key [] true h1 hle

/-- A record of a deleted key has no value. -/
private theorem value_of_deleted (ops : List Op) :
    ∀ e ∈ contents ops, e.tombstone = true → e.value = [] := by
  intro e he htomb
  rw [contents_eq_merge] at he
  rcases Assoc.mem_merge he with hnil | hop
  · cases hnil
  · obtain ⟨op, _, rfl⟩ := List.mem_map.mp hop
    cases op with
    | put key value => cases htomb
    | delete key => rfl

/-- The counter of a table and the nodes an iterator yields: below 2^63 the counter has not
    wrapped around. -/
theorem Models.drain_size {l : List Entry} (h : Models m l) (hsize : sizeOf l < 2 ^ 63) :
    ∃ ns, Iterator.drain m m.nodes.length m.iterator = some ns ∧ ns.map Node.entry = l ∧
      m.sizeBytes = (ns.map fun n => (n.key.length : Int) + n.value.length).sum := by
  obtain ⟨ns, hdrain, hns⟩ := h.drain
  refine ⟨ns, hdrain, hns, ?_⟩
  rw [h.sizeBytes_eq, wrap64_of_lt (sizeOf_nonneg l) hsize, ← hns, sizeOf, List.map_map]
  rfl

/-- **Size accounting.**  After any number of writes the counter is the sum of the lengths of the
    keys and values that an iterator yields, where a deleted key has no value; the flag that
    `Put` and `Delete` return is that of `IsFull` after the write and says whether this sum has
    reached the threshold. -/
theorem size_accounting (opts : MemTableOptions) (ops : List (Op × ℕ))
    (hlevels : ∀ p ∈ ops, 1 ≤ p.2 ∧ (p.2 : Int) ≤ (newMemTable opts).opts.maxLevel)
    (hsizes : ∀ k, sizeOf (contents ((ops.take k).map Prod.fst)) < 2 ^ 63) (k : ℕ) :
    ∃ m ns, (newMemTable opts).run (ops.take k) = some m ∧
      Iterator.drain m m.nodes.length m.iterator = some ns ∧
      m.sizeBytes = (ns.map fun n => (n.key.length : Int) + n.value.length).sum ∧
      (∀ n ∈ ns, n.tombstone = true → n.value = []) ∧ 0 ≤ m.sizeBytes ∧
      ∀ p, ops[k]? = some p → ∃ m' ns' full, m.write p.2 p.1 = some (m', full) ∧
        Iterator.drain m' m'.nodes.length m'.iterator = some ns' ∧ full = m'.isFull ∧
        (full = true ↔ (newMemTable opts).opts.flushThreshold ≤
          (ns'.map fun n => (n.key.length : Int) + n.value.length).sum) := by
  obtain ⟨m, hrun, hopts, hm⟩ := (models_new opts).run (ops.take k)
    (fun p hp => hlevels p (List.mem_of_mem_take hp))
  replace hm : Models m (contents ((ops.take k).map Prod.fst)) := hm
  obtain ⟨ns, hdrain, hns, hsum⟩ := hm.drain_size (hsizes k)
  refine ⟨m, ns, hrun, hdrain, hsum, fun n hn htomb => ?_, ?_, fun p hp => ?_⟩
  · have hmem : n.entry ∈ contents ((ops.take k).map Prod.fst) := by
      rw [← hns]
      exact List.mem_map_of_mem hn
    exact value_of_deleted _ _ hmem htomb
  · rw [hm.sizeBytes_eq, wrap64_of_lt (sizeOf_nonneg _) (hsizes k)]
    exact sizeOf_nonneg _
  · -- the records after this write are those after `k + 1` writes
    have hnext : contents ((ops.take (k + 1)).map Prod.fst) =
        Assoc.upsert Entry.key p.1.entry (contents ((ops.take k).map Prod.fst)) := by
      rw [List.take_add_one, hp, List.map_append]
      exact contents_snoc _ p.1
    obtain ⟨h1, hle⟩ := hlevels p (List.mem_of_getElem? hp)
    obtain ⟨m', hwrite, hopts', hm'⟩ := hm.write p.1 h1 (by rw [hopts]; exact hle)
    obtain ⟨ns', hdrain', _, hsum'⟩ := hm'.drain_size
      (by rw [← hnext]; exact hsizes (k + 1))
    refine ⟨m', ns', m'.isFull, hwrite, hdrain', rfl, ?_⟩
    rw [MemTable.isFull, decide_eq_true_eq, hsum', hopts', hopts]

/-- A value that reaches the threshold of 3 bytes, and the tombstone that replaces it. -/
theorem size_accounting_tombstone : ∃ m ns m' ns' full,
    (newMemTable ⟨1, 3⟩).run [(.put [7] [1, 2], 1)] = some m ∧
    Iterator.drain m m.nodes.length m.iterator = some ns ∧
    m.sizeBytes = (ns.map fun n => (n.key.length : Int) + n.value.length).sum ∧
    m.write 1 (.delete [7]) = some (m', full) ∧
    Iterator.drain m' m'.nodes.length m'.iterator = some ns' ∧ full = m'.isFull := by
  have hsizes : ∀ k, sizeOf (contents
      ((([(.put [7] [1, 2], 1), (.delete [7], 1)] : List (Op × ℕ)).take k).map Prod.fst)) <
      2 ^ 63 := by
    intro k
    match k with
    | 0 => decide
    | 1 => decide
    | k + 2 =>
      rw [List.take_of_length_le (Nat.le_add_left 2 k)]
      decide
  obtain ⟨m, ns, hrun, hdrain, hsum, _, _, hwrite⟩ := size_accounting ⟨1, 3⟩
    [(.put [7] [1, 2], 1), (.delete [7], 1)] (by decide) hsizes 1
  obtain ⟨m', ns', full, hdelete, hdrain', hfull, _⟩ := hwrite (.delete [7], 1) rfl
  exact ⟨m, ns, m', ns', full, hrun, hdrain, hsum, hdelete, hdrain', hfull⟩

end Hallownest.Storage
