import Hallownest.Storage.Writes

namespace Hallownest.Storage

open Pointers (Linked place_insert)

/-!
# Storage — iterating over a table that is written

An iterator holds a pointer into the chain of level 0 and takes no lock, so writes may relink the
chain between two of its calls.

* `Place` — the iterator stands in the chain, with `xs` before it and `ys` behind it.
* `Place.insert`, `Place.replace` — a write splices a node in on one of the two sides, or only
  changes a value.
* `Tracks` — what the iterator has returned is a part of `xs`; what it still owes is in `ys`.
* `iteration_sorted_complete` — what the calls return, for every interleaving with writes.
-/

/-- A call on the table or on the iterator. -/
inductive Move
  | write (op : Op) (newLevel : ℕ)
  | hasNext
  | next
  deriving DecidableEq, Repr

/-- What a call has returned. -/
inductive Seen
  | wrote
  | has (more : Bool)
  | got (n : Option Node)
  deriving DecidableEq, Repr

/-- The node a call has returned. -/
def Seen.node : Seen → Option Node
  | wrote => none
  | has _ => none
  | got n => n

/-- A table, an iterator over it, and what the calls so far have returned. -/
structure Scan where
  table : MemTable
  it : Iterator
  seen : List Seen

/-- An iterator before its first call. -/
def MemTable.scan (m : MemTable) : Scan := { table := m, it := m.iterator, seen := [] }

/-- One call. -/
def Scan.step (s : Scan) : Move → Option Scan
  | .write op newLevel => do
    let table ← s.table.apply op newLevel
    return { s with table := table, seen := s.seen ++ [.wrote] }
  | .hasNext => do
    let more ← s.it.hasNext s.table
    return { s with seen := s.seen ++ [.has more] }
  | .next => do
    let (it, n) ← s.it.next s.table
    return { s with it := it, seen := s.seen ++ [.got n] }

/-- A sequence of calls. -/
def Scan.run (s : Scan) (moves : List Move) : Option Scan := moves.foldlM Scan.step s

variable {m : MemTable} {it : Iterator} {xs ys : List ℕ}

/-! ### Places in the chain -/

/-- The keys of a list of nodes. -/
def keysOf (nodes : List Node) (xs : List ℕ) : List Bytes :=
  xs.map fun a => (entryAt nodes a).key

private theorem keysOf_append (nodes : List Node) (xs ys : List ℕ) :
    keysOf nodes (xs ++ ys) = keysOf nodes xs ++ keysOf nodes ys := List.map_append

/-- The iterator stands behind the nodes `xs` of the chain and before `ys`. -/
structure Place (m : MemTable) (xs ys : List ℕ) (it : Iterator) : Prop where
  chains : Chains m.nodes m.level m.opts.maxLevel.toNat (xs ++ ys)
  curr : it.curr = xs.getLastD head

theorem Place.linked (h : Place m xs ys it) : Linked (forwardAt m.nodes 0) it.curr ys := by
  have h1 := h.chains.level_pos
  have h2 := h.chains.level_le
  have hlink := h.chains.linked 0 (by omega)
  rw [h.chains.onLevel_zero fun a ha => ha] at hlink
  rw [h.curr]
  exact hlink.suffix

theorem Place.hasNext (h : Place m xs ys it) : it.hasNext m = some (decide (ys ≠ [])) := by
  have hlink := h.linked
  cases ys with
  | nil =>
    have hnil : forwardAt m.nodes 0 it.curr = some none := hlink
    simp [Iterator.hasNext, hnil]
  | cons y ys =>
    have hnext : forwardAt m.nodes 0 it.curr = some (some y) := hlink.1
    simp [Iterator.hasNext, hnext]

/-- At the end of the chain the iterator stays. -/
theorem Place.next_end (h : Place m xs [] it) : it.next m = some (it, none) := by
  simp [Iterator.next, h.hasNext]

/-- Before the end it moves on to the next node of the chain. -/
theorem Place.next_cons {y : ℕ} (h : Place m xs (y :: ys) it) :
    ∃ n, it.next m = some ({ curr := y }, some n) ∧ n.key = (entryAt m.nodes y).key ∧
      Place m (xs ++ [y]) ys { curr := y } := by
  have hnext : forwardAt m.nodes 0 it.curr = some (some y) := h.linked.1
  obtain ⟨n, hn⟩ := h.chains.exists_node (show y ∈ xs ++ y :: ys by simp)
  refine ⟨n, ?_, by rw [entryAt_of_getElem? hn]; rfl, ?_, by simp⟩
  · simp [Iterator.next, h.hasNext, hnext, hn]
  · rw [List.append_assoc]
    exact h.chains

/-! ### Writes -/

/-- Overwriting a node leaves its key. -/
theorem key_set {nodes : List Node} {p : ℕ} {n : Node} (hn : nodes[p]? = some n) (value : Bytes)
    (tombstone : Bool) (a : ℕ) :
    (entryAt (nodes.set p { n with value := value, tombstone := tombstone }) a).key =
      (entryAt nodes a).key := by
  have hp := (List.getElem?_eq_some_iff.mp hn).1
  by_cases ha : a = p
  · subst ha
    rw [entryAt_of_getElem? (List.getElem?_set_self hp), entryAt_of_getElem? hn]
    rfl
  · unfold entryAt shapeAt
    rw [List.getElem?_set_ne (Ne.symm ha)]

theorem apply_eq (m : MemTable) (op : Op) (newLevel : ℕ) : m.apply op newLevel =
    (m.insert op.entry.key op.entry.value op.entry.tombstone newLevel).map Prod.fst := by
  cases op with
  | put key value => rfl
  | delete key => rfl

/-- A write of `key` leaves the iterator its place: all keys stay on their side of it, and there is
    no new key but `key`. -/
structure Kept (m m' : MemTable) (xs ys xs' ys' : List ℕ) (it : Iterator) (key : Bytes) : Prop where
  place : Place m' xs' ys' it
  before : (keysOf m.nodes xs).Sublist (keysOf m'.nodes xs')
  behind : (keysOf m.nodes ys).Sublist (keysOf m'.nodes ys')
  known : ∀ k ∈ keysOf m'.nodes (xs' ++ ys'), k ∈ keysOf m.nodes (xs ++ ys) ∨ k = key

/-- A new node comes to stand on one side of the iterator. -/
theorem Place.insert (h : Place m xs ys it) {m' : MemTable} {e : Entry} {newLevel : ℕ}
    (hins : Inserted m.nodes m'.nodes (xs ++ ys) e newLevel)
    (hchains : Chains m'.nodes m'.level m'.opts.maxLevel.toNat
      (insertNode m.nodes e.key (xs ++ ys))) :
    ∃ xs' ys', Kept m m' xs ys xs' ys' it e.key := by
  obtain ⟨xs', ys', hcut, hxs, hys, hlast⟩ :=
    place_insert (below_append_rest m.nodes e.key (xs ++ ys)) m.nodes.length head
  have hsame : ∀ l : List ℕ, (∀ a ∈ l, a ∈ xs ++ ys) → keysOf m'.nodes l = keysOf m.nodes l := by
    intro l hl
    refine List.map_congr_left fun a ha => ?_
    unfold entryAt
    rw [hins.old a (h.chains.lt_length (hl a ha))]
  refine ⟨xs', ys', ⟨by rw [← hcut]; exact hchains, by rw [hlast]; exact h.curr⟩, ?_, ?_, ?_⟩
  · rw [← hsame xs fun a ha => List.mem_append_left ys ha]
    exact hxs.map _
  · rw [← hsame ys fun a ha => List.mem_append_right xs ha]
    exact hys.map _
  · intro k hk
    rw [← hcut] at hk
    obtain ⟨a, ha, rfl⟩ := List.mem_map.mp hk
    rcases mem_insertNode (show a ∈ insertNode m.nodes e.key (xs ++ ys) from ha) with rfl | ha
    · right
      show (entryAt m'.nodes m.nodes.length).key = e.key
      unfold entryAt
      rw [hins.new]
    · left
      rw [← hsame (xs ++ ys) fun a ha => ha]
      exact List.mem_map_of_mem ha

/-- An overwritten node stays where it is, and so does the iterator. -/
theorem Place.replace (h : Place m xs ys it) {p : ℕ} {ps : List ℕ} {n : Node} {e : Entry}
    (hrest : rest m.nodes e.key (xs ++ ys) = p :: ps) (hn : m.nodes[p]? = some n)
    (hkey : n.key = e.key) :
    Kept m (m.replace p n e.key e.value e.tombstone).1 xs ys xs ys it e.key := by
  obtain ⟨hchains, _⟩ := h.chains.replace_spec hrest hn hkey
  have hsame : ∀ l : List ℕ, keysOf (m.replace p n e.key e.value e.tombstone).1.nodes l =
      keysOf m.nodes l :=
    fun l => List.map_congr_left fun a _ => key_set hn _ _ a
  refine ⟨⟨hchains, h.curr⟩, by rw [hsame], by rw [hsame], fun k hk => ?_⟩
  rw [hsame] at hk
  exact Or.inl hk

/-- **A write** leaves the iterator its place. -/
theorem Place.write (h : Place m xs ys it) (op : Op) {newLevel : ℕ} (h1 : 1 ≤ newLevel)
    (hle : (newLevel : Int) ≤ m.opts.maxLevel) :
    ∃ m' xs' ys', m.apply op newLevel = some m' ∧ m'.opts = m.opts ∧
      Kept m m' xs ys xs' ys' it op.key := by
  have hmax : newLevel ≤ m.opts.maxLevel.toNat := by omega
  rw [apply_eq, ← op.entry_key]
  rcases h.chains.insert_cases op.entry.key op.entry.value op.entry.tombstone hle with
    ⟨nodes', hrun, hins, hnew⟩ | ⟨p, ps, n, hrest, hn, hkey, hrun⟩
  · let m' : MemTable := { m with
      nodes := nodes'
      level := max m.level newLevel
      sizeBytes :=
        wrap64 (m.sizeBytes + ((op.entry.key.length : Int) + op.entry.value.length)) }
    have hchains : Chains m'.nodes m'.level m'.opts.maxLevel.toNat
        (insertNode m.nodes op.entry.key (xs ++ ys)) := hins.chains h.chains hnew h1 hmax
    obtain ⟨xs', ys', hkept⟩ := h.insert hins hchains
    exact ⟨m', xs', ys', by rw [hrun]; rfl, rfl, hkept⟩
  · exact ⟨(m.replace p n op.entry.key op.entry.value op.entry.tombstone).1, xs, ys,
      by rw [hrun]; rfl, rfl, h.replace hrest hn hkey⟩

/-! ### What the calls return -/

/-- The keys of the nodes that calls have returned. -/
def returned (seen : List Seen) : List Bytes := (seen.filterMap Seen.node).map Node.key

theorem returned_append (seen more : List Seen) :
    returned (seen ++ more) = returned seen ++ returned more := by
  rw [returned, List.filterMap_append, List.map_append]
  rfl

/-- `HasNext` has said that there is another node, and `Next` was not called since. -/
def Promised (seen : List Seen) : Prop :=
  ∃ i : ℕ, seen[i]? = some (.has true) ∧ ∀ l, i < l → ∀ r, seen[l]? ≠ some (.got r)

theorem promised_snoc {seen : List Seen} {x : Seen} (h : Promised (seen ++ [x])) :
    x = .has true ∨ Promised seen ∧ ∀ r, x ≠ .got r := by
  obtain ⟨i, hi, hlater⟩ := h
  rcases Nat.lt_or_ge i seen.length with hlt | hge
  · right
    rw [List.getElem?_append_left hlt] at hi
    refine ⟨⟨i, hi, fun l hl r hr => ?_⟩, fun r hr => ?_⟩
    · have hlen := (List.getElem?_eq_some_iff.mp hr).1
      exact hlater l hl r (by rw [List.getElem?_append_left hlen]; exact hr)
    · exact hlater seen.length hlt r (by rw [hr]; simp)
  · left
    rw [List.getElem?_append_right hge] at hi
    exact (List.mem_singleton.mp (List.mem_of_getElem? hi)).symm

/-- The key that a call writes. -/
def Move.key : Move → Option Bytes
  | write op _ => some op.key
  | hasNext => none
  | next => none

/-- The keys written before the iterator was made and since. -/
def writtenKeys (history : List Op) (moves : List Move) : List Bytes :=
  history.map Op.key ++ moves.filterMap Move.key

/-- What a call may return, given the calls before it and what they have returned. -/
def Fine (history : List Op) (moves : List Move) (before : List Seen) : Seen → Prop
  | .wrote => True
  | .has more => more = false → ∀ op ∈ history, op.key ∈ returned before
  | .got (some n) => n.key ∈ writtenKeys history moves
  | .got none => ¬ Promised before

/-- All calls have returned what they may. -/
def AllFine (history : List Op) (moves : List Move) (seen : List Seen) : Prop :=
  ∀ (k : ℕ) (x : Seen), seen[k]? = some x → Fine history (moves.take k) (seen.take k) x

theorem AllFine.snoc {history : List Op} {moves : List Move} {seen : List Seen}
    (h : AllFine history moves seen) (hlen : seen.length = moves.length) (mv : Move) {x : Seen}
    (hx : Fine history moves seen x) : AllFine history (moves ++ [mv]) (seen ++ [x]) := by
  intro k y hy
  rcases Nat.lt_or_ge k seen.length with hlt | hge
  · rw [List.getElem?_append_left hlt] at hy
    rw [List.take_append_of_le_length (by omega), List.take_append_of_le_length (by omega)]
    exact h k y hy
  · have hk : k = seen.length := by
      have := (List.getElem?_eq_some_iff.mp hy).1
      rw [List.length_append, List.length_singleton] at this
      omega
    subst hk
    rw [List.getElem?_append_right hge, Nat.sub_self] at hy
    obtain rfl := Option.some.inj hy
    rw [List.take_left, hlen, List.take_left]
    exact hx

/-! ### The invariant -/

/-- The iterator stands between `xs` and `ys`: what it has returned is before it, and what it owes
    from the time it was made is returned or still behind it. -/
structure Tracks (history : List Op) (moves : List Move) (s : Scan) (xs ys : List ℕ) :
    Prop where
  place : Place s.table xs ys s.it
  before : (returned s.seen).Sublist (keysOf s.table.nodes xs)
  owed : ∀ op ∈ history, op.key ∈ returned s.seen ∨ op.key ∈ keysOf s.table.nodes ys
  known : ∀ k ∈ keysOf s.table.nodes (xs ++ ys), k ∈ writtenKeys history moves
  promise : Promised s.seen → ys ≠ []

/-- What holds after any calls. -/
structure Scanned (maxLevel : Int) (history : List Op) (moves : List Move) (s : Scan) : Prop where
  maxLevel_eq : s.table.opts.maxLevel = maxLevel
  length : s.seen.length = moves.length
  fine : AllFine history moves s.seen
  tracks : ∃ xs ys, Tracks history moves s xs ys

variable {maxLevel : Int} {history : List Op} {moves : List Move} {s : Scan}

/-- **A write** goes on behind or before the iterator. -/
theorem Scanned.write (h : Scanned maxLevel history moves s) (op : Op) {newLevel : ℕ}
    (h1 : 1 ≤ newLevel) (hle : (newLevel : Int) ≤ maxLevel) :
    ∃ s', s.step (.write op newLevel) = some s' ∧
      Scanned maxLevel history (moves ++ [.write op newLevel]) s' := by
  obtain ⟨xs, ys, ht⟩ := h.tracks
  obtain ⟨m', xs', ys', hrun, hopts, hplace, hxs, hys, hkeys⟩ :=
    ht.place.write op h1 (by rw [h.maxLevel_eq]; exact hle)
  refine ⟨{ s with table := m', seen := s.seen ++ [.wrote] }, by rw [Scan.step, hrun]; rfl,
    by rw [hopts]; exact h.maxLevel_eq, by simp [h.length], h.fine.snoc h.length _ trivial,
    xs', ys', hplace, ?_, ?_, ?_, ?_⟩
  · rw [returned_append]
    exact (List.append_nil (returned s.seen)).symm ▸ ht.before.trans hxs
  · intro o ho
    rw [returned_append]
    exact (ht.owed o ho).imp (List.mem_append_left _) fun hk => hys.subset hk
  · intro k hk
    rw [writtenKeys, List.filterMap_append, ← List.append_assoc]
    rcases hkeys k hk with hold | rfl
    · exact List.mem_append_left _ (ht.known k hold)
    · exact List.mem_append_right _ (by simp [Move.key])
  · intro hp
    have hne : ys ≠ [] := by
      rcases promised_snoc hp with hno | ⟨hp, _⟩
      · cases hno
      · exact ht.promise hp
    rintro rfl
    apply hne
    have hnil : keysOf s.table.nodes ys = [] := List.sublist_nil.mp hys
    exact List.map_eq_nil_iff.mp hnil

/-- **`HasNext`** changes nothing; if it says no, nothing is owed any more. -/
theorem Scanned.hasNext (h : Scanned maxLevel history moves s) :
    ∃ s', s.step .hasNext = some s' ∧ Scanned maxLevel history (moves ++ [.hasNext]) s' := by
  obtain ⟨xs, ys, ht⟩ := h.tracks
  have hempty : returned (s.seen ++ [.has (decide (ys ≠ []))]) = returned s.seen := by
    rw [returned_append]; simp [returned, Seen.node]
  have hwritten : writtenKeys history (moves ++ [.hasNext]) = writtenKeys history moves := by
    simp [writtenKeys, Move.key]
  refine ⟨{ s with seen := s.seen ++ [.has (decide (ys ≠ []))] },
    by rw [Scan.step, ht.place.hasNext]; rfl, h.maxLevel_eq, by simp [h.length],
    h.fine.snoc h.length _ ?_, xs, ys, ht.place, ?_, ?_, ?_, ?_⟩
  · intro hno op hop
    obtain rfl : ys = [] := by simpa using hno
    exact (ht.owed op hop).resolve_right (by simp [keysOf])
  · rw [hempty]; exact ht.before
  · rw [hempty]; exact ht.owed
  · rw [hwritten]; exact ht.known
  · intro hp
    rcases promised_snoc hp with hyes | ⟨hp, _⟩
    · simpa using hyes
    · exact ht.promise hp

/-- **`Next`** returns the next node of the chain, or nothing at its end. -/
theorem Scanned.next (h : Scanned maxLevel history moves s) :
    ∃ s', s.step .next = some s' ∧ Scanned maxLevel history (moves ++ [.next]) s' := by
  obtain ⟨xs, ys, ht⟩ := h.tracks
  have hwritten : writtenKeys history (moves ++ [.next]) = writtenKeys history moves := by
    simp [writtenKeys, Move.key]
  -- the promise is kept or there was none
  have hdone : ∀ r, ¬ Promised (s.seen ++ [.got r]) := by
    intro r hp
    rcases promised_snoc hp with hno | ⟨_, hno⟩
    · cases hno
    · exact hno r rfl
  cases ys with
  | nil =>
    have hempty : returned (s.seen ++ [.got none]) = returned s.seen := by
      rw [returned_append]; simp [returned, Seen.node]
    refine ⟨{ s with seen := s.seen ++ [.got none] }, by rw [Scan.step, ht.place.next_end]; rfl,
      h.maxLevel_eq, by simp [h.length], h.fine.snoc h.length _ fun hp => ht.promise hp rfl,
      xs, [], ht.place, ?_, ?_, ?_, fun hp => absurd hp (hdone none)⟩
    · rw [hempty]; exact ht.before
    · rw [hempty]; exact ht.owed
    · rw [hwritten]; exact ht.known
  | cons y ys =>
    obtain ⟨n, hrun, hkey, hplace⟩ := ht.place.next_cons
    have hmore : returned (s.seen ++ [.got (some n)]) = returned s.seen ++ [n.key] := by
      rw [returned_append]; simp [returned, Seen.node]
    refine ⟨{ s with it := { curr := y }, seen := s.seen ++ [.got (some n)] },
      by rw [Scan.step, hrun]; rfl, h.maxLevel_eq, by simp [h.length],
      h.fine.snoc h.length _ ?_, xs ++ [y], ys, hplace, ?_, ?_, ?_,
      fun hp => absurd hp (hdone (some n))⟩
    · show n.key ∈ _
      rw [hkey]
      exact ht.known _ (List.mem_map_of_mem (by simp))
    · rw [hmore, keysOf_append, hkey]
      exact ht.before.append (List.Sublist.refl _)
    · intro op hop
      rw [hmore, hkey]
      rcases ht.owed op hop with hk | hk
      · exact Or.inl (List.mem_append_left _ hk)
      · rcases List.mem_cons.mp hk with hk | hk
        · exact Or.inl (List.mem_append_right _ (by rw [hk]; simp))
        · exact Or.inr hk
    · rw [hwritten, List.append_assoc]
      exact ht.known

/-- **A fresh iterator** over the table that the writes of `history` have left. -/
theorem Models.scanned {l : List Entry} (h : Models m l)
    (hkeys : ∀ k, (∃ e ∈ l, e.key = k) ↔ k ∈ history.map Op.key) :
    Scanned m.opts.maxLevel history [] m.scan := by
  obtain ⟨c, hc, rfl, _⟩ := h
  have hlist : keysOf m.nodes c = (c.map (entryAt m.nodes)).map Entry.key := by
    rw [keysOf, List.map_map]; rfl
  refine ⟨rfl, rfl, fun k x hx => by simp [MemTable.scan] at hx, [], c, ⟨hc, rfl⟩,
    List.nil_sublist _, fun op hop => Or.inr ?_, fun k hk => ?_, ?_⟩
  · show op.key ∈ keysOf m.nodes c
    rw [hlist]
    obtain ⟨e, he, hek⟩ := (hkeys op.key).mpr (List.mem_map_of_mem hop)
    exact List.mem_map.mpr ⟨e, he, hek⟩
  · rw [writtenKeys, List.filterMap_nil, List.append_nil]
    have hk : k ∈ keysOf m.nodes c := hk
    rw [hlist] at hk
    obtain ⟨e, he, rfl⟩ := List.mem_map.mp hk
    exact (hkeys e.key).mp ⟨e, he, rfl⟩
  · rintro ⟨i, hi, _⟩
    simp [MemTable.scan] at hi

/-- **All calls**, in any order. -/
theorem Scanned.run (h : Scanned maxLevel history [] s) (moves : List Move)
    (hlevels : ∀ op newLevel, Move.write op newLevel ∈ moves →
      1 ≤ newLevel ∧ (newLevel : Int) ≤ maxLevel) :
    ∃ s', s.run moves = some s' ∧ Scanned maxLevel history moves s' := by
  refine Run.exists_foldlM (m := Option) (I := Scanned maxLevel history) h ?_
  intro done mv rest s₁ hmoves h₁
  cases mv with
  | write op newLevel =>
    obtain ⟨h1, hle⟩ := hlevels op newLevel (by rw [hmoves]; simp)
    exact h₁.write op h1 hle
  | hasNext => exact h₁.hasNext
  | next => exact h₁.next

/-- The keys of the records are the keys that were written. -/
private theorem key_mem_contents (ops : List Op) (k : Bytes) :
    (∃ e ∈ contents ops, e.key = k) ↔ k ∈ ops.map Op.key := by
  have hnone : (∀ e ∈ contents ops, e.key ≠ k) ↔ ∀ op ∈ ops, op.key ≠ k := by
    rw [← Assoc.lookup_eq_none, lookup_contents, Option.map_eq_none_iff, lastWrite,
      List.find?_eq_none]
    simp
  simpa using not_congr hnone

/-! ### Results -/

/-- **Iteration is sorted and complete, also while the table is written.**  Take any writes, an
    iterator over the table they leave, and any sequence of calls of `HasNext`, `Next`, `Put` and
    `Delete`.  No call panics; the nodes that `Next` returns have increasing keys; once `HasNext`
    has said no, they include every key written before the iterator was made; they have only keys
    that were written; and a `HasNext` that says yes is not followed by a `Next` that returns
    nothing. -/
theorem iteration_sorted_complete (opts : MemTableOptions) (history : List (Op × ℕ))
    (hhistory : ∀ p ∈ history, 1 ≤ p.2 ∧ (p.2 : Int) ≤ (newMemTable opts).opts.maxLevel)
    (moves : List Move) (hmoves : ∀ op newLevel, Move.write op newLevel ∈ moves →
      1 ≤ newLevel ∧ (newLevel : Int) ≤ (newMemTable opts).opts.maxLevel) :
    ∃ m s, (newMemTable opts).run history = some m ∧ m.scan.run moves = some s ∧
      s.seen.length = moves.length ∧
      (returned s.seen).Pairwise (· < ·) ∧
      (∀ k : ℕ, s.seen[k]? = some (.has false) →
        ∀ p ∈ history, p.1.key ∈ returned (s.seen.take k)) ∧
      (∀ (k : ℕ) (n : Node), s.seen[k]? = some (.got (some n)) →
        (∃ p ∈ history, p.1.key = n.key) ∨
          ∃ op newLevel, Move.write op newLevel ∈ moves.take k ∧ op.key = n.key) ∧
      ∀ i j : ℕ, i < j → s.seen[i]? = some (.has true) →
        (∀ l, i < l → l < j → ∀ r, s.seen[l]? ≠ some (.got r)) →
        s.seen[j]? ≠ some (.got none) := by
  obtain ⟨m, hrun, hopts, hm⟩ := (models_new opts).run history hhistory
  have hfresh := hm.scanned (key_mem_contents (history.map Prod.fst))
  rw [← hopts] at hmoves
  obtain ⟨s, hscan, hs⟩ := hfresh.run moves hmoves
  obtain ⟨xs, ys, ht⟩ := hs.tracks
  refine ⟨m, s, hrun, hscan, hs.length, ?_, fun k hk p hp => ?_, fun k n hk => ?_,
    fun i j hij hi hbetween hj => ?_⟩
  · -- the keys returned are a part of the chain
    have hsorted : (keysOf s.table.nodes xs).Pairwise (· < ·) :=
      List.pairwise_map.mpr (ht.place.chains.sorted.sublist (List.sublist_append_left xs ys))
    exact hsorted.sublist ht.before
  · exact hs.fine k _ hk rfl p.1 (List.mem_map_of_mem hp)
  · have hwritten : n.key ∈ writtenKeys (history.map Prod.fst) (moves.take k) := hs.fine k _ hk
    rcases List.mem_append.mp hwritten with hold | hnew
    · obtain ⟨op, hop, hkey⟩ := List.mem_map.mp hold
      obtain ⟨p, hp, rfl⟩ := List.mem_map.mp hop
      exact Or.inl ⟨p, hp, hkey⟩
    · obtain ⟨mv, hmv, hkey⟩ := List.mem_filterMap.mp hnew
      cases mv with
      | write op newLevel => exact Or.inr ⟨op, newLevel, hmv, Option.some.inj hkey⟩
      | hasNext => cases hkey
      | next => cases hkey
  · -- the promise made at `i` still stands at `j`
    refine hs.fine j _ hj ⟨i, by rw [List.getElem?_take_of_lt hij]; exact hi, fun l hil r hr => ?_⟩
    rw [List.getElem?_take] at hr
    split at hr
    · rename_i hlj
      exact hbetween l hil hlj r hr
    · cases hr

/-- An iterator over one key that stands before it while a smaller and a larger key are written:
    it returns all three. -/
theorem iteration_sorted_complete_three : ∃ m s,
    (newMemTable ⟨2, 0⟩).run [(.put [5] [1], 1)] = some m ∧
    m.scan.run [.write (.put [3] [2]) 2, .next, .write (.put [9] [3]) 1, .hasNext, .next, .next,
      .hasNext] = some s ∧
    (returned s.seen).Pairwise (· < ·) ∧ returned s.seen = [[3], [5], [9]] := by
  obtain ⟨m, s, hrun, hscan, _, hsorted, _⟩ := iteration_sorted_complete ⟨2, 0⟩
    [(.put [5] [1], 1)] (by decide)
    [.write (.put [3] [2]) 2, .next, .write (.put [9] [3]) 1, .hasNext, .next, .next, .hasNext]
    (by
      intro op newLevel hin
      simp only [List.mem_cons, Move.write.injEq, reduceCtorEq, false_or, or_false,
        List.not_mem_nil] at hin
      rcases hin with ⟨_, rfl⟩ | ⟨_, rfl⟩
      · decide
      · decide)
  refine ⟨m, s, hrun, hscan, hsorted, ?_⟩
  obtain rfl := Option.some.inj (hrun.symm.trans (show (newMemTable ⟨2, 0⟩).run
    [(.put [5] [1], 1)] = some _ from rfl))
  obtain rfl := Option.some.inj (hscan.symm.trans rfl)
  decide

end Hallownest.Storage
