import Hallownest.Storage.SkipList

namespace Hallownest.Storage

open Pointers (Linked)

/-!
# Storage — the MemTable is a finite map

`Models m l`: the table `m` holds the sorted record list `l`.  Every operation of the table is
the operation of the same name on sorted record lists, for every height a new node may be
given:

* `Models.insert` — `insert` is `Assoc.upsert`, and does not panic;
* `Models.get` — `Get` is `Assoc.lookup`;
* `Models.drain` — iterating yields the list itself.
-/

variable {m : MemTable} {nodes : List Node} {level maxLevel : ℕ} {c : List ℕ} {key value : Bytes}
  {tombstone : Bool}

/-! ### The search through all levels -/

/-- **The search of `insert`** ends before the first key not below, with the predecessor of
    every level recorded. -/
theorem Chains.search_eq (h : Chains m.nodes level maxLevel c) : ∀ (n curr : ℕ)
    (update : List (Option ℕ)), n < maxLevel → n < update.length →
    curr ∈ head :: onLevel m.nodes n (below m.nodes key c) →
    ∃ update', m.search key (n + 1) curr update = some (pred m.nodes key c 0, update') ∧
      update'.length = update.length ∧
      ∀ j, update'[j]? = if j ≤ n then some (some (pred m.nodes key c j)) else update[j]? := by
  intro n
  induction n with
  | zero =>
    intro curr update hn hup hcurr
    refine ⟨update.set 0 (some (pred m.nodes key c 0)), ?_, List.length_set, fun j => ?_⟩
    · simp [MemTable.search, h.walk_eq_pred hn hcurr, Slice.put, hup]
    · by_cases hj : j = 0
      · subst hj; simp [hup]
      · rw [List.getElem?_set_ne (Ne.symm hj), if_neg (by omega)]
  | succ n ih =>
    intro curr update hn hup hcurr
    obtain ⟨update', hrun, hlen, hget⟩ := ih (pred m.nodes key c (n + 1))
      (update.set (n + 1) (some (pred m.nodes key c (n + 1)))) (by omega)
      (by rw [List.length_set]; omega) (pred_mem _ _ _ (Nat.le_succ n))
    refine ⟨update', ?_, by rw [hlen, List.length_set], fun j => ?_⟩
    · rw [MemTable.search, h.walk_eq_pred hn hcurr]
      simp only [Option.bind_eq_bind, Option.bind_some, Slice.put, hup, if_true]
      exact hrun
    · -- the slot of this level is written here, those below by the induction
      rw [hget]
      by_cases hj : j ≤ n
      · rw [if_pos hj, if_pos (by omega)]
      · rw [if_neg hj]
        by_cases hj' : j = n + 1
        · subst hj'; simp [hup]
        · rw [List.getElem?_set_ne (Ne.symm hj'), if_neg (by omega)]

/-- **The search of `Get`** ends at the same node. -/
theorem Chains.descend_eq (h : Chains m.nodes level maxLevel c) (key : Bytes) :
    ∀ (n curr : ℕ), n < maxLevel →
    curr ∈ head :: onLevel m.nodes n (below m.nodes key c) →
    m.descend key (n + 1) curr = some (pred m.nodes key c 0) := by
  intro n
  induction n with
  | zero =>
    intro curr hn hcurr
    simp [MemTable.descend, h.walk_eq_pred hn hcurr]
  | succ n ih =>
    intro curr hn hcurr
    rw [MemTable.descend, h.walk_eq_pred hn hcurr]
    exact ih _ (by omega) (pred_mem _ _ _ (Nat.le_succ n))

/-- Behind the node the search ends at come the nodes whose keys are not below. -/
theorem Chains.linked_rest (h : Chains nodes level maxLevel c) (key : Bytes) :
    Linked (forwardAt nodes 0) (pred nodes key c 0) (rest nodes key c) := by
  have h1 := h.level_pos
  have h2 := h.level_le
  have hlink := h.linked 0 (by omega)
  rw [← below_append_rest nodes key c, onLevel_append] at hlink
  have hsuf := hlink.suffix
  rwa [h.onLevel_zero (fun a ha => mem_of_mem_rest ha)] at hsuf

/-- The pointer the search reads last is to the first key not below. -/
theorem Chains.forwardAt_pred (h : Chains nodes level maxLevel c) (key : Bytes) :
    forwardAt nodes 0 (pred nodes key c 0) = some (rest nodes key c).head? := by
  have hlink := h.linked_rest key
  cases hrest : rest nodes key c with
  | nil => rw [hrest] at hlink; exact hlink
  | cons p ps => rw [hrest] at hlink; exact hlink.1

theorem Chains.exists_node (h : Chains nodes level maxLevel c) {a : ℕ} (ha : a ∈ c) :
    ∃ n, nodes[a]? = some n :=
  ⟨_, List.getElem?_eq_getElem (h.lt_length ha)⟩

/-- If the first key not below is another one, the key is not in the table. -/
theorem Chains.rest_ne (h : Chains nodes level maxLevel c) {p : ℕ} {ps : List ℕ}
    (hrest : rest nodes key c = p :: ps) (hne : (entryAt nodes p).key ≠ key) :
    ∀ a ∈ rest nodes key c, (entryAt nodes a).key ≠ key := by
  have hsorted : (rest nodes key c).Pairwise (KeyLt nodes) :=
    h.sorted.sublist (List.dropWhile_sublist _)
  have hp := key_le_of_mem_rest h.sorted (show p ∈ rest nodes key c by rw [hrest]; simp)
  rw [hrest] at hsorted ⊢
  intro a ha
  rcases List.mem_cons.mp ha with rfl | ha
  · exact hne
  · exact ne_of_gt (lt_of_le_of_lt hp ((List.pairwise_cons.mp hsorted).1 a ha))

/-- The record of a key is the first one not below it, or there is none. -/
theorem Chains.lookup_rest (h : Chains nodes level maxLevel c) (key : Bytes) :
    Assoc.lookup Entry.key key (c.map (entryAt nodes)) =
      match rest nodes key c with
      | [] => none
      | p :: _ => if (entryAt nodes p).key = key then some (entryAt nodes p) else none := by
  conv_lhs => rw [← below_append_rest nodes key c, List.map_append]
  rw [Assoc.lookup_append]
  · -- no record before the cut has the key, so the first one behind it decides
    cases hrest : rest nodes key c with
    | nil => rfl
    | cons p ps =>
      rw [List.map_cons, Assoc.lookup_cons]
      by_cases hkey : (entryAt nodes p).key = key
      · rw [if_pos hkey]; simp only [if_pos hkey]
      · have hne := h.rest_ne hrest hkey
        rw [hrest] at hne
        simp only [if_neg hkey]
        refine Assoc.lookup_eq_none.mpr fun r hr => ?_
        obtain ⟨a, ha, rfl⟩ := List.mem_map.mp hr
        exact hne a (List.mem_cons_of_mem p ha)
  · intro x hx
    obtain ⟨a, ha, rfl⟩ := List.mem_map.mp hx
    exact key_lt_of_mem_below ha

/-- The slots of levels that are new to the table get the head. -/
theorem raise_spec : ∀ (n i : ℕ) (update : List (Option ℕ)), i + n ≤ update.length →
    ∃ update', MemTable.raise n i update = some update' ∧
      ∀ j, update'[j]? = if i ≤ j ∧ j < i + n then some (some head) else update[j]? := by
  intro n
  induction n with
  | zero => intro i update _; exact ⟨update, rfl, fun j => by rw [if_neg (by omega)]⟩
  | succ n ih =>
    intro i update hlen
    obtain ⟨update', hrun, hget⟩ := ih (i + 1) (update.set i (some head))
      (by rw [List.length_set]; omega)
    refine ⟨update', ?_, fun j => ?_⟩
    · rw [MemTable.raise, Slice.put_of_lt (by omega)]
      exact hrun
    · rw [hget]
      by_cases hj : j = i
      · subst hj
        rw [if_neg (by omega), if_pos (by omega), List.getElem?_set_self (by omega)]
      · rw [List.getElem?_set_ne (Ne.symm hj)]
        by_cases hin : i ≤ j ∧ j < i + (n + 1)
        · rw [if_pos (by omega), if_pos hin]
        · rw [if_neg (by omega), if_neg hin]

/-! ### A new node -/

section Append

variable {n : Node} {a i : ℕ}

private theorem shapeAt_append (h : a < nodes.length) :
    shapeAt (nodes ++ [n]) a = shapeAt nodes a := by
  simp [shapeAt, List.getElem?_append_left h]

theorem shapeAt_append_self :
    shapeAt (nodes ++ [n]) nodes.length = (n.entry, n.forward.length) := by
  simp [shapeAt]

theorem forwardAt_append (h : a < nodes.length) :
    forwardAt (nodes ++ [n]) i a = forwardAt nodes i a := by
  simp [forwardAt, List.getElem?_append_left h]

end Append

/-- The same nodes with the same heights are on a level. -/
theorem onLevel_congr {nodes' : List Node} {i : ℕ} {l : List ℕ}
    (h : ∀ a ∈ l, heightAt nodes' a = heightAt nodes a) : onLevel nodes' i l = onLevel nodes i l :=
  List.filter_congr fun a ha => by rw [h a ha]

/-- The records of a list of nodes in key order are sorted. -/
theorem sorted_iff :
    c.Pairwise (KeyLt nodes) ↔ Assoc.Sorted Entry.key (c.map (entryAt nodes)) := by
  unfold Assoc.Sorted
  rw [List.pairwise_map]
  rfl

/-- Putting a record in its place, seen from the cut at its key. -/
theorem Chains.upsert_eq (h : Chains nodes level maxLevel c) (e : Entry)
    (hnew : ∀ a ∈ rest nodes e.key c, (entryAt nodes a).key ≠ e.key) :
    Assoc.upsert Entry.key e (c.map (entryAt nodes)) =
      (below nodes e.key c).map (entryAt nodes) ++
        e :: (rest nodes e.key c).map (entryAt nodes) := by
  conv_lhs => rw [← below_append_rest nodes e.key c, List.map_append]
  rw [Assoc.upsert_append]
  · congr 1
    cases hrest : rest nodes e.key c with
    | nil => rfl
    | cons y ys =>
      have hy : y ∈ rest nodes e.key c := by rw [hrest]; simp
      rw [List.map_cons, Assoc.upsert, if_neg (not_lt.mpr (key_le_of_mem_rest h.sorted hy)),
        if_neg (hnew y hy)]
  · intro x hx
    obtain ⟨a, ha, rfl⟩ := List.mem_map.mp hx
    exact key_lt_of_mem_below ha

/-- The heap `nodes'` has a new node with the record `e`, linked in on `newLevel` levels behind
    the predecessors of its key. -/
structure Inserted (nodes nodes' : List Node) (c : List ℕ) (e : Entry) (newLevel : ℕ) :
    Prop where
  old : ∀ a < nodes.length, shapeAt nodes' a = shapeAt nodes a
  new : shapeAt nodes' nodes.length = (e, newLevel)
  forward : ∀ j, ∀ a < nodes.length, forwardAt nodes' j a =
    if j < newLevel ∧ a = pred nodes e.key c j then some (some nodes.length)
    else forwardAt nodes j a
  forwardNew : ∀ j < newLevel,
    forwardAt nodes' j nodes.length = forwardAt nodes j (pred nodes e.key c j)

section Inserted

variable {nodes' : List Node} {e : Entry} {newLevel : ℕ}

/-- The nodes in key order, with the new node at its place. -/
def insertNode (nodes : List Node) (key : Bytes) (c : List ℕ) : List ℕ :=
  below nodes key c ++ nodes.length :: rest nodes key c

theorem mem_insertNode {a : ℕ} (h : a ∈ insertNode nodes key c) : a = nodes.length ∨ a ∈ c := by
  rcases List.mem_append.mp h with ha | ha
  · exact Or.inr (mem_of_mem_below ha)
  · exact (List.mem_cons.mp ha).imp_right mem_of_mem_rest

theorem Inserted.heightAt_old (hins : Inserted nodes nodes' c e newLevel) {a : ℕ}
    (ha : a < nodes.length) : heightAt nodes' a = heightAt nodes a := by
  unfold heightAt; rw [hins.old a ha]

theorem Inserted.heightAt_new (hins : Inserted nodes nodes' c e newLevel) :
    heightAt nodes' nodes.length = newLevel := by
  unfold heightAt; rw [hins.new]

/-- The records are those of before with the new one in its place. -/
theorem Inserted.records (hins : Inserted nodes nodes' c e newLevel)
    (h : Chains nodes level maxLevel c)
    (hnew : ∀ a ∈ rest nodes e.key c, (entryAt nodes a).key ≠ e.key) :
    (insertNode nodes e.key c).map (entryAt nodes') =
      Assoc.upsert Entry.key e (c.map (entryAt nodes)) := by
  have hsame : ∀ l : List ℕ, (∀ a ∈ l, a ∈ c) →
      l.map (entryAt nodes') = l.map (entryAt nodes) := by
    intro l hl
    refine List.map_congr_left fun a ha => ?_
    unfold entryAt
    rw [hins.old a (h.lt_length (hl a ha))]
  have hself : entryAt nodes' nodes.length = e := by unfold entryAt; rw [hins.new]
  unfold insertNode
  rw [h.upsert_eq e hnew, List.map_append, List.map_cons, hself,
    hsame _ (fun a ha => mem_of_mem_below ha), hsame _ (fun a ha => mem_of_mem_rest ha)]

/-- Every level links its nodes again, the new one among them if it is that high. -/
theorem Inserted.linked (hins : Inserted nodes nodes' c e newLevel)
    (h : Chains nodes level maxLevel c) {j : ℕ} (hj : j < maxLevel) :
    Linked (forwardAt nodes' j) head (onLevel nodes' j (insertNode nodes e.key c)) := by
  have hlink := h.linked j hj
  rw [← below_append_rest nodes e.key c, onLevel_append] at hlink
  have hbelow : onLevel nodes' j (below nodes e.key c) = onLevel nodes j (below nodes e.key c) :=
    onLevel_congr fun a ha => hins.heightAt_old (h.lt_length (mem_of_mem_below ha))
  have hrest : onLevel nodes' j (rest nodes e.key c) = onLevel nodes j (rest nodes e.key c) :=
    onLevel_congr fun a ha => hins.heightAt_old (h.lt_length (mem_of_mem_rest ha))
  have hvalid : ∀ b ∈ head :: (onLevel nodes j (below nodes e.key c) ++
      onLevel nodes j (rest nodes e.key c)), b < nodes.length := by
    intro b hb
    rcases List.mem_cons.mp hb with rfl | hb
    · exact h.head_lt_length
    · rcases List.mem_append.mp hb with hb | hb
      · exact h.lt_length (mem_of_mem_below (mem_onLevel.mp hb).1)
      · exact h.lt_length (mem_of_mem_rest (mem_onLevel.mp hb).1)
  unfold insertNode
  rw [onLevel_append, hbelow]
  by_cases hjn : j < newLevel
  · -- the new node is on this level, behind `pred`
    have hcons : onLevel nodes' j (nodes.length :: rest nodes e.key c) =
        nodes.length :: onLevel nodes j (rest nodes e.key c) := by
      rw [← hrest]
      exact List.filter_cons_of_pos (by rw [hins.heightAt_new]; simpa using hjn)
    have hnodup : (head :: (onLevel nodes j (below nodes e.key c) ++
        onLevel nodes j (rest nodes e.key c))).Nodup := by
      rw [← onLevel_append, below_append_rest]
      exact h.nodup.sublist (List.filter_sublist.cons_cons head)
    rw [hcons]
    apply hlink.insert hnodup _ (hins.forwardNew j hjn)
    · intro b hb hne
      rw [hins.forward j b (hvalid b hb), if_neg fun hjb => hne hjb.2]
    · rw [hins.forward j _ (hvalid _ ?_), if_pos ⟨hjn, rfl⟩]
      rcases List.mem_cons.mp (pred_mem nodes e.key c (le_refl j)) with heq | hin
      · exact List.mem_cons.mpr (Or.inl heq)
      · exact List.mem_cons_of_mem _ (List.mem_append_left _ hin)
  · -- the new node does not reach this level
    have hskip : onLevel nodes' j (nodes.length :: rest nodes e.key c) =
        onLevel nodes j (rest nodes e.key c) := by
      rw [← hrest]
      exact List.filter_cons_of_neg (by rw [hins.heightAt_new]; simpa using hjn)
    rw [hskip]
    apply hlink.frame
    intro b hb
    rw [hins.forward j b (hvalid b hb), if_neg fun hjb => hjn hjb.1]

/-- **A new node** keeps the invariant. -/
theorem Inserted.chains (hins : Inserted nodes nodes' c e newLevel)
    (h : Chains nodes level maxLevel c)
    (hnew : ∀ a ∈ rest nodes e.key c, (entryAt nodes a).key ≠ e.key) (h1 : 1 ≤ newLevel)
    (hle : newLevel ≤ maxLevel) :
    Chains nodes' (max level newLevel) maxLevel (insertNode nodes e.key c) := by
  have hlevel := h.level_le
  have hpos := h.level_pos
  exact {
    level_pos := by omega
    level_le := by omega
    headHeight := by rw [hins.heightAt_old h.head_lt_length]; exact h.headHeight
    notHead := by
      intro hin
      rcases mem_insertNode hin with heq | hin
      · exact absurd h.head_lt_length (by omega)
      · exact h.notHead hin
    heights := by
      intro a ha
      rcases mem_insertNode ha with rfl | ha
      · rw [hins.heightAt_new]; omega
      · rw [hins.heightAt_old (h.lt_length ha)]
        have := h.heights a ha
        omega
    sorted := by
      rw [sorted_iff, hins.records h hnew]
      exact Assoc.sorted_upsert e (sorted_iff.mp h.sorted)
    linked := fun j hj => hins.linked h hj }

end Inserted

/-- **Linking in a node with a new key.** -/
theorem Chains.add_inserted (h : Chains m.nodes m.level maxLevel c) {update : List (Option ℕ)}
    (hlen : update.length = maxLevel)
    (hupdate : ∀ j < m.level, update[j]? = some (some (pred m.nodes key c j))) (value : Bytes)
    (tombstone : Bool) {newLevel : ℕ} (hle : newLevel ≤ maxLevel) :
    ∃ nodes', m.add update key value tombstone newLevel = some
        (let m' := { m with
          nodes := nodes'
          level := max m.level newLevel
          sizeBytes := wrap64 (m.sizeBytes + ((key.length : Int) + value.length)) }
         (m', decide (m'.sizeBytes ≥ m'.opts.flushThreshold))) ∧
      Inserted m.nodes nodes' c ⟨key, value, tombstone⟩ newLevel := by
  have hlevel := h.level_le
  obtain ⟨update', hraise, hslots⟩ := raise_spec (newLevel - m.level) m.level update (by omega)
  let newNode : Node :=
    { key := key, value := value, tombstone := tombstone,
      forward := List.replicate newLevel none }
  -- a predecessor is the head or a node of the table, and high enough
  have hpredMem : ∀ j, pred m.nodes key c j = head ∨
      pred m.nodes key c j ∈ c ∧ j < heightAt m.nodes (pred m.nodes key c j) := by
    intro j
    rcases List.mem_cons.mp (pred_mem m.nodes key c (le_refl j)) with heq | hmem
    · exact Or.inl heq
    · obtain ⟨hb, hlt⟩ := mem_onLevel.mp hmem
      exact Or.inr ⟨mem_of_mem_below hb, hlt⟩
  have hpredHeight : ∀ j < newLevel, j < heightAt m.nodes (pred m.nodes key c j) := by
    intro j hj
    rcases hpredMem j with heq | ⟨_, hlt⟩
    · rw [heq, h.headHeight]; omega
    · exact hlt
  -- on the levels that are new to the table the predecessor is the head
  have hpred : ∀ j < newLevel, update'[j]? = some (some (pred m.nodes key c j)) := by
    intro j hj
    rw [hslots]
    by_cases hjl : j < m.level
    · rw [if_neg (by omega)]; exact hupdate j hjl
    · rw [if_pos (by omega)]
      rcases hpredMem j with heq | ⟨hmem, hlt⟩
      · rw [heq]
      · have := (h.heights _ hmem).2
        omega
  have hshape : ∀ a < m.nodes.length, shapeAt (m.nodes ++ [newNode]) a = shapeAt m.nodes a :=
    fun a ha => shapeAt_append ha
  obtain ⟨nodes', hlink, _, hshape', hfwd⟩ := link_spec update' (pred m.nodes key c)
    m.nodes.length newLevel 0 (m.nodes ++ [newNode])
    (by rw [heightAt, shapeAt_append_self]; simp [newNode])
    (by
      intro j _ hj
      have hlt := hpredHeight j (by omega)
      have hin := lt_length_of_height hlt
      refine ⟨hpred j (by omega), ne_of_lt hin, ?_⟩
      rw [heightAt, hshape _ hin]; exact hlt)
  have hins : Inserted m.nodes nodes' c ⟨key, value, tombstone⟩ newLevel := {
    old := fun a ha => by rw [hshape', hshape a ha]
    new := by rw [hshape', shapeAt_append_self]; simp [newNode, Node.entry]
    forward := by
      intro j a ha
      rw [hfwd, if_neg (ne_of_lt ha), forwardAt_append ha]
      by_cases hj : j < newLevel
      · rw [if_pos (by omega)]
        by_cases hap : a = pred m.nodes key c j
        · rw [if_pos hap, if_pos ⟨hj, hap⟩]
        · rw [if_neg hap, if_neg fun hja => hap hja.2]
      · rw [if_neg (by omega), if_neg fun hja => hj hja.1]
    forwardNew := by
      intro j hj
      rw [hfwd, if_pos (by omega), if_pos rfl,
        forwardAt_append (lt_length_of_height (hpredHeight j hj))] }
  refine ⟨nodes', ?_, hins⟩
  simp only [MemTable.add, hraise, Option.bind_eq_bind, Option.bind_some]
  rw [show MemTable.link update' m.nodes.length newLevel 0 (m.nodes ++ [newNode]) = some nodes'
    from hlink]
  rfl

/-! ### A key that exists -/

/-- **Overwriting the contents of the node that holds the key.** -/
theorem Chains.replace_spec (h : Chains nodes level maxLevel c) {p : ℕ} {ps : List ℕ} {n : Node}
    (hrest : rest nodes key c = p :: ps) (hn : nodes[p]? = some n) (hkey : n.key = key) :
    Chains (nodes.set p { n with value := value, tombstone := tombstone }) level maxLevel c ∧
      c.map (entryAt (nodes.set p { n with value := value, tombstone := tombstone })) =
        Assoc.upsert Entry.key ⟨key, value, tombstone⟩ (c.map (entryAt nodes)) := by
  have hp : p < nodes.length := (List.getElem?_eq_some_iff.mp hn).1
  generalize hset : nodes.set p { n with value := value, tombstone := tombstone } = nodes'
  have hget : nodes'[p]? = some { n with value := value, tombstone := tombstone } := by
    rw [← hset, List.getElem?_set_self hp]
  have hother : ∀ a, a ≠ p → nodes'[a]? = nodes[a]? := by
    intro a ha
    rw [← hset, List.getElem?_set_ne (Ne.symm ha)]
  -- pointers and heights are as before
  have hheight : heightAt nodes' = heightAt nodes := by
    funext a
    by_cases ha : a = p
    · subst ha; rw [heightAt_of_getElem? hget, heightAt_of_getElem? hn]
    · unfold heightAt shapeAt; rw [hother a ha]
  have hfwd : forwardAt nodes' = forwardAt nodes := by
    funext i a
    by_cases ha : a = p
    · subst ha; simp [forwardAt, hget, hn]
    · unfold forwardAt; rw [hother a ha]
  -- the node is the first one behind the cut, and only its record changes
  have hcut := below_append_rest nodes key c
  rw [hrest] at hcut
  have hnodup : c.Nodup := (List.nodup_cons.mp h.nodup).2
  have hmap : c.map (entryAt nodes') =
      Assoc.upsert Entry.key ⟨key, value, tombstone⟩ (c.map (entryAt nodes)) := by
    have hsame : ∀ l : List ℕ, p ∉ l → l.map (entryAt nodes') = l.map (entryAt nodes) := by
      intro l hl
      refine List.map_congr_left fun a ha => ?_
      unfold entryAt shapeAt
      rw [hother a (fun heq => hl (heq ▸ ha))]
    rw [← hcut] at hnodup
    have hpb : p ∉ below nodes key c := fun hin =>
      (List.nodup_append.mp hnodup).2.2 p hin p (by simp) rfl
    have hps : p ∉ ps := (List.nodup_cons.mp (List.nodup_append.mp hnodup).2.1).1
    have hold : entryAt nodes p = n.entry := entryAt_of_getElem? hn
    have hnew : entryAt nodes' p = ⟨key, value, tombstone⟩ := by
      rw [entryAt_of_getElem? hget, ← hkey]; rfl
    rw [← hcut, List.map_append, List.map_append, List.map_cons, List.map_cons, hsame _ hpb,
      hsame _ hps, hnew, Assoc.upsert_append]
    · rw [Assoc.upsert, if_neg, if_pos]
      · rw [hold]; exact hkey
      · rw [hold]; exact not_lt.mpr (le_of_eq hkey.symm)
    · intro x hx
      obtain ⟨a, ha, rfl⟩ := List.mem_map.mp hx
      exact key_lt_of_mem_below ha
  refine ⟨?_, hmap⟩
  exact {
    level_pos := h.level_pos
    level_le := h.level_le
    headHeight := by rw [hheight]; exact h.headHeight
    notHead := h.notHead
    heights := by rw [hheight]; exact h.heights
    sorted := by
      rw [sorted_iff, hmap]
      exact Assoc.sorted_upsert _ (sorted_iff.mp h.sorted)
    linked := by
      intro i hi
      have hon : onLevel nodes' i c = onLevel nodes i c := by unfold onLevel; rw [hheight]
      rw [hfwd, hon]
      exact h.linked i hi }

/-- **What `insert` does**: a node is linked in for a new key, or the node that holds the key is
    overwritten. -/
theorem Chains.insert_cases (h : Chains m.nodes m.level m.opts.maxLevel.toNat c)
    (key value : Bytes) (tombstone : Bool) {newLevel : ℕ}
    (hle : (newLevel : Int) ≤ m.opts.maxLevel) :
    (∃ nodes', m.insert key value tombstone newLevel = some
        (let m' := { m with
          nodes := nodes'
          level := max m.level newLevel
          sizeBytes := wrap64 (m.sizeBytes + ((key.length : Int) + value.length)) }
         (m', decide (m'.sizeBytes ≥ m'.opts.flushThreshold))) ∧
      Inserted m.nodes nodes' c ⟨key, value, tombstone⟩ newLevel ∧
      ∀ a ∈ rest m.nodes key c, (entryAt m.nodes a).key ≠ key) ∨
    ∃ p ps n, rest m.nodes key c = p :: ps ∧ m.nodes[p]? = some n ∧ n.key = key ∧
      m.insert key value tombstone newLevel = some (m.replace p n key value tombstone) := by
  have hpos := h.level_pos
  have hlevel := h.level_le
  -- the search stops at the predecessor, behind which `rest` begins
  obtain ⟨update, hsearch, hlen, hslots⟩ := h.search_eq (m.level - 1) head
    (List.replicate m.opts.maxLevel.toNat none) (by omega)
    (by rw [List.length_replicate]; omega) List.mem_cons_self
  rw [Nat.sub_add_cancel hpos] at hsearch
  obtain ⟨nodes', hadd, hins⟩ := h.add_inserted (hlen.trans (List.length_replicate ..))
    (fun j hj => by rw [hslots, if_pos (by omega)]) value tombstone
    (show newLevel ≤ m.opts.maxLevel.toNat by omega)
  unfold MemTable.insert
  rw [hsearch]
  simp only [Option.bind_eq_bind, Option.bind_some, h.forwardAt_pred key]
  cases hrest : rest m.nodes key c with
  | nil => exact Or.inl ⟨nodes', hadd, hins, by simp⟩
  | cons p ps =>
    have hp : p ∈ rest m.nodes key c := by rw [hrest]; simp
    obtain ⟨n, hn⟩ := h.exists_node (mem_of_mem_rest hp)
    simp only [List.head?_cons, hn, Option.bind_some]
    by_cases hkey : n.key = key
    · rw [if_pos hkey]
      exact Or.inr ⟨p, ps, n, rfl, hn, hkey, rfl⟩
    · rw [if_neg hkey]
      have hne : (entryAt m.nodes p).key ≠ key := by rw [entryAt_of_getElem? hn]; exact hkey
      have hnew := h.rest_ne hrest hne
      rw [hrest] at hnew
      exact Or.inl ⟨nodes', hadd, hins, hnew⟩

/-! ### Tables as sorted record lists -/

/-- The accounted size of a record list. -/
def sizeOf (l : List Entry) : Int := (l.map Entry.size).sum

/-- **The table `m` holds the sorted record list `l`.**  The counter is kept in 64 bits. -/
def Models (m : MemTable) (l : List Entry) : Prop :=
  ∃ c, Chains m.nodes m.level m.opts.maxLevel.toNat c ∧ c.map (entryAt m.nodes) = l ∧
    m.sizeBytes = wrap64 (sizeOf l)

/-- The records of a table are sorted. -/
theorem Models.sorted {l : List Entry} (h : Models m l) : Assoc.Sorted Entry.key l := by
  obtain ⟨c, hc, rfl, _⟩ := h
  exact sorted_iff.mp hc.sorted

/-- The counter of a table. -/
theorem Models.sizeBytes_eq {l : List Entry} (h : Models m l) :
    m.sizeBytes = wrap64 (sizeOf l) := by
  obtain ⟨_, _, _, hsize⟩ := h
  exact hsize

/-- A fresh table is empty. -/
theorem models_new (opts : MemTableOptions) : Models (newMemTable opts) [] := by
  have hmax : 1 ≤ (newMemTable opts).opts.maxLevel.toNat := by
    simp only [newMemTable, defaultMaxLevel]
    split <;> omega
  refine ⟨[], ?_, rfl, rfl⟩
  exact {
    level_pos := le_refl 1
    level_le := hmax
    headHeight := by simp [newMemTable, heightAt, shapeAt, head]
    notHead := by simp
    heights := by simp
    sorted := List.Pairwise.nil
    linked := by
      intro i hi
      show forwardAt (newMemTable opts).nodes i head = some none
      have hi' : i < (newMemTable opts).opts.maxLevel.toNat := hi
      simp only [newMemTable] at hi' ⊢
      simp [forwardAt, head, hi'] }

/-- The size after an update. -/
theorem sizeOf_upsert {l : List Entry} (hl : Assoc.Sorted Entry.key l) (e : Entry) :
    sizeOf (Assoc.upsert Entry.key e l) =
      sizeOf l + e.size - ((Assoc.lookup Entry.key e.key l).map Entry.size).getD 0 :=
  Assoc.sum_upsert Entry.size e hl

/-- Wrapping around the first summand changes nothing. -/
theorem wrap64_add (x y : Int) : wrap64 (wrap64 x + y) = wrap64 (x + y) :=
  Int.bmod_add_bmod

/-- **Insertion refines the map update**, for every height a new node may get. -/
theorem Models.insert {l : List Entry} (h : Models m l) (key value : Bytes) (tombstone : Bool)
    {newLevel : ℕ} (h1 : 1 ≤ newLevel) (hle : (newLevel : Int) ≤ m.opts.maxLevel) :
    ∃ m', m.insert key value tombstone newLevel =
        some (m', decide (m'.sizeBytes ≥ m'.opts.flushThreshold)) ∧ m'.opts = m.opts ∧
      Models m' (Assoc.upsert Entry.key ⟨key, value, tombstone⟩ l) := by
  obtain ⟨c, hc, rfl, hsize⟩ := h
  have hsorted := sorted_iff.mp hc.sorted
  have hlookup := hc.lookup_rest key
  have hmax : newLevel ≤ m.opts.maxLevel.toNat := by omega
  rcases hc.insert_cases key value tombstone hle with
    ⟨nodes', hrun, hins, hnew⟩ | ⟨p, ps, n, hrest, hn, hkey, hrun⟩
  · refine ⟨_, hrun, rfl, _, hins.chains hc hnew h1 hmax, hins.records hc hnew, ?_⟩
    have hnone : Assoc.lookup Entry.key key (c.map (entryAt m.nodes)) = none := by
      rw [hlookup]
      cases hrest : rest m.nodes key c with
      | nil => rfl
      | cons p ps => exact if_neg (hnew p (by rw [hrest]; simp))
    show wrap64 (m.sizeBytes + ((key.length : Int) + value.length)) = _
    rw [sizeOf_upsert hsorted, hnone, hsize, wrap64_add]
    simp [Entry.size]
  · -- the size changes by the difference of the two records
    obtain ⟨hc', hmap⟩ := hc.replace_spec hrest hn hkey
    refine ⟨_, hrun, rfl, c, hc', hmap, ?_⟩
    have hentry := entryAt_of_getElem? hn
    have hfound : Assoc.lookup Entry.key key (c.map (entryAt m.nodes)) = some n.entry := by
      rw [hlookup, hrest]
      simp only [hentry]
      exact if_pos hkey
    show wrap64 (m.sizeBytes + (((key.length : Int) + value.length) -
      ((n.key.length : Int) + n.value.length))) = _
    rw [sizeOf_upsert hsorted, hfound, hsize, wrap64_add, ← add_sub_assoc]
    rfl

/-- The answer of `Get` for a record, or for none. -/
def answer : Option Entry → Bytes × Bool × Bool
  | some e => (e.value, e.tombstone, true)
  | none => ([], false, false)

/-- **`Get` refines the map lookup**, and does not panic. -/
theorem Models.get {l : List Entry} (h : Models m l) (key : Bytes) :
    m.get key = some (answer (Assoc.lookup Entry.key key l)) := by
  obtain ⟨c, hc, rfl, _⟩ := h
  have hpos := hc.level_pos
  have hlevel := hc.level_le
  have hsearch := hc.descend_eq key (m.level - 1) head (by omega) List.mem_cons_self
  rw [Nat.sub_add_cancel hpos] at hsearch
  unfold MemTable.get
  rw [hsearch, hc.lookup_rest key]
  simp only [Option.bind_eq_bind, Option.bind_some, hc.forwardAt_pred key]
  cases hrest : rest m.nodes key c with
  | nil => rfl
  | cons p ps =>
    have hp : p ∈ rest m.nodes key c := by rw [hrest]; simp
    obtain ⟨n, hn⟩ := hc.exists_node (mem_of_mem_rest hp)
    simp only [List.head?_cons, hn, Option.bind_some, entryAt_of_getElem? hn]
    by_cases hkey : n.key = key
    · rw [if_pos hkey, if_pos (show n.entry.key = key from hkey)]; rfl
    · rw [if_neg hkey, if_neg (show ¬ n.entry.key = key from hkey)]; rfl

/-! ### Iteration -/

/-- The loop over the iterator visits the chain of level 0. -/
private theorem drain_eq {xs : List ℕ} {curr : ℕ} : ∀ {fuel : ℕ},
    Linked (forwardAt m.nodes 0) curr xs → (∀ x ∈ xs, x < m.nodes.length) → xs.length < fuel →
    ∃ ns, Iterator.drain m fuel { curr := curr } = some ns ∧
      ns.map Node.entry = xs.map (entryAt m.nodes) := by
  induction xs generalizing curr with
  | nil =>
    intro fuel hlink _ hfuel
    obtain ⟨fuel, rfl⟩ : ∃ f, fuel = f + 1 := ⟨fuel - 1, by omega⟩
    have hnil : forwardAt m.nodes 0 curr = some none := hlink
    exact ⟨[], by simp [Iterator.drain, Iterator.hasNext, hnil], rfl⟩
  | cons x xs ih =>
    intro fuel hlink hxs hfuel
    obtain ⟨fuel, rfl⟩ : ∃ f, fuel = f + 1 := ⟨fuel - 1, by omega⟩
    have hnext : forwardAt m.nodes 0 curr = some (some x) := hlink.1
    have hget := List.getElem?_eq_getElem (hxs x (by simp))
    obtain ⟨ns, hrun, hns⟩ := ih hlink.2 (fun z hz => hxs z (by simp [hz]))
      (show xs.length < fuel by rw [List.length_cons] at hfuel; omega)
    refine ⟨_ :: ns, ?_, by rw [List.map_cons, List.map_cons, hns, entryAt_of_getElem? hget]⟩
    simp [Iterator.drain, Iterator.hasNext, Iterator.next, hnext, hget, hrun]

/-- **Iteration** yields the records in key order. -/
theorem Models.drain {l : List Entry} (h : Models m l) :
    ∃ ns, Iterator.drain m m.nodes.length m.iterator = some ns ∧ ns.map Node.entry = l := by
  obtain ⟨c, hc, rfl, _⟩ := h
  have hpos := hc.level_pos
  have hlevel := hc.level_le
  have hlink := hc.linked 0 (by omega)
  rw [hc.onLevel_zero fun a ha => ha] at hlink
  exact drain_eq hlink (fun a ha => hc.lt_length ha) hc.length_lt

end Hallownest.Storage
