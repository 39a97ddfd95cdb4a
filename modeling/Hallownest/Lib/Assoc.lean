import Mathlib.Algebra.Ring.Int.Defs
import Mathlib.Data.List.Lex
import Mathlib.Order.Lattice

namespace Assoc

/-!
# Sorted record lists

A finite map kept as a list of records in strictly ascending key order.  The key is read off
a record by a function `key`, so the same lists serve as maps from keys to records of any
shape.

* `upsert` replaces the record of a key or inserts it at its place.
* `lookup` finds the record of a key.  `lookup_upsert` is the map law, and `eq_of_lookup` says
  that a list is determined by what is found in it.
* `merge` writes a list of records over another.  `lookup_merge` is the law of later writes;
  `merge_of_sorted` says that records above all others are appended.
* A list that is cut at a key (`xs` below, `ys` not below) is updated and searched in its
  second part only: `upsert_append`, `lookup_append`.
-/

variable {κ ρ : Type} [LinearOrder κ] {key : ρ → κ}

/-- Keys strictly ascend. -/
def Sorted (key : ρ → κ) (l : List ρ) : Prop := l.Pairwise fun r s => key r < key s

/-- Put a record in its place, replacing the one with its key. -/
def upsert (key : ρ → κ) (r : ρ) : List ρ → List ρ
  | [] => [r]
  | s :: l =>
    if key s < key r then s :: upsert key r l
    else if key s = key r then r :: l
    else r :: s :: l

/-- The record of a key. -/
def lookup (key : ρ → κ) (k : κ) (l : List ρ) : Option ρ := l.find? fun r => decide (key r = k)

@[simp] theorem lookup_nil (k : κ) : lookup key k [] = none := rfl

theorem lookup_cons (k : κ) (r : ρ) (l : List ρ) :
    lookup key k (r :: l) = if key r = k then some r else lookup key k l := by
  unfold lookup
  by_cases h : key r = k <;> simp [h]

/-- Nothing is found under a key that no record has. -/
theorem lookup_eq_none {k : κ} {l : List ρ} : lookup key k l = none ↔ ∀ r ∈ l, key r ≠ k := by
  unfold lookup
  simp [List.find?_eq_none]

/-- A record of a sorted list is found under its key. -/
theorem lookup_of_mem {l : List ρ} (hl : Sorted key l) {r : ρ} (hr : r ∈ l) :
    lookup key (key r) l = some r := by
  induction l with
  | nil => simp at hr
  | cons s l ih =>
    rw [lookup_cons]
    obtain ⟨hlt, htail⟩ := List.pairwise_cons.mp hl
    rcases List.mem_cons.mp hr with rfl | hr
    · rw [if_pos rfl]
    · rw [if_neg (ne_of_lt (hlt r hr))]
      exact ih htail hr

/-- What is found under a key is a record of the list with this key. -/
theorem lookup_eq_some {l : List ρ} {k : κ} {r : ρ} (h : lookup key k l = some r) :
    r ∈ l ∧ key r = k := by
  have hkey := List.find?_some h
  exact ⟨List.mem_of_find?_eq_some h, by simpa using hkey⟩

/-- **Sorted lists that show the same are the same.** -/
theorem eq_of_lookup {l l' : List ρ} (hl : Sorted key l) (hl' : Sorted key l')
    (h : ∀ k, lookup key k l = lookup key k l') : l = l' := by
  have hnodup : ∀ {xs : List ρ}, Sorted key xs → xs.Nodup := by
    intro xs hxs
    refine hxs.imp fun {a b} hab => ?_
    rintro rfl
    exact lt_irrefl _ hab
  have hmem : ∀ r, r ∈ l ↔ r ∈ l' := by
    intro r
    constructor
    · intro hr
      exact (lookup_eq_some ((h _).symm.trans (lookup_of_mem hl hr))).1
    · intro hr
      exact (lookup_eq_some ((h _).trans (lookup_of_mem hl' hr))).1
  refine List.Perm.eq_of_pairwise ?_ hl hl'
    ((List.perm_ext_iff_of_nodup (hnodup hl) (hnodup hl')).mpr hmem)
  intro a b _ _ hab hba
  exact absurd hab (lt_asymm hba)

/-- **The map law.** -/
theorem lookup_upsert (k : κ) (r : ρ) (l : List ρ) :
    lookup key k (upsert key r l) = if key r = k then some r else lookup key k l := by
  induction l with
  | nil => rw [upsert, lookup_cons]
  | cons s l ih =>
    unfold upsert
    by_cases hlt : key s < key r
    · rw [if_pos hlt, lookup_cons, lookup_cons, ih]
      by_cases hs : key s = k
      · rw [if_pos hs, if_pos hs, if_neg (fun h => ne_of_lt hlt (hs.trans h.symm))]
      · rw [if_neg hs, if_neg hs]
    · rw [if_neg hlt]
      by_cases heq : key s = key r
      · rw [if_pos heq, lookup_cons, lookup_cons, heq]
        by_cases hr : key r = k
        · rw [if_pos hr, if_pos hr]
        · rw [if_neg hr, if_neg hr, if_neg hr]
      · rw [if_neg heq, lookup_cons]

/-- A record that is put in its place is the new one or an old one. -/
theorem mem_upsert {r s : ρ} {l : List ρ} (h : s ∈ upsert key r l) : s = r ∨ s ∈ l := by
  induction l with
  | nil => simpa [upsert] using h
  | cons t l ih =>
    unfold upsert at h
    split at h
    · rcases List.mem_cons.mp h with rfl | h
      · exact Or.inr (by simp)
      · exact (ih h).imp_right (List.mem_cons_of_mem t)
    · split at h
      · rcases List.mem_cons.mp h with rfl | h
        · exact Or.inl rfl
        · exact Or.inr (List.mem_cons_of_mem t h)
      · simpa using h

/-- Updating keeps the order. -/
theorem sorted_upsert (r : ρ) {l : List ρ} (hl : Sorted key l) : Sorted key (upsert key r l) := by
  induction l with
  | nil => simp [upsert, Sorted]
  | cons s l ih =>
    obtain ⟨hlt, htail⟩ := List.pairwise_cons.mp hl
    unfold upsert
    by_cases h : key s < key r
    · rw [if_pos h]
      refine List.pairwise_cons.mpr ⟨fun t ht => ?_, ih htail⟩
      rcases mem_upsert ht with rfl | ht
      · exact h
      · exact hlt t ht
    · rw [if_neg h]
      by_cases heq : key s = key r
      · rw [if_pos heq]
        exact List.pairwise_cons.mpr ⟨fun t ht => heq ▸ hlt t ht, htail⟩
      · rw [if_neg heq]
        have hrs : key r < key s := lt_of_le_of_ne (not_lt.mp h) (Ne.symm heq)
        refine List.pairwise_cons.mpr ⟨fun t ht => ?_, hl⟩
        rcases List.mem_cons.mp ht with rfl | ht
        · exact hrs
        · exact lt_trans hrs (hlt t ht)

/-- A sum over the records changes by the new record and the one it replaces. -/
theorem sum_upsert (f : ρ → Int) (r : ρ) {l : List ρ} (hl : Sorted key l) :
    ((upsert key r l).map f).sum =
      (l.map f).sum + f r - ((lookup key (key r) l).map f).getD 0 := by
  induction l with
  | nil => simp [upsert]
  | cons s l ih =>
    obtain ⟨hlt, htail⟩ := List.pairwise_cons.mp hl
    rw [upsert, lookup_cons]
    by_cases h : key s < key r
    · rw [if_pos h, if_neg (ne_of_lt h), List.map_cons, List.sum_cons, ih htail, List.map_cons,
        List.sum_cons]
      omega
    · rw [if_neg h]
      by_cases heq : key s = key r
      · rw [if_pos heq, if_pos heq]
        simp only [List.map_cons, List.sum_cons, Option.map_some, Option.getD_some]
        omega
      · -- the key is new: all records that follow are above it
        have hrs : key r < key s := lt_of_le_of_ne (not_lt.mp h) (Ne.symm heq)
        have hnone : lookup key (key r) l = none :=
          lookup_eq_none.mpr fun t ht => ne_of_gt (lt_trans hrs (hlt t ht))
        rw [if_neg heq, if_neg heq, hnone]
        simp only [List.map_cons, List.sum_cons, Option.map_none, Option.getD_none]
        omega

/-- Looking a key up among the records that pass a test. -/
theorem lookup_filter (p : ρ → Bool) (k : κ) {l : List ρ} (hl : Sorted key l) :
    lookup key k (l.filter p) = (lookup key k l).filter p := by
  induction l with
  | nil => rfl
  | cons r l ih =>
    obtain ⟨hlt, htail⟩ := List.pairwise_cons.mp hl
    rw [lookup_cons]
    by_cases hk : key r = k
    · rw [if_pos hk]
      cases hp : p r with
      | true => rw [List.filter_cons_of_pos hp, lookup_cons, if_pos hk, Option.filter_some_pos hp]
      | false =>
        -- the records behind have other keys
        have hnone : lookup key k (l.filter p) = none :=
          lookup_eq_none.mpr fun s hs => ne_of_gt (hk ▸ hlt s (List.mem_of_mem_filter hs))
        rw [List.filter_cons_of_neg (by simp [hp]), hnone, Option.filter_some_neg (by simp [hp])]
    · rw [if_neg hk, ← ih htail]
      cases hp : p r with
      | true => rw [List.filter_cons_of_pos hp, lookup_cons, if_neg hk]
      | false => rw [List.filter_cons_of_neg (by simp [hp])]

/-! ### Lists cut at a key -/

section Cut

variable {xs ys : List ρ}

/-- Records below the new one stay where they are. -/
theorem upsert_append {r : ρ} (hxs : ∀ x ∈ xs, key x < key r) :
    upsert key r (xs ++ ys) = xs ++ upsert key r ys := by
  induction xs with
  | nil => rfl
  | cons x xs ih =>
    rw [List.cons_append, upsert, if_pos (hxs x (by simp)), ih fun y hy => hxs y (by simp [hy])]
    rfl

/-- Records below a key do not matter for looking it up. -/
theorem lookup_append {k : κ} (hxs : ∀ x ∈ xs, key x < k) :
    lookup key k (xs ++ ys) = lookup key k ys := by
  induction xs with
  | nil => rfl
  | cons x xs ih =>
    rw [List.cons_append, lookup_cons, if_neg (ne_of_lt (hxs x (by simp))),
      ih fun y hy => hxs y (by simp [hy])]

/-- Nothing is found among records above the key. -/
theorem lookup_of_gt {k : κ} (hys : ∀ y ∈ ys, k < key y) : lookup key k ys = none :=
  lookup_eq_none.mpr fun y hy => ne_of_gt (hys y hy)

/-- Records above a key do not matter for looking it up. -/
theorem lookup_append_of_gt {k : κ} (hys : ∀ y ∈ ys, k < key y) :
    lookup key k (xs ++ ys) = lookup key k xs := by
  have hnone := lookup_of_gt hys
  unfold lookup at hnone ⊢
  rw [List.find?_append, hnone, Option.or_none]

end Cut

/-! ### Writing records over records -/

/-- Put all records of `es` in their places, one after the other. -/
def merge (key : ρ → κ) (acc es : List ρ) : List ρ := es.foldl (fun l r => upsert key r l) acc

theorem sorted_merge {acc : List ρ} (hacc : Sorted key acc) (es : List ρ) :
    Sorted key (merge key acc es) := by
  induction es generalizing acc with
  | nil => exact hacc
  | cons e es ih => exact ih (sorted_upsert e hacc)

theorem mem_merge {s : ρ} {acc es : List ρ} (h : s ∈ merge key acc es) : s ∈ acc ∨ s ∈ es := by
  induction es generalizing acc with
  | nil => exact Or.inl h
  | cons e es ih =>
    rcases ih h with hs | hs
    · rcases mem_upsert hs with rfl | hs
      · exact Or.inr (by simp)
      · exact Or.inl hs
    · exact Or.inr (by simp [hs])

/-- A key is found among the records written last, and otherwise among those before. -/
theorem lookup_merge (k : κ) {es : List ρ} (hes : Sorted key es) (acc : List ρ) :
    lookup key k (merge key acc es) = (lookup key k es).or (lookup key k acc) := by
  induction es generalizing acc with
  | nil => rfl
  | cons e es ih =>
    obtain ⟨hlt, htail⟩ := List.pairwise_cons.mp hes
    have hstep : merge key acc (e :: es) = merge key (upsert key e acc) es := rfl
    rw [hstep, ih htail, lookup_upsert, lookup_cons]
    by_cases hk : key e = k
    · -- the records behind have other keys
      have hnone : lookup key k es = none :=
        lookup_of_gt fun s hs => hk ▸ hlt s hs
      rw [if_pos hk, if_pos hk, hnone]
      rfl
    · rw [if_neg hk, if_neg hk]

/-- Records in ascending order above all others are appended. -/
theorem merge_of_sorted {acc es : List ρ} (h : Sorted key (acc ++ es)) :
    merge key acc es = acc ++ es := by
  induction es generalizing acc with
  | nil => simp [merge]
  | cons e es ih =>
    have hbelow : ∀ x ∈ acc, key x < key e := fun x hx =>
      (List.pairwise_append.mp h).2.2 x hx e (by simp)
    have hput : upsert key e acc = acc ++ [e] := by
      rw [← List.append_nil acc, upsert_append hbelow, List.append_nil]
      rfl
    have hstep : merge key acc (e :: es) = merge key (upsert key e acc) es := rfl
    rw [hstep, hput, ih (by rwa [List.append_assoc]), List.append_assoc]
    rfl

end Assoc
