import Mathlib.Data.Int.Notation
import Mathlib.Data.List.Basic

namespace Slice

/-!
# Slices with run-time bounds checks

A slice is a list; an index or a bound outside the slice is a run-time panic, written
`none`.  Indices are integers, so a negative index is a panic as well and not a silent
zero.
-/

variable {α : Type}

/-- The read `s[i]`. -/
def get (s : List α) (i : Int) : Option α :=
  if 0 ≤ i then s[i.toNat]? else none

/-- The slice expression `s[i:]`. -/
def after (s : List α) (i : Int) : Option (List α) :=
  if 0 ≤ i ∧ i ≤ s.length then some (s.drop i.toNat) else none

/-- The slice expression `s[:i]`. -/
def upTo (s : List α) (i : Int) : Option (List α) :=
  if 0 ≤ i ∧ i ≤ s.length then some (s.take i.toNat) else none

/-- The assignment `s[i] = a`. -/
def put (s : List α) (i : ℕ) (a : α) : Option (List α) :=
  if i < s.length then some (s.set i a) else none

@[simp] theorem get_natCast (s : List α) (i : ℕ) : get s (i : Int) = s[i]? := by
  simp [get]

/-- A read succeeds exactly within the bounds. -/
theorem get_eq_some {s : List α} {i : Int} {a : α} :
    get s i = some a ↔ 0 ≤ i ∧ s[i.toNat]? = some a := by
  unfold get
  split
  · rename_i h; simp [h]
  · rename_i h; simp [h]

/-- A read within the bounds does not panic. -/
theorem exists_get {s : List α} {i : Int} (h0 : 0 ≤ i) (hlt : i < s.length) :
    ∃ a, get s i = some a := by
  have hi : i.toNat < s.length := by omega
  exact ⟨s[i.toNat], get_eq_some.mpr ⟨h0, List.getElem?_eq_getElem hi⟩⟩

/-- A bound within the slice cuts it. -/
theorem after_of_le {s : List α} {i : Int} (h0 : 0 ≤ i) (hle : i ≤ s.length) :
    after s i = some (s.drop i.toNat) := if_pos ⟨h0, hle⟩

/-- A rest of a slice and what is before it make up the slice. -/
theorem length_of_after {s t : List α} {i : Int} (h : after s i = some t) :
    i + t.length = s.length := by
  unfold after at h
  split at h
  · rw [← Option.some.inj h, List.length_drop]
    omega
  · cases h

/-- What is left behind a bound was there. -/
theorem mem_of_mem_after {s t : List α} {i : Int} (h : after s i = some t) {a : α} (ha : a ∈ t) :
    a ∈ s := by
  unfold after at h
  split at h
  · rw [← Option.some.inj h] at ha
    exact List.mem_of_mem_drop ha
  · cases h

/-- What is left in front of a bound was there. -/
theorem mem_of_mem_upTo {s t : List α} {i : Int} (h : upTo s i = some t) {a : α} (ha : a ∈ t) :
    a ∈ s := by
  unfold upTo at h
  split at h
  · rw [← Option.some.inj h] at ha
    exact List.mem_of_mem_take ha
  · cases h

/-- A bound within the slice cuts off what is behind it. -/
theorem upTo_of_le {s : List α} {i : Int} (h0 : 0 ≤ i) (hle : i ≤ s.length) :
    upTo s i = some (s.take i.toNat) := if_pos ⟨h0, hle⟩

/-- A bound behind the end panics. -/
theorem upTo_of_gt {s : List α} {i : Int} (h : (s.length : Int) < i) : upTo s i = none :=
  if_neg (by omega)

theorem put_of_lt {s : List α} {i : ℕ} (h : i < s.length) (a : α) :
    put s i a = some (s.set i a) := if_pos h

/-- An assignment keeps the length. -/
theorem length_of_put {s t : List α} {i : ℕ} {a : α} (h : put s i a = some t) :
    t.length = s.length := by
  unfold put at h
  split at h
  · rw [← Option.some.inj h, List.length_set]
  · cases h

/-- Assigning behind a given beginning. -/
theorem put_append {s t : List α} {i : ℕ} (h : i = s.length) (a b : α) :
    put (s ++ a :: t) i b = some (s ++ b :: t) := by
  subst h
  rw [put_of_lt (by simp), List.set_append_right _ _ (Nat.le_refl _), Nat.sub_self]
  rfl

end Slice
