import Mathlib.Data.List.Perm.Basic

namespace Lists

/-!
# Lists — traversals that may fail, and counts

A traversal by a partial function has a result exactly if every call has one, and then the result
lists those of the calls (`mapM_eq_some`).

* `exists_of_mem_result`, `exists_of_mem` — from a result to its call and back.
* `exists_mapM` — a traversal all of whose calls succeed.
* `countP_eraseIdx` — counting without one element.
-/

variable {α β : Type} {f : α → Option β} {l : List α} {ys : List β}

theorem mapM_eq_some : l.mapM f = some ys ↔ l.map f = ys.map some := by
  induction l generalizing ys with
  | nil =>
    constructor
    · intro h
      obtain rfl := Option.some.inj h
      rfl
    · intro h
      obtain rfl := List.map_eq_nil_iff.mp h.symm
      rfl
  | cons x l ih =>
    rw [List.mapM_cons, List.map_cons]
    constructor
    · intro h
      obtain ⟨y, hy, h⟩ := Option.bind_eq_some_iff.mp h
      obtain ⟨zs, hzs, h⟩ := Option.bind_eq_some_iff.mp h
      obtain rfl := Option.some.inj h
      rw [List.map_cons, hy, ih.mp hzs]
    · intro h
      obtain ⟨y, zs, rfl, hy, hzs⟩ := List.map_eq_cons_iff.mp h.symm
      rw [← hy, ih.mpr hzs.symm]
      rfl

/-- Every result of a traversal is the result of one of its calls. -/
theorem exists_of_mem_result (h : l.mapM f = some ys) {y : β} (hy : y ∈ ys) :
    ∃ x ∈ l, f x = some y := by
  refine List.mem_map.mp ?_
  rw [mapM_eq_some.mp h]
  exact List.mem_map_of_mem hy

/-- A traversal has a result for every element. -/
theorem exists_of_mem (h : l.mapM f = some ys) {x : α} (hx : x ∈ l) : ∃ y ∈ ys, f x = some y := by
  have hfx : f x ∈ ys.map some := by
    rw [← mapM_eq_some.mp h]
    exact List.mem_map_of_mem hx
  obtain ⟨y, hy, heq⟩ := List.mem_map.mp hfx
  exact ⟨y, hy, heq.symm⟩

/-- A traversal all of whose calls succeed succeeds, with results that satisfy what the calls
    guarantee. -/
theorem exists_mapM {Q : β → Prop} (h : ∀ x ∈ l, ∃ y, f x = some y ∧ Q y) :
    ∃ ys, l.mapM f = some ys ∧ ∀ y ∈ ys, Q y := by
  induction l with
  | nil => exact ⟨[], rfl, by simp⟩
  | cons x l ih =>
    obtain ⟨y, hy, hQy⟩ := h x (by simp)
    obtain ⟨ys, hys, hQys⟩ := ih fun z hz => h z (by simp [hz])
    exact ⟨y :: ys, by simp [List.mapM_cons, hy, hys], List.forall_mem_cons.mpr ⟨hQy, hQys⟩⟩

/-- Counting with one element taken out. -/
theorem countP_eraseIdx {p : α → Bool} {i : ℕ} {x : α} (hx : l[i]? = some x) :
    l.countP p = (l.eraseIdx i).countP p + if p x then 1 else 0 := by
  obtain ⟨hlt, rfl⟩ := List.getElem?_eq_some_iff.mp hx
  rw [← (List.getElem_cons_eraseIdx_perm hlt).countP_eq, List.countP_cons]

end Lists
