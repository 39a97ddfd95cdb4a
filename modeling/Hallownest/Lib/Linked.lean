import Mathlib.Data.List.Basic

namespace Pointers

/-!
# Linked chains

`Linked next a xs`: following the pointers `next` from `a` visits `xs` and then ends.  A
pointer read may fault (`next b = none`); on a chain no read does.

* `frame` — a chain does not notice changes outside it.
* `suffix` — the rest of a chain, seen from any of its members.
* `insert` — splicing a new member in behind a given one; `place_insert` — what this means for
  a place in the chain.
-/

variable {α : Type} {next next' : α → Option (Option α)}

/-- Following `next` from `a` visits `xs` and then ends. -/
def Linked (next : α → Option (Option α)) : α → List α → Prop
  | a, [] => next a = some none
  | a, x :: xs => next a = some (some x) ∧ Linked next x xs

/-- A chain depends only on the pointers of its members. -/
theorem Linked.frame {a : α} {xs : List α} (h : Linked next a xs)
    (hsame : ∀ b ∈ a :: xs, next' b = next b) : Linked next' a xs := by
  induction xs generalizing a with
  | nil => exact (hsame a (by simp)).trans h
  | cons x xs ih =>
    refine ⟨(hsame a (by simp)).trans h.1, ih h.2 fun b hb => hsame b ?_⟩
    exact List.mem_cons_of_mem a hb

/-- Behind a first part of the chain comes the rest of it. -/
theorem Linked.suffix {a : α} {xs ys : List α} (h : Linked next a (xs ++ ys)) :
    Linked next (xs.getLastD a) ys := by
  induction xs generalizing a with
  | nil => exact h
  | cons x xs ih =>
    rw [List.getLastD_cons]
    exact ih h.2

/-- Seen from a member of its first part, the chain has the same last member there. -/
theorem Linked.from_mem {a b : α} {xs ys : List α} (h : Linked next a (xs ++ ys))
    (hb : b ∈ a :: xs) :
    ∃ post, Linked next b (post ++ ys) ∧ post.Sublist xs ∧ post.getLastD b = xs.getLastD a := by
  induction xs generalizing a with
  | nil =>
    rw [List.mem_singleton] at hb
    subst hb
    exact ⟨[], h, List.Sublist.refl _, rfl⟩
  | cons x xs ih =>
    rcases List.mem_cons.mp hb with rfl | hb
    · exact ⟨x :: xs, h, List.Sublist.refl _, rfl⟩
    · obtain ⟨post, hpost, hsub, hlast⟩ := ih h.2 hb
      exact ⟨post, hpost, hsub.cons x, by rw [hlast, List.getLastD_cons]⟩

/-- **Insertion.**  A new member takes over the pointer of the last member of the first part,
    which then points to it. -/
theorem Linked.insert {a new : α} {xs ys : List α} (h : Linked next a (xs ++ ys))
    (hnodup : (a :: (xs ++ ys)).Nodup) (hlast : next' (xs.getLastD a) = some (some new))
    (hnew : next' new = next (xs.getLastD a))
    (hsame : ∀ b ∈ a :: (xs ++ ys), b ≠ xs.getLastD a → next' b = next b) :
    Linked next' a (xs ++ new :: ys) := by
  induction xs generalizing a with
  | nil =>
    refine ⟨hlast, ?_⟩
    have hout : ∀ y ∈ ys, next' y = next y := by
      intro y hy
      refine hsame y (List.mem_cons_of_mem a hy) ?_
      rintro rfl
      exact (List.nodup_cons.mp hnodup).1 hy
    cases ys with
    | nil => exact hnew.trans h
    | cons y ys => exact ⟨hnew.trans h.1, h.2.frame hout⟩
  | cons x xs ih =>
    rw [List.getLastD_cons] at hlast hnew hsame
    obtain ⟨hnot, htail⟩ := List.nodup_cons.mp hnodup
    refine ⟨?_, ih h.2 htail hlast hnew fun b hb => hsame b (List.mem_cons_of_mem a hb)⟩
    -- `a` itself is not the last member of the first part
    have hne : a ≠ xs.getLastD x := by
      intro heq
      apply hnot
      rw [heq]
      exact List.mem_append_left ys List.getLastD_mem_cons
    exact (hsame a (by simp) hne).trans h.1

/-- **A place in a chain** stays a place when a member is spliced in: what was before it is still
    before it, what was behind it is still behind it. -/
theorem place_insert {xs ys bs rs : List α} (h : bs ++ rs = xs ++ ys) (new a : α) :
    ∃ xs' ys', bs ++ new :: rs = xs' ++ ys' ∧ xs.Sublist xs' ∧ ys.Sublist ys' ∧
      xs'.getLastD a = xs.getLastD a := by
  rcases List.append_eq_append_iff.mp h with ⟨zs, rfl, rfl⟩ | ⟨zs, rfl, rfl⟩
  · -- the new member comes before the place, or right behind it
    cases zs with
    | nil =>
      refine ⟨bs, new :: ys, by simp, by simp, (List.Sublist.refl ys).cons new, by simp⟩
    | cons z zs =>
      refine ⟨bs ++ new :: z :: zs, ys, by simp, ?_, List.Sublist.refl ys, by simp⟩
      exact (List.Sublist.refl bs).append ((List.Sublist.refl _).cons new)
  · refine ⟨xs, zs ++ new :: rs, by simp, List.Sublist.refl xs, ?_, rfl⟩
    exact (List.Sublist.refl zs).append ((List.Sublist.refl rs).cons new)

end Pointers
