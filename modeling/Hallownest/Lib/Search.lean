import Mathlib.Data.Nat.Notation
import Mathlib.Order.Basic

namespace Search

/-!
# Binary search

The search for the first index at which a predicate holds, as a loop that halves an interval.

* `search_le` — the result is an index of the range or its end, whatever the predicate.
* `search_spec` — for a predicate that stays true once it is true, the result is the first
  index at which it holds.
-/

variable {f : ℕ → Bool}

/-- At most `fuel` rounds of the loop on the interval from `i` to `j`. -/
def loop (f : ℕ → Bool) : ℕ → ℕ → ℕ → ℕ
  | 0, i, _ => i
  | fuel + 1, i, j =>
    if i < j then
      if f ((i + j) / 2) then loop f fuel i ((i + j) / 2) else loop f fuel ((i + j) / 2 + 1) j
    else i

/-- The search among the first `n` indices.  Every round shortens the interval, so there are
    at most `n` rounds. -/
def search (n : ℕ) (f : ℕ → Bool) : ℕ := loop f n 0 n

theorem loop_le : ∀ (fuel i j : ℕ), i ≤ j → loop f fuel i j ≤ j := by
  intro fuel
  induction fuel with
  | zero => intro i j h; exact h
  | succ fuel ih =>
    intro i j h
    unfold loop
    split
    · split
      · have hle := ih i ((i + j) / 2) (by omega)
        omega
      · exact ih _ j (by omega)
    · exact h

theorem search_le (n : ℕ) (f : ℕ → Bool) : search n f ≤ n := loop_le n 0 n (Nat.zero_le n)

/-- Among the first `n` indices the predicate stays true once it is true. -/
def Monotone (n : ℕ) (f : ℕ → Bool) : Prop :=
  ∀ {a b : ℕ}, a ≤ b → b < n → f a = true → f b = true

/-- Below `i` the predicate is false and from `j` on it is true: this holds in every round, and
    the rounds end with `i = j`. -/
theorem loop_spec {n : ℕ} (hf : Monotone n f) : ∀ (fuel i j : ℕ), i ≤ j → j ≤ n → j - i ≤ fuel →
    (∀ k < i, f k = false) → (∀ k, j ≤ k → k < n → f k = true) →
    (∀ k < loop f fuel i j, f k = false) ∧
      ∀ k, loop f fuel i j ≤ k → k < n → f k = true := by
  intro fuel
  induction fuel with
  | zero =>
    intro i j hij hjn hfuel hbelow habove
    refine ⟨hbelow, fun k hk => habove k ?_⟩
    have : i ≤ k := hk
    omega
  | succ fuel ih =>
    intro i j hij hjn hfuel hbelow habove
    unfold loop
    by_cases hlt : i < j
    · rw [if_pos hlt]
      by_cases hmid : f ((i + j) / 2) = true
      · rw [if_pos hmid]
        exact ih i _ (by omega) (by omega) (by omega) hbelow fun k hk hkn => hf hk hkn hmid
      · rw [if_neg hmid]
        refine ih _ j (by omega) hjn (by omega) (fun k hk => ?_) habove
        -- were the predicate true below the middle, it would be true at the middle
        by_contra htrue
        exact hmid (hf (show k ≤ (i + j) / 2 by omega) (by omega) (by simpa using htrue))
    · rw [if_neg hlt]
      exact ⟨hbelow, fun k hk => habove k (by omega)⟩

/-- **The search finds the first index at which the predicate holds.** -/
theorem search_spec {n : ℕ} (hf : Monotone n f) :
    (∀ k < search n f, f k = false) ∧ ∀ k, search n f ≤ k → k < n → f k = true :=
  loop_spec hf n 0 n (Nat.zero_le n) (Nat.le_refl n) (by omega) (by simp) (by omega)

end Search
