import Mathlib.Data.List.Induction

namespace Run

/-!
# Runs of a step function

A system is an initial state and a function that takes a step or fails.  A state is reached by
a list of actions if all their steps succeed.

* `reached_snoc` — the last step of a run; `Reached.next` — the step at some moment;
  `Reached.between` — the same, given the states; `Reached.succ` — one step more;
  `Reached.drop` — the rest of a run.
* `Reached.invariant` — what a step preserves, a run preserves; `Reached.along` — the same for
  one run, whose steps are known; `Reached.onward` — from some moment on; `Reached.relates` —
  between two moments of a run.
* `exists_reached`, `Reached.view_eq` — a run whose end is computed, seen through a view of the
  state.
* `exists_foldlM` — a loop over a list, in any monad, of which every round succeeds.
-/

variable {σ α ε β : Type} {step : σ → α → Except ε σ} {init s s' : σ} {acts : List α}

/-- The state `s` is reached from `init` by the actions `acts`. -/
def Reached (step : σ → α → Except ε σ) (init : σ) (acts : List α) (s : σ) : Prop :=
  acts.foldlM step init = .ok s

theorem reached_nil : Reached step init [] s ↔ init = s := ⟨Except.ok.inj, congrArg Except.ok⟩

theorem Reached.unique (h : Reached step init acts s) (h' : Reached step init acts s') :
    s = s' := by
  unfold Reached at h h'
  rw [h] at h'
  exact Except.ok.inj h'

/-- The last step of a run. -/
theorem reached_snoc {x : α} :
    Reached step init (acts ++ [x]) s' ↔ ∃ s, Reached step init acts s ∧ step s x = .ok s' := by
  unfold Reached
  rw [List.foldlM_append]
  cases hq : acts.foldlM step init with
  | error e =>
    constructor
    · intro h; cases h
    · rintro ⟨s, hs, _⟩; cases hs
  | ok u =>
    show ([x].foldlM step u) = _ ↔ _
    rw [List.foldlM_cons]
    constructor
    · intro h
      cases hx : step u x with
      | error e => rw [hx] at h; cases h
      | ok w => rw [hx] at h; exact ⟨u, rfl, hx.trans h⟩
    · rintro ⟨s, hs, hstep⟩
      rw [Except.ok.inj hs, hstep]
      rfl

/-- Every beginning of a run is a run. -/
theorem Reached.take (h : Reached step init acts s) (i : ℕ) :
    ∃ u, Reached step init (acts.take i) u := by
  unfold Reached at h ⊢
  rw [← List.take_append_drop i acts, List.foldlM_append] at h
  cases hq : (acts.take i).foldlM step init with
  | error e => rw [hq] at h; cases h
  | ok u => exact ⟨u, rfl⟩

/-- What follows some moment of a run is a run from there. -/
theorem Reached.drop {i : ℕ} {u : σ} (hu : Reached step init (acts.take i) u)
    (h : Reached step init acts s) : Reached step u (acts.drop i) s := by
  unfold Reached at h hu ⊢
  rw [← List.take_append_drop i acts, List.foldlM_append, hu] at h
  exact h

/-- One step more. -/
theorem Reached.succ {i : ℕ} {x : α} (hx : acts[i]? = some x) {u u' : σ}
    (hu : Reached step init (acts.take i) u) (hstep : step u x = .ok u') :
    Reached step init (acts.take (i + 1)) u' := by
  rw [List.take_add_one, hx]
  exact reached_snoc.mpr ⟨u, hu, hstep⟩

/-- The step a run takes at some moment. -/
theorem Reached.next (h : Reached step init acts s) {i : ℕ} {x : α} (hx : acts[i]? = some x)
    {u : σ} (hu : Reached step init (acts.take i) u) :
    ∃ u', step u x = .ok u' ∧ Reached step init (acts.take (i + 1)) u' := by
  obtain ⟨u', hu'⟩ := h.take (i + 1)
  have hsnoc : acts.take (i + 1) = acts.take i ++ [x] := by rw [List.take_add_one, hx]; rfl
  have hlast := hu'
  rw [hsnoc] at hlast
  obtain ⟨w, hw, hstep⟩ := reached_snoc.mp hlast
  obtain rfl := hw.unique hu
  exact ⟨u', hstep, hu'⟩

/-- Between two moments that follow each other there is a step, or nothing at the end of the run. -/
theorem Reached.between {i : ℕ} {u u' : σ} (hu : Reached step init (acts.take i) u)
    (hu' : Reached step init (acts.take (i + 1)) u') :
    u' = u ∨ ∃ x, acts[i]? = some x ∧ step u x = .ok u' := by
  rw [List.take_add_one] at hu'
  cases hx : acts[i]? with
  | none =>
    rw [hx, Option.toList_none, List.append_nil] at hu'
    exact Or.inl (hu'.unique hu)
  | some x =>
    rw [hx, Option.toList_some] at hu'
    obtain ⟨w, hw, hlast⟩ := reached_snoc.mp hu'
    obtain rfl := hw.unique hu
    exact Or.inr ⟨x, rfl, hlast⟩

/-- **Invariants.**  What holds in the initial state and is preserved by every step that
    succeeds, holds in every reached state. -/
theorem Reached.invariant {I : List α → σ → Prop} (hinit : I [] init)
    (hstep : ∀ {acts s x s'}, Reached step init acts s → I acts s → step s x = .ok s' →
      I (acts ++ [x]) s') (h : Reached step init acts s) : I acts s := by
  induction acts using List.reverseRecOn generalizing s with
  | nil => rwa [← reached_nil.mp h]
  | append_singleton acts x ih =>
    obtain ⟨u, hu, hx⟩ := reached_snoc.mp h
    exact hstep hu (ih hu) hx

/-- What holds at some moment of a run and is preserved by the steps after it, given their
    moments, holds at every later moment. -/
theorem Reached.onward {I : σ → Prop} {i l : ℕ} (hil : i ≤ l)
    (hs : Reached step init (acts.take i) s) (hI : I s)
    (hstep : ∀ {j u x u'}, i ≤ j → j < l → acts[j]? = some x →
      Reached step init (acts.take j) u → I u → step u x = .ok u' → I u')
    (h : Reached step init (acts.take l) s') : I s' := by
  obtain ⟨n, rfl⟩ := Nat.exists_eq_add_of_le hil
  clear hil
  induction n generalizing s' with
  | zero =>
    obtain rfl := hs.unique h
    exact hI
  | succ n ih =>
    have ih : ∀ {u}, Reached step init (acts.take (i + n)) u → I u :=
      fun hu => ih (fun hj hjl => hstep hj (by omega)) hu
    rw [← Nat.add_assoc, List.take_add_one] at h
    cases hx : acts[i + n]? with
    | none =>
      rw [hx, Option.toList_none, List.append_nil] at h
      exact ih h
    | some x =>
      rw [hx, Option.toList_some] at h
      obtain ⟨v, hv, hlast⟩ := reached_snoc.mp h
      exact hstep (by omega) (by omega) hx hv (ih hv) hlast

/-- Invariants of one run: what every step of it preserves, given its moment. -/
theorem Reached.along {I : σ → Prop} (hinit : I init)
    (hstep : ∀ {i s x s'}, acts[i]? = some x → Reached step init (acts.take i) s → I s →
      step s x = .ok s' → I s') (h : Reached step init acts s) : I s := by
  rw [← List.take_length (l := acts)] at h
  exact Reached.onward (Nat.zero_le acts.length) (reached_nil.mpr rfl) hinit
    (fun _ _ hx hu => hstep hx hu) h

/-- What holds between the two ends of every step holds between any two moments of a run. -/
theorem Reached.relates {R : σ → σ → Prop} (hrefl : ∀ s, R s s)
    (htrans : ∀ {s u v}, R s u → R u v → R s v)
    (hstep : ∀ {s x s'}, step s x = .ok s' → R s s') {i j : ℕ} (hij : i ≤ j) {u : σ}
    (hs : Reached step init (acts.take i) s) (hu : Reached step init (acts.take j) u) :
    R s u :=
  hs.onward hij (hrefl s) (fun _ _ _ _ hR hx => htrans hR (hstep hx)) hu

/-- What is computed for a run is so of the state it reaches. -/
theorem Reached.view_eq {view : σ → β} {b : β} (h : Reached step init acts s)
    (hview : (acts.foldlM step init).map view = .ok b) : view s = b := by
  unfold Reached at h
  rw [h] at hview
  exact Except.ok.inj hview

/-- A run that ends in a state with the given view. -/
theorem exists_reached (step : σ → α → Except ε σ) (init : σ) (acts : List α) (view : σ → β)
    (b : β) (h : (acts.foldlM step init).map view = .ok b) :
    ∃ s, Reached step init acts s ∧ view s = b := by
  cases hq : acts.foldlM step init with
  | error e => rw [hq] at h; cases h
  | ok s => exact ⟨s, hq, Reached.view_eq hq h⟩

/-- **A loop whose rounds succeed.**  The invariant speaks of the items done so far; a round is
    given where it stands in the whole loop. -/
theorem exists_foldlM {m : Type → Type} [Monad m] [LawfulMonad m] {round : σ → α → m σ}
    {I : List α → σ → Prop} {items : List α} (h : I [] s)
    (hround : ∀ {done x rest s}, items = done ++ x :: rest → I done s →
      ∃ s', round s x = pure s' ∧ I (done ++ [x]) s') :
    ∃ s', items.foldlM round s = pure s' ∧ I items s' := by
  -- the induction is over the items still to come
  have hrest : ∀ (rest done : List α) (s : σ), items = done ++ rest → I done s →
      ∃ s', rest.foldlM round s = pure s' ∧ I items s' := by
    intro rest
    induction rest with
    | nil =>
      intro done s hitems hdone
      rw [List.append_nil] at hitems
      exact ⟨s, rfl, hitems ▸ hdone⟩
    | cons x rest ih =>
      intro done s hitems hdone
      obtain ⟨s₁, hrun, h₁⟩ := hround hitems hdone
      obtain ⟨s', hrest, h'⟩ := ih (done ++ [x]) s₁ (by rw [hitems, List.append_cons]) h₁
      refine ⟨s', ?_, h'⟩
      rw [List.foldlM_cons, hrun, pure_bind]
      exact hrest
  exact hrest items [] s rfl h

end Run
