import Mathlib.Data.List.Basic

/-!
# Computations with the states they go through

A computation on a state that may fail, together with every state it goes through on the way: if
it is cut off, one of these states is what it leaves.

* `Keeps` — a property that every step of a computation preserves, with a rule for each way to
  build one (`keeps_update`, `Keeps.bind`, `keeps_forM`, `keeps_foldlM`).
* `Simulates` — a computation does what a plain function does: they fail with the same error, or
  both succeed with related results (`Simulates.bind`, `simulates_foldlM`).
-/

/-- A computation on states of type `σ`: the states it goes through, and its result. -/
def Traced (σ ε α : Type) := σ → List σ × Except ε α

namespace Traced

variable {σ ε ε' α β γ : Type} {x : Traced σ ε α} {f : α → Traced σ ε β} {s s' : σ} {P : σ → Prop}

/-- The states that the computation goes through. -/
def states (x : Traced σ ε α) (s : σ) : List σ := (x s).1

def result (x : Traced σ ε α) (s : σ) : Except ε α := (x s).2

/-- The state in which the computation ends. -/
def final (x : Traced σ ε α) (s : σ) : σ := (x.states s).getLastD s

instance : Monad (Traced σ ε) where
  pure a := fun _ => ([], .ok a)
  bind x f := fun s =>
    match x.result s with
    | .ok a => (x.states s ++ (f a).states (x.final s), (f a).result (x.final s))
    | .error e => (x.states s, .error e)

/-- A computation that does not look at the state. -/
def lift (r : Except ε α) : Traced σ ε α := fun _ => ([], r)

/-- A computation that looks at the state and leaves it alone. -/
def read (g : σ → Except ε α) : Traced σ ε α := fun s => ([], g s)

/-- One change of the state. -/
def update (g : σ → σ) : Traced σ ε Unit := fun s => ([g s], .ok ())

/-- The computation with other errors. -/
def mapError (g : ε → ε') (x : Traced σ ε α) : Traced σ ε' α :=
  fun s => (x.states s, (x.result s).mapError g)

/-! ### Sequences -/

/-- A second part runs from where the first one has come. -/
theorem bind_ok {a : α} (h : x.result s = .ok a) :
    (x >>= f) s = (x.states s ++ (f a).states (x.final s), (f a).result (x.final s)) := by
  show (match x.result s with
    | .ok a => (x.states s ++ (f a).states (x.final s), (f a).result (x.final s))
    | .error e => (x.states s, .error e)) = _
  rw [h]

/-- A computation that fails is not gone on with. -/
theorem bind_error {e : ε} (h : x.result s = .error e) : (x >>= f) s = (x.states s, .error e) := by
  show (match x.result s with
    | .ok a => (x.states s ++ (f a).states (x.final s), (f a).result (x.final s))
    | .error e => (x.states s, .error e)) = _
  rw [h]

@[simp] theorem lift_ok_bind (a : α) : (lift (.ok a) : Traced σ ε α) >>= f = f a := rfl

@[simp] theorem lift_error_bind (e : ε) :
    (lift (.error e) : Traced σ ε α) >>= f = lift (.error e) := rfl

/-- A sequence ends where its second part ends. -/
theorem final_bind_ok {a : α} (h : x.result s = .ok a) :
    (x >>= f).final s = (f a).final (x.final s) := by
  have hstates : (x >>= f).states s = x.states s ++ (f a).states (x.final s) :=
    congrArg Prod.fst (bind_ok h)
  unfold final
  rw [hstates, List.getLastD_eq_getLast?, List.getLast?_append, Option.getD_or,
    ← List.getLastD_eq_getLast?, ← List.getLastD_eq_getLast?]
  rfl

/-- The result is that of the second part. -/
theorem result_bind_ok {a : α} (h : x.result s = .ok a) :
    (x >>= f).result s = (f a).result (x.final s) := by
  unfold result
  rw [bind_ok h]
  rfl

/-- The states of a sequence are those of the first part, and then those of the second. -/
theorem mem_states_bind (h : s' ∈ (x >>= f).states s) :
    s' ∈ x.states s ∨ ∃ a, x.result s = .ok a ∧ s' ∈ (f a).states (x.final s) := by
  unfold states at h
  cases hx : x.result s with
  | error e =>
    rw [bind_error hx] at h
    exact Or.inl h
  | ok a =>
    rw [bind_ok hx] at h
    exact (List.mem_append.mp h).imp_right fun hmem => ⟨a, rfl, hmem⟩

/-! ### What every state keeps -/

/-- **Every state that the computation goes through has `P`**, if it starts in one that has. -/
def Keeps (P : σ → Prop) (x : Traced σ ε α) : Prop := ∀ s, P s → ∀ s' ∈ x.states s, P s'

/-- It ends in such a state. -/
theorem Keeps.final (h : Keeps P x) (hs : P s) : P (x.final s) := by
  unfold Traced.final
  rw [List.getLastD_eq_getLast?]
  cases hlast : (x.states s).getLast? with
  | none => exact hs
  | some s' => exact h s hs s' (List.mem_of_getLast? hlast)

/-- A part that touches no state keeps everything. -/
theorem keeps_lift (r : Except ε α) : Keeps P (lift r : Traced σ ε α) := by
  intro s _ s' hs'
  cases hs'

/-- A part that only reads keeps everything. -/
theorem keeps_read (g : σ → Except ε α) : Keeps P (read g) := by
  intro s _ s' hs'
  cases hs'

/-- An update keeps what it preserves. -/
theorem keeps_update {g : σ → σ} (h : ∀ s, P s → P (g s)) :
    Keeps P (update g : Traced σ ε Unit) := by
  intro s hs s' hs'
  rw [List.mem_singleton.mp hs']
  exact h s hs

/-- What two parts keep, they keep one after the other. -/
theorem Keeps.bind (h : Keeps P x) (hf : ∀ a, Keeps P (f a)) : Keeps P (x >>= f) := by
  intro s hs s' hs'
  rcases mem_states_bind hs' with hx | ⟨a, _, hrest⟩
  · exact h s hs s' hx
  · exact hf a _ (h.final hs) s' hrest

theorem keeps_pure (a : α) : Keeps P (pure a : Traced σ ε α) := keeps_lift (.ok a)

/-- What every round keeps, a loop keeps. -/
theorem keeps_forM {g : γ → Traced σ ε PUnit} {l : List γ} (h : ∀ c ∈ l, Keeps P (g c)) :
    Keeps P (l.forM g) := by
  induction l with
  | nil => exact keeps_pure _
  | cons c l ih =>
    exact (h c List.mem_cons_self).bind fun _ => ih fun d hd => h d (List.mem_cons_of_mem c hd)

/-- What every round keeps, a loop that carries a value keeps. -/
theorem keeps_foldlM {g : β → γ → Traced σ ε β} {l : List γ} (h : ∀ b c, Keeps P (g b c)) (b : β) :
    Keeps P (l.foldlM g b) := by
  induction l generalizing b with
  | nil => exact keeps_pure b
  | cons c l ih =>
    rw [List.foldlM_cons]
    exact (h b c).bind ih

/-! ### Doing what a plain function does -/

/-- **The computation does what `r` says**: both succeed, with results and a final state that are
    related by `Q`, or both F with the same error, in a state with `F`. -/
def Simulates (x : Traced σ ε α) (s : σ) (r : Except ε β) (Q : α → β → σ → Prop)
    (F : σ → Prop) : Prop :=
  (∃ a b, x.result s = .ok a ∧ r = .ok b ∧ Q a b (x.final s)) ∨
    ∃ e, x.result s = .error e ∧ r = .error e ∧ F (x.final s)

section Simulates

variable {δ : Type} {r : Except ε β} {Q : α → β → σ → Prop} {F : σ → Prop}

theorem simulates_pure {a : α} {b : β} (h : Q a b s) :
    Simulates (pure a) s (.ok b : Except ε β) Q F := Or.inl ⟨a, b, rfl, rfl, h⟩

/-- An update simulates a value that is right of the new state. -/
theorem simulates_update {g : σ → σ} {Q : Unit → β → σ → Prop} {b : β} (h : Q () b (g s)) :
    Simulates (update g) s (.ok b : Except ε β) Q F := Or.inl ⟨(), b, rfl, rfl, h⟩

/-- The same part on both sides, which touches no state, before the rest. -/
theorem simulates_lift_bind {p : Except ε γ} {f : γ → Traced σ ε α} {g : γ → Except ε β}
    (hF : F s) (hf : ∀ c, Simulates (f c) s (g c) Q F) :
    Simulates (lift p >>= f) s (p >>= g) Q F := by
  cases p with
  | ok c => exact hf c
  | error e => exact Or.inr ⟨e, rfl, rfl, hF⟩

/-- **Simulations compose.** -/
theorem Simulates.bind {f : α → Traced σ ε γ} {g : β → Except ε δ} {Q' : γ → δ → σ → Prop}
    (h : Simulates x s r Q F)
    (hf : ∀ a b s', Q a b s' → Simulates (f a) s' (g b) Q' F) :
    Simulates (x >>= f) s (r >>= g) Q' F := by
  rcases h with ⟨a, b, hx, rfl, hQ⟩ | ⟨e, hx, rfl, hF⟩
  · unfold Simulates
    rw [result_bind_ok hx, final_bind_ok hx]
    exact hf a b _ hQ
  · refine Or.inr ⟨e, congrArg Prod.snd (bind_error hx), rfl, ?_⟩
    unfold final states
    rw [bind_error hx]
    exact hF

/-- Renaming errors on both sides keeps a simulation. -/
theorem Simulates.mapError (h : Simulates x s r Q F) (g : ε → ε') :
    Simulates (x.mapError g) s (r.mapError g) Q F := by
  rcases h with ⟨a, b, hx, rfl, hQ⟩ | ⟨e, hx, rfl, hF⟩
  · exact Or.inl ⟨a, b, congrArg (Except.mapError g) hx, rfl, hQ⟩
  · exact Or.inr ⟨g e, congrArg (Except.mapError g) hx, rfl, hF⟩

/-- A loop does what the loop over the plain function does, if each round does. -/
theorem simulates_foldlM {f : α → γ → Traced σ ε α} {g : β → γ → Except ε β}
    (h : ∀ a b c s', Q a b s' → Simulates (f a c) s' (g b c) Q F) {a : α} {b : β}
    (hQ : Q a b s) (l : List γ) :
    Simulates (l.foldlM f a) s (l.foldlM g b) Q F := by
  induction l generalizing a b s with
  | nil => exact simulates_pure hQ
  | cons c l ih =>
    rw [List.foldlM_cons, List.foldlM_cons]
    exact (h a b c s hQ).bind fun a' b' s' hQ' => ih hQ'

end Simulates

end Traced
