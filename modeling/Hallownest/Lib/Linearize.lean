import Mathlib.Data.List.Nodup

namespace Linearize

/-!
# Linearizability

The history of calls that overlap in time, and what it means that each of them takes effect at
one moment between its invocation and its reply.

* `Event`, `Call` — a history, and a call together with its result;
* `Linearizes` — an order of calls that obeys a sequential specification and explains a history;
* `Linearizes.invoke`, `Linearizes.take`, `Linearizes.reply` — the rules by which it is built up
  during a run: a call is invoked, takes effect, and is replied to.
-/

variable {ι α β σ γ : Type}

/-- What an observer of an object sees. -/
inductive Event (ι α β : Type)
  | invoke (id : ι) (op : α)
  | reply (id : ι) (res : β)
  deriving DecidableEq, Repr

/-- A call with its result. -/
structure Call (ι α β : Type) where
  id : ι
  op : α
  res : β
  deriving DecidableEq, Repr

/-- Calls made one after another. -/
inductive Runs (spec : σ → α → β → σ → Prop) (s : σ) : List (Call ι α β) → σ → Prop
  | nil : Runs spec s [] s
  | snoc {cs : List (Call ι α β)} {t u : σ} {c : Call ι α β} (h : Runs spec s cs t)
      (hc : spec t c.op c.res u) : Runs spec s (cs ++ [c]) u

/-- `e` stands before `f`. -/
def Before (l : List γ) (e f : γ) : Prop :=
  ∃ i j : ℕ, i < j ∧ l[i]? = some e ∧ l[j]? = some f

section Before

variable {l : List γ} {e f g : γ}

theorem Before.append (h : Before l e f) (l' : List γ) : Before (l ++ l') e f := by
  obtain ⟨i, j, hij, hi, hj⟩ := h
  have hlen : j < l.length := (List.getElem?_eq_some_iff.mp hj).1
  refine ⟨i, j, hij, ?_, ?_⟩
  · rw [List.getElem?_append_left (Nat.lt_trans hij hlen)]
    exact hi
  · rw [List.getElem?_append_left hlen]
    exact hj

theorem before_last (he : e ∈ l) : Before (l ++ [f]) e f := by
  obtain ⟨i, hi⟩ := List.getElem?_of_mem he
  have hlen : i < l.length := (List.getElem?_eq_some_iff.mp hi).1
  refine ⟨i, l.length, hlen, ?_, List.getElem?_concat_length⟩
  rw [List.getElem?_append_left hlen]
  exact hi

/-- With one more element at the end, only that element comes behind others. -/
theorem Before.of_concat (h : Before (l ++ [g]) e f) : Before l e f ∨ f = g := by
  obtain ⟨i, j, hij, hi, hj⟩ := h
  have hlen : j < (l ++ [g]).length := (List.getElem?_eq_some_iff.mp hj).1
  rw [List.length_append, List.length_singleton] at hlen
  rcases Nat.lt_or_ge j l.length with hlt | hge
  · rw [List.getElem?_append_left (Nat.lt_trans hij hlt)] at hi
    rw [List.getElem?_append_left hlt] at hj
    exact Or.inl ⟨i, j, hij, hi, hj⟩
  · obtain rfl : j = l.length := by omega
    rw [List.getElem?_concat_length] at hj
    exact Or.inr (Option.some.inj hj).symm

theorem Before.mem (h : Before l e f) : e ∈ l := by
  obtain ⟨_, _, _, hi, _⟩ := h
  exact List.mem_of_getElem? hi

end Before

/-- The calls `cs`, made one after another from `s`, explain the history: they lead to `s'`, every
    reply in the history is the result of its call, and a call that was replied to before another
    was invoked comes before it. -/
structure Linearizes (spec : σ → α → β → σ → Prop) (s : σ) (history : List (Event ι α β))
    (cs : List (Call ι α β)) (s' : σ) : Prop where
  runs : Runs spec s cs s'
  nodup : (cs.map Call.id).Nodup
  invoked : ∀ c ∈ cs, .invoke c.id c.op ∈ history
  replied : ∀ id res, .reply id res ∈ history → ∃ c ∈ cs, c.id = id ∧ c.res = res
  order : ∀ a ∈ cs, ∀ b ∈ cs,
    Before history (.reply a.id a.res) (.invoke b.id b.op) → Before cs a b

namespace Linearizes

variable {spec : σ → α → β → σ → Prop} {s s' s'' : σ} {history : List (Event ι α β)}
  {cs : List (Call ι α β)} {id : ι} {op : α} {res : β}

theorem nil (spec : σ → α → β → σ → Prop) (s : σ) :
    Linearizes spec s ([] : List (Event ι α β)) [] s where
  runs := .nil
  nodup := List.nodup_nil
  invoked := by simp
  replied := by simp
  order := by simp

/-- A call is invoked under a new name. -/
theorem invoke (h : Linearizes spec s history cs s') (hnew : ∀ c ∈ cs, c.id ≠ id) :
    Linearizes spec s (history ++ [.invoke id op]) cs s' where
  runs := h.runs
  nodup := h.nodup
  invoked := fun c hc => List.mem_append_left _ (h.invoked c hc)
  replied := by
    intro id' res hmem
    rcases List.mem_append.mp hmem with hold | hlast
    · exact h.replied id' res hold
    · simp at hlast
  order := by
    intro a ha b hb hbefore
    rcases hbefore.of_concat with hold | hlast
    · exact h.order a ha b hb hold
    · cases hlast
      exact absurd rfl (hnew b hb)

/-- A call that was invoked takes effect. -/
theorem take (h : Linearizes spec s history cs s') (hnew : ∀ c ∈ cs, c.id ≠ id)
    (hinvoked : .invoke id op ∈ history) (hspec : spec s' op res s'') :
    Linearizes spec s history (cs ++ [⟨id, op, res⟩]) s'' where
  runs := h.runs.snoc hspec
  nodup := by
    rw [List.map_append, List.map_singleton, List.nodup_append_comm]
    refine List.nodup_cons.mpr ⟨?_, h.nodup⟩
    intro hmem
    obtain ⟨c, hc, hid⟩ := List.mem_map.mp hmem
    exact hnew c hc hid
  invoked := by
    intro c hc
    rcases List.mem_append.mp hc with hold | hlast
    · exact h.invoked c hold
    · rw [List.mem_singleton.mp hlast]
      exact hinvoked
  replied := by
    intro id' res' hmem
    obtain ⟨c, hc, hrest⟩ := h.replied id' res' hmem
    exact ⟨c, List.mem_append_left _ hc, hrest⟩
  order := by
    intro a ha b hb hbefore
    -- the call that takes effect has no reply yet
    have hold : a ∈ cs := by
      rcases List.mem_append.mp ha with hold | hlast
      · exact hold
      · obtain ⟨c, hc, hid, _⟩ := h.replied _ _ hbefore.mem
        rw [List.mem_singleton.mp hlast] at hid
        exact absurd hid (hnew c hc)
    rcases List.mem_append.mp hb with hbold | hlast
    · exact (h.order a hold b hbold hbefore).append _
    · rw [List.mem_singleton.mp hlast]
      exact before_last hold

/-- A call that has taken effect is replied to. -/
theorem reply (h : Linearizes spec s history cs s') {c : Call ι α β} (hc : c ∈ cs) :
    Linearizes spec s (history ++ [.reply c.id c.res]) cs s' where
  runs := h.runs
  nodup := h.nodup
  invoked := fun c hc => List.mem_append_left _ (h.invoked c hc)
  replied := by
    intro id res hmem
    rcases List.mem_append.mp hmem with hold | hlast
    · exact h.replied id res hold
    · cases List.mem_singleton.mp hlast
      exact ⟨c, hc, rfl, rfl⟩
  order := by
    intro a ha b hb hbefore
    rcases hbefore.of_concat with hold | hlast
    · exact h.order a ha b hb hold
    · cases hlast

end Linearizes

end Linearize
