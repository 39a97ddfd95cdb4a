import Mathlib.Data.List.Infix
import Mathlib.Logic.Relation

namespace SharedLog

/-!
# One log with many readers

The specification of a replicated log: a single sequence of entries to which entries are
appended, and readers each of which has read a part of it from the beginning.
-/

variable {ν ε : Type}

/-- The entries, and how many of them each reader has read. -/
structure State (ν ε : Type) where
  entries : List ε
  read : ν → ℕ

/-- What a reader has read. -/
def State.seen (m : State ν ε) (n : ν) : List ε := m.entries.take (m.read n)

/-- Entries are appended, or a reader reads on. -/
inductive Step [DecidableEq ν] (m : State ν ε) : State ν ε → Prop
  | append (es : List ε) : Step m { m with entries := m.entries ++ es }
  | read (n : ν) (k : ℕ) (hk : m.read n ≤ k) (hlen : k ≤ m.entries.length) :
      Step m { m with read := fun i => if i = n then k else m.read i }

/-- Any number of steps. -/
def Steps [DecidableEq ν] : State ν ε → State ν ε → Prop := Relation.ReflTransGen Step

/-- The entries have grown and one reader has read on. -/
theorem steps_of_reader [DecidableEq ν] {m m' : State ν ε} (n : ν)
    (hentries : m.entries <+: m'.entries) (hother : ∀ i, i ≠ n → m'.read i = m.read i)
    (hread : m.read n ≤ m'.read n) (hlen : m'.read n ≤ m'.entries.length) : Steps m m' := by
  obtain ⟨es, hes⟩ := hentries
  have happend : Step m { m with entries := m.entries ++ es } := .append es
  rw [hes] at happend
  refine Relation.ReflTransGen.tail (Relation.ReflTransGen.single happend) ?_
  have hstep := Step.read (m := { m with entries := m'.entries }) n (m'.read n) hread hlen
  have heq : (fun i => if i = n then m'.read n else m.read i) = m'.read := by
    funext i
    split
    next h => rw [h]
    next h => exact (hother i h).symm
  rw [heq] at hstep
  exact hstep

end SharedLog
