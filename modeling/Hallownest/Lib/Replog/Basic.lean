import Mathlib.Data.Finset.Card
import Mathlib.Data.List.Infix
import Mathlib.Logic.Function.Basic
import Mathlib.Logic.Relation
import Mathlib.Order.Basic

namespace Replog

/-!
# Replicated logs — the abstract protocol

A leader-based replicated log, stripped of messages.  Nodes `ν` move through terms `τ`
(any linear order), stand for election with the log they hold, vote, win a term with a
quorum of votes, extend the log of the term they lead, and take over a stretch of the log
of the leader of their term.

* `Protocol` — the parameters: the term of an entry, the quorums, and the common `base`
  every log starts from.
* `State` — what the nodes hold now (`term`, `log`, `commit`) together with the history of
  the run (`vote`, `stood`, `led`, `lead`, `acked`), which only ever grows.
* `Step` — the seven moves.  An implementation refines the protocol by mapping each of its
  own moves to a sequence of these.

The message layer is absent on purpose: a message in flight is a true statement about the
history, and the history is monotone (`Extends`), so a late message stays true.
-/

variable {ν τ ε : Type} [LinearOrder τ]

/-- The parameters of a replicated log: the term carried by an entry, a family of quorums
    any two of which meet, and the `base` all logs start with, made of entries of the term
    `origin` in which nothing is ever elected. -/
structure Protocol (ν τ ε : Type) [LinearOrder τ] where
  termOf : ε → τ
  Quorum : Finset ν → Prop
  inter : ∀ {Q R : Finset ν}, Quorum Q → Quorum R → ∃ n, n ∈ Q ∧ n ∈ R
  base : List ε
  origin : τ
  base_term : ∀ e ∈ base, termOf e = origin

/-- The protocol state.  `term`, `log` and `commit` are what a node holds; the other
    fields record the run so far. -/
structure State (ν τ ε : Type) where
  /-- The term a node is in. -/
  term : ν → τ
  /-- The log a node holds. -/
  log : ν → List ε
  /-- How many entries of its log a node knows to be chosen. -/
  commit : ν → ℕ
  /-- The vote a node cast in a term. -/
  vote : τ → ν → Option ν
  /-- The log with which a node stood for election in a term. -/
  stood : τ → ν → Option (List ε)
  /-- The nodes that won a term. -/
  led : τ → ν → Prop
  /-- The log of the leader of a term, as far as that leader has extended it. -/
  lead : τ → List ε
  /-- How much of the log of a term's leader a node has stored while in that term. -/
  acked : τ → ν → ℕ

/-- Everybody in the `origin` term, holding the `base`, with an empty history. -/
def State.initial (P : Protocol ν τ ε) : State ν τ ε where
  term := fun _ => P.origin
  log := fun _ => P.base
  commit := fun _ => P.base.length
  vote := fun _ _ => none
  stood := fun _ _ => none
  led := fun _ _ => False
  lead := fun _ => P.base
  acked := fun _ _ => 0

/-- Term of the last entry of a log (`origin` for the empty log). -/
def Protocol.lastTerm (P : Protocol ν τ ε) (l : List ε) : τ :=
  (l.getLast?.map P.termOf).getD P.origin

/-- `C` is at least as up to date as `l`: a later last term, or the same last term and no
    fewer entries. -/
def Protocol.UpToDate (P : Protocol ν τ ε) (C l : List ε) : Prop :=
  P.lastTerm l < P.lastTerm C ∨ (P.lastTerm l = P.lastTerm C ∧ l.length ≤ C.length)

/-- Take over the first `m` entries of `L`, keeping `l` when it already starts with them. -/
def adopt [DecidableEq ε] (L l : List ε) (m : ℕ) : List ε :=
  if L.take m <+: l then l else L.take m

/-- Position `k` of the log of term `t` is *chosen*: it carries an entry of that very term
    and a quorum has stored the log up to it while in term `t`. -/
def Chosen (P : Protocol ν τ ε) (s : State ν τ ε) (t : τ) (k : ℕ) : Prop :=
  (∃ c, s.led t c) ∧ (∃ e, (s.lead t)[k]? = some e ∧ P.termOf e = t) ∧
    ∃ Q, P.Quorum Q ∧ ∀ n ∈ Q, k < s.acked t n

/-- Position `k` of the log of term `t` may still become chosen: some quorum consists of
    nodes that have stored it or have not left term `t` yet. -/
def Reserved (P : Protocol ν τ ε) (s : State ν τ ε) (t : τ) (k : ℕ) : Prop :=
  (∃ c, s.led t c) ∧ (∃ e, (s.lead t)[k]? = some e ∧ P.termOf e = t) ∧
    ∃ Q, P.Quorum Q ∧ ∀ n ∈ Q, k < s.acked t n ∨ s.term n ≤ t

/-- Node `n` may take the first `k` entries of its log for chosen. -/
def Learnable (P : Protocol ν τ ε) (s : State ν τ ε) (n : ν) (k : ℕ) : Prop :=
  ∃ t j, Chosen P s t j ∧ t ≤ s.term n ∧ k ≤ j + 1 ∧ (s.lead t).take k <+: s.log n

theorem Chosen.reserved {P : Protocol ν τ ε} {s : State ν τ ε} {t : τ} {k : ℕ}
    (h : Chosen P s t k) : Reserved P s t k := by
  obtain ⟨hled, he, Q, hQ, hack⟩ := h
  exact ⟨hled, he, Q, hQ, fun n hn => Or.inl (hack n hn)⟩

/-! ### The moves -/

namespace State

variable [DecidableEq ν]

/-- A node moves on to term `t`. -/
@[simps] def advance (s : State ν τ ε) (n : ν) (t : τ) : State ν τ ε :=
  { s with term := fun m => if m = n then t else s.term m }

/-- A node enters term `t` as a candidate and votes for itself. -/
@[simps] def stand (s : State ν τ ε) (n : ν) (t : τ) : State ν τ ε :=
  { s with
    term := fun m => if m = n then t else s.term m
    vote := fun u m => if u = t ∧ m = n then some n else s.vote u m
    stood := fun u m => if u = t ∧ m = n then some (s.log n) else s.stood u m }

/-- A node votes for `c` in its term. -/
@[simps] def grant (s : State ν τ ε) (n c : ν) : State ν τ ε :=
  { s with vote := fun u m => if u = s.term n ∧ m = n then some c else s.vote u m }

/-- A candidate wins its term. -/
@[simps] def elect (s : State ν τ ε) (c : ν) : State ν τ ε :=
  { s with
    led := fun u m => (u = s.term c ∧ m = c) ∨ s.led u m
    lead := fun u => if u = s.term c then s.log c else s.lead u }

/-- The leader of a term appends an entry. -/
@[simps] def propose (s : State ν τ ε) (n : ν) (e : ε) : State ν τ ε :=
  { s with
    log := fun m => if m = n then s.log n ++ [e] else s.log m
    lead := fun u => if u = s.term n then s.log n ++ [e] else s.lead u
    acked := fun u m => if u = s.term n ∧ m = n then (s.log n).length + 1 else s.acked u m }

/-- A node takes over the first `m` entries of the log of its term's leader. -/
@[simps] def accept [DecidableEq ε] (s : State ν τ ε) (n : ν) (m : ℕ) : State ν τ ε :=
  { s with
    log := fun i => if i = n then adopt (s.lead (s.term n)) (s.log n) m else s.log i
    acked := fun u i => if u = s.term n ∧ i = n then max (s.acked u i) m else s.acked u i }

/-- A node learns that the first `k` entries of its log are chosen. -/
@[simps] def learn (s : State ν τ ε) (n : ν) (k : ℕ) : State ν τ ε :=
  { s with commit := fun m => if m = n then k else s.commit m }

end State

/-- The moves of the protocol, with their guards. -/
inductive Step [DecidableEq ν] [DecidableEq ε] (P : Protocol ν τ ε) (s : State ν τ ε) :
    State ν τ ε → Prop
  /-- Terms only grow. -/
  | advance (n : ν) (t : τ) (ht : s.term n < t) : Step P s (s.advance n t)
  /-- A candidate stands in a term that is new to it. -/
  | stand (n : ν) (t : τ) (ht : s.term n < t) : Step P s (s.stand n t)
  /-- One vote per term, for a candidate whose log is at least as up to date. -/
  | grant (n c : ν) (C : List ε)
      (hfree : s.vote (s.term n) n = none ∨ s.vote (s.term n) n = some c)
      (hC : s.stood (s.term n) c = some C) (hup : P.UpToDate C (s.log n)) :
      Step P s (s.grant n c)
  /-- A quorum of votes wins, while the candidate still holds the log it stood with. -/
  | elect (c : ν) (Q : Finset ν) (hQ : P.Quorum Q)
      (hvotes : ∀ n ∈ Q, s.vote (s.term c) n = some c)
      (hstood : s.stood (s.term c) c = some (s.log c)) (hnew : ¬ s.led (s.term c) c) :
      Step P s (s.elect c)
  /-- Leaders append entries of the term they lead. -/
  | propose (n : ν) (e : ε) (hled : s.led (s.term n) n) (he : P.termOf e = s.term n) :
      Step P s (s.propose n e)
  /-- The others take over from the leader of the term they are in. -/
  | accept (n c : ν) (m : ℕ) (hled : s.led (s.term n) c) (hne : n ≠ c)
      (hm : m ≤ (s.lead (s.term n)).length) : Step P s (s.accept n m)
  /-- Commit positions grow, within chosen stretches. -/
  | learn (n : ν) (k : ℕ) (hk : s.commit n ≤ k) (hlen : k ≤ (s.log n).length)
      (hch : Learnable P s n k) : Step P s (s.learn n k)

/-- Any number of moves. -/
def Steps [DecidableEq ν] [DecidableEq ε] (P : Protocol ν τ ε) :
    State ν τ ε → State ν τ ε → Prop :=
  Relation.ReflTransGen (Step P)

/-- Well-formed log: it starts with the base, and every entry sits at the end of a stretch
    of the log of its own term's leader. -/
structure WfLog (P : Protocol ν τ ε) (s : State ν τ ε) (l : List ε) : Prop where
  base : P.base <+: l
  won : ∀ {i : ℕ} {e : ε}, l[i]? = some e → P.termOf e = P.origin ∨ ∃ c, s.led (P.termOf e) c
  stretch : ∀ {i : ℕ} {e : ε}, l[i]? = some e → l.take (i + 1) <+: s.lead (P.termOf e)

/-- The history of `s` is part of the history of `s'`. -/
structure Extends (s s' : State ν τ ε) : Prop where
  term : ∀ n, s.term n ≤ s'.term n
  vote : ∀ {t n c}, s.vote t n = some c → s'.vote t n = some c
  stood : ∀ {t n C}, s.stood t n = some C → s'.stood t n = some C
  led : ∀ {t n}, s.led t n → s'.led t n
  lead : ∀ {t n}, s.led t n → s.lead t <+: s'.lead t
  acked : ∀ t n, s.acked t n ≤ s'.acked t n

theorem Extends.refl (s : State ν τ ε) : Extends s s :=
  ⟨fun _ => le_refl _, id, id, id, fun _ => List.prefix_rfl, fun _ _ => le_refl _⟩

theorem Extends.trans {s u v : State ν τ ε} (h : Extends s u) (h' : Extends u v) :
    Extends s v where
  term n := le_trans (h.term n) (h'.term n)
  vote hv := h'.vote (h.vote hv)
  stood hs := h'.stood (h.stood hs)
  led hl := h'.led (h.led hl)
  lead hl := (h.lead hl).trans (h'.lead (h.led hl))
  acked t n := le_trans (h.acked t n) (h'.acked t n)

/-! ### Stretches of logs -/

section Stretch

variable {L l X : List ε}

/-- Reading inside a common stretch gives the same entry. -/
theorem getElem?_of_stretch {k i : ℕ} {a b : List ε} (h : a.take k <+: b) (hi : i < k)
    {e : ε} (he : a[i]? = some e) : b[i]? = some e := by
  have ht : (a.take k)[i]? = some e := by rw [List.getElem?_take_of_lt hi]; exact he
  obtain ⟨hlt, hget⟩ := List.getElem?_eq_some_iff.mp ht
  rw [← hget, h.getElem hlt, List.getElem?_eq_getElem]

/-- What the log of a term holds, it holds for good. -/
theorem Extends.read {s s' : State ν τ ε} (h : Extends s s') {t : τ} {c : ν} (hled : s.led t c)
    {i : ℕ} {e : ε} (he : (s.lead t)[i]? = some e) : (s'.lead t)[i]? = some e := by
  have htake := List.take_prefix (i + 1) (s.lead t)
  exact getElem?_of_stretch (htake.trans (h.lead hled)) (Nat.lt_succ_self i) he

/-- A shorter stretch of a common stretch is common. -/
theorem stretch_mono {a b : List ε} {j k : ℕ} (h : a.take k <+: b) (hjk : j ≤ k) :
    a.take j <+: b :=
  (List.take_prefix_take_left hjk).trans h

/-- Taking over part of `L` keeps every beginning shared with `L`. -/
theorem adopt_keeps [DecidableEq ε] {m : ℕ} (hl : X <+: l) (hL : X <+: L) : X <+: adopt L l m := by
  unfold adopt
  split
  · exact hl
  · rename_i hnot
    rcases Nat.lt_or_ge m X.length with hm | hm
    · -- then `l` already starts with the stretch, through `X`
      exfalso
      apply hnot
      have hX : L.take m <+: X := by
        have htake := List.take_prefix m L
        refine List.prefix_of_prefix_length_le htake hL ?_
        rw [List.length_take]; omega
      exact hX.trans hl
    · exact List.prefix_take_iff.mpr ⟨hL, hm⟩

/-- Taking over part of `L` stores that part. -/
theorem adopt_stores [DecidableEq ε] (L l : List ε) (m : ℕ) : L.take m <+: adopt L l m := by
  unfold adopt
  split
  · assumption
  · exact List.prefix_rfl

/-- Every entry of the result comes from one of the two logs. -/
theorem mem_of_mem_adopt [DecidableEq ε] {m : ℕ} {e : ε} (h : e ∈ adopt L l m) : e ∈ l ∨ e ∈ L := by
  unfold adopt at h
  split at h
  · exact Or.inl h
  · exact Or.inr (List.mem_of_mem_take h)

end Stretch

end Replog
