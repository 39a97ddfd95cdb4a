import Hallownest.Lib.Replog.Basic

namespace Replog

/-!
# Replicated logs — splicing and majorities

Two ingredients an implementation of the protocol needs.

* `splice` — the usual receiver loop: walk over the entries of a message, keep what is
  there as long as the terms agree, cut the log at the first conflict and append the rest.
  `splice_rule` is its invariant rule; on logs that match (`splice_eq_adopt`) the loop
  computes `adopt`, and all of the sender's log is stored if all of its rest was sent
  (`splice_rest`, `begins_adopt`).
* `Majority` — the subsets of more than half of a finite set of members; any two of them
  meet (`Majority.inter`).
-/

variable {ν τ ε : Type}

/-! ### The receiver loop -/

/-- Write `es` into `l` from position `i` on, keeping entries of the same term. -/
def splice [DecidableEq τ] (termOf : ε → τ) : List ε → ℕ → List ε → List ε
  | l, _, [] => l
  | l, i, e :: es =>
    match l[i]? with
    | some d =>
      if termOf d = termOf e then splice termOf l (i + 1) es
      else splice termOf (l.take i ++ [e]) (i + 1) es
    | none => splice termOf (l ++ [e]) (i + 1) es

/-- **The invariant rule of the loop.**  `I l i es` is about the log `l` when the entries `es`
    are still to be written from position `i` on.  A round keeps the entry it finds, or writes
    its own behind the first `i`. -/
theorem splice_rule [DecidableEq τ] (termOf : ε → τ) {I : List ε → ℕ → List ε → Prop}
    (keep : ∀ {l i d e es}, I l i (e :: es) → l[i]? = some d → termOf d = termOf e →
      I l (i + 1) es)
    (write : ∀ {l i e es}, I l i (e :: es) → i ≤ l.length → I (l.take i ++ [e]) (i + 1) es) :
    ∀ {es l : List ε} {i : ℕ}, i ≤ l.length → I l i es →
      I (splice termOf l i es) (i + es.length) [] := by
  intro es
  induction es with
  | nil => intro l i _ h; exact h
  | cons e es ih =>
    intro l i hi h
    have hnext : i + (e :: es).length = i + 1 + es.length := by rw [List.length_cons]; omega
    have hwrite : I (splice termOf (l.take i ++ [e]) (i + 1) es) (i + 1 + es.length) [] :=
      ih (by simp; omega) (write h hi)
    rw [splice, hnext]
    cases hq : l[i]? with
    | some d =>
      dsimp only
      by_cases hterm : termOf d = termOf e
      · rw [if_pos hterm]
        exact ih (List.getElem?_eq_some_iff.mp hq).1 (keep h hq hterm)
      · rw [if_neg hterm]
        exact hwrite
    | none =>
      dsimp only
      rwa [List.take_of_length_le (List.getElem?_eq_none_iff.mp hq)] at hwrite

/-- `l` and `L` agree up to every position at which their terms agree. -/
def Matching (termOf : ε → τ) (l L : List ε) : Prop :=
  ∀ {j : ℕ} {d e : ε}, l[j]? = some d → L[j]? = some e → termOf d = termOf e →
    l.take (j + 1) = L.take (j + 1)

/-- A beginning of `L` matches `L`. -/
theorem matching_take (termOf : ε → τ) (L : List ε) (m : ℕ) :
    Matching termOf (L.take m) L := by
  intro j d e hd _ _
  have hj : j < m := by
    have := (List.getElem?_eq_some_iff.mp hd).1
    rw [List.length_take] at this; omega
  rw [List.take_take, min_eq_left (by omega)]

/-- Taking over a longer beginning of `L` from a shorter one gives the longer one. -/
theorem adopt_take [DecidableEq ε] (L : List ε) {i m : ℕ} (him : i ≤ m) :
    adopt L (L.take i) m = L.take m := by
  unfold adopt
  split
  · rename_i hpre
    exact (hpre.eq_of_length_le (List.take_prefix_take_left him).length_le).symm
  · rfl

/-- **The receiver loop takes over from the sender.**  If `l` matches the sender's log `L`,
    agrees with it below `i`, and `es` is what `L` holds from `i` on, then splicing `es`
    into `l` takes over the first `i + es.length` entries of `L`. -/
theorem splice_eq_adopt [DecidableEq τ] [DecidableEq ε] (termOf : ε → τ) {L : List ε} :
    ∀ (es l : List ε) (i : ℕ), Matching termOf l L → i ≤ l.length → l.take i = L.take i →
      es <+: L.drop i → splice termOf l i es = adopt L l (i + es.length) := by
  intro es
  induction es with
  | nil =>
    intro l i _ _ hagree _
    rw [splice, List.length_nil, Nat.add_zero, adopt, if_pos]
    rw [← hagree]; exact List.take_prefix _ _
  | cons e es ih =>
    intro l i hmatch hi hagree hes
    -- the first entry of the message is entry `i` of the sender, the others follow it
    have hLi : L[i]? = some e := by
      obtain ⟨rest, hrest⟩ := hes
      have h0 : (L.drop i)[0]? = some e := by rw [← hrest]; rfl
      rwa [List.getElem?_drop, Nat.add_zero] at h0
    have hes' : es <+: L.drop (i + 1) := by
      obtain ⟨rest, hrest⟩ := hes
      refine ⟨rest, ?_⟩
      rw [← List.tail_drop, ← hrest]; rfl
    have hLlen : i < L.length := (List.getElem?_eq_some_iff.mp hLi).1
    have hsucc : L.take i ++ [e] = L.take (i + 1) := by
      rw [List.take_add_one, hLi]; rfl
    have hcut : splice termOf (L.take (i + 1)) (i + 1) es = L.take (i + (e :: es).length) := by
      rw [ih (L.take (i + 1)) (i + 1) (matching_take termOf L (i + 1))
        (by rw [List.length_take]; omega)
        (by rw [List.take_take, min_self]) hes', List.length_cons]
      rw [show i + 1 + es.length = i + (es.length + 1) by omega]
      exact adopt_take L (by omega)
    rw [splice]
    cases hq : l[i]? with
    | some d =>
      dsimp only
      by_cases hterm : termOf d = termOf e
      · rw [if_pos hterm, ih l (i + 1) hmatch (List.getElem?_eq_some_iff.mp hq).1
          (hmatch hq hLi hterm) hes', List.length_cons]
        rw [show i + 1 + es.length = i + (es.length + 1) by omega]
      · rw [if_neg hterm, hagree, hsucc, hcut, adopt, if_neg]
        intro hpre
        have hli := getElem?_of_stretch hpre
          (show i < i + (e :: es).length by rw [List.length_cons]; omega) hLi
        rw [hq] at hli
        exact hterm (congrArg termOf (Option.some.inj hli))
    | none =>
      dsimp only
      have hlen : l.length ≤ i := List.getElem?_eq_none_iff.mp hq
      have hl : l = L.take i := by rw [← hagree, List.take_of_length_le hlen]
      rw [hl, hsucc, hcut, adopt_take L (by omega)]

theorem getElem?_of_begins {l L : List ε} (h : L <+: l) {i : ℕ} {e : ε} (he : L[i]? = some e) :
    l[i]? = some e := by
  obtain ⟨hi, rfl⟩ := List.getElem?_eq_some_iff.mp he
  exact List.prefix_iff_getElem?.mp h i hi

/-- A log that begins with `L` matches it. -/
theorem matching_of_begins (termOf : ε → τ) {l L : List ε} (h : L <+: l) :
    Matching termOf l L := by
  obtain ⟨rest, rfl⟩ := h
  intro j d e _ he _
  have hj := (List.getElem?_eq_some_iff.mp he).1
  exact List.take_append_of_le_length hj

/-- Splicing the whole rest of the sender's log. -/
theorem splice_rest [DecidableEq τ] [DecidableEq ε] {termOf : ε → τ} {l L : List ε} {i : ℕ}
    (hmatch : Matching termOf l L) (hi : i ≤ l.length) (hL : i ≤ L.length)
    (hagree : l.take i = L.take i) : splice termOf l i (L.drop i) = adopt L l L.length := by
  rw [splice_eq_adopt termOf _ _ _ hmatch hi hagree (List.prefix_refl _), List.length_drop,
    Nat.add_sub_cancel' hL]

/-- Taking over the whole of `L`. -/
theorem begins_adopt [DecidableEq ε] (L l : List ε) : L <+: adopt L l L.length := by
  have h := adopt_stores L l L.length
  rwa [List.take_length] at h

theorem adopt_of_begins [DecidableEq ε] {l L : List ε} (h : L <+: l) :
    adopt L l L.length = l := by
  rw [adopt, List.take_length, if_pos h]

/-! ### Majorities -/

/-- More than half of the members. -/
def Majority (members Q : Finset ν) : Prop :=
  Q ⊆ members ∧ members.card / 2 + 1 ≤ Q.card

/-- Two majorities share a member. -/
theorem Majority.inter [DecidableEq ν] {members Q R : Finset ν} (hQ : Majority members Q)
    (hR : Majority members R) : ∃ n, n ∈ Q ∧ n ∈ R := by
  have hcard : members.card < Q.card + R.card := by
    have h1 := hQ.2
    have h2 := hR.2
    omega
  obtain ⟨n, hn⟩ := Finset.inter_nonempty_of_card_lt_card_add_card hQ.1 hR.1 hcard
  exact ⟨n, Finset.mem_inter.mp hn⟩

end Replog
