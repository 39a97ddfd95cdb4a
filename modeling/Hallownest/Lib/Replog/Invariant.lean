import Hallownest.Lib.Replog.Basic

namespace Replog

/-!
# Replicated logs — the invariant

One inductive invariant carries election safety, log matching and leader completeness at
once.

* `Inv` — the fields below `kept` are bookkeeping: votes are bounded by terms, a winner has
  a quorum, the log of a term is the log its winner stood with followed by entries of that
  term, and every log is made of stretches of the logs of leaders (`WfLog`).
* `Inv.kept` and `Inv.carried` are the heart: a position that may still become chosen
  (`Reserved`) stays in the log of every node that stored it, and is in the log of every
  candidate such a node voted for.  `Reserved` only ever shrinks, apart from the position a
  leader has just written, so no induction over terms is needed.
* `Inv.reserved_stood` — quorum intersection turns `carried` into leader completeness.
* `Inv.step` — every move keeps the invariant, and only adds to the history.
-/

variable {ν τ ε : Type} [LinearOrder τ] {P : Protocol ν τ ε} {s s' : State ν τ ε}

/-- The invariant of the protocol. -/
structure Inv (P : Protocol ν τ ε) (s : State ν τ ε) : Prop where
  origin_le : ∀ n, P.origin ≤ s.term n
  lead_origin : s.lead P.origin = P.base
  vote_le : ∀ {t n c}, s.vote t n = some c → t ≤ s.term n
  vote_stood : ∀ {t n c}, s.vote t n = some c → ∃ C, s.stood t c = some C
  stood_vote : ∀ {t n C}, s.stood t n = some C → s.vote t n = some n
  stood_gt : ∀ {t n C}, s.stood t n = some C → P.origin < t
  stood_lt : ∀ {t n C}, s.stood t n = some C → ∀ e ∈ C, P.termOf e < t
  stood_wf : ∀ {t n C}, s.stood t n = some C → WfLog P s C
  won : ∀ {t c}, s.led t c → ∃ Q, P.Quorum Q ∧ ∀ n ∈ Q, s.vote t n = some c
  lead_eq : ∀ {t c}, s.led t c → ∃ C es, s.stood t c = some C ∧ s.lead t = C ++ es ∧
    ∀ e ∈ es, P.termOf e = t
  lead_wf : ∀ {t c}, s.led t c → WfLog P s (s.lead t)
  log_lead : ∀ {n}, s.led (s.term n) n → s.log n = s.lead (s.term n)
  log_wf : ∀ n, WfLog P s (s.log n)
  log_le : ∀ n, ∀ e ∈ s.log n, P.termOf e ≤ s.term n
  acked_le : ∀ {t n}, 0 < s.acked t n →
    t ≤ s.term n ∧ (∃ c, s.led t c) ∧ s.acked t n ≤ (s.lead t).length
  acked_own : ∀ {t n k e}, s.led t n → (s.lead t)[k]? = some e → P.termOf e = t →
    k < s.acked t n
  kept : ∀ {t k n}, Reserved P s t k → k < s.acked t n → (s.lead t).take (k + 1) <+: s.log n
  carried : ∀ {t t' k n c C}, t < t' → s.vote t' n = some c → s.stood t' c = some C →
    Reserved P s t k → k < s.acked t n → (s.lead t).take (k + 1) <+: C
  base_le : ∀ n, P.base.length ≤ s.commit n
  commit_le : ∀ n, s.commit n ≤ (s.log n).length
  commit_ok : ∀ n, s.commit n ≤ P.base.length ∨ Learnable P s n (s.commit n)

namespace Inv

/-! ### Consequences of the invariant -/

/-- **Election safety.**  A term has at most one winner. -/
theorem led_unique (h : Inv P s) {t : τ} {a b : ν} (ha : s.led t a) (hb : s.led t b) :
    a = b := by
  obtain ⟨Q, hQ, hva⟩ := h.won ha
  obtain ⟨R, hR, hvb⟩ := h.won hb
  obtain ⟨n, hnQ, hnR⟩ := P.inter hQ hR
  exact Option.some.inj ((hva n hnQ).symm.trans (hvb n hnR))

/-- Nothing is elected in the origin term. -/
theorem led_gt (h : Inv P s) {t : τ} {c : ν} (hc : s.led t c) : P.origin < t := by
  obtain ⟨C, _, hC, _, _⟩ := h.lead_eq hc
  exact h.stood_gt hC

/-- The log of a term holds entries of that term and of earlier ones only. -/
theorem lead_le (h : Inv P s) {t : τ} (hw : t = P.origin ∨ ∃ c, s.led t c) :
    ∀ e ∈ s.lead t, P.termOf e ≤ t := by
  intro e he
  rcases hw with rfl | ⟨c, hc⟩
  · rw [h.lead_origin] at he
    exact le_of_eq (P.base_term e he)
  · obtain ⟨C, es, hC, hlead, hes⟩ := h.lead_eq hc
    rw [hlead, List.mem_append] at he
    rcases he with he | he
    · exact le_of_lt (h.stood_lt hC e he)
    · exact le_of_eq (hes e he)

/-- No node has acknowledged more than the log of the term holds. -/
theorem acked_length_le (h : Inv P s) (t : τ) (n : ν) : s.acked t n ≤ (s.lead t).length := by
  rcases Nat.eq_zero_or_pos (s.acked t n) with h0 | h0
  · omega
  · exact (h.acked_le h0).2.2

/-- A well-formed log whose last entry is of term `u` is a beginning of the log of `u`. -/
theorem wf_last {l : List ε} (hl : WfLog P s l) {e : ε} (he : l.getLast? = some e) :
    l <+: s.lead (P.termOf e) := by
  have hne : l ≠ [] := by rintro rfl; simp at he
  have hpos : 0 < l.length := List.length_pos_iff.mpr hne
  rw [List.getLast?_eq_getElem?] at he
  have hs := hl.stretch he
  rwa [Nat.sub_add_cancel hpos, List.take_length] at hs

/-- The terms along a well-formed log do not exceed the term of its last entry. -/
theorem wf_le_lastTerm (h : Inv P s) {l : List ε} (hl : WfLog P s l) :
    ∀ e ∈ l, P.termOf e ≤ P.lastTerm l := by
  intro e he
  obtain ⟨last, hlast⟩ : ∃ last, l.getLast? = some last := by
    cases hq : l.getLast? with
    | none => rw [List.getLast?_eq_none_iff] at hq; subst hq; simp at he
    | some last => exact ⟨last, rfl⟩
  have hmem : last ∈ l := List.mem_of_getLast? hlast
  obtain ⟨i, hi⟩ := List.mem_iff_getElem?.mp hmem
  have hterm : P.lastTerm l = P.termOf last := by simp [Protocol.lastTerm, hlast]
  rw [hterm]
  exact h.lead_le (hl.won hi) e ((wf_last hl hlast).subset he)

/-- **Leader completeness.**  A reserved position is in the log with which any later
    winner stood: the quorum that may still choose it meets the quorum of votes, and the
    common voter, having left the earlier term, must already have stored it. -/
theorem reserved_stood (h : Inv P s) {t t' : τ} {k : ℕ} {c : ν} {C : List ε} (htt : t < t')
    (hled : s.led t' c) (hC : s.stood t' c = some C) (hr : Reserved P s t k) :
    (s.lead t).take (k + 1) <+: C := by
  obtain ⟨Q, hQ, hack⟩ := hr.2.2
  obtain ⟨R, hR, hvote⟩ := h.won hled
  obtain ⟨n, hnQ, hnR⟩ := P.inter hQ hR
  have hterm : t' ≤ s.term n := h.vote_le (hvote n hnR)
  have hk : k < s.acked t n := by
    rcases hack n hnQ with hk | hle
    · exact hk
    · exact absurd (lt_of_lt_of_le htt hterm) (not_lt.mpr hle)
  exact h.carried htt (hvote n hnR) hC hr hk

/-- A reserved position is in the log of every term that is not earlier. -/
theorem reserved_lead (h : Inv P s) {t t' : τ} {k : ℕ} {c : ν} (htt : t ≤ t')
    (hled : s.led t' c) (hr : Reserved P s t k) :
    (s.lead t).take (k + 1) <+: s.lead t' := by
  rcases eq_or_lt_of_le htt with rfl | hlt
  · exact List.take_prefix _ _
  · obtain ⟨C, es, hC, hlead, _⟩ := h.lead_eq hled
    rw [hlead]
    exact (h.reserved_stood hlt hled hC hr).trans (List.prefix_append C es)

/-- **Log matching.**  Two well-formed logs with entries of the same term at one position
    agree up to that position. -/
theorem matching {l l' : List ε} (hl : WfLog P s l) (hl' : WfLog P s l') {i : ℕ} {e e' : ε}
    (he : l[i]? = some e) (he' : l'[i]? = some e') (ht : P.termOf e = P.termOf e') :
    l.take (i + 1) = l'.take (i + 1) := by
  have h1 := hl.stretch he
  have h2 := hl'.stretch he'
  rw [ht] at h1
  have hlen : (l.take (i + 1)).length = (l'.take (i + 1)).length := by
    have hi := (List.getElem?_eq_some_iff.mp he).1
    have hi' := (List.getElem?_eq_some_iff.mp he').1
    rw [List.length_take, List.length_take]; omega
  exact (List.prefix_of_prefix_length_le h1 h2 (le_of_eq hlen)).eq_of_length hlen

/-- Read entry by entry: logs that agree on the term of a position agree up to it. -/
theorem matching_read {l l' : List ε} (hl : WfLog P s l) (hl' : WfLog P s l') {i j : ℕ}
    {e e' : ε} (he : l[i]? = some e) (he' : l'[i]? = some e') (ht : P.termOf e = P.termOf e')
    (hj : j ≤ i) : l[j]? = l'[j]? := by
  have htake := matching hl hl' he he' ht
  rw [← List.getElem?_take_of_lt (Nat.lt_succ_of_le hj), htake,
    List.getElem?_take_of_lt (Nat.lt_succ_of_le hj)]

/-- What a node takes for chosen is in the log of the leader of its term. -/
theorem learnable_lead (h : Inv P s) {n : ν} {c : ν} {k : ℕ} (hled : s.led (s.term n) c)
    (hk : Learnable P s n k) : (s.log n).take k <+: s.lead (s.term n) := by
  obtain ⟨t, j, hch, htn, hkj, hpre⟩ := hk
  have hlong := h.reserved_lead htn hled hch.reserved
  have hlen : k ≤ (s.lead t).length := by
    obtain ⟨e, he, _⟩ := hch.2.1
    have := (List.getElem?_eq_some_iff.mp he).1
    omega
  have heq : (s.log n).take k = (s.lead t).take k := by
    rw [List.prefix_iff_eq_take] at hpre
    rw [hpre, List.length_take, min_eq_left hlen]
  rw [heq]
  exact stretch_mono hlong hkj

/-- What a node has committed is in the log of the leader of its term. -/
theorem commit_lead (h : Inv P s) {n c : ν} (hled : s.led (s.term n) c) :
    (s.log n).take (s.commit n) <+: s.lead (s.term n) := by
  rcases h.commit_ok n with hb | hb
  · -- nothing beyond the base, with which all logs begin
    have hbase : (s.log n).take (s.commit n) <+: P.base := by
      have htake := List.take_prefix (s.commit n) (s.log n)
      refine List.prefix_of_prefix_length_le htake (h.log_wf n).base ?_
      rw [List.length_take]; omega
    exact hbase.trans (h.lead_wf hled).base
  · exact h.learnable_lead hled hb

/-- Nobody has won a term it has not reached. -/
theorem led_le (h : Inv P s) {t : τ} {n : ν} (hled : s.led t n) : t ≤ s.term n := by
  obtain ⟨C, _, hC, _⟩ := h.lead_eq hled
  exact h.vote_le (h.stood_vote hC)

/-- The winner of an election is the first winner of its term. -/
theorem no_other_winner (h : Inv P s) {c : ν} {Q : Finset ν} (hQ : P.Quorum Q)
    (hvotes : ∀ n ∈ Q, s.vote (s.term c) n = some c) (hnew : ¬ s.led (s.term c) c) (m : ν) :
    ¬ s.led (s.term c) m := by
  intro hm
  obtain ⟨R, hR, hv⟩ := h.won hm
  obtain ⟨n, hnQ, hnR⟩ := P.inter hQ hR
  have : m = c := Option.some.inj ((hv n hnR).symm.trans (hvotes n hnQ))
  exact hnew (this ▸ hm)

/-- **The up-to-date check.**  A reserved position in a well-formed log `l` is in every
    well-formed log `C` that is at least as up to date.  With equal last terms both logs
    are beginnings of one leader's log, so the longer one contains the shorter; with a
    later last term, `C` reaches into the log of a later leader, which stood with the
    position already in its log. -/
theorem upToDate_carries (h : Inv P s) {t : τ} {k : ℕ} (hr : Reserved P s t k)
    {C l : List ε} (hl : WfLog P s l) (hC : WfLog P s C) (hup : P.UpToDate C l)
    (hX : (s.lead t).take (k + 1) <+: l) : (s.lead t).take (k + 1) <+: C := by
  obtain ⟨e, he, het⟩ := hr.2.1
  have hel : l[k]? = some e := getElem?_of_stretch hX (Nat.lt_succ_self k) he
  have htl : t ≤ P.lastTerm l := het ▸ h.wf_le_lastTerm hl e (List.mem_of_getElem? hel)
  have hlen := (List.getElem?_eq_some_iff.mp hel).1
  obtain ⟨c₀, hc₀⟩ := hr.1
  have ht0 : P.origin < t := h.led_gt hc₀
  rcases hup with hlt | ⟨heq, hle⟩
  · -- `C` has the later last term: look at the log its leader stood with
    obtain ⟨last, hlast⟩ : ∃ last, C.getLast? = some last := by
      cases hq : C.getLast? with
      | none =>
        have : P.lastTerm C = P.origin := by simp [Protocol.lastTerm, hq]
        rw [this] at hlt
        exact absurd (lt_of_lt_of_le ht0 htl) (not_lt.mpr (le_of_lt hlt))
      | some last => exact ⟨last, rfl⟩
    have hu : P.lastTerm C = P.termOf last := by simp [Protocol.lastTerm, hlast]
    have htu : t < P.termOf last := hu ▸ lt_of_le_of_lt htl hlt
    obtain ⟨i, hi⟩ := List.mem_iff_getElem?.mp (List.mem_of_getLast? hlast)
    obtain ⟨c, hc⟩ : ∃ c, s.led (P.termOf last) c := by
      rcases hC.won hi with h0 | hc
      · rw [h0] at htu; exact absurd (lt_trans ht0 htu) (lt_irrefl _)
      · exact hc
    obtain ⟨D, es, hD, hlead, _⟩ := h.lead_eq hc
    have hXD := h.reserved_stood htu hc hD hr
    have hDlead : D <+: s.lead (P.termOf last) := hlead ▸ List.prefix_append D es
    rcases List.prefix_or_prefix_of_prefix hDlead (wf_last hC hlast) with hDC | hCD
    · exact hXD.trans hDC
    · -- `D` is older than the term of `last`
      have := h.stood_lt hD last (hCD.subset (List.mem_of_getLast? hlast))
      exact absurd this (lt_irrefl _)
  · -- equal last terms: both are beginnings of the log of that term
    obtain ⟨last, hlast⟩ : ∃ last, l.getLast? = some last := by
      cases hq : l.getLast? with
      | none => rw [List.getLast?_eq_none_iff] at hq; subst hq; simp at hlen
      | some last => exact ⟨last, rfl⟩
    obtain ⟨last', hlast'⟩ : ∃ last', C.getLast? = some last' := by
      cases hq : C.getLast? with
      | none => rw [List.getLast?_eq_none_iff] at hq; subst hq; rw [List.length_nil] at hle; omega
      | some last' => exact ⟨last', rfl⟩
    have hu : P.termOf last = P.termOf last' := by
      simpa [Protocol.lastTerm, hlast, hlast'] using heq
    have h1 := wf_last hl hlast
    have h2 := wf_last hC hlast'
    rw [hu] at h1
    exact hX.trans (List.prefix_of_prefix_length_le h1 h2 hle)

end Inv

end Replog
