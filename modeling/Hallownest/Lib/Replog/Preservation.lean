import Hallownest.Lib.Replog.Invariant

namespace Replog

/-!
# Replicated logs — every move keeps the invariant

One lemma per move.  Each first shows that the move only adds to the history (`Extends`);
well-formedness of logs, chosen positions and learnt stretches then carry over by the
monotonicity lemmas of the first section, and what is left per move is the one field the
move is about.
-/

variable {ν τ ε : Type} [LinearOrder τ] {P : Protocol ν τ ε} {s s' : State ν τ ε}

/-! ### What survives a growing history -/

/-- A log stays well formed when the history grows. -/
theorem WfLog.mono (hext : Extends s s') (ho : s'.lead P.origin = s.lead P.origin) {l : List ε}
    (hl : WfLog P s l) : WfLog P s' l where
  base := hl.base
  won := by
    intro i e he
    rcases hl.won he with h | ⟨c, hc⟩
    · exact Or.inl h
    · exact Or.inr ⟨c, hext.led hc⟩
  stretch := by
    intro i e he
    rcases hl.won he with h | ⟨c, hc⟩
    · rw [h, ho, ← h]; exact hl.stretch he
    · exact (hl.stretch he).trans (hext.lead hc)

/-- A chosen position stays chosen. -/
theorem Chosen.mono (hext : Extends s s') {t : τ} {k : ℕ} (h : Chosen P s t k) :
    Chosen P s' t k := by
  obtain ⟨⟨c, hc⟩, ⟨e, he, ht⟩, Q, hQ, hack⟩ := h
  refine ⟨⟨c, hext.led hc⟩, ⟨e, hext.read hc he, ht⟩, Q, hQ, fun n hn => ?_⟩
  exact lt_of_lt_of_le (hack n hn) (hext.acked t n)

/-- The stretch below a chosen position does not change any more. -/
theorem Chosen.take_eq (hext : Extends s s') {t : τ} {k m : ℕ} (h : Chosen P s t k)
    (hm : m ≤ k + 1) : (s'.lead t).take m = (s.lead t).take m := by
  obtain ⟨⟨c, hc⟩, ⟨e, he, _⟩, _⟩ := h
  have hlt := (List.getElem?_eq_some_iff.mp he).1
  have hpre := hext.lead hc
  rw [List.prefix_iff_eq_take] at hpre
  rw [hpre, List.take_take, min_eq_left]
  omega

/-- What a node learnt stays learnt while its log keeps that stretch. -/
theorem Learnable.mono (hext : Extends s s') {n : ν} {k : ℕ} (h : Learnable P s n k)
    (hlog : (s.log n).take k <+: s'.log n) : Learnable P s' n k := by
  obtain ⟨t, j, hch, ht, hk, hpre⟩ := h
  refine ⟨t, j, hch.mono hext, le_trans ht (hext.term n), hk, ?_⟩
  rw [hch.take_eq hext hk]
  have hlen : ((s.lead t).take k).length ≤ ((s.log n).take k).length := by
    have := hpre.length_le
    rw [List.length_take] at this ⊢
    rw [List.length_take]; omega
  have htake := List.take_prefix k (s.log n)
  exact (List.prefix_of_prefix_length_le hpre htake hlen).trans hlog

/-- A position that is reserved after a move on the terms and acknowledgements was reserved
    before: whoever stored it in the move had not left the term. -/
theorem Reserved.anti {t : τ} {k : ℕ} (h : Reserved P s' t k)
    (hled : ∀ c, s'.led t c → s.led t c)
    (hlead : ∀ e, (s'.lead t)[k]? = some e → (s.lead t)[k]? = some e)
    (hterm : ∀ n, s.term n ≤ s'.term n)
    (hack : ∀ n, k < s'.acked t n → k < s.acked t n ∨ s.term n ≤ t) : Reserved P s t k := by
  obtain ⟨⟨c, hc⟩, ⟨e, he, het⟩, Q, hQ, hq⟩ := h
  refine ⟨⟨c, hled c hc⟩, ⟨e, hlead e he, het⟩, Q, hQ, fun n hn => ?_⟩
  rcases hq n hn with hk | hle
  · exact hack n hk
  · exact Or.inr (le_trans (hterm n) hle)

/-- Appending an entry of a led term to a well-formed log that is the log of that term. -/
theorem WfLog.snoc {l : List ε} {e : ε} {c : ν} (hl : WfLog P s l)
    (hled : s.led (P.termOf e) c) (hlead : s.lead (P.termOf e) = l ++ [e]) :
    WfLog P s (l ++ [e]) where
  base := hl.base.trans (List.prefix_append l [e])
  won := by
    intro i d hd
    rcases Nat.lt_or_ge i l.length with hi | hi
    · rw [List.getElem?_append_left hi] at hd; exact hl.won hd
    · have : d = e := by
        have hd' := List.mem_of_getElem? (List.getElem?_append_right hi ▸ hd)
        simpa using hd'
      exact Or.inr ⟨c, this ▸ hled⟩
  stretch := by
    intro i d hd
    rcases Nat.lt_or_ge i l.length with hi | hi
    · rw [List.getElem?_append_left hi] at hd
      rw [List.take_append_of_le_length (by omega)]
      exact hl.stretch hd
    · have : d = e := by
        have hd' := List.mem_of_getElem? (List.getElem?_append_right hi ▸ hd)
        simpa using hd'
      rw [this, hlead]
      exact List.take_prefix _ _

/-- A log that takes over from a well-formed log stays well formed. -/
theorem WfLog.adopt [DecidableEq ε] {L l : List ε} (hL : WfLog P s L) (hl : WfLog P s l) (m : ℕ) :
    WfLog P s (adopt L l m) := by
  have hbase : P.base <+: Replog.adopt L l m := adopt_keeps hl.base hL.base
  unfold Replog.adopt at hbase ⊢
  split
  · exact hl
  · rename_i hnot
    rw [if_neg hnot] at hbase
    refine ⟨hbase, ?_, ?_⟩
    · intro i e he
      rw [List.getElem?_take] at he
      split at he
      · exact hL.won he
      · simp at he
    · intro i e he
      rw [List.getElem?_take] at he
      split at he
      · rw [List.take_take, min_eq_left (by omega)]
        exact hL.stretch he
      · simp at he

/-! ### The initial state -/

/-- The base is well formed. -/
theorem wfLog_initial (P : Protocol ν τ ε) : WfLog P (State.initial P) P.base where
  base := List.prefix_rfl
  won := fun he => Or.inl (P.base_term _ (List.mem_of_getElem? he))
  stretch := fun _ => List.take_prefix _ _

/-- The initial state satisfies the invariant. -/
theorem inv_initial (P : Protocol ν τ ε) : Inv P (State.initial P) where
  origin_le := fun _ => le_refl _
  lead_origin := rfl
  vote_le := by intro t n c h; simp [State.initial] at h
  vote_stood := by intro t n c h; simp [State.initial] at h
  stood_vote := by intro t n C h; simp [State.initial] at h
  stood_gt := by intro t n C h; simp [State.initial] at h
  stood_lt := by intro t n C h; simp [State.initial] at h
  stood_wf := by intro t n C h; simp [State.initial] at h
  won := fun h => h.elim
  lead_eq := fun h => h.elim
  lead_wf := fun h => h.elim
  log_lead := fun h => h.elim
  log_wf := fun _ => wfLog_initial P
  log_le := fun _ e he => le_of_eq (P.base_term e he)
  acked_le := by intro t n h; simp [State.initial] at h
  acked_own := fun h => h.elim
  kept := by intro t k n _ h; simp [State.initial] at h
  carried := by intro t t' k n c C _ h; simp [State.initial] at h
  base_le := fun _ => le_refl _
  commit_le := fun _ => le_refl _
  commit_ok := fun _ => Or.inl (le_refl _)

section Moves

/-! ### Winning a term -/

/-- Winning a term only adds to the history. -/
theorem extends_elect {c : ν} (hnobody : ∀ m, ¬ s.led (s.term c) m) :
    Extends s (s.elect c) where
  term := fun _ => le_refl _
  vote := id
  stood := id
  led := fun hl => Or.inr hl
  lead := by
    intro u m hl
    have hu : u ≠ s.term c := by rintro rfl; exact hnobody m hl
    rw [State.elect_lead, if_neg hu]
  acked := fun _ _ => le_refl _

theorem inv_elect (h : Inv P s) {c : ν} {Q : Finset ν} (hQ : P.Quorum Q)
    (hvotes : ∀ n ∈ Q, s.vote (s.term c) n = some c)
    (hstood : s.stood (s.term c) c = some (s.log c)) (hnew : ¬ s.led (s.term c) c) :
    Inv P (s.elect c) := by
  have hnobody := h.no_other_winner hQ hvotes hnew
  have hext := extends_elect hnobody
  have hold : ∀ {u}, u ≠ s.term c → (s.elect c).lead u = s.lead u :=
    fun hu => by rw [State.elect_lead, if_neg hu]
  have hne : ∀ {u m}, s.led u m → u ≠ s.term c := by
    rintro u m hl rfl; exact hnobody m hl
  have ho : (s.elect c).lead P.origin = s.lead P.origin := hold (ne_of_lt (h.stood_gt hstood))
  -- the new log holds no entry of the new term, so nothing is reserved there yet
  have hback : ∀ {u k}, Reserved P (s.elect c) u k → u ≠ s.term c ∧ Reserved P s u k := by
    intro u k hr
    have hu : u ≠ s.term c := by
      rintro rfl
      obtain ⟨e, he, het⟩ := hr.2.1
      rw [State.elect_lead, if_pos rfl] at he
      exact absurd het (ne_of_lt (h.stood_lt hstood e (List.mem_of_getElem? he)))
    refine ⟨hu, hr.anti ?_ (fun e he => ?_) hext.term (fun _ hk => Or.inl hk)⟩
    · rintro d (⟨rfl, _⟩ | hd)
      · exact absurd rfl hu
      · exact hd
    · rwa [hold hu] at he
  exact { h with
    lead_origin := ho.trans h.lead_origin
    stood_wf := fun hs => (h.stood_wf hs).mono hext ho
    won := by
      rintro u d (⟨rfl, rfl⟩ | hl)
      · exact ⟨Q, hQ, hvotes⟩
      · exact h.won hl
    -- each field about `led` has the new winner as its first case
    lead_eq := by
      rintro u d (⟨rfl, rfl⟩ | hl)
      · exact ⟨s.log d, [], hstood, by simp, by simp⟩
      · rw [hold (hne hl)]; exact h.lead_eq hl
    lead_wf := by
      rintro u d (⟨rfl, rfl⟩ | hl)
      · rw [State.elect_lead, if_pos rfl]; exact (h.log_wf d).mono hext ho
      · rw [hold (hne hl)]; exact (h.lead_wf hl).mono hext ho
    log_lead := by
      rintro m (⟨hm, rfl⟩ | hl)
      · simp
      · exact (h.log_lead hl).trans (hold (hne hl)).symm
    log_wf := fun m => (h.log_wf m).mono hext ho
    acked_le := by
      intro u m ha
      obtain ⟨h1, ⟨d, hd⟩, h3⟩ := h.acked_le ha
      rw [hold (hne hd)]
      exact ⟨h1, ⟨d, Or.inr hd⟩, h3⟩
    acked_own := by
      rintro u m k e (⟨rfl, rfl⟩ | hl) he het
      · rw [State.elect_lead, if_pos rfl] at he
        exact absurd het (ne_of_lt (h.stood_lt hstood e (List.mem_of_getElem? he)))
      · rw [hold (hne hl)] at he; exact h.acked_own hl he het
    kept := by
      intro u k m hr hk
      rw [hold (hback hr).1]; exact h.kept (hback hr).2 hk
    carried := by
      intro u u' k m d D huu hv hD hr hk
      rw [hold (hback hr).1]; exact h.carried huu hv hD (hback hr).2 hk
    commit_ok := fun m => (h.commit_ok m).imp_right
      (fun hk => hk.mono hext <| List.take_prefix _ _) }

variable [DecidableEq ν]

/-! ### Moving between terms -/

/-- Raising one node's term only adds to the history. -/
theorem extends_advance {n : ν} {t : τ} (ht : s.term n < t) : Extends s (s.advance n t) where
  term := by
    intro m
    by_cases hm : m = n
    · subst hm; simpa using le_of_lt ht
    · simp [hm]
  vote := id
  stood := id
  led := id
  lead := fun _ => List.prefix_rfl
  acked := fun _ _ => le_refl _

theorem inv_advance (h : Inv P s) {n : ν} {t : τ} (ht : s.term n < t) :
    Inv P (s.advance n t) := by
  have hext := extends_advance (s := s) ht
  have hback : ∀ {u k}, Reserved P (s.advance n t) u k → Reserved P s u k :=
    fun hr => hr.anti (fun _ hc => hc) (fun _ he => he) hext.term (fun _ hk => Or.inl hk)
  exact { h with
    origin_le := fun m => le_trans (h.origin_le m) (hext.term m)
    vote_le := fun hv => le_trans (h.vote_le hv) (hext.term _)
    stood_wf := fun hs => (h.stood_wf hs).mono hext rfl
    lead_wf := fun hl => (h.lead_wf hl).mono hext rfl
    log_lead := by
      intro m hl
      by_cases hm : m = n
      · -- a node cannot have won the term it only now enters
        subst hm
        simp only [State.advance_term, if_true, State.advance_led] at hl
        exact absurd (h.led_le hl) (not_le.mpr ht)
      · simp only [State.advance_term, if_neg hm, State.advance_led] at hl
        simpa [hm] using h.log_lead hl
    log_wf := fun m => (h.log_wf m).mono hext rfl
    log_le := fun m e he => le_trans (h.log_le m e he) (hext.term m)
    acked_le := fun ha =>
      ⟨le_trans (h.acked_le ha).1 (hext.term _), (h.acked_le ha).2⟩
    kept := fun hr hk => h.kept (hback hr) hk
    carried := fun htt hv hC hr hk => h.carried htt hv hC (hback hr) hk
    commit_ok := fun m => (h.commit_ok m).imp_right
      (fun hk => hk.mono hext <| List.take_prefix _ _) }

/-! ### Standing and voting -/

/-- Standing for election only adds to the history: a later term holds no vote yet. -/
theorem extends_stand (h : Inv P s) {n : ν} {t : τ} (ht : s.term n < t) :
    Extends s (s.stand n t) where
  term := (extends_advance ht).term
  vote := by
    intro u m c hv
    by_cases hm : u = t ∧ m = n
    · obtain ⟨rfl, rfl⟩ := hm
      exact absurd (h.vote_le hv) (not_le.mpr ht)
    · rw [State.stand_vote, if_neg hm]; exact hv
  stood := by
    intro u m C hs
    by_cases hm : u = t ∧ m = n
    · obtain ⟨rfl, rfl⟩ := hm
      exact absurd (h.vote_le (h.stood_vote hs)) (not_le.mpr ht)
    · rw [State.stand_stood, if_neg hm]; exact hs
  led := id
  lead := fun _ => List.prefix_rfl
  acked := fun _ _ => le_refl _

/-- The logs on record after `n` stood in term `t`: its own log, or an old record. -/
theorem stood_stand {n m : ν} {t u : τ} {C : List ε} (hs : (s.stand n t).stood u m = some C) :
    (u = t ∧ m = n ∧ C = s.log n) ∨ s.stood u m = some C := by
  rw [State.stand_stood] at hs
  split at hs
  · rename_i hm; exact Or.inl ⟨hm.1, hm.2, (Option.some.inj hs).symm⟩
  · exact Or.inr hs

/-- The votes on record after `n` stood in term `t`: its own vote, or an old record. -/
theorem vote_stand {n m c : ν} {t u : τ} (hv : (s.stand n t).vote u m = some c) :
    (u = t ∧ m = n ∧ c = n) ∨ s.vote u m = some c := by
  rw [State.stand_vote] at hv
  split at hv
  · rename_i hm; exact Or.inl ⟨hm.1, hm.2, (Option.some.inj hv).symm⟩
  · exact Or.inr hv

theorem inv_stand (h : Inv P s) {n : ν} {t : τ} (ht : s.term n < t) :
    Inv P (s.stand n t) := by
  have hadv := inv_advance h ht
  have hext := extends_stand h ht
  have hback : ∀ {u k}, Reserved P (s.stand n t) u k → Reserved P s u k :=
    fun hr => hr.anti (fun _ hc => hc) (fun _ he => he) hext.term (fun _ hk => Or.inl hk)
  -- nobody voted for `n` in term `t` before, since `n` had not stood there
  have hfresh : ∀ m, s.vote t m ≠ some n := by
    intro m hv
    obtain ⟨C, hC⟩ := h.vote_stood hv
    exact absurd (h.vote_le (h.stood_vote hC)) (not_le.mpr ht)
  exact { h with
    origin_le := hadv.origin_le
    vote_le := by
      intro u m c hv
      rcases vote_stand hv with ⟨rfl, rfl, rfl⟩ | hv
      · simp
      · exact hadv.vote_le hv
    vote_stood := by
      intro u m c hv
      rcases vote_stand hv with ⟨rfl, rfl, rfl⟩ | hv
      · exact ⟨s.log c, by simp⟩
      · obtain ⟨C, hC⟩ := h.vote_stood hv
        exact ⟨C, hext.stood hC⟩
    stood_vote := by
      intro u m C hs
      rcases stood_stand hs with ⟨rfl, rfl, rfl⟩ | hs
      · simp
      · exact hext.vote (h.stood_vote hs)
    stood_gt := by
      intro u m C hs
      rcases stood_stand hs with ⟨rfl, rfl, rfl⟩ | hs
      · exact lt_of_le_of_lt (h.origin_le m) ht
      · exact h.stood_gt hs
    stood_lt := by
      intro u m C hs
      rcases stood_stand hs with ⟨rfl, rfl, rfl⟩ | hs
      · exact fun e he => lt_of_le_of_lt (h.log_le m e he) ht
      · exact h.stood_lt hs
    stood_wf := by
      intro u m C hs
      rcases stood_stand hs with ⟨rfl, rfl, rfl⟩ | hs
      · exact (h.log_wf m).mono hext rfl
      · exact (h.stood_wf hs).mono hext rfl
    won := by
      intro u c hl
      obtain ⟨Q, hQ, hv⟩ := h.won hl
      exact ⟨Q, hQ, fun m hm => hext.vote (hv m hm)⟩
    lead_eq := by
      intro u c hl
      obtain ⟨C, es, hC, hlead, hes⟩ := h.lead_eq hl
      exact ⟨C, es, hext.stood hC, hlead, hes⟩
    lead_wf := fun hl => (h.lead_wf hl).mono hext rfl
    log_lead := hadv.log_lead
    log_wf := fun m => (h.log_wf m).mono hext rfl
    log_le := hadv.log_le
    acked_le := hadv.acked_le
    kept := fun hr hk => h.kept (hback hr) hk
    carried := by
      intro u u' k m c C huu hv hC hr hk
      rcases vote_stand hv with ⟨rfl, rfl, rfl⟩ | hold
      · -- the candidate's own vote: it stands with the log that kept the position
        rcases stood_stand hC with ⟨_, _, rfl⟩ | hC'
        · exact h.kept (hback hr) hk
        · exact absurd (h.stood_vote hC') (hfresh c)
      · rcases stood_stand hC with ⟨rfl, rfl, _⟩ | hC'
        · exact absurd hold (hfresh m)
        · exact h.carried huu hold hC' (hback hr) hk
    commit_ok := fun m => (h.commit_ok m).imp_right
      (fun hk => hk.mono hext <| List.take_prefix _ _) }

/-- Voting only adds to the history. -/
theorem extends_grant {n c : ν}
    (hfree : s.vote (s.term n) n = none ∨ s.vote (s.term n) n = some c) :
    Extends s (s.grant n c) where
  term := fun _ => le_refl _
  vote := by
    intro u m d hv
    by_cases hm : u = s.term n ∧ m = n
    · obtain ⟨rfl, rfl⟩ := hm
      rcases hfree with h0 | h0
      · rw [h0] at hv; exact absurd hv (by simp)
      · rw [h0] at hv; simpa using hv
    · rw [State.grant_vote, if_neg hm]; exact hv
  stood := id
  led := id
  lead := fun _ => List.prefix_rfl
  acked := fun _ _ => le_refl _

theorem inv_grant (h : Inv P s) {n c : ν} {C : List ε}
    (hfree : s.vote (s.term n) n = none ∨ s.vote (s.term n) n = some c)
    (hC : s.stood (s.term n) c = some C) (hup : P.UpToDate C (s.log n)) :
    Inv P (s.grant n c) := by
  have hext := extends_grant hfree
  have hback : ∀ {u k}, Reserved P (s.grant n c) u k → Reserved P s u k :=
    fun hr => hr.anti (fun _ hc => hc) (fun _ he => he) hext.term (fun _ hk => Or.inl hk)
  -- the votes on record: the new one, or an old one
  have hvote : ∀ {u m d}, (s.grant n c).vote u m = some d →
      (u = s.term n ∧ m = n ∧ d = c) ∨ s.vote u m = some d := by
    intro u m d hv
    rw [State.grant_vote] at hv
    split at hv
    · rename_i hm; exact Or.inl ⟨hm.1, hm.2, (Option.some.inj hv).symm⟩
    · exact Or.inr hv
  exact { h with
    vote_le := by
      intro u m d hv
      rcases hvote hv with ⟨rfl, rfl, _⟩ | hv
      · exact le_refl _
      · exact h.vote_le hv
    vote_stood := by
      intro u m d hv
      rcases hvote hv with ⟨rfl, _, rfl⟩ | hv
      · exact ⟨C, hC⟩
      · exact h.vote_stood hv
    stood_vote := fun hs => hext.vote (h.stood_vote hs)
    stood_wf := fun hs => (h.stood_wf hs).mono hext rfl
    won := by
      intro u d hl
      obtain ⟨Q, hQ, hv⟩ := h.won hl
      exact ⟨Q, hQ, fun m hm => hext.vote (hv m hm)⟩
    lead_wf := fun hl => (h.lead_wf hl).mono hext rfl
    log_wf := fun m => (h.log_wf m).mono hext rfl
    kept := fun hr hk => h.kept (hback hr) hk
    carried := by
      intro u u' k m d D huu hv hD hr hk
      rcases hvote hv with ⟨rfl, rfl, rfl⟩ | hold
      · -- the new vote: the voter kept the position, the check carries it over
        have hDC : D = C := Option.some.inj (hD.symm.trans hC)
        subst hDC
        exact h.upToDate_carries (hback hr) (h.log_wf m) (h.stood_wf hC) hup
          (h.kept (hback hr) hk)
      · exact h.carried huu hold hD (hback hr) hk
    commit_ok := fun m => (h.commit_ok m).imp_right
      (fun hk => hk.mono hext <| List.take_prefix _ _) }

/-! ### Replication -/

/-- Appending to the leader's log only adds to the history. -/
theorem extends_propose (h : Inv P s) {n : ν} {e : ε} (hled : s.led (s.term n) n) :
    Extends s (s.propose n e) where
  term := fun _ => le_refl _
  vote := id
  stood := id
  led := id
  lead := by
    intro u m _
    by_cases hu : u = s.term n
    · subst hu
      rw [State.propose_lead, if_pos rfl, h.log_lead hled]
      exact List.prefix_append _ _
    · rw [State.propose_lead, if_neg hu]
  acked := by
    intro u m
    by_cases hu : u = s.term n ∧ m = n
    · obtain ⟨rfl, rfl⟩ := hu
      rw [State.propose_acked, if_pos ⟨rfl, rfl⟩, h.log_lead hled]
      have := h.acked_length_le (s.term m) m
      omega
    · rw [State.propose_acked, if_neg hu]

/-- A position of the log of term `u` that was there before the leader `n` appended. -/
theorem reserved_propose (h : Inv P s) {n : ν} {e : ε} (hled : s.led (s.term n) n) {u : τ}
    {k : ℕ} (hr : Reserved P (s.propose n e) u k) (hk : k < (s.lead u).length) :
    Reserved P s u k ∧ ((s.propose n e).lead u).take (k + 1) = (s.lead u).take (k + 1) := by
  have hext := extends_propose (e := e) h hled
  obtain ⟨c, hc⟩ := hr.1
  have hpre : s.lead u <+: (s.propose n e).lead u := hext.lead (n := c) hc
  refine ⟨hr.anti (fun _ hc => hc) ?_ hext.term ?_, ?_⟩
  · intro d hd
    rw [← hd, List.getElem?_eq_getElem hk, hpre.getElem hk, List.getElem?_eq_getElem]
  · intro m hm
    by_cases hu : u = s.term n ∧ m = n
    · exact Or.inr (by rw [hu.1, hu.2])
    · rw [State.propose_acked, if_neg hu] at hm; exact Or.inl hm
  · rw [List.prefix_iff_eq_take] at hpre
    rw [hpre, List.take_take, min_eq_left (by omega)]

theorem inv_propose (h : Inv P s) {n : ν} {e : ε} (hled : s.led (s.term n) n)
    (he : P.termOf e = s.term n) : Inv P (s.propose n e) := by
  have hext := extends_propose (e := e) h hled
  have hown := h.log_lead hled
  have ho : (s.propose n e).lead P.origin = s.lead P.origin := by
    rw [State.propose_lead, if_neg (ne_of_lt (h.led_gt hled))]
  have hlead : ∀ {u}, u ≠ s.term n → (s.propose n e).lead u = s.lead u :=
    fun hu => by rw [State.propose_lead, if_neg hu]
  have hleadn : (s.propose n e).lead (s.term n) = s.log n ++ [e] := by
    rw [State.propose_lead, if_pos rfl]
  have hlogn : (s.propose n e).log n = s.log n ++ [e] := by rw [State.propose_log, if_pos rfl]
  have hlog : ∀ {m}, m ≠ n → (s.propose n e).log m = s.log m :=
    fun hm => by rw [State.propose_log, if_neg hm]
  have hgrow : ∀ m, s.log m <+: (s.propose n e).log m := by
    intro m
    by_cases hm : m = n
    · subst hm; rw [hlogn]; exact List.prefix_append _ _
    · rw [hlog hm]
  have hwf : WfLog P (s.propose n e) (s.log n ++ [e]) :=
    ((h.log_wf n).mono hext ho).snoc (c := n) (he ▸ hled) (he ▸ hleadn)
  -- what others have stored was stored before the move, hence below the entry just written
  have hback : ∀ {u k m}, ¬ (u = s.term n ∧ m = n) → Reserved P (s.propose n e) u k →
      k < (s.propose n e).acked u m → Reserved P s u k ∧ k < s.acked u m ∧
        ((s.propose n e).lead u).take (k + 1) = (s.lead u).take (k + 1) := by
    intro u k m hu hr hk
    rw [State.propose_acked, if_neg hu] at hk
    have hlt : k < (s.lead u).length := lt_of_lt_of_le hk (h.acked_length_le u m)
    obtain ⟨hr', heq⟩ := reserved_propose h hled hr hlt
    exact ⟨hr', hk, heq⟩
  exact { h with
    lead_origin := ho.trans h.lead_origin
    stood_wf := fun hs => (h.stood_wf hs).mono hext ho
    lead_eq := by
      intro u c hl
      obtain ⟨C, es, hC, hleadu, hes⟩ := h.lead_eq hl
      by_cases hu : u = s.term n
      · -- the leader's own term: what it wrote so far, and the new entry
        subst hu
        refine ⟨C, es ++ [e], hC, ?_, ?_⟩
        · rw [hleadn, hown, hleadu, List.append_assoc]
        · intro d hd
          rw [List.mem_append, List.mem_singleton] at hd
          rcases hd with hd | rfl
          · exact hes d hd
          · exact he
      · rw [hlead hu]; exact ⟨C, es, hC, hleadu, hes⟩
    lead_wf := by
      intro u c hl
      by_cases hu : u = s.term n
      · subst hu; rw [hleadn]; exact hwf
      · rw [hlead hu]; exact (h.lead_wf hl).mono hext ho
    log_lead := by
      intro m hl
      by_cases hm : m = n
      · subst hm; exact hlogn.trans hleadn.symm
      · -- another leader leads another term, whose log did not change
        have hu : s.term m ≠ s.term n := by
          intro heq
          have hl' : s.led (s.term n) m := heq ▸ hl
          exact hm (h.led_unique hl' hled)
        exact (hlog hm).trans ((h.log_lead hl).trans (hlead hu).symm)
    log_wf := by
      intro m
      by_cases hm : m = n
      · subst hm; rw [hlogn]; exact hwf
      · rw [hlog hm]; exact (h.log_wf m).mono hext ho
    log_le := by
      intro m d hd
      by_cases hm : m = n
      · subst hm
        rw [hlogn, List.mem_append, List.mem_singleton] at hd
        rcases hd with hd | rfl
        · exact h.log_le m d hd
        · exact le_of_eq he
      · rw [hlog hm] at hd; exact h.log_le m d hd
    acked_le := by
      intro u m ha
      by_cases hu : u = s.term n ∧ m = n
      · obtain ⟨rfl, rfl⟩ := hu
        refine ⟨le_refl _, ⟨m, hled⟩, ?_⟩
        rw [hleadn, State.propose_acked, if_pos ⟨rfl, rfl⟩, List.length_append]; simp
      · rw [State.propose_acked, if_neg hu] at ha ⊢
        obtain ⟨h1, ⟨c, hc⟩, h3⟩ := h.acked_le ha
        exact ⟨h1, ⟨c, hc⟩, le_trans h3 (hext.lead hc).length_le⟩
    acked_own := by
      intro u m k d hl hd hdt
      by_cases hu : u = s.term n ∧ m = n
      · obtain ⟨rfl, rfl⟩ := hu
        have hk := (List.getElem?_eq_some_iff.mp hd).1
        rw [hleadn, List.length_append] at hk
        rw [State.propose_acked, if_pos ⟨rfl, rfl⟩]
        simpa using hk
      · -- the leader of another term
        have hne : u ≠ s.term n := by
          rintro rfl; exact hu ⟨rfl, h.led_unique hl hled⟩
        rw [State.propose_acked, if_neg hu]
        rw [hlead hne] at hd
        exact h.acked_own hl hd hdt
    kept := by
      intro u k m hr hk
      by_cases hu : u = s.term n ∧ m = n
      · obtain ⟨rfl, rfl⟩ := hu
        rw [hleadn, hlogn]; exact List.take_prefix _ _
      · obtain ⟨hr', hk', heq⟩ := hback hu hr hk
        rw [heq]
        exact (h.kept hr' hk').trans (hgrow m)
    carried := by
      intro u u' k m c C huu hv hC hr hk
      by_cases hu : u = s.term n ∧ m = n
      · -- the leader has not voted in a later term
        obtain ⟨rfl, rfl⟩ := hu
        exact absurd (h.vote_le hv) (not_le.mpr huu)
      · obtain ⟨hr', hk', heq⟩ := hback hu hr hk
        rw [heq]
        exact h.carried huu hv hC hr' hk'
    commit_le := fun m => le_trans (h.commit_le m) (hgrow m).length_le
    commit_ok := by
      intro m
      have htake := List.take_prefix (s.commit m) (s.log m)
      exact (h.commit_ok m).imp_right (fun hk => hk.mono hext (htake.trans (hgrow m))) }

/-! ### Committing -/

/-- Learning does not touch the history. -/
theorem extends_learn (s : State ν τ ε) (n : ν) (k : ℕ) : Extends s (s.learn n k) :=
  ⟨fun _ => le_refl _, id, id, id, fun _ => List.prefix_rfl, fun _ _ => le_refl _⟩

theorem inv_learn (h : Inv P s) {n : ν} {k : ℕ} (hk : s.commit n ≤ k) (hlen : k ≤ (s.log n).length)
    (hch : Learnable P s n k) : Inv P (s.learn n k) := by
  have hext := extends_learn s n k
  exact { h with
    stood_wf := fun hs => (h.stood_wf hs).mono hext rfl
    lead_wf := fun hl => (h.lead_wf hl).mono hext rfl
    log_wf := fun m => (h.log_wf m).mono hext rfl
    kept := fun hr hk => h.kept hr hk
    carried := fun htt hv hC hr hk => h.carried htt hv hC hr hk
    base_le := by
      intro m
      by_cases hm : m = n
      · subst hm; simpa using le_trans (h.base_le m) hk
      · simpa [hm] using h.base_le m
    commit_le := by
      intro m
      by_cases hm : m = n
      · subst hm; simpa using hlen
      · simpa [hm] using h.commit_le m
    commit_ok := by
      intro m
      by_cases hm : m = n
      · subst hm
        rw [State.learn_commit, if_pos rfl]
        exact Or.inr <| hch.mono hext <| List.take_prefix _ _
      · rw [State.learn_commit, if_neg hm]
        exact (h.commit_ok m).imp_right (fun hk => hk.mono hext <| List.take_prefix _ _) }

/-! ### Taking over from a leader -/

variable [DecidableEq ε]

/-- Taking over from the leader only adds to the history. -/
theorem extends_accept (s : State ν τ ε) (n : ν) (m : ℕ) : Extends s (s.accept n m) where
  term := fun _ => le_refl _
  vote := id
  stood := id
  led := id
  lead := fun _ => List.prefix_rfl
  acked := by
    intro u i
    rw [State.accept_acked]
    split
    · exact le_max_left _ _
    · exact le_refl _

theorem inv_accept (h : Inv P s) {n c : ν} {m : ℕ} (hled : s.led (s.term n) c) (hne : n ≠ c)
    (hm : m ≤ (s.lead (s.term n)).length) : Inv P (s.accept n m) := by
  have hext := extends_accept s n m
  have hlogn : (s.accept n m).log n = adopt (s.lead (s.term n)) (s.log n) m := by
    rw [State.accept_log, if_pos rfl]
  have hlog : ∀ {i}, i ≠ n → (s.accept n m).log i = s.log i :=
    fun hi => by rw [State.accept_log, if_neg hi]
  have hnot : ¬ s.led (s.term n) n := fun hn => hne (h.led_unique hn hled)
  have hback : ∀ {u k}, Reserved P (s.accept n m) u k → Reserved P s u k := by
    intro u k hr
    refine hr.anti (fun _ hc => hc) (fun _ he => he) hext.term (fun i hi => ?_)
    by_cases hu : u = s.term n ∧ i = n
    · exact Or.inr (by rw [hu.1, hu.2])
    · rw [State.accept_acked, if_neg hu] at hi; exact Or.inl hi
  -- a beginning shared by the node and the leader of its term survives
  have hkeep : ∀ {X i}, X <+: s.log i → (i = n → X <+: s.lead (s.term n)) →
      X <+: (s.accept n m).log i := by
    intro X i hX hlead
    by_cases hi : i = n
    · subst hi; rw [hlogn]; exact adopt_keeps hX (hlead rfl)
    · rw [hlog hi]; exact hX
  -- in particular what is committed, which the leader of the term holds
  have hcommit : ∀ i, (s.log i).take (s.commit i) <+: (s.accept n m).log i := by
    intro i
    have htake := List.take_prefix (s.commit i) (s.log i)
    refine hkeep htake ?_
    rintro rfl
    exact h.commit_lead hled
  exact { h with
    stood_wf := fun hs => (h.stood_wf hs).mono hext rfl
    lead_wf := fun hl => (h.lead_wf hl).mono hext rfl
    log_lead := by
      intro i hl
      have hi : i ≠ n := by rintro rfl; exact hnot hl
      exact (hlog hi).trans (h.log_lead hl)
    log_wf := by
      intro i
      by_cases hi : i = n
      · subst hi; rw [hlogn]
        exact ((h.lead_wf hled).adopt (h.log_wf i) m).mono hext rfl
      · rw [hlog hi]; exact (h.log_wf i).mono hext rfl
    log_le := by
      intro i e he
      by_cases hi : i = n
      · subst hi
        rw [hlogn] at he
        rcases mem_of_mem_adopt he with he | he
        · exact h.log_le i e he
        · exact h.lead_le (Or.inr ⟨c, hled⟩) e he
      · rw [hlog hi] at he; exact h.log_le i e he
    acked_le := by
      intro u i ha
      by_cases hu : u = s.term n ∧ i = n
      · obtain ⟨rfl, rfl⟩ := hu
        refine ⟨le_refl _, ⟨c, hled⟩, ?_⟩
        rw [State.accept_acked, if_pos ⟨rfl, rfl⟩]
        exact max_le (h.acked_length_le (s.term i) i) hm
      · rw [State.accept_acked, if_neg hu] at ha ⊢
        exact h.acked_le ha
    acked_own := fun hl he het => lt_of_lt_of_le (h.acked_own hl he het) (hext.acked _ _)
    kept := by
      intro u k i hr hk
      have hr' := hback hr
      by_cases hold : k < s.acked u i
      · -- stored before, and reserved, so the leader holds it
        refine hkeep (h.kept hr' hold) ?_
        rintro rfl
        exact h.reserved_lead (h.acked_le (Nat.zero_lt_of_lt hold)).1 hled hr'
      · -- stored in this very move
        have hu : u = s.term n ∧ i = n := by
          by_contra hu
          rw [State.accept_acked, if_neg hu] at hk
          exact hold hk
        rw [State.accept_acked, if_pos hu] at hk
        obtain ⟨rfl, rfl⟩ := hu
        rw [hlogn]
        exact stretch_mono (adopt_stores _ _ m) (by omega)
    carried := by
      intro u u' k i d D huu hv hD hr hk
      -- a node that stores in its current term has not voted in a later one
      have hu : ¬(u = s.term n ∧ i = n) := by
        rintro ⟨rfl, rfl⟩
        exact absurd (h.vote_le hv) (not_le.mpr huu)
      rw [State.accept_acked, if_neg hu] at hk
      exact h.carried huu hv hD (hback hr) hk
    commit_le := by
      intro i
      have := (hcommit i).length_le
      rw [List.length_take, min_eq_left (h.commit_le i)] at this
      exact this
    commit_ok := fun i => (h.commit_ok i).imp_right (fun hk => hk.mono hext (hcommit i)) }

/-! ### Whole runs -/

/-- Every move only adds to the history. -/
theorem Step.extends (h : Inv P s) (hstep : Step P s s') : Extends s s' := by
  cases hstep with
  | advance n t ht => exact extends_advance ht
  | stand n t ht => exact extends_stand h ht
  | grant n c C hfree hC hup => exact extends_grant hfree
  | elect c Q hQ hvotes hstood hnew =>
    exact extends_elect (h.no_other_winner hQ hvotes hnew)
  | propose n e hled he => exact extends_propose h hled
  | accept n c m hled hne hm => exact extends_accept s n m
  | learn n k hk hlen hch => exact extends_learn s n k

/-- Every move keeps the invariant. -/
theorem Step.inv (h : Inv P s) (hstep : Step P s s') : Inv P s' := by
  cases hstep with
  | advance n t ht => exact inv_advance h ht
  | stand n t ht => exact inv_stand h ht
  | grant n c C hfree hC hup => exact inv_grant h hfree hC hup
  | elect c Q hQ hvotes hstood hnew => exact inv_elect h hQ hvotes hstood hnew
  | propose n e hled he => exact inv_propose h hled he
  | accept n c m hled hne hm => exact inv_accept h hled hne hm
  | learn n k hk hlen hch => exact inv_learn h hk hlen hch

/-- A run keeps the invariant and only adds to the history. -/
theorem Steps.inv_extends (h : Inv P s) (hrun : Steps P s s') : Inv P s' ∧ Extends s s' := by
  induction hrun with
  | refl => exact ⟨h, Extends.refl s⟩
  | tail _ hstep ih => exact ⟨hstep.inv ih.1, ih.2.trans (hstep.extends ih.1)⟩

end Moves

end Replog
