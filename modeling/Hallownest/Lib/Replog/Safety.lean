import Hallownest.Lib.Replog.Preservation

namespace Replog

/-!
# Replicated logs — what holds along runs

The invariant speaks about one state.  This file draws the consequences for runs: chosen
stretches of different terms agree, committed beginnings agree between nodes
(`Inv.commit_agree`), no move takes a committed entry away (`Step.commit_kept`), and a node
that reached a later term with a chosen stretch in its log keeps that stretch
(`Steps.keeps_chosen`), and so does a node with an entry that all leaders of later terms hold
(`Steps.keeps_held`), and a node that stays in the term of the leader it has taken a stretch
from (`Steps.keeps_own`).
-/

variable {ν τ ε : Type} [LinearOrder τ] {P : Protocol ν τ ε} {s s' : State ν τ ε}

/-! ### Agreement in one state -/

/-- Of two chosen stretches the one of the earlier term begins the log of the later one. -/
theorem Inv.chosen_lead (h : Inv P s) {t t' : τ} {k k' : ℕ} (htt : t ≤ t')
    (hch : Chosen P s t k) (hch' : Chosen P s t' k') :
    (s.lead t).take (k + 1) <+: s.lead t' := by
  obtain ⟨⟨c, hc⟩, _⟩ := hch'
  exact h.reserved_lead htt hc hch.reserved

/-- Two chosen stretches agree wherever both reach. -/
theorem Inv.chosen_agree (h : Inv P s) {t t' : τ} {k k' i : ℕ} (hch : Chosen P s t k)
    (hch' : Chosen P s t' k') (hi : i ≤ k) (hi' : i ≤ k') :
    (s.lead t)[i]? = (s.lead t')[i]? := by
  have key : ∀ {u u' : τ} {j j' : ℕ}, u ≤ u' → Chosen P s u j → Chosen P s u' j' → i ≤ j →
      (s.lead u)[i]? = (s.lead u')[i]? := by
    intro u u' j j' huu hj hj' hij
    obtain ⟨e, he, _⟩ := hj.2.1
    have hlt : i < (s.lead u).length := by
      have := (List.getElem?_eq_some_iff.mp he).1; omega
    rw [List.getElem?_eq_getElem hlt]
    exact (getElem?_of_stretch (h.chosen_lead huu hj hj') (Nat.lt_succ_of_le hij)
      (List.getElem?_eq_getElem hlt)).symm
  rcases le_total t t' with htt | htt
  · exact key htt hch hch' hi
  · exact (key htt hch' hch hi').symm

/-- An entry that the leader of a term and all leaders of later terms hold at a position is the
    entry there of every chosen stretch that reaches it. -/
theorem Inv.chosen_read (h : Inv P s) {t t' : τ} {c : ν} {i k : ℕ} {e : ε} (hled : s.led t c)
    (he : (s.lead t)[i]? = some e)
    (hlater : ∀ {u d}, t < u → s.led u d → (s.lead u)[i]? = some e)
    (hch : Chosen P s t' k) (hi : i ≤ k) : (s.lead t')[i]? = some e := by
  rcases lt_trichotomy t' t with hlt | rfl | hgt
  · -- the stretch begins the log in which the entry is
    obtain ⟨e', he', _⟩ := hch.2.1
    have hlen : i < (s.lead t').length := by
      have := (List.getElem?_eq_some_iff.mp he').1; omega
    have hread := getElem?_of_stretch (h.reserved_lead (le_of_lt hlt) hled hch.reserved)
      (Nat.lt_succ_of_le hi) (List.getElem?_eq_getElem hlen)
    rw [List.getElem?_eq_getElem hlen, ← hread, he]
  · exact he
  · obtain ⟨⟨d, hd⟩, _⟩ := hch
    exact hlater hgt hd

/-- A committed position is a position of the base or below a chosen one. -/
theorem Inv.commit_read (h : Inv P s) {n : ν} {i : ℕ} (hi : i < s.commit n) :
    (s.log n)[i]? = P.base[i]? ∧ i < P.base.length ∨
      ∃ t k, Chosen P s t k ∧ i ≤ k ∧ (s.log n)[i]? = (s.lead t)[i]? := by
  rcases Nat.lt_or_ge i P.base.length with hb | hb
  · left
    refine ⟨?_, hb⟩
    rw [List.getElem?_eq_getElem hb, (h.log_wf n).base.getElem hb, List.getElem?_eq_getElem]
  · right
    rcases h.commit_ok n with hle | ⟨t, k, hch, _, hk, hpre⟩
    · omega
    · obtain ⟨e, he, _⟩ := hch.2.1
      have hlt : i < (s.lead t).length := by
        have := (List.getElem?_eq_some_iff.mp he).1; omega
      refine ⟨t, k, hch, by omega, ?_⟩
      rw [List.getElem?_eq_getElem hlt]
      exact getElem?_of_stretch hpre hi (List.getElem?_eq_getElem hlt)

/-- **State machine safety.**  Two nodes agree on every position both have committed. -/
theorem Inv.commit_agree (h : Inv P s) {n m : ν} {i : ℕ} (hn : i < s.commit n)
    (hm : i < s.commit m) : (s.log n)[i]? = (s.log m)[i]? := by
  rcases h.commit_read hn with ⟨hn1, hb⟩ | ⟨t, k, hch, hik, hn1⟩
  · rcases h.commit_read hm with ⟨hm1, _⟩ | ⟨t, k, hch, _, hm1⟩
    · rw [hn1, hm1]
    · obtain ⟨⟨c, hc⟩, _⟩ := hch
      rw [hn1, hm1, List.getElem?_eq_getElem hb, (h.lead_wf hc).base.getElem hb,
        List.getElem?_eq_getElem]
  · rcases h.commit_read hm with ⟨hm1, hb⟩ | ⟨t', k', hch', hik', hm1⟩
    · obtain ⟨⟨c, hc⟩, _⟩ := hch
      rw [hn1, hm1, List.getElem?_eq_getElem hb, (h.lead_wf hc).base.getElem hb,
        List.getElem?_eq_getElem]
    · rw [hn1, hm1]
      exact h.chosen_agree hch hch' hik hik'

/-- **Committed beginnings are held by a quorum**, if there is one. -/
theorem Inv.commit_quorum (h : Inv P s) {Q₀ : Finset ν} (hQ₀ : P.Quorum Q₀) (n : ν) :
    ∃ Q, P.Quorum Q ∧ ∀ m ∈ Q, (s.log n).take (s.commit n) <+: s.log m := by
  rcases h.commit_ok n with hb | ⟨t, j, hch, _, hk, hpre⟩
  · -- nothing beyond the base, which everybody holds
    refine ⟨Q₀, hQ₀, fun m _ => List.IsPrefix.trans ?_ (h.log_wf m).base⟩
    have htake := List.take_prefix (s.commit n) (s.log n)
    refine List.prefix_of_prefix_length_le htake (h.log_wf n).base ?_
    rw [List.length_take]; omega
  · -- the quorum that stored the chosen stretch
    have hres := hch.reserved
    obtain ⟨_, ⟨e, he, _⟩, Q, hQ, hack⟩ := hch
    refine ⟨Q, hQ, fun m hm => ?_⟩
    have hlen : s.commit n ≤ (s.lead t).length := by
      have := (List.getElem?_eq_some_iff.mp he).1; omega
    have heq : (s.log n).take (s.commit n) = (s.lead t).take (s.commit n) := by
      rw [List.prefix_iff_eq_take] at hpre
      rw [hpre, List.length_take, min_eq_left hlen]
    rw [heq]
    exact stretch_mono (h.kept hres (hack m hm)) hk

/-! ### What a move does to a log -/

section Moves

variable [DecidableEq ν] [DecidableEq ε]

/-- A move leaves a node's log alone, extends it, or takes over from the leader of the
    node's term. -/
theorem Step.log_cases (hstep : Step P s s') (n : ν) :
    s.log n <+: s'.log n ∨
      ∃ c m, s.led (s.term n) c ∧ s'.log n = adopt (s.lead (s.term n)) (s.log n) m := by
  cases hstep with
  | propose i e hled he =>
    left
    by_cases hn : n = i
    · subst hn; rw [State.propose_log, if_pos rfl]; exact List.prefix_append _ _
    · rw [State.propose_log, if_neg hn]
  | accept i c m hled hne hm =>
    by_cases hn : n = i
    · subst hn; right; exact ⟨c, m, hled, by rw [State.accept_log, if_pos rfl]⟩
    · left; rw [State.accept_log, if_neg hn]
  | advance i t ht => exact Or.inl List.prefix_rfl
  | stand i t ht => exact Or.inl List.prefix_rfl
  | grant i c C hfree hC hup => exact Or.inl List.prefix_rfl
  | elect c Q hQ hvotes hstood hnew => exact Or.inl List.prefix_rfl
  | learn i k hk hlen hch => exact Or.inl List.prefix_rfl

/-- A beginning of a node's log that is in the log of its term's leader survives a move. -/
theorem Step.keeps (hstep : Step P s s') {n : ν} {X : List ε} (hX : X <+: s.log n)
    (hlead : ∀ c, s.led (s.term n) c → X <+: s.lead (s.term n)) : X <+: s'.log n := by
  rcases hstep.log_cases n with hgrow | ⟨c, m, hled, heq⟩
  · exact hX.trans hgrow
  · rw [heq]; exact adopt_keeps hX (hlead c hled)

/-- **Committed entries stay.**  A move neither lowers a commit position nor changes the log
    below it. -/
theorem Step.commit_kept (h : Inv P s) (hstep : Step P s s') (n : ν) :
    s.commit n ≤ s'.commit n ∧ (s.log n).take (s.commit n) <+: s'.log n := by
  constructor
  · cases hstep with
    | learn i k hk hlen hch =>
      by_cases hn : n = i
      · subst hn; rw [State.learn_commit, if_pos rfl]; exact hk
      · rw [State.learn_commit, if_neg hn]
    | _ => exact le_refl _
  · have htake := List.take_prefix (s.commit n) (s.log n)
    exact hstep.keeps htake fun c hled => h.commit_lead hled

/-- Along a run, too, committed entries stay. -/
theorem Steps.commit_kept (h : Inv P s) (hrun : Steps P s s') (n : ν) :
    s.commit n ≤ s'.commit n ∧ (s.log n).take (s.commit n) <+: s'.log n := by
  induction hrun with
  | refl => exact ⟨le_refl _, List.take_prefix _ _⟩
  | @tail v w hv hstep ih =>
    have hinv := (Steps.inv_extends h hv).1
    obtain ⟨hle, hpre⟩ := hstep.commit_kept hinv n
    refine ⟨le_trans ih.1 hle, List.IsPrefix.trans ?_ hpre⟩
    -- what was committed before is part of what is committed now
    rw [List.prefix_take_iff]
    refine ⟨ih.2, ?_⟩
    rw [List.length_take]
    have := ih.1
    omega

/-- **Stored stretches stay as long as the term lasts.**  What a node has of the log of its
    term's leader it keeps until it enters another term. -/
theorem Steps.keeps_own (h : Inv P s) (hrun : Steps P s s') {n c : ν} {X : List ε}
    (hled : s.led (s.term n) c) (hX : X <+: s.log n) (hlead : X <+: s.lead (s.term n))
    (hterm : s'.term n = s.term n) : X <+: s'.log n := by
  induction hrun with
  | refl => exact hX
  | @tail v w hv hstep ih =>
    obtain ⟨hinv, hext⟩ := Steps.inv_extends h hv
    have hlast := (Steps.inv_extends hinv (Relation.ReflTransGen.single hstep)).2
    -- the terms of the run lie between those of its ends
    have hsame : v.term n = s.term n := le_antisymm (hterm ▸ hlast.term n) (hext.term n)
    refine hstep.keeps (ih hsame) fun d _ => ?_
    rw [hsame]
    exact hlead.trans (hext.lead hled)

/-! ### Chosen stretches along a run -/

/-- A chosen stretch begins, already in every earlier state of the run, the log of each
    later term won by then. -/
theorem Steps.chosen_in_lead (h : Inv P s) (hrun : Steps P s s') {t t' : τ} {k : ℕ} {c : ν}
    (hch : Chosen P s' t k) (htt : t < t') (hled : s.led t' c) :
    (s'.lead t).take (k + 1) <+: s.lead t' := by
  obtain ⟨h', hext⟩ := Steps.inv_extends h hrun
  obtain ⟨C, es, hC, hlead, _⟩ := h.lead_eq hled
  rw [hlead]
  exact (h'.reserved_stood htt (hext.led hled) (hext.stood hC) hch.reserved).trans
    (List.prefix_append C es)

/-- **Leader completeness along a run.**  Let a stretch of term `t` be chosen by the end of a
    run.  A node that holds it at some moment and is in a later term by then holds it at
    every later moment of the run. -/
theorem Steps.keeps_chosen (h : Inv P s) {u f : State ν τ ε} (hu : Steps P s u)
    (hf : Steps P u f) {t : τ} {k : ℕ} (hch : Chosen P f t k) {n : ν} (ht : t < s.term n)
    (hX : (f.lead t).take (k + 1) <+: s.log n) : (f.lead t).take (k + 1) <+: u.log n := by
  induction hu with
  | refl => exact hX
  | @tail v w hv hstep ih =>
    have hvf : Steps P v f := Relation.ReflTransGen.head hstep hf
    obtain ⟨hinv, hext⟩ := Steps.inv_extends h hv
    refine hstep.keeps (ih hvf) (fun c hled => ?_)
    exact Steps.chosen_in_lead hinv hvf hch (lt_of_lt_of_le ht (hext.term n)) hled

/-! ### Entries that later leaders hold -/

/-- An entry of an earlier term that is in the log of a term by the end of a run was there from
    the beginning: the leader stood with it. -/
theorem Steps.held_in_lead (h : Inv P s) (hrun : Steps P s s') {t : τ} {c : ν} {i : ℕ} {e : ε}
    (hled : s.led t c) (hlt : P.termOf e < t) (he : (s'.lead t)[i]? = some e) :
    (s.lead t)[i]? = some e := by
  obtain ⟨h', hext⟩ := Steps.inv_extends h hrun
  obtain ⟨C, es, hC, hlead, _⟩ := h.lead_eq hled
  obtain ⟨C', es', hC', hlead', hes'⟩ := h'.lead_eq (hext.led hled)
  obtain rfl : C = C' := Option.some.inj ((hext.stood hC).symm.trans hC')
  have hi : i < C.length := by
    -- behind what the leader stood with there are only entries of its own term
    by_contra hge
    rw [hlead', List.getElem?_append_right (by omega)] at he
    exact absurd (hes' e (List.mem_of_getElem? he)) (ne_of_lt hlt)
  rw [hlead', List.getElem?_append_left hi] at he
  rw [hlead, List.getElem?_append_left hi]
  exact he

/-- **Held entries stay.**  A node that holds an entry at some moment holds it at every later
    moment of a run by whose end all leaders of later terms hold it. -/
theorem Steps.keeps_held (h : Inv P s) {u f : State ν τ ε} (hu : Steps P s u) (hf : Steps P u f)
    {n : ν} {i : ℕ} {e : ε} (he : (s.log n)[i]? = some e)
    (hlater : ∀ {t c}, P.termOf e < t → f.led t c → (f.lead t)[i]? = some e) :
    (s.log n).take (i + 1) <+: u.log n := by
  induction hu with
  | refl => exact List.take_prefix _ _
  | @tail v w hv hstep ih =>
    have hvf : Steps P v f := Relation.ReflTransGen.head hstep hf
    obtain ⟨hinv, hext⟩ := Steps.inv_extends h hv
    have hpre := ih hvf
    refine hstep.keeps hpre (fun c hled => ?_)
    rcases eq_or_lt_of_le (le_trans (h.log_le n e (List.mem_of_getElem? he)) (hext.term n)) with
      hterm | hlt
    · -- the node is still in the term of the entry
      rw [← hterm] at hled ⊢
      rcases (h.log_wf n).won he with horigin | ⟨d, hd⟩
      · rw [horigin] at hled
        exact absurd (hinv.led_gt hled) (lt_irrefl _)
      · exact ((h.log_wf n).stretch he).trans (hext.lead hd)
    · -- the leader of its term holds the entry, so their logs match up to it
      have hv' := getElem?_of_stretch hpre (Nat.lt_succ_self i) he
      have hread := Steps.held_in_lead hinv hvf hled hlt
        (hlater hlt ((Steps.inv_extends hinv hvf).2.led hled))
      have hmatch := Inv.matching (hinv.log_wf n) (hinv.lead_wf hled) hv' hread rfl
      have heq : (s.log n).take (i + 1) = (v.log n).take (i + 1) := by
        have hlen := (List.getElem?_eq_some_iff.mp he).1
        have := List.prefix_iff_eq_take.mp hpre
        rwa [List.length_take, min_eq_left (by omega)] at this
      rw [heq, hmatch]
      exact List.take_prefix _ _

end Moves

end Replog
