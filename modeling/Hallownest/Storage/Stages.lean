import Hallownest.Storage.Determinism
import Hallownest.Storage.Rounds

namespace Hallownest.Storage

/-!
# Storage — a compaction in stages

Tables can be compacted all at once, or the older ones first and their table together with the
newer ones later.  Seen key by key a table is a function to what it shows (`View`), newer tables
lie over older ones, and a compaction keeps what is live.  The two ways would then be the same,
were it not for the sentinel: a compaction that finds nothing live writes one record, and the
next compaction takes it for a record of a client.

* `kept_overlay_iff` — when keeping in between changes what is kept in the end.
* `compaction_in_stages_iff` — so it is for the bytes of the files.
-/

/-! ### Key by key -/

/-- What tables show of each key. -/
abbrev View := Bytes → Option Bytes

/-- The view of a table that holds nothing but the sentinel. -/
def sentinelView : View := fun key => if key = sentinel.key then some sentinel.value else none

open Classical in
/-- What a compaction keeps. -/
noncomputable def kept (v : View) : View := if ∃ key, v key ≠ none then v else sentinelView

/-- Newer records over a view. -/
def overlay (records : Bytes → Option Entry) (v : View) : View := fun key =>
  match records key with
  | some e => live (some e)
  | none => v key

section Views

variable {records : Bytes → Option Entry} {v : View} {key : Bytes}

theorem kept_of_live (h : v key ≠ none) : kept v = v := if_pos ⟨key, h⟩

theorem kept_of_dead (h : ∀ key, v key = none) : kept v = sentinelView :=
  if_neg fun hlive => hlive.elim fun key hkey => hkey (h key)

theorem overlay_some {e : Entry} (h : records key = some e) :
    overlay records v key = live (some e) := by
  rw [overlay, h]

theorem overlay_none (h : records key = none) : overlay records v key = v key := by rw [overlay, h]

theorem overlay_dead (h : ∀ key, v key = none) : overlay records v key = live (records key) := by
  cases hkey : records key with
  | some e => exact overlay_some hkey
  | none => rw [overlay_none hkey, h key, live]

theorem exists_live_or (v : View) : (∃ key, v key ≠ none) ∨ ∀ key, v key = none := by
  by_cases hlive : ∃ key, v key ≠ none
  · exact .inl hlive
  · exact .inr fun key => by
      by_contra hkey
      exact hlive ⟨key, hkey⟩

/-- The sentinel is covered by newer records of its key. -/
private theorem overlay_covered (hdead : ∀ key, v key = none) {e : Entry}
    (h : records sentinel.key = some e) : overlay records sentinelView = overlay records v := by
  funext key
  cases hkey : records key with
  | some e' => rw [overlay_some hkey, overlay_some hkey]
  | none =>
    have hne : key ≠ sentinel.key := by
      rintro rfl
      rw [hkey] at h
      cases h
    rw [overlay_none hkey, overlay_none hkey, hdead key, sentinelView, if_neg hne]

/-- Under tombstones of other keys there is only the sentinel to see. -/
private theorem overlay_deleted (h : records sentinel.key = none)
    (hdeleted : ∀ key, live (records key) = none) :
    overlay records sentinelView = sentinelView := by
  funext key
  cases hkey : records key with
  | some e =>
    have hne : key ≠ sentinel.key := by
      rintro rfl
      rw [hkey] at h
      cases h
    have he := hdeleted key
    rw [hkey] at he
    rw [overlay_some hkey, he, sentinelView, if_neg hne]
  | none => exact overlay_none hkey

/-- A sentinel that nothing covers is kept. -/
theorem kept_sentinel (hdead : ∀ key, v key = none) (h : records sentinel.key = none) :
    kept (overlay records (kept v)) = overlay records sentinelView ∧
      overlay records sentinelView sentinel.key = some sentinel.value := by
  have hat : overlay records sentinelView sentinel.key = some sentinel.value := by
    rw [overlay_none h, sentinelView, if_pos rfl]
  rw [kept_of_dead hdead]
  exact ⟨kept_of_live (by rw [hat]; simp), hat⟩

/-- Without keeping in between there is no sentinel if something newer is live. -/
theorem kept_without_sentinel (hdead : ∀ key, v key = none) (h : records sentinel.key = none)
    (hlive : live (records key) ≠ none) : kept (overlay records v) sentinel.key = none := by
  have hkept : kept (overlay records v) = overlay records v :=
    kept_of_live (by rw [overlay_dead hdead]; exact hlive)
  rw [hkept, overlay_none h, hdead]

/-- **Keeping in between** makes no difference if something is live there, if the newer records
    cover the sentinel, or if none of them is live. -/
theorem kept_overlay_iff :
    kept (overlay records (kept v)) = kept (overlay records v) ↔
      (∃ key, v key ≠ none) ∨ records sentinel.key ≠ none ∨ ∀ key, live (records key) = none := by
  rcases exists_live_or v with ⟨key, hkey⟩ | hdead
  · rw [kept_of_live hkey]
    exact ⟨fun _ => .inl ⟨key, hkey⟩, fun _ => rfl⟩
  have hlive : ¬∃ key, v key ≠ none := fun ⟨key, hkey⟩ => hkey (hdead key)
  rw [or_iff_right hlive]
  cases hsentinel : records sentinel.key with
  | some e =>
    rw [kept_of_dead hdead, overlay_covered hdead hsentinel]
    simp
  | none =>
    obtain ⟨hkept, hat⟩ := kept_sentinel hdead hsentinel
    rw [hkept]
    constructor
    · intro heq
      refine .inr fun key => ?_
      by_contra hkey
      -- the sentinel would show through the newer records
      rw [heq, kept_without_sentinel hdead hsentinel hkey] at hat
      cases hat
    · rintro (h | hdeleted)
      · exact absurd rfl h
      have hv : ∀ key, overlay records v key = none := fun key => by
        rw [overlay_dead hdead, hdeleted key]
      rw [kept_of_dead hv, overlay_deleted hsentinel hdeleted]

/-- **What the difference is**: the sentinel among newer records that are live. -/
theorem sentinel_of_ne (h : kept (overlay records (kept v)) ≠ kept (overlay records v)) :
    kept (overlay records (kept v)) sentinel.key = some sentinel.value ∧
      kept (overlay records v) sentinel.key = none := by
  obtain ⟨hdead, hsentinel, hdeleted⟩ : (¬∃ key, v key ≠ none) ∧
      ¬records sentinel.key ≠ none ∧ ¬∀ key, live (records key) = none := by
    simpa only [not_or] using mt kept_overlay_iff.mpr h
  have hdead := (exists_live_or v).resolve_left hdead
  have hsentinel := not_not.mp hsentinel
  obtain ⟨key, hkey⟩ := not_forall.mp hdeleted
  obtain ⟨hkept, hat⟩ := kept_sentinel hdead hsentinel
  exact ⟨by rw [hkept, hat], kept_without_sentinel hdead hsentinel hkey⟩

end Views

/-! ### The files -/

variable {create : ℕ → Float → Option LumaflyBloom} {level : ℕ → ℕ} {opts : SSTableOptions}
  {ts : List L0Table} {t : L0Table} {key : Bytes}

/-- What a compaction retains shows what it keeps. -/
theorem live_retain_eq {es : List Entry} (hes : Assoc.Sorted Entry.key es) (key : Bytes) :
    live (Assoc.lookup Entry.key key (retain es)) =
      kept (fun key => live (Assoc.lookup Entry.key key es)) key := by
  refine shown_injective ?_
  rw [← answer_eq_shown fun e he => tombstone_of_mem_retain (Assoc.lookup_eq_some he).1]
  rcases exists_live_or fun key => live (Assoc.lookup Entry.key key es) with ⟨key', hlive⟩ | hdead
  · rw [answer_retain hes ⟨key', hlive⟩, kept_of_live hlive]
  · rw [answer_retain_none hes hdead, kept_of_dead hdead, sentinelView]

/-- What is retained is known by what is kept. -/
theorem retain_eq_iff {es es' : List Entry} (hes : Assoc.Sorted Entry.key es)
    (hes' : Assoc.Sorted Entry.key es') :
    retain es = retain es' ↔
      kept (fun key => live (Assoc.lookup Entry.key key es)) =
        kept fun key => live (Assoc.lookup Entry.key key es') := by
  constructor
  · intro h
    funext key
    rw [← live_retain_eq hes, ← live_retain_eq hes', h]
  · intro h
    refine Assoc.eq_of_lookup (sorted_retain hes) (sorted_retain hes') fun key =>
      lookup_of_answer ?_
    rw [answer_eq_shown fun e he => tombstone_of_mem_retain (Assoc.lookup_eq_some he).1,
      answer_eq_shown fun e he => tombstone_of_mem_retain (Assoc.lookup_eq_some he).1,
      live_retain_eq hes, live_retain_eq hes', h]

/-- The answers of a table that was made by a compaction. -/
theorem L0Table.get_retained {es : List Entry} (t : L0Table) (h : t.records = retain es)
    (hes : Assoc.Sorted Entry.key es) (key : Bytes) :
    t.reader.get key =
      .ok (shown (kept (fun key => live (Assoc.lookup Entry.key key es)) key)) := by
  rw [t.get, h, answer_eq_shown fun e he => tombstone_of_mem_retain (Assoc.lookup_eq_some he).1,
    live_retain_eq hes]

/-- With every record in the index, what is extracted shows what the tables show. -/
theorem live_extracted (hone : ∀ t ∈ ts, interval t.opts = 1) :
    (fun key => live (Assoc.lookup Entry.key key (extracted ts))) =
      fun key => live (newest ts key) := by
  funext key
  rw [lookup_extracted, newestIndexed_of_one hone]

/-- Newer tables over older ones. -/
theorem live_newest_append (older newer : List L0Table) :
    (fun key => live (newest (older ++ newer) key)) =
      overlay (newest newer) fun key => live (newest older key) := by
  funext key
  rw [newest_append]
  cases hkey : newest newer key with
  | some e => rw [overlay_some hkey, Option.some_or]
  | none => rw [overlay_none hkey, Option.none_or]

/-- There is a filter for a table of these records, and its file has at most `2 ^ 48` bytes. -/
def Room (create : ℕ → Float → Option LumaflyBloom) (opts : SSTableOptions) (es : List Entry) :
    Prop :=
  ∃ bf, create ((es.length : Int) % 2 ^ 64).toNat opts.normalize.fpRate = some bf ∧ bf.Zeroed ∧
    (tableBytes es (indexOf (interval opts) es) bf).length ≤ 2 ^ 48

/-- The table that a compaction makes, and the bytes of its file. -/
theorem exists_stage (hne : ts ≠ []) (hlevel : LevelsOk level) (hpos : 1 ≤ opts.sparseInterval)
    (hroom : Room create opts (retain (extracted ts))) (destFile : List Char)
    (hdest : ∀ t ∈ ts, t.filename ≠ destFile) (left : Option Bytes) (fs : FileSystem) :
    ∃ (m : MemTable) (t : L0Table), Models m (retain (extracted ts)) ∧
      buildSSTable create allOk destFile m (retain (extracted ts)).length opts =
        .ok (t.file, t.reader) ∧
      t.records = retain (extracted ts) ∧ t.opts = opts ∧ t.filename = destFile ∧
      let c := compactL0ToL1 create allOk level left fs (ts.map L0Table.reader) destFile opts
      c.result = .ok t.reader ∧ c.fs destFile = some t.file := by
  obtain ⟨bf, hcreate, hbf, hsize⟩ := hroom
  obtain ⟨m, t, hput, hm, hbuild, hrecords, hopts, hname⟩ :=
    exists_retained destFile hlevel hpos hcreate hbf hsize
  refine ⟨m, t, hm, hbuild, hrecords, hopts, hname, ?_⟩
  intro c
  have hc : c = _ := compactL0ToL1_of_build hne hput hbuild
  refine ⟨by rw [hc], ?_⟩
  rw [hc]
  show removeAll _ _ destFile = _
  rw [removeAll_of_ne, FileSystem.set_self]
  intro reader hreader
  obtain ⟨u, hu, rfl⟩ := List.mem_map.mp hreader
  rw [u.opened.2]
  exact hdest u hu

/-- Two tables in one place have the same bytes if and only if they have the same records. -/
theorem file_eq_iff {m m' : MemTable} {t t' : L0Table} {destFile : List Char}
    (hm : Models m t.records) (hm' : Models m' t'.records)
    (hbuild : buildSSTable create allOk destFile m t.records.length opts = .ok (t.file, t.reader))
    (hbuild' : buildSSTable create allOk destFile m' t'.records.length opts =
      .ok (t'.file, t'.reader)) : t.file = t'.file ↔ t.records = t'.records := by
  obtain ⟨hwrite, hopen⟩ := writeTable_of_build hbuild
  obtain ⟨hwrite', hopen'⟩ := writeTable_of_build hbuild'
  constructor
  · intro hfile
    -- the same file opens to the same reader, which answers alike
    rw [← hfile, hopen] at hopen'
    have hreader := Except.ok.inj hopen'
    refine Assoc.eq_of_lookup t.sorted t'.sorted fun key => lookup_of_answer ?_
    have hget := t.get key
    rw [hreader, t'.get key] at hget
    exact (Except.ok.inj hget).symm
  · intro hrecords
    rw [← hrecords] at hm' hwrite'
    rw [writeTable_congr create allOk _ opts hm hm', hwrite'] at hwrite
    exact (Except.ok.inj hwrite).symm

/-- **A compaction in stages.**  Take tables with every record in the index.  Compacted at once,
    or the older ones first and their table with the newer ones later, they give the same file,
    byte for byte, if and only if some key is live in the older tables, or the newer ones have a
    record of the sentinel's key, or no key is live in the newer ones.  Otherwise the sentinel of
    the first compaction is found in the last table, and not in the one made at once. -/
theorem compaction_in_stages_iff (older newer : List L0Table) (hne : older ≠ [])
    (hone : ∀ t ∈ older ++ newer, interval t.opts = 1) (hopts : opts.sparseInterval = 1)
    {level₁ level₂ level : ℕ → ℕ} (hlevel₁ : LevelsOk level₁) (hlevel₂ : LevelsOk level₂)
    (hlevel : LevelsOk level) (left : Option Bytes) (fs : FileSystem)
    (firstFile destFile : List Char) (hfirst : ∀ t ∈ older, t.filename ≠ firstFile)
    (hdest : ∀ t ∈ older ++ newer, t.filename ≠ destFile) (hfresh : firstFile ≠ destFile)
    (hroom₁ : Room create opts (retain (extracted older)))
    (hroom₂ : ∀ t : L0Table, t.records = retain (extracted older) → t.opts = opts →
      Room create opts (retain (extracted (t :: newer))))
    (hroom : Room create opts (retain (extracted (older ++ newer)))) :
    let c₁ := compactL0ToL1 create allOk level₁ left fs (older.map L0Table.reader) firstFile opts
    let c := compactL0ToL1 create allOk level left fs ((older ++ newer).map L0Table.reader)
      destFile opts
    ∃ r₁ r₂ r, c₁.result = .ok r₁ ∧ c.result = .ok r ∧
      let c₂ := compactL0ToL1 create allOk level₂ left c₁.fs (r₁ :: newer.map L0Table.reader)
        destFile opts
      c₂.result = .ok r₂ ∧
      (c₂.fs destFile = c.fs destFile ↔
        (∃ key, live (newest older key) ≠ none) ∨ newest newer sentinel.key ≠ none ∨
          ∀ key, live (newest newer key) = none) ∧
      (c₂.fs destFile ≠ c.fs destFile →
        r₂.get sentinel.key = .ok (sentinel.value, false, true) ∧
          r.get sentinel.key = .ok ([], false, false)) := by
  intro c₁ c
  have hpos : 1 ≤ opts.sparseInterval := by omega
  obtain ⟨hone₁, hone₂⟩ := List.forall_mem_append.mp hone
  obtain ⟨_, t₁, _, _, hrecords₁, hopts₁, hname₁, hresult₁, _⟩ :=
    exists_stage hne hlevel₁ hpos hroom₁ firstFile hfirst left fs
  have hone₁' : ∀ t ∈ t₁ :: newer, interval t.opts = 1 :=
    List.forall_mem_cons.mpr ⟨by rw [hopts₁]; exact Tables.interval_of_one hopts, hone₂⟩
  have hdest₁ : ∀ t ∈ t₁ :: newer, t.filename ≠ destFile :=
    List.forall_mem_cons.mpr ⟨by rw [hname₁]; exact hfresh, (List.forall_mem_append.mp hdest).2⟩
  obtain ⟨m₂, t₂, hm₂, hbuild₂, hrecords₂, _, _, hresult₂, hfs₂⟩ :=
    exists_stage (List.cons_ne_nil t₁ newer) hlevel₂ hpos (hroom₂ t₁ hrecords₁ hopts₁) destFile
      hdest₁ left c₁.fs
  obtain ⟨m, t, hm, hbuild, hrecords, _, _, hresult, hfs⟩ :=
    exists_stage (by simp [hne]) hlevel hpos hroom destFile hdest left fs
  refine ⟨t₁.reader, t₂.reader, t.reader, hresult₁, hresult, hresult₂, ?_⟩
  rw [List.map_cons] at hfs₂
  rw [hfs₂, hfs, Option.some_inj]
  rw [← hrecords₂] at hm₂ hbuild₂
  rw [← hrecords] at hm hbuild
  -- the table of the older ones shows what is kept of them
  have hview : (fun key => live (newest [t₁] key)) = kept fun key => live (newest older key) := by
    funext key
    rw [newest_singleton, hrecords₁, live_retain_eq (sorted_extracted older),
      live_extracted hone₁]
  have hview₂ : (fun key => live (newest (t₁ :: newer) key)) =
      overlay (newest newer) (kept fun key => live (newest older key)) := by
    rw [← hview, ← live_newest_append, List.singleton_append]
  have hfile : t₂.file = t.file ↔
      kept (overlay (newest newer) (kept fun key => live (newest older key))) =
        kept (overlay (newest newer) fun key => live (newest older key)) := by
    rw [file_eq_iff hm₂ hm hbuild₂ hbuild, hrecords₂, hrecords,
      retain_eq_iff (sorted_extracted _) (sorted_extracted _), live_extracted hone₁',
      live_extracted hone, hview₂, live_newest_append]
  refine ⟨hfile.trans kept_overlay_iff, fun hne => ?_⟩
  obtain ⟨hshown, hmissing⟩ := sentinel_of_ne (mt hfile.mpr (mt (congrArg some) hne))
  rw [t₂.get_retained hrecords₂ (sorted_extracted _),
    t.get_retained hrecords (sorted_extracted _), live_extracted hone₁',
    live_extracted hone, hview₂, live_newest_append, hshown, hmissing]
  exact ⟨rfl, rfl⟩

/-- What is retained of tables with every record in the index. -/
theorem retain_extracted_of_one (t : L0Table) (ht : interval t.opts = 1) (u : L0Table)
    (hu : interval u.opts = 1) :
    retain (extracted [t, u]) =
      retain (Assoc.merge Entry.key (Assoc.merge Entry.key [] t.records) u.records) := by
  rw [← L0Table.indexed_of_one ht, ← L0Table.indexed_of_one hu]
  rfl

/-- A table with a tombstone alone is compacted before a table with a value: the sentinel stays
    in the end. -/
theorem compaction_in_stages_differs : ∃ (older newer : L0Table) (r₁ r₂ : SSTableReader),
    older.records = [⟨[1], [], true⟩] ∧ newer.records = [⟨[2], [20], false⟩] ∧
    let c₁ := compactL0ToL1 (fun _ _ => some smallFilter) allOk (fun _ => 1) none (fun _ => none)
      [older.reader] ['c'] ⟨1, 0.01⟩
    let c₂ := compactL0ToL1 (fun _ _ => some smallFilter) allOk (fun _ => 1) none c₁.fs
      [r₁, newer.reader] ['d'] ⟨1, 0.01⟩
    c₁.result = .ok r₁ ∧ c₂.result = .ok r₂ ∧
    c₂.fs ['d'] ≠ (compactL0ToL1 (fun _ _ => some smallFilter) allOk (fun _ => 1) none
      (fun _ => none) [older.reader, newer.reader] ['d'] ⟨1, 0.01⟩).fs ['d'] ∧
    r₂.get sentinel.key = .ok (sentinel.value, false, true) := by
  obtain ⟨older, holder, hoptsO, hnameO⟩ := exists_l0Table ⟨2, 0⟩ [(.delete [1], 1)] (by decide)
    (by decide) ['a'] ⟨1, 0.01⟩ (by decide) (by rw [length_tableBytes]; decide +kernel)
  obtain ⟨newer, hnewer, hoptsN, hnameN⟩ := exists_l0Table ⟨2, 0⟩ [(.put [2] [20], 1)] (by decide)
    (by decide) ['b'] ⟨1, 0.01⟩ (by decide) (by rw [length_tableBytes]; decide +kernel)
  replace holder : older.records = [⟨[1], [], true⟩] := holder
  replace hnewer : newer.records = [⟨[2], [20], false⟩] := hnewer
  have honeO : interval older.opts = 1 := by rw [hoptsO]; rfl
  have honeN : interval newer.opts = 1 := by rw [hoptsN]; rfl
  have hretained : retain (extracted [older]) = [sentinel] := by
    show retain (Assoc.merge Entry.key [] older.indexed) = _
    rw [L0Table.indexed_of_one honeO, holder]
    decide +kernel
  have hroom₂ : ∀ t : L0Table, t.records = retain (extracted [older]) → t.opts = ⟨1, 0.01⟩ →
      Room (fun _ _ => some smallFilter) ⟨1, 0.01⟩ (retain (extracted [t, newer])) := by
    intro t hrecords hopts
    have hone : interval t.opts = 1 := by rw [hopts]; rfl
    refine ⟨smallFilter, rfl, smallFilter_zeroed, ?_⟩
    rw [retain_extracted_of_one t hone newer honeN, hrecords, hretained, hnewer, length_tableBytes]
    decide +kernel
  have hroom : Room (fun _ _ => some smallFilter) ⟨1, 0.01⟩
      (retain (extracted [older, newer])) := by
    refine ⟨smallFilter, rfl, smallFilter_zeroed, ?_⟩
    rw [retain_extracted_of_one older honeO newer honeN, holder, hnewer, length_tableBytes]
    decide +kernel
  obtain ⟨r₁, r₂, r, hresult₁, _, hresult₂, hiff, hfound⟩ :=
    compaction_in_stages_iff [older] [newer] (by simp)
    (by simp [honeO, honeN]) rfl levelsOk_one levelsOk_one levelsOk_one none (fun _ => none)
    ['c'] ['d'] (by simp [hnameO]) (by simp [hnameO, hnameN]) (by decide)
    ⟨smallFilter, rfl, smallFilter_zeroed, by rw [hretained, length_tableBytes]; decide +kernel⟩
    hroom₂ hroom
  have hcond : ¬ ((∃ key, live (newest [older] key) ≠ none) ∨ newest [newer] sentinel.key ≠ none ∨
      ∀ key, live (newest [newer] key) = none) := by
    rintro (⟨key, hkey⟩ | hsentinel | hdead)
    · refine hkey ?_
      rw [newest_singleton, holder, Assoc.lookup_cons]
      split <;> rfl
    · refine hsentinel ?_
      rw [newest_singleton, hnewer]
      decide
    · have htwo := hdead [2]
      rw [newest_singleton, hnewer] at htwo
      cases htwo
  exact ⟨older, newer, r₁, r₂, holder, hnewer, hresult₁, hresult₂, mt hiff.mp hcond,
    (hfound (mt hiff.mp hcond)).1⟩

end Hallownest.Storage
