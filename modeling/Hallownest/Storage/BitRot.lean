import Hallownest.Storage.Scan
import Hallownest.Storage.TableGet

namespace Hallownest.Storage

/-!
# Storage — a changed byte in the data of a table

A table file of which one byte of one record `e` is changed, with the records `pre` before it
and `post` behind it.  The index, the filter and the footer are what they were, so the file can
be opened, and a key is looked for in the block where it was.  The changed record is read if its
block is scanned and all records before it are below the key (`Reaches`); the scan goes on from
there over the changed block (`get_changed`).

A byte outside the two lengths of the record is noticed by the checksum.  A changed length makes
the scan take other bytes for the body of the record.  If the block ends before that body does,
`Get` finds nothing and reports nothing; the key of the record itself is one for which this is
wrong.  `changed_byte_iff` says when all answers are as before or an error.
-/

/-- An error that wraps `ErrSSTableCorrupted`. -/
def SSTableError.isCorrupted : SSTableError → Bool
  | .corrupted => true
  | .crcMismatch _ _ => true
  | _ => false

variable {l pre post : List Entry} {e : Entry} {S o : ℕ} {b : UInt8} {bf : LumaflyBloom}
  {filename filename' : List Char} {key : Bytes}

/-! ### The block of a key -/

/-- The block of a key of the table. -/
private theorem searchIndex_key (hS : 0 < S) (hl : Assoc.Sorted Entry.key l) {j : ℕ}
    (hj : l[j]? = some e) :
    (readerOf filename l (indexOf S l) bf).searchIndex e.key = j / S + 1 := by
  let r := readerOf filename l (indexOf S l) bf
  obtain ⟨hle, hbelow, habove⟩ := searchIndex_spec (r := r) (sorted_indexOf hl) e.key
  obtain ⟨hjlt, rfl⟩ := List.getElem?_eq_some_iff.mp hj
  have hkeys := List.pairwise_iff_getElem.mp hl
  have hentry : ∀ i (hi : i * S < l.length),
      r.index[i]? = some ⟨l[i * S].key, offsetAt l (i * S)⟩ := by
    intro i hi
    show (indexOf S l)[i]? = _
    rw [getElem?_indexOf hS, List.getElem?_eq_getElem hi]
    rfl
  have hdiv : j / S * S ≤ j := Nat.div_mul_le_self j S
  -- the last index entry up to position `j` is not above the key
  have hlower : j / S < r.searchIndex l[j].key := by
    by_contra hge
    have hgt := habove _ _ (hentry (j / S) (by omega)) (not_lt.mp hge)
    rcases Nat.eq_or_lt_of_le hdiv with heq | hlt
    · simp only [heq] at hgt
      exact lt_irrefl _ hgt
    · exact lt_asymm hgt (hkeys _ _ (by omega) hjlt hlt)
  -- the one behind it is above the key, if there is one
  have hupper : r.searchIndex l[j].key ≤ j / S + 1 := by
    by_contra hgt
    have hlt : j / S + 1 < r.index.length := by omega
    obtain ⟨d, hd, _⟩ := exists_indexed hS hlt
    have hi := (List.getElem?_eq_some_iff.mp hd).1
    have hle := hbelow _ _ (hentry (j / S + 1) hi) (by omega)
    have hj' : j < (j / S + 1) * S := Nat.lt_mul_of_div_lt (Nat.lt_succ_self _) hS
    exact not_lt_of_ge hle (hkeys _ _ hjlt hi hj')
  show r.searchIndex _ = _
  omega

/-! ### The changed data -/

/-- The data with a changed byte in the record `e`. -/
def changedData (pre : List Entry) (e : Entry) (post : List Entry) (o : ℕ) (b : UInt8) : Bytes :=
  dataBlock pre ++ (e.record.set o b ++ dataBlock post)

/-- The changed record and what follows it in its block. -/
def changedBlock (S : ℕ) (pre : List Entry) (e : Entry) (post : List Entry) (o : ℕ) (b : UInt8) :
    Bytes :=
  e.record.set o b ++ dataBlock (post.take (S - 1 - pre.length % S))

theorem changedData_eq (ho : o < e.record.length) :
    changedData pre e post o b =
      (dataBlock (pre ++ e :: post)).set ((dataBlock pre).length + o) b := by
  have hcons : dataBlock (e :: post) = e.record ++ dataBlock post := rfl
  rw [dataBlock_append, hcons, List.set_append_right _ _ (by omega), Nat.add_sub_cancel_left,
    List.set_append_left _ _ ho]
  rfl

theorem length_changedData : (changedData pre e post o b).length =
    (dataBlock (pre ++ e :: post)).length := by
  have hcons : dataBlock (e :: post) = e.record ++ dataBlock post := rfl
  rw [dataBlock_append, hcons, changedData]
  simp only [List.length_append, List.length_set]

theorem offsetAt_length (pre post : List Entry) :
    offsetAt (pre ++ post) pre.length = (dataBlock pre).length := by
  rw [offsetAt, List.take_left' rfl]

/-- The changed byte is in the record. -/
theorem lt_offsetAt_succ (ho : o < e.record.length) :
    (dataBlock pre).length + o < offsetAt (pre ++ e :: post) (pre.length + 1) := by
  have hlen := offsetAt_length (pre ++ [e]) post
  rw [List.append_assoc, List.length_append, List.length_singleton, List.singleton_append] at hlen
  rw [hlen, dataBlock_append, List.length_append]
  have hone : dataBlock [e] = e.record := by simp [dataBlock]
  rw [hone]
  omega

/-- A block without the changed record is as before. -/
private theorem cutBlock_of_outside (ho : o < e.record.length) {p q : ℕ} (hpq : p ≤ q)
    (hout : q ≤ pre.length ∨ pre.length < p) :
    cutBlock (pre ++ e :: post) (changedData pre e post o b) p q =
      cutBlock (pre ++ e :: post) (dataBlock (pre ++ e :: post)) p q := by
  have hmono := offsetAt_mono (pre ++ e :: post) hpq
  unfold cutBlock
  rw [changedData_eq ho]
  refine Bytes.take_drop_set b ?_
  rcases hout with hq | hp
  · have hle := offsetAt_mono (pre ++ e :: post) hq
    rw [offsetAt_length] at hle
    omega
  · have hle := offsetAt_mono (pre ++ e :: post) (show pre.length + 1 ≤ p by omega)
    have hlt : _ < offsetAt (pre ++ e :: post) (pre.length + 1) := lt_offsetAt_succ ho
    omega

/-- The records of a block that contains the record `e`. -/
theorem block_records {p q : ℕ} (hp : p ≤ pre.length) (hq : pre.length < q) :
    ((pre ++ e :: post).take q).drop p = pre.drop p ++ e :: post.take (q - pre.length - 1) := by
  rw [List.take_append, List.take_of_length_le (by omega), List.drop_append_of_le_length hp]
  obtain ⟨n, hn⟩ : ∃ n, q - pre.length = n + 1 := ⟨q - pre.length - 1, by omega⟩
  rw [hn, List.take_succ_cons, Nat.add_sub_cancel]

/-- A block with the changed record. -/
theorem cutBlock_of_inside (ho : o < e.record.length) {p q : ℕ} (hp : p ≤ pre.length)
    (hq : pre.length < q) :
    cutBlock (pre ++ e :: post) (changedData pre e post o b) p q =
      dataBlock (pre.drop p) ++
        (e.record.set o b ++ dataBlock (post.take (q - pre.length - 1))) := by
  have hstart : (dataBlock pre).length = offsetAt (pre ++ e :: post) p +
      (dataBlock (pre.drop p)).length := by
    conv => lhs; rw [← List.take_append_drop p pre, dataBlock_append, List.length_append]
    rw [offsetAt, List.take_append_of_le_length hp]
  have hblock := cutBlock_dataBlock (pre ++ e :: post) (show p ≤ q by omega)
  unfold cutBlock at hblock ⊢
  rw [changedData_eq ho, Bytes.take_drop_set_of_le b (by omega), hblock, block_records hp hq,
    dataBlock_append, List.set_append_right _ _ (by omega)]
  have hplace : (dataBlock pre).length + o - offsetAt (pre ++ e :: post) p -
      (dataBlock (pre.drop p)).length = o := by omega
  have hcons : dataBlock (e :: post.take (q - pre.length - 1)) =
      e.record ++ dataBlock (post.take (q - pre.length - 1)) := rfl
  rw [hplace, hcons, List.set_append_left _ _ ho]

/-! ### Looking a key up -/

/-- The scan for `key` reads the record behind `pre`. -/
structure Reaches (r : SSTableReader) (S : ℕ) (pre : List Entry) (key : Bytes) : Prop where
  contains : r.mayContain key = .ok true
  block : r.searchIndex key = pre.length / S + 1
  above : ∀ d ∈ pre, d.key < key

/-- What stands behind a record that is not below the key does not matter. -/
private theorem scan_dataBlock_congr (t t' : Bytes) {xs : List Entry} (hfit : ∀ d ∈ xs, d.Fits)
    (hge : ∃ d ∈ xs, key ≤ d.key) :
    scan key (dataBlock xs ++ t) = scan key (dataBlock xs ++ t') := by
  induction xs with
  | nil => simp at hge
  | cons x xs ih =>
    have hcons : ∀ t, dataBlock (x :: xs) ++ t = x.record ++ (dataBlock xs ++ t) := fun t =>
      List.append_assoc ..
    have hx := hfit x (by simp)
    rw [hcons, hcons, scan_item (readRecord_record hx _), scan_item (readRecord_record hx _)]
    by_cases heq : x.logEntry.key = key
    · rw [if_pos heq, if_pos heq]
    · rw [if_neg heq, if_neg heq]
      by_cases hlt : key < x.logEntry.key
      · rw [if_pos hlt, if_pos hlt]
      · rw [if_neg hlt, if_neg hlt]
        refine ih (fun d hd => hfit d (by simp [hd])) ?_
        obtain ⟨d, hd, hle⟩ := hge
        rcases List.mem_cons.mp hd with rfl | hd
        · exact absurd (lt_of_le_of_ne hle (Ne.symm heq)) hlt
        · exact ⟨d, hd, hle⟩

section Block

variable {p q : ℕ} (hfit : ∀ d ∈ pre ++ e :: post, d.Fits) (ho : o < e.record.length)
  (hp : p ≤ pre.length) (hq : pre.length < q)

include hfit ho hp hq

/-- Behind records below the key, the scan of a block comes to the changed record. -/
private theorem scan_changed_of_lt (hlt : ∀ d ∈ pre.drop p, d.key < key) :
    scan key (cutBlock (pre ++ e :: post) (changedData pre e post o b) p q) =
      scan key (e.record.set o b ++ dataBlock (post.take (q - pre.length - 1))) := by
  have hfit' : ∀ d ∈ pre.drop p, d.Fits := fun d hd =>
    hfit d (List.mem_append_left _ (List.mem_of_mem_drop hd))
  rw [cutBlock_of_inside ho hp hq]
  refine scan_chain (Framing.chain_frames record_format _ hfit' _) ?_
  intro x hx
  obtain ⟨d, hd, rfl⟩ := List.mem_map.mp hx
  exact hlt d hd

/-- A record before the changed one ends the scan if it is not below the key. -/
private theorem scan_changed_of_le (hge : ∃ d ∈ pre.drop p, key ≤ d.key) :
    scan key (cutBlock (pre ++ e :: post) (changedData pre e post o b) p q) =
      scan key (cutBlock (pre ++ e :: post) (dataBlock (pre ++ e :: post)) p q) := by
  have hfit' : ∀ d ∈ pre.drop p, d.Fits := fun d hd =>
    hfit d (List.mem_append_left _ (List.mem_of_mem_drop hd))
  rw [cutBlock_of_inside ho hp hq, cutBlock_dataBlock _ (by omega), block_records hp hq,
    dataBlock_append]
  exact scan_dataBlock_congr _ _ hfit' hge

end Block

/-- **`Get` with a changed byte.**  If the changed record is reached, the rest of its block is
    scanned, and otherwise nothing is different. -/
theorem get_changed (hS : 0 < S) (hl : Assoc.Sorted Entry.key (pre ++ e :: post))
    (hfit : ∀ d ∈ pre ++ e :: post, d.Fits) (hbf : bf.WellFormed)
    (hsize : (tableBytes (pre ++ e :: post) (indexOf S (pre ++ e :: post)) bf).length ≤ 2 ^ 48)
    (ho : o < e.record.length) (key : Bytes) :
    let r := readerOf filename (pre ++ e :: post) (indexOf S (pre ++ e :: post)) bf
    let r' := readerWith filename' (changedData pre e post o b) (pre ++ e :: post)
      (indexOf S (pre ++ e :: post)) bf
    (Reaches r S pre key → r'.get key = scan key (changedBlock S pre e post o b)) ∧
      (¬ Reaches r S pre key → r'.get key = r.get key) := by
  intro r r'
  obtain ⟨contains, hcontains⟩ := LumaflyBloom.contains_isSome hbf key
  have hmay : r.mayContain key = .ok contains := SSTableReader.mayContain_eq rfl hcontains
  cases contains with
  | false =>
    have hget' : r'.get key = .ok ([], false, false) := get_of_not_contains hcontains
    have hget : r.get key = .ok ([], false, false) := by
      show (readerWith filename (dataBlock (pre ++ e :: post)) _ _ bf).get key = _
      exact get_of_not_contains hcontains
    refine ⟨fun h => ?_, fun _ => by rw [hget', hget]⟩
    have htrue := h.contains
    rw [hmay] at htrue
    cases htrue
  | true =>
    -- both readers scan the same block of their data
    have hscan : ∀ (filename : List Char) (data : Bytes),
        data.length = (dataBlock (pre ++ e :: post)).length →
        (readerWith filename data (pre ++ e :: post) (indexOf S (pre ++ e :: post)) bf).get key =
          scan key (cutBlock (pre ++ e :: post) data ((r.searchIndex key - 1) * S)
            (r.searchIndex key * S)) := by
      intro filename data hdata
      exact get_eq_scanBlock hS hl (by simp) hdata hsize hcontains
    have hget' : r'.get key = _ := hscan filename' _ length_changedData
    have hget : r.get key = _ := hscan filename (dataBlock (pre ++ e :: post)) rfl
    rw [hget', hget]
    have hpq : (r.searchIndex key - 1) * S ≤ r.searchIndex key * S :=
      Nat.mul_le_mul_right S (Nat.sub_le _ _)
    by_cases hblock : r.searchIndex key = pre.length / S + 1
    · have hdiv := Nat.div_add_mod pre.length S
      have hmod := Nat.mod_lt pre.length hS
      have hstart : (r.searchIndex key - 1) * S = S * (pre.length / S) := by
        rw [hblock, Nat.add_sub_cancel, Nat.mul_comm]
      have hend : r.searchIndex key * S = S * (pre.length / S) + S := by
        rw [hblock, Nat.add_mul, Nat.one_mul, Nat.mul_comm]
      have hp : (r.searchIndex key - 1) * S ≤ pre.length := by omega
      have hq : pre.length < r.searchIndex key * S := by omega
      have hrest : r.searchIndex key * S - pre.length - 1 = S - 1 - pre.length % S := by omega
      constructor
      · intro hreach
        rw [scan_changed_of_lt hfit ho hp hq fun d hd => hreach.above d (List.mem_of_mem_drop hd),
          hrest]
        rfl
      · intro hnot
        refine scan_changed_of_le hfit ho hp hq ?_
        by_contra hno
        refine hnot ⟨hmay, hblock, fun d hd => ?_⟩
        -- the records before the block are below the key
        rw [← List.take_append_drop ((r.searchIndex key - 1) * S) pre] at hd
        rcases List.mem_append.mp hd with hd | hd
        · refine startsAt_searchIndex filename bf hS hl key d ?_
          rwa [List.take_append_of_le_length hp]
        · exact not_le.mp fun hle => hno ⟨d, hd, hle⟩
    · refine ⟨fun h => absurd h.block hblock, fun _ => ?_⟩
      rw [cutBlock_of_outside ho hpq]
      rcases Nat.lt_or_gt_of_ne hblock with hlt | hgt
      · exact Or.inl ((Nat.le_div_iff_mul_le hS).mp (by omega))
      · exact Or.inr ((Nat.div_lt_iff_lt_mul hS).mp (by omega))

/-- The key of the changed record reaches it. -/
theorem reaches_key (hS : 0 < S) (hl : Assoc.Sorted Entry.key (pre ++ e :: post))
    (hbf : bf.WellFormed) (hcov : bf.Covers ((pre ++ e :: post).map Entry.key)) :
    Reaches (readerOf filename (pre ++ e :: post) (indexOf S (pre ++ e :: post)) bf) S pre
      e.key := by
  refine ⟨?_, searchIndex_key hS hl (by simp), ?_⟩
  · exact SSTableReader.mayContain_eq rfl
      (LumaflyBloom.contains_of_covers hbf hcov (List.mem_map_of_mem (by simp)))
  · intro d hd
    exact (List.pairwise_append.mp hl).2.2 d hd e (by simp)

/-! ### What the scan of the changed block shows -/

/-- Going from frame to frame for `key` leads to a wrong checksum or to what the records `l`
    hold. -/
inductive Intact (l : List Entry) (key : Bytes) : Bytes → Prop
  | bad {bs : Bytes} (h : BadFrame bs) : Intact l key bs
  | cut {bs : Bytes} (h : CutFrame bs) (hnone : Assoc.lookup Entry.key key l = none) :
      Intact l key bs
  | found {bs : Bytes} (h : GoodFrame bs) (hkey : (logEntryOf bs).key = key)
      (hsome : Assoc.lookup Entry.key key l = some (logEntryOf bs).entry) : Intact l key bs
  | above {bs : Bytes} (h : GoodFrame bs) (hgt : key < (logEntryOf bs).key)
      (hnone : Assoc.lookup Entry.key key l = none) : Intact l key bs
  | behind {bs : Bytes} (h : GoodFrame bs) (hlt : (logEntryOf bs).key < key)
      (hrest : Intact l key (behind bs)) : Intact l key bs

/-- The answer is right, or an error that wraps `ErrSSTableCorrupted`. -/
def Unharmed (expected got : Except SSTableError (Bytes × Bool × Bool)) : Prop :=
  got = expected ∨ ∃ err, got = .error err ∧ err.isCorrupted = true

private theorem unharmed_mismatch {expected : Except SSTableError (Bytes × Bool × Bool)}
    (x y : BitVec 32) : Unharmed expected (.error (.crcMismatch x y)) :=
  Or.inr ⟨_, rfl, rfl⟩

theorem unharmed_ok {x y : Bytes × Bool × Bool} : Unharmed (.ok x) (.ok y) ↔ y = x := by
  simp [Unharmed]

theorem not_unharmed_panic {x : Bytes × Bool × Bool} : ¬ Unharmed (.ok x) (.error .panic) := by
  simp [Unharmed, SSTableError.isCorrupted]

theorem answer_none_iff {x : Option Entry} : ([], false, false) = answer x ↔ x = none := by
  cases x <;> simp [answer]

theorem answer_some_iff {item : LogEntry} :
    (item.value, item.tombstone, true) = answer (Assoc.lookup Entry.key item.key l) ↔
      Assoc.lookup Entry.key item.key l = some item.entry := by
  cases h : Assoc.lookup Entry.key item.key l with
  | none => simp [answer]
  | some d =>
    have hkey := (Assoc.lookup_eq_some h).2
    obtain ⟨dkey, dvalue, dtomb⟩ := d
    simp only at hkey
    simp [answer, LogEntry.entry, hkey, eq_comm]

/-- **The scan of the frames.** -/
theorem intact_iff {bs : Bytes} :
    Intact l key bs ↔ Unharmed (.ok (answer (Assoc.lookup Entry.key key l))) (scan key bs) := by
  constructor
  · intro h
    induction h with
    | bad h =>
      rw [scan_bad h]
      exact unharmed_mismatch _ _
    | cut h hnone =>
      rw [scan_cut h, hnone]
      exact Or.inl rfl
    | found h hkey hsome =>
      rw [scan_item h.read, if_pos hkey, hsome]
      exact Or.inl rfl
    | above h hgt hnone =>
      rw [scan_item h.read, if_neg (ne_of_gt hgt), if_pos hgt, hnone]
      exact Or.inl rfl
    | behind h hlt _ ih =>
      rw [scan_item h.read, if_neg (ne_of_lt hlt), if_neg (lt_asymm hlt)]
      exact ih
  · intro h
    induction hn : bs.length using Nat.strong_induction_on generalizing bs with
    | _ n ih =>
      rcases frame_cases bs with hf | hf | hf | hf
      · rw [scan_cut hf, unharmed_ok, answer_none_iff] at h
        exact .cut hf h
      · rw [scan_overflowing hf] at h
        exact absurd h not_unharmed_panic
      · exact .bad hf
      · have hshrink := readRecord_advances.shrinks hf.read
        rw [scan_item hf.read] at h
        rcases lt_trichotomy (logEntryOf bs).key key with hlt | heq | hgt
        · rw [if_neg (ne_of_lt hlt), if_neg (lt_asymm hlt)] at h
          exact .behind hf hlt (ih _ (by omega) h rfl)
        · rw [if_pos heq, unharmed_ok, ← heq, answer_some_iff, heq] at h
          exact .found hf heq h
        · rw [if_neg (ne_of_gt hgt), if_pos hgt, unharmed_ok, answer_none_iff] at h
          exact .above hf hgt h

/-- **With a changed length**, the key of the record is answered rightly or reported only if the
    checksum is wrong for the bytes that are taken for the body, or if the key has become shorter
    and the checksum is right nonetheless. -/
theorem changed_length (rest : Bytes) (hfit : e.Fits) (ho : o < e.record.length)
    (hb : b ≠ e.record[o]) (hlo : 4 ≤ o) (hhi : o < 12)
    (h : Unharmed (.ok (answer (some e))) (scan e.key (e.record.set o b ++ rest))) :
    BadFrame (e.record.set o b ++ rest) ∨
      GoodFrame (e.record.set o b ++ rest) ∧
        keyLenOf (e.record.set o b ++ rest) < e.key.length := by
  rcases frame_cases (e.record.set o b ++ rest) with hf | hf | hf | hf
  · rw [scan_cut hf, unharmed_ok, answer_none_iff] at h
    cases h
  · rw [scan_overflowing hf] at h
    exact absurd h not_unharmed_panic
  · exact Or.inl hf
  · refine Or.inr ⟨hf, ?_⟩
    obtain ⟨hkeylen, hvallen⟩ := hf.lengths
    have hkey := hf.key_eq
    rw [body_changed rest (show o < headerSize from by unfold headerSize; omega),
      List.append_assoc] at hkey
    rw [scan_item hf.read] at h
    by_cases hhalf : o < 8
    · have hne := keyLenOf_changed rest hfit ho hb hlo hhalf
      by_contra hge
      -- a longer key that starts with the one that is looked for is above it
      have hlong : e.key.length < keyLenOf (e.record.set o b ++ rest) := by omega
      rw [List.take_append, List.take_of_length_le (le_of_lt hlong)] at hkey
      have hgt : e.key < (logEntryOf (e.record.set o b ++ rest)).key := by
        obtain ⟨c, cs, htail⟩ := List.exists_cons_of_ne_nil (l := (e.value ++ rest).take
          (keyLenOf (e.record.set o b ++ rest) - e.key.length)) fun hnil => by
            rw [hnil, List.append_nil] at hkey
            rw [hkey] at hkeylen
            omega
        rw [hkey, htail]
        conv => lhs; rw [← List.append_nil e.key]
        exact List.append_left_lt (List.nil_lt_cons c cs)
      rw [if_neg (ne_of_gt hgt), if_pos hgt, unharmed_ok, answer_none_iff] at h
      cases h
    · -- the key is the same and the value has another length
      obtain ⟨hne, hsame⟩ := valLenOf_changed rest hfit ho hb (not_lt.mp hhalf) hhi
      rw [hsame, List.take_left' rfl] at hkey
      rw [if_pos hkey, unharmed_ok] at h
      have hvalue : (logEntryOf (e.record.set o b ++ rest)).value = e.value := congrArg Prod.fst h
      rw [hvalue] at hvallen
      exact absurd hvallen.symm hne

/-! ### Changing a byte of a file -/

/-- Every place in the data is in a record. -/
private theorem exists_record_at {offset : ℕ} (h : offset < (dataBlock l).length) :
    ∃ pre e post o, l = pre ++ e :: post ∧ offset = (dataBlock pre).length + o ∧
      o < e.record.length := by
  induction l generalizing offset with
  | nil => simp [dataBlock] at h
  | cons d l ih =>
    have hcons : ∀ l', dataBlock (d :: l') = d.record ++ dataBlock l' := fun _ => rfl
    by_cases hlt : offset < d.record.length
    · exact ⟨[], d, l, offset, rfl, (Nat.zero_add offset).symm, hlt⟩
    · rw [hcons, List.length_append] at h
      obtain ⟨pre, e, post, o, rfl, hoff, ho⟩ := ih (show offset - d.record.length < _ by omega)
      refine ⟨d :: pre, e, post, o, rfl, ?_, ho⟩
      rw [hcons, List.length_append]
      omega

/-- The file with a changed byte in the data. -/
theorem tableBytes_set {ix : List IndexEntry} (ho : o < e.record.length) :
    (tableBytes (pre ++ e :: post) ix bf).set ((dataBlock pre).length + o) b =
      tableWith (changedData pre e post o b) (pre ++ e :: post) ix bf := by
  have hlt : (dataBlock pre).length + o < (dataBlock (pre ++ e :: post)).length :=
    lt_of_lt_of_le (lt_offsetAt_succ ho) (offsetAt_le _ _)
  unfold tableBytes tableWith
  simp only [List.append_assoc]
  rw [List.set_append_left _ _ hlt, changedData_eq ho]

/-- **When a changed byte does no harm**, for the readers of the two files. -/
theorem unharmed_changed_iff (hS : 0 < S) (hl : Assoc.Sorted Entry.key (pre ++ e :: post))
    (hfit : ∀ d ∈ pre ++ e :: post, d.Fits) (hbf : bf.WellFormed)
    (hcov : bf.Covers ((pre ++ e :: post).map Entry.key))
    (hsize : (tableBytes (pre ++ e :: post) (indexOf S (pre ++ e :: post)) bf).length ≤ 2 ^ 48)
    (ho : o < e.record.length) (hb : b ≠ e.record[o]) :
    let r := readerOf filename (pre ++ e :: post) (indexOf S (pre ++ e :: post)) bf
    let r' := readerWith filename' (changedData pre e post o b) (pre ++ e :: post)
      (indexOf S (pre ++ e :: post)) bf
    let block := changedBlock S pre e post o b
    (∀ key, Unharmed (r.get key) (r'.get key)) ↔
      (o < 4 ∨ 12 ≤ o) ∨ BadFrame block ∨
        GoodFrame block ∧ keyLenOf block < e.key.length ∧
          ∀ key, Reaches r S pre key → Intact (pre ++ e :: post) key block := by
  intro r r' block
  have hopened : Opened S (pre ++ e :: post) r := ⟨filename, bf, rfl, hbf, hcov, hsize⟩
  have hget : ∀ key, r.get key = .ok (answer (Assoc.lookup Entry.key key (pre ++ e :: post))) :=
    hopened.get hS hl hfit
  have hreach : ∀ key, Reaches r S pre key → r'.get key = scan key block := fun key =>
    (get_changed hS hl hfit hbf hsize ho key).1
  have hsame : ∀ key, ¬ Reaches r S pre key → r'.get key = r.get key := fun key =>
    (get_changed hS hl hfit hbf hsize ho key).2
  constructor
  · intro hall
    by_cases hout : o < 4 ∨ 12 ≤ o
    · exact Or.inl hout
    · -- the key of the changed record is answered from the changed block
      have hkey := hall e.key
      rw [hreach _ (reaches_key hS hl hbf hcov), hget, Assoc.lookup_of_mem hl (by simp)] at hkey
      have hframe := changed_length _ (hfit e (by simp)) ho hb (by omega) (by omega) hkey
      refine Or.inr (hframe.imp_right fun ⟨hgood, hshort⟩ => ⟨hgood, hshort, ?_⟩)
      intro key hr
      rw [intact_iff, ← hget, ← hreach key hr]
      exact hall key
  · intro hcond key
    by_cases hr : Reaches r S pre key
    · rw [hreach key hr, hget, ← intact_iff]
      rcases hcond with hout | hbad | ⟨_, _, hintact⟩
      · exact .bad (badFrame_changed _ (hfit e (by simp)) ho hb hout)
      · exact .bad hbad
      · exact hintact key hr
    · rw [hsame key hr]
      exact Or.inl rfl

/-- **A changed byte in a table file.**  Take a table built from any writes on a fresh MemTable
    whose records fit, and change one byte of its data, which is byte `o` of the record `e`.  The
    changed file can be opened.  All answers are those of the intact file or errors that wrap
    `ErrSSTableCorrupted` if and only if the byte is outside the two lengths of the record; or the
    changed record is whole with a wrong checksum; or it is whole with the right checksum, its key
    has become shorter, and going on from there every key is `Intact`. -/
theorem changed_byte_iff (memOpts : MemTableOptions) (ops : List (Op × ℕ))
    (hlevels : ∀ p ∈ ops, 1 ≤ p.2 ∧ (p.2 : Int) ≤ (newMemTable memOpts).opts.maxLevel)
    (hfit : ∀ e ∈ contents (ops.map Prod.fst), e.Fits)
    (create : ℕ → Float → Option LumaflyBloom) (filename : List Char) (expectedEntries : Int)
    (opts : SSTableOptions) (bf : LumaflyBloom)
    (hcreate : create (expectedEntries % 2 ^ 64).toNat opts.normalize.fpRate = some bf)
    (hbf : bf.Zeroed)
    (hsize : (tableBytes (contents (ops.map Prod.fst))
      (indexOf (interval opts) (contents (ops.map Prod.fst))) bf).length ≤ 2 ^ 48) :
    ∃ m file r, (newMemTable memOpts).run ops = some m ∧
      buildSSTable create allOk filename m expectedEntries opts = .ok (file, r) ∧
      ∀ (filename' : List Char) (offset : ℕ) (b : UInt8), offset < r.footer.indexOffset →
        file[offset]? ≠ some b →
        ∃ pre e post o r', contents (ops.map Prod.fst) = pre ++ e :: post ∧
          offset = (dataBlock pre).length + o ∧ o < e.record.length ∧
          openSSTable filename' (file.set offset b) = .ok r' ∧
          ((∀ key, Unharmed (r.get key) (r'.get key)) ↔
            (o < 4 ∨ 12 ≤ o) ∨ BadFrame (changedBlock (interval opts) pre e post o b) ∨
              GoodFrame (changedBlock (interval opts) pre e post o b) ∧
                keyLenOf (changedBlock (interval opts) pre e post o b) < e.key.length ∧
                ∀ key, Reaches r (interval opts) pre key →
                  Intact (pre ++ e :: post) key
                    (changedBlock (interval opts) pre e post o b)) := by
  obtain ⟨m, hrun, hm⟩ := models_run memOpts ops hlevels
  obtain ⟨file, r, hbuild, ⟨_, bf', rfl, hwf, hcov, hlen⟩, _, hfile, _⟩ :=
    buildSSTable_spec create _ filename hm (fun e he => (hfit e he).writable) hcreate hbf hsize
  obtain rfl := Option.some.inj hfile
  refine ⟨m, _, _, hrun, hbuild, ?_⟩
  intro filename' offset b hoff hbyte
  -- the changed byte is inside a record: split the contents there
  obtain ⟨pre, e, post, o, hsplit, rfl, ho⟩ := exists_record_at hoff
  have hS := interval_pos opts
  have hsorted := hm.sorted
  rw [hsplit] at hsorted hfit hlen hbyte hcov ⊢
  have hb : b ≠ e.record[o] := by
    rintro rfl
    apply hbyte
    have hcons : dataBlock (e :: post) = e.record ++ dataBlock post := rfl
    rw [tableBytes, dataBlock_append, hcons]
    simp only [List.append_assoc]
    rw [List.getElem?_append_right (Nat.le_add_right _ _), Nat.add_sub_cancel_left,
      List.getElem?_append_left ho, List.getElem?_eq_getElem ho]
  have hdata := length_tableBytes (pre ++ e :: post)
    (indexOf (interval opts) (pre ++ e :: post)) bf'
  refine ⟨pre, e, post, o, readerWith filename' (changedData pre e post o b) _ _ bf', rfl, rfl, ho,
    ?_, unharmed_changed_iff hS hsorted hfit hwf hcov hlen ho hb⟩
  rw [tableBytes_set ho]
  exact openSSTable_tableWith filename' length_changedData
    (fits_indexOf (fun d hd => (hfit d hd).writable) (by omega)) hwf hlen

/-- A table of one record. -/
def oneRecord : Except SSTableError (Bytes × SSTableReader) :=
  orPanic ((newMemTable ⟨2, 0⟩).run [(.put [1] [2], 1)]) >>= fun m =>
    buildSSTable (fun _ _ => some smallFilter) allOk ['t'] m 1 ⟨2, 0.01⟩

theorem exists_of_toOption {α β ε : Type} {x : Except ε α} {f : α → Option β} {y : β}
    (h : x.toOption.bind f = some y) : ∃ a, x = .ok a ∧ f a = some y := by
  cases x with
  | error err => cases h
  | ok a => exact ⟨a, rfl, h⟩

/-- The value of the record is changed. -/
theorem changed_value_seen : ∃ file r r', oneRecord = .ok (file, r) ∧
    openSSTable ['t'] (file.set 14 9) = .ok r' ∧ ∀ key, Unharmed (r.get key) (r'.get key) := by
  obtain ⟨m, file, r, hrun, hbuild, hall⟩ := changed_byte_iff ⟨2, 0⟩ [(.put [1] [2], 1)]
    (by decide) (by decide) (fun _ _ => some smallFilter) ['t'] 1 ⟨2, 0.01⟩ smallFilter rfl
    smallFilter_zeroed (by rw [length_tableBytes]; decide +kernel)
  have hone : oneRecord = .ok (file, r) := by
    rw [oneRecord, hrun]
    exact hbuild
  have heval : (oneRecord.toOption.bind fun p => some (p.2.footer.indexOffset, p.1[14]?)) =
      some (15, some 2) := by decide +kernel
  obtain ⟨_, hone', hvalues⟩ := exists_of_toOption heval
  obtain rfl := Except.ok.inj (hone.symm.trans hone')
  obtain ⟨hoff, hbyte⟩ := Prod.mk.inj (Option.some.inj hvalues)
  obtain ⟨pre, e, post, o, r', hsplit, hplace, ho, hopen, hiff⟩ :=
    hall ['t'] 14 9 (by rw [hoff]; decide) (by rw [hbyte]; decide)
  refine ⟨file, r, r', hone, hopen, hiff.mpr (Or.inl (Or.inr ?_))⟩
  -- the record is the first one
  have hlen : 1 = pre.length + (post.length + 1) := by
    have := congrArg List.length hsplit
    rwa [List.length_append] at this
  obtain rfl : pre = [] := List.eq_nil_of_length_eq_zero (by omega)
  have hzero : (dataBlock []).length = 0 := rfl
  omega

/-- The top byte of the key length of the record is changed.  The key is not found, and no error
    is reported. -/
theorem changed_length_silent : ∃ file r r', oneRecord = .ok (file, r) ∧
    4 < r.footer.indexOffset ∧ file[4]? = some 0 ∧ openSSTable ['t'] (file.set 4 1) = .ok r' ∧
    r.get [1] = .ok ([2], false, true) ∧ r'.get [1] = .ok ([], false, false) := by
  have heval : (oneRecord.toOption.bind fun p =>
      (openSSTable ['t'] (p.1.set 4 1)).toOption.bind fun r' =>
        if 4 < p.2.footer.indexOffset ∧ p.1[4]? = some 0 then some (p.2.get [1], r'.get [1])
        else none) = some (.ok ([2], false, true), .ok ([], false, false)) := by decide +kernel
  obtain ⟨⟨file, r⟩, hone, hrest⟩ := exists_of_toOption heval
  obtain ⟨r', hopen, hif⟩ := exists_of_toOption hrest
  obtain ⟨⟨hoff, hbyte⟩, hvalues⟩ := Option.ite_none_right_eq_some.mp hif
  obtain ⟨hget, hget'⟩ := Prod.mk.inj (Option.some.inj hvalues)
  exact ⟨file, r, r', hone, hoff, hbyte, hopen, hget, hget'⟩

end Hallownest.Storage
