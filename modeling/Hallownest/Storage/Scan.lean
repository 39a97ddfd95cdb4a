import Hallownest.Damage
import Hallownest.Storage.SSTable

namespace Hallownest.Storage

/-!
# Storage — scanning any block

The loop of `Get` over a block of bytes, whatever they are.  It goes over good frames with keys
below the one it looks for (`scan_chain`), and what the next frame is decides the answer: the end
of the block, a panic, a wrong checksum or a record (`scan_cut`, `scan_overflowing`, `scan_bad`,
`scan_item`).
-/

variable {key bs : Bytes}

/-- The scan of a whole block. -/
def scan (key bs : Bytes) : Except SSTableError (Bytes × Bool × Bool) :=
  scanBlock key bs.length bs

/-- As many rounds as there are bytes are enough. -/
theorem scanBlock_congr : ∀ (n m : ℕ) (bs : Bytes), bs.length ≤ n → bs.length ≤ m →
    scanBlock key n bs = scanBlock key m bs := by
  -- an empty block ends every loop
  have hempty : ∀ (n : ℕ) (bs : Bytes), bs.length ≤ 0 →
      scanBlock key n bs = .ok ([], false, false) := by
    intro n bs hlen
    rw [List.eq_nil_of_length_eq_zero (Nat.le_zero.mp hlen)]
    cases n <;> rfl
  intro n
  induction n with
  | zero =>
    intro m bs hn _
    rw [hempty 0 bs hn, hempty m bs hn]
  | succ n ih =>
    intro m bs hn hm
    cases m with
    | zero => rw [hempty 0 bs hm, hempty (n + 1) bs hm]
    | succ m =>
      rw [scanBlock, scanBlock]
      cases hread : readRecord bs with
      | stop => rfl
      | fail e => cases e <;> rfl
      | item l rest =>
        have hlt := readRecord_advances.shrinks hread
        simp only [ih m rest (by omega) (by omega)]

theorem scan_eq (key bs : Bytes) : scan key bs = scanBlock key (bs.length + 1) bs :=
  scanBlock_congr _ _ bs (le_refl _) (Nat.le_succ _)

/-- A cut record ends the scan without a result. -/
theorem scan_cut (h : CutFrame bs) : scan key bs = .ok ([], false, false) := by
  rw [scan_eq, scanBlock, h.read]

/-- An overflowing record makes the scan panic. -/
theorem scan_overflowing (h : OverflowingFrame bs) : scan key bs = .error .panic := by
  rw [scan_eq, scanBlock, h.read]

/-- A bad record is reported. -/
theorem scan_bad (h : BadFrame bs) :
    scan key bs = .error (.crcMismatch (storedCrc bs) (frameCrc bs)) := by
  rw [scan_eq, scanBlock, h.read]

/-- A good record is the answer, or lies behind the key, or is passed. -/
theorem scan_item {l : LogEntry} {rest : Bytes} (h : readRecord bs = .item l rest) :
    scan key bs =
      if l.key = key then .ok (l.value, l.tombstone, true)
      else if key < l.key then .ok ([], false, false)
      else scan key rest := by
  have hlt := readRecord_advances.shrinks h
  rw [scan_eq, scanBlock, h]
  dsimp only
  rw [scanBlock_congr bs.length rest.length rest (by omega) (le_refl _)]
  rfl

/-- **The scan goes over records below the key.** -/
theorem scan_chain {items : List LogEntry} {rest : Bytes}
    (h : Framing.Chain readRecord bs items rest) (hlt : ∀ l ∈ items, l.key < key) :
    scan key bs = scan key rest := by
  induction h with
  | nil bs => rfl
  | @cons _ _ _ l items head _ ih =>
    have hl := hlt l (by simp)
    rw [scan_item head, if_neg (ne_of_lt hl), if_neg (lt_asymm hl)]
    exact ih fun l' hl' => hlt l' (by simp [hl'])

/-- **When the scan panics.** -/
theorem scan_panic_iff : scan key bs = .error .panic ↔
    ∃ items rest, Framing.Chain readRecord bs items rest ∧ (∀ l ∈ items, l.key < key) ∧
      OverflowingFrame rest := by
  constructor
  · intro h
    induction hn : bs.length using Nat.strong_induction_on generalizing bs with
    | _ n ih =>
      rcases frame_cases bs with hf | hf | hf | hf
      · rw [scan_cut hf] at h
        cases h
      · exact ⟨[], bs, .nil bs, by simp, hf⟩
      · rw [scan_bad hf] at h
        cases h
      · have hread := hf.read
        have hshrink := readRecord_advances.shrinks hread
        rw [scan_item hread] at h
        split at h
        · cases h
        · rename_i hne
          split at h
          · cases h
          · rename_i hge
            obtain ⟨items, rest, hchain, hlt, hover⟩ := ih _ (by omega) h rfl
            refine ⟨_ :: items, rest, .cons hread hchain, ?_, hover⟩
            intro l hl
            rcases List.mem_cons.mp hl with rfl | hl
            · exact lt_of_le_of_ne (not_lt.mp hge) hne
            · exact hlt l hl
  · rintro ⟨items, rest, hchain, hlt, hover⟩
    rw [scan_chain hchain hlt, scan_overflowing hover]

end Hallownest.Storage
