import Mathlib.Logic.Function.Basic
import Mathlib.Tactic.Linarith

namespace Mix

/-!
# Mixing steps on 32-bit words

The steps that hash functions are made of lose nothing: multiplication by a word with an inverse,
rotation, and the exclusive or of a word with a part of itself.
-/

variable {x y c : UInt32}

theorem mul_injective {d : UInt32} (hinv : c * d = 1) : Function.Injective (· * c) := by
  intro x y h
  have h' : x * c * d = y * c * d := congrArg (· * d) h
  rwa [UInt32.mul_assoc, UInt32.mul_assoc, hinv, UInt32.mul_one, UInt32.mul_one] at h'

/-- Two words with the same bits are the same. -/
theorem eq_of_bits (h : ∀ i, x.toBitVec.getLsbD i = y.toBitVec.getLsbD i) : x = y :=
  UInt32.toBitVec_inj.mp (BitVec.eq_of_getLsbD_eq fun i _ => h i)

/-- **Rotation** by `k` bits, written with two shifts. -/
theorem rotate_injective {k l : UInt32} (hk : 0 < k.toNat) (hl : 0 < l.toNat)
    (hsum : k.toNat + l.toNat = 32) :
    Function.Injective fun x : UInt32 => (x <<< k) ||| (x >>> l) := by
  intro x y h
  have hmod : k.toNat % 32 = k.toNat ∧ l.toNat % 32 = l.toNat := by omega
  have hbits : ∀ j, ((decide (j < 32) && !decide (j < k.toNat) &&
      x.toBitVec.getLsbD (j - k.toNat)) || x.toBitVec.getLsbD (l.toNat + j)) =
      ((decide (j < 32) && !decide (j < k.toNat) &&
        y.toBitVec.getLsbD (j - k.toNat)) || y.toBitVec.getLsbD (l.toNat + j)) := by
    intro j
    simpa [hmod] using congrArg (fun z : UInt32 => z.toBitVec.getLsbD j) h
  refine eq_of_bits fun i => ?_
  by_cases hi : i + k.toNat < 32
  · -- the bit went up
    have hbit := hbits (i + k.toNat)
    have hout : ∀ z : UInt32, z.toBitVec.getLsbD (l.toNat + (i + k.toNat)) = false :=
      fun z => BitVec.getLsbD_of_ge _ _ (by omega)
    simpa [hi, hout] using hbit
  · by_cases hlt : i < 32
    · -- the bit came round
      have hbit := hbits (i - l.toNat)
      rw [show l.toNat + (i - l.toNat) = i by omega] at hbit
      simpa [show i - l.toNat < k.toNat by omega] using hbit
    · rw [BitVec.getLsbD_of_ge _ _ (by omega), BitVec.getLsbD_of_ge _ _ (by omega)]

/-- **A word and its upper part.** -/
theorem xorShift_injective {k : UInt32} (hk : 0 < k.toNat) (hlt : k.toNat < 32) :
    Function.Injective fun x : UInt32 => x ^^^ (x >>> k) := by
  intro x y h
  have hmod : k.toNat % 32 = k.toNat := Nat.mod_eq_of_lt hlt
  have hbits : ∀ j, (x.toBitVec.getLsbD j ^^ x.toBitVec.getLsbD (k.toNat + j)) =
      (y.toBitVec.getLsbD j ^^ y.toBitVec.getLsbD (k.toNat + j)) := by
    intro j
    simpa [hmod] using congrArg (fun z : UInt32 => z.toBitVec.getLsbD j) h
  -- from the highest bit down
  have hdown : ∀ n i, 32 ≤ i + n → x.toBitVec.getLsbD i = y.toBitVec.getLsbD i := by
    intro n
    induction n with
    | zero =>
      intro i hi
      rw [BitVec.getLsbD_of_ge _ _ (by omega), BitVec.getLsbD_of_ge _ _ (by omega)]
    | succ n ih =>
      intro i hi
      have hbit := hbits i
      rw [ih (k.toNat + i) (by omega)] at hbit
      simpa using hbit
  exact eq_of_bits fun i => hdown 32 i (by omega)

/-- **Three bytes in one word.** -/
theorem pack_injective (a b c a' b' c' : UInt8)
    (h : (c.toUInt32 <<< 16) ^^^ (b.toUInt32 <<< 8) ^^^ a.toUInt32 =
      (c'.toUInt32 <<< 16) ^^^ (b'.toUInt32 <<< 8) ^^^ a'.toUInt32) :
    a = a' ∧ b = b' ∧ c = c' := by
  have hbits : ∀ j < 32, ((!decide (j < 16) && c.toBitVec.getLsbD (j - 16)) ^^
      ((!decide (j < 8) && b.toBitVec.getLsbD (j - 8)) ^^ a.toBitVec.getLsbD j)) =
      ((!decide (j < 16) && c'.toBitVec.getLsbD (j - 16)) ^^
        ((!decide (j < 8) && b'.toBitVec.getLsbD (j - 8)) ^^ a'.toBitVec.getLsbD j)) := by
    intro j hj
    simpa [hj, show j - 16 < 32 by omega, show j - 8 < 32 by omega] using
      congrArg (fun z : UInt32 => z.toBitVec.getLsbD j) h
  have hhigh : ∀ (z : UInt8) {j : ℕ}, 8 ≤ j → z.toBitVec.getLsbD j = false :=
    fun z _ hj => BitVec.getLsbD_of_ge _ _ hj
  refine ⟨?_, ?_, ?_⟩
  · refine UInt8.toBitVec_inj.mp (BitVec.eq_of_getLsbD_eq fun i hi => ?_)
    simpa [hi, show i < 16 by omega] using hbits i (by omega)
  · refine UInt8.toBitVec_inj.mp (BitVec.eq_of_getLsbD_eq fun i hi => ?_)
    simpa [hhigh _ (show 8 ≤ i + 8 by omega), show i + 8 < 16 by omega] using
      hbits (i + 8) (by omega)
  · refine UInt8.toBitVec_inj.mp (BitVec.eq_of_getLsbD_eq fun i hi => ?_)
    simpa [hhigh _ (show 8 ≤ i + 16 by omega), hhigh _ (show 8 ≤ i + 16 - 8 by omega)] using
      hbits (i + 16) (by omega)

end Mix
