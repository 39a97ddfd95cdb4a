import Hallownest.Lib.Bytes

namespace Crc32

/-!
# CRC-32

The reflected CRC-32 with polynomial `0xEDB88320`, initial value and final xor `0xFFFFFFFF`
(the IEEE checksum), one bit at a time.

Each step is injective in the remainder (`update_injective`), so what follows a change cannot
undo it.  A bit is linear in the remainder, hence four bytes enter it as one number
(`foldl_update_eq`), and the checksum of a byte string changes with any change within four
bytes in a row (`checksum_burst_ne`).
-/

/-- One bit. -/
def shift (c : BitVec 32) : BitVec 32 :=
  if c.getLsbD 0 then (c >>> 1) ^^^ 0xEDB88320#32 else c >>> 1

/-- `n` bits. -/
def shifts : ℕ → BitVec 32 → BitVec 32
  | 0, c => c
  | n + 1, c => shifts n (shift c)

/-- One byte. -/
def update (c : BitVec 32) (b : UInt8) : BitVec 32 :=
  shifts 8 (c ^^^ b.toBitVec.setWidth 32)

/-- The checksum of a byte string. -/
def checksum (bs : Bytes) : BitVec 32 := (bs.foldl update 0xFFFFFFFF#32) ^^^ 0xFFFFFFFF#32

-- the standard check value, for the digits 1 to 9
example : checksum [49, 50, 51, 52, 53, 54, 55, 56, 57] = 0xCBF43926#32 := by decide +kernel

/-! ### What follows a change -/

/-- The bit that is shifted out comes back as the highest one. -/
theorem getLsbD_shift_top (c : BitVec 32) : (shift c).getLsbD 31 = c.getLsbD 0 := by
  unfold shift
  cases c.getLsbD 0 with
  | true => simp
  | false => simp

/-- One shift loses nothing. -/
theorem shift_injective : Function.Injective shift := by
  intro c d h
  have hlow : c.getLsbD 0 = d.getLsbD 0 := by
    rw [← getLsbD_shift_top, ← getLsbD_shift_top, h]
  have hhigh : c >>> 1 = d >>> 1 := by
    unfold shift at h
    rw [hlow] at h
    split at h
    · exact (BitVec.xor_left_inj _).mp h
    · exact h
  apply BitVec.eq_of_getLsbD_eq
  intro i _
  cases i with
  | zero => exact hlow
  | succ i =>
    have hbit := congrArg (fun x => x.getLsbD i) hhigh
    simpa [Nat.add_comm] using hbit

/-- Nor do several. -/
theorem shifts_injective (n : ℕ) : Function.Injective (shifts n) := by
  induction n with
  | zero => exact fun _ _ h => h
  | succ n ih => exact fun _ _ h => shift_injective (ih h)

/-- A byte takes different states to different states. -/
theorem update_injective (b : UInt8) : Function.Injective fun c => update c b :=
  fun _ _ h => (BitVec.xor_left_inj _).mp (shifts_injective 8 h)

/-- What follows keeps different remainders apart. -/
theorem foldl_update_injective (bs : Bytes) : Function.Injective fun c => bs.foldl update c := by
  induction bs with
  | nil => exact fun _ _ h => h
  | cons b bs ih => exact fun _ _ h => update_injective b (ih h)

/-! ### Short bursts -/

/-- One bit is linear. -/
theorem shift_xor (c d : BitVec 32) : shift (c ^^^ d) = shift c ^^^ shift d := by
  have hcancel : ∀ x y p : BitVec 32, x ^^^ p ^^^ (y ^^^ p) = x ^^^ y := by
    intro x y p
    rw [BitVec.xor_assoc, ← BitVec.xor_assoc p, BitVec.xor_comm p, BitVec.xor_assoc y,
      BitVec.xor_self, BitVec.xor_zero]
  unfold shift
  rw [BitVec.getLsbD_xor, BitVec.ushiftRight_xor_distrib]
  cases c.getLsbD 0 with
  | false =>
    cases d.getLsbD 0 with
    | false => rfl
    | true => exact BitVec.xor_assoc _ _ _
  | true =>
    cases d.getLsbD 0 with
    | false =>
      show c >>> 1 ^^^ d >>> 1 ^^^ _ = c >>> 1 ^^^ _ ^^^ d >>> 1
      rw [BitVec.xor_assoc, BitVec.xor_comm (d >>> 1), BitVec.xor_assoc]
    | true => exact (hcancel _ _ _).symm

/-- Shifts are linear. -/
theorem shifts_xor (n : ℕ) (c d : BitVec 32) : shifts n (c ^^^ d) = shifts n c ^^^ shifts n d := by
  induction n generalizing c d with
  | zero => rfl
  | succ n ih => rw [shifts, shift_xor, ih, shifts, shifts]

theorem shifts_add (n m : ℕ) (c : BitVec 32) : shifts (n + m) c = shifts m (shifts n c) := by
  induction n generalizing c with
  | zero => rw [Nat.zero_add, shifts]
  | succ n ih => rw [Nat.succ_add, shifts, ih, shifts]

/-- A word whose lowest bit is clear is halved. -/
theorem shift_double {k : ℕ} (h : 2 * k < 2 ^ 32) :
    shift (BitVec.ofNat 32 (2 * k)) = BitVec.ofNat 32 k := by
  have hlow : (BitVec.ofNat 32 (2 * k)).getLsbD 0 = false := by
    rw [BitVec.getLsbD_ofNat, Nat.testBit_zero, Nat.mul_mod_right]
    rfl
  unfold shift
  rw [hlow]
  apply BitVec.eq_of_toNat_eq
  simp only [Bool.false_eq_true, if_false, BitVec.toNat_ushiftRight, BitVec.toNat_ofNat,
    Nat.shiftRight_one]
  omega

/-- Zeros are shifted out without a trace. -/
theorem shifts_ofNat (n : ℕ) {k : ℕ} (h : k * 2 ^ n < 2 ^ 32) :
    shifts n (BitVec.ofNat 32 (k * 2 ^ n)) = BitVec.ofNat 32 k := by
  induction n with
  | zero => rw [pow_zero, mul_one, shifts]
  | succ n ih =>
    have hdouble : k * 2 ^ (n + 1) = 2 * (k * 2 ^ n) := by rw [pow_succ, ← mul_assoc, mul_comm]
    rw [hdouble] at h ⊢
    rw [shifts, shift_double h, ih (by omega)]

/-- A byte in front of a number takes its lowest eight bits. -/
theorem ofNat_cons (b : UInt8) (w : ℕ) : BitVec.ofNat 32 (b.toNat + 256 * w) =
    b.toBitVec.setWidth 32 ^^^ BitVec.ofNat 32 (w * 2 ^ 8) := by
  have hb : b.toNat < 2 ^ 8 := b.toNat_lt
  apply BitVec.eq_of_getLsbD_eq
  intro i hi
  rw [Nat.add_comm, show 256 = 2 ^ 8 from rfl]
  simp only [BitVec.getLsbD_ofNat, BitVec.getLsbD_xor, BitVec.getLsbD_setWidth, hi, decide_true,
    Bool.true_and, Nat.testBit_two_pow_mul_add w hb, Nat.testBit_mul_two_pow]
  by_cases hlow : i < 8
  · have hle : ¬ 8 ≤ i := by omega
    simp only [if_pos hlow, hle, decide_false, Bool.false_and, Bool.xor_false]
    rfl
  · have hhigh : b.toBitVec.getLsbD i = false := BitVec.getLsbD_of_ge _ _ (by omega)
    have hle : 8 ≤ i := by omega
    simp only [if_neg hlow, hle, decide_true, Bool.true_and, hhigh, Bool.false_xor]

/-- **Up to four bytes** enter the remainder as one number. -/
theorem foldl_update_eq (c : BitVec 32) (bs : Bytes) (h : bs.length ≤ 4) :
    bs.foldl update c = shifts (8 * bs.length) (c ^^^ BitVec.ofNat 32 (Bytes.ofLe bs)) := by
  induction bs generalizing c with
  | nil => simp [shifts, Bytes.ofLe]
  | cons b bs ih =>
    rw [List.length_cons] at h
    have hlt : Bytes.ofLe bs * 2 ^ 8 < 2 ^ 32 := by
      have hbound : Bytes.ofLe bs < 256 ^ bs.length := Bytes.ofLe_lt bs
      have hpow : 256 ^ bs.length ≤ 256 ^ 3 := Nat.pow_le_pow_right (by decide) (by omega)
      omega
    calc (b :: bs).foldl update c
        = shifts (8 * bs.length) (update c b ^^^ BitVec.ofNat 32 (Bytes.ofLe bs)) :=
          ih (update c b) (by omega)
      _ = shifts (8 * bs.length) (shifts 8 (c ^^^ b.toBitVec.setWidth 32) ^^^
            shifts 8 (BitVec.ofNat 32 (Bytes.ofLe bs * 2 ^ 8))) := by
          rw [shifts_ofNat 8 hlt]
          rfl
      _ = shifts (8 * (bs.length + 1)) (c ^^^ BitVec.ofNat 32 (Bytes.ofLe (b :: bs))) := by
          rw [← shifts_xor, ← shifts_add, BitVec.xor_assoc, ← ofNat_cons, Nat.mul_succ,
            Nat.add_comm 8]
          rfl

/-- Up to four bytes can be told from the remainder behind them. -/
theorem foldl_update_bytes_injective (c : BitVec 32) {bs cs : Bytes}
    (hlen : bs.length = cs.length) (hfour : bs.length ≤ 4)
    (h : bs.foldl update c = cs.foldl update c) : bs = cs := by
  have hbound : ∀ xs : Bytes, xs.length ≤ 4 → Bytes.ofLe xs < 2 ^ 32 := by
    intro xs hxs
    calc Bytes.ofLe xs < 256 ^ xs.length := Bytes.ofLe_lt xs
      _ ≤ 256 ^ 4 := Nat.pow_le_pow_right (by decide) hxs
  rw [foldl_update_eq c bs hfour, foldl_update_eq c cs (by omega), hlen] at h
  have hword := (BitVec.xor_right_inj _).mp (shifts_injective _ h)
  have hnat := congrArg BitVec.toNat hword
  rw [BitVec.toNat_ofNat, BitVec.toNat_ofNat, Nat.mod_eq_of_lt (hbound bs hfour),
    Nat.mod_eq_of_lt (hbound cs (by omega))] at hnat
  exact Bytes.ofLe_injective hlen hnat

/-- **A changed burst of up to four bytes changes the checksum.** -/
theorem checksum_burst_ne {old new : Bytes} (hlen : new.length = old.length)
    (hfour : old.length ≤ 4) (hne : new ≠ old) (front back : Bytes) :
    checksum (front ++ (new ++ back)) ≠ checksum (front ++ (old ++ back)) := by
  intro h
  have hfold := (BitVec.xor_left_inj _).mp h
  rw [List.foldl_append, List.foldl_append, List.foldl_append, List.foldl_append] at hfold
  have hburst := foldl_update_injective back hfold
  exact hne (foldl_update_bytes_injective _ hlen (by omega) hburst)

end Crc32
