import Mathlib.Algebra.Order.Ring.Nat
import Mathlib.Data.List.Induction
import Mathlib.Data.List.Lex
import Mathlib.Order.Defs.LinearOrder

/-!
# Byte strings

Byte strings are lists of bytes, ordered lexicographically.

* `be w n` and `ofBe` — numbers as `w` bytes, most significant first.
* `le w n` and `ofLe` — the same, least significant first.
* `readFull` — the first `n` bytes of a stream, if there are that many.
* `blit` — copying into a part of a buffer, with the bounds check of a slice expression.
-/

/-- A byte string. -/
abbrev Bytes := List UInt8

namespace Bytes

/-- Bytes are ordered by value. -/
instance : LinearOrder UInt8 where
  le_refl := UInt8.le_refl
  le_trans := fun _ _ _ => UInt8.le_trans
  le_antisymm := fun _ _ => UInt8.le_antisymm
  le_total := UInt8.le_total
  lt_iff_le_not_ge := by
    intro a b
    rw [UInt8.not_le]
    exact ⟨fun h => ⟨UInt8.le_of_lt h, h⟩, fun h => h.2⟩
  toDecidableLE := inferInstance
  toDecidableLT := inferInstance
  toDecidableEq := inferInstance

/-! ### Numbers -/

/-- The `w` bytes of `n`, most significant first. -/
def be : ℕ → ℕ → Bytes
  | 0, _ => []
  | w + 1, n => be w (n / 256) ++ [UInt8.ofNat n]

/-- The number with the given bytes, most significant first. -/
def ofBe (bs : Bytes) : ℕ := bs.foldl (fun n b => n * 256 + b.toNat) 0

/-- The `w` bytes of `n`, least significant first. -/
def le : ℕ → ℕ → Bytes
  | 0, _ => []
  | w + 1, n => UInt8.ofNat n :: le w (n / 256)

/-- The number with the given bytes, least significant first. -/
def ofLe : Bytes → ℕ
  | [] => 0
  | b :: bs => b.toNat + 256 * ofLe bs

@[simp] theorem length_be (w n : ℕ) : (be w n).length = w := by
  induction w generalizing n with
  | zero => rfl
  | succ w ih => simp [be, ih]

@[simp] theorem length_le (w n : ℕ) : (le w n).length = w := by
  induction w generalizing n with
  | zero => rfl
  | succ w ih => simp [le, ih]

/-- Reading back a number that was written with `w` bytes. -/
theorem ofBe_be (w n : ℕ) : ofBe (be w n) = n % 256 ^ w := by
  induction w generalizing n with
  | zero => simp [be, ofBe, Nat.mod_one]
  | succ w ih =>
    have hstep : ofBe (be (w + 1) n) = ofBe (be w (n / 256)) * 256 + n % 256 := by
      simp [be, ofBe, List.foldl_append]
    rw [hstep, ih, pow_succ', Nat.mod_mul]
    omega

theorem ofBe_append_singleton (bs : Bytes) (b : UInt8) :
    ofBe (bs ++ [b]) = ofBe bs * 256 + b.toNat := by
  simp [ofBe, List.foldl_append]

/-- Byte strings of one length that stand for one number are the same. -/
theorem ofBe_injective {bs cs : Bytes} (hlen : bs.length = cs.length) (h : ofBe bs = ofBe cs) :
    bs = cs := by
  induction bs using List.reverseRecOn generalizing cs with
  | nil => exact (List.eq_nil_of_length_eq_zero hlen.symm).symm
  | append_singleton bs b ih =>
    obtain ⟨cs, c, rfl⟩ : ∃ cs' c, cs = cs' ++ [c] := by
      rcases List.eq_nil_or_concat cs with rfl | ⟨cs', c, hcs⟩
      · simp at hlen
      · exact ⟨cs', c, by rw [hcs, List.concat_eq_append]⟩
    rw [ofBe_append_singleton, ofBe_append_singleton] at h
    have hb : b.toNat < 256 := b.toNat_lt
    have hc : c.toNat < 256 := c.toNat_lt
    have hlast : b = c := UInt8.toNat_inj.mp (by omega)
    rw [ih (by simpa using hlen) (by omega), hlast]

theorem foldl_be_lt (bs : Bytes) (n : ℕ) :
    bs.foldl (fun n b => n * 256 + b.toNat) n < (n + 1) * 256 ^ bs.length := by
  induction bs generalizing n with
  | nil => simp
  | cons b bs ih =>
    have hb : b.toNat < 256 := b.toNat_lt
    calc (b :: bs).foldl (fun n b => n * 256 + b.toNat) n
        < (n * 256 + b.toNat + 1) * 256 ^ bs.length := ih _
      _ ≤ ((n + 1) * 256) * 256 ^ bs.length := Nat.mul_le_mul_right _ (by omega)
      _ = (n + 1) * 256 ^ (b :: bs).length := by rw [List.length_cons, pow_succ', mul_assoc]

/-- What `w` bytes can hold. -/
theorem ofBe_take_lt (w : ℕ) (bs : Bytes) : ofBe (bs.take w) < 256 ^ w := by
  calc ofBe (bs.take w) < (0 + 1) * 256 ^ (bs.take w).length := foldl_be_lt _ 0
    _ = 256 ^ (bs.take w).length := by rw [zero_add, one_mul]
    _ ≤ 256 ^ w := Nat.pow_le_pow_right (by decide) (List.length_take_le _ _)

theorem ofLe_le (w n : ℕ) : ofLe (le w n) = n % 256 ^ w := by
  induction w generalizing n with
  | zero => simp [le, ofLe, Nat.mod_one]
  | succ w ih =>
    have hstep : ofLe (le (w + 1) n) = n % 256 + 256 * ofLe (le w (n / 256)) := by
      simp [le, ofLe]
    rw [hstep, ih, pow_succ', Nat.mod_mul]

/-- The same for the least significant byte first. -/
theorem ofLe_injective {bs cs : Bytes} (hlen : bs.length = cs.length) (h : ofLe bs = ofLe cs) :
    bs = cs := by
  induction bs generalizing cs with
  | nil => exact (List.eq_nil_of_length_eq_zero hlen.symm).symm
  | cons b bs ih =>
    cases cs with
    | nil => cases hlen
    | cons c cs =>
      have hb : b.toNat < 256 := b.toNat_lt
      have hc : c.toNat < 256 := c.toNat_lt
      rw [ofLe, ofLe] at h
      have hfirst : b = c := UInt8.toNat_inj.mp (by omega)
      rw [hfirst, ih (Nat.succ.inj hlen) (by omega)]

theorem ofLe_lt (bs : Bytes) : ofLe bs < 256 ^ bs.length := by
  induction bs with
  | nil => simp [ofLe]
  | cons b bs ih =>
    have hb : b.toNat < 256 := b.toNat_lt
    rw [ofLe, List.length_cons, pow_succ']
    omega

/-- What `w` bytes can hold, least significant first. -/
theorem ofLe_take_lt (w : ℕ) (bs : Bytes) : ofLe (bs.take w) < 256 ^ w := by
  calc ofLe (bs.take w) < 256 ^ (bs.take w).length := ofLe_lt _
    _ ≤ 256 ^ w := Nat.pow_le_pow_right (by decide) (List.length_take_le _ _)

/-! ### Streams -/

/-- The first `n` bytes and the rest, if there are that many. -/
def readFull (n : ℕ) (bs : Bytes) : Option (Bytes × Bytes) :=
  if n ≤ bs.length then some (bs.take n, bs.drop n) else none

/-- What is at the front of a stream can be read. -/
theorem readFull_append {n : ℕ} {bs : Bytes} (h : bs.length = n) (rest : Bytes) :
    readFull n (bs ++ rest) = some (bs, rest) := by
  subst h
  simp [readFull]

theorem readFull_of_lt {n : ℕ} {bs : Bytes} (h : bs.length < n) : readFull n bs = none :=
  if_neg (by omega)

theorem readFull_eq_some {n : ℕ} {bs front rest : Bytes} (h : readFull n bs = some (front, rest)) :
    front.length = n ∧ front ++ rest = bs := by
  unfold readFull at h
  split at h
  · cases h
    exact ⟨by rw [List.length_take]; omega, List.take_append_drop n bs⟩
  · cases h

/-! ### Changing one byte -/

/-- A part of a byte string in front of or behind the byte that changes. -/
theorem take_drop_set {bs : Bytes} {o n m : ℕ} (b : UInt8) (h : o < n ∨ n + m ≤ o) :
    ((bs.set o b).drop n).take m = (bs.drop n).take m := by
  rcases h with h | h
  · rw [List.drop_set_of_lt h]
  · rw [List.drop_set, if_neg (by omega), List.take_set_of_le (by omega)]

/-- A part of a byte string that contains the byte that changes. -/
theorem take_drop_set_of_le {bs : Bytes} {o n m : ℕ} (b : UInt8) (h : n ≤ o) :
    ((bs.set o b).drop n).take m = ((bs.drop n).take m).set (o - n) b := by
  rw [List.drop_set, if_neg (by omega), List.take_set]

/-- Byte strings that agree outside `n` bytes in a row, cut before and behind these. -/
theorem exists_burst {bs cs : Bytes} (hlen : cs.length = bs.length) {o n : ℕ}
    (h : ∀ i, i < o ∨ o + n ≤ i → cs[i]? = bs[i]?) :
    ∃ old new back, bs = bs.take o ++ (old ++ back) ∧ cs = bs.take o ++ (new ++ back) ∧
      new.length = old.length ∧ old.length ≤ n := by
  have hcut : ∀ xs : Bytes, xs = xs.take o ++ ((xs.drop o).take n ++ xs.drop (o + n)) := by
    intro xs
    rw [← List.drop_drop, List.take_append_drop, List.take_append_drop]
  have hfront : cs.take o = bs.take o := by
    apply List.ext_getElem?
    intro i
    rw [List.getElem?_take, List.getElem?_take]
    split
    · exact h i (Or.inl (by assumption))
    · rfl
  have hback : cs.drop (o + n) = bs.drop (o + n) := by
    apply List.ext_getElem?
    intro i
    rw [List.getElem?_drop, List.getElem?_drop]
    exact h (o + n + i) (Or.inr (by omega))
  refine ⟨(bs.drop o).take n, (cs.drop o).take n, bs.drop (o + n), hcut bs, ?_, ?_,
    List.length_take_le _ _⟩
  · rw [← hfront, ← hback]
    exact hcut cs
  · rw [List.length_take, List.length_take, List.length_drop, List.length_drop, hlen]

/-- A number one of whose bytes changes becomes another one. -/
theorem ofBe_set_ne {bs : Bytes} {o n w : ℕ} {b : UInt8} (ho : o < bs.length) (hb : b ≠ bs[o])
    (hlo : n ≤ o) (hhi : o < n + w) :
    ofBe (((bs.set o b).drop n).take w) ≠ ofBe ((bs.drop n).take w) := by
  rw [take_drop_set_of_le b hlo]
  intro h
  have hbytes := ofBe_injective (List.length_set ..) h
  have hget : ((bs.drop n).take w)[o - n]? = bs[o]? := by
    rw [List.getElem?_take_of_lt (by omega), List.getElem?_drop, Nat.add_sub_cancel' hlo]
  have hlt : o - n < ((bs.drop n).take w).length := by
    rw [List.length_take, List.length_drop]
    omega
  rw [← hbytes, List.getElem?_set_self hlt, List.getElem?_eq_getElem ho] at hget
  exact hb (Option.some.inj hget)

/-! ### Buffers -/

/-- The call `copy(buf[lo:hi], src)`; `none` is a slice bound out of range. -/
def blit (buf : Bytes) (lo hi : ℕ) (src : Bytes) : Option Bytes :=
  if lo ≤ hi ∧ hi ≤ buf.length then
    let src := src.take (hi - lo)
    some (buf.take lo ++ src ++ buf.drop (lo + src.length))
  else none

/-- Copying over a part of the same length replaces that part. -/
theorem blit_append (pre mid post src : Bytes) {lo hi : ℕ} (hlo : lo = pre.length)
    (hhi : hi = pre.length + mid.length) (hsrc : src.length = mid.length) :
    blit (pre ++ mid ++ post) lo hi src = some (pre ++ src ++ post) := by
  subst hlo hhi
  unfold blit
  rw [if_pos ⟨by omega, by simp⟩, Nat.add_sub_cancel_left, List.take_of_length_le (le_of_eq hsrc)]
  simp [hsrc]

/-- A copy within bounds keeps the length of the buffer. -/
theorem blit_eq_some {buf src out : Bytes} {lo hi : ℕ} (h : blit buf lo hi src = some out) :
    lo ≤ hi ∧ hi ≤ buf.length ∧ out.length = buf.length := by
  unfold blit at h
  split at h
  · rename_i hbounds
    refine ⟨hbounds.1, hbounds.2, ?_⟩
    rw [← Option.some.inj h]
    simp only [List.length_append, List.length_take, List.length_drop]
    omega
  · cases h

/-- A copy reads no more of the source than there is room for. -/
theorem blit_take (buf src : Bytes) {lo hi n : ℕ} (hn : hi - lo ≤ n) :
    blit buf lo hi (src.take n) = blit buf lo hi src := by
  unfold blit
  rw [List.take_take, min_eq_left hn]

end Bytes
