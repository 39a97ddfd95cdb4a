import Hallownest.Lib.Bytes
import Hallownest.Lib.Run

namespace BitSet

/-!
# Sets of bits in a byte string

Bit `i` of a byte string is bit `i % 8` of byte `i / 8`.  An access outside the byte string is
undefined, written `none`.

* `set`, `test` — one bit.
* `setAll`, `testAll` — the bits at a list of positions.  Setting bits loses none that were
  set before (`setAll_spec`), so what was recognised once stays recognised
  (`testAll_eq_true`), which is why a Bloom filter has no false negatives.
* `test_setAll`, `testAll_eq`, `eq_of_test` — exactly which bits are set, and that they are all
  there is to a byte string.
-/

variable {bs bs' : Bytes} {i j : ℕ}

/-- The byte with bit `i % 8` set. -/
def mask (i : ℕ) : UInt8 := 1 <<< UInt8.ofNat (i % 8)

/-- Set bit `i`. -/
def set (bs : Bytes) (i : ℕ) : Option Bytes :=
  bs[i / 8]?.map fun b => bs.set (i / 8) (b ||| mask i)

/-- Whether bit `i` is set. -/
def test (bs : Bytes) (i : ℕ) : Option Bool := bs[i / 8]?.map fun b => b &&& mask i != 0

theorem mask_ne_zero (i : ℕ) : mask i ≠ 0 := by
  have hall : ∀ k < 8, (1 : UInt8) <<< UInt8.ofNat k ≠ 0 := by decide
  exact hall (i % 8) (Nat.mod_lt _ (by decide))

theorem or_and (b c m : UInt8) : (b ||| c) &&& m = (b &&& m) ||| (c &&& m) :=
  UInt8.toBitVec_inj.mp BitVec.and_or_distrib_right

theorem mask_and_mask {i j : ℕ} (h : i % 8 ≠ j % 8) : mask i &&& mask j = 0 := by
  have hmasks : ∀ k < 8, ∀ l < 8, k ≠ l →
      ((1 : UInt8) <<< UInt8.ofNat k) &&& (1 <<< UInt8.ofNat l) = 0 := by decide
  exact hmasks _ (Nat.mod_lt _ (by decide)) _ (Nat.mod_lt _ (by decide)) h

/-- A bit after one was set. -/
theorem test_set (h : set bs i = some bs') (j : ℕ) :
    test bs' j = if j = i then some true else test bs j := by
  obtain ⟨b, hget, rfl⟩ := Option.map_eq_some_iff.mp h
  obtain ⟨hlt, rfl⟩ := List.getElem?_eq_some_iff.mp hget
  by_cases hji : j = i
  · subst hji
    have hself : (bs[j / 8] ||| mask j) &&& mask j ≠ 0 := by
      rw [or_and, UInt8.and_self]
      exact fun hzero => mask_ne_zero j (UInt8.or_eq_zero_iff.mp hzero).2
    simp [test, hlt, hself]
  · rw [if_neg hji]
    by_cases hbyte : i / 8 = j / 8
    · -- another bit of the same byte
      have hkeep : (bs[i / 8] ||| mask i) &&& mask j = bs[i / 8] &&& mask j := by
        rw [or_and, mask_and_mask (by omega), UInt8.or_zero]
      simp only [test, ← hbyte, List.getElem?_set_self hlt, hget, Option.map_some, hkeep]
    · simp only [test, List.getElem?_set_ne hbyte]

/-- Setting a bit within bounds keeps the length, sets that bit and loses none. -/
theorem set_spec (h : i < 8 * bs.length) : ∃ bs', set bs i = some bs' ∧
    bs'.length = bs.length ∧ test bs' i = some true ∧
    ∀ j, test bs j = some true → test bs' j = some true := by
  have hlt : i / 8 < bs.length := by omega
  have hset : set bs i = some (bs.set (i / 8) (bs[i / 8] ||| mask i)) := by
    rw [set, List.getElem?_eq_getElem hlt]
    rfl
  refine ⟨_, hset, by simp, by rw [test_set hset, if_pos rfl], fun j hj => ?_⟩
  rw [test_set hset]
  split
  · rfl
  · exact hj

/-- A test within bounds has a result. -/
theorem test_isSome (h : i < 8 * bs.length) : ∃ b, test bs i = some b := by
  have hlt : i / 8 < bs.length := by omega
  exact ⟨_, by rw [test, List.getElem?_eq_getElem hlt]; rfl⟩

/-! ### Lists of positions -/

/-- Set the bits at the given positions. -/
def setAll (is : List ℕ) (bs : Bytes) : Option Bytes := is.foldlM set bs

/-- Whether the bits at the given positions are all set; the loop ends at the first one that
    is not. -/
def testAll (bs : Bytes) : List ℕ → Option Bool
  | [] => some true
  | i :: is => do if ← test bs i then testAll bs is else return false

theorem testAll_eq_true {is : List ℕ} (h : ∀ i ∈ is, test bs i = some true) :
    testAll bs is = some true := by
  induction is with
  | nil => rfl
  | cons i is ih =>
    rw [testAll, h i (by simp)]
    exact ih fun j hj => h j (by simp [hj])

/-- Tests within bounds have a result. -/
theorem testAll_isSome {is : List ℕ} (h : ∀ i ∈ is, i < 8 * bs.length) :
    ∃ b, testAll bs is = some b := by
  induction is with
  | nil => exact ⟨true, rfl⟩
  | cons i is ih =>
    obtain ⟨b, hb⟩ := test_isSome (h i (by simp))
    obtain ⟨c, hc⟩ := ih fun j hj => h j (by simp [hj])
    cases b with
    | false => exact ⟨false, by rw [testAll, hb]; rfl⟩
    | true => exact ⟨c, by rw [testAll, hb]; exact hc⟩

/-- Setting bits within bounds keeps the length, sets those bits and loses none. -/
theorem setAll_spec {is : List ℕ} {bs : Bytes} (h : ∀ i ∈ is, i < 8 * bs.length) :
    ∃ bs', setAll is bs = some bs' ∧ bs'.length = bs.length ∧
      (∀ i ∈ is, test bs' i = some true) ∧ ∀ j, test bs j = some true → test bs' j = some true := by
  refine Run.exists_foldlM (m := Option) (I := fun done bs' => bs'.length = bs.length ∧
    (∀ i ∈ done, test bs' i = some true) ∧ ∀ j, test bs j = some true → test bs' j = some true)
    ⟨rfl, by simp, fun _ hj => hj⟩ ?_
  rintro done i rest bs₁ his ⟨hlen₁, hall₁, hkeep₁⟩
  have hi : i < 8 * bs₁.length := by
    rw [hlen₁]
    exact h i (by rw [his]; simp)
  obtain ⟨bs', hset, hlen, hnew, hkeep⟩ := set_spec hi
  refine ⟨bs', hset, hlen.trans hlen₁, ?_, fun j hj => hkeep j (hkeep₁ j hj)⟩
  intro j hj
  rcases List.mem_append.mp hj with hj | hj
  · exact hkeep j (hall₁ j hj)
  · rw [List.mem_singleton.mp hj]
    exact hnew

/-! ### Exactly which bits are set -/

/-- **A bit after several were set.** -/
theorem test_setAll {is : List ℕ} (h : setAll is bs = some bs') (j : ℕ) :
    test bs' j = if j ∈ is then some true else test bs j := by
  induction is generalizing bs with
  | nil =>
    obtain rfl := Option.some.inj h
    simp
  | cons i is ih =>
    obtain ⟨bs₁, hset, hrest⟩ := Option.bind_eq_some_iff.mp h
    rw [ih hrest, test_set hset]
    by_cases hmem : j ∈ is
    · simp [hmem]
    · simp [hmem]

/-- A loop of tests is one question. -/
theorem testAll_eq {is : List ℕ} (h : ∀ i ∈ is, i < 8 * bs.length) :
    testAll bs is = some (decide (∀ i ∈ is, test bs i = some true)) := by
  obtain ⟨b, hb⟩ := testAll_isSome h
  rw [hb, Option.some.injEq, eq_comm]
  induction is with
  | nil => simpa [testAll] using hb
  | cons i is ih =>
    obtain ⟨c, hc⟩ := test_isSome (h i (by simp))
    rw [testAll, hc] at hb
    cases c with
    | false =>
      obtain rfl : false = b := Option.some.inj hb
      simp [hc]
    | true =>
      rw [← ih (fun j hj => h j (by simp [hj])) hb]
      simp [hc]

theorem and_mask (b : UInt8) {k : ℕ} (hk : k < 8) : (b &&& mask k != 0) = b.toBitVec.getLsbD k := by
  have hmask : ∀ k < 8, (mask k).toBitVec = BitVec.twoPow 8 k := by decide
  have hpow : ∀ k < 8, BitVec.twoPow 8 k ≠ 0#8 := by decide
  have hand : (b &&& mask k).toBitVec =
      if b.toBitVec.getLsbD k then BitVec.twoPow 8 k else 0#8 := by
    rw [UInt8.toBitVec_and, hmask k hk, BitVec.and_twoPow]
  cases hbit : b.toBitVec.getLsbD k with
  | false =>
    rw [hbit] at hand
    simpa using UInt8.toBitVec_inj.mp hand
  | true =>
    rw [hbit] at hand
    have hne : b &&& mask k ≠ 0 := by
      intro hzero
      rw [hzero, if_pos rfl] at hand
      exact hpow k hk hand.symm
    simpa using hne

/-- **Byte strings with the same bits are the same.** -/
theorem eq_of_test (hlen : bs'.length = bs.length) (h : ∀ j, test bs' j = test bs j) :
    bs' = bs := by
  refine List.ext_getElem hlen fun k hk hk' => ?_
  refine UInt8.toBitVec_inj.mp (BitVec.eq_of_getLsbD_eq fun l hl => ?_)
  have hbit := h (8 * k + l)
  have hdiv : (8 * k + l) / 8 = k := by omega
  have hmask : mask (8 * k + l) = mask l := by
    unfold mask
    rw [Nat.mul_add_mod]
  simpa [test, hdiv, hmask, hk, hk', and_mask _ hl] using hbit

end BitSet
