import Hallownest.Lib.BitSet

namespace Hallownest.Storage

/-!
# Storage — the Lumafly Bloom filter (`lumafly_bloom.cpp`)

Undefined behaviour of the C++ code (a division by zero, an access outside `bit_array`) is
`none`.  The host is little-endian, and `size_t` is `uint64_t`.  `lumafly_create`, which computes
the dimensions in floating point, is a parameter of whoever builds a filter; `Zeroed` is what
it returns.

* `Covers` — the bits of a set of keys are set.  Adding a key keeps it and adds the key
  (`lumaflyAdd_spec`), and no key of the set is missed (`contains_of_covers`).
* `lumaflyDeserialize_bytes` — a filter survives serialisation.
* `no_false_negatives` — both for any number of keys, from an array of zeros on.
* `decodesUsable_iff` — the decoder computes the number of bytes in 64 bits and compares the
  length of the buffer with that, so it also accepts headers for which no array is needed but
  the tests use one.
-/

/-- One round over a block of four bytes. -/
def murmurBlock (h1 k1 : UInt32) : UInt32 :=
  let k1 := k1 * 0xcc9e2d51
  let k1 := (k1 <<< 15) ||| (k1 >>> (32 - 15))
  let k1 := k1 * 0x1b873593
  let h1 := h1 ^^^ k1
  let h1 := (h1 <<< 13) ||| (h1 >>> (32 - 13))
  h1 * 5 + 0xe6546b64

/-- The rounds over the blocks; returns the bytes that are left over as well. -/
def murmurBlocks : UInt32 → Bytes → UInt32 × Bytes
  | h1, a :: b :: c :: d :: rest =>
    murmurBlocks (murmurBlock h1 (UInt32.ofNat (Bytes.ofLe [a, b, c, d]))) rest
  | h1, tail => (h1, tail)

/-- The last up to three bytes. -/
def murmurTail (h1 : UInt32) (tail : Bytes) : UInt32 :=
  let finish (k1 : UInt32) : UInt32 :=
    let k1 := k1 * 0xcc9e2d51
    let k1 := (k1 <<< 15) ||| (k1 >>> (32 - 15))
    let k1 := k1 * 0x1b873593
    h1 ^^^ k1
  match tail with
  | [a, b, c] => finish ((c.toUInt32 <<< 16) ^^^ (b.toUInt32 <<< 8) ^^^ a.toUInt32)
  | [a, b] => finish ((b.toUInt32 <<< 8) ^^^ a.toUInt32)
  | [a] => finish a.toUInt32
  | _ => h1

/-- The hash function (`murmurhash3_32`). -/
def murmurhash3_32 (key : Bytes) (seed : UInt32) : UInt32 :=
  let (h1, tail) := murmurBlocks seed key
  let h1 := murmurTail h1 tail
  let h1 := h1 ^^^ UInt32.ofNat key.length
  let h1 := h1 ^^^ (h1 >>> 16)
  let h1 := h1 * 0x85ebca6b
  let h1 := h1 ^^^ (h1 >>> 13)
  let h1 := h1 * 0xc2b2ae35
  h1 ^^^ (h1 >>> 16)

/-- The filter (`LumaflyBloom`). -/
structure LumaflyBloom where
  numBits : ℕ
  numHashes : ℕ
  bitArray : Bytes
  deriving DecidableEq, Repr

/-- The bit that the `i`-th hash of a key selects; there is none without bits. -/
def bitIdx (bf : LumaflyBloom) (key : Bytes) (i : ℕ) : Option ℕ :=
  let h1 := murmurhash3_32 key 0x9747b28c
  let h2 := murmurhash3_32 key h1
  let combinedHash := h1 + UInt32.ofNat i * h2
  if bf.numBits = 0 then none else some (combinedHash.toNat % bf.numBits)

/-- The bits that a key selects. -/
def bitIdxs (bf : LumaflyBloom) (key : Bytes) : Option (List ℕ) :=
  (List.range bf.numHashes).mapM (bitIdx bf key)

/-- Add a key (`lumafly_add`). -/
def lumaflyAdd (bf : LumaflyBloom) (key : Bytes) : Option LumaflyBloom := do
  let bits ← (← bitIdxs bf key).foldlM BitSet.set bf.bitArray
  return { bf with bitArray := bits }

/-- Whether a key may have been added (`lumafly_contains`). -/
def lumaflyContains (bf : LumaflyBloom) (key : Bytes) : Option Bool := do
  BitSet.testAll bf.bitArray (← bitIdxs bf key)

/-- Length of the serialised filter (`lumafly_get_serialized_size`). -/
def lumaflyGetSerializedSize (bf : LumaflyBloom) : ℕ := 8 * 2 + bf.bitArray.length

/-- Write a filter into a buffer of the given length (`lumafly_serialize`); `none` if it does
    not fit. -/
def lumaflySerialize (bf : LumaflyBloom) (bufLen : ℕ) : Option Bytes :=
  if bufLen < lumaflyGetSerializedSize bf then none
  else some (Bytes.le 8 bf.numBits ++ Bytes.le 8 bf.numHashes ++ bf.bitArray ++
    List.replicate (bufLen - lumaflyGetSerializedSize bf) 0)

/-- Read a filter (`lumafly_deserialize`); `none` is a null pointer. -/
def lumaflyDeserialize (buf : Bytes) : Option LumaflyBloom :=
  if buf.length < 8 * 2 then none
  else
    let bits := Bytes.ofLe (buf.take 8)
    let hashes := Bytes.ofLe ((buf.drop 8).take 8)
    let numBytes := (bits + 7) % 2 ^ 64 / 8
    if buf.length < 8 * 2 + numBytes then none
    else some { numBits := bits, numHashes := hashes, bitArray := (buf.drop 16).take numBytes }

namespace LumaflyBloom

variable {bf : LumaflyBloom} {key : Bytes}

/-- A usable filter: there is a bit for every index. -/
structure WellFormed (bf : LumaflyBloom) : Prop where
  numBits_pos : 0 < bf.numBits
  numBits_lt : bf.numBits + 7 < 2 ^ 64
  numHashes_lt : bf.numHashes < 2 ^ 64
  length_bitArray : bf.bitArray.length = (bf.numBits + 7) / 8

/-- What `lumafly_create` returns: at least 64 bits, all zero, and at least one hash. -/
structure Zeroed (bf : LumaflyBloom) : Prop where
  numBits_ge : 64 ≤ bf.numBits
  numBits_lt : bf.numBits + 7 < 2 ^ 64
  numHashes_ge : 1 ≤ bf.numHashes
  numHashes_lt : bf.numHashes < 2 ^ 64
  bitArray_eq : bf.bitArray = List.replicate ((bf.numBits + 7) / 8) 0

theorem Zeroed.wellFormed (h : bf.Zeroed) : bf.WellFormed where
  numBits_pos := by have := h.numBits_ge; omega
  numBits_lt := h.numBits_lt
  numHashes_lt := h.numHashes_lt
  length_bitArray := by rw [h.bitArray_eq, List.length_replicate]

/-- The position of the `i`-th hash of a key among `numBits` bits. -/
def position (numBits : ℕ) (key : Bytes) (i : ℕ) : ℕ :=
  (murmurhash3_32 key 0x9747b28c +
    UInt32.ofNat i * murmurhash3_32 key (murmurhash3_32 key 0x9747b28c)).toNat % numBits

/-- The bits that a key selects in a usable filter. -/
def positions (bf : LumaflyBloom) (key : Bytes) : List ℕ :=
  (List.range bf.numHashes).map (position bf.numBits key)

theorem bitIdx_eq (h : bf.WellFormed) (key : Bytes) (i : ℕ) :
    bitIdx bf key i = some (position bf.numBits key i) :=
  if_neg (Nat.ne_of_gt h.numBits_pos)

theorem bitIdxs_eq (h : bf.WellFormed) (key : Bytes) :
    bitIdxs bf key = some (bf.positions key) := by
  unfold bitIdxs positions
  rw [funext (bitIdx_eq h key)]
  exact List.mapM_pure

theorem position_lt (h : bf.WellFormed) (key : Bytes) (i : ℕ) :
    position bf.numBits key i < 8 * bf.bitArray.length := by
  have hlt : position bf.numBits key i < bf.numBits := Nat.mod_lt _ h.numBits_pos
  rw [h.length_bitArray]
  omega

theorem positions_lt (h : bf.WellFormed) (key : Bytes) :
    ∀ i ∈ bf.positions key, i < 8 * bf.bitArray.length := by
  intro i hi
  obtain ⟨j, _, rfl⟩ := List.mem_map.mp hi
  exact position_lt h key j

/-- The bits of all keys in `keys` are set. -/
def Covers (bf : LumaflyBloom) (keys : List Bytes) : Prop :=
  ∀ key ∈ keys, ∀ i ∈ bf.positions key, BitSet.test bf.bitArray i = some true

/-- **Adding a key** keeps the filter usable, covers the key and loses none. -/
theorem lumaflyAdd_spec (h : bf.WellFormed) {keys : List Bytes} (hc : bf.Covers keys)
    (key : Bytes) : ∃ bf', lumaflyAdd bf key = some bf' ∧ bf'.WellFormed ∧
      bf'.Covers (keys ++ [key]) ∧ bf'.bitArray.length = bf.bitArray.length := by
  obtain ⟨bits, hrun, hlen, hset, hkeep⟩ := BitSet.setAll_spec (positions_lt h key)
  refine ⟨{ bf with bitArray := bits }, ?_, ?_, ?_, hlen⟩
  · unfold lumaflyAdd
    rw [bitIdxs_eq h]
    show (BitSet.setAll (bf.positions key) bf.bitArray).bind _ = _
    rw [hrun]
    rfl
  · exact { h with length_bitArray := hlen.trans h.length_bitArray }
  · intro k hk i hi
    rcases List.mem_append.mp hk with hk | hk
    · exact hkeep i (hc k hk i hi)
    · rw [List.mem_singleton] at hk
      subst hk
      exact hset i hi

/-- **No false negatives.** -/
theorem contains_of_covers (h : bf.WellFormed) {keys : List Bytes} (hc : bf.Covers keys)
    (hkey : key ∈ keys) : lumaflyContains bf key = some true := by
  unfold lumaflyContains
  rw [bitIdxs_eq h]
  exact BitSet.testAll_eq_true (hc key hkey)

/-- A test on a usable filter has a result. -/
theorem contains_isSome (h : bf.WellFormed) (key : Bytes) :
    ∃ b, lumaflyContains bf key = some b := by
  unfold lumaflyContains
  rw [bitIdxs_eq h]
  exact BitSet.testAll_isSome (positions_lt h key)

/-- The serialised form of a filter. -/
def bytes (bf : LumaflyBloom) : Bytes :=
  Bytes.le 8 bf.numBits ++ Bytes.le 8 bf.numHashes ++ bf.bitArray

theorem length_bytes (bf : LumaflyBloom) : bf.bytes.length = lumaflyGetSerializedSize bf := by
  simp [bytes, lumaflyGetSerializedSize]
  omega

/-- Serialisation into a buffer of the size that was asked for. -/
theorem lumaflySerialize_eq (bf : LumaflyBloom) :
    lumaflySerialize bf (lumaflyGetSerializedSize bf) = some bf.bytes := by
  unfold lumaflySerialize
  rw [if_neg (lt_irrefl _), Nat.sub_self, List.replicate_zero, List.append_nil]
  rfl

/-- **A filter survives serialisation.** -/
theorem lumaflyDeserialize_bytes (h : bf.WellFormed) : lumaflyDeserialize bf.bytes = some bf := by
  -- the three fields at their places
  have hbits : Bytes.ofLe (bf.bytes.take 8) = bf.numBits := by
    have htake : bf.bytes.take 8 = Bytes.le 8 bf.numBits := by
      unfold bytes
      rw [List.append_assoc, List.take_left' (Bytes.length_le _ _)]
    have := h.numBits_lt
    rw [htake, Bytes.ofLe_le, Nat.mod_eq_of_lt (by omega)]
  have hhashes : Bytes.ofLe ((bf.bytes.drop 8).take 8) = bf.numHashes := by
    have hdrop : bf.bytes.drop 8 = Bytes.le 8 bf.numHashes ++ bf.bitArray := by
      unfold bytes
      rw [List.append_assoc, List.drop_left' (Bytes.length_le _ _)]
    have := h.numHashes_lt
    rw [hdrop, List.take_left' (Bytes.length_le _ _), Bytes.ofLe_le, Nat.mod_eq_of_lt (by omega)]
  have hrest : bf.bytes.drop 16 = bf.bitArray := by
    unfold bytes
    exact List.drop_left' (by simp)
  have hnum : (bf.numBits + 7) % 2 ^ 64 / 8 = bf.bitArray.length := by
    rw [Nat.mod_eq_of_lt h.numBits_lt, h.length_bitArray]
  have hlen : bf.bytes.length = 8 * 2 + bf.bitArray.length := bf.length_bytes
  unfold lumaflyDeserialize
  dsimp only
  rw [hbits, hhashes, hnum, hrest, if_neg (by omega), if_neg (by omega), List.take_length]

/-! ### Filters in memory -/

/-- Adding keys one after another. -/
private theorem lumaflyAdd_all (h : bf.WellFormed) (keys : List Bytes) :
    ∃ bf', keys.foldlM lumaflyAdd bf = some bf' ∧ bf'.WellFormed ∧ bf'.Covers keys := by
  have hnone : bf.Covers [] := fun key hkey => absurd hkey List.not_mem_nil
  refine Run.exists_foldlM (m := Option)
    (I := fun added (bf' : LumaflyBloom) => bf'.WellFormed ∧ bf'.Covers added) ⟨h, hnone⟩ ?_
  rintro added key rest bf₁ _ ⟨h₁, hc₁⟩
  obtain ⟨bf', hadd, h', hc', _⟩ := lumaflyAdd_spec h₁ hc₁ key
  exact ⟨bf', hadd, h', hc'⟩

/-- **The filter never denies a key that was added**, also after it was written and read back,
    where it answers as before for every key; every bit it selects lies in the array. -/
theorem no_false_negatives (bf : LumaflyBloom) (hbits : 1 ≤ bf.numBits)
    (hwrap : bf.numBits + 7 < 2 ^ 64) (hsize : bf.numHashes < 2 ^ 64)
    (hzero : bf.bitArray = List.replicate ((bf.numBits + 7) / 8) 0) (keys : List Bytes) :
    ∃ bf', keys.foldlM lumaflyAdd bf = some bf' ∧
      (∀ key i, ∃ j, bitIdx bf' key i = some j ∧ j / 8 < bf'.bitArray.length) ∧
      (∀ key ∈ keys, lumaflyContains bf' key = some true) ∧
      ∃ buf, lumaflySerialize bf' (lumaflyGetSerializedSize bf') = some buf ∧
        buf.length = lumaflyGetSerializedSize bf' ∧
        ∃ bf'', lumaflyDeserialize buf = some bf'' ∧
          ∀ key, ∃ b, lumaflyContains bf' key = some b ∧ lumaflyContains bf'' key = some b := by
  have hfresh : bf.WellFormed :=
    { numBits_pos := hbits
      numBits_lt := hwrap
      numHashes_lt := hsize
      length_bitArray := by rw [hzero, List.length_replicate] }
  obtain ⟨bf', hrun, h', hc'⟩ := lumaflyAdd_all hfresh keys
  refine ⟨bf', hrun, ?_, ?_, bf'.bytes, lumaflySerialize_eq bf', length_bytes bf', bf',
    lumaflyDeserialize_bytes h', ?_⟩
  · intro key i
    have hlt := position_lt h' key i
    exact ⟨_, bitIdx_eq h' key i, by omega⟩
  · intro key hkey
    exact contains_of_covers h' hc' hkey
  · intro key
    obtain ⟨b, hb⟩ := contains_isSome h' key
    exact ⟨b, hb, hb⟩

/-- Nine bits and two hashes, after two keys. -/
theorem no_false_negatives_nine : ∃ bf', [[1], []].foldlM lumaflyAdd ⟨9, 2, [0, 0]⟩ = some bf' ∧
    lumaflyContains bf' [] = some true := by
  obtain ⟨bf', hrun, _, hall, _⟩ := no_false_negatives ⟨9, 2, [0, 0]⟩ (by decide) (by decide)
    (by decide) rfl [[1], []]
  exact ⟨bf', hrun, hall [] (by decide)⟩

/-! ### Filters from a buffer -/

/-- The number of bits that a filter block asks for. -/
def bitsOf (buf : Bytes) : ℕ := Bytes.ofLe (buf.take 8)

/-- The decoder returns a null pointer, or a filter with a bit for every index, which can be
    asked about every key. -/
def DecodesUsable (buf : Bytes) : Prop :=
  lumaflyDeserialize buf = none ∨ ∃ bf, lumaflyDeserialize buf = some bf ∧ 1 ≤ bf.numBits ∧
    bf.numBits ≤ 8 * bf.bitArray.length ∧ ∀ key, ∃ b, lumaflyContains bf key = some b

/-- What is accepted is usable, if the count of bytes was not computed with a carry. -/
private theorem wellFormed_of_deserialize {buf : Bytes} (hpos : 1 ≤ bitsOf buf)
    (hwrap : bitsOf buf + 7 < 2 ^ 64) (h : lumaflyDeserialize buf = some bf) :
    bf.WellFormed := by
  unfold lumaflyDeserialize at h
  split at h
  · cases h
  · dsimp only at h
    split at h
    · cases h
    · rename_i hlen
      cases h
      have hnum : (bitsOf buf + 7) % 2 ^ 64 = bitsOf buf + 7 := Nat.mod_eq_of_lt hwrap
      refine ⟨hpos, hwrap, Bytes.ofLe_take_lt 8 _, ?_⟩
      change ¬ buf.length < 8 * 2 + (bitsOf buf + 7) % 2 ^ 64 / 8 at hlen
      change ((buf.drop 16).take ((bitsOf buf + 7) % 2 ^ 64 / 8)).length = (bitsOf buf + 7) / 8
      rw [hnum] at hlen ⊢
      rw [List.length_take, List.length_drop]
      omega

/-- Without bits, or with so many that their count of bytes wraps, there are no bytes to
    check, so every block with a header is accepted. -/
private theorem deserialize_of_wrapped {buf : Bytes} (hlen : 16 ≤ buf.length)
    (hbits : bitsOf buf = 0 ∨ 2 ^ 64 ≤ bitsOf buf + 7) :
    ∃ hashes, lumaflyDeserialize buf = some ⟨bitsOf buf, hashes, []⟩ := by
  have hmax : bitsOf buf < 2 ^ 64 := Bytes.ofLe_take_lt 8 buf
  have hnum : (bitsOf buf + 7) % 2 ^ 64 / 8 = 0 := by omega
  refine ⟨Bytes.ofLe ((buf.drop 8).take 8), ?_⟩
  unfold lumaflyDeserialize
  change (if _ then _ else if buf.length < 8 * 2 + (bitsOf buf + 7) % 2 ^ 64 / 8 then _ else
    some (LumaflyBloom.mk (bitsOf buf) _ ((buf.drop 16).take ((bitsOf buf + 7) % 2 ^ 64 / 8)))) = _
  rw [hnum, if_neg (by omega), if_neg (by omega), List.take_zero]

/-- **Which blocks the decoder may be given**: those without a header, which it rejects, and
    those whose header asks for at least one bit and for so few that their count of bytes is
    computed without a carry. -/
theorem decodesUsable_iff (buf : Bytes) :
    DecodesUsable buf ↔ (16 ≤ buf.length → 1 ≤ bitsOf buf ∧ bitsOf buf + 7 < 2 ^ 64) := by
  constructor
  · intro h hlen
    by_contra hbad
    obtain ⟨hashes, hrun⟩ := deserialize_of_wrapped hlen (by omega)
    rcases h with hnull | ⟨bf, hbf, hpos, hroom, _⟩
    · rw [hrun] at hnull
      cases hnull
    · rw [hrun] at hbf
      cases hbf
      exact absurd hpos (by simpa using hroom)
  · intro h
    cases hrun : lumaflyDeserialize buf with
    | none => exact .inl hrun
    | some bf =>
      have hlen : 16 ≤ buf.length := by
        by_contra hshort
        unfold lumaflyDeserialize at hrun
        rw [if_pos (by omega)] at hrun
        cases hrun
      have hwf := wellFormed_of_deserialize (h hlen).1 (h hlen).2 hrun
      have hbytes := hwf.length_bitArray
      exact .inr ⟨bf, hrun, hwf.numBits_pos, by omega, contains_isSome hwf⟩

/-- A header of zeros is accepted, and the first test divides by zero; a header that asks for
    `2 ^ 64 - 1` bits is accepted without an array, and the first test reads outside it. -/
theorem decodes_unusable :
    let zero := Bytes.le 8 0 ++ Bytes.le 8 1
    let huge := Bytes.le 8 (2 ^ 64 - 1) ++ Bytes.le 8 1
    (lumaflyDeserialize zero = some ⟨0, 1, []⟩ ∧
      ∀ key, bitIdx ⟨0, 1, []⟩ key 0 = none ∧ lumaflyContains ⟨0, 1, []⟩ key = none) ∧
    (lumaflyDeserialize huge = some ⟨2 ^ 64 - 1, 1, []⟩ ∧
      ∀ key, (∃ j, bitIdx ⟨2 ^ 64 - 1, 1, []⟩ key 0 = some j) ∧
        lumaflyContains ⟨2 ^ 64 - 1, 1, []⟩ key = none) ∧
    ¬ DecodesUsable zero ∧ ¬ DecodesUsable huge := by
  have hzero : lumaflyDeserialize (Bytes.le 8 0 ++ Bytes.le 8 1) = some ⟨0, 1, []⟩ := by decide
  have hhuge : lumaflyDeserialize (Bytes.le 8 (2 ^ 64 - 1) ++ Bytes.le 8 1) =
      some ⟨2 ^ 64 - 1, 1, []⟩ := by decide
  refine ⟨⟨hzero, fun key => ⟨rfl, rfl⟩⟩, ⟨hhuge, fun key => ⟨⟨_, rfl⟩, rfl⟩⟩, ?_, ?_⟩
  · rintro (h | ⟨bf, h, hpos, _⟩)
    · cases hzero.symm.trans h
    · cases hzero.symm.trans h
      exact absurd hpos (by decide)
  · rintro (h | ⟨bf, h, _, hroom, _⟩)
    · cases hhuge.symm.trans h
    · cases hhuge.symm.trans h
      exact absurd hroom (by decide)

end LumaflyBloom

end Hallownest.Storage
