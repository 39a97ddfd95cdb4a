import Hallownest.Lib.Mix
import Hallownest.Storage.Lumafly

namespace Hallownest.Storage

/-!
# Storage — what the Bloom filter answers

Every step of `murmurhash3_32` can be undone, so that keys of one length that differ in one block
of four bytes, or in the bytes behind the last block, never have the same hash
(`murmur_block_iff`).

The bits of a filter are those that its keys select and no others.  So the filter contains a key
exactly if other keys cover its bits, and its bytes do not depend on the order in which keys were
added, or how often (`filter_exact`).
-/

/-- What a block goes through before it meets the state. -/
theorem mixWord_injective : Function.Injective fun k1 : UInt32 =>
    (((k1 * 0xcc9e2d51) <<< 15) ||| ((k1 * 0xcc9e2d51) >>> (32 - 15))) * 0x1b873593 :=
  (Mix.mul_injective (d := 0x56ed309b) (by decide)).comp
    ((Mix.rotate_injective (k := 15) (l := 32 - 15) (by decide) (by decide) (by decide)).comp
      (Mix.mul_injective (d := 0xdee13bb1) (by decide)))

/-- What the state goes through when a block has met it. -/
theorem mixState_injective : Function.Injective fun h1 : UInt32 =>
    ((h1 <<< 13) ||| (h1 >>> (32 - 13))) * 5 + 0xe6546b64 := by
  intro h1 h1' h
  have hmul := Mix.mul_injective (d := 0xcccccccd) (by decide) ((UInt32.add_left_inj _).mp h)
  exact Mix.rotate_injective (k := 13) (l := 32 - 13) (by decide) (by decide) (by decide) hmul

/-- From a state, different blocks lead to different states. -/
theorem murmurBlock_word (h1 : UInt32) : Function.Injective (murmurBlock h1) :=
  fun _ _ h => mixWord_injective ((UInt32.xor_right_inj h1).mp (mixState_injective h))

/-- A block takes different states to different states. -/
theorem murmurBlock_state (k1 : UInt32) : Function.Injective (murmurBlock · k1) :=
  fun _ _ h => (UInt32.xor_left_inj _).mp (mixState_injective h)

/-! ### The blocks -/

variable {h1 h1' seed seed' : UInt32} {key key' pre post b b' tail tail' : Bytes}

theorem murmurBlocks_cons (h1 : UInt32) (x y z w : UInt8) (rest : Bytes) :
    murmurBlocks h1 (x :: y :: z :: w :: rest) =
      murmurBlocks (murmurBlock h1 (UInt32.ofNat (Bytes.ofLe [x, y, z, w]))) rest := by
  conv_lhs => unfold murmurBlocks

/-- Less than a block is left to the tail. -/
theorem murmurBlocks_short (h1 : UInt32) (htail : tail.length < 4) :
    murmurBlocks h1 tail = (h1, tail) := by
  match tail, htail with
  | [], _ | [_], _ | [_, _], _ | [_, _, _], _ => rfl

theorem length_lt_four {bs : Bytes} (h : ∀ x y z w rest, bs = x :: y :: z :: w :: rest → False) :
    bs.length < 4 := by
  match bs, h with
  | [], _ | [_], _ | [_, _], _ | [_, _, _], _ => simp
  | x :: y :: z :: w :: rest, h => exact absurd rfl (h x y z w rest)

/-- Whole blocks in front are taken first. -/
private theorem murmurBlocks_append (h1 : UInt32) (hpre : pre.length % 4 = 0) (rest : Bytes) :
    murmurBlocks h1 (pre ++ rest) = murmurBlocks (murmurBlocks h1 pre).1 rest := by
  fun_induction murmurBlocks h1 pre with
  | case1 h1 x y z w pre ih =>
    simp only [List.cons_append, murmurBlocks_cons]
    exact ih (by simp only [List.length_cons] at hpre; omega)
  | case2 h1 pre hshort =>
    have hlt := length_lt_four hshort
    obtain rfl : pre = [] := List.eq_nil_of_length_eq_zero (by omega)
    rfl

/-- What is left over does not depend on the state, which the blocks do not lose. -/
private theorem murmurBlocks_state (h1 h1' : UInt32) (bs : Bytes) :
    (murmurBlocks h1 bs).2 = (murmurBlocks h1' bs).2 ∧
      ((murmurBlocks h1 bs).1 = (murmurBlocks h1' bs).1 → h1 = h1') := by
  fun_induction murmurBlocks h1 bs generalizing h1' with
  | case1 h1 x y z w rest ih =>
    simp only [murmurBlocks_cons]
    exact ⟨(ih _).1, fun h => murmurBlock_state _ ((ih _).2 h)⟩
  | case2 h1 bs hshort =>
    rw [murmurBlocks_short h1' (length_lt_four hshort)]
    exact ⟨rfl, id⟩

/-- One block. -/
theorem murmurBlocks_block (h1 : UInt32) (hb : b.length = 4) (post : Bytes) :
    murmurBlocks h1 (b ++ post) =
      murmurBlocks (murmurBlock h1 (UInt32.ofNat (Bytes.ofLe b))) post := by
  match b, hb with
  | [x, y, z, w], _ => exact murmurBlocks_cons h1 x y z w post

/-- A block of four bytes is its word. -/
private theorem ofLe_block_injective (hb : b.length = 4) (hb' : b'.length = 4)
    (h : UInt32.ofNat (Bytes.ofLe b) = UInt32.ofNat (Bytes.ofLe b')) : b = b' := by
  have hlt := Bytes.ofLe_lt b
  have hlt' := Bytes.ofLe_lt b'
  rw [hb] at hlt
  rw [hb'] at hlt'
  refine Bytes.ofLe_injective (hb.trans hb'.symm) ?_
  have := congrArg UInt32.toNat h
  rwa [UInt32.toNat_ofNat_of_lt' hlt, UInt32.toNat_ofNat_of_lt' hlt'] at this

/-! ### The bytes behind them -/

/-- The tail takes different states to different states. -/
theorem murmurTail_state (tail : Bytes) : Function.Injective (murmurTail · tail) := by
  intro h1 h1' h
  match tail with
  | [_] | [_, _] | [_, _, _] => exact (UInt32.xor_left_inj _).mp h
  | [] | _ :: _ :: _ :: _ :: _ => exact h

/-- From a state, different tails of one length lead to different states. -/
private theorem murmurTail_bytes (h1 : UInt32) (hlen : tail.length = tail'.length)
    (hshort : tail.length < 4) (h : murmurTail h1 tail = murmurTail h1 tail') : tail = tail' := by
  match tail, tail', hlen with
  | [], [], _ => rfl
  | [x], [x'], _ =>
    have hword := mixWord_injective ((UInt32.xor_right_inj h1).mp h)
    obtain ⟨rfl, _⟩ := Mix.pack_injective x 0 0 x' 0 0 (by simpa using hword)
    rfl
  | [x, y], [x', y'], _ =>
    have hword := mixWord_injective ((UInt32.xor_right_inj h1).mp h)
    obtain ⟨rfl, rfl, _⟩ := Mix.pack_injective x y 0 x' y' 0 (by simpa using hword)
    rfl
  | [x, y, z], [x', y', z'], _ =>
    have hword := mixWord_injective ((UInt32.xor_right_inj h1).mp h)
    obtain ⟨rfl, rfl, rfl⟩ := Mix.pack_injective x y z x' y' z' hword
    rfl
  | _ :: _ :: _ :: _ :: _, _, _ =>
    simp only [List.length_cons] at hshort
    omega

/-! ### The hash -/

/-- The steps behind the blocks and the tail. -/
private theorem finish_injective : Function.Injective fun h1 : UInt32 =>
    let h1 := h1 ^^^ (h1 >>> 16)
    let h1 := h1 * 0x85ebca6b
    let h1 := h1 ^^^ (h1 >>> 13)
    let h1 := h1 * 0xc2b2ae35
    h1 ^^^ (h1 >>> 16) :=
  (Mix.xorShift_injective (k := 16) (by decide) (by decide)).comp
    ((Mix.mul_injective (d := 0x7ed1b41d) (by decide)).comp
      ((Mix.xorShift_injective (k := 13) (by decide) (by decide)).comp
        ((Mix.mul_injective (d := 0xa5cb9243) (by decide)).comp
          (Mix.xorShift_injective (k := 16) (by decide) (by decide)))))

/-- For keys of one length the hash tells the state behind the tail. -/
private theorem murmurTail_of_hash (hlen : key.length = key'.length)
    (h : murmurhash3_32 key seed = murmurhash3_32 key' seed') :
    murmurTail (murmurBlocks seed key).1 (murmurBlocks seed key).2 =
      murmurTail (murmurBlocks seed' key').1 (murmurBlocks seed' key').2 := by
  have hstate := finish_injective h
  rw [hlen] at hstate
  exact (UInt32.xor_left_inj _).mp hstate

/-- **Keys that differ in one block have different hashes.**  Take two keys of one length that
    agree but for one block of four bytes, or for the bytes behind the last block, and any seed:
    their hashes are the same only if the keys are. -/
theorem murmur_block_iff (pre b b' post : Bytes) (seed : UInt32) (hpre : pre.length % 4 = 0)
    (hlen : b.length = b'.length) (hb : b.length = 4 ∨ b.length < 4 ∧ post = []) :
    murmurhash3_32 (pre ++ b ++ post) seed = murmurhash3_32 (pre ++ b' ++ post) seed ↔ b = b' := by
  refine ⟨fun h => ?_, fun h => by rw [h]⟩
  have h' := murmurTail_of_hash (by simp [hlen]) h
  simp only [List.append_assoc, murmurBlocks_append seed hpre] at h'
  rcases hb with hfour | ⟨hshort, rfl⟩
  · rw [murmurBlocks_block _ hfour, murmurBlocks_block _ (hlen ▸ hfour)] at h'
    obtain ⟨htail, hstate⟩ := murmurBlocks_state
      (murmurBlock (murmurBlocks seed pre).1 (UInt32.ofNat (Bytes.ofLe b)))
      (murmurBlock (murmurBlocks seed pre).1 (UInt32.ofNat (Bytes.ofLe b'))) post
    rw [htail] at h'
    exact ofLe_block_injective hfour (hlen ▸ hfour)
      (murmurBlock_word _ (hstate (murmurTail_state _ h')))
  · have hshort' : b'.length < 4 := hlen ▸ hshort
    simp only [List.append_nil, murmurBlocks_short _ hshort, murmurBlocks_short _ hshort'] at h'
    exact murmurTail_bytes _ hlen hshort h'

/-- Two keys of one byte. -/
theorem murmur_block_byte : murmurhash3_32 [1] 7 ≠ murmurhash3_32 [2] 7 :=
  fun h => absurd ((murmur_block_iff [] [1] [2] [] 7 rfl rfl (by decide)).mp h) (by decide)

/-! ### The bits -/

namespace LumaflyBloom

variable {bf bf' : LumaflyBloom} {keys keys' : List Bytes}

/-- Some key of `keys` selects the bit `j`. -/
def Selects (bf : LumaflyBloom) (keys : List Bytes) (j : ℕ) : Prop :=
  ∃ key ∈ keys, j ∈ bf.positions key

instance (bf : LumaflyBloom) (keys : List Bytes) (j : ℕ) : Decidable (bf.Selects keys j) :=
  inferInstanceAs (Decidable (∃ key ∈ keys, j ∈ bf.positions key))

/-- The filter `bf'` is `bf` with the bits of `keys`. -/
structure Added (bf : LumaflyBloom) (keys : List Bytes) (bf' : LumaflyBloom) : Prop where
  numBits : bf'.numBits = bf.numBits
  numHashes : bf'.numHashes = bf.numHashes
  size : bf'.bitArray.length = bf.bitArray.length
  bits : ∀ j, BitSet.test bf'.bitArray j =
    if bf.Selects keys j then some true else BitSet.test bf.bitArray j

/-- Adding keys keeps a filter well formed. -/
theorem Added.wellFormed (h : Added bf keys bf') (hbf : bf.WellFormed) : bf'.WellFormed where
  numBits_pos := h.numBits ▸ hbf.numBits_pos
  numBits_lt := h.numBits ▸ hbf.numBits_lt
  numHashes_lt := h.numHashes ▸ hbf.numHashes_lt
  length_bitArray := by rw [h.size, h.numBits, hbf.length_bitArray]

/-- Adding keys moves no positions. -/
theorem Added.positions (h : Added bf keys bf') (key : Bytes) :
    bf'.positions key = bf.positions key := by
  unfold LumaflyBloom.positions
  rw [h.numBits, h.numHashes]

/-- **One more key.** -/
theorem Added.snoc (h : Added bf keys bf') (hbf : bf.WellFormed) (key : Bytes) :
    ∃ bf'', lumaflyAdd bf' key = some bf'' ∧ Added bf (keys ++ [key]) bf'' := by
  have hbf' := h.wellFormed hbf
  obtain ⟨bits, hrun, hlen, _⟩ := BitSet.setAll_spec (positions_lt hbf' key)
  refine ⟨{ bf' with bitArray := bits }, ?_, h.numBits, h.numHashes, hlen.trans h.size, ?_⟩
  · unfold lumaflyAdd
    rw [bitIdxs_eq hbf']
    show (BitSet.setAll (bf'.positions key) bf'.bitArray).bind _ = _
    rw [hrun]
    rfl
  · intro j
    have hselects : bf.Selects (keys ++ [key]) j ↔
        bf.Selects keys j ∨ j ∈ bf.positions key := by
      simp [Selects, or_and_right, exists_or]
    rw [BitSet.test_setAll hrun, h.positions, h.bits]
    by_cases hnew : j ∈ bf.positions key
    · simp [hselects, hnew]
    · simp [hselects, hnew]

/-- **All keys.** -/
theorem exists_added (hbf : bf.WellFormed) (keys : List Bytes) :
    ∃ bf', keys.foldlM lumaflyAdd bf = some bf' ∧ Added bf keys bf' := by
  refine Run.exists_foldlM (m := Option) (I := fun done bf' => Added bf done bf')
    ⟨rfl, rfl, rfl, fun j => by simp [Selects]⟩ ?_
  rintro done key rest bf₁ _ h
  exact h.snoc hbf key

/-- Keys select the same bits in whatever order they come. -/
theorem Added.unique {bf'' : LumaflyBloom} (h : Added bf keys bf') (h' : Added bf keys' bf'')
    (hsame : ∀ key, key ∈ keys' ↔ key ∈ keys) : bf'' = bf' := by
  have hbits : bf''.bitArray = bf'.bitArray := by
    refine BitSet.eq_of_test (h'.size.trans h.size.symm) fun j => ?_
    have hselects : bf.Selects keys' j ↔ bf.Selects keys j := by simp only [Selects, hsame]
    rw [h'.bits, h.bits]
    simp only [hselects]
  obtain ⟨numBits, numHashes, bitArray⟩ := bf'
  obtain ⟨numBits', numHashes', bitArray'⟩ := bf''
  obtain rfl := h.numBits.trans h'.numBits.symm
  obtain rfl := h.numHashes.trans h'.numHashes.symm
  rw [show bitArray' = bitArray from hbits]

/-- **What the filter answers.**  Add any keys to a filter of zeros.  It then contains exactly the
    keys all of whose bits are selected by keys that were added.  The same keys in another order,
    or more than once, give the same filter, byte for byte, and reading it back does too. -/
theorem filter_exact (bf : LumaflyBloom) (hbf : bf.Zeroed) (keys : List Bytes) :
    ∃ bf', keys.foldlM lumaflyAdd bf = some bf' ∧ lumaflyDeserialize bf'.bytes = some bf' ∧
      (∀ key, lumaflyContains bf' key =
        some (decide (∀ j ∈ bf.positions key, bf.Selects keys j))) ∧
      ∀ keys' : List Bytes, (∀ key, key ∈ keys' ↔ key ∈ keys) →
        keys'.foldlM lumaflyAdd bf = some bf' := by
  have hwf := hbf.wellFormed
  obtain ⟨bf', hrun, h⟩ := exists_added hwf keys
  refine ⟨bf', hrun, lumaflyDeserialize_bytes (h.wellFormed hwf), fun key => ?_, ?_⟩
  · -- a bit that no key selects is zero
    have hbit : ∀ j ∈ bf.positions key,
        (BitSet.test bf'.bitArray j = some true ↔ bf.Selects keys j) := by
      intro j hj
      have hlt : j / 8 < (bf.numBits + 7) / 8 := by
        have hpos := positions_lt hwf key j hj
        rw [hwf.length_bitArray] at hpos
        omega
      have hzero : BitSet.test bf.bitArray j = some false := by
        rw [hbf.bitArray_eq, BitSet.test, List.getElem?_replicate, if_pos hlt]
        simp
      rw [h.bits, hzero]
      split
      · simp [*]
      · simp [*]
    unfold lumaflyContains
    rw [bitIdxs_eq (h.wellFormed hwf), h.positions]
    show BitSet.testAll bf'.bitArray (bf.positions key) = _
    rw [BitSet.testAll_eq (h.size ▸ positions_lt hwf key), Option.some.injEq, decide_eq_decide]
    exact forall₂_congr hbit
  · intro keys' hsame
    obtain ⟨bf'', hrun', h'⟩ := exists_added hwf keys'
    rw [hrun', h.unique h' hsame]

/-- Two keys, and the same keys with one of them twice. -/
theorem filter_exact_two : ∃ bf',
    [[1], [2]].foldlM lumaflyAdd ⟨64, 2, List.replicate 8 0⟩ = some bf' ∧
    lumaflyContains bf' [1] = some true ∧
    [[2], [1], [2]].foldlM lumaflyAdd ⟨64, 2, List.replicate 8 0⟩ = some bf' := by
  obtain ⟨bf', hrun, _, hcontains, hsame⟩ := filter_exact ⟨64, 2, List.replicate 8 0⟩
    ⟨by decide, by decide, by decide, by decide, rfl⟩ [[1], [2]]
  refine ⟨bf', hrun, ?_, hsame [[2], [1], [2]] (by simp [or_comm])⟩
  rw [hcontains, Option.some.injEq, decide_eq_true_eq]
  exact fun j hj => ⟨[1], by decide, hj⟩

end LumaflyBloom

end Hallownest.Storage
