import Lsmdb.Binary.Words
import Lsmdb.Db.MemTable
import Mathlib.Data.Nat.Bitwise

namespace Lsmdb.Db

open List

/-!
# Bloom filter

`internal/bloom/bloom.go`.  Words and hashes are natural numbers below `2 ^ 64`; sums and
products are taken modulo `2 ^ 64` before the remainder by the number of bits.

`New` computes the size of a filter in floating point.  Of that computation only the class
`BloomSize` is used: a positive number of whole words, at most one for every four keys and one
more, and at most 30 positions for a key.  The hash of a key is a parameter (`addWith`,
`mayContainWith`); the filter of an SSTable uses FNV-1a.

* `mayContainWith_addAll` — a key that was added is never denied.
* `decode_encode` — a filter is read back from its bytes.
-/

open Lsmdb.Binary

/-- `BloomFilter`. -/
structure BloomFilter where
  bits : List ℕ
  numBits : ℕ
  numHash : ℕ
  deriving DecidableEq, Repr

/-- The sizes `New` chooses for a number of keys, at the rate used for SSTables. -/
class BloomSize where
  words : ℕ → ℕ
  numHash : ℕ → ℕ
  words_pos : ∀ n, 0 < words n
  words_le : ∀ n, words n ≤ n / 4 + 1
  numHash_le : ∀ n, numHash n ≤ 30

/-- Sixteen bits for each key, and seven positions among them. -/
@[reducible] def BloomSize.sixteenBits : BloomSize where
  words n := n / 4 + 1
  numHash _ := 7
  words_pos n := Nat.succ_pos _
  words_le n := Nat.le_refl _
  numHash_le _ := by decide

/-- `New`. -/
def BloomFilter.new [BloomSize] (expectedKeys : ℕ) : BloomFilter where
  bits := List.replicate (BloomSize.words expectedKeys) 0
  numBits := 64 * BloomSize.words expectedKeys
  numHash := BloomSize.numHash expectedKeys

/-- FNV-1a with 64 bits. -/
def fnv64a (key : Key) : ℕ :=
  key.foldl (fun h b => (h ^^^ b.toNat) * 1099511628211 % 2 ^ 64) 14695981039346656037

/-- `bloomHashes`, from the hash of the key. -/
def bloomHashes (h1 : ℕ) : ℕ × ℕ :=
  (h1, ((h1 <<< 17) % 2 ^ 64 ||| (h1 >>> 47)) ||| 1)

/-- The bit that iteration `i` of `Add` sets and of `MayContain` tests. -/
def BloomFilter.position (hash : Key → ℕ) (bf : BloomFilter) (key : Key) (i : ℕ) : ℕ :=
  ((bloomHashes (hash key)).1 + i * (bloomHashes (hash key)).2) % 2 ^ 64 % bf.numBits

/-- The bits `Add` sets and `MayContain` tests. -/
def BloomFilter.positions (hash : Key → ℕ) (bf : BloomFilter) (key : Key) : List ℕ :=
  (List.range bf.numHash).map (bf.position hash key)

/-- `bits[pos/64] |= 1 << (pos % 64)`. -/
def setBit (bits : List ℕ) (pos : ℕ) : List ℕ :=
  bits.modify (pos / 64) fun word => word ||| (1 <<< (pos % 64))

/-- `bits[pos/64] & (1 << (pos % 64)) != 0`. -/
def hasBit (bits : List ℕ) (pos : ℕ) : Bool :=
  decide (bits.getD (pos / 64) 0 &&& (1 <<< (pos % 64)) ≠ 0)

/-- `Add`, for any hash. -/
def BloomFilter.addWith (hash : Key → ℕ) (bf : BloomFilter) (key : Key) : BloomFilter :=
  { bf with bits := (bf.positions hash key).foldl setBit bf.bits }

/-- `MayContain`, for any hash. -/
def BloomFilter.mayContainWith (hash : Key → ℕ) (bf : BloomFilter) (key : Key) : Bool :=
  (bf.positions hash key).all (hasBit bf.bits)

/-- `Add`. -/
def BloomFilter.add (bf : BloomFilter) (key : Key) : BloomFilter := bf.addWith fnv64a key

/-- `MayContain`. -/
def BloomFilter.mayContain (bf : BloomFilter) (key : Key) : Bool := bf.mayContainWith fnv64a key

/-! ### Bits -/

theorem hasBit_eq (bits : List ℕ) (pos : ℕ) :
    hasBit bits pos = (bits.getD (pos / 64) 0).testBit (pos % 64) := by
  unfold hasBit
  rw [Nat.one_shiftLeft, Nat.and_two_pow]
  cases (bits.getD (pos / 64) 0).testBit (pos % 64) <;> simp

@[simp] theorem length_setBit (bits : List ℕ) (pos : ℕ) :
    (setBit bits pos).length = bits.length := by
  simp [setBit]

theorem getD_setBit (bits : List ℕ) (pos i : ℕ) :
    (setBit bits pos).getD i 0
      = if pos / 64 = i ∧ i < bits.length then bits.getD i 0 ||| (1 <<< (pos % 64))
        else bits.getD i 0 := by
  simp only [setBit, getD_eq_getElem?_getD, getElem?_modify]
  by_cases hi : i < bits.length
  · by_cases hp : pos / 64 = i <;> simp [hi, hp]
  · simp [hi]

theorem hasBit_setBit_self {bits : List ℕ} {pos : ℕ} (h : pos < 64 * bits.length) :
    hasBit (setBit bits pos) pos = true := by
  have hi : pos / 64 < bits.length := by omega
  rw [hasBit_eq, getD_setBit, if_pos ⟨rfl, hi⟩, Nat.one_shiftLeft, Nat.testBit_or,
    Nat.testBit_two_pow_self, Bool.or_true]

theorem hasBit_setBit_mono {bits : List ℕ} {pos p : ℕ} (h : hasBit bits p = true) :
    hasBit (setBit bits pos) p = true := by
  rw [hasBit_eq] at h ⊢
  rw [getD_setBit]
  split
  · rw [Nat.testBit_or, h, Bool.true_or]
  · exact h

theorem hasBit_foldl_mono {ps : List ℕ} {bits : List ℕ} {p : ℕ} (h : hasBit bits p = true) :
    hasBit (ps.foldl setBit bits) p = true := by
  induction ps generalizing bits with
  | nil => exact h
  | cons q ps ih => exact ih (hasBit_setBit_mono h)

theorem length_foldl_setBit (ps bits : List ℕ) : (ps.foldl setBit bits).length = bits.length := by
  induction ps generalizing bits with
  | nil => rfl
  | cons q ps ih => rw [foldl_cons, ih, length_setBit]

theorem hasBit_foldl_mem {ps : List ℕ} {bits : List ℕ} {p : ℕ} (hp : p ∈ ps)
    (h : p < 64 * bits.length) : hasBit (ps.foldl setBit bits) p = true := by
  induction ps generalizing bits with
  | nil => simp at hp
  | cons q ps ih =>
    rcases mem_cons.mp hp with rfl | hp
    · rw [foldl_cons]
      exact hasBit_foldl_mono (hasBit_setBit_self h)
    · exact ih hp (by rwa [length_setBit])

/-! ### No false negatives -/

/-- The bit count is a positive multiple of 64, and that many bits are there. -/
structure BloomFilter.Sized (bf : BloomFilter) : Prop where
  numBits_eq : bf.numBits = 64 * bf.bits.length
  pos : 0 < bf.numBits

theorem BloomFilter.sized_new [BloomSize] (n : ℕ) : (BloomFilter.new n).Sized := by
  refine ⟨by simp [BloomFilter.new], ?_⟩
  have := BloomSize.words_pos n
  simp only [BloomFilter.new]
  omega

section Hash
variable {hash : Key → ℕ} {bf : BloomFilter} {k : Key}

@[simp] theorem BloomFilter.positions_addWith (key k : Key) :
    (bf.addWith hash key).positions hash k = bf.positions hash k := rfl

@[simp] theorem BloomFilter.length_addWith (key : Key) :
    (bf.addWith hash key).bits.length = bf.bits.length :=
  length_foldl_setBit _ _

theorem BloomFilter.Sized.addWith (h : bf.Sized) (key : Key) : (bf.addWith hash key).Sized := by
  refine ⟨?_, h.pos⟩
  rw [length_addWith]
  exact h.numBits_eq

theorem BloomFilter.Sized.addAllWith (h : bf.Sized) (keys : List Key) :
    (keys.foldl (BloomFilter.addWith hash) bf).Sized := by
  induction keys generalizing bf with
  | nil => exact h
  | cons key keys ih => exact ih (h.addWith key)

theorem BloomFilter.Sized.position_lt (h : bf.Sized) (key : Key) (i : ℕ) :
    bf.position hash key i < 64 * bf.bits.length := by
  rw [← h.numBits_eq]
  exact Nat.mod_lt _ h.pos

theorem BloomFilter.Sized.mayContainWith_addWith (h : bf.Sized) (key : Key) :
    (bf.addWith hash key).mayContainWith hash key = true := by
  refine all_eq_true.mpr fun p hp => ?_
  rw [positions_addWith] at hp
  obtain ⟨i, -, rfl⟩ := mem_map.mp hp
  exact hasBit_foldl_mem hp (h.position_lt key i)

theorem BloomFilter.mayContainWith_mono (h : bf.mayContainWith hash k = true) (key : Key) :
    (bf.addWith hash key).mayContainWith hash k = true := by
  refine all_eq_true.mpr fun p hp => ?_
  exact hasBit_foldl_mono (all_eq_true.mp h p hp)

theorem BloomFilter.mayContainWith_foldl_mono (h : bf.mayContainWith hash k = true)
    (keys : List Key) :
    (keys.foldl (BloomFilter.addWith hash) bf).mayContainWith hash k = true := by
  induction keys generalizing bf with
  | nil => exact h
  | cons key keys ih => exact ih (mayContainWith_mono h key)

/-- **A key that was added is never denied**, whatever is added later. -/
theorem BloomFilter.Sized.mayContainWith_addAll (h : bf.Sized) {keys : List Key} (hk : k ∈ keys) :
    (keys.foldl (BloomFilter.addWith hash) bf).mayContainWith hash k = true := by
  induction keys generalizing bf with
  | nil => simp at hk
  | cons key keys ih =>
    rcases mem_cons.mp hk with rfl | hk
    · exact mayContainWith_foldl_mono (h.mayContainWith_addWith k) keys
    · exact ih (h.addWith key) hk

end Hash

/-! ### Bytes -/

/-- `Encode`. -/
def BloomFilter.encode (bf : BloomFilter) : List UInt8 :=
  toBigEndian 8 bf.numBits ++ (toBigEndian 8 bf.numHash ++ bf.bits.flatMap (toBigEndian 8))

/-- `Decode`. -/
def BloomFilter.decode (data : List UInt8) : Except String BloomFilter :=
  let size := data.length
  if size < 16 then .error s!"bloom: too short to decode ({size} bytes)"
  else
    let numBits := wordAt data 0 8
    let numWords := numBits / 64
    let need := 16 + numWords * 8
    if numBits = 0 ∨ numBits % 64 ≠ 0 then
      .error s!"bloom: invalid numBits {numBits} (must be a nonzero multiple of 64)"
    else if size - 16 < numWords * 8 then
      .error s!"bloom: data too short for {numBits} bits (need {need} bytes, have {size})"
    else .ok {
      bits := (List.range numWords).map fun i => wordAt data (16 + i * 8) 8
      numBits := numBits
      numHash := wordAt data 8 8 }

/-- Every word has 64 bits. -/
def Words64 (bits : List ℕ) : Prop := ∀ i, bits.getD i 0 < 2 ^ 64

theorem Words64.setBit {bits : List ℕ} (h : Words64 bits) (pos : ℕ) :
    Words64 (setBit bits pos) := by
  intro i
  rw [getD_setBit]
  split
  · refine Nat.or_lt_two_pow (h i) ?_
    rw [Nat.one_shiftLeft]
    exact Nat.pow_lt_pow_right (by decide) (Nat.mod_lt _ (by decide))
  · exact h i

theorem Words64.foldl {bits : List ℕ} (h : Words64 bits) (ps : List ℕ) :
    Words64 (ps.foldl Db.setBit bits) := by
  induction ps generalizing bits with
  | nil => exact h
  | cons p ps ih => exact ih (h.setBit p)

theorem words64_addAll {hash : Key → ℕ} {bf : BloomFilter} (h : Words64 bf.bits)
    (keys : List Key) : Words64 (keys.foldl (BloomFilter.addWith hash) bf).bits := by
  induction keys generalizing bf with
  | nil => exact h
  | cons key keys ih => exact ih (h.foldl (bf.positions hash key))

theorem words64_new [BloomSize] (n : ℕ) : Words64 (BloomFilter.new n).bits := by
  intro i
  simp only [BloomFilter.new, getD_eq_getElem?_getD, getElem?_replicate]
  split <;> simp

theorem numBits_addAll (hash : Key → ℕ) (bf : BloomFilter) (keys : List Key) :
    (keys.foldl (BloomFilter.addWith hash) bf).numBits = bf.numBits := by
  induction keys generalizing bf with
  | nil => rfl
  | cons key keys ih => exact ih (bf.addWith hash key)

theorem numHash_addAll (hash : Key → ℕ) (bf : BloomFilter) (keys : List Key) :
    (keys.foldl (BloomFilter.addWith hash) bf).numHash = bf.numHash := by
  induction keys generalizing bf with
  | nil => rfl
  | cons key keys ih => exact ih (bf.addWith hash key)

theorem length_flatMap_words (ws : List ℕ) :
    (ws.flatMap (toBigEndian 8)).length = ws.length * 8 := by
  induction ws with
  | nil => rfl
  | cons w ws ih =>
      rw [flatMap_cons, length_append, ih, length_toBigEndian, length_cons]
      omega

@[simp] theorem BloomFilter.length_encode (bf : BloomFilter) :
    bf.encode.length = 16 + bf.bits.length * 8 := by
  simp only [encode, length_append, length_toBigEndian, length_flatMap_words]
  omega

/-- The words written one after the other are read at their places. -/
theorem wordAt_flatMap (front : List UInt8) {ws : List ℕ} (h : ∀ i, ws.getD i 0 < 2 ^ 64) {i : ℕ}
    (hi : i < ws.length) :
    wordAt (front ++ ws.flatMap (toBigEndian 8)) (front.length + i * 8) 8 = ws.getD i 0 := by
  induction ws generalizing front i with
  | nil => simp at hi
  | cons w ws ih =>
      rw [flatMap_cons]
      cases i with
      | zero =>
          rw [Nat.zero_mul, Nat.add_zero]
          exact wordAt_append _ _ rfl (h 0)
      | succ i =>
          have hrest := ih (front ++ toBigEndian 8 w) (fun j => h (j + 1))
            (Nat.lt_of_succ_lt_succ hi)
          rw [append_assoc, length_append, length_toBigEndian] at hrest
          rw [show front.length + (i + 1) * 8 = front.length + 8 + i * 8 by omega, hrest]
          rfl

/-- **A filter is read back.** -/
theorem BloomFilter.decode_encode {bf : BloomFilter} (hsized : bf.Sized) (hbits : Words64 bf.bits)
    (hnumBits : bf.numBits < 2 ^ 64) (hnumHash : bf.numHash < 2 ^ 64) :
    BloomFilter.decode bf.encode = .ok bf := by
  have hB : wordAt bf.encode 0 8 = bf.numBits := wordAt_append [] _ rfl hnumBits
  have hH : wordAt bf.encode 8 8 = bf.numHash :=
    wordAt_append (toBigEndian 8 bf.numBits) _ (by simp) hnumHash
  have hwords : bf.numBits / 64 = bf.bits.length := by
    rw [hsized.numBits_eq]
    omega
  have hpos := hsized.pos
  have heq := hsized.numBits_eq
  have hread : (range bf.bits.length).map (fun i => wordAt bf.encode (16 + i * 8) 8)
      = bf.bits := by
    refine ext_getElem (by simp) fun i h₁ h₂ => ?_
    have hword := wordAt_flatMap (toBigEndian 8 bf.numBits ++ toBigEndian 8 bf.numHash) hbits h₂
    rw [append_assoc] at hword
    simp only [length_append, length_toBigEndian] at hword
    rw [getElem_map, getElem_range]
    simpa [encode, h₂] using hword
  unfold decode
  simp only [hB, hH, hwords, length_encode, hread]
  rw [if_neg (by omega), if_neg (by omega), if_neg (by omega)]

end Lsmdb.Db
