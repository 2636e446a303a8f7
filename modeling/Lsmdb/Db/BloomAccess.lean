import Lsmdb.Db.Bloom
import Lsmdb.Db.Outcome

namespace Lsmdb.Db

open Lsmdb.Binary

/-!
# Bloom filter — index by index

`Add`, `MayContain` and `Decode` as loops in which every remainder, index and read is checked as
Go checks it: a remainder by zero or an index outside the array panics.  On a filter whose bit
count is a positive multiple of 64 and whose words are all there, no check fails, and the loops
compute what `Lsmdb.Db.Bloom` says; `Decode` passes its checks on every input.

* `addAt_eq`, `mayContainAt_eq`, `decodeAt_eq` — the checked loops are the plain functions.
* `bloom_complete` — no false negatives, also after a round trip.
-/

/-! ### The loops -/

/-- `(h1 + i*h2) % bf.numBits`. -/
def BloomFilter.positionAt (hash : Key → ℕ) (bf : BloomFilter) (key : Key) (i : ℕ) :
    Outcome ℕ :=
  if bf.numBits = 0 then .error (.panic "integer divide by zero")
  else .ok (bf.position hash key i)

/-- `bf.bits[pos/64] |= 1 << (pos % 64)`. -/
def setBitAt (bits : List ℕ) (pos : ℕ) : Outcome (List ℕ) :=
  if pos / 64 < bits.length then .ok (setBit bits pos) else .error (.panic "index out of range")

/-- `bf.bits[pos/64] & (1 << (pos % 64)) != 0`. -/
def hasBitAt (bits : List ℕ) (pos : ℕ) : Outcome Bool :=
  if pos / 64 < bits.length then .ok (hasBit bits pos) else .error (.panic "index out of range")

/-- The loop of `Add` over the iterations still to come. -/
def BloomFilter.addLoop (hash : Key → ℕ) (bf : BloomFilter) (key : Key) :
    List ℕ → List ℕ → Outcome (List ℕ)
  | [], bits => .ok bits
  | i :: rest, bits => do
      let pos ← bf.positionAt hash key i
      let bits ← setBitAt bits pos
      bf.addLoop hash key rest bits

/-- `Add`. -/
def BloomFilter.addAt (hash : Key → ℕ) (bf : BloomFilter) (key : Key) : Outcome BloomFilter := do
  let bits ← bf.addLoop hash key (List.range bf.numHash) bf.bits
  return { bf with bits := bits }

/-- `Add` of one key after the other. -/
def BloomFilter.addAllAt (hash : Key → ℕ) : BloomFilter → List Key → Outcome BloomFilter
  | bf, [] => .ok bf
  | bf, key :: keys => do
      let bf ← bf.addAt hash key
      bf.addAllAt hash keys

/-- The loop of `MayContain`, which stops at the first bit that is not set. -/
def BloomFilter.mayContainLoop (hash : Key → ℕ) (bf : BloomFilter) (key : Key) :
    List ℕ → Outcome Bool
  | [] => .ok true
  | i :: rest => do
      let pos ← bf.positionAt hash key i
      let set ← hasBitAt bf.bits pos
      if set then bf.mayContainLoop hash key rest else return false

/-- `MayContain`. -/
def BloomFilter.mayContainAt (hash : Key → ℕ) (bf : BloomFilter) (key : Key) : Outcome Bool :=
  bf.mayContainLoop hash key (List.range bf.numHash)

/-- The loop of `Decode` over the words still to come. -/
def readWords (data : List UInt8) : List ℕ → Outcome (List ℕ)
  | [] => .ok []
  | i :: rest => do
      let word ← uint64At data (16 + i * 8)
      let words ← readWords data rest
      return word :: words

/-- `Decode`. -/
def BloomFilter.decodeAt (data : List UInt8) : Outcome BloomFilter := do
  let size := data.length
  if size < 16 then throw (.error s!"bloom: too short to decode ({size} bytes)")
  let numBits ← uint64At data 0
  let numHash ← uint64At data 8
  if numBits = 0 ∨ numBits % 64 ≠ 0 then
    throw (.error s!"bloom: invalid numBits {numBits} (must be a nonzero multiple of 64)")
  let numWords := numBits / 64
  let need := 16 + numWords * 8
  if size - 16 < numWords * 8 then
    throw (.error s!"bloom: data too short for {numBits} bits (need {need} bytes, have {size})")
  let bits ← readWords data (List.range numWords)
  return { bits := bits, numBits := numBits, numHash := numHash }

/-! ### No check fails -/

section Hash
variable {hash : Key → ℕ} {bf : BloomFilter}

theorem BloomFilter.Sized.positionAt_eq (h : bf.Sized) (key : Key) (i : ℕ) :
    bf.positionAt hash key i = .ok (bf.position hash key i) :=
  if_neg (Nat.pos_iff_ne_zero.mp h.pos)

/-- The word that holds a position is there. -/
theorem BloomFilter.Sized.index_lt (h : bf.Sized) (key : Key) (i : ℕ) :
    bf.position hash key i / 64 < bf.bits.length := by
  have hlt : bf.position hash key i < 64 * bf.bits.length := h.position_lt key i
  omega

theorem BloomFilter.Sized.addLoop_eq (h : bf.Sized) (key : Key) (is : List ℕ) (bits : List ℕ)
    (hlen : bits.length = bf.bits.length) :
    bf.addLoop hash key is bits = .ok ((is.map (bf.position hash key)).foldl setBit bits) := by
  -- The loop changes words but not their number, which is all the index check reads.
  induction is generalizing bits with
  | nil => rfl
  | cons i is ih =>
    have hset : setBitAt bits (bf.position hash key i)
        = .ok (setBit bits (bf.position hash key i)) := by
      apply if_pos
      rw [hlen]
      exact h.index_lt key i
    simp only [addLoop, h.positionAt_eq, bind, Except.bind, hset]
    rw [ih _ (by rw [length_setBit, hlen])]
    rfl

theorem BloomFilter.Sized.addAt_eq (h : bf.Sized) (key : Key) :
    bf.addAt hash key = .ok (bf.addWith hash key) := by
  unfold addAt
  rw [h.addLoop_eq key _ _ rfl]
  rfl

theorem BloomFilter.Sized.addAllAt_eq (h : bf.Sized) (keys : List Key) :
    bf.addAllAt hash keys = .ok (keys.foldl (BloomFilter.addWith hash) bf) := by
  induction keys generalizing bf with
  | nil => rfl
  | cons key keys ih =>
    simp only [addAllAt, h.addAt_eq, bind, Except.bind]
    exact ih (h.addWith key)

theorem BloomFilter.Sized.mayContainLoop_eq (h : bf.Sized) (key : Key) (is : List ℕ) :
    bf.mayContainLoop hash key is
      = .ok ((is.map (bf.position hash key)).all (hasBit bf.bits)) := by
  induction is with
  | nil => rfl
  | cons i is ih =>
    have htest : hasBitAt bf.bits (bf.position hash key i)
        = .ok (hasBit bf.bits (bf.position hash key i)) :=
      if_pos (h.index_lt key i)
    simp only [mayContainLoop, h.positionAt_eq, bind, Except.bind, htest, List.map_cons,
      List.all_cons]
    cases hasBit bf.bits (bf.position hash key i) with
    | true => simpa using ih
    | false => rfl

theorem BloomFilter.Sized.mayContainAt_eq (h : bf.Sized) (key : Key) :
    bf.mayContainAt hash key = .ok (bf.mayContainWith hash key) :=
  h.mayContainLoop_eq key _

end Hash

theorem readWords_eq {data : List UInt8} {is : List ℕ}
    (h : ∀ i ∈ is, 16 + i * 8 + 8 ≤ data.length) :
    readWords data is = .ok (is.map fun i => wordAt data (16 + i * 8) 8) := by
  induction is with
  | nil => rfl
  | cons i is ih =>
    have hrest : ∀ j ∈ is, 16 + j * 8 + 8 ≤ data.length := fun j hj =>
      h j (List.mem_cons_of_mem i hj)
    simp only [readWords, uint64At_of_le (h i List.mem_cons_self), ih hrest, bind, Except.bind]
    rfl

/-- **`Decode` never reads out of range**, whatever it is given. -/
theorem BloomFilter.decodeAt_eq (data : List UInt8) :
    BloomFilter.decodeAt data = Outcome.ofExcept (BloomFilter.decode data) := by
  unfold decodeAt decode
  by_cases hshort : data.length < 16
  · simp only [hshort, if_true]
    rfl
  simp only [hshort, if_false, uint64At_of_le (show 0 + 8 ≤ data.length by omega),
    uint64At_of_le (show 8 + 8 ≤ data.length by omega), bind, Except.bind, pure, Except.pure]
  by_cases hcount : wordAt data 0 8 = 0 ∨ wordAt data 0 8 % 64 ≠ 0
  · simp only [hcount, if_true]
    rfl
  simp only [hcount, if_false]
  by_cases hwords : data.length - 16 < wordAt data 0 8 / 64 * 8
  · simp only [hwords, if_true]
    rfl
  -- The length check covers the last word, and with it every word before it.
  have hread : ∀ i ∈ List.range (wordAt data 0 8 / 64), 16 + i * 8 + 8 ≤ data.length := by
    intro i hi
    have := List.mem_range.mp hi
    omega
  simp only [hwords, if_false, readWords_eq hread]
  rfl

/-- An input too short for the bit count it declares is refused. -/
theorem BloomFilter.decode_short {data : List UInt8}
    (h : data.length < 16 ∨ 8 * (data.length - 16) < wordAt data 0 8) :
    ∃ e, BloomFilter.decode data = .error e := by
  unfold decode
  by_cases hshort : data.length < 16
  · exact ⟨_, if_pos hshort⟩
  have hbits := h.resolve_left hshort
  by_cases hcount : wordAt data 0 8 = 0 ∨ wordAt data 0 8 % 64 ≠ 0
  · simp only [hshort, if_false, hcount, if_true]
    exact ⟨_, rfl⟩
  · have hwords : data.length - 16 < wordAt data 0 8 / 64 * 8 := by omega
    simp only [hshort, if_false, hcount, hwords, if_true]
    exact ⟨_, rfl⟩

/-! ### No false negatives -/

/-- The fields of a filter are 64-bit words. -/
structure BloomFilter.Fits (bf : BloomFilter) : Prop where
  numBits : bf.numBits < 2 ^ 64
  numHash : bf.numHash < 2 ^ 64
  bits : Words64 bf.bits

theorem BloomFilter.Fits.addAll {hash : Key → ℕ} {bf : BloomFilter} (h : bf.Fits)
    (keys : List Key) : (keys.foldl (BloomFilter.addWith hash) bf).Fits := by
  refine ⟨?_, ?_, words64_addAll h.bits keys⟩
  · rw [numBits_addAll]
    exact h.numBits
  · rw [numHash_addAll]
    exact h.numHash

/-- **The filter has no false negatives, also after a round trip.**  Whatever the hash, on a filter
    whose bit count is a positive multiple of 64 with that many bits allocated: adding `keys` one
    after the other accesses only words that are there; afterwards every key is tested without an
    access outside the array, and those added are found; and `Decode` of `Encode` returns the
    filter.  `Decode` refuses every input too short for its bit count and on no input reads out of
    range. -/
theorem bloom_complete (hash : Key → ℕ) {bf : BloomFilter} (hsized : bf.Sized) (hfits : bf.Fits)
    (keys : List Key) :
    (∃ bf', bf.addAllAt hash keys = .ok bf'
      ∧ (∀ key, bf'.mayContainAt hash key = .ok (bf'.mayContainWith hash key))
      ∧ (∀ key ∈ keys, bf'.mayContainAt hash key = .ok true)
      ∧ BloomFilter.decodeAt bf'.encode = .ok bf')
    ∧ ∀ data, (∀ msg, BloomFilter.decodeAt data ≠ .error (.panic msg))
      ∧ (data.length < 16 ∨ 8 * (data.length - 16) < wordAt data 0 8 →
          ∃ e, BloomFilter.decodeAt data = .error (.error e)) := by
  refine ⟨⟨_, hsized.addAllAt_eq keys, ?_, ?_, ?_⟩, ?_⟩
  · intro key
    exact (hsized.addAllWith keys).mayContainAt_eq key
  · intro key hkey
    rw [(hsized.addAllWith keys).mayContainAt_eq key, hsized.mayContainWith_addAll hkey]
  · have hfits' : (keys.foldl (BloomFilter.addWith hash) bf).Fits := hfits.addAll keys
    rw [BloomFilter.decodeAt_eq, BloomFilter.decode_encode (hsized.addAllWith keys) hfits'.bits
      hfits'.numBits hfits'.numHash]
    rfl
  · intro data
    rw [BloomFilter.decodeAt_eq]
    refine ⟨?_, ?_⟩
    · intro msg
      cases BloomFilter.decode data <;> simp [Outcome.ofExcept]
    · intro hshort
      obtain ⟨e, he⟩ := BloomFilter.decode_short hshort
      exact ⟨e, by rw [he]; rfl⟩

/-- A filter of one word and three positions for a key, with two keys added. -/
theorem bloom_complete_word :
    ∃ bf' : BloomFilter,
      ({ bits := [0], numBits := 64, numHash := 3 } : BloomFilter).addAllAt List.length
          [[1], [2, 3]] = .ok bf'
        ∧ bf'.mayContainAt List.length [1] = .ok true
        ∧ bf'.mayContainAt List.length [2, 3] = .ok true
        ∧ BloomFilter.decodeAt bf'.encode = .ok bf' := by
  have hsized : ({ bits := [0], numBits := 64, numHash := 3 } : BloomFilter).Sized :=
    ⟨rfl, by decide⟩
  have hfits : ({ bits := [0], numBits := 64, numHash := 3 } : BloomFilter).Fits := by
    refine ⟨by decide, by decide, ?_⟩
    intro i
    cases i <;> simp
  obtain ⟨⟨bf', hadd, -, hfound, hround⟩, -⟩ :=
    bloom_complete List.length hsized hfits [[1], [2, 3]]
  exact ⟨bf', hadd, hfound [1] (by simp), hfound [2, 3] (by simp), hround⟩

end Lsmdb.Db
