import Mathlib.Data.List.Induction
import Mathlib.Tactic.Ring

namespace Lsmdb.Binary

/-!
# Binary formats — fixed-width words and CRC-32

Numbers in a fixed number of bytes, most significant byte first (`encoding/binary`'s
`BigEndian`), and the IEEE checksum of `hash/crc32`.  Writing keeps the value modulo the
width, as a conversion to the word type does; the two directions are inverse on words.
-/

/-- The lowest `w` bytes of `n`, most significant first. -/
def toBigEndian : ℕ → ℕ → List UInt8
  | 0, _ => []
  | w + 1, n => toBigEndian w (n / 256) ++ [UInt8.ofNat n]

/-- The number whose bytes are `bs`, most significant first. -/
def ofBigEndian (bs : List UInt8) : ℕ := bs.foldl (fun acc b => acc * 256 + b.toNat) 0

@[simp] theorem length_toBigEndian (w n : ℕ) : (toBigEndian w n).length = w := by
  induction w generalizing n with
  | zero => rfl
  | succ w ih => simp [toBigEndian, ih]

theorem ofBigEndian_concat (bs : List UInt8) (b : UInt8) :
    ofBigEndian (bs ++ [b]) = ofBigEndian bs * 256 + b.toNat := by
  simp [ofBigEndian]

/-- **Reading what was written** gives the number modulo the width. -/
theorem ofBigEndian_toBigEndian (w n : ℕ) :
    ofBigEndian (toBigEndian w n) = n % 256 ^ w := by
  induction w generalizing n with
  | zero => simp [toBigEndian, ofBigEndian, Nat.mod_one]
  | succ w ih =>
    have hbyte : (UInt8.ofNat n).toNat = n % 256 := by simp
    rw [toBigEndian, ofBigEndian_concat, ih, hbyte, pow_succ, mul_comm (256 ^ w) 256, Nat.mod_mul]
    omega

theorem ofBigEndian_toBigEndian_of_lt {w n : ℕ} (h : n < 256 ^ w) :
    ofBigEndian (toBigEndian w n) = n := by
  rw [ofBigEndian_toBigEndian, Nat.mod_eq_of_lt h]

theorem ofBigEndian_lt (bs : List UInt8) : ofBigEndian bs < 256 ^ bs.length := by
  induction bs using List.reverseRecOn with
  | nil => simp [ofBigEndian]
  | append_singleton bs b ih =>
    have hb := b.toNat_lt
    rw [ofBigEndian_concat, List.length_append, List.length_singleton, pow_succ]
    omega

/-- **Writing what was read** gives the bytes back. -/
theorem toBigEndian_ofBigEndian (bs : List UInt8) :
    toBigEndian bs.length (ofBigEndian bs) = bs := by
  induction bs using List.reverseRecOn with
  | nil => rfl
  | append_singleton bs b ih =>
    have hb := b.toNat_lt
    have hdiv : (ofBigEndian bs * 256 + b.toNat) / 256 = ofBigEndian bs := by omega
    have hlow : UInt8.ofNat (ofBigEndian bs * 256 + b.toNat) = b := by
      apply UInt8.toNat_inj.mp
      rw [UInt8.toNat_ofNat']
      omega
    rw [List.length_append, List.length_singleton, toBigEndian, ofBigEndian_concat, hdiv, hlow, ih]

theorem toBigEndian_ofBigEndian_of_length {w : ℕ} {bs : List UInt8} (h : bs.length = w) :
    toBigEndian w (ofBigEndian bs) = bs := by
  rw [← h, toBigEndian_ofBigEndian]

/-- The word of `n` bytes at position `pos` of a file. -/
def wordAt (b : List UInt8) (pos n : ℕ) : ℕ := ofBigEndian ((b.drop pos).take n)

theorem wordAt_append (pre rest : List UInt8) {pos w n : ℕ}
    (hpos : pre.length = pos) (hn : n < 256 ^ w) :
    wordAt (pre ++ (toBigEndian w n ++ rest)) pos w = n := by
  rw [wordAt, ← hpos, List.drop_left, List.take_left' (length_toBigEndian w n),
    ofBigEndian_toBigEndian_of_lt hn]

theorem wordAt_lt (b : List UInt8) (pos n : ℕ) : wordAt b pos n < 256 ^ n :=
  lt_of_lt_of_le (ofBigEndian_lt _) (Nat.pow_le_pow_right (by decide) (List.length_take_le _ _))

theorem toBigEndian_wordAt {b : List UInt8} {pos n : ℕ} (h : pos + n ≤ b.length) :
    toBigEndian n (wordAt b pos n) = (b.drop pos).take n := by
  apply toBigEndian_ofBigEndian_of_length
  rw [List.length_take, List.length_drop]
  omega

theorem wordAt_take {b : List UInt8} {pos n m : ℕ} (h : pos + n ≤ m) :
    wordAt (b.take m) pos n = wordAt b pos n := by
  rw [wordAt, wordAt, List.drop_take, List.take_take, Nat.min_eq_left (by omega)]

/-! ### CRC-32 -/

/-- One bit of the reflected CRC-32 division. -/
def crc32Bit (crc : UInt32) : UInt32 :=
  if crc &&& 1 = 1 then (crc >>> 1) ^^^ 0xEDB88320 else crc >>> 1

/-- One byte of the division. -/
def crc32Byte (crc : UInt32) (b : UInt8) : UInt32 :=
  (List.range 8).foldl (fun c _ => crc32Bit c) (crc ^^^ b.toUInt32)

/-- `crc32.ChecksumIEEE`. -/
def checksumIEEE (data : List UInt8) : UInt32 :=
  data.foldl crc32Byte 0xFFFFFFFF ^^^ 0xFFFFFFFF

/-- The value of `checksumIEEE`. -/
def crc32 (data : List UInt8) : ℕ :=
  (data.foldl crc32Byte 0xFFFFFFFF ^^^ 0xFFFFFFFF).toNat

-- the check value of the IEEE polynomial: the digits "123456789"
example : crc32 [49, 50, 51, 52, 53, 54, 55, 56, 57] = 0xCBF43926 := by decide +kernel

theorem crc32_lt (data : List UInt8) : crc32 data < 256 ^ 4 := UInt32.toNat_lt _

end Lsmdb.Binary
