import Lsmdb.Binary.Words

namespace Lsmdb.Wal

open Lsmdb.Binary List

/-!
# The WAL as bytes

`Append` and `ReadAll` of `internal/wal/wal.go` on the bytes of the file.  The checksum is a
parameter `crc`: nothing here depends on which function it is.

`ReadAll` looks at the rest of the file once for each turn of its loop.  `readHead` is that look
and `readLoop` the loop; what a record, a record cut short and an oversized record look like to
`readHead` is proved first, and the results about whole files are inductions over the loop.
-/

/-! ### Format -/

def typePut : UInt8 := 1

def typeDelete : UInt8 := 2

def maxKeyLen : ℕ := 16 * 2 ^ 10

def maxValLen : ℕ := 64 * 2 ^ 20

/-- One WAL entry. -/
structure Record where
  type : UInt8
  seqNum : UInt64
  key : List UInt8
  value : List UInt8
  deriving DecidableEq, Repr

/-- The record has one of the two types the log knows. -/
def Record.Known (r : Record) : Prop := r.type = typePut ∨ r.type = typeDelete

instance (r : Record) : Decidable r.Known := inferInstanceAs (Decidable (_ ∨ _))

/-- The record is within the limits of `ReadAll`. -/
def Record.Within (r : Record) : Prop :=
  r.key.length ≤ maxKeyLen ∧ r.value.length ≤ maxValLen

instance (r : Record) : Decidable r.Within := inferInstanceAs (Decidable (_ ∧ _))

/-- The lengths of the record fit their fields. -/
def Record.Short (r : Record) : Prop :=
  r.key.length < 256 ^ 4 ∧ r.value.length < 256 ^ 4

theorem Record.Within.short {r : Record} (h : r.Within) : r.Short := by
  have hk : maxKeyLen < 256 ^ 4 := by decide
  have hv : maxValLen < 256 ^ 4 := by decide
  exact ⟨lt_of_le_of_lt h.1 hk, lt_of_le_of_lt h.2 hv⟩

/-- `| type(1) | seq(8) | keyLen(4) | valLen(4) |`. -/
def header (r : Record) : List UInt8 :=
  r.type :: (toBigEndian 8 r.seqNum.toNat ++ (toBigEndian 4 r.key.length
    ++ toBigEndian 4 r.value.length))

/-- The bytes of the record that the checksum covers. -/
def covered (r : Record) : List UInt8 := header r ++ (r.key ++ r.value)

section Checksum
variable (crc : List UInt8 → UInt32)

/-- The bytes `Append` writes. -/
def encode (r : Record) : List UInt8 := covered r ++ toBigEndian 4 (crc (covered r)).toNat

/-- The encodings one after the other. -/
def encodeAll (rs : List Record) : List UInt8 := rs.flatMap (encode crc)

/-- What `ReadAll` finds at its position: nothing it can read on from, the end of the file right
    behind a header, a record to skip, or a record. -/
inductive Head where
  | stop
  | eof
  | skip (size : ℕ)
  | record (r : Record) (size : ℕ)
  deriving DecidableEq, Repr

/-- One turn of the loop of `ReadAll`, on the rest of the file. -/
def readHead (rest : List UInt8) : Head :=
  if rest.length < 17 then .stop
  else
    let keyLen := wordAt rest 9 4
    let valLen := wordAt rest 13 4
    if maxKeyLen < keyLen ∨ maxValLen < valLen then .stop
    -- io.ReadFull reports EOF if there is not a single byte, and ErrUnexpectedEOF if there are
    -- some: only the second ends the loop
    else if rest.length = 17 then .eof
    else if rest.length < 17 + (keyLen + valLen + 4) then .stop
    else if (crc (rest.take (17 + (keyLen + valLen)))).toNat
        ≠ wordAt rest (17 + (keyLen + valLen)) 4 then
      .skip (17 + (keyLen + valLen + 4))
    else if rest.getD 0 0 ≠ typePut ∧ rest.getD 0 0 ≠ typeDelete then
      .skip (17 + (keyLen + valLen + 4))
    else
      .record {
          type := rest.getD 0 0
          seqNum := UInt64.ofNat (wordAt rest 1 8)
          key := (rest.drop 17).take keyLen
          value := (rest.drop (17 + keyLen)).take valLen }
        (17 + (keyLen + valLen + 4))

/-- The number of bytes the turn moves on by, if it does. -/
def Head.size : Head → ℕ
  | .stop => 0
  | .eof => 0
  | .skip size => size
  | .record _ size => size

/-- A turn of the loop stays in the file, and if it moves on, it has passed a header. -/
theorem readHead_size (rest : List UInt8) :
    (readHead crc rest).size ≤ rest.length
      ∧ ((readHead crc rest).size = 0 → readHead crc rest = .stop ∨ readHead crc rest = .eof) := by
  unfold readHead
  simp only
  split_ifs <;> simp [Head.size] <;> omega

theorem readHead_fields {rest : List UInt8} (h : (readHead crc rest).size ≠ 0) :
    (readHead crc rest).size = 17 + (wordAt rest 9 4 + wordAt rest 13 4 + 4) := by
  unfold readHead at h ⊢
  simp only at h ⊢
  split_ifs at h ⊢ <;> simp_all [Head.size]

/-- The loop of `ReadAll`. -/
def readLoop (rest : List UInt8) (pos validEnd : ℕ) (records : List Record) :
    Except String (List Record × ℕ) :=
  match _h : readHead crc rest with
  | .stop => .ok (records, validEnd)
  | .eof => .error "wal read body: EOF"
  | .skip size => readLoop (rest.drop size) (pos + size) validEnd records
  | .record r size => readLoop (rest.drop size) (pos + size) (pos + size) (records ++ [r])
termination_by rest.length
decreasing_by
  all_goals
    have hsize := readHead_size crc rest
    rw [_h] at hsize
    simp only [Head.size, reduceCtorEq, or_self, imp_false] at hsize
    rw [List.length_drop]
    omega

/-- `ReadAll`: the records, and the file it leaves. -/
def readAll (file : List UInt8) : Except String (List Record × List UInt8) :=
  match readLoop crc file 0 0 [] with
  | .error e => .error e
  | .ok (records, validEnd) => .ok (records, file.take validEnd)

/-! ### One record -/

@[simp] theorem length_header (r : Record) : (header r).length = 17 := by
  simp [header]

@[simp] theorem length_covered (r : Record) :
    (covered r).length = 17 + (r.key.length + r.value.length) := by
  simp [covered]

@[simp] theorem length_encode (r : Record) :
    (encode crc r).length = 17 + (r.key.length + r.value.length + 4) := by
  simp only [encode, length_append, length_covered, length_toBigEndian]
  omega

@[simp] theorem encodeAll_nil : encodeAll crc [] = [] := rfl

@[simp] theorem encodeAll_cons (r : Record) (rs : List Record) :
    encodeAll crc (r :: rs) = encode crc r ++ encodeAll crc rs := by
  simp [encodeAll]

@[simp] theorem encodeAll_append (rs rs' : List Record) :
    encodeAll crc (rs ++ rs') = encodeAll crc rs ++ encodeAll crc rs' := List.flatMap_append

/-- The fields of a file that starts with a header. -/
theorem wordAt_header {r : Record} (h : r.Short) (tail : List UInt8) :
    wordAt (header r ++ tail) 9 4 = r.key.length
      ∧ wordAt (header r ++ tail) 13 4 = r.value.length
      ∧ wordAt (header r ++ tail) 1 8 = r.seqNum.toNat := by
  refine ⟨?_, ?_, ?_⟩
  · rw [show header r ++ tail = (r.type :: toBigEndian 8 r.seqNum.toNat)
        ++ (toBigEndian 4 r.key.length ++ (toBigEndian 4 r.value.length ++ tail)) by
      simp [header]]
    exact wordAt_append _ _ (by simp) h.1
  · rw [show header r ++ tail = (r.type :: (toBigEndian 8 r.seqNum.toNat
        ++ toBigEndian 4 r.key.length)) ++ (toBigEndian 4 r.value.length ++ tail) by
      simp [header]]
    exact wordAt_append _ _ (by simp) h.2
  · rw [show header r ++ tail = [r.type] ++ (toBigEndian 8 r.seqNum.toNat
        ++ (toBigEndian 4 r.key.length ++ (toBigEndian 4 r.value.length ++ tail))) by
      simp [header]]
    exact wordAt_append _ _ (by simp) (UInt64.toNat_lt _)

/-- The encoding is the header, the key, the value and the checksum. -/
theorem encode_eq (r : Record) :
    encode crc r
      = header r ++ (r.key ++ (r.value ++ toBigEndian 4 (crc (covered r)).toNat)) := by
  simp [encode, covered]

/-- **A complete record is read back**, whatever follows it; one of an unknown type is skipped. -/
theorem readHead_encode {r : Record} (h : r.Within) (tail : List UInt8) :
    readHead crc (encode crc r ++ tail)
      = if r.Known then .record r (encode crc r).length else .skip (encode crc r).length := by
  have hhead : encode crc r ++ tail
      = header r ++ (r.key ++ (r.value ++ (toBigEndian 4 (crc (covered r)).toNat ++ tail))) := by
    simp [encode_eq]
  obtain ⟨hkey, hval, hseq⟩ := wordAt_header h.short
    (r.key ++ (r.value ++ (toBigEndian 4 (crc (covered r)).toNat ++ tail)))
  rw [← hhead] at hkey hval hseq
  have htype : (encode crc r ++ tail).getD 0 0 = r.type := rfl
  have hlen : (encode crc r ++ tail).length
      = 17 + (r.key.length + r.value.length + 4) + tail.length := by simp
  have hbody : (encode crc r ++ tail).take (17 + (r.key.length + r.value.length)) = covered r := by
    rw [encode, append_assoc]
    exact take_left' (length_covered r)
  have hcrc : wordAt (encode crc r ++ tail) (17 + (r.key.length + r.value.length)) 4
      = (crc (covered r)).toNat := by
    rw [encode, append_assoc]
    exact wordAt_append _ _ (length_covered r) (UInt32.toNat_lt _)
  have hk : ((encode crc r ++ tail).drop 17).take r.key.length = r.key := by
    rw [hhead, drop_left' (length_header r), take_left' rfl]
  have hv : ((encode crc r ++ tail).drop (17 + r.key.length)).take r.value.length = r.value := by
    rw [hhead, ← append_assoc, drop_left' (by simp), take_left' rfl]
  unfold readHead
  simp only [hkey, hval, hseq, htype, hbody, hcrc, hk, hv, length_encode]
  rw [if_neg (by omega), if_neg (by have := h.1; have := h.2; omega), if_neg (by omega),
    if_neg (by omega), if_neg (by simp), UInt64.ofNat_toNat]
  by_cases hknown : r.Known
  · rw [if_pos hknown, if_neg (fun hneither => hknown.elim hneither.1 hneither.2)]
  · rw [if_neg hknown, if_pos (not_or.mp hknown)]

/-- **A header without its whole body ends the reading**, with an error if nothing follows it.
    It does not matter whether the bytes behind the header are its own. -/
theorem readHead_header {r : Record} (h : r.Within) {tail : List UInt8}
    (htail : tail.length < r.key.length + r.value.length + 4) :
    readHead crc (header r ++ tail) = if tail = [] then .eof else .stop := by
  obtain ⟨hkey, hval, -⟩ := wordAt_header h.short tail
  have hlen : (header r ++ tail).length = 17 + tail.length := by simp
  unfold readHead
  simp only [hkey, hval, hlen]
  rw [if_neg (by omega), if_neg (by have := h.1; have := h.2; omega)]
  by_cases hnil : tail = []
  · rw [if_pos (by simp [hnil]), if_pos hnil]
  · have hpos : 0 < tail.length := length_pos_iff.mpr hnil
    rw [if_neg (by omega), if_pos (by omega), if_neg hnil]

/-- A record cut short ends the reading; cut right behind its header, it is an error. -/
theorem readHead_torn {r : Record} (h : r.Within) {n : ℕ} (hn : n < (encode crc r).length) :
    readHead crc ((encode crc r).take n) = if n = 17 then .eof else .stop := by
  rw [length_encode] at hn
  by_cases h17 : n < 17
  · unfold readHead
    rw [if_pos (by simp; omega), if_neg (by omega)]
  have hcut : (encode crc r).take n = header r
      ++ (r.key ++ (r.value ++ toBigEndian 4 (crc (covered r)).toNat)).take (n - 17) := by
    rw [encode_eq, take_append, length_header, take_of_length_le (by simp; omega)]
  rw [hcut, readHead_header crc h (by simp; omega)]
  simp only [← length_eq_zero_iff]
  congr 1
  simp
  omega

theorem readHead_beyond {r : Record} (hs : r.Short) (h : ¬r.Within) (tail : List UInt8) :
    readHead crc (encode crc r ++ tail) = .stop := by
  have hhead : encode crc r ++ tail
      = header r ++ (r.key ++ (r.value ++ (toBigEndian 4 (crc (covered r)).toNat ++ tail))) := by
    simp [encode_eq]
  obtain ⟨hkey, hval, -⟩ := wordAt_header hs
    (r.key ++ (r.value ++ (toBigEndian 4 (crc (covered r)).toNat ++ tail)))
  rw [← hhead] at hkey hval
  unfold readHead
  simp only [hkey, hval]
  rw [if_neg (by simp; omega), if_pos (by unfold Record.Within at h; omega)]

/-- **A turn of the loop reads only the bytes it moves on by.** -/
theorem readHead_local {rest rest' : List UInt8} (hpos : (readHead crc rest).size ≠ 0)
    (htake : rest'.take (readHead crc rest).size = rest.take (readHead crc rest).size) :
    readHead crc rest' = readHead crc rest := by
  have hsize := (readHead_size crc rest).1
  generalize hs : (readHead crc rest).size = size at hpos htake hsize
  have hlen : size ≤ rest'.length := by
    have := congrArg length htake
    simp only [length_take] at this
    omega
  -- every slice the turn looks at lies within those bytes
  have hslice : ∀ start n : ℕ, start + n ≤ size →
      (rest'.drop start).take n = (rest.drop start).take n := by
    intro start n h
    have hcut : ∀ l : List UInt8, (l.drop start).take n = ((l.take size).drop start).take n := by
      intro l
      rw [drop_take, take_take, Nat.min_eq_left (by omega)]
    rw [hcut, htake, ← hcut]
  have hword : ∀ start n : ℕ, start + n ≤ size → wordAt rest' start n = wordAt rest start n := by
    intro start n h
    rw [wordAt, wordAt, hslice start n h]
  have hget : 0 < size → rest'.getD 0 0 = rest.getD 0 0 := by
    intro h
    have hone := hslice 0 1 (by omega)
    cases rest <;> cases rest' <;> simp_all
  have hfields : size = 17 + (wordAt rest 9 4 + wordAt rest 13 4 + 4) := by
    rw [← hs] at hpos ⊢
    exact readHead_fields crc hpos
  have hcovered : rest'.take (17 + (wordAt rest 9 4 + wordAt rest 13 4))
      = rest.take (17 + (wordAt rest 9 4 + wordAt rest 13 4)) := hslice 0 _ (by omega)
  have hlong : ∀ l : List UInt8, size ≤ l.length → ¬l.length < 17 ∧ ¬l.length = 17
      ∧ ¬l.length < 17 + (wordAt rest 9 4 + wordAt rest 13 4 + 4) := by
    intro l hl
    omega
  unfold readHead
  simp only [hword 9 4 (by omega), hword 13 4 (by omega), hword 1 8 (by omega), hget (by omega),
    hword (17 + (wordAt rest 9 4 + wordAt rest 13 4)) 4 (by omega), hcovered,
    hslice 17 (wordAt rest 9 4) (by omega),
    hslice (17 + wordAt rest 9 4) (wordAt rest 13 4) (by omega), hlong rest' hlen,
    hlong rest hsize, if_false]

/-! ### The loop -/

variable {crc}

theorem readLoop_stop {rest : List UInt8} (h : readHead crc rest = .stop) (pos validEnd : ℕ)
    (records : List Record) :
    readLoop crc rest pos validEnd records = .ok (records, validEnd) := by
  rw [readLoop]
  split <;> simp_all

theorem readLoop_eof {rest : List UInt8} (h : readHead crc rest = .eof) (pos validEnd : ℕ)
    (records : List Record) :
    readLoop crc rest pos validEnd records = .error "wal read body: EOF" := by
  rw [readLoop]
  split <;> simp_all

theorem readLoop_skip {rest : List UInt8} {size : ℕ} (h : readHead crc rest = .skip size)
    (pos validEnd : ℕ) (records : List Record) :
    readLoop crc rest pos validEnd records
      = readLoop crc (rest.drop size) (pos + size) validEnd records := by
  rw [readLoop]
  split <;> simp_all

theorem readLoop_record {rest : List UInt8} {r : Record} {size : ℕ}
    (h : readHead crc rest = .record r size) (pos validEnd : ℕ) (records : List Record) :
    readLoop crc rest pos validEnd records
      = readLoop crc (rest.drop size) (pos + size) (pos + size) (records ++ [r]) := by
  rw [readLoop]
  split <;> simp_all

theorem readLoop_nil (pos validEnd : ℕ) (records : List Record) :
    readLoop crc [] pos validEnd records = .ok (records, validEnd) :=
  readLoop_stop (by simp [readHead]) pos validEnd records

variable (crc) in
/-- **Complete records are read, and the loop goes on behind them.** -/
theorem readLoop_encodeAll {rs : List Record} (hwithin : ∀ r ∈ rs, r.Within)
    (hknown : ∀ r ∈ rs, r.Known) (tail : List UInt8) (pos : ℕ) (records : List Record) :
    readLoop crc (encodeAll crc rs ++ tail) pos pos records
      = readLoop crc tail (pos + (encodeAll crc rs).length) (pos + (encodeAll crc rs).length)
          (records ++ rs) := by
  induction rs generalizing pos records with
  | nil => simp
  | cons r rs ih =>
      simp only [forall_mem_cons] at hwithin hknown
      have hhead := readHead_encode crc hwithin.1 (encodeAll crc rs ++ tail)
      rw [if_pos hknown.1] at hhead
      rw [encodeAll_cons, append_assoc, readLoop_record hhead, drop_left' rfl,
        ih hwithin.2 hknown.2, length_append, append_assoc, Nat.add_assoc]
      rfl

variable (crc) in
theorem readLoop_encodeAll_filter {rs : List Record} (hwithin : ∀ r ∈ rs, r.Within)
    (tail : List UInt8) (pos validEnd : ℕ) (records : List Record) :
    ∃ pos' validEnd', readLoop crc (encodeAll crc rs ++ tail) pos validEnd records
      = readLoop crc tail pos' validEnd' (records ++ rs.filter (·.Known)) := by
  induction rs generalizing pos validEnd records with
  | nil => exact ⟨pos, validEnd, by simp⟩
  | cons r rs ih =>
      simp only [forall_mem_cons] at hwithin
      have hhead := readHead_encode crc hwithin.1 (encodeAll crc rs ++ tail)
      rw [encodeAll_cons, append_assoc]
      by_cases hknown : r.Known
      · rw [if_pos hknown] at hhead
        obtain ⟨pos', validEnd', hrest⟩ := ih hwithin.2 (pos + (encode crc r).length)
          (pos + (encode crc r).length) (records ++ [r])
        refine ⟨pos', validEnd', ?_⟩
        rw [readLoop_record hhead, drop_left' rfl, hrest]
        simp [hknown]
      · rw [if_neg hknown] at hhead
        obtain ⟨pos', validEnd', hrest⟩ := ih hwithin.2 (pos + (encode crc r).length)
          validEnd records
        refine ⟨pos', validEnd', ?_⟩
        rw [readLoop_skip hhead, drop_left' rfl, hrest]
        simp [hknown]

end Checksum

end Lsmdb.Wal
