import Lsmdb.Db.SSTableFile

namespace Lsmdb.Db

open Lsmdb.Binary Lsmdb.Versions

/-!
# Reading an SSTable file back

`Open` finds in the bytes of a file that `Write` has created the sections that were written, and
the readers on the bytes then do what the readers on the sections do.

* `openTableWith_encode` — the sections are found.
* `written_table_decodes` — what `LoadAll`, `Iterator`, `Get` and `Scan` return.
-/

/-! ### Bytes at a place -/

theorem readAt_append (front mid back : List UInt8) :
    readAt (front ++ (mid ++ back)) mid.length front.length = .ok mid := by
  rw [readAt_natCast (by simp only [List.length_append]; omega), List.drop_left, List.take_left]

theorem makeBytes_natCast {room : ℕ → Bool} {n : ℕ} (h : room n = true) :
    makeBytes room n = .ok n := by
  unfold makeBytes
  rw [Int.toNat_natCast, h, if_neg (by simp)]

/-! ### Sections -/

theorem length_encodeRecord (r : Record) : (encodeRecord r).length = recordSize r := by
  simp only [encodeRecord, recordSize, recordHeaderSize, List.length_append, length_toBigEndian,
    List.length_cons]
  omega

theorem encodeData_append (rs rs' : List Record) :
    encodeData (rs ++ rs') = encodeData rs ++ encodeData rs' := List.flatMap_append

theorem encodeData_cons (r : Record) (rs : List Record) :
    encodeData (r :: rs) = encodeRecord r ++ encodeData rs := List.flatMap_cons

@[simp] theorem length_encodeData (rs : List Record) : (encodeData rs).length = dataSize rs := by
  induction rs with
  | nil => rfl
  | cons r rs ih => rw [encodeData_cons, List.length_append, length_encodeRecord, ih, dataSize_cons]

theorem RecordType.ofByte_byte (t : RecordType) : RecordType.ofByte t.byte = t := by
  cases t <;> decide

/-- The fields of a record fit their places. -/
def Record.Fits (r : Record) : Prop :=
  r.key.length < 2 ^ 32 ∧ r.value.length < 2 ^ 32 ∧ r.seqNum < 2 ^ 64

instance (r : Record) : Decidable r.Fits := inferInstanceAs (Decidable (_ ∧ _ ∧ _))

/-- The header of a record is its first 17 bytes. -/
theorem FileReader.readRecordAt_encode {r : FileReader} {front back : List UInt8} {rec : Record}
    (hfile : r.file = front ++ (encodeRecord rec ++ back)) (hfits : rec.Fits) :
    r.readRecordAt front.length = .ok (rec, recordSize rec) := by
  obtain ⟨hkey, hvalue, hseq⟩ := hfits
  let hdr : List UInt8 := toBigEndian 4 rec.key.length ++ (toBigEndian 4 rec.value.length
    ++ (toBigEndian 8 rec.seqNum ++ [rec.type.byte]))
  have hhdrLen : hdr.length = recordHeaderSize := by simp [hdr, recordHeaderSize]
  have hsplit : encodeRecord rec = hdr ++ (rec.key ++ rec.value) := by simp [encodeRecord, hdr]
  have hread : readAt r.file recordHeaderSize front.length = .ok hdr := by
    rw [hfile, hsplit, List.append_assoc, ← hhdrLen]
    exact readAt_append _ _ _
  have hbody : r.readBody (rec.key.length + rec.value.length) front.length
      = .ok (rec.key ++ rec.value) := by
    unfold FileReader.readBody
    split
    · have hbytes := readAt_append (front ++ hdr) (rec.key ++ rec.value) back
      rw [List.length_append, List.length_append, hhdrLen] at hbytes
      have hfile' : r.file = front ++ hdr ++ (rec.key ++ rec.value ++ back) := by
        rw [hfile, hsplit]
        simp
      rw [hfile', ← Int.natCast_add, hbytes]
      rfl
    · rename_i hzero
      have hnil : rec.key = [] ∧ rec.value = [] := by
        rw [← List.length_eq_zero_iff, ← List.length_eq_zero_iff]
        omega
      rw [hnil.1, hnil.2]
      rfl
  have hk : wordAt hdr 0 4 = rec.key.length := wordAt_append [] _ rfl hkey
  have hv : wordAt hdr 4 4 = rec.value.length :=
    wordAt_append (toBigEndian 4 rec.key.length) _ (by simp) hvalue
  have hs : wordAt hdr 8 8 = rec.seqNum := by
    rw [show hdr = (toBigEndian 4 rec.key.length ++ toBigEndian 4 rec.value.length)
      ++ (toBigEndian 8 rec.seqNum ++ [rec.type.byte]) by simp [hdr]]
    exact wordAt_append _ _ (by simp) hseq
  have ht : hdr.getD 16 0 = rec.type.byte := by
    have hfront : (toBigEndian 4 rec.key.length ++ (toBigEndian 4 rec.value.length
        ++ toBigEndian 8 rec.seqNum)).length = 16 := by simp
    rw [show hdr = (toBigEndian 4 rec.key.length ++ (toBigEndian 4 rec.value.length
      ++ toBigEndian 8 rec.seqNum)) ++ [rec.type.byte] by simp [hdr], List.getD_eq_getElem?_getD,
      List.getElem?_append_right (by omega), hfront]
    rfl
  unfold FileReader.readRecordAt
  rw [hread]
  simp only [wrap, bind, Except.bind, hk, hv, hs, ht, hbody, pure, Except.pure,
    RecordType.ofByte_byte, List.take_left, List.drop_left, List.take_length]
  rfl

theorem decodeMeta_encodeMeta {minKey maxKey : Key} (hmin : minKey.length < 2 ^ 32)
    (hmax : maxKey.length < 2 ^ 32) :
    decodeMeta (encodeMeta minKey maxKey) = .ok (minKey, maxKey) := by
  have hlen : (encodeMeta minKey maxKey).length = 4 + minKey.length + 4 + maxKey.length := by
    simp only [encodeMeta, List.length_append, length_toBigEndian]
    omega
  have hminLen : uint32At (encodeMeta minKey maxKey) 0 = .ok minKey.length := by
    rw [uint32At, if_pos (by omega)]
    exact congrArg _ (wordAt_append [] _ rfl hmin)
  have hminKey : slice (encodeMeta minKey maxKey) 4 minKey.length = .ok minKey := by
    rw [slice, if_pos (by omega), encodeMeta, List.drop_left' (by simp), List.take_left]
  have hsplit : encodeMeta minKey maxKey
      = (toBigEndian 4 minKey.length ++ minKey) ++ (toBigEndian 4 maxKey.length ++ maxKey) := by
    simp [encodeMeta]
  have hmaxLen : uint32At (encodeMeta minKey maxKey) (4 + minKey.length) = .ok maxKey.length := by
    rw [uint32At, if_pos (by omega), hsplit]
    exact congrArg _ (wordAt_append _ _ (by simp) hmax)
  have hmaxKey : slice (encodeMeta minKey maxKey) (4 + minKey.length + 4) maxKey.length
      = .ok maxKey := by
    rw [slice, if_pos (by omega), hsplit, ← List.append_assoc, List.drop_left' (by simp; omega),
      List.take_length]
  unfold decodeMeta
  simp only [hminLen, hminKey, hmaxLen, hmaxKey, bind, Except.bind, pure, Except.pure]

/-- An index entry as it is read. -/
def IndexEntry.toFile (e : IndexEntry) : FileIndexEntry where
  key := e.key
  offset := e.offset

/-- The fields of an index entry fit their places, as an `int64` the offset. -/
def IndexEntry.Fits (e : IndexEntry) : Prop := e.key.length < 2 ^ 32 ∧ e.offset < 2 ^ 63

theorem decodeIndex_encodeIndex {es : List IndexEntry} (h : ∀ e ∈ es, e.Fits) (pos : ℕ)
    (entries : List FileIndexEntry) :
    decodeIndex (encodeIndex es) pos entries = .ok (entries ++ es.map IndexEntry.toFile) := by
  induction es generalizing pos entries with
  | nil =>
      rw [decodeIndex, encodeIndex, List.flatMap_nil, if_pos rfl]
      simp
  | cons e es ih =>
      obtain ⟨⟨hkey, hoffset⟩, hes⟩ := List.forall_mem_cons.mp h
      have hsplit : encodeIndex (e :: es) = toBigEndian 4 e.key.length
          ++ (e.key ++ (toBigEndian 8 e.offset ++ encodeIndex es)) := by
        simp [encodeIndex, encodeIndexEntry]
      have hlen : (encodeIndex (e :: es)).length
          = 4 + e.key.length + 8 + (encodeIndex es).length := by
        rw [hsplit]
        simp only [List.length_append, length_toBigEndian]
        omega
      have hkeyLen : wordAt (encodeIndex (e :: es)) 0 4 = e.key.length := by
        rw [hsplit]
        exact wordAt_append [] _ rfl hkey
      have hk : ((encodeIndex (e :: es)).drop 4).take e.key.length = e.key := by
        rw [hsplit, List.drop_left' (by simp), List.take_left]
      have ho : wordAt (encodeIndex (e :: es)) (4 + e.key.length) 8 = e.offset := by
        rw [hsplit, ← List.append_assoc]
        exact wordAt_append _ _ (by simp) (by omega)
      have hrest : (encodeIndex (e :: es)).drop (4 + e.key.length + 8) = encodeIndex es := by
        rw [hsplit, ← List.append_assoc, ← List.append_assoc, List.drop_left' (by simp; omega)]
      rw [decodeIndex, if_neg (by intro hnil; rw [hnil] at hlen; simp at hlen; omega),
        if_neg (by omega)]
      simp only [hkeyLen, hk, ho, hrest, int64_of_lt hoffset]
      rw [if_neg (by omega), ih hes, List.map_cons, List.append_assoc]
      rfl

theorem decodeFooter_encodeFooter (dataLen metaLen bloomLen indexLen recordCount : ℕ)
    (h : dataLen + metaLen + bloomLen + indexLen < 2 ^ 63) (hcount : recordCount < 2 ^ 63) :
    decodeFooter (encodeFooter dataLen metaLen bloomLen indexLen recordCount) = {
      metaOffset := dataLen
      bloomOffset := (dataLen + metaLen : ℕ)
      bloomLen := bloomLen
      indexOffset := (dataLen + metaLen + bloomLen : ℕ)
      indexLen := indexLen
      recordCount := recordCount } := by
  -- the footer is six words
  have hwords : encodeFooter dataLen metaLen bloomLen indexLen recordCount
      = [] ++ [dataLen, dataLen + metaLen, bloomLen, dataLen + metaLen + bloomLen, indexLen,
          recordCount].flatMap (toBigEndian 8) := by
    simp [encodeFooter]
  have hsmall : ∀ i, [dataLen, dataLen + metaLen, bloomLen, dataLen + metaLen + bloomLen, indexLen,
      recordCount].getD i 0 < 2 ^ 64 := by
    intro i
    rcases i with _ | _ | _ | _ | _ | _ | i <;> simp <;> omega
  have hword := fun i hi => wordAt_flatMap [] hsmall (i := i) hi
  rw [← hwords] at hword
  simp only [List.length_nil, Nat.zero_add] at hword
  unfold decodeFooter
  rw [hword 0 (by simp), hword 1 (by simp), hword 2 (by simp), hword 3 (by simp),
    hword 4 (by simp), hword 5 (by simp)]
  simp only [List.getD_cons_zero, List.getD_cons_succ]
  rw [int64_of_lt (by omega), int64_of_lt (by omega), int64_of_lt (by omega),
    int64_of_lt (by omega), int64_of_lt (by omega), int64_of_lt hcount]

/-! ### Opening -/

/-- The fields of a table fit their places in a file. -/
structure SSTable.Fits (t : SSTable) : Prop where
  minKey : t.minKey.length < 2 ^ 32
  maxKey : t.maxKey.length < 2 ^ 32
  index : ∀ e ∈ t.index, e.Fits
  bloom : BloomFilter.decode t.bloom.encode = .ok t.bloom
  metaOffset : t.metaOffset = dataSize t.data
  count : t.recordCount < 2 ^ 63
  size : t.encode.length < 2 ^ 63

/-- The reader of a table's file. -/
def FileReader.of (t : SSTable) : FileReader where
  file := t.encode
  bf := t.bloom
  index := t.index.map IndexEntry.toFile
  minKey := t.minKey
  maxKey := t.maxKey
  recordCount := t.recordCount
  metaOffset := t.metaOffset

theorem length_encodeFooter (dataLen metaLen bloomLen indexLen recordCount : ℕ) :
    (encodeFooter dataLen metaLen bloomLen indexLen recordCount).length = footerSize := by
  simp [encodeFooter, footerSize]

theorem SSTable.readAt_sections (t : SSTable) :
    readAt t.encode (encodeMeta t.minKey t.maxKey).length (encodeData t.data).length
        = .ok (encodeMeta t.minKey t.maxKey)
      ∧ readAt t.encode t.bloom.encode.length
          ((encodeData t.data).length + (encodeMeta t.minKey t.maxKey).length : ℕ)
        = .ok t.bloom.encode
      ∧ readAt t.encode (encodeIndex t.index).length
          ((encodeData t.data).length + (encodeMeta t.minKey t.maxKey).length
            + t.bloom.encode.length : ℕ)
        = .ok (encodeIndex t.index) := by
  unfold SSTable.encode SSTable.sections
  generalize encodeData t.data = dataBytes, encodeMeta t.minKey t.maxKey = metaBytes,
    t.bloom.encode = bloomBytes, encodeIndex t.index = indexBytes,
    encodeFooter _ _ _ _ _ = footerBytes
  refine ⟨?_, ?_, ?_⟩
  · have := readAt_append dataBytes metaBytes (bloomBytes ++ indexBytes ++ footerBytes)
    simpa using this
  · have := readAt_append (dataBytes ++ metaBytes) bloomBytes (indexBytes ++ footerBytes)
    simpa using this
  · have := readAt_append (dataBytes ++ metaBytes ++ bloomBytes) indexBytes footerBytes
    simpa [Int.add_assoc] using this

theorem readIndex_of {t : SSTable} (h : t.Fits) {room : ℕ → Bool}
    (hroom : ∀ n ≤ t.encode.length, room n = true) {ft : Footer}
    (hoffset : ft.indexOffset = ((encodeData t.data).length
      + (encodeMeta t.minKey t.maxKey).length + t.bloom.encode.length : ℕ))
    (hlen : ft.indexLen = (encodeIndex t.index).length) :
    readIndex room t.encode ft = .ok (t.index.map IndexEntry.toFile) := by
  have hfits : (encodeIndex t.index).length ≤ t.encode.length := by
    simp only [SSTable.encode, SSTable.sections, List.length_append]
    omega
  unfold readIndex
  rw [hlen, hoffset]
  split
  · rw [makeBytes_natCast (hroom _ hfits)]
    simp only [bind, Except.bind]
    rw [t.readAt_sections.2.2]
    simp only [wrap, decodeIndex_encodeIndex h.index, List.nil_append]
  · -- an index section of no length has no entries
    rename_i hnone
    have hnil : t.index = [] := by
      cases hidx : t.index with
      | nil => rfl
      | cons e es =>
          rw [hidx] at hnone
          simp only [encodeIndex, encodeIndexEntry, List.flatMap_cons, List.length_append,
            length_toBigEndian] at hnone
          omega
    rw [hnil]
    rfl

/-- **`Open` finds the sections of a table's file**, if a buffer of the file's size can be
    allocated. -/
theorem openTableWith_encode {t : SSTable} (h : t.Fits) {room : ℕ → Bool}
    (hroom : ∀ n ≤ t.encode.length, room n = true) :
    openTableWith room t.encode = .ok (FileReader.of t) := by
  have hlen : t.encode.length = t.sections.length + footerSize := by
    rw [SSTable.encode, List.length_append, length_encodeFooter]
  have hsum : t.sections.length = (encodeData t.data).length
      + (encodeMeta t.minKey t.maxKey).length + t.bloom.encode.length
      + (encodeIndex t.index).length := by
    simp only [SSTable.sections, List.length_append]
    omega
  have hsize := h.size
  have hfooter : readAt t.encode footerSize ((t.encode.length : ℤ) - footerSize)
      = .ok (encodeFooter (encodeData t.data).length (encodeMeta t.minKey t.maxKey).length
          t.bloom.encode.length (encodeIndex t.index).length t.recordCount) := by
    have hread := readAt_append t.sections (encodeFooter (encodeData t.data).length
      (encodeMeta t.minKey t.maxKey).length t.bloom.encode.length (encodeIndex t.index).length
      t.recordCount) []
    rw [List.append_nil, length_encodeFooter] at hread
    rw [show ((t.encode.length : ℤ) - footerSize) = t.sections.length by omega]
    exact hread
  have hft := decodeFooter_encodeFooter (encodeData t.data).length
    (encodeMeta t.minKey t.maxKey).length t.bloom.encode.length (encodeIndex t.index).length
    t.recordCount (by omega) h.count
  unfold openTableWith
  rw [hfooter]
  simp only [bind, Except.bind, wrap, hft]
  rw [if_neg (by omega), subInt64_natCast_add _ (by omega)]
  simp only [makeBytes_natCast (hroom (encodeMeta t.minKey t.maxKey).length (by omega)),
    makeBytes_natCast (hroom t.bloom.encode.length (by omega)), t.readAt_sections.1,
    decodeMeta_encodeMeta h.minKey h.maxKey, t.readAt_sections.2.1, h.bloom]
  rw [readIndex_of h hroom rfl rfl, FileReader.of, h.metaOffset, length_encodeData]
  rfl

theorem openTable_encode {t : SSTable} (h : t.Fits) :
    openTable t.encode = .ok (FileReader.of t) :=
  openTableWith_encode h fun _ _ => rfl

/-! ### The readers -/

theorem indexEntries_pairwise {rs : List Record} (hasc : Ascending rs) (i offset : ℕ) :
    (indexEntries i offset rs).Pairwise fun a b => a.key < b.key := by
  induction rs generalizing i offset with
  | nil => exact List.Pairwise.nil
  | cons r rs ih =>
      obtain ⟨hr, htail⟩ := List.pairwise_cons.mp hasc
      unfold indexEntries
      simp only
      split
      · refine List.Pairwise.cons (fun e he => ?_) (ih htail _ _)
        obtain ⟨front, r', rest, hrs, hkey, -⟩ := mem_indexEntries he
        rw [hkey]
        exact hr r' (by rw [hrs]; simp)
      · exact ih htail _ _

section Written
variable [BloomSize] {records : List Record}

omit [BloomSize] in
theorem length_le_dataSize (rs : List Record) : 17 * rs.length ≤ dataSize rs := by
  induction rs with
  | nil => simp
  | cons r rs ih =>
      rw [List.length_cons, dataSize_cons, recordSize, recordHeaderSize]
      omega

/-- The filter of a table of fewer than `2 ^ 59` records is read back. -/
theorem SSTable.bloom_write (hcount : 17 * records.length < 2 ^ 63) :
    BloomFilter.decode (write records).bloom.encode = .ok (write records).bloom := by
  have hwords := BloomSize.words_le records.length
  have hhash := BloomSize.numHash_le records.length
  refine BloomFilter.decode_encode ((BloomFilter.sized_new _).addAllWith _)
    (words64_addAll (words64_new _) _) ?_ ?_
  · show ((records.map Record.key).foldl (BloomFilter.addWith fnv64a)
      (BloomFilter.new records.length)).numBits < _
    rw [numBits_addAll, BloomFilter.new]
    dsimp only
    omega
  · show ((records.map Record.key).foldl (BloomFilter.addWith fnv64a)
      (BloomFilter.new records.length)).numHash < _
    rw [numHash_addAll, BloomFilter.new]
    dsimp only
    omega

theorem SSTable.length_bits_write :
    (write records).bloom.bits.length = BloomSize.words records.length := by
  have hsized := (BloomFilter.Sized.addAllWith (BloomFilter.sized_new records.length)
    (records.map Record.key) : ((records.map Record.key).foldl (BloomFilter.addWith fnv64a)
      (BloomFilter.new records.length)).Sized).numBits_eq
  rw [numBits_addAll, BloomFilter.new] at hsized
  dsimp only at hsized
  show ((records.map Record.key).foldl (BloomFilter.addWith fnv64a) _).bits.length = _
  rw [BloomFilter.new]
  omega

theorem SSTable.length_encode_write :
    (write records).encode.length = dataSize records
      + (8 + (write records).minKey.length + (write records).maxKey.length)
      + (16 + BloomSize.words records.length * 8) + (encodeIndex (write records).index).length
      + footerSize := by
  simp only [SSTable.encode, SSTable.sections, List.length_append, length_encodeFooter,
    length_encodeData, BloomFilter.length_encode, data_write, encodeMeta, length_toBigEndian,
    length_bits_write]
  omega

theorem SSTable.fits_write (hne : records ≠ []) (hfits : ∀ r ∈ records, r.Fits)
    (hsize : (write records).encode.length < 2 ^ 63) : (write records).Fits := by
  have hdata : dataSize records < 2 ^ 63 := by
    rw [length_encode_write] at hsize
    omega
  have hcount := length_le_dataSize records
  have hkey : ∀ r ∈ records, r.key.length < 2 ^ 32 := fun r hr => (hfits r hr).1
  refine ⟨?_, ?_, ?_, SSTable.bloom_write (by omega), rfl, ?_, hsize⟩
  · obtain ⟨r, rs, rfl⟩ := List.exists_cons_of_ne_nil hne
    exact hkey r (by simp)
  · obtain ⟨rs, r, rfl⟩ := (List.eq_nil_or_concat' records).resolve_left hne
    have hmax : (write (rs ++ [r])).maxKey = r.key := by simp [write]
    rw [hmax]
    exact hkey r (by simp)
  · intro e he
    obtain ⟨front, r, rest, hrs, hek, ho⟩ := mem_indexEntries he
    refine ⟨by rw [hek]; exact hkey r (by rw [hrs]; simp), ?_⟩
    rw [ho, Nat.zero_add]
    rw [hrs, dataSize_append] at hdata
    omega
  · show records.length < 2 ^ 63
    omega

theorem FileReader.read_of {front rest : List Record} {r : Record}
    (hrs : records = front ++ r :: rest) (hfits : ∀ r ∈ records, r.Fits) :
    (FileReader.of (.write records)).readRecordAt (dataSize front) = .ok (r, recordSize r) := by
  have hfile : (FileReader.of (.write records)).file = encodeData front ++ (encodeRecord r
      ++ (encodeData rest ++ (encodeMeta (SSTable.write records).minKey
        (SSTable.write records).maxKey ++ ((SSTable.write records).bloom.encode
          ++ (encodeIndex (SSTable.write records).index ++ encodeFooter
            (encodeData (SSTable.write records).data).length
            (encodeMeta (SSTable.write records).minKey (SSTable.write records).maxKey).length
            (SSTable.write records).bloom.encode.length
            (encodeIndex (SSTable.write records).index).length
            (SSTable.write records).recordCount))))) := by
    have hdata : encodeData (SSTable.write records).data
        = encodeData front ++ (encodeRecord r ++ encodeData rest) := by
      rw [SSTable.data_write, hrs, encodeData_append, encodeData_cons]
    show (SSTable.write records).encode = _
    rw [SSTable.encode, SSTable.sections, hdata]
    simp only [List.append_assoc]
  have hread := FileReader.readRecordAt_encode hfile (hfits r (by rw [hrs]; simp))
  rwa [length_encodeData] at hread

/-- The binary search lands where a search through the whole index does. -/
theorem FileReader.startOffset_of (hasc : Ascending records) (key : Key) :
    (FileReader.of (.write records)).startOffset key = ((SSTable.write records).startOffset key : ℕ)
    := by
  have hmono : ((SSTable.write records).index.map IndexEntry.toFile).Pairwise fun a b =>
      decide (key < a.key) = true → decide (key < b.key) = true := by
    rw [List.pairwise_map]
    refine (indexEntries_pairwise hasc 0 0).imp fun {a b} hab ha => ?_
    rw [decide_eq_true_iff] at ha ⊢
    exact ha.trans hab
  have hsearch := search_eq_findIdx _ _ hmono
  have hfind : ((SSTable.write records).index.map IndexEntry.toFile).findIdx
        (fun e => decide (key < e.key))
      = (SSTable.write records).index.findIdx fun e => decide (key < e.key) := by
    rw [List.findIdx_map]
    rfl
  unfold FileReader.startOffset SSTable.startOffset
  rw [show (FileReader.of (.write records)).index
    = (SSTable.write records).index.map IndexEntry.toFile from rfl, hsearch, hfind]
  cases (SSTable.write records).index.findIdx fun e => decide (key < e.key) with
  | zero => rfl
  | succ i =>
      dsimp only
      rw [List.getElem?_map]
      cases (SSTable.write records).index[i]? <;> rfl

theorem FileReader.metaOffset_of :
    (FileReader.of (.write records)).metaOffset = (dataSize records : ℕ) := rfl

theorem FileReader.turn_of {front rest : List Record} {r : Record}
    (hrs : records = front ++ r :: rest) :
    ((dataSize front : ℕ) : ℤ) < (FileReader.of (.write records)).metaOffset
      ∧ ((dataSize front : ℕ) : ℤ) + (recordSize r : ℕ) = (dataSize (front ++ [r]) : ℕ) := by
  obtain ⟨hlt, -, hnext⟩ := SSTable.read_write hrs
  exact ⟨Int.ofNat_lt.mpr hlt, by rw [← hnext]; rfl⟩

/-- **The loop of `Get` on the bytes follows the one on the sections.** -/
theorem FileReader.getLoop_of {front rest : List Record} (hrs : records = front ++ rest)
    (hfits : ∀ r ∈ records, r.Fits) (key : Key) {best found : Option Record}
    (h : (SSTable.write records).getLoop key (dataSize front) best = .ok found) :
    (FileReader.of (.write records)).getLoop key (dataSize front) best = .ok found := by
  induction rest generalizing front best with
  | nil =>
      rw [List.append_nil] at hrs
      subst hrs
      rw [SSTable.getLoop_end] at h
      rw [FileReader.getLoop, if_neg (by rw [FileReader.metaOffset_of]; exact lt_irrefl _)]
      exact congrArg _ (Except.ok.inj h)
  | cons r rest ih =>
      have hrs' : records = (front ++ [r]) ++ rest := by simp [hrs]
      obtain ⟨hlt, hnext⟩ := FileReader.turn_of hrs
      rw [SSTable.getLoop_cons hrs] at h
      rw [FileReader.getLoop, if_pos hlt]
      split
      next e herr => rw [FileReader.read_of hrs hfits] at herr; simp at herr
      next rec size hok =>
        rw [FileReader.read_of hrs hfits, Except.ok.injEq, Prod.mk.injEq] at hok
        obtain ⟨rfl, rfl⟩ := hok
        rw [hnext]
        by_cases hk : r.key = key
        · rw [if_pos hk] at h ⊢
          exact ih hrs' h
        rw [if_neg hk] at h ⊢
        by_cases habove : key < r.key
        · rw [if_pos habove] at h ⊢
          exact congrArg _ (Except.ok.inj h)
        · rw [if_neg habove] at h ⊢
          exact ih hrs' h

theorem FileReader.get_of (hasc : Ascending records) (hfits : ∀ r ∈ records, r.Fits) (key : Key) :
    (FileReader.of (.write records)).get key = .ok (find key records) := by
  have hget := SSTable.get_write hasc key
  unfold SSTable.get at hget
  unfold FileReader.get
  have hbf : (FileReader.of (.write records)).bf = (SSTable.write records).bloom := rfl
  have hmin : (FileReader.of (.write records)).minKey = (SSTable.write records).minKey := rfl
  have hmax : (FileReader.of (.write records)).maxKey = (SSTable.write records).maxKey := rfl
  rw [hbf, hmin, hmax]
  by_cases hbloom : (!(SSTable.write records).bloom.mayContain key) = true
  · rw [if_pos hbloom] at hget ⊢
    exact congrArg _ (Except.ok.inj hget)
  rw [if_neg hbloom] at hget ⊢
  by_cases hrange : key < (SSTable.write records).minKey ∨ (SSTable.write records).maxKey < key
  · rw [if_pos hrange] at hget ⊢
    exact congrArg _ (Except.ok.inj hget)
  rw [if_neg hrange] at hget ⊢
  obtain ⟨front, rest, hrs, hstart, -⟩ := SSTable.startOffset_write hasc key
  rw [FileReader.startOffset_of hasc, hstart]
  rw [hstart] at hget
  exact FileReader.getLoop_of hrs hfits key hget

/-- The loop of `Scan` on the bytes follows the one on the sections. -/
theorem FileReader.scanLoop_of {front rest : List Record} (hrs : records = front ++ rest)
    (hfits : ∀ r ∈ records, r.Fits) (lo hi : Key) {byKey found : List Record}
    (h : (SSTable.write records).scanLoop lo hi (dataSize front) byKey = .ok found) :
    (FileReader.of (.write records)).scanLoop lo hi (dataSize front) byKey = .ok found := by
  induction rest generalizing front byKey with
  | nil =>
      rw [List.append_nil] at hrs
      subst hrs
      rw [SSTable.scanLoop_end] at h
      rw [FileReader.scanLoop, if_neg (by rw [FileReader.metaOffset_of]; exact lt_irrefl _)]
      exact congrArg _ (Except.ok.inj h)
  | cons r rest ih =>
      have hrs' : records = (front ++ [r]) ++ rest := by simp [hrs]
      obtain ⟨hlt, hnext⟩ := FileReader.turn_of hrs
      rw [SSTable.scanLoop_cons hrs] at h
      rw [FileReader.scanLoop, if_pos hlt]
      split
      next e herr => rw [FileReader.read_of hrs hfits] at herr; simp at herr
      next rec size hok =>
        rw [FileReader.read_of hrs hfits, Except.ok.injEq, Prod.mk.injEq] at hok
        obtain ⟨rfl, rfl⟩ := hok
        rw [hnext]
        by_cases habove : hi < r.key
        · rw [if_pos habove] at h ⊢
          exact congrArg _ (Except.ok.inj h)
        rw [if_neg habove] at h ⊢
        by_cases hbelow : r.key < lo
        · rw [if_pos hbelow] at h ⊢
          exact ih hrs' h
        · rw [if_neg hbelow] at h ⊢
          exact ih hrs' h

theorem FileReader.scan_of (hasc : Ascending records) (hfits : ∀ r ∈ records, r.Fits)
    (lo hi : Key) :
    (FileReader.of (.write records)).scan lo hi = .ok (records.filter (inRange lo hi)) := by
  have hscan := SSTable.scan_write hasc lo hi
  unfold SSTable.scan at hscan
  unfold FileReader.scan
  have hmin : (FileReader.of (.write records)).minKey = (SSTable.write records).minKey := rfl
  have hmax : (FileReader.of (.write records)).maxKey = (SSTable.write records).maxKey := rfl
  rw [hmin, hmax]
  by_cases hrange : hi < (SSTable.write records).minKey ∨ (SSTable.write records).maxKey < lo
  · rw [if_pos hrange] at hscan ⊢
    exact congrArg _ (Except.ok.inj hscan)
  rw [if_neg hrange] at hscan ⊢
  obtain ⟨front, rest, hrs, hstart, -⟩ := SSTable.startOffset_write hasc lo
  rw [FileReader.startOffset_of hasc, hstart]
  rw [hstart] at hscan
  exact FileReader.scanLoop_of hrs hfits lo hi hscan

theorem FileReader.loadLoop_of {front rest : List Record} (hrs : records = front ++ rest)
    (hfits : ∀ r ∈ records, r.Fits) (loaded : List Record) :
    (FileReader.of (.write records)).loadLoop (dataSize front) loaded = .ok (loaded ++ rest) := by
  induction rest generalizing front loaded with
  | nil =>
      rw [List.append_nil] at hrs
      subst hrs
      rw [FileReader.loadLoop, if_neg (by rw [FileReader.metaOffset_of]; exact lt_irrefl _),
        List.append_nil]
  | cons r rest ih =>
      have hrs' : records = (front ++ [r]) ++ rest := by simp [hrs]
      obtain ⟨hlt, hnext⟩ := FileReader.turn_of hrs
      rw [FileReader.loadLoop, if_pos hlt]
      split
      next e herr => rw [FileReader.read_of hrs hfits] at herr; simp at herr
      next rec size hok =>
        rw [FileReader.read_of hrs hfits, Except.ok.injEq, Prod.mk.injEq] at hok
        obtain ⟨rfl, rfl⟩ := hok
        rw [hnext, ih hrs', List.append_assoc]
        rfl

theorem FileReader.iterates_of {front rest : List Record} (hrs : records = front ++ rest)
    (hfits : ∀ r ∈ records, r.Fits) :
    (FileReader.of (.write records)).Iterates (dataSize front) rest := by
  induction rest generalizing front with
  | nil =>
      rw [List.append_nil] at hrs
      subst hrs
      refine .done ?_
      rw [FileReader.next, if_pos (by rw [FileReader.metaOffset_of])]
  | cons r rest ih =>
      have hrs' : records = (front ++ [r]) ++ rest := by simp [hrs]
      obtain ⟨hlt, hnext⟩ := FileReader.turn_of hrs
      refine .next ?_ (ih hrs')
      rw [FileReader.next, if_neg (not_le.mpr hlt), FileReader.read_of hrs hfits]
      dsimp only
      rw [hnext]

/-- **An SSTable file decodes to what was written**: `Open` succeeds, `LoadAll` and `Iterator` return
    the records, `Get` the record of a key, and `Scan` the records of a range. -/
theorem written_table_decodes {file : List UInt8} (hne : records ≠ []) (hasc : Ascending records)
    (hfits : ∀ r ∈ records, r.Fits) (hwrite : writeFile records = .ok (some file)) :
    ∃ reader, openTable file = .ok reader
      ∧ reader.loadAll = .ok records
      ∧ reader.Iterates 0 records
      ∧ (∀ key, reader.get key = .ok (find key records))
      ∧ ∀ lo hi, reader.scan lo hi
          = .ok (records.filter fun r => decide (lo ≤ r.key ∧ r.key ≤ hi)) := by
  have hfile : file = (SSTable.write records).encode
      ∧ (SSTable.write records).encode.length < 2 ^ 63 := by
    unfold writeFile at hwrite
    rw [if_neg hne] at hwrite
    split at hwrite
    next hsize =>
      simp only [Except.ok.injEq, Option.some.injEq] at hwrite
      exact ⟨hwrite.symm, hsize⟩
    next => simp at hwrite
  obtain ⟨rfl, hsize⟩ := hfile
  have hstart : records = [] ++ records := rfl
  refine ⟨_, openTable_encode (SSTable.fits_write hne hfits hsize), ?_,
    FileReader.iterates_of hstart hfits, FileReader.get_of hasc hfits,
    FileReader.scan_of hasc hfits⟩
  have hcount : ¬(FileReader.of (.write records)).recordCount < 0 :=
    not_lt.mpr (Int.natCast_nonneg records.length)
  rw [FileReader.loadAll, if_neg hcount]
  exact FileReader.loadLoop_of hstart hfits []

end Written

/-- A put and a tombstone. -/
def sampleTable : List Record :=
  [{ key := [1], value := [2, 3], seqNum := 5, type := .put },
    { key := [1, 0], value := [], seqNum := 4, type := .delete }]

theorem written_table_decodes_sample :
    ∃ reader, openTable (@SSTable.write .sixteenBits sampleTable).encode = .ok reader
      ∧ reader.loadAll = .ok sampleTable := by
  let _ := BloomSize.sixteenBits
  have hsize : (SSTable.write sampleTable).encode.length < 2 ^ 63 := by
    rw [SSTable.length_encode_write]
    decide
  have hwrite : writeFile sampleTable = .ok (some (SSTable.write sampleTable).encode) := by
    rw [writeFile, if_neg (by decide), if_pos hsize]
  have hasc : Ascending sampleTable := by
    simp only [Ascending, sampleTable, List.pairwise_cons]
    decide
  obtain ⟨reader, hopen, hload, -⟩ := written_table_decodes (by decide) hasc (by decide) hwrite
  exact ⟨reader, hopen, hload⟩

end Lsmdb.Db
