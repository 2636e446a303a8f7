import Lsmdb.Db.SSTableRoundTrip
import Lsmdb.Db.StreamWriter

namespace Lsmdb.Db

open Lsmdb.Binary Lsmdb.Versions

/-!
# The two SSTable writers, byte by byte

`sstable.Write` and `StreamWriter` (`NewStreamWriter`, `Add`, `Finish`) with the bytes they append
to the file.  `Write` has all records at hand; the stream sees one at a time and keeps offsets,
sparse index, key range and bloom filter as it goes.  That a file operation fails is left out.

* `writeTable_eq` — `Write` appends the sections of `SSTable.write`.
* `writers_agree` — which sequences of `Add` and `Finish` succeed, and what they produce.
-/

/-! ### The end of a table -/

/-- The loop over the index entries, with what has been written of the file and the length of the
    section so far. -/
def writeIndex : List IndexEntry → List UInt8 → ℕ → List UInt8 × ℕ
  | [], file, indexLen => (file, indexLen)
  | e :: rest, file, indexLen =>
      writeIndex rest (file ++ encodeIndexEntry e) (indexLen + (encodeIndexEntry e).length)

/-- The 48 bytes of the footer. -/
def writeFooter (metaOffset bloomOffset bloomLen indexOffset indexLen count : ℕ) : List UInt8 :=
  toBigEndian 8 metaOffset ++ (toBigEndian 8 bloomOffset ++ (toBigEndian 8 bloomLen
    ++ (toBigEndian 8 indexOffset ++ (toBigEndian 8 indexLen ++ toBigEndian 8 count))))

/-- What both writers append after the last record. -/
def writeEnd (file : List UInt8) (dataOffset : ℕ) (minKey maxKey : Key) (bloom : BloomFilter)
    (indexEntries : List IndexEntry) (count : ℕ) : List UInt8 :=
  let metaOffset := dataOffset
  let metaSize := (encodeMeta minKey maxKey).length
  let bloomOffset := metaOffset + metaSize
  let bloomData := bloom.encode
  let indexOffset := bloomOffset + bloomData.length
  let index := writeIndex indexEntries (file ++ encodeMeta minKey maxKey ++ bloomData) 0
  index.1 ++ writeFooter metaOffset bloomOffset bloomData.length indexOffset index.2 count

/-! ### `Write` -/

/-- The loop of `Write` over the records from number `i` on: the offset, the sparse index and the
    file so far. -/
def writeRecords : ℕ → ℕ → List IndexEntry → List UInt8 → List Record →
    ℕ × List IndexEntry × List UInt8
  | _, dataOffset, indexEntries, file, [] => (dataOffset, indexEntries, file)
  | i, dataOffset, indexEntries, file, r :: rest =>
      writeRecords (i + 1) (dataOffset + recordSize r)
        (if i % indexStep = 0 then indexEntries ++ [{ key := r.key, offset := dataOffset }]
          else indexEntries)
        (file ++ encodeRecord r) rest

/-- `Write`: the file it leaves, of a list of records that is not empty. -/
def writeTable [BloomSize] (records : List Record) : List UInt8 :=
  let bf := (records.map Record.key).foldl BloomFilter.add (BloomFilter.new records.length)
  let written := writeRecords 0 0 [] [] records
  writeEnd written.2.2 written.1 ((records.head?.map Record.key).getD [])
    ((records.getLast?.map Record.key).getD []) bf written.2.1 records.length

/-! ### `StreamWriter` -/

/-- A writer and its file. -/
structure StreamFile where
  writer : StreamWriter
  file : List UInt8 := []

/-- `NewStreamWriter`. -/
def StreamFile.new [BloomSize] (expected : ℕ) : Except String StreamFile := do
  let writer ← StreamWriter.new expected
  return { writer := writer }

/-- `Add`. -/
def StreamFile.add (s : StreamFile) (record : Record) : Except String StreamFile := do
  let writer ← s.writer.add record
  return { writer := writer, file := s.file ++ encodeRecord record }

/-- `Finish`: the file it leaves. -/
def StreamFile.finish (s : StreamFile) : Except String (List UInt8) :=
  let w := s.writer
  if w.closed then .error "streaming sstable writer is closed"
  else if w.written ≠ w.expected then
    .error s!"streaming sstable received {w.written} records, want {w.expected}"
  else .ok (writeEnd s.file w.dataOffset w.minKey w.maxKey w.bloom w.indexEntries w.written)

/-- `Add` of one record after the other. -/
def StreamFile.addAll : StreamFile → List Record → Except String StreamFile
  | s, [] => .ok s
  | s, r :: rest => do
      let s ← s.add r
      s.addAll rest

/-- `NewStreamWriter` for `expected` records, `Add` of each of `records`, `Finish`. -/
def streamTable [BloomSize] (expected : ℕ) (records : List Record) :
    Except String (List UInt8) := do
  let s ← StreamFile.new expected
  let s ← s.addAll records
  s.finish

/-! ### What is appended -/

theorem writeIndex_eq (es : List IndexEntry) (file : List UInt8) (indexLen : ℕ) :
    writeIndex es file indexLen = (file ++ encodeIndex es, indexLen + (encodeIndex es).length) := by
  induction es generalizing file indexLen with
  | nil => simp [writeIndex, encodeIndex]
  | cons e es ih =>
    rw [writeIndex, ih]
    simp only [encodeIndex, List.flatMap_cons, List.length_append, List.append_assoc, Nat.add_assoc]

/-- The end of a table is its sections after the data, and the footer. -/
theorem writeEnd_eq (t : SSTable) (hoffset : t.metaOffset = (encodeData t.data).length) :
    writeEnd (encodeData t.data) t.metaOffset t.minKey t.maxKey t.bloom t.index t.recordCount
      = t.encode := by
  simp only [writeEnd, writeIndex_eq, hoffset, SSTable.encode, SSTable.sections, encodeFooter,
    writeFooter, List.append_assoc, Nat.zero_add]

theorem writeRecords_eq (rs : List Record) (i dataOffset : ℕ) (es : List IndexEntry)
    (file : List UInt8) :
    writeRecords i dataOffset es file rs
      = (dataOffset + dataSize rs, es ++ indexEntries i dataOffset rs, file ++ encodeData rs) := by
  induction rs generalizing i dataOffset es file with
  | nil => simp [writeRecords, dataSize, indexEntries, encodeData]
  | cons r rs ih =>
    rw [writeRecords, ih, dataSize_cons, indexEntries]
    simp only [encodeData, List.flatMap_cons, List.append_assoc, Nat.add_assoc]
    split <;> simp

section Writers
variable [BloomSize]

/-- **`Write` appends the sections of its table.** -/
theorem writeTable_eq (records : List Record) :
    writeTable records = (SSTable.write records).encode := by
  unfold writeTable
  simp only [writeRecords_eq, List.nil_append, Nat.zero_add]
  exact writeEnd_eq (SSTable.write records) (length_encodeData records).symm

/-- The writer and the file after the records `rs`. -/
def StreamFile.holding (expected : ℕ) (rs : List Record) : StreamFile where
  writer := .holding expected rs
  file := encodeData rs

/-- What the records of a stream have to be: at most as many as were announced, with keys that are
    not empty and strictly increase, and lengths that fit their fields. -/
structure Streamable (expected : ℕ) (rs : List Record) : Prop where
  length : rs.length ≤ expected
  ascending : Ascending rs
  keys : ∀ r ∈ rs, r.key ≠ []
  fields : ∀ r ∈ rs, r.key.length ≤ maxUint32 ∧ r.value.length ≤ maxUint32

omit [BloomSize] in
theorem Streamable.of_append {expected : ℕ} {rs rest : List Record}
    (h : Streamable expected (rs ++ rest)) : Streamable expected rs := by
  have hlen := h.length
  rw [List.length_append] at hlen
  refine ⟨by omega, (List.pairwise_append.mp h.ascending).1, fun r hr => ?_, fun r hr => ?_⟩
  · exact h.keys r (List.mem_append_left _ hr)
  · exact h.fields r (List.mem_append_left _ hr)

omit [BloomSize] in
theorem streamable_concat {expected : ℕ} {rs : List Record} {r : Record}
    (h : Streamable expected rs) :
    Streamable expected (rs ++ [r]) ↔ Extends rs r ∧ rs.length < expected := by
  constructor
  · intro h'
    have hlen := h'.length
    rw [List.length_append, List.length_singleton] at hlen
    have hr : r ∈ rs ++ [r] := List.mem_append_right _ List.mem_cons_self
    refine ⟨⟨h'.keys r hr, fun x hx => ?_, (h'.fields r hr).1, (h'.fields r hr).2⟩, hlen⟩
    exact (List.pairwise_append.mp h'.ascending).2.2 x (List.mem_of_getLast? hx) r
      List.mem_cons_self
  · rintro ⟨hext, hlen⟩
    have hbelow : ∀ x ∈ rs, x.key < r.key := by
      intro x hx
      obtain ⟨front, last, rfl⟩ :=
        (List.eq_nil_or_concat' rs).resolve_left (List.ne_nil_of_mem hx)
      have hlast : last.key < r.key := hext.last last (by simp)
      rcases List.mem_append.mp hx with hx | hx
      · exact ((List.pairwise_append.mp h.ascending).2.2 x hx last List.mem_cons_self).trans hlast
      · rw [List.mem_singleton.mp hx]
        exact hlast
    refine ⟨?_, ?_, fun x hx => ?_, fun x hx => ?_⟩
    · rw [List.length_append, List.length_singleton]
      exact hlen
    · refine List.pairwise_append.mpr ⟨h.ascending, List.pairwise_singleton _ _, fun x hx y hy => ?_⟩
      rw [List.mem_singleton.mp hy]
      exact hbelow x hx
    · rcases List.mem_append.mp hx with hx | hx
      · exact h.keys x hx
      · rw [List.mem_singleton.mp hx]
        exact hext.key_ne
    · rcases List.mem_append.mp hx with hx | hx
      · exact h.fields x hx
      · rw [List.mem_singleton.mp hx]
        exact ⟨hext.key_length, hext.value_length⟩

/-- `Add` takes a record exactly if it continues the table. -/
theorem StreamWriter.add_ok {expected : ℕ} {rs : List Record} {r : Record} {w : StreamWriter}
    (h : (StreamWriter.holding expected rs).add r = .ok w) :
    Extends rs r ∧ rs.length < expected := by
  unfold StreamWriter.add at h
  split at h
  · simp at h
  split at h
  · simp at h
  rename_i hkey
  split at h
  · simp at h
  rename_i hroom
  split at h
  · simp at h
  rename_i hsize
  push Not at hkey hroom hsize
  refine ⟨⟨hkey.1, fun x hx => ?_, hsize.1, hsize.2⟩, hroom⟩
  have hpos : 0 < rs.length :=
    List.length_pos_of_ne_nil (List.ne_nil_of_mem (List.mem_of_getLast? hx))
  have hlast : (StreamWriter.holding expected rs).lastKey = x.key := by
    simp [StreamWriter.holding, hx]
  have hlt := hkey.2 hpos
  rwa [hlast] at hlt

theorem StreamFile.add_holding {expected : ℕ} {rs : List Record} {r : Record}
    (h : Extends rs r) (hlen : rs.length < expected) :
    (StreamFile.holding expected rs).add r = .ok (.holding expected (rs ++ [r])) := by
  unfold StreamFile.add
  show ((StreamWriter.holding expected rs).add r).bind _ = _
  rw [StreamWriter.add_holding h hlen]
  simp only [Except.bind, StreamFile.holding, encodeData, List.flatMap_append, List.flatMap_cons,
    List.flatMap_nil, List.append_nil]
  rfl

omit [BloomSize] in
theorem StreamFile.add_error {s : StreamFile} {r : Record} {e : String}
    (h : s.writer.add r = .error e) : s.add r = .error e := by
  unfold StreamFile.add
  rw [h]
  rfl

theorem StreamFile.add_ok {expected : ℕ} {rs : List Record} {r : Record} {s : StreamFile}
    (h : (StreamFile.holding expected rs).add r = .ok s) :
    Extends rs r ∧ rs.length < expected := by
  cases hadd : (StreamWriter.holding expected rs).add r with
  | ok w => exact StreamWriter.add_ok hadd
  | error e =>
    rw [StreamFile.add_error hadd] at h
    simp at h

/-- **A sequence of `Add`s** succeeds exactly if the records can be streamed. -/
theorem StreamFile.addAll_ok_iff {expected : ℕ} {done rs : List Record} {s : StreamFile}
    (hdone : Streamable expected done) :
    (StreamFile.holding expected done).addAll rs = .ok s
      ↔ Streamable expected (done ++ rs) ∧ s = .holding expected (done ++ rs) := by
  induction rs generalizing done with
  | nil =>
    rw [List.append_nil, addAll, Except.ok.injEq, eq_comm]
    exact ⟨fun h => ⟨hdone, h⟩, fun h => h.2⟩
  | cons r rs ih =>
    have hsplit : done ++ r :: rs = (done ++ [r]) ++ rs := by simp
    rw [hsplit, addAll]
    cases hadd : (StreamFile.holding expected done).add r with
    | ok s' =>
      obtain ⟨hext, hlen⟩ := add_ok hadd
      rw [add_holding hext hlen] at hadd
      rw [← Except.ok.inj hadd]
      exact ih ((streamable_concat hdone).mpr ⟨hext, hlen⟩)
    | error e =>
      refine ⟨fun h => ?_, fun h => ?_⟩
      · simp [bind, Except.bind] at h
      · obtain ⟨hext, hlen⟩ := (streamable_concat hdone).mp h.1.of_append
        rw [add_holding hext hlen] at hadd
        simp at hadd

theorem StreamFile.finish_holding (expected : ℕ) (rs : List Record) :
    (rs.length = expected → (StreamFile.holding expected rs).finish = .ok (writeTable rs))
      ∧ (rs.length ≠ expected → ∃ e, (StreamFile.holding expected rs).finish = .error e) := by
  have hopen : ¬(StreamFile.holding expected rs).writer.closed = true := by
    simp [StreamFile.holding, StreamWriter.holding]
  unfold StreamFile.finish
  dsimp only
  rw [if_neg hopen]
  refine ⟨?_, fun hlen => ⟨_, if_pos hlen⟩⟩
  rintro rfl
  have hall : ¬(StreamFile.holding rs.length rs).writer.written
      ≠ (StreamFile.holding rs.length rs).writer.expected := not_not.mpr rfl
  rw [if_neg hall, writeTable_eq, ← writeEnd_eq (SSTable.write rs) (length_encodeData rs).symm]
  rfl

theorem streamTable_eq {expected : ℕ} (hpos : expected ≠ 0) (rs : List Record) :
    streamTable expected rs
      = ((StreamFile.holding expected []).addAll rs).bind StreamFile.finish := by
  unfold streamTable StreamFile.new
  rw [StreamWriter.new_eq hpos]
  rfl

theorem streamTable_error {expected : ℕ} (hpos : expected ≠ 0) {r : Record} {e : String}
    (h : (StreamWriter.holding expected []).add r = .error e) (rs : List Record) :
    streamTable expected (r :: rs) = .error e := by
  have hadd : (StreamFile.holding expected []).add r = .error e := StreamFile.add_error h
  rw [streamTable_eq hpos, StreamFile.addAll, hadd]
  rfl

/-- **The two writers agree.**  A stream announced for `expected` records succeeds if it gets exactly
    that many, at least one, with non-empty strictly increasing keys and with keys and values whose
    lengths fit 32 bits; it then leaves byte for byte the file of `Write`.  Any other sequence of
    records makes `NewStreamWriter`, some `Add` or `Finish` fail. -/
theorem writers_agree (expected : ℕ) (rs : List Record) :
    (rs ≠ [] ∧ rs.length = expected ∧ Streamable expected rs →
      streamTable expected rs = .ok (writeTable rs))
    ∧ (¬(rs ≠ [] ∧ rs.length = expected ∧ Streamable expected rs) →
      ∃ e, streamTable expected rs = .error e) := by
  have hnone : Streamable expected [] := ⟨Nat.zero_le _, List.Pairwise.nil, by simp, by simp⟩
  have hstart : ∀ {s}, (StreamFile.holding expected []).addAll rs = .ok s
      ↔ Streamable expected rs ∧ s = .holding expected rs := StreamFile.addAll_ok_iff hnone
  refine ⟨?_, fun hnot => ?_⟩
  · rintro ⟨hne, hlen, hrs⟩
    have hpos : expected ≠ 0 := by
      rw [← hlen]
      exact (List.length_pos_of_ne_nil hne).ne'
    rw [streamTable_eq hpos, hstart.mpr ⟨hrs, rfl⟩]
    exact (StreamFile.finish_holding expected rs).1 hlen
  · by_cases hpos : expected = 0
    · -- `NewStreamWriter` fails.
      refine ⟨"streaming sstable requires a positive record count", ?_⟩
      unfold streamTable StreamFile.new StreamWriter.new
      rw [if_pos hpos]
      rfl
    · rw [streamTable_eq hpos]
      cases hadd : (StreamFile.holding expected []).addAll rs with
      | error e => exact ⟨e, rfl⟩
      | ok s =>
        obtain ⟨hrs, rfl⟩ := hstart.mp hadd
        refine (StreamFile.finish_holding expected rs).2 fun hlen => hnot ⟨?_, hlen, hrs⟩
        rintro rfl
        exact hpos hlen.symm

end Writers

/-- The two records of `sampleTable`, as a stream of two and as one of three. -/
theorem writers_agree_sample :
    @streamTable .sixteenBits 2 sampleTable = .ok (@writeTable .sixteenBits sampleTable)
      ∧ ∃ e, @streamTable .sixteenBits 3 sampleTable = .error e := by
  have hasc : Ascending sampleTable := by
    simp only [Ascending, sampleTable, List.pairwise_cons]
    decide
  refine ⟨(@writers_agree .sixteenBits 2 sampleTable).1 ⟨by decide, rfl, ?_⟩,
    (@writers_agree .sixteenBits 3 sampleTable).2 fun h => absurd h.2.1 (by decide)⟩
  exact ⟨by decide, hasc, by decide, by decide⟩

/-- A record with a value of `n` zeros. -/
def zeros (n : ℕ) : Record :=
  { key := [1], value := List.replicate n 0, seqNum := 1, type := .put }

/-- One record with a value of `2 ^ 32` bytes: `Write` writes it (with a length of zero), and `Add`
    refuses it. -/
theorem stream_refuses_long :
    Ascending [zeros (2 ^ 32)] ∧ (zeros (2 ^ 32)).key ≠ []
      ∧ @streamTable .sixteenBits 1 [zeros (2 ^ 32)]
          = .error "sstable record field exceeds uint32 length" := by
  have hlong : maxUint32 < (zeros (2 ^ 32)).value.length := by
    rw [zeros, List.length_replicate]
    decide
  have hadd : (@StreamWriter.holding .sixteenBits 1 []).add (zeros (2 ^ 32))
      = .error "sstable record field exceeds uint32 length" := by
    have hkey : ¬((zeros (2 ^ 32)).key = [] ∨ (0 < (@StreamWriter.holding .sixteenBits 1 []).written
        ∧ (zeros (2 ^ 32)).key ≤ (@StreamWriter.holding .sixteenBits 1 []).lastKey)) := by
      rintro (h | h)
      · exact absurd h (by decide)
      · exact absurd h.1 (by decide)
    unfold StreamWriter.add
    rw [if_neg (by decide), if_neg hkey, if_neg (by decide), if_pos (Or.inr hlong)]
  refine ⟨List.pairwise_singleton _ _, by decide, ?_⟩
  exact @streamTable_error .sixteenBits 1 (by decide) (zeros (2 ^ 32)) _ hadd []

end Lsmdb.Db
