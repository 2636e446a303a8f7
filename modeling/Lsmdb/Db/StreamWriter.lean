import Lsmdb.Db.SSTable

namespace Lsmdb.Db

open Lsmdb.Versions

/-!
# SSTables written as a stream

`internal/sstable/stream_writer.go`.  The writer keeps the bloom filter and the sparse index
while the records go to the file one by one; `data` stands for what the file holds.

`StreamWriter.finish_holding` — the table a writer finishes is the one `Write` writes.
-/

/-- `StreamWriter`. -/
@[ext] structure StreamWriter where
  expected : ℕ
  written : ℕ := 0
  dataOffset : ℕ := 0
  indexEntries : List IndexEntry := []
  bloom : BloomFilter
  minKey : Key := []
  maxKey : Key := []
  lastKey : Key := []
  closed : Bool := false
  data : List Record := []

/-- The largest length a record header can hold. -/
def maxUint32 : ℕ := 2 ^ 32 - 1

/-- `NewStreamWriter`, apart from the creation of the file. -/
def StreamWriter.new [BloomSize] (expected : ℕ) : Except String StreamWriter :=
  if expected = 0 then .error "streaming sstable requires a positive record count"
  else .ok { expected := expected, bloom := .new expected }

/-- The writer after one more record. -/
def StreamWriter.appended (w : StreamWriter) (record : Record) : StreamWriter :=
  { w with
    written := w.written + 1
    dataOffset := w.dataOffset + recordSize record
    indexEntries :=
      if w.written % indexStep = 0 then
        w.indexEntries ++ [{ key := record.key, offset := w.dataOffset }]
      else w.indexEntries
    bloom := w.bloom.add record.key
    minKey := if w.written = 0 then record.key else w.minKey
    maxKey := record.key
    lastKey := record.key
    data := w.data ++ [record] }

/-- `Add`, apart from the write to the file. -/
def StreamWriter.add (w : StreamWriter) (record : Record) : Except String StreamWriter :=
  if w.closed then .error "streaming sstable writer is closed"
  else if record.key = [] ∨ (0 < w.written ∧ record.key ≤ w.lastKey) then
    .error "streaming sstable keys must be non-empty and strictly sorted"
  else if w.expected ≤ w.written then
    .error s!"streaming sstable received more than {w.expected} records"
  else if maxUint32 < record.key.length ∨ maxUint32 < record.value.length then
    .error "sstable record field exceeds uint32 length"
  else .ok (w.appended record)

/-- The table the file would hold if it were finished now. -/
def StreamWriter.table (w : StreamWriter) : SSTable where
  data := w.data
  minKey := w.minKey
  maxKey := w.maxKey
  bloom := w.bloom
  index := w.indexEntries
  metaOffset := w.dataOffset
  recordCount := w.written

/-- `Finish`, apart from the writes to the file. -/
def StreamWriter.finish (w : StreamWriter) : Except String SSTable :=
  if w.closed then .error "streaming sstable writer is closed"
  else if w.written ≠ w.expected then
    .error s!"streaming sstable received {w.written} records, want {w.expected}"
  else .ok w.table

/-! ### What a writer holds -/

section Holding
variable [BloomSize]

/-- The writer of `expected` records after the records `rs`. -/
def StreamWriter.holding (expected : ℕ) (rs : List Record) : StreamWriter where
  expected := expected
  written := rs.length
  dataOffset := dataSize rs
  indexEntries := Db.indexEntries 0 0 rs
  bloom := (rs.map Record.key).foldl BloomFilter.add (BloomFilter.new expected)
  minKey := (rs.head?.map Record.key).getD []
  maxKey := (rs.getLast?.map Record.key).getD []
  lastKey := (rs.getLast?.map Record.key).getD []
  data := rs

theorem StreamWriter.new_eq {expected : ℕ} (h : expected ≠ 0) :
    StreamWriter.new expected = .ok (.holding expected []) := if_neg h

omit [BloomSize] in
theorem indexEntries_concat (rs : List Record) (r : Record) :
    ∀ i offset, indexEntries i offset (rs ++ [r])
      = indexEntries i offset rs
        ++ if (i + rs.length) % indexStep = 0 then
            [{ key := r.key, offset := offset + dataSize rs }] else [] := by
  induction rs with
  | nil =>
    intro i offset
    simp [indexEntries, dataSize]
  | cons x rs ih =>
    intro i offset
    have hplace : i + 1 + rs.length = i + (x :: rs).length := by
      rw [List.length_cons]
      omega
    have hoffset : offset + recordSize x + dataSize rs = offset + dataSize (x :: rs) := by
      rw [dataSize_cons]
      omega
    rw [List.cons_append, indexEntries, indexEntries]
    simp only [ih, hplace, hoffset]
    by_cases hi : i % indexStep = 0
    · rw [if_pos hi, if_pos hi, List.cons_append]
    · rw [if_neg hi, if_neg hi]

/-- What `Add` asks of the next record. -/
structure Extends (rs : List Record) (r : Record) : Prop where
  key_ne : r.key ≠ []
  last : ∀ x, rs.getLast? = some x → x.key < r.key
  key_length : r.key.length ≤ maxUint32
  value_length : r.value.length ≤ maxUint32

theorem StreamWriter.appended_holding (expected : ℕ) (rs : List Record) (r : Record) :
    (holding expected rs).appended r = holding expected (rs ++ [r]) := by
  have hindex := indexEntries_concat rs r 0 0
  rw [Nat.zero_add, Nat.zero_add] at hindex
  ext1
  · rfl
  · simp [appended, holding]
  · simp [appended, holding, dataSize]
  · show (if rs.length % indexStep = 0 then _ else _) = Db.indexEntries 0 0 (rs ++ [r])
    rw [hindex]
    by_cases hi : rs.length % indexStep = 0
    · rw [if_pos hi, if_pos hi]
      rfl
    · rw [if_neg hi, if_neg hi, List.append_nil]
      rfl
  · simp [appended, holding]
  · cases rs with
    | nil => rfl
    | cons x rs => rfl
  · simp [appended, holding]
  · simp [appended, holding]
  · rfl
  · rfl

theorem StreamWriter.add_holding {expected : ℕ} {rs : List Record} {r : Record}
    (h : Extends rs r) (hlen : rs.length < expected) :
    (holding expected rs).add r = .ok (holding expected (rs ++ [r])) := by
  have hsorted : ¬(r.key = [] ∨ (0 < (holding expected rs).written
      ∧ r.key ≤ (holding expected rs).lastKey)) := by
    rintro (hk | ⟨hpos, hle⟩)
    · exact h.key_ne hk
    · cases hlast : rs.getLast? with
      | none => simp [holding, List.getLast?_eq_none_iff.mp hlast] at hpos
      | some x =>
        have hkey : (holding expected rs).lastKey = x.key := by simp [holding, hlast]
        rw [hkey] at hle
        exact absurd (h.last x hlast) (not_lt.mpr hle)
  have hroom : ¬(holding expected rs).expected ≤ (holding expected rs).written :=
    Nat.not_le.mpr hlen
  have hsize : ¬(maxUint32 < r.key.length ∨ maxUint32 < r.value.length) := by
    have := h.key_length
    have := h.value_length
    omega
  have hopen : ¬(holding expected rs).closed = true := by simp [holding]
  rw [add, if_neg hopen, if_neg hsorted, if_neg hroom, if_neg hsize, appended_holding]

/-- **A finished stream is the table that `Write` writes.** -/
theorem StreamWriter.finish_holding {expected : ℕ} {rs : List Record}
    (hlen : rs.length = expected) :
    (holding expected rs).finish = .ok (SSTable.write rs) := by
  have hopen : ¬(holding expected rs).closed = true := by simp [holding]
  have hall : ¬(holding expected rs).written ≠ (holding expected rs).expected :=
    not_not.mpr hlen
  rw [finish, if_neg hopen, if_neg hall, ← hlen]
  rfl

end Holding

end Lsmdb.Db
