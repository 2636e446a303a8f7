import Lsmdb.Binary.Search
import Lsmdb.Db.Outcome
import Lsmdb.Db.SSTable

namespace Lsmdb.Db

open Lsmdb.Binary Lsmdb.Versions

/-!
# SSTable files

The bytes that `sstable.Write` puts into a file, and `Open`, `Get`, `Scan`, `LoadAll` and
`Iterator` on the bytes of any file.  Offsets and lengths taken from a footer are `int64` values,
so they may be negative; whatever they are used for may then return an error or panic
(`Fault`).  How much memory there is, is a parameter of `openTableWith`; `openTable` has no limit.

`Lsmdb.Db.SSTable` has the same readers on the sections of a complete file.
-/

/-! ### Writing -/

/-- `uint8(r.Type)`. -/
def RecordType.byte : RecordType → UInt8
  | .put => 0
  | .delete => 1

/-- The type a byte stands for: whatever is not a tombstone counts as a put. -/
def RecordType.ofByte (b : UInt8) : RecordType := if b = 1 then .delete else .put

/-- `| keyLen(4) | valLen(4) | seqNum(8) | type(1) | key | value |`. -/
def encodeRecord (r : Record) : List UInt8 :=
  toBigEndian 4 r.key.length ++ (toBigEndian 4 r.value.length ++ (toBigEndian 8 r.seqNum
    ++ (r.type.byte :: (r.key ++ r.value))))

/-- The data section. -/
def encodeData (rs : List Record) : List UInt8 := rs.flatMap encodeRecord

/-- `writeMetaBlock`. -/
def encodeMeta (minKey maxKey : Key) : List UInt8 :=
  toBigEndian 4 minKey.length ++ (minKey ++ (toBigEndian 4 maxKey.length ++ maxKey))

/-- `keyLen(4) | key | offset(8)`. -/
def encodeIndexEntry (e : IndexEntry) : List UInt8 :=
  toBigEndian 4 e.key.length ++ (e.key ++ toBigEndian 8 e.offset)

/-- The index section. -/
def encodeIndex (es : List IndexEntry) : List UInt8 := es.flatMap encodeIndexEntry

/-- The footer, from the lengths of the sections before it. -/
def encodeFooter (dataLen metaLen bloomLen indexLen recordCount : ℕ) : List UInt8 :=
  toBigEndian 8 dataLen ++ (toBigEndian 8 (dataLen + metaLen) ++ (toBigEndian 8 bloomLen
    ++ (toBigEndian 8 (dataLen + metaLen + bloomLen) ++ (toBigEndian 8 indexLen
      ++ toBigEndian 8 recordCount))))

/-- The sections of a table as bytes, without the footer. -/
def SSTable.sections (t : SSTable) : List UInt8 :=
  encodeData t.data ++ (encodeMeta t.minKey t.maxKey ++ (t.bloom.encode ++ encodeIndex t.index))

/-- The whole file. -/
def SSTable.encode (t : SSTable) : List UInt8 :=
  t.sections ++ encodeFooter (encodeData t.data).length (encodeMeta t.minKey t.maxKey).length
    t.bloom.encode.length (encodeIndex t.index).length t.recordCount

/-- `Write`: the file it has created, if any.  A file is at most `2 ^ 63 - 1` bytes long. -/
def writeFile [BloomSize] (records : List Record) : Except String (Option (List UInt8)) :=
  if records = [] then .ok none
  else if (SSTable.write records).encode.length < 2 ^ 63 then
    .ok (some (SSTable.write records).encode)
  else .error "write record: file too large"

/-! ### Opening -/

/-- `indexEntry`. -/
structure FileIndexEntry where
  key : Key
  offset : ℤ
  deriving DecidableEq, Repr

/-- `Reader`. -/
structure FileReader where
  file : List UInt8
  bf : BloomFilter
  index : List FileIndexEntry
  minKey : Key
  maxKey : Key
  recordCount : ℤ
  metaOffset : ℤ
  deriving DecidableEq, Repr

/-- `sstFooter`. -/
structure Footer where
  metaOffset : ℤ
  bloomOffset : ℤ
  bloomLen : ℤ
  indexOffset : ℤ
  indexLen : ℤ
  recordCount : ℤ
  deriving DecidableEq, Repr

def decodeFooter (buf : List UInt8) : Footer where
  metaOffset := int64 (wordAt buf 0 8)
  bloomOffset := int64 (wordAt buf 8 8)
  bloomLen := int64 (wordAt buf 16 8)
  indexOffset := int64 (wordAt buf 24 8)
  indexLen := int64 (wordAt buf 32 8)
  recordCount := int64 (wordAt buf 40 8)

/-- The keys of the metadata block. -/
def decodeMeta (buf : List UInt8) : Outcome (Key × Key) := do
  let minKeyLen ← uint32At buf 0
  let minKey ← slice buf 4 minKeyLen
  let maxKeyLen ← uint32At buf (4 + minKeyLen)
  let maxKey ← slice buf (4 + minKeyLen + 4) maxKeyLen
  return (minKey, maxKey)

/-- `decodeIndex`, from `pos` on. -/
def decodeIndex (rest : List UInt8) (pos : ℕ) (entries : List FileIndexEntry) :
    Except String (List FileIndexEntry) :=
  if rest = [] then .ok entries
  else if rest.length < 4 then .error s!"truncated index entry at pos {pos}"
  else
    let keyLen := wordAt rest 0 4
    let next := pos + 4
    if rest.length < 4 + keyLen + 8 then .error s!"truncated index key at pos {next}"
    else
      decodeIndex (rest.drop (4 + keyLen + 8)) (pos + (4 + keyLen + 8)) (entries ++ [{
        key := (rest.drop 4).take keyLen
        offset := int64 (wordAt rest (4 + keyLen) 8) }])
termination_by rest.length
decreasing_by
  rw [List.length_drop]
  omega

/-- The index section, which is left alone if its length is not positive. -/
def readIndex (room : ℕ → Bool) (file : List UInt8) (ft : Footer) :
    Outcome (List FileIndexEntry) :=
  if 0 < ft.indexLen then do
    let n ← makeBytes room ft.indexLen
    let buf ← wrap "read index" (readAt file n ft.indexOffset)
    wrap "decode index" (decodeIndex buf 0 [])
  else .ok []

/-- `Open`, without the path in its error; `room` says which sizes can be allocated. -/
def openTableWith (room : ℕ → Bool) (file : List UInt8) : Outcome FileReader := do
  if file.length < footerSize then
    throw (.error "sstable is too small to be valid")
  let footerBuf ← wrap "read footer" (readAt file footerSize ((file.length : ℤ) - footerSize))
  let ft := decodeFooter footerBuf
  let metaLen ← makeBytes room (subInt64 ft.bloomOffset ft.metaOffset)
  let metaBuf ← wrap "read metadata" (readAt file metaLen ft.metaOffset)
  let (minKey, maxKey) ← decodeMeta metaBuf
  let bloomLen ← makeBytes room ft.bloomLen
  let bloomBuf ← wrap "read bloom" (readAt file bloomLen ft.bloomOffset)
  let bf ← wrap "decode bloom" (BloomFilter.decode bloomBuf)
  let index ← readIndex room file ft
  return {
    file := file
    bf := bf
    index := index
    minKey := minKey
    maxKey := maxKey
    recordCount := ft.recordCount
    metaOffset := ft.metaOffset }

/-- `Open` with as much memory as it takes. -/
def openTable (file : List UInt8) : Outcome FileReader := openTableWith (fun _ => true) file

/-! ### Reading -/

namespace FileReader

/-- The key and the value of the record at `offset`, `n` bytes in all. -/
def readBody (r : FileReader) (n : ℕ) (offset : ℤ) : Outcome (List UInt8) :=
  if 0 < n then
    wrap s!"read record body at {offset}" (readAt r.file n (offset + recordHeaderSize))
  else .ok []

/-- `readRecordAt`. -/
def readRecordAt (r : FileReader) (offset : ℤ) : Outcome (Record × ℤ) := do
  let hdr ← wrap s!"read record header at {offset}" (readAt r.file recordHeaderSize offset)
  let keyLen := wordAt hdr 0 4
  let valLen := wordAt hdr 4 4
  let body ← r.readBody (keyLen + valLen) offset
  let record : Record := {
    key := body.take keyLen
    value := (body.drop keyLen).take valLen
    seqNum := wordAt hdr 8 8
    type := RecordType.ofByte (hdr.getD 16 0) }
  return (record, ((recordHeaderSize + keyLen + valLen : ℕ) : ℤ))

theorem readRecordAt_pos {r : FileReader} {offset : ℤ} {rec : Record} {size : ℤ}
    (h : r.readRecordAt offset = .ok (rec, size)) : 0 < size := by
  unfold readRecordAt at h
  simp only [bind, Except.bind, pure, Except.pure] at h
  split at h
  · simp at h
  split at h
  · simp at h
  · simp only [Except.ok.injEq, Prod.mk.injEq] at h
    rw [← h.2, recordHeaderSize]
    omega

/-- The binary search of `Get` and `Scan`. -/
def startOffset (r : FileReader) (key : Key) : ℤ :=
  match search r.index.length fun i => (r.index[i]?.map fun e => decide (key < e.key)).getD false with
  | 0 => 0
  | i + 1 => (r.index[i]?.map FileIndexEntry.offset).getD 0

/-- The loop of `Get`. -/
def getLoop (r : FileReader) (key : Key) (pos : ℤ) (best : Option Record) :
    Outcome (Option Record) :=
  if pos < r.metaOffset then
    match _h : r.readRecordAt pos with
    | .error e => .error e
    | .ok (rec, size) =>
        if rec.key = key then r.getLoop key (pos + size) (some (newer best rec))
        else if key < rec.key then .ok best
        else r.getLoop key (pos + size) best
  else .ok best
termination_by (r.metaOffset - pos).toNat
decreasing_by
  all_goals
    have := readRecordAt_pos _h
    omega

/-- `Get`. -/
def get (r : FileReader) (key : Key) : Outcome (Option Record) :=
  if !r.bf.mayContain key then .ok none
  else if key < r.minKey ∨ r.maxKey < key then .ok none
  else r.getLoop key (r.startOffset key) none

/-- The loop of `Scan`. -/
def scanLoop (r : FileReader) (lo hi : Key) (pos : ℤ) (byKey : List Record) :
    Outcome (List Record) :=
  if pos < r.metaOffset then
    match _h : r.readRecordAt pos with
    | .error e => .error e
    | .ok (rec, size) =>
        if hi < rec.key then .ok byKey
        else if rec.key < lo then r.scanLoop lo hi (pos + size) byKey
        else r.scanLoop lo hi (pos + size) (setNewer rec byKey)
  else .ok byKey
termination_by (r.metaOffset - pos).toNat
decreasing_by
  all_goals
    have := readRecordAt_pos _h
    omega

/-- `Scan`. -/
def scan (r : FileReader) (lo hi : Key) : Outcome (List Record) :=
  if hi < r.minKey ∨ r.maxKey < lo then .ok []
  else r.scanLoop lo hi (r.startOffset lo) []

/-- The loop of `LoadAll`. -/
def loadLoop (r : FileReader) (pos : ℤ) (records : List Record) : Outcome (List Record) :=
  if pos < r.metaOffset then
    match _h : r.readRecordAt pos with
    | .error e => .error e
    | .ok (rec, size) => r.loadLoop (pos + size) (records ++ [rec])
  else .ok records
termination_by (r.metaOffset - pos).toNat
decreasing_by
  have := readRecordAt_pos _h
  omega

/-- `LoadAll`. -/
def loadAll (r : FileReader) : Outcome (List Record) :=
  if r.recordCount < 0 then .error (.panic "makeslice: cap out of range")
  else r.loadLoop 0 []

/-- `Next` of an iterator at `pos`: the record and the new position, or nothing at the end. -/
def next (r : FileReader) (pos : ℤ) : Outcome (Option (Record × ℤ)) :=
  if r.metaOffset ≤ pos then .ok none
  else
    match r.readRecordAt pos with
    | .error e => .error e
    | .ok (rec, size) => .ok (some (rec, pos + size))

/-- What calls of `Next` return until the first one that returns nothing. -/
inductive Iterates (r : FileReader) : ℤ → List Record → Prop where
  | done {pos : ℤ} (h : r.next pos = .ok none) : Iterates r pos []
  | next {pos pos' : ℤ} {rec : Record} {rest : List Record}
      (h : r.next pos = .ok (some (rec, pos'))) (hrest : Iterates r pos' rest) :
      Iterates r pos (rec :: rest)

end FileReader

end Lsmdb.Db
