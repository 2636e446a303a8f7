import Lsmdb.Binary.Words
import Lsmdb.Binary.Framing
import Lsmdb.RaftStore.Stable

namespace Lsmdb.RaftStore

open Lsmdb.Raft Lsmdb.Binary

/-!
# Raft store — the formats of raft.log and SNAPSHOT

`encodeEntry` and `readLog`, `storeSnapshotStream` and `inspectSnapshot` of
`internal/raftstore/store.go`, on the bytes of the two files.

The log is a file of framed records: `readLog_eq` reads `readLog` as the general reader of
`Binary.Framing`, so what it returns of a cut or damaged file follows from the rules there.
Nothing in this depends on which checksum the records carry, so the format is described for
any checksum first.
`inspectSnapshot_snapshotFile` says which snapshots can be read back.
-/

/-! ### Records of raft.log -/

/-- `entryHeader`. -/
def entryHeader : ℕ := 8 + 8 + 4

/-- The bytes of a record before its checksum. -/
def entryBody (entry : Entry) : Bytes :=
  toBigEndian 8 entry.index ++ (toBigEndian 8 entry.term
    ++ (toBigEndian 4 entry.data.length ++ entry.data))

/-- `encodeEntry`, for any checksum. -/
def encodeEntryWith (checksum : Bytes → UInt32) (entry : Entry) : Bytes :=
  entryBody entry ++ toBigEndian 4 (checksum (entryBody entry)).toNat

/-- `encodeEntry`. -/
def encodeEntry (entry : Entry) : Bytes := encodeEntryWith checksumIEEE entry

/-- The fields of an entry fit the words of its record. -/
structure EntryFits (e : Entry) : Prop where
  index : e.index < 256 ^ 8
  term : e.term < 256 ^ 8
  data : e.data.length < 256 ^ 4

/-- The checks of `readLog` on a header: length, term, contiguity with the previous record,
    and the first index. -/
def headerOk (snapshotIndex previous index term length : ℕ) : Bool :=
  !decide (maxEntryData < length ∨ term = 0 ∨ (previous ≠ 0 ∧ index ≠ previous + 1))
    && !decide (previous = 0 ∧ index ≠ 1 ∧ index ≠ snapshotIndex + 1)

/-- One turn of the loop of `readLog`: the record at the start of `rest`, or nothing if the
    loop ends here. -/
def readEntry (checksum : Bytes → UInt32) (snapshotIndex previous : ℕ) (rest : Bytes) :
    Option Entry :=
  if rest.length < entryHeader then none
  else
    let index := wordAt rest 0 8
    let term := wordAt rest 8 8
    let length := wordAt rest 16 4
    if !headerOk snapshotIndex previous index term length then none
    else if rest.length < entryHeader + length + 4 then none
    else if (checksum (rest.take (entryHeader + length))).toNat
        ≠ wordAt rest (entryHeader + length) 4 then
      none
    else some { index := index, term := term, data := (rest.drop entryHeader).take length }

@[simp] theorem length_entryBody (e : Entry) :
    (entryBody e).length = entryHeader + e.data.length := by
  simp [entryBody, entryHeader]
  omega

section Checksum
variable (checksum : Bytes → UInt32)

@[simp] theorem length_encodeEntryWith (e : Entry) :
    (encodeEntryWith checksum e).length = entryHeader + e.data.length + 4 := by
  simp [encodeEntryWith]

private theorem encodeEntryWith_words {e : Entry} (h : EntryFits e) (rest : Bytes) :
    wordAt (encodeEntryWith checksum e ++ rest) 0 8 = e.index
      ∧ wordAt (encodeEntryWith checksum e ++ rest) 8 8 = e.term
      ∧ wordAt (encodeEntryWith checksum e ++ rest) 16 4 = e.data.length := by
  simp only [encodeEntryWith, entryBody, List.append_assoc]
  refine ⟨?_, ?_, ?_⟩
  · exact wordAt_append [] _ rfl h.index
  · exact wordAt_append _ _ (length_toBigEndian 8 _) h.term
  · rw [← List.append_assoc (toBigEndian 8 e.index)]
    exact wordAt_append _ _ (by simp) h.data

private theorem encodeEntryWith_data (e : Entry) (rest : Bytes) :
    ((encodeEntryWith checksum e ++ rest).drop entryHeader).take e.data.length = e.data := by
  have hsplit : encodeEntryWith checksum e ++ rest = (toBigEndian 8 e.index
      ++ (toBigEndian 8 e.term ++ toBigEndian 4 e.data.length)) ++ (e.data
        ++ (toBigEndian 4 (checksum (entryBody e)).toNat ++ rest)) := by
    simp [encodeEntryWith, entryBody]
  rw [hsplit, List.drop_left' (by simp [entryHeader]), List.take_left]

private theorem encodeEntryWith_sum (e : Entry) (rest : Bytes) :
    (encodeEntryWith checksum e ++ rest).take (entryHeader + e.data.length) = entryBody e
      ∧ wordAt (encodeEntryWith checksum e ++ rest) (entryHeader + e.data.length) 4
          = (checksum (entryBody e)).toNat := by
  rw [encodeEntryWith, List.append_assoc]
  exact ⟨List.take_left' (length_entryBody e),
    wordAt_append _ _ (length_entryBody e) (UInt32.toNat_lt _)⟩

variable {checksum}

/-- A complete record is read back if its header passes the checks. -/
theorem readEntry_encodeEntryWith {e : Entry} (h : EntryFits e) (snapshotIndex previous : ℕ)
    (rest : Bytes) :
    readEntry checksum snapshotIndex previous (encodeEntryWith checksum e ++ rest)
      = if headerOk snapshotIndex previous e.index e.term e.data.length then some e else none := by
  obtain ⟨hi, ht, hl⟩ := encodeEntryWith_words checksum h rest
  obtain ⟨hbody, hsum⟩ := encodeEntryWith_sum checksum e rest
  have hlen : (encodeEntryWith checksum e ++ rest).length
      = entryHeader + e.data.length + 4 + rest.length := by
    simp
  unfold readEntry
  dsimp only
  rw [hi, ht, hl, hbody, hsum, hlen, if_neg (by omega)]
  by_cases hok : headerOk snapshotIndex previous e.index e.term e.data.length
  · rw [if_neg (by simp [hok]), if_neg (by omega), if_neg (by simp), if_pos hok,
      encodeEntryWith_data]
  · rw [if_pos (by simpa using hok), if_neg hok]

theorem readEntry_torn {e : Entry} (h : EntryFits e) (snapshotIndex previous n : ℕ)
    (hn : n < (encodeEntryWith checksum e).length) :
    readEntry checksum snapshotIndex previous ((encodeEntryWith checksum e).take n)
      = none := by
  have hlen : ((encodeEntryWith checksum e).take n).length = n := by
    rw [List.length_take, Nat.min_eq_left (by omega)]
  unfold readEntry
  dsimp only
  rw [hlen]
  by_cases hshort : n < entryHeader
  · rw [if_pos hshort]
  -- the header is complete, so the length it names is the true one
  have hl := (encodeEntryWith_words checksum h []).2.2
  rw [List.append_nil] at hl
  rw [if_neg hshort, wordAt_take (n := 4) (by unfold entryHeader at hshort; omega), hl]
  split
  · rfl
  · rw [length_encodeEntryWith] at hn
    rw [if_pos hn]

/-- **What is read is a record**: it passed the checks, and its encoding is there. -/
theorem readEntry_some {snapshotIndex previous : ℕ} {b : Bytes} {e : Entry}
    (h : readEntry checksum snapshotIndex previous b = some e) :
    EntryFits e ∧ headerOk snapshotIndex previous e.index e.term e.data.length
      ∧ encodeEntryWith checksum e <+: b := by
  unfold readEntry at h
  dsimp only at h
  split at h
  · simp at h
  rename_i hhead
  split at h
  · simp at h
  rename_i hok
  split at h
  · simp at h
  rename_i hlen
  split at h
  · simp at h
  rename_i hsum
  simp only [Option.some.injEq] at h
  have hdata : e.data.length = wordAt b 16 4 := by
    rw [← h]
    simp only [List.length_take, List.length_drop]
    omega
  have hindex : e.index = wordAt b 0 8 := by rw [← h]
  have hterm : e.term = wordAt b 8 8 := by rw [← h]
  refine ⟨⟨?_, ?_, ?_⟩, ?_, ?_⟩
  · rw [hindex]; exact wordAt_lt _ _ _
  · rw [hterm]; exact wordAt_lt _ _ _
  · rw [hdata]; exact wordAt_lt _ _ _
  · rw [hindex, hterm, hdata]
    simpa using hok
  · -- the words and the data are slices of `b`, one after the other
    have hbody : entryBody e = b.take (entryHeader + e.data.length) := by
      unfold entryHeader at hhead hlen ⊢
      rw [entryBody, hindex, hterm, hdata, toBigEndian_wordAt (by omega),
        toBigEndian_wordAt (by omega), toBigEndian_wordAt (by omega), ← h]
      simp only [List.drop_zero]
      rw [show 8 + 8 + 4 + wordAt b 16 4 = 8 + (8 + (4 + wordAt b 16 4)) by omega,
        List.take_add, List.take_add, List.take_add, List.drop_drop, List.drop_drop]
      rfl
    have hrecord : encodeEntryWith checksum e
        = b.take (entryHeader + e.data.length + 4) := by
      rw [encodeEntryWith, hbody, hdata]
      rw [not_not.mp hsum, toBigEndian_wordAt (by omega), ← List.take_add]
    rw [hrecord]
    exact List.take_prefix _ _

end Checksum

/-- The record format of raft.log with some checksum, read with the index of the record
    before (0 at the start). -/
def logFramingWith (checksum : Bytes → UInt32) (snapshotIndex : ℕ) : Framing ℕ Entry where
  encode := encodeEntryWith checksum
  Valid := EntryFits
  next := readEntry checksum snapshotIndex
  accepts previous e := headerOk snapshotIndex previous e.index e.term e.data.length
  advance _ e := e.index
  encode_ne_nil e h := by
    have := congrArg List.length h
    simp [entryHeader] at this
  next_encode h s rest := readEntry_encodeEntryWith h snapshotIndex s rest
  next_torn h s n hn := readEntry_torn h snapshotIndex s n hn
  encode_next h := readEntry_some h

/-- The record format of raft.log. -/
def logFraming (snapshotIndex : ℕ) : Framing ℕ Entry := logFramingWith checksumIEEE snapshotIndex

@[simp] theorem length_encodeEntry (e : Entry) :
    (encodeEntry e).length = entryHeader + e.data.length + 4 :=
  length_encodeEntryWith checksumIEEE e

/-- The records of a list of entries, one after the other. -/
def encodeEntriesWith (checksum : Bytes → UInt32) (es : List Entry) : Bytes :=
  es.flatMap (encodeEntryWith checksum)

/-- The records of a list of entries, one after the other. -/
def encodeEntries (es : List Entry) : Bytes := es.flatMap encodeEntry

/-- The positions of the records of `es` in a file, the first at `pos`. -/
def recordOffsets : ℕ → List Entry → List ℕ
  | _, [] => []
  | pos, e :: es => pos :: recordOffsets (pos + (encodeEntry e).length) es

/-- The loop of `readLog`. -/
def readLoop (checksum : Bytes → UInt32) (snapshotIndex : ℕ) (rest : Bytes) (pos previous : ℕ)
    (entries : List Entry) (offsets : List ℕ) : List Entry × List ℕ × ℕ :=
  match _ : readEntry checksum snapshotIndex previous rest with
  | none => (entries, offsets, pos)
  | some entry =>
      let size := entryHeader + entry.data.length + 4
      if snapshotIndex < entry.index then
        readLoop checksum snapshotIndex (rest.drop size) (pos + size) entry.index
          (entries ++ [entry]) (offsets ++ [pos])
      else readLoop checksum snapshotIndex (rest.drop size) (pos + size) entry.index entries offsets
termination_by rest.length
decreasing_by
  all_goals
    have hle := (readEntry_some
      ‹readEntry checksum snapshotIndex previous rest = some entry›).2.2.length_le
    rw [length_encodeEntryWith] at hle
    rw [List.length_drop]
    unfold entryHeader at hle
    omega

/-- `readLog`, for any checksum: the entries above the snapshot, their offsets and the valid
    end. -/
def readLogWith (checksum : Bytes → UInt32) (file : Bytes) (snapshotIndex : ℕ) :
    List Entry × List ℕ × ℕ :=
  readLoop checksum snapshotIndex file 0 0 [] []

/-- `readLog`. -/
def readLog (file : Bytes) (snapshotIndex : ℕ) : List Entry × List ℕ × ℕ :=
  readLogWith checksumIEEE file snapshotIndex

/-- The records of `es` with their positions, the first at `pos`. -/
def placed (pos : ℕ) (es : List Entry) : List (Entry × ℕ) := es.zip (recordOffsets pos es)

section Checksum
variable {checksum : Bytes → UInt32}

private theorem readLoop_none {S : ℕ} {rest : Bytes} {pos previous : ℕ} {entries : List Entry}
    {offsets : List ℕ} (h : readEntry checksum S previous rest = none) :
    readLoop checksum S rest pos previous entries offsets = (entries, offsets, pos) := by
  rw [readLoop]
  split
  · rfl
  · rename_i e he
    rw [h] at he
    simp at he

private theorem readLoop_some {S : ℕ} {rest : Bytes} {pos previous : ℕ} {entries : List Entry}
    {offsets : List ℕ} {e : Entry} (h : readEntry checksum S previous rest = some e) :
    readLoop checksum S rest pos previous entries offsets
      = if S < e.index then
          readLoop checksum S (rest.drop (encodeEntryWith checksum e).length)
            (pos + (encodeEntry e).length) e.index (entries ++ [e]) (offsets ++ [pos])
        else
          readLoop checksum S (rest.drop (encodeEntryWith checksum e).length)
            (pos + (encodeEntry e).length) e.index entries offsets := by
  rw [readLoop]
  split
  · rename_i he
    rw [h] at he
    simp at he
  · rename_i e' he
    rw [h] at he
    rw [← Option.some.inj he, length_encodeEntryWith, length_encodeEntry]

private theorem readLoop_eq (S : ℕ) (rest : Bytes) :
    ∀ (pos previous : ℕ) (entries : List Entry) (offsets : List ℕ),
      readLoop checksum S rest pos previous entries offsets
        = (entries ++ (((placed pos ((logFramingWith checksum S).read previous rest)).filter
              (fun p => S < p.1.index)).map Prod.fst),
           offsets ++ (((placed pos ((logFramingWith checksum S).read previous rest)).filter
              (fun p => S < p.1.index)).map Prod.snd),
           pos + (encodeEntries ((logFramingWith checksum S).read previous rest)).length) := by
  induction hn : rest.length using Nat.strong_induction_on generalizing rest with
  | _ n ih =>
    intro pos previous entries offsets
    cases h : readEntry checksum S previous rest with
    | none =>
      rw [readLoop_none h, Framing.read_of_none (F := logFramingWith checksum S) h]
      simp [placed, encodeEntries]
    | some e =>
      have hle := (readEntry_some h).2.2.length_le
      have hpos : 0 < (encodeEntryWith checksum e).length := by simp [entryHeader]
      have hread := Framing.read_of_some (F := logFramingWith checksum S) h
      have hlt : (rest.drop (encodeEntryWith checksum e).length).length < n := by
        rw [List.length_drop]
        omega
      rw [readLoop_some h, hread]
      simp only [placed, recordOffsets, List.zip_cons_cons, List.filter_cons, encodeEntries,
        List.flatMap_cons, List.length_append]
      by_cases hS : S < e.index
      · rw [if_pos hS, ih _ hlt _ rfl]
        simp [hS, placed, encodeEntries, logFramingWith, Nat.add_assoc]
      · rw [if_neg hS, ih _ hlt _ rfl]
        simp [hS, placed, encodeEntries, logFramingWith, Nat.add_assoc]

theorem readLogWith_eq (file : Bytes) (S : ℕ) :
    readLogWith checksum file S
      = (((placed 0 ((logFramingWith checksum S).read 0 file)).filter
            (fun p => S < p.1.index)).map Prod.fst,
         ((placed 0 ((logFramingWith checksum S).read 0 file)).filter
            (fun p => S < p.1.index)).map Prod.snd,
         (encodeEntries ((logFramingWith checksum S).read 0 file)).length) := by
  rw [readLogWith, readLoop_eq]
  simp

end Checksum

/-- **`readLog` reads framed records**: the entries above the snapshot among the records
    read, each with the position of its record, and the end of the last record read. -/
theorem readLog_eq (file : Bytes) (S : ℕ) :
    readLog file S
      = (((placed 0 ((logFraming S).read 0 file)).filter (fun p => S < p.1.index)).map Prod.fst,
         ((placed 0 ((logFraming S).read 0 file)).filter (fun p => S < p.1.index)).map Prod.snd,
         (encodeEntries ((logFraming S).read 0 file)).length) :=
  readLogWith_eq file S

/-! ### The SNAPSHOT file -/

/-- `encoding/json` on a snapshot's membership. -/
class SnapshotJson where
  marshal : Membership → Bytes
  unmarshal : Bytes → Except String Membership
  unmarshal_marshal : ∀ m, unmarshal (marshal m) = .ok m

section Snapshot
variable [SnapshotJson]

/-- `snapshotHeader`. -/
def snapshotHeader : ℕ := 8 + 8 + 8

/-- The longest membership that `inspectSnapshot` reads. -/
def maxMembership : ℕ := 2 ^ 20

/-- The header and data of a SNAPSHOT file. -/
def snapshotBase (snapshot : Snapshot) (data : Bytes) : Bytes :=
  toBigEndian 8 snapshot.index ++ (toBigEndian 8 snapshot.term
    ++ (toBigEndian 8 data.length ++ data))

/-- A SNAPSHOT file before its checksum. -/
def snapshotBody (snapshot : Snapshot) (data : Bytes) : Bytes :=
  snapshotBase snapshot data
    ++ (toBigEndian 4 (SnapshotJson.marshal snapshot.membership).length
      ++ SnapshotJson.marshal snapshot.membership)

/-- The file `storeSnapshotStream` renames to SNAPSHOT. -/
def snapshotFile (snapshot : Snapshot) (data : Bytes) : Bytes :=
  snapshotBody snapshot data ++ toBigEndian 4 (crc32 (snapshotBody snapshot data))

/-- The membership section of `inspectSnapshot`; a file of the older layout ends with the
    checksum right after the data. -/
def inspectMembership (file : Bytes) (baseEnd : ℕ) : Except String Membership :=
  if file.length = baseEnd + 4 then .ok {}
  else if file.length < baseEnd + 8 then .error "raft snapshot membership is truncated"
  else
    let membershipLen := wordAt file baseEnd 4
    if maxMembership < membershipLen ∨ file.length ≠ baseEnd + 4 + membershipLen + 4 then
      .error "raft snapshot membership length is invalid"
    else
      match SnapshotJson.unmarshal ((file.drop (baseEnd + 4)).take membershipLen) with
      | .error e => .error s!"decode snapshot membership: {e}"
      | .ok membership => .ok membership

/-- `inspectSnapshot`: the metadata, the size of the data and its checksum. -/
def inspectSnapshot : Option Bytes → Except String (Snapshot × ℕ × ℕ)
  | none => .ok ({}, 0, 0)
  | some file =>
      if file.length < snapshotHeader + 4 then .error "raft snapshot is truncated"
      else
        let index := wordAt file 0 8
        let term := wordAt file 8 8
        let length := wordAt file 16 8
        if index = 0 ∨ term = 0 ∨ maxSnapshotData < length
            ∨ file.length - snapshotHeader - 4 < length
            ∨ 2 ^ 64 - 1 - snapshotHeader - 8 < length then
          .error "raft snapshot header is invalid"
        else
          match inspectMembership file (snapshotHeader + length) with
          | .error e => .error e
          | .ok membership =>
              if crc32 (file.take (file.length - 4)) ≠ wordAt file (file.length - 4) 4 then
                .error "raft snapshot checksum mismatch"
              else .ok ({ index := index, term := term, membership := membership }, length,
                crc32 ((file.drop snapshotHeader).take length))

/-- The fields of a snapshot fit the words of the file, and it is one the store writes. -/
structure SnapshotFits (snapshot : Snapshot) (data : Bytes) : Prop where
  index : snapshot.index ≠ 0 ∧ snapshot.index < 256 ^ 8
  term : snapshot.term ≠ 0 ∧ snapshot.term < 256 ^ 8
  data : data.length ≤ maxSnapshotData

omit [SnapshotJson] in
@[simp] theorem length_snapshotBase (snapshot : Snapshot) (data : Bytes) :
    (snapshotBase snapshot data).length = snapshotHeader + data.length := by
  simp [snapshotBase, snapshotHeader]
  omega

@[simp] theorem length_snapshotBody (snapshot : Snapshot) (data : Bytes) :
    (snapshotBody snapshot data).length = snapshotHeader + data.length + 4
      + (SnapshotJson.marshal snapshot.membership).length := by
  simp [snapshotBody]
  omega

@[simp] theorem length_snapshotFile (snapshot : Snapshot) (data : Bytes) :
    (snapshotFile snapshot data).length = snapshotHeader + data.length + 4
      + (SnapshotJson.marshal snapshot.membership).length + 4 := by
  simp [snapshotFile]

section
omit [SnapshotJson]

/-- The header before whatever follows the data. -/
theorem snapshotBase_words {s : Snapshot} {data : Bytes} (h : SnapshotFits s data) (rest : Bytes) :
    wordAt (snapshotBase s data ++ rest) 0 8 = s.index
      ∧ wordAt (snapshotBase s data ++ rest) 8 8 = s.term
      ∧ wordAt (snapshotBase s data ++ rest) 16 8 = data.length := by
  have hlen : data.length < 256 ^ 8 := by
    have := h.data
    unfold maxSnapshotData at this
    omega
  simp only [snapshotBase, List.append_assoc]
  refine ⟨?_, ?_, ?_⟩
  · exact wordAt_append [] _ rfl h.index.2
  · exact wordAt_append _ _ (length_toBigEndian 8 _) h.term.2
  · rw [← List.append_assoc (toBigEndian 8 s.index)]
    exact wordAt_append _ _ (by simp) hlen

theorem snapshotBase_data (s : Snapshot) (data rest : Bytes) :
    ((snapshotBase s data ++ rest).drop snapshotHeader).take data.length = data := by
  have hsplit : snapshotBase s data ++ rest = (toBigEndian 8 s.index ++ (toBigEndian 8 s.term
      ++ toBigEndian 8 data.length)) ++ (data ++ rest) := by
    simp only [snapshotBase, List.append_assoc]
  rw [hsplit, List.drop_left' (by simp [snapshotHeader]), List.take_left]

/-- The checksum at the end of a file is that of what is before it. -/
theorem crc32_trailer {file body : Bytes} (hfile : file = body ++ toBigEndian 4 (crc32 body)) :
    crc32 (file.take (file.length - 4)) = wordAt file (file.length - 4) 4 := by
  have hlen : file.length - 4 = body.length := by
    rw [hfile, List.length_append, length_toBigEndian, Nat.add_sub_cancel]
  have hword : wordAt file body.length 4 = crc32 body := by
    have := wordAt_append body [] rfl (crc32_lt body)
    rwa [List.append_nil, ← hfile] at this
  rw [hlen, hword, hfile, List.take_left]

end

private theorem snapshotFile_eq_append (s : Snapshot) (data : Bytes) :
    ∃ rest, snapshotFile s data = snapshotBase s data ++ rest := by
  simp only [snapshotFile, snapshotBody, List.append_assoc]
  exact ⟨_, rfl⟩

/-- The membership section reads back if it is within the limit; beyond it the stored length
    is too large, or not that of the file. -/
private theorem inspectMembership_snapshotFile (s : Snapshot) (data : Bytes) :
    inspectMembership (snapshotFile s data) (snapshotHeader + data.length)
      = if (SnapshotJson.marshal s.membership).length ≤ maxMembership then .ok s.membership
        else .error "raft snapshot membership length is invalid" := by
  have hjson : ((snapshotFile s data).drop (snapshotHeader + data.length + 4)).take
      (SnapshotJson.marshal s.membership).length = SnapshotJson.marshal s.membership := by
    have hsplit : snapshotFile s data = (snapshotBase s data
        ++ toBigEndian 4 (SnapshotJson.marshal s.membership).length)
        ++ (SnapshotJson.marshal s.membership
          ++ toBigEndian 4 (crc32 (snapshotBody s data))) := by
      simp [snapshotFile, snapshotBody]
    rw [hsplit, List.drop_left' (by simp), List.take_left]
  have hword : wordAt (snapshotFile s data) (snapshotHeader + data.length) 4
      = (SnapshotJson.marshal s.membership).length % 256 ^ 4 := by
    rw [wordAt, snapshotFile, snapshotBody, List.append_assoc, List.append_assoc,
      List.drop_left' (length_snapshotBase s data), List.take_left' (length_toBigEndian 4 _),
      ofBigEndian_toBigEndian]
  unfold inspectMembership
  dsimp only
  rw [hword, length_snapshotFile, if_neg (by omega), if_neg (by omega)]
  by_cases hle : (SnapshotJson.marshal s.membership).length ≤ maxMembership
  · have hmod : (SnapshotJson.marshal s.membership).length % 256 ^ 4
        = (SnapshotJson.marshal s.membership).length := by
      apply Nat.mod_eq_of_lt
      unfold maxMembership at hle
      omega
    rw [if_pos hle, hmod, if_neg (by omega), hjson, SnapshotJson.unmarshal_marshal]
  · rw [if_neg hle, if_pos]
    by_contra hcon
    rw [not_or, not_lt, not_not] at hcon
    omega

/-- **Which snapshots read back**: those whose membership is within the limit. -/
theorem inspectSnapshot_snapshotFile {s : Snapshot} {data : Bytes} (h : SnapshotFits s data) :
    inspectSnapshot (some (snapshotFile s data))
      = if (SnapshotJson.marshal s.membership).length ≤ maxMembership then
          .ok ({ s with data := [] }, data.length, crc32 data)
        else .error "raft snapshot membership length is invalid" := by
  obtain ⟨rest, hrest⟩ := snapshotFile_eq_append s data
  obtain ⟨hi, ht, hl⟩ := snapshotBase_words h rest
  rw [← hrest] at hi ht hl
  have hdata := h.data
  have hhead : ¬ (s.index = 0 ∨ s.term = 0 ∨ maxSnapshotData < data.length
      ∨ (snapshotFile s data).length - snapshotHeader - 4 < data.length
      ∨ 2 ^ 64 - 1 - snapshotHeader - 8 < data.length) := by
    rw [length_snapshotFile]
    unfold maxSnapshotData snapshotHeader at *
    rintro (h0 | h0 | h0 | h0 | h0)
    · exact h.index.1 h0
    · exact h.term.1 h0
    all_goals omega
  unfold inspectSnapshot
  dsimp only
  rw [if_neg (by rw [length_snapshotFile]; omega), hi, ht, hl, if_neg hhead,
    inspectMembership_snapshotFile]
  by_cases hle : (SnapshotJson.marshal s.membership).length ≤ maxMembership
  · rw [if_pos hle, if_pos hle]
    dsimp only
    have hfile : snapshotFile s data = snapshotBody s data
        ++ toBigEndian 4 (crc32 (snapshotBody s data)) := rfl
    rw [if_neg (not_not.mpr (crc32_trailer hfile)), hrest, snapshotBase_data]
  · rw [if_neg hle, if_neg hle]

end Snapshot

end Lsmdb.RaftStore
