import Lsmdb.Binary.Handle
import Lsmdb.Db.Outcome
import Lsmdb.RaftStore.Recovery

namespace Lsmdb.RaftStore

open Lsmdb.Raft Lsmdb.Binary
open Lsmdb.Db (int64 addInt64 subInt64 readAt int64_of_lt addInt64_natCast subInt64_natCast
  subInt64_natCast_add readAt_natCast)

/-!
# Raft store — writing and opening SNAPSHOT

`storeSnapshotStream`, `inspectSnapshot` and `Store.OpenSnapshot` of `internal/raftstore/store.go`
step by step: the header written before the data and again after it, the writer that counts what
passes, and the sizes and offsets as the 64-bit values that the source computes with.
`inspectSnapshotAt_eq` compares the reader with `inspectSnapshot` of `RaftStore.Files`, where the
numbers do not wrap, and `storeSnapshotStream_eq` the writer with `snapshotFile`.

The older layout has no membership.  The reader tells it from the size of the file alone.

* `snapshot_round_trip` — both layouts are read as what they are.

A file has fewer than `2 ^ 63` bytes, the size being an `int64`.  Failures of the file system are
left out.
-/

section SnapshotFile
variable [SnapshotJson]

/-! ### Writing -/

/-- `boundedSnapshotWriter` over the file and the checksum of the data. -/
structure SnapshotWriter where
  file : Handle UInt8
  hashed : Bytes := []
  written : ℕ := 0

/-- `boundedSnapshotWriter.Write`. -/
def SnapshotWriter.write (w : SnapshotWriter) (data : Bytes) : Except String SnapshotWriter :=
  if subUint64 maxSnapshotData w.written < data.length then
    .error s!"snapshot exceeds {maxSnapshotData} bytes"
  else .ok {
    file := w.file.write data
    hashed := w.hashed ++ data
    written := w.written + data.length }

/-- `writeData`: the blocks are written one after the other. -/
def SnapshotWriter.writeAll : SnapshotWriter → List Bytes → Except String SnapshotWriter
  | w, [] => .ok w
  | w, data :: rest =>
      match w.write data with
      | .error e => .error e
      | .ok w => w.writeAll rest

/-- The header for `size` bytes of data. -/
def headerBytes (snapshot : Snapshot) (size : ℕ) : Bytes :=
  toBigEndian 8 snapshot.index ++ (toBigEndian 8 snapshot.term ++ toBigEndian 8 size)

/-- `storeSnapshotStream`: the file renamed to SNAPSHOT, and the size and checksum of its data. -/
def storeSnapshotStream (snapshot : Snapshot) (writeData : List Bytes) :
    Except String (Bytes × ℕ × ℕ) :=
  let membership := SnapshotJson.marshal snapshot.membership
  -- the size is not known yet
  let f : Handle UInt8 := Handle.write {} (headerBytes snapshot 0)
  match SnapshotWriter.writeAll { file := f } writeData with
  | .error e => .error s!"write snapshot data: {e}"
  | .ok w =>
      let dataSize := uint64 (subInt64 w.file.pos f.pos)
      let f := (w.file.writeAt (headerBytes snapshot dataSize) 0).seek w.file.pos
      let f := f.write (toBigEndian 4 membership.length)
      let f := f.write membership
      let f := f.write (toBigEndian 4 (crc32 (f.content.take f.pos)))
      .ok (f.content, dataSize, crc32 w.hashed)

/-! ### Reading -/

/-- The size by which `inspectSnapshot` knows the older layout. -/
def olderSize (size baseEnd : ℤ) : Bool := size == addInt64 baseEnd 4

/-- The membership section, as `inspectSnapshot` computes. -/
def inspectMembershipAt (file : Bytes) (size baseEnd : ℤ) : Except String Membership :=
  if olderSize size baseEnd then .ok {}
  else if size < addInt64 baseEnd 8 then .error "raft snapshot membership is truncated"
  else
    match readAt file 4 baseEnd with
    | .error _ => .error "raft snapshot membership is truncated"
    | .ok lengthBytes =>
        let membershipLen := ofBigEndian lengthBytes
        if maxMembership < membershipLen ∨ uint64 size ≠
            addUint64 (addUint64 (addUint64 (uint64 baseEnd) 4) membershipLen) 4 then
          .error "raft snapshot membership length is invalid"
        else
          match readAt file membershipLen (addInt64 baseEnd 4) with
          | .error _ => .error "raft snapshot membership is truncated"
          | .ok membershipData =>
              match SnapshotJson.unmarshal membershipData with
              | .error e => .error s!"decode snapshot membership: {e}"
              | .ok membership => .ok membership

/-- `io.CopyN` of a section of the file. -/
def copyN (file : Bytes) (offset : ℕ) (n : ℤ) : Except String Bytes :=
  if n ≤ 0 then .ok []
  else if file.length < offset + n then .error "EOF"
  else .ok ((file.drop offset).take n.toNat)

/-- The checks on the header. -/
def headerInvalid (size : ℤ) (index term length : ℕ) : Prop :=
  index = 0 ∨ term = 0 ∨ maxSnapshotData < length ∨
    uint64 (subInt64 (subInt64 size snapshotHeader) 4) < length ∨
    2 ^ 64 - 1 - snapshotHeader - 8 < length

instance decidableHeaderInvalid (size : ℤ) (index term length : ℕ) :
    Decidable (headerInvalid size index term length) := by
  unfold headerInvalid
  infer_instance

/-- The checksums of `inspectSnapshot`: that of the data. -/
def inspectChecksums (file : Bytes) (size : ℤ) (length : ℕ) : Except String ℕ :=
  match readAt file 4 (subInt64 size 4) with
  | .error _ => .error "raft snapshot checksum is truncated"
  | .ok storedChecksum =>
      match copyN file 0 (subInt64 size 4) with
      | .error e => .error s!"checksum raft snapshot: {e}"
      | .ok whole =>
          if crc32 whole ≠ ofBigEndian storedChecksum then .error "raft snapshot checksum mismatch"
          else
            match copyN file snapshotHeader (int64 length) with
            | .error e => .error s!"checksum raft snapshot data: {e}"
            | .ok data => .ok (crc32 data)

/-- `inspectSnapshot`, as it computes. -/
def inspectSnapshotAt : Option Bytes → Except String (Snapshot × ℕ × ℕ)
  | none => .ok ({}, 0, 0)
  | some file =>
      let size := int64 file.length
      if size < snapshotHeader + 4 then .error "raft snapshot is truncated"
      else if file.length < snapshotHeader then .error "raft snapshot is truncated"
      else
        let index := wordAt file 0 8
        let term := wordAt file 8 8
        let length := wordAt file 16 8
        if headerInvalid size index term length then .error "raft snapshot header is invalid"
        else
          match inspectMembershipAt file size (addInt64 snapshotHeader (int64 length)) with
          | .error e => .error e
          | .ok membership =>
              match inspectChecksums file size length with
              | .error e => .error e
              | .ok sum => .ok ({ index := index, term := term, membership := membership },
                  length, sum)

/-- What `Store` remembers of its snapshot. -/
structure DurableSnapshot where
  snapshot : Snapshot := {}
  snapshotSize : ℕ := 0
  snapshotChecksum : ℕ := 0
  deriving DecidableEq, Repr

/-- `Store.OpenSnapshot`: what the section reads, the size and the checksum. -/
def DurableSnapshot.openSnapshot (s : DurableSnapshot) (file : Option Bytes) (index : ℕ) :
    Except String (Bytes × ℕ × ℕ) :=
  if index = 0 ∨ index ≠ s.snapshot.index then .error s!"raft snapshot {index} is not durable"
  else
    match file with
    | none => .error "open raft snapshot: no such file"
    | some file => .ok ((file.drop snapshotHeader).take (int64 s.snapshotSize).toNat,
        s.snapshotSize, s.snapshotChecksum)

/-! ### The writer -/

section
omit [SnapshotJson]

/-- What one write leaves, as long as the limit is kept. -/
theorem SnapshotWriter.write_eq {w : SnapshotWriter} {data : Bytes}
    (hw : w.written ≤ maxSnapshotData) :
    w.write data =
      if maxSnapshotData < w.written + data.length then
        .error s!"snapshot exceeds {maxSnapshotData} bytes"
      else .ok {
        file := w.file.write data
        hashed := w.hashed ++ data
        written := w.written + data.length } := by
  have hmax : maxSnapshotData < 2 ^ 64 := by decide
  unfold SnapshotWriter.write
  rw [subUint64_eq hw hmax]
  by_cases hbig : maxSnapshotData < w.written + data.length
  · rw [if_pos hbig, if_pos (by omega)]
  · rw [if_neg hbig, if_neg (by omega)]

theorem SnapshotWriter.writeAll_eq (front hashed : Bytes) (blocks : List Bytes)
    (hw : hashed.length ≤ maxSnapshotData) :
    SnapshotWriter.writeAll
        { file := .ending (front ++ hashed), hashed := hashed, written := hashed.length } blocks =
      if maxSnapshotData < hashed.length + blocks.flatten.length then
        .error s!"snapshot exceeds {maxSnapshotData} bytes"
      else .ok {
        file := .ending (front ++ (hashed ++ blocks.flatten))
        hashed := hashed ++ blocks.flatten
        written := hashed.length + blocks.flatten.length } := by
  induction blocks generalizing hashed with
  | nil => simp [SnapshotWriter.writeAll, Nat.not_lt.mpr hw]
  | cons data blocks ih =>
    rw [SnapshotWriter.writeAll, SnapshotWriter.write_eq hw]
    have hlen : (data :: blocks).flatten.length = data.length + blocks.flatten.length := by
      rw [List.flatten_cons, List.length_append]
    dsimp only
    by_cases hbig : maxSnapshotData < hashed.length + data.length
    · rw [if_pos hbig, if_pos (by omega)]
    rw [if_neg hbig]
    have hih := ih (hashed ++ data) (by rw [List.length_append]; omega)
    rw [List.length_append, ← List.append_assoc] at hih
    dsimp only
    rw [Handle.write_end, hih, List.flatten_cons, List.length_append, List.append_assoc hashed,
      Nat.add_assoc]

@[simp] theorem length_headerBytes (snapshot : Snapshot) (size : ℕ) :
    (headerBytes snapshot size).length = snapshotHeader := by
  simp [headerBytes, snapshotHeader]

theorem headerBytes_append (snapshot : Snapshot) (data : Bytes) :
    headerBytes snapshot data.length ++ data = snapshotBase snapshot data := by
  simp [headerBytes, snapshotBase]

end

/-- **What is written**: the file of the snapshot, if its data are within the limit. -/
theorem storeSnapshotStream_eq (snapshot : Snapshot) (blocks : List Bytes) :
    storeSnapshotStream snapshot blocks =
      match boundedWrite (.ok blocks.flatten) with
      | .error e => .error e
      | .ok data => .ok (snapshotFile snapshot data, data.length, crc32 data) := by
  have hstart : Handle.write {} (headerBytes snapshot 0) = .ending (headerBytes snapshot 0) :=
    Handle.write_end [] _
  have hall := SnapshotWriter.writeAll_eq (headerBytes snapshot 0) [] blocks (Nat.zero_le _)
  simp only [List.append_nil, List.length_nil, Nat.zero_add, List.nil_append] at hall
  unfold storeSnapshotStream boundedWrite
  dsimp only
  rw [hstart, hall]
  by_cases hbig : maxSnapshotData < blocks.flatten.length
  · rw [if_pos hbig, if_pos hbig]
    rfl
  rw [if_neg hbig, if_neg hbig]
  have hmax : maxSnapshotData < 2 ^ 63 := by decide
  -- the positions are those of the header and of the data
  have hpos : (Handle.ending (headerBytes snapshot 0 ++ blocks.flatten)).pos =
      snapshotHeader + blocks.flatten.length := by
    simp [Handle.ending]
  have hpos0 : (Handle.ending (headerBytes snapshot 0)).pos = snapshotHeader := by
    simp [Handle.ending]
  have hsize : uint64 (subInt64 (snapshotHeader + blocks.flatten.length : ℕ) snapshotHeader) =
      blocks.flatten.length := by
    rw [subInt64_natCast_add _ (by omega), uint64_natCast (by omega)]
  have hheader : (headerBytes snapshot 0).length =
      (headerBytes snapshot blocks.flatten.length).length := by simp
  have hpatch := Handle.writeAt_zero blocks.flatten hheader
  rw [hpos] at hpatch
  dsimp only
  rw [hpos, hpos0, hsize, hpatch, headerBytes_append, Handle.write_end, Handle.write_end,
    List.append_assoc]
  rw [← snapshotBody, Handle.write_end]
  have htake : (Handle.ending (snapshotBody snapshot blocks.flatten)).content.take
      (Handle.ending (snapshotBody snapshot blocks.flatten)).pos =
        snapshotBody snapshot blocks.flatten := List.take_length
  rw [htake]
  rfl

/-! ### The reader -/

omit [SnapshotJson] in
theorem copyN_natCast {file : Bytes} {n offset : ℕ} (h : offset + n ≤ file.length) :
    copyN file offset n = .ok ((file.drop offset).take n) := by
  unfold copyN
  by_cases hn : n = 0
  · rw [if_pos (by omega), hn, List.take_zero]
  · rw [if_neg (by omega), if_neg (by omega), Int.toNat_natCast]

omit [SnapshotJson] in
theorem olderSize_natCast {size baseEnd : ℕ} (h : baseEnd + 4 < 2 ^ 63) :
    olderSize size baseEnd = decide (size = baseEnd + 4) := by
  have hadd : addInt64 baseEnd 4 = (baseEnd + 4 : ℕ) := addInt64_natCast h
  unfold olderSize
  rw [hadd, Bool.eq_iff_iff, beq_iff_eq, decide_eq_true_eq, Int.natCast_inj]

/-- In a file the numbers of the membership section do not wrap. -/
theorem inspectMembershipAt_eq {file : Bytes} {baseEnd : ℕ} (hsize : file.length < 2 ^ 63)
    (hbase : baseEnd ≤ snapshotHeader + maxSnapshotData) :
    inspectMembershipAt file file.length baseEnd = inspectMembership file baseEnd := by
  unfold inspectMembershipAt inspectMembership
  have hmax : snapshotHeader + maxSnapshotData < 2 ^ 62 := by decide
  have hadd4 : addInt64 baseEnd 4 = (baseEnd + 4 : ℕ) := addInt64_natCast (b := 4) (by omega)
  have hadd8 : addInt64 baseEnd 8 = (baseEnd + 8 : ℕ) := addInt64_natCast (b := 8) (by omega)
  rw [olderSize_natCast (by omega), hadd8, hadd4]
  by_cases holder : file.length = baseEnd + 4
  · rw [if_pos (decide_eq_true holder), if_pos holder]
  rw [if_neg (by rwa [decide_eq_true_eq]), if_neg holder]
  by_cases hshort : file.length < baseEnd + 8
  · rw [if_pos (by omega), if_pos hshort]
  rw [if_neg (by omega), if_neg hshort, readAt_natCast (by omega)]
  dsimp only
  have hword : wordAt file baseEnd 4 < 2 ^ 32 := wordAt_lt file baseEnd 4
  show (if maxMembership < wordAt file baseEnd 4 ∨ _ ≠ addUint64 (addUint64 _
    (wordAt file baseEnd 4)) 4 then _ else _) = _
  have hsum : addUint64 (addUint64 (addUint64 (uint64 baseEnd) 4) (wordAt file baseEnd 4)) 4 =
      baseEnd + 4 + wordAt file baseEnd 4 + 4 := by
    rw [uint64_natCast (by omega), addUint64_eq (a := baseEnd) (by omega),
      addUint64_eq (a := baseEnd + 4) (by omega), addUint64_eq (by omega)]
  rw [uint64_natCast (by omega), hsum]
  by_cases hlen : maxMembership < wordAt file baseEnd 4 ∨
      file.length ≠ baseEnd + 4 + wordAt file baseEnd 4 + 4
  · rw [if_pos hlen, if_pos hlen]
  rw [if_neg hlen, if_neg hlen]
  rw [not_or, not_not] at hlen
  have hread : readAt file (ofBigEndian ((file.drop baseEnd).take 4)) (baseEnd + 4 : ℕ) =
      .ok ((file.drop (baseEnd + 4)).take (wordAt file baseEnd 4)) :=
    readAt_natCast (n := wordAt file baseEnd 4) (by omega)
  cases hu : SnapshotJson.unmarshal ((file.drop (baseEnd + 4)).take (wordAt file baseEnd 4)) with
  | error e => simp only [hread, hu]
  | ok membership => simp only [hread, hu]

omit [SnapshotJson] in
theorem inspectChecksums_eq {file : Bytes} {length : ℕ} (hsize : file.length < 2 ^ 63)
    (hlength : snapshotHeader + length + 4 ≤ file.length) :
    inspectChecksums file file.length length =
      if crc32 (file.take (file.length - 4)) ≠ wordAt file (file.length - 4) 4 then
        .error "raft snapshot checksum mismatch"
      else .ok (crc32 ((file.drop snapshotHeader).take length)) := by
  have hsub : subInt64 file.length 4 = (file.length - 4 : ℕ) :=
    subInt64_natCast (b := 4) (by omega) hsize
  unfold inspectChecksums
  rw [hsub, readAt_natCast (by omega), copyN_natCast (by omega),
    int64_of_lt (by omega), copyN_natCast (by omega)]
  rfl

omit [SnapshotJson] in
/-- In a file the numbers of the header checks do not wrap. -/
theorem headerInvalid_iff {size index term length : ℕ} (hsize : size < 2 ^ 63)
    (hhead : snapshotHeader + 4 ≤ size) :
    headerInvalid size index term length ↔
      index = 0 ∨ term = 0 ∨ maxSnapshotData < length ∨ size - snapshotHeader - 4 < length ∨
        2 ^ 64 - 1 - snapshotHeader - 8 < length := by
  have hsub : subInt64 (subInt64 size snapshotHeader) 4 = (size - snapshotHeader - 4 : ℕ) := by
    rw [subInt64_natCast (by omega) hsize]
    exact subInt64_natCast (b := 4) (by omega) (by omega)
  unfold headerInvalid
  rw [hsub, uint64_natCast (by omega)]

/-- **In a file the reader's numbers do not wrap.** -/
theorem inspectSnapshotAt_eq {file : Bytes} (hsize : file.length < 2 ^ 63) :
    inspectSnapshotAt (some file) = inspectSnapshot (some file) := by
  unfold inspectSnapshotAt inspectSnapshot
  dsimp only
  rw [int64_of_lt (by omega)]
  by_cases hshort : file.length < snapshotHeader + 4
  · rw [if_pos (by omega), if_pos hshort]
  rw [if_neg (by omega), if_neg hshort, if_neg (by omega)]
  by_cases hbad : headerInvalid file.length (wordAt file 0 8) (wordAt file 8 8)
      (wordAt file 16 8)
  · rw [if_pos hbad, if_pos ((headerInvalid_iff hsize (by omega)).mp hbad)]
  rw [if_neg hbad, if_neg (fun h => hbad ((headerInvalid_iff hsize (by omega)).mpr h))]
  -- past the checks, the data are in the file and not too long
  rw [headerInvalid_iff hsize (by omega)] at hbad
  have hlength : wordAt file 16 8 ≤ maxSnapshotData := by
    by_contra hcon
    exact hbad (Or.inr (Or.inr (Or.inl (by omega))))
  have hin : wordAt file 16 8 ≤ file.length - snapshotHeader - 4 := by
    by_contra hcon
    exact hbad (Or.inr (Or.inr (Or.inr (Or.inl (by omega)))))
  have hmax : snapshotHeader + maxSnapshotData < 2 ^ 62 := by decide
  rw [int64_of_lt (by omega), addInt64_natCast (by omega),
    inspectMembershipAt_eq hsize (by omega), inspectChecksums_eq hsize (by omega)]
  cases inspectMembership file (snapshotHeader + wordAt file 16 8) with
  | error e => rfl
  | ok membership =>
    dsimp only
    split_ifs <;> rfl

/-! ### The older layout -/

/-- A file of the older layout, with its checksum. -/
def olderSnapshotFile (snapshot : Snapshot) (data : Bytes) : Bytes :=
  snapshotBase snapshot data ++ toBigEndian 4 (crc32 (snapshotBase snapshot data))

omit [SnapshotJson] in
@[simp] theorem length_olderSnapshotFile (snapshot : Snapshot) (data : Bytes) :
    (olderSnapshotFile snapshot data).length = snapshotHeader + data.length + 4 := by
  simp [olderSnapshotFile]

/-- A file of the older layout is read, with no membership. -/
theorem inspectSnapshot_older {s : Snapshot} {data : Bytes} (h : SnapshotFits s data) :
    inspectSnapshot (some (olderSnapshotFile s data)) =
      .ok ({ index := s.index, term := s.term }, data.length, crc32 data) := by
  obtain ⟨hi, ht, hl⟩ := snapshotBase_words h (toBigEndian 4 (crc32 (snapshotBase s data)))
  rw [← olderSnapshotFile] at hi ht hl
  have hdata := h.data
  have hmax : maxSnapshotData < 2 ^ 63 := by decide
  have hhead : snapshotHeader = 24 := rfl
  have hvalid : ¬ (s.index = 0 ∨ s.term = 0 ∨ maxSnapshotData < data.length
      ∨ (olderSnapshotFile s data).length - snapshotHeader - 4 < data.length
      ∨ 2 ^ 64 - 1 - snapshotHeader - 8 < data.length) := by
    rw [length_olderSnapshotFile]
    rintro (h0 | h0 | h0 | h0 | h0)
    · exact h.index.1 h0
    · exact h.term.1 h0
    all_goals omega
  unfold inspectSnapshot
  dsimp only
  rw [if_neg (by rw [length_olderSnapshotFile]; omega), hi, ht, hl, if_neg hvalid,
    inspectMembership, if_pos (length_olderSnapshotFile s data)]
  dsimp only
  have hfile : olderSnapshotFile s data = snapshotBase s data ++
      toBigEndian 4 (crc32 (snapshotBase s data)) := rfl
  rw [if_neg (not_not.mpr (crc32_trailer hfile)), hfile, snapshotBase_data]

/-- A file with a membership section: after header and data its length, itself and the checksum. -/
def CurrentLayout (file : Bytes) : Prop :=
  ∃ header data membership checksum : Bytes,
    header.length = snapshotHeader ∧ wordAt header 16 8 = data.length ∧ checksum.length = 4 ∧
      file = header ++ (data ++ (toBigEndian 4 membership.length ++ (membership ++ checksum)))

/-- `inspectSnapshot` gets past the header and takes the file for one of the older layout. -/
def ReadAsOlder (file : Bytes) : Prop :=
  ¬ headerInvalid (int64 file.length) (wordAt file 0 8) (wordAt file 8 8) (wordAt file 16 8) ∧
    olderSize (int64 file.length) (addInt64 snapshotHeader (int64 (wordAt file 16 8))) = true

omit [SnapshotJson] in
/-- A file with a membership section is longer than one without. -/
theorem CurrentLayout.not_readAsOlder {file : Bytes} (h : CurrentLayout file)
    (hsize : file.length < 2 ^ 63) : ¬ ReadAsOlder file := by
  obtain ⟨header, data, membership, checksum, hheader, hword, hchecksum, rfl⟩ := h
  rintro ⟨_, holder⟩
  have hlen : wordAt (header ++ (data ++ (toBigEndian 4 membership.length ++
      (membership ++ checksum)))) 16 8 = data.length := by
    rw [← hword, wordAt, wordAt, List.drop_append_of_le_length (by rw [hheader]; decide),
      List.take_append_of_le_length (by rw [List.length_drop, hheader]; decide)]
  simp only [List.length_append, length_toBigEndian, hheader, hchecksum] at hsize holder
  rw [hlen, int64_of_lt hsize, int64_of_lt (by omega), addInt64_natCast (by omega),
    olderSize_natCast (by omega), decide_eq_true_eq] at holder
  omega

theorem currentLayout_snapshotFile {s : Snapshot} {data : Bytes} (h : SnapshotFits s data) :
    CurrentLayout (snapshotFile s data) := by
  refine ⟨headerBytes s data.length, data, SnapshotJson.marshal s.membership,
    toBigEndian 4 (crc32 (snapshotBody s data)), length_headerBytes s _, ?_,
    length_toBigEndian 4 _, ?_⟩
  · have hlen : data.length < 256 ^ 8 := by
      have := h.data
      unfold maxSnapshotData at this
      omega
    have hword : wordAt ((toBigEndian 8 s.index ++ toBigEndian 8 s.term) ++
        (toBigEndian 8 data.length ++ [])) 16 8 = data.length :=
      wordAt_append _ _ (by simp) hlen
    rwa [List.append_nil, List.append_assoc] at hword
  · rw [← List.append_assoc, headerBytes_append, snapshotFile, snapshotBody]
    simp only [List.append_assoc]

/-! ### Both layouts -/

/-- What `Open` remembers of a snapshot it has inspected. -/
def DurableSnapshot.ofInspect (r : Snapshot × ℕ × ℕ) : DurableSnapshot where
  snapshot := r.1
  snapshotSize := r.2.1
  snapshotChecksum := r.2.2

omit [SnapshotJson] in
/-- The section of a snapshot that has been inspected is its data. -/
theorem openSnapshot_base {s : Snapshot} {data : Bytes} (h : SnapshotFits s data) (rest : Bytes)
    (membership : Membership) :
    (DurableSnapshot.ofInspect ({ index := s.index, term := s.term, membership := membership },
        data.length, crc32 data)).openSnapshot (some (snapshotBase s data ++ rest)) s.index =
      .ok (data, data.length, crc32 data) := by
  have hmax : maxSnapshotData < 2 ^ 63 := by decide
  have hdata := h.data
  unfold DurableSnapshot.openSnapshot DurableSnapshot.ofInspect
  dsimp only
  rw [if_neg (by simp [h.index.1]), int64_of_lt (by omega), Int.toNat_natCast, snapshotBase_data]

/-- **SNAPSHOT files are read as what was written.**  What `storeSnapshotStream` writes has the
    current layout and is read back, if the membership is within the limit; a file of the older
    layout is read with no membership; and no file of the current layout is taken for an older
    one. -/
theorem snapshot_round_trip (snapshot : Snapshot) (blocks : List Bytes)
    (hindex : 0 < snapshot.index ∧ snapshot.index < 2 ^ 64)
    (hterm : 0 < snapshot.term ∧ snapshot.term < 2 ^ 64)
    (hdata : blocks.flatten.length ≤ maxSnapshotData) :
    (∃ file, storeSnapshotStream snapshot blocks =
        .ok (file, blocks.flatten.length, crc32 blocks.flatten) ∧ CurrentLayout file ∧
      ((SnapshotJson.marshal snapshot.membership).length ≤ maxMembership →
        ∃ r : Snapshot × ℕ × ℕ, inspectSnapshotAt (some file) = .ok r ∧
          r = ({ index := snapshot.index, term := snapshot.term,
                 membership := snapshot.membership },
            blocks.flatten.length, crc32 blocks.flatten) ∧
          (DurableSnapshot.ofInspect r).openSnapshot (some file) snapshot.index =
            .ok (blocks.flatten, blocks.flatten.length, crc32 blocks.flatten))) ∧
      (∃ r : Snapshot × ℕ × ℕ,
        inspectSnapshotAt (some (olderSnapshotFile snapshot blocks.flatten)) = .ok r ∧
          r = ({ index := snapshot.index, term := snapshot.term, membership := {} },
            blocks.flatten.length, crc32 blocks.flatten) ∧
          (DurableSnapshot.ofInspect r).openSnapshot
              (some (olderSnapshotFile snapshot blocks.flatten)) snapshot.index =
            .ok (blocks.flatten, blocks.flatten.length, crc32 blocks.flatten)) ∧
      ∀ file, CurrentLayout file → file.length < 2 ^ 63 → ¬ ReadAsOlder file := by
  have hfits : SnapshotFits snapshot blocks.flatten := ⟨⟨by omega, hindex.2⟩, ⟨by omega, hterm.2⟩,
    hdata⟩
  have hmax : snapshotHeader + maxSnapshotData + maxMembership < 2 ^ 62 := by decide
  refine ⟨⟨snapshotFile snapshot blocks.flatten, ?_, currentLayout_snapshotFile hfits, ?_⟩, ?_, ?_⟩
  · rw [storeSnapshotStream_eq, boundedWrite, if_neg (by omega)]
  · intro hjson
    refine ⟨_, ?_, rfl, ?_⟩
    · rw [inspectSnapshotAt_eq (by rw [length_snapshotFile]; omega),
        inspectSnapshot_snapshotFile hfits, if_pos hjson]
    · rw [snapshotFile, snapshotBody, List.append_assoc]
      exact openSnapshot_base hfits _ _
  · refine ⟨_, ?_, rfl, ?_⟩
    · rw [inspectSnapshotAt_eq (by rw [length_olderSnapshotFile]; omega),
        inspectSnapshot_older hfits]
    · exact openSnapshot_base hfits _ _
  · exact fun file => CurrentLayout.not_readAsOlder

end SnapshotFile

/-- Three bytes in two blocks. -/
theorem snapshot_round_trip_blocks :
    letI := unarySnapshotJson
    ∃ file, storeSnapshotStream (bareSnapshot 5 2) [[1], [2, 3]] =
        .ok (file, 3, crc32 [1, 2, 3]) ∧
      inspectSnapshotAt (some file) = .ok (bareSnapshot 5 2, 3, crc32 [1, 2, 3]) ∧
      ¬ ReadAsOlder file := by
  let _ := unarySnapshotJson
  obtain ⟨⟨file, hstore, hlayout, hread⟩, _, hnot⟩ := snapshot_round_trip (bareSnapshot 5 2)
    [[1], [2, 3]] (by decide) (by decide) (by decide)
  obtain ⟨r, hinspect, rfl, _⟩ := hread unarySnapshotJson_empty
  refine ⟨file, hstore, hinspect, hnot file hlayout ?_⟩
  -- what was written is the file of the snapshot
  rw [storeSnapshotStream_eq] at hstore
  have hfile : snapshotFile (bareSnapshot 5 2) [1, 2, 3] = file :=
    congrArg Prod.fst (Except.ok.inj hstore)
  have hjson := unarySnapshotJson_empty
  have hmax : maxMembership = 2 ^ 20 := rfl
  rw [← hfile, length_snapshotFile]
  show snapshotHeader + 3 + 4 + (unarySnapshotJson.marshal {}).length + 4 < 2 ^ 63
  have hhead : snapshotHeader = 24 := rfl
  omega

end Lsmdb.RaftStore
