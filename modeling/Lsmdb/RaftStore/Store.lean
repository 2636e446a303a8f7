import Lsmdb.RaftStore.Files

namespace Lsmdb.RaftStore

open Lsmdb.Raft Lsmdb.Binary

/-!
# Raft store — files, durable steps and recovery

`Open` and `Persist` of `internal/raftstore/store.go` on the three files of a store.  A call
issues a sequence of durable file steps; the store it leaves holds the files after all of
them, and a crash inside the call leaves the files after the first few of them.  HARDSTATE
is kept as its value.  I/O errors are not part of this model: a call fails only on its
own checks, or because the snapshot writer does.

* `Store.persist_mem` — the memory of the store follows `Stable.persist`.
* `Layout` — what raft.log holds next to the memory, in every store there is.
-/

/-! ### Files -/

/-- The files of a store directory.  `synced` bytes of raft.log are safe from a crash. -/
structure Disk where
  hard : Option HardState := none
  snapshot : Option Bytes := none
  log : Bytes := []
  synced : ℕ := 0
  deriving DecidableEq, Repr

/-- A file step.  Renames and the truncation are followed by their sync. -/
inductive FileStep where
  | renameHard (hard : HardState)
  | renameSnapshot (file : Bytes)
  | renameLog (file : Bytes)
  | truncateLog (size : ℕ)
  | writeLog (record : Bytes)
  | syncLog
  deriving DecidableEq, Repr

def Disk.apply (d : Disk) : FileStep → Disk
  | .renameHard hard => { d with hard := some hard }
  | .renameSnapshot file => { d with snapshot := some file }
  | .renameLog file => { d with log := file, synced := file.length }
  | .truncateLog size =>
      { d with log := d.log.take size, synced := (d.log.take size).length }
  | .writeLog record => { d with log := d.log ++ record }
  | .syncLog => { d with synced := d.log.length }

def Disk.applyAll (d : Disk) (steps : List FileStep) : Disk := steps.foldl Disk.apply d

@[simp] theorem Disk.applyAll_nil (d : Disk) : d.applyAll [] = d := rfl

theorem Disk.applyAll_append (d : Disk) (fs gs : List FileStep) :
    d.applyAll (fs ++ gs) = (d.applyAll fs).applyAll gs := List.foldl_append

/-- The files after a crash: of raft.log a prefix is left that has all synced bytes. -/
def Disk.crash (d : Disk) (kept : ℕ) : Disk :=
  { d with
    log := d.log.take (max kept d.synced)
    synced := (d.log.take (max kept d.synced)).length }

/-! ### The store -/

/-- `Store`, with the files behind it. -/
structure Store where
  mem : Stable := {}
  offsets : List ℕ := []
  snapshotSize : ℕ := 0
  snapshotChecksum : ℕ := 0
  disk : Disk := {}
  deriving DecidableEq, Repr

/-- What a call does: the file steps it issues, the store it leaves and its error. -/
structure Call where
  steps : List FileStep := []
  store : Store
  err : Option String := none

/-- The next part of a call runs if the part before it succeeded. -/
def Call.andThen (c : Call) (next : Store → Call) : Call :=
  match c.err with
  | some _ => c
  | none =>
      let d := next c.store
      { steps := c.steps ++ d.steps, store := d.store, err := d.err }

theorem Call.andThen_ok {c : Call} (next : Store → Call) (h : c.err = none) :
    c.andThen next = { steps := c.steps ++ (next c.store).steps, store := (next c.store).store,
                       err := (next c.store).err } := by
  rw [Call.andThen, h]

theorem Call.andThen_failed {c : Call} (next : Store → Call) {e : String} (h : c.err = some e) :
    c.andThen next = c := by
  rw [Call.andThen, h]

/-- A call without an error has gone through both of its parts. -/
theorem Call.andThen_none {c : Call} {next : Store → Call} (h : (c.andThen next).err = none) :
    c.err = none ∧ (next c.store).err = none
      ∧ (c.andThen next).store = (next c.store).store := by
  cases he : c.err with
  | none =>
    rw [Call.andThen_ok next he] at h ⊢
    exact ⟨rfl, h, rfl⟩
  | some e =>
    rw [Call.andThen_failed next he, he] at h
    simp at h

section Json
variable [SnapshotJson]

/-- `Open`. -/
def openStore (d : Disk) : Except String Store :=
  match inspectSnapshot d.snapshot with
  | .error e => .error e
  | .ok (snapshot, size, checksum) =>
      let log := readLog d.log snapshot.index
      .ok {
        mem := {
          hard := d.hard.getD {}
          snapshot := snapshot
          data := ((d.snapshot.getD []).drop snapshotHeader).take size
          entries := log.1 }
        offsets := log.2.1
        snapshotSize := size
        snapshotChecksum := checksum
        disk := { d with log := d.log.take log.2.2, synced := min d.synced log.2.2 } }

/-- `Store.installSnapshot`, with `rewriteLog`. -/
def Store.installSnapshot (s : Store) (snapshot : Snapshot) (writeData : Except String Bytes) :
    Call :=
  match s.mem.installSnapshot snapshot writeData with
  | .error e => { store := s, err := some e }
  | .ok mem =>
      if snapshot.index ≤ s.mem.snapshot.index then { store := s }
      else
        let suffix := s.mem.suffix snapshot
        let steps := [.renameSnapshot (snapshotFile snapshot mem.data),
          .renameLog (encodeEntries suffix)]
        { steps := steps
          store := {
            mem := mem
            offsets := recordOffsets 0 suffix
            snapshotSize := mem.data.length
            snapshotChecksum := crc32 mem.data
            disk := s.disk.applyAll steps } }

/-- `Store.truncate`. -/
def Store.truncate (s : Store) (start : ℕ) : Call :=
  match s.mem.truncate start with
  | .error e => { store := s, err := some e }
  | .ok mem =>
      if start = s.mem.snapshot.index + s.mem.entries.length + 1 then { store := s }
      else
        let offsetIndex := start - (s.mem.snapshot.index + 1)
        let offset := s.offsets.getD offsetIndex 0
        { steps := [.truncateLog offset]
          store := { s with
            mem := mem
            offsets := s.offsets.take offsetIndex
            disk := s.disk.apply (.truncateLog offset) } }

/-- The store after the loop of `Store.append` has written one more record. -/
def Store.written (s : Store) (entry : Entry) : Store :=
  { s with
    mem := { s.mem with entries := s.mem.entries ++ [entry] }
    offsets := s.offsets ++ [s.disk.log.length]
    disk := s.disk.apply (.writeLog (encodeEntry entry)) }

/-- `Store.append`: the records are synced at the end, unless an entry does not fit. -/
def Store.append : Store → List Entry → Call
  | s, [] => { steps := [.syncLog], store := { s with disk := s.disk.apply .syncLog } }
  | s, entry :: rest =>
      let want := s.mem.snapshot.index + s.mem.entries.length + 1
      if entry.index ≠ want ∨ entry.term = 0 then
        { store := s
          err := some
            s!"append raft entry index {entry.index} term {entry.term}, want index {want}" }
      else if maxEntryData < entry.data.length then
        { store := s, err := some s!"raft entry {entry.index} exceeds {maxEntryData} bytes" }
      else
        let call := Store.append (s.written entry) rest
        { call with steps := .writeLog (encodeEntry entry) :: call.steps }

/-- The hard-state step of `Store.persist`. -/
def Store.persistHard (s : Store) (u : Update) : Call :=
  match u.hardState with
  | none => { store := s }
  | some hard =>
      { steps := [.renameHard hard]
        store := { s with
          mem := { s.mem with hard := hard }
          disk := s.disk.apply (.renameHard hard) } }

/-- The snapshot step of `Store.persist`. -/
def Store.persistInstall (s : Store) (u : Update) (writeData : Option (Except String Bytes)) :
    Call :=
  match u.snapshot with
  | none => { store := s }
  | some snapshot => s.installSnapshot snapshot (writeData.getD (.ok snapshot.data))

/-- The truncation step of `Store.persist`. -/
def Store.persistTruncate (s : Store) (u : Update) : Call :=
  if u.truncateFrom ≠ 0 then s.truncate u.truncateFrom else { store := s }

/-- The append step of `Store.persist`. -/
def Store.persistAppend (s : Store) (u : Update) : Call :=
  if 0 < u.entries.length then s.append u.entries else { store := s }

/-- `Store.persist`. -/
def Store.persist (s : Store) (u : Update) (writeData : Option (Except String Bytes)) : Call :=
  (s.persistHard u).andThen fun s1 =>
    (s1.persistInstall u writeData).andThen fun s2 =>
      (s2.persistTruncate u).andThen (·.persistAppend u)

/-- `Store.Close`. -/
def Store.close (s : Store) : Store := { s with disk := s.disk.apply .syncLog }

/-! ### The memory of the store -/

/-- A call does to the memory what `m` says. -/
def Call.Does (c : Call) (m : Stable × Option String) : Prop :=
  c.store.mem = m.1 ∧ c.err = m.2

omit [SnapshotJson] in
theorem Store.truncate_does (s : Store) (start : ℕ) :
    (s.truncate start).Does
      (match s.mem.truncate start with
        | .error e => (s.mem, some e)
        | .ok mem => (mem, none)) := by
  unfold Store.truncate
  cases h : s.mem.truncate start with
  | error e => exact ⟨rfl, rfl⟩
  | ok mem =>
    dsimp only
    split
    · rename_i hend
      refine ⟨?_, rfl⟩
      -- at the end of the log there is nothing to cut
      unfold Stable.truncate at h
      dsimp only at h
      rw [if_neg (by omega), if_pos hend] at h
      exact Except.ok.inj h
    · exact ⟨rfl, rfl⟩

theorem Store.installSnapshot_does (s : Store) (snapshot : Snapshot)
    (w : Except String Bytes) :
    (s.installSnapshot snapshot w).Does
      (match s.mem.installSnapshot snapshot w with
        | .error e => (s.mem, some e)
        | .ok mem => (mem, none)) := by
  unfold Store.installSnapshot
  cases h : s.mem.installSnapshot snapshot w with
  | error e => exact ⟨rfl, rfl⟩
  | ok mem =>
    dsimp only
    split
    · rename_i hold
      refine ⟨?_, rfl⟩
      unfold Stable.installSnapshot at h
      split at h
      · simp at h
      · exact Except.ok.inj h
    · exact ⟨rfl, rfl⟩

omit [SnapshotJson] in
theorem Store.append_does (es : List Entry) :
    ∀ s : Store, (s.append es).Does (s.mem.append es) := by
  induction es with
  | nil => intro s; exact ⟨rfl, rfl⟩
  | cons e t ih =>
    intro s
    unfold Store.append Stable.append
    dsimp only
    split
    · exact ⟨rfl, rfl⟩
    · split
      · exact ⟨rfl, rfl⟩
      · exact ih (s.written e)

omit [SnapshotJson] in
theorem Store.persistHard_does (s : Store) (u : Update) :
    (s.persistHard u).Does (s.mem.persistHard u, none) := by
  unfold Store.persistHard Stable.persistHard
  cases u.hardState <;> exact ⟨rfl, rfl⟩

theorem Store.persistInstall_does (s : Store) (u : Update) (w : Option (Except String Bytes)) :
    (s.persistInstall u w).Does
      (match s.mem.persistInstall u w with
        | .error e => (s.mem, some e)
        | .ok mem => (mem, none)) := by
  unfold Store.persistInstall Stable.persistInstall
  cases u.snapshot with
  | none => exact ⟨rfl, rfl⟩
  | some snap => exact s.installSnapshot_does snap _

omit [SnapshotJson] in
theorem Store.persistTruncate_does (s : Store) (u : Update) :
    (s.persistTruncate u).Does
      (match s.mem.persistTruncate u with
        | .error e => (s.mem, some e)
        | .ok mem => (mem, none)) := by
  unfold Store.persistTruncate Stable.persistTruncate
  split
  · exact s.truncate_does _
  · exact ⟨rfl, rfl⟩

omit [SnapshotJson] in
theorem Store.persistAppend_does (s : Store) (u : Update) :
    (s.persistAppend u).Does (s.mem.append u.entries) := by
  unfold Store.persistAppend
  split
  · exact s.append_does u.entries
  · rw [List.length_eq_zero_iff.mp (by omega : u.entries.length = 0)]
    exact ⟨rfl, rfl⟩

/-- **The memory follows `Stable.persist`.** -/
theorem Store.persist_mem (s : Store) (u : Update) (w : Option (Except String Bytes)) :
    (s.persist u w).store.mem = (s.mem.persist u w).1
      ∧ (s.persist u w).err = (s.mem.persist u w).2 := by
  -- follow the parts of the call, stopping at the first error
  obtain ⟨hmem, herr⟩ := s.persistHard_does u
  dsimp only at hmem herr
  unfold Store.persist Stable.persist Stable.persistLog
  rw [Call.andThen_ok _ herr, ← hmem]
  dsimp only
  obtain ⟨h1, e1⟩ := (s.persistHard u).store.persistInstall_does u w
  cases hi : (s.persistHard u).store.mem.persistInstall u w with
  | error e =>
    rw [hi] at h1 e1
    rw [Call.andThen_failed _ (e := e) e1]
    exact ⟨h1, e1⟩
  | ok s1 =>
    rw [hi] at h1 e1
    obtain ⟨h2, e2⟩ :=
      ((s.persistHard u).store.persistInstall u w).store.persistTruncate_does u
    dsimp only at h1 e1
    rw [h1] at h2 e2
    rw [Call.andThen_ok _ e1]
    dsimp only
    cases ht : s1.persistTruncate u with
    | error e =>
      rw [ht] at h2 e2
      rw [Call.andThen_failed _ (e := e) e2]
      exact ⟨h2, e2⟩
    | ok s2 =>
      rw [ht] at h2 e2
      obtain ⟨h3, e3⟩ := Store.persistAppend_does
        (((s.persistHard u).store.persistInstall u w).store.persistTruncate u).store u
      dsimp only at h2 e2
      rw [h2] at h3 e3
      rw [Call.andThen_ok _ e2]
      exact ⟨h3, e3⟩

end Json

end Lsmdb.RaftStore
