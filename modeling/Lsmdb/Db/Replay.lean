import Lsmdb.Db.Engine
import Lsmdb.Wal.Replay

namespace Lsmdb.Db

open Lsmdb.Effect

/-!
# What `Set` and `Delete` leave in the log

The disk of `Lsmdb.Db.Files` holds the WAL as a list of records; here it is the file they were
written to.  `Set` and `Delete` take keys and values of any length, `ReadAll` does not.
-/

/-- `TypePut` and `TypeDelete`. -/
def WalType.byte : WalType → UInt8
  | .put => Wal.typePut
  | .delete => Wal.typeDelete

/-- The record as `Append` is given it. -/
def WalRecord.toWal (r : WalRecord) : Wal.Record where
  type := r.type.byte
  seqNum := UInt64.ofNat r.seqNum
  key := r.key
  value := r.value

theorem WalRecord.toWal_known (r : WalRecord) : r.toWal.Known := by
  unfold Wal.Record.Known WalRecord.toWal
  cases r.type <;> simp [WalType.byte]

/-- A call of `Set` or `Delete`. -/
inductive Write where
  | set (key : Key) (value : Value)
  | delete (key : Key)
  deriving DecidableEq, Repr

namespace Write

def key : Write → Key
  | .set key _ => key
  | .delete key => key

/-- A tombstone has no value. -/
def value : Write → Value
  | .set _ value => value
  | .delete _ => []

/-- The record written with the sequence number `seq`. -/
def record (seq : ℕ) : Write → WalRecord
  | .set key value => { type := .put, seqNum := seq, key := key, value := value }
  | .delete key => { type := .delete, seqNum := seq, key := key }

def call (db : DB) : Write → Io (DB × Option String)
  | .set key value => db.set key value
  | .delete key => db.delete key

@[simp] theorem record_key (seq : ℕ) (w : Write) : (w.record seq).key = w.key := by
  cases w <;> rfl

@[simp] theorem record_value (seq : ℕ) (w : Write) : (w.record seq).value = w.value := by
  cases w <;> rfl

end Write

/-- `db` with the record in its memtable. -/
def DB.written (db : DB) (w : Write) : DB :=
  { db with mem := db.mem.allocSeq.2.setRaw (w.record db.mem.allocSeq.1).toRecord }

/-- The records of the calls, numbered from `seq` on. -/
def records : ℕ → List Write → List WalRecord
  | _, [] => []
  | seq, w :: ws => w.record seq :: records (seq + 1) ws

theorem mem_records {seq : ℕ} {ws : List Write} {r : WalRecord} (h : r ∈ records seq ws) :
    ∃ w ∈ ws, r.key = w.key ∧ r.value = w.value := by
  induction ws generalizing seq with
  | nil => simp [records] at h
  | cons w ws ih =>
      rcases List.mem_cons.mp h with rfl | h
      · exact ⟨w, by simp, by simp, by simp⟩
      · obtain ⟨w', hw', hfields⟩ := ih h
        exact ⟨w', by simp [hw'], hfields⟩

theorem exists_mem_records (seq : ℕ) {ws : List Write} {w : Write} (h : w ∈ ws) :
    ∃ r ∈ records seq ws, r.key = w.key ∧ r.value = w.value := by
  induction ws generalizing seq with
  | nil => simp at h
  | cons w' ws ih =>
      rcases List.mem_cons.mp h with rfl | h
      · exact ⟨w.record seq, by simp [records], by simp, by simp⟩
      · obtain ⟨r, hr, hfields⟩ := ih (seq + 1) h
        exact ⟨r, by simp [records, hr], hfields⟩

section Calls
variable [BloomSize] [Remnant]

/-- **Calls that all return nil, without a flush**: after each of them the memtable is still below
    the threshold. -/
inductive Writes : DB → Disk → List Write → DB → Disk → Prop where
  | nil (db : DB) (d : Disk) : Writes db d [] db d
  | cons {db db₁ db₂ : DB} {d d₁ d₂ : Disk} {w : Write} {ws : List Write}
      (hcall : (w.call db).run disk d = (d₁, (db₁, none)))
      (hsmall : (db.written w).mem.size < db.opts.flushAt)
      (hrest : Writes db₁ d₁ ws db₂ d₂) : Writes db d (w :: ws) db₂ d₂

/-- **One call** of `Set` or `Delete` on an embedded database, when nothing is flushed. -/
theorem call_run {db : DB} (d : Disk) {w : Write} (hlog : db.log = true)
    (hreplica : db.isReplica = false) (hsmall : (db.written w).mem.size < db.opts.flushAt) :
    (w.call db).run disk d
      = ({ d with wal := d.wal ++ [w.record db.mem.nextSeq] }, (db.written w, none)) := by
  have hprog : w.call db = db.write fun seq => w.record seq := by
    cases w <;> simp [Write.call, DB.set, DB.delete, hreplica, Write.record]
  have hflush : (db.written w).maybeFlush = .ret (db.written w, none) := by
    unfold DB.maybeFlush
    split_ifs with honDisk hbelow
    · rfl
    · rfl
    · exact absurd hsmall hbelow
  rw [hprog, DB.write]
  dsimp only
  rw [if_pos hlog, Prog.run_attempt_some disk rfl]
  show ((db.written w).maybeFlush).run disk _ = _
  rw [hflush]
  rfl

theorem not_isReplica_of_call {db db' : DB} {d d' : Disk} {w : Write}
    (hcall : (w.call db).run disk d = (d', (db', none))) : db.isReplica = false := by
  cases hr : db.isReplica with
  | false => rfl
  | true => cases w <;> simp [Write.call, DB.set, DB.delete, hr] at hcall

/-- **All calls**: the log has grown by their records. -/
theorem Writes.wal {db db' : DB} {d d' : Disk} {ws : List Write}
    (h : Writes db d ws db' d') (hlog : db.log = true) :
    d'.wal = d.wal ++ records db.mem.nextSeq ws := by
  induction h with
  | nil db d => simp [records]
  | @cons db db₁ db₂ d d₁ d₂ w ws hcall hsmall hrest ih =>
      rw [call_run d hlog (not_isReplica_of_call hcall) hsmall] at hcall
      simp only [Prod.mk.injEq, and_true] at hcall
      obtain ⟨rfl, rfl⟩ := hcall
      have hseq : (db.written w).mem.nextSeq = db.mem.nextSeq + 1 := by
        cases w <;> simp [DB.written, MemTable.setRaw, MemTable.allocSeq, Write.record,
          WalRecord.toRecord]
      rw [ih hlog, hseq, records, List.append_assoc]
      rfl

/-- **What was written is replayed exactly if it is within the limits of the replay.**  `file` is
    the log the calls have found, as the opening of the database left it. -/
theorem accepted_writes_replayed (crc : List UInt8 → UInt32) {db db' : DB} {d d' : Disk}
    {ws : List Write} (hlog : db.log = true) (hcalls : Writes db d ws db' d')
    (hshort : ∀ w ∈ ws, w.key.length < 2 ^ 32 ∧ w.value.length < 2 ^ 32)
    {file : List UInt8} {rs : List Wal.Record} (hfile : Wal.readAll crc file = .ok (rs, file)) :
    (∃ file', Wal.readAll crc
          (file ++ Wal.encodeAll crc ((d'.wal.drop d.wal.length).map WalRecord.toWal))
        = .ok (rs ++ (records db.mem.nextSeq ws).map WalRecord.toWal, file'))
      ↔ ∀ w ∈ ws, w.key.length ≤ Wal.maxKeyLen ∧ w.value.length ≤ Wal.maxValLen := by
  have hwal : d'.wal.drop d.wal.length = records db.mem.nextSeq ws := by
    rw [hcalls.wal hlog, List.drop_left]
  rw [hwal, Wal.readAll_append_iff hfile ?short ?known]
  case short =>
    intro r hr
    obtain ⟨r', hr', rfl⟩ := List.mem_map.mp hr
    obtain ⟨w, hw, hkey, hvalue⟩ := mem_records hr'
    have := hshort w hw
    rw [← hkey, ← hvalue] at this
    exact this
  case known =>
    intro r hr
    obtain ⟨r', -, rfl⟩ := List.mem_map.mp hr
    exact r'.toWal_known
  constructor
  · intro h w hw
    obtain ⟨r, hr, hkey, hvalue⟩ := exists_mem_records db.mem.nextSeq hw
    rw [← hkey, ← hvalue]
    exact h _ (List.mem_map_of_mem hr)
  · intro h r hr
    obtain ⟨r', hr', rfl⟩ := List.mem_map.mp hr
    obtain ⟨w, hw, hkey, hvalue⟩ := mem_records hr'
    have := h w hw
    rw [← hkey, ← hvalue] at this
    exact this

end Calls

/-- A new embedded database on disk. -/
def newEmbedded : DB := { mem := .new, log := true, onDisk := true }

theorem accepted_writes_replayed_sample :
    ∃ file', Wal.readAll (fun _ => 0)
        (Wal.encodeAll (fun _ => 0)
          ((records 1 [.set [1] [2, 3], .delete [1]]).map WalRecord.toWal))
      = .ok ((records 1 [.set [1] [2, 3], .delete [1]]).map WalRecord.toWal, file') := by
  let _ := BloomSize.sixteenBits
  let _ := Remnant.refused
  have hempty : Wal.readAll (fun _ => 0) [] = .ok ([], []) :=
    Wal.readAll_of_ok (Wal.readLoop_nil 0 0 [])
  have hcalls : Writes newEmbedded {} [.set [1] [2, 3], .delete [1]]
      ((newEmbedded.written (.set [1] [2, 3])).written (.delete [1])) _ :=
    .cons (call_run {} rfl rfl (by decide)) (by decide)
      (.cons (call_run _ rfl rfl (by decide)) (by decide) (.nil _ _))
  exact (accepted_writes_replayed (fun _ => 0) rfl hcalls (by decide) hempty).mpr (by decide)

/-- A key one byte above the limit. -/
def longKey : Key := List.replicate (Wal.maxKeyLen + 1) 0

/-- **One long key empties the log**: `Set` of it and of another key both return nil, and
    `ReadAll` returns neither. -/
theorem long_key_not_replayed :
    ∃ db' d', @Writes .sixteenBits .refused newEmbedded {} [.set longKey [], .set [1] [1]] db' d'
      ∧ ∀ crc, Wal.readAll crc (Wal.encodeAll crc (d'.wal.map WalRecord.toWal)) = .ok ([], []) := by
  let _ := BloomSize.sixteenBits
  let _ := Remnant.refused
  have hfirst : (newEmbedded.written (.set longKey [])).mem.size
      < newEmbedded.opts.flushAt := by decide
  have hsecond : ((newEmbedded.written (.set longKey [])).written (.set [1] [1])).mem.size
      < (newEmbedded.written (.set longKey [])).opts.flushAt := by decide
  refine ⟨_, _, .cons (call_run {} rfl rfl hfirst) hfirst
    (.cons (call_run _ rfl rfl hsecond) hsecond (.nil _ _)), fun crc => ?_⟩
  have hlong : longKey.length = Wal.maxKeyLen + 1 := List.length_replicate ..
  have hshort : ((Write.set longKey []).record 1).toWal.Short :=
    ⟨hlong.trans_lt (by decide), by decide⟩
  have hbeyond : ¬((Write.set longKey []).record 1).toWal.Within := by
    rintro ⟨hkey, -⟩
    exact absurd (hlong.symm.trans_le hkey) (Nat.not_succ_le_self _)
  have hstop := Wal.readHead_beyond crc hshort hbeyond
    (Wal.encodeAll crc [((Write.set [1] [1]).record 2).toWal])
  exact Wal.readAll_of_ok (Wal.readLoop_stop hstop 0 0 [])

end Lsmdb.Db
