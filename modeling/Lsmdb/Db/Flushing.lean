import Lsmdb.Db.Procedures

namespace Lsmdb.Db

open Lsmdb.Versions Lsmdb.Effect

/-!
# Flush, step by step

A flush of a memtable that is not empty writes the next SSTable and publishes it in front of
the generation (`Handle.afterFlush`); what comes then, the reset of the WAL and perhaps a
compaction, starts from there (`flush_run`, `flush_crash`).
-/

section Device
variable [BloomSize] [Remnant] {d : Disk} {db : DB} {files : List (String × List Record)}

/-- The reader of the SSTable a flush writes. -/
def DB.flushReader (db : DB) : Reader := { name := db.newName, table := .write db.mem.entries }

/-- The handle once a flush is published. -/
def DB.afterFlush (db : DB) : DB := db.flushed db.flushReader

/-- The files of the generation a flush publishes. -/
def flushedFiles (db : DB) (files : List (String × List Record)) : List (String × List Record) :=
  (db.newName, db.mem.entries) :: files

/-- The disk once a flush is published. -/
def Disk.afterFlush (d : Disk) (db : DB) : Disk :=
  (d.put db.newName (.complete (.write db.mem.entries))).published (db.flushState db.newName)

/-- What a flush does after it has been published. -/
def DB.finishFlush (db : DB) : Io (DB × Option String) :=
  if db.log then .attempt .resetWal (.ret (db, some "rotate wal")) fun _ => db.maybeCompact
  else db.maybeCompact

section
omit [BloomSize] [Remnant]

theorem flushState_sstables (db : DB) (name : String) :
    (db.flushState name).sstables = db.manifest.sstables ++ [name] := by
  unfold DB.flushState
  dsimp only
  split <;> rfl

theorem flushState_nextSST (db : DB) (name : String) :
    (db.flushState name).nextSST = db.nextSST + 1 := by
  unfold DB.flushState
  dsimp only
  split <;> rfl

theorem namesOf_flushedFiles (db : DB) (files : List (String × List Record)) :
    namesOf (flushedFiles db files) = namesOf files ++ [db.newName] := by
  simp [namesOf, flushedFiles]

end

section
omit [Remnant]

/-- The generation of a flush stands on the disk with its SSTable. -/
theorem gen_flushed (h : Handle d.dir db files)
    (hlay : Layered (db.mem.entries :: files.map Prod.snd)) :
    Generation (d.put db.newName (.complete (.write db.mem.entries))).dir (db.nextSST + 1)
      (flushedFiles db files) :=
  h.gen.cons (Nat.lt_succ_of_le h.nextSST) db.mem.sorted hlay

theorem flush_validate (h : Handle d.dir db files)
    (hlay : Layered (db.mem.entries :: files.map Prod.snd)) :
    { db.flushState db.newName with version := 2 : State }.validate = none := by
  refine (gen_flushed h hlay).validate ?_
  rw [flushState_sstables, h.names, namesOf_flushedFiles]

/-- **After a flush the handle is on the generation with the new SSTable.** -/
theorem Handle.afterFlush (h : Handle d.dir db files)
    (hlay : Layered (db.mem.entries :: files.map Prod.snd)) :
    Handle (d.afterFlush db).dir db.afterFlush (flushedFiles db files) := by
  have hnext : db.afterFlush.manifest.nextSST = db.nextSST + 1 := flushState_nextSST db _
  refine ⟨h.onDisk, ?_, ?_, ?_, ?_⟩
  · rw [hnext]
    exact gen_flushed h hlay
  · show (db.flushState db.newName).sstables = _
    rw [flushState_sstables, h.names, namesOf_flushedFiles]
  · show db.flushReader :: db.readers = _
    rw [h.readers]
    rfl
  · rw [hnext]
    exact le_rfl

end

omit [BloomSize] [Remnant] in
theorem flush_eq (hdisk : db.onDisk = true) (hmem : db.mem.entries ≠ []) :
    db.flush = .attempt (.writeTable db.newName db.mem.entries)
      (.ret (db, some "flush sstable")) fun _ =>
      .attempt (.openTable db.newName)
        (removeAll [db.newName] (.ret (db, some "open flushed sstable"))) fun t =>
      (store (db.flushState db.newName)).bind fun
        | some e => removeAll [db.newName] (.ret (db, some s!"publish flush manifest: {e}"))
        | none => (db.flushed { name := db.newName, table := t }).finishFlush := by
  have hentries : ¬db.mem.sortedEntries.isEmpty = true := by
    simpa [MemTable.sortedEntries] using hmem
  unfold DB.flush
  dsimp only
  rw [if_neg hentries, if_neg (by simp [hdisk])]
  rfl

/-- **A flush that goes through** is published, and goes on from there. -/
theorem flush_run (h : Handle d.dir db files)
    (hlay : Layered (db.mem.entries :: files.map Prod.snd)) (hmem : db.mem.entries ≠ []) :
    db.flush.run disk d = db.afterFlush.finishFlush.run disk (d.afterFlush db) := by
  rw [flush_eq h.onDisk hmem, Prog.run_attempt_some disk (perform_writeTable _ _ d),
    Prog.run_attempt_some disk (perform_openTable (Dir.get_put_self _ _ _)), Prog.run_bind,
    store_run (flush_validate h hlay)]
  rfl

/-- **A flush that is stopped**: only its SSTable may be there, or it is published. -/
theorem flush_crash (h : Handle d.dir db files)
    (hlay : Layered (db.mem.entries :: files.map Prod.snd)) (hmem : db.mem.entries ≠ [])
    {t : Disk} (ht : db.flush.Crash disk d t) :
    Off [db.newName] d t ∨ db.afterFlush.finishFlush.Crash disk (d.afterFlush db) t := by
  have hvalid := flush_validate h hlay
  have hput : Off [db.newName] d (d.put db.newName (.complete (.write db.mem.entries))) :=
    Off.put List.mem_cons_self d _
  rw [flush_eq h.onDisk hmem, Prog.crash_attempt_some disk (perform_writeTable _ _ d),
    Prog.crash_attempt_some disk (perform_openTable (Dir.get_put_self _ _ _)),
    Prog.crash_bind, store_run hvalid] at ht
  rcases ht with rfl | ht | rfl | ht | ht | ht
  · exact Or.inl (Off.refl _ _)
  · exact Or.inl (Off.cut_writeTable (Or.inr ht))
  · exact Or.inl hput
  · exact absurd ht id
  · rcases store_crash hvalid ht with rfl | rfl
    · exact Or.inl hput
    · exact Or.inr (Prog.crash_start disk _ _)
  · exact Or.inr ht

end Device

end Lsmdb.Db
