import Lsmdb.Db.View

namespace Lsmdb.Db

open Lsmdb.Versions Lsmdb.Effect

/-!
# Flush and compaction, step by step

For a handle whose readers are a generation on the disk (`Handle`), each procedure is given
in its three readings: the disk and the handle it leaves, the disks a crash may leave, and
what a single failing step leads to.  Both modes of a database share this.
-/

section Device
variable [BloomSize] [Remnant]

/-- The readers of `db` are the generation `files`, which its manifest names. -/
structure Handle (dir : Dir) (db : DB) (files : List (String × List Record)) : Prop where
  onDisk : db.onDisk = true
  gen : Generation dir db.manifest.nextSST files
  names : db.manifest.sstables = namesOf files
  readers : db.readers = readersOf files
  nextSST : db.manifest.nextSST ≤ db.nextSST

/-- The SSTable the next flush or compaction writes. -/
def DB.newName (db : DB) : String := sstName (db.nextSST + 1)

variable {d : Disk} {db : DB} {files : List (String × List Record)}

omit [Remnant] in
theorem Handle.tables_sorted (h : Handle d.dir db files) :
    ∀ xs ∈ files.map Prod.snd, Ascending xs := by
  intro xs hxs
  obtain ⟨f, hf, rfl⟩ := List.mem_map.mp hxs
  exact h.gen.sorted f hf

omit [Remnant] in
theorem Handle.newName_not_mem (h : Handle d.dir db files) : db.newName ∉ namesOf files :=
  h.gen.not_mem (Nat.lt_succ_of_le h.nextSST)

/-! ### Compaction -/

/-- The files of the generation a compaction publishes. -/
def compactedFiles (db : DB) (files : List (String × List Record)) :
    List (String × List Record) :=
  if (compacted (files.map Prod.snd)).isEmpty then []
  else [(db.newName, compacted (files.map Prod.snd))]

/-- The disk with the output of a compaction, before it is published. -/
def Disk.withOutput (d : Disk) (db : DB) (files : List (String × List Record)) : Disk :=
  if (compacted (files.map Prod.snd)).isEmpty then d
  else d.put db.newName (.complete (.write (compacted (files.map Prod.snd))))

/-- The manifest a compaction publishes. -/
def DB.compactState (db : DB) (files : List (String × List Record)) : State :=
  { db.manifest with sstables := namesOf (compactedFiles db files), nextSST := db.nextSST + 1 }

/-- The handle after a compaction. -/
def DB.afterCompact (db : DB) (files : List (String × List Record)) : DB :=
  { db with
    readers := readersOf (compactedFiles db files)
    manifest := db.compactState files
    nextSST := db.nextSST + 1 }

/-- The disk after a compaction. -/
def Disk.afterCompact (d : Disk) (db : DB) (files : List (String × List Record)) : Disk :=
  ((d.withOutput db files).published (db.compactState files)).without (files.map Prod.fst)

omit [BloomSize] [Remnant] in
theorem snd_compactedFiles (db : DB) (files : List (String × List Record)) :
    (compactedFiles db files).map Prod.snd = compactedTables (files.map Prod.snd) := by
  unfold compactedFiles compactedTables
  split <;> rfl

omit [Remnant] in
theorem Disk.off_withOutput (d : Disk) (db : DB) (files : List (String × List Record)) :
    Off [db.newName] d (d.withOutput db files) := by
  unfold withOutput
  split
  · exact Off.refl _ _
  · exact Off.put List.mem_cons_self d _

omit [Remnant] in
/-- The generation of a compaction stands on the disk with its output. -/
theorem gen_compacted (d : Disk) (db : DB) (files : List (String × List Record)) :
    Generation (d.withOutput db files).dir (db.nextSST + 1) (compactedFiles db files) := by
  unfold Disk.withOutput compactedFiles
  split
  · exact Generation.empty _ _
  · exact (Generation.empty d.dir db.nextSST).cons (Nat.lt_succ_self _) (ascending_compacted _)
      (List.pairwise_singleton _ _)

omit [BloomSize] [Remnant] in
theorem compactedFiles_names {name : String} (h : name ∈ namesOf (compactedFiles db files)) :
    name = db.newName := by
  obtain ⟨f, hf, rfl⟩ := mem_namesOf.mp h
  unfold compactedFiles at hf
  split at hf
  · simp at hf
  · rw [List.mem_singleton.mp hf]

section
omit [Remnant]

/-- **After a compaction the handle is again on its generation.** -/
theorem Handle.afterCompact (h : Handle d.dir db files) {t : Disk}
    (ht : Off (files.map Prod.fst)
      ((d.withOutput db files).published (db.compactState files)) t) :
    Handle t.dir (db.afterCompact files) (compactedFiles db files) := by
  refine ⟨h.onDisk, ?_, rfl, rfl, le_rfl⟩
  refine (gen_compacted d db files).congr fun name hname => ht.get name fun hmem => ?_
  rw [compactedFiles_names hname] at hmem
  refine h.newName_not_mem ?_
  rw [namesOf, List.mem_reverse]
  exact hmem

theorem compact_validate (d : Disk) (db : DB) (files : List (String × List Record)) :
    { db.compactState files with version := 2 : State }.validate = none :=
  (gen_compacted d db files).validate rfl

theorem Handle.compact_eq (h : Handle d.dir db files) (hne : files ≠ []) :
    db.compact = .attempt .loadTables (.ret (db, some "compact: load reader")) fun _ =>
      if (compacted (files.map Prod.snd)).isEmpty then db.publishCompaction []
      else
        .attempt (.writeTable db.newName (compacted (files.map Prod.snd)))
          (.ret (db, some "compact: write output")) fun _ =>
        .attempt (.openTable db.newName)
          (.ret ({ db with nextSST := db.nextSST + 1 }, some "open compacted sstable")) fun t =>
        db.publishCompaction [{ name := db.newName, table := t }] := by
  have hreaders : db.readers.isEmpty = false := by
    rw [h.readers]
    cases files with
    | nil => exact absurd rfl hne
    | cons f files => rfl
  have hsources : loadSources db.readers = .ok (files.map Prod.snd) := by
    rw [h.readers, loadSources_readersOf]
  unfold DB.compact
  rw [if_neg (by simp [hreaders]), hsources, ← compactOutput_eq h.tables_sorted h.gen.layered]
  rfl

end

omit [BloomSize] [Remnant] in
theorem compact_empty (h : db.readers = []) : db.compact = .ret (db, none) := by
  unfold DB.compact
  simp [h]

omit [BloomSize] [Remnant] in
theorem namesOf_compactedFiles (db : DB) (files : List (String × List Record)) :
    namesOf (compactedFiles db files) = (compactedFiles db files).map Prod.fst := by
  unfold compactedFiles
  split <;> rfl

omit [Remnant] in
theorem publishCompaction_eq (db : DB) (files : List (String × List Record)) :
    db.publishCompaction (readersOf (compactedFiles db files))
      = (store (db.compactState files)).bind fun
        | some e => removeAll ((compactedFiles db files).map Prod.fst)
            (.ret (db, some s!"publish compaction manifest: {e}"))
        | none => removeAll (db.readers.map Reader.name) (.ret (db.afterCompact files, none)) := by
  have hstate : { db.manifest with
      sstables := (readersOf (compactedFiles db files)).map Reader.name
      nextSST := db.nextSST + 1 } = db.compactState files := by
    rw [names_readersOf, DB.compactState, namesOf_compactedFiles]
  unfold DB.publishCompaction
  rw [hstate, names_readersOf]
  rfl

theorem publishCompaction_run (h : Handle d.dir db files) :
    (db.publishCompaction (readersOf (compactedFiles db files))).run disk
        (d.withOutput db files)
      = (d.afterCompact db files, (db.afterCompact files, none)) := by
  rw [publishCompaction_eq, Prog.run_bind, store_run (compact_validate d db files)]
  show (removeAll (db.readers.map Reader.name) _).run disk _ = _
  rw [removeAll_run, h.readers, names_readersOf]
  rfl

theorem publishCompaction_crash (h : Handle d.dir db files) {t : Disk}
    (ht : (db.publishCompaction (readersOf (compactedFiles db files))).Crash disk
      (d.withOutput db files) t) :
    t = d.withOutput db files
      ∨ Off (files.map Prod.fst)
          ((d.withOutput db files).published (db.compactState files)) t := by
  have hvalid := compact_validate d db files
  rw [publishCompaction_eq, Prog.crash_bind, store_run hvalid] at ht
  rcases ht with ht | ht
  · rcases store_crash hvalid ht with rfl | rfl
    · exact Or.inl rfl
    · exact Or.inr (Off.refl _ _)
  have ht : (removeAll (db.readers.map Reader.name) _).Crash disk _ t := ht
  rw [h.readers, names_readersOf] at ht
  rcases removeAll_crash ht with ht | ht
  · exact Or.inr ht
  · rw [Prog.crash_ret] at ht
    exact Or.inr (ht ▸ Off.without (fun _ hn => hn) _)

/-! #### All of it -/

theorem perform_openTable {name : String} {recs : List Record} {d : Disk}
    (h : d.dir.get name = some (.complete (.write recs))) :
    disk.perform (.openTable name) d = (d, some (.write recs)) := by
  show (d, openFile (d.dir.get name)) = _
  rw [h]
  rfl

theorem perform_loadTables (d : Disk) : disk.perform .loadTables d = (d, some ()) := rfl

theorem perform_writeTable (name : String) (recs : List Record) (d : Disk) :
    disk.perform (.writeTable name recs) d
      = (d.put name (.complete (.write recs)), some ()) := rfl

theorem perform_openOutput (hout : ¬(compacted (files.map Prod.snd)).isEmpty) :
    disk.perform (.openTable db.newName) (d.withOutput db files)
      = (d.withOutput db files, some (.write (compacted (files.map Prod.snd)))) := by
  unfold Disk.withOutput
  rw [if_neg hout]
  exact perform_openTable (Dir.get_put_self _ _ _)

omit [BloomSize] [Remnant] in
theorem compactedFiles_of_nonempty (hout : ¬(compacted (files.map Prod.snd)).isEmpty) :
    compactedFiles db files = [(db.newName, compacted (files.map Prod.snd))] := if_neg hout

omit [BloomSize] [Remnant] in
theorem compactedFiles_of_empty (hout : (compacted (files.map Prod.snd)).isEmpty) :
    compactedFiles db files = [] := if_pos hout

omit [Remnant] in
theorem withOutput_of_empty (hout : (compacted (files.map Prod.snd)).isEmpty) :
    d.withOutput db files = d := if_pos hout

omit [Remnant] in
theorem withOutput_of_nonempty (hout : ¬(compacted (files.map Prod.snd)).isEmpty) :
    d.withOutput db files
      = d.put db.newName (.complete (.write (compacted (files.map Prod.snd)))) := if_neg hout

/-- **A compaction that goes through.** -/
theorem compact_run (h : Handle d.dir db files) (hne : files ≠ []) :
    db.compact.run disk d = (d.afterCompact db files, (db.afterCompact files, none)) := by
  have hpub := publishCompaction_run h
  rw [h.compact_eq hne, Prog.run_attempt_some disk (perform_loadTables d)]
  split
  next hout =>
    rw [compactedFiles_of_empty hout, withOutput_of_empty hout, readersOf_nil] at hpub
    exact hpub
  next hout =>
    rw [Prog.run_attempt_some disk (perform_writeTable _ _ d), ← withOutput_of_nonempty hout,
      Prog.run_attempt_some disk (perform_openOutput hout)]
    rw [compactedFiles_of_nonempty hout, readersOf_cons, readersOf_nil] at hpub
    exact hpub

/-- **A compaction that is stopped**: nothing is published and only its output may be there,
    or it is published and some of the old SSTables may be gone. -/
theorem compact_crash (h : Handle d.dir db files) (hne : files ≠ []) {t : Disk}
    (ht : db.compact.Crash disk d t) :
    Off [db.newName] d t
      ∨ Off (files.map Prod.fst)
          ((d.withOutput db files).published (db.compactState files)) t := by
  have hoff := Disk.off_withOutput d db files
  rw [h.compact_eq hne, Prog.crash_attempt_some disk (perform_loadTables d)] at ht
  rcases ht with rfl | ht | ht
  · exact Or.inl (Off.refl _ _)
  · exact absurd ht id
  split at ht
  next hout =>
    have hpub := publishCompaction_crash (t := t) h
    rw [compactedFiles_of_empty hout, withOutput_of_empty hout, readersOf_nil] at hpub
    rw [withOutput_of_empty hout]
    refine (hpub ht).imp_left fun he => ?_
    rw [he]
    exact Off.refl _ _
  next hout =>
    rw [Prog.crash_attempt_some disk (perform_writeTable _ _ d), ← withOutput_of_nonempty hout,
      Prog.crash_attempt_some disk (perform_openOutput hout)] at ht
    rcases ht with rfl | ht | rfl | ht | ht
    · exact Or.inl (Off.refl _ _)
    · exact Or.inl (Off.cut_writeTable (Or.inr ht))
    · exact Or.inl hoff
    · exact absurd ht id
    · have hpub := publishCompaction_crash (t := t) h
      rw [compactedFiles_of_nonempty hout, readersOf_cons, readersOf_nil] at hpub
      refine (hpub ht).imp_left fun he => ?_
      rw [he]
      exact hoff

end Device

end Lsmdb.Db
