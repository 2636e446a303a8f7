import Lsmdb.Db.Flushing
import Lsmdb.Db.Replacement

namespace Lsmdb.Db

open Lsmdb.Versions Lsmdb.Effect

/-!
# Replicas

A database in replica mode: batches are applied at external indexes and reach the disk by a
flush.  `Replica` is the invariant of such a handle and its files: everything published has a
number up to the manifest's index, everything in memory one above it and up to the applied
index.

* `Settles` — a procedure only moves the contents to other files: flush and compaction.
* `Sound` — a procedure leaves a replica again, and whatever a crash in it leaves can be
  opened.
-/

/-! ### Batches -/

/-- `Mutation`; a type is any byte. -/
structure Mutation where
  type : UInt8
  key : Key
  value : Value := []
  deriving DecidableEq, Repr

/-- `MutationPut`. -/
def mutationPut : UInt8 := 0

/-- `MutationDelete`. -/
def mutationDelete : UInt8 := 1

/-- The record of a mutation at `index`. -/
def Mutation.toRecord (index : ℕ) (m : Mutation) : Record where
  key := m.key
  value := m.value
  seqNum := index
  type := if m.type = mutationDelete then .delete else .put

/-- The first loop of `ApplyBatch`. -/
def checkMutations : List Mutation → Option String
  | [] => none
  | m :: rest =>
      if m.key = [] then some "mutation key must not be empty"
      else if m.type ≠ mutationPut ∧ m.type ≠ mutationDelete then
        some s!"unknown mutation type {m.type}"
      else checkMutations rest

/-- The handle after the second loop of `ApplyBatch`. -/
def DB.applied (db : DB) (index : ℕ) (mutations : List Mutation) : DB :=
  { db with
    mem := db.mem.setAll (mutations.map (Mutation.toRecord index))
    appliedIndex := index }

/-- `ApplyBatch`. -/
def DB.applyBatch (db : DB) (index : ℕ) (mutations : List Mutation) : Io (DB × Option String) :=
  if !db.isReplica then .ret (db, some "ApplyBatch requires replica durability mode")
  else if index = 0 then .ret (db, some "apply index must be greater than zero")
  else if index ≤ db.appliedIndex then .ret (db, none)
  else if index ≠ db.appliedIndex + 1 then
    .ret (db, some s!"apply index gap: got {index}, want {db.appliedIndex + 1}")
  else
    match checkMutations mutations with
    | some e => .ret (db, some e)
    | none => (db.applied index mutations).maybeFlush

section Device
variable [BloomSize] [Remnant]

/-! ### The invariant -/

/-- A manifest and the generation it names, as a crash may leave them. -/
structure Published (d : Disk) (state : State) (files : List (String × List Record)) : Prop where
  manifest : d.manifest = some { state with version := 2 }
  gen : Generation d.dir state.nextSST files
  names : state.sstables = namesOf files
  bound : ∀ f ∈ files, ∀ r ∈ f.2, r.seqNum ≤ state.appliedIndex

/-- The files a replica may find when it is opened. -/
def Recoverable (d : Disk) : Prop :=
  (d.manifest = none ∧ d.dir = []) ∨ ∃ state files, Published d state files

/-- **A replica**: an open handle and its files. -/
structure Replica (d : Disk) (db : DB) (files : List (String × List Record)) : Prop where
  handle : Handle d.dir db files
  mode : db.isReplica = true
  log : db.log = false
  manifest : d.manifest = some { db.manifest with version := 2 }
  bound : ∀ f ∈ files, ∀ r ∈ f.2, r.seqNum ≤ db.manifest.appliedIndex
  mem : ∀ r ∈ db.mem.entries, db.manifest.appliedIndex < r.seqNum ∧ r.seqNum ≤ db.appliedIndex
  durable : db.durableIndex = db.manifest.appliedIndex
  applied : db.manifest.appliedIndex ≤ db.appliedIndex

/-- The map a replica stands for. -/
def DB.contents (db : DB) (files : List (String × List Record)) : Key → Option Value :=
  view (db.mem.entries :: files.map Prod.snd)

variable {d : Disk} {db : DB} {files : List (String × List Record)}

section
omit [Remnant]

theorem Replica.published (h : Replica d db files) : Published d db.manifest files :=
  ⟨h.manifest, h.handle.gen, h.handle.names, h.bound⟩

theorem Replica.layered (h : Replica d db files) :
    Layered (db.mem.entries :: files.map Prod.snd) := by
  refine List.pairwise_cons.mpr ⟨fun xs hxs r hr x hx => ?_, h.handle.gen.layered⟩
  obtain ⟨f, hf, rfl⟩ := List.mem_map.mp hxs
  exact lt_of_le_of_lt (h.bound f hf x hx) (h.mem r hr).1

theorem Replica.shows (h : Replica d db files) : Shows db (db.contents files) :=
  shows_view h.handle.readers h.handle.gen.sorted h.layered

theorem Published.off {state : State} {names : List String} {t : Disk}
    (h : Published d state files) (hoff : Off names d t)
    (hfree : ∀ name ∈ names, name ∉ namesOf files) : Published t state files := by
  refine ⟨?_, h.gen.congr fun name hname => hoff.get name fun hmem => hfree name hmem hname,
    h.names, h.bound⟩
  rw [hoff.manifest]
  exact h.manifest

theorem Replica.scratch (h : Replica d db files) {t : Disk} (hoff : Off [db.newName] d t) :
    Published t db.manifest files := by
  refine h.published.off hoff fun name hname => ?_
  rw [List.mem_singleton.mp hname]
  exact h.handle.newName_not_mem

/-- The file under the next number is free for anything. -/
theorem Replica.off (h : Replica d db files) {t : Disk} (hoff : Off [db.newName] d t) :
    Replica t db files := by
  have hpublished := h.scratch hoff
  exact ⟨⟨h.handle.onDisk, hpublished.gen, h.handle.names, h.handle.readers, h.handle.nextSST⟩,
    h.mode, h.log, hpublished.manifest, h.bound, h.mem, h.durable, h.applied⟩

end

/-! ### What a procedure of a replica does -/

/-- `p` leaves a replica, and a crash in it leaves files that can be opened. -/
structure Sound (p : Io (DB × Option String)) (d : Disk) : Prop where
  run : ∃ files, Replica (p.run disk d).1 (p.run disk d).2.1 files
  crash : ∀ t, p.Crash disk d t → Recoverable t

/-- `p` only moves the contents of the replica to other files. -/
structure Settles (p : Io (DB × Option String)) (d : Disk) (db : DB)
    (files : List (String × List Record)) : Prop where
  run : ∃ d' db' files', p.run disk d = (d', (db', none)) ∧ Replica d' db' files'
    ∧ db'.appliedIndex = db.appliedIndex ∧ db'.contents files' = db.contents files
  crash : ∀ t, p.Crash disk d t → Recoverable t

theorem Settles.sound {p : Io (DB × Option String)} (h : Settles p d db files) : Sound p d := by
  obtain ⟨d', db', files', hrun, hreplica, -, -⟩ := h.run
  refine ⟨⟨files', ?_⟩, h.crash⟩
  rw [hrun]
  exact hreplica

omit [Remnant] in
theorem Replica.recoverable (h : Replica d db files) : Recoverable d :=
  Or.inr ⟨_, _, h.published⟩

theorem Replica.settles_ret (h : Replica d db files) :
    Settles (.ret (db, none)) d db files :=
  ⟨⟨d, db, files, rfl, h, rfl, rfl⟩, fun _ ht => ht ▸ h.recoverable⟩

theorem Replica.sound_ret (h : Replica d db files) (e : Option String) :
    Sound (.ret (db, e)) d := ⟨⟨files, h⟩, fun _ ht => ht ▸ h.recoverable⟩

theorem Sound.attempt {i : FileStep} {failed : Io (DB × Option String)}
    {next : i.Answer → Io (DB × Option String)} {r : i.Answer} {d' : Disk}
    (hi : disk.perform i d = (d', some r)) (hstart : Recoverable d)
    (hcut : ∀ t, disk.cut i d t → Recoverable t) (hnext : Sound (next r) d') :
    Sound (.attempt i failed next) d := by
  refine ⟨?_, fun t ht => ?_⟩
  · rw [Prog.run_attempt_some disk hi]
    exact hnext.run
  · rw [Prog.crash_attempt_some disk hi] at ht
    rcases ht with rfl | ht | ht
    · exact hstart
    · exact hcut t ht
    · exact hnext.crash t ht

theorem Sound.bind {α : Type} {p : Io α} {f : α → Io (DB × Option String)} {d' : Disk} {a : α}
    (hp : p.run disk d = (d', a)) (hcrash : ∀ t, p.Crash disk d t → Recoverable t)
    (hnext : Sound (f a) d') : Sound (p.bind f) d := by
  refine ⟨?_, fun t ht => ?_⟩
  · rw [Prog.run_bind, hp]
    exact hnext.run
  · rw [Prog.crash_bind, hp] at ht
    exact ht.elim (hcrash t) (hnext.crash t)

/-! ### Compaction -/

omit [Remnant] in
private theorem compacted_bound (h : Replica d db files) :
    ∀ f ∈ compactedFiles db files, ∀ r ∈ f.2, r.seqNum ≤ db.manifest.appliedIndex := by
  intro f hf r hr
  unfold compactedFiles at hf
  split at hf
  · simp at hf
  · rw [List.mem_singleton.mp hf] at hr
    obtain ⟨xs, hxs, hrx⟩ := List.mem_flatten.mp (mem_of_mem_compacted hr)
    obtain ⟨g, hg, rfl⟩ := List.mem_map.mp hxs
    exact h.bound g hg r hrx

omit [Remnant] in
/-- A compaction that is published leaves a replica, whichever old files are gone. -/
theorem Replica.compacted (h : Replica d db files) {t : Disk}
    (ht : Off (files.map Prod.fst)
      ((d.withOutput db files).published (db.compactState files)) t) :
    Replica t (db.afterCompact files) (compactedFiles db files) :=
  ⟨h.handle.afterCompact ht, h.mode, h.log, ht.manifest, compacted_bound h, h.mem, h.durable,
    h.applied⟩

theorem Replica.settles_compact (h : Replica d db files) : Settles db.compact d db files := by
  by_cases hne : files = []
  · have hreaders : db.readers = [] := by rw [h.handle.readers, hne]; rfl
    rw [compact_empty hreaders]
    exact h.settles_ret
  refine ⟨⟨d.afterCompact db files, db.afterCompact files, compactedFiles db files,
    compact_run h.handle hne, h.compacted (Off.without (fun _ hn => hn) _), rfl, ?_⟩,
    fun t ht => ?_⟩
  · unfold DB.contents
    rw [snd_compactedFiles]
    exact view_compacted _ h.handle.tables_sorted h.handle.gen.layered
  · rcases compact_crash h.handle hne ht with hoff | hoff
    · exact Or.inr ⟨_, _, h.scratch hoff⟩
    · exact (h.compacted hoff).recoverable

theorem Replica.settles_maybeCompact (h : Replica d db files) :
    Settles db.maybeCompact d db files := by
  unfold DB.maybeCompact
  split
  · exact h.settles_ret
  · exact h.settles_compact

/-! ### Flush -/

omit [Remnant] in
/-- A published flush leaves a replica with an empty memtable. -/
theorem Replica.flushed (h : Replica d db files) :
    Replica (d.afterFlush db) db.afterFlush (flushedFiles db files) := by
  have hstate : db.flushState db.newName = { db.manifest with
      sstables := db.manifest.sstables ++ [db.newName], nextSST := db.nextSST + 1
      appliedIndex := db.appliedIndex } := by
    unfold DB.flushState
    rw [if_pos h.mode]
  have happlied : db.afterFlush.manifest.appliedIndex = db.appliedIndex := by
    show (db.flushState db.newName).appliedIndex = _
    rw [hstate]
  refine ⟨h.handle.afterFlush h.layered, h.mode, h.log, rfl, fun f hf r hr => ?_,
    fun r hr => by simp [DB.afterFlush, DB.flushed, MemTable.newWithSeq] at hr, ?_, ?_⟩
  · rw [happlied]
    rcases List.mem_cons.mp hf with rfl | hf
    · exact (h.mem r hr).2
    · exact (h.bound f hf r hr).trans h.applied
  · rw [happlied]
    show (if db.isReplica then db.appliedIndex else db.durableIndex) = _
    rw [if_pos h.mode]
  · rw [happlied]
    exact le_rfl

theorem Replica.settles_flushEmpty (h : Replica d db files) (hmem : db.mem.entries = []) :
    Settles db.flushEmpty d db files := by
  unfold DB.flushEmpty
  split
  · let state := { db.manifest with appliedIndex := db.appliedIndex }
    have hvalid : { state with version := 2 : State }.validate = none :=
      h.handle.gen.validate h.handle.names
    have hnew : Replica (d.published state)
        { db with manifest := state, durableIndex := db.appliedIndex } files := by
      refine ⟨⟨h.handle.onDisk, h.handle.gen, h.handle.names, h.handle.readers, h.handle.nextSST⟩,
        h.mode, h.log, rfl, fun f hf r hr => (h.bound f hf r hr).trans h.applied,
        fun r hr => ?_, rfl, le_rfl⟩
      rw [show ({ db with manifest := state, durableIndex := db.appliedIndex } : DB).mem
        = db.mem from rfl, hmem] at hr
      simp at hr
    refine ⟨⟨_, _, files, ?_, hnew, rfl, rfl⟩, fun t ht => ?_⟩
    · rw [Prog.run_bind, store_run hvalid]
      rfl
    · rw [Prog.crash_bind, store_run hvalid] at ht
      rcases ht with ht | ht
      · rcases store_crash hvalid ht with rfl | rfl
        · exact h.recoverable
        · exact hnew.recoverable
      · exact ht ▸ hnew.recoverable
  · exact h.settles_ret

theorem Replica.settles_flush (h : Replica d db files) : Settles db.flush d db files := by
  by_cases hmem : db.mem.entries = []
  · have hempty : db.flush = db.flushEmpty := by
      unfold DB.flush
      rw [if_pos (by simp [MemTable.sortedEntries, hmem])]
    rw [hempty]
    exact h.settles_flushEmpty hmem
  · have hnext : db.afterFlush.finishFlush = db.afterFlush.maybeCompact := by
      unfold DB.finishFlush
      rw [if_neg (by simp [DB.afterFlush, DB.flushed, h.log])]
    obtain ⟨d', db', files', hrun, hreplica, happlied, hcontents⟩ :=
      h.flushed.settles_maybeCompact.run
    refine ⟨⟨d', db', files', ?_, hreplica, happlied, hcontents⟩, fun t ht => ?_⟩
    · rw [flush_run h.handle h.layered hmem, hnext]
      exact hrun
    · rcases flush_crash h.handle h.layered hmem ht with hoff | ht
      · exact Or.inr ⟨_, _, h.scratch hoff⟩
      · rw [hnext] at ht
        exact h.flushed.settles_maybeCompact.crash t ht

theorem Replica.settles_maybeFlush (h : Replica d db files) : Settles db.maybeFlush d db files := by
  unfold DB.maybeFlush
  split
  · exact h.settles_ret
  · split
    · exact h.settles_ret
    · exact h.settles_flush

/-! ### Batches of a replica -/

omit [BloomSize] [Remnant] in
/-- Records of one number enter a memtable whose records all have smaller ones. -/
theorem mem_setAll {m : MemTable} {rs : List Record} {r : Record} (h : r ∈ (m.setAll rs).entries) :
    r ∈ rs ∨ r ∈ m.entries := by
  induction rs generalizing m with
  | nil => exact Or.inr h
  | cons x rs ih =>
    rcases ih (m := m.setRaw x) h with hr | hr
    · exact Or.inl (List.mem_cons_of_mem _ hr)
    · rcases mem_setNewer hr with rfl | hr
      · exact Or.inl List.mem_cons_self
      · exact Or.inr hr

omit [Remnant] in
/-- The handle with the batch in memory is a replica again. -/
theorem Replica.applied_next (h : Replica d db files) (mutations : List Mutation) :
    Replica d (db.applied (db.appliedIndex + 1) mutations) files := by
  refine ⟨⟨h.handle.onDisk, h.handle.gen, h.handle.names, h.handle.readers, h.handle.nextSST⟩,
    h.mode, h.log, h.manifest, h.bound, fun r hr => ?_, h.durable, ?_⟩
  · show db.manifest.appliedIndex < r.seqNum ∧ r.seqNum ≤ db.appliedIndex + 1
    have happlied := h.applied
    rcases mem_setAll hr with hr | hr
    · obtain ⟨m, -, rfl⟩ := List.mem_map.mp hr
      show db.manifest.appliedIndex < db.appliedIndex + 1
        ∧ db.appliedIndex + 1 ≤ db.appliedIndex + 1
      omega
    · have := h.mem r hr
      omega
  · show db.manifest.appliedIndex ≤ db.appliedIndex + 1
    have := h.applied
    omega

omit [BloomSize] [Remnant] in
/-- What `ApplyBatch` does on a replica: nothing, or the batch at the next index. -/
theorem applyBatch_cases (hmode : db.isReplica = true) (index : ℕ) (mutations : List Mutation) :
    (∃ e, db.applyBatch index mutations = .ret (db, e)
        ∧ (index ≠ db.appliedIndex + 1 ∨ (checkMutations mutations).isSome))
      ∨ (index = db.appliedIndex + 1 ∧ checkMutations mutations = none
        ∧ db.applyBatch index mutations = (db.applied index mutations).maybeFlush) := by
  unfold DB.applyBatch
  rw [if_neg (by simp [hmode])]
  by_cases h0 : index = 0
  · rw [if_pos h0]
    exact Or.inl ⟨_, rfl, Or.inl (by omega)⟩
  rw [if_neg h0]
  by_cases hold : index ≤ db.appliedIndex
  · rw [if_pos hold]
    exact Or.inl ⟨_, rfl, Or.inl (by omega)⟩
  rw [if_neg hold]
  by_cases hnext : index = db.appliedIndex + 1
  · rw [if_neg (not_not.mpr hnext)]
    cases hcheck : checkMutations mutations with
    | some e => exact Or.inl ⟨_, rfl, Or.inr rfl⟩
    | none => exact Or.inr ⟨hnext, rfl, rfl⟩
  · rw [if_pos hnext]
    exact Or.inl ⟨_, rfl, Or.inl hnext⟩

theorem Replica.sound_applyBatch (h : Replica d db files) (index : ℕ)
    (mutations : List Mutation) : Sound (db.applyBatch index mutations) d := by
  rcases applyBatch_cases h.mode index mutations with ⟨e, heq, -⟩ | ⟨rfl, -, heq⟩
  · rw [heq]
    exact h.sound_ret e
  · rw [heq]
    exact (h.applied_next mutations).settles_maybeFlush.sound

/-! ### Replacements of a replica -/

omit [BloomSize] [Remnant] in
theorem replacementFiles_eq {index : ℕ} {pairs : List KVPair} {f : String × List Record}
    (h : f ∈ replacementFiles db index pairs) :
    f = (db.newName, snapshotRecords index pairs) := by
  unfold replacementFiles at h
  split at h
  · simp at h
  · exact List.mem_singleton.mp h

omit [Remnant] in
/-- A published replacement leaves a replica, whichever old files are gone. -/
theorem Replica.replacement (h : Replica d db files) {index : ℕ} {pairs : List KVPair}
    (hsorted : pairs.Pairwise fun p q => p.key < q.key) {t : Disk}
    (ht : Off (db.supplanted index pairs)
      ((d.withReplacement db index pairs).published (db.replacementState index pairs)) t) :
    Replica t (db.afterReplacement index pairs) (replacementFiles db index pairs) := by
  refine ⟨⟨h.handle.onDisk, ?_, rfl, rfl, le_rfl⟩, h.mode, h.log, ht.manifest, ?_, ?_, rfl, le_rfl⟩
  · refine (gen_replacement d db index hsorted).congr fun name hname => ht.get name fun hmem => ?_
    -- files that were published are not among the removed ones
    have hkept := (List.mem_filter.mp hmem).2
    rw [replacementFiles_names] at hname
    simp [hname] at hkept
  · intro f hf r hr
    rw [replacementFiles_eq hf] at hr
    obtain ⟨p, -, rfl⟩ := List.mem_map.mp hr
    exact le_rfl
  · intro r hr
    simp [DB.afterReplacement, DB.replaced, MemTable.newWithSeq] at hr

theorem publishReplacement_crash {index : ℕ} {pairs : List KVPair}
    (hsorted : pairs.Pairwise fun p q => p.key < q.key) {t : Disk}
    (ht : (db.publishReplacement index (readersOf (replacementFiles db index pairs))).Crash disk
      (d.withReplacement db index pairs) t) :
    t = d.withReplacement db index pairs
      ∨ Off (db.supplanted index pairs)
          ((d.withReplacement db index pairs).published (db.replacementState index pairs)) t := by
  have hvalid := replacement_validate db index hsorted
  rw [publishReplacement_eq, Prog.crash_bind, store_run hvalid] at ht
  rcases ht with ht | ht
  · rcases store_crash hvalid ht with rfl | rfl
    · exact Or.inl rfl
    · exact Or.inr (Off.refl _ _)
  dsimp only at ht
  rw [finishReplacement_none] at ht
  rcases removeAll_crash ht with ht | ht
  · exact Or.inr ht
  · rw [Prog.crash_ret] at ht
    exact Or.inr (ht ▸ Off.without (fun _ hn => hn) _)

omit [Remnant] in
theorem Disk.off_withReplacement (d : Disk) (db : DB) (index : ℕ) (pairs : List KVPair) :
    Off [db.newName] d (d.withReplacement db index pairs) := by
  unfold withReplacement
  split
  · exact Off.refl _ _
  · exact Off.put List.mem_cons_self d _

theorem Replica.sound_publishReplacement (h : Replica d db files) (index : ℕ)
    {pairs : List KVPair} (hsorted : pairs.Pairwise fun p q => p.key < q.key) :
    Sound (db.publishReplacement index (readersOf (replacementFiles db index pairs)))
      (d.withReplacement db index pairs) := by
  refine ⟨⟨replacementFiles db index pairs, ?_⟩, fun t ht => ?_⟩
  · rw [publishReplacement_run index hsorted]
    exact h.replacement hsorted (Off.without (fun _ hn => hn) _)
  · rcases publishReplacement_crash hsorted ht with rfl | hoff
    · exact Or.inr ⟨_, _, h.scratch (Disk.off_withReplacement d db index pairs)⟩
    · exact (h.replacement hsorted hoff).recoverable

omit [BloomSize] [Remnant] in
theorem snapshotPairsOk_sorted {pairs : List KVPair} (h : snapshotPairsOk pairs = true) :
    pairs.Pairwise fun p q => p.key < q.key := by
  induction pairs with
  | nil => exact List.Pairwise.nil
  | cons p rest ih =>
    cases rest with
    | nil => exact List.pairwise_singleton _ _
    | cons q rest =>
      simp only [snapshotPairsOk, Bool.and_eq_true, decide_eq_true_eq] at h
      have hrest := ih h.2
      refine List.pairwise_cons.mpr ⟨fun x hx => ?_, hrest⟩
      rcases List.mem_cons.mp hx with rfl | hx
      · exact h.1.2
      · exact h.1.2.trans ((List.pairwise_cons.mp hrest).1 x hx)

theorem Replica.sound_replaceReplicaState (h : Replica d db files) (index : ℕ)
    (pairs : List KVPair) : Sound (db.replaceReplicaState index pairs) d := by
  unfold DB.replaceReplicaState
  cases db.checkReplacement index with
  | some e => exact h.sound_ret _
  | none =>
    dsimp only
    by_cases hok : snapshotPairsOk pairs = true
    · have hpublish := h.sound_publishReplacement index (snapshotPairsOk_sorted hok)
      rw [if_neg (by simp [hok])]
      cases pairs with
      | nil => exact hpublish
      | cons p ps =>
        rw [if_neg (by simp)]
        have hput : disk.perform (.writeTable db.newName (snapshotRecords index (p :: ps))) d
            = (d.withReplacement db index (p :: ps), some ()) := rfl
        apply Sound.attempt hput h.recoverable
        · intro t ht
          exact Or.inr ⟨_, _, h.scratch (Off.cut_writeTable (Or.inr ht))⟩
        · apply Sound.attempt (perform_openTable (Dir.get_put_self _ _ _))
          · exact Or.inr ⟨_, _, h.scratch (Disk.off_withReplacement d db index _)⟩
          · exact fun t ht => absurd ht id
          · exact hpublish
    · rw [if_pos (by simpa using hok)]
      exact h.sound_ret _

theorem Replica.sound_replaceReplicaSnapshot (h : Replica d db files) (index : ℕ) {size : ℕ}
    (hsize : size < 2 ^ 64) (stream : List UInt8) :
    Sound (db.replaceReplicaSnapshot index size stream) d := by
  rcases replaceReplicaSnapshot_cases h.mode index hsize stream with
    ⟨e, heq, -⟩ | ⟨heq, -⟩ | ⟨count, b, hcount, heq, haccepts⟩
  · rw [heq]
    exact h.sound_ret _
  · rw [heq]
    exact h.sound_publishReplacement index List.Pairwise.nil
  · have hkeeps := keeps_streamSnapshot db.newName index count b
    have hscratch := upheld_scratch db.newName d
    have hcrash : ∀ t, (streamSnapshot db.newName index count b).Crash disk d t →
        Recoverable t := fun t ht =>
      Or.inr ⟨_, _, h.scratch (hkeeps.crash hscratch (Off.refl _ _) ht)⟩
    rw [heq]
    -- either the stream is refused, with a file that nothing names, or it is published
    by_cases hread : ∃ pairs, readPairs count [] b = .ok (pairs, [])
    · obtain ⟨pairs, hread⟩ := hread
      obtain ⟨rfl, hfit, hb⟩ := readPairs_iff.mp hread
      rw [List.append_nil] at hb
      subst hb
      have hpublish := h.sound_publishReplacement index ((haccepts pairs).mpr hread).sorted
      cases pairs with
      | nil => exact absurd rfl hcount
      | cons p ps => exact Sound.bind (streamSnapshot_ok (by simp) hfit) hcrash hpublish
    · obtain ⟨e, he⟩ := streamSnapshot_refused (d := d) db.newName index hcount
        fun pairs hpairs => hread ⟨pairs, hpairs⟩
      have hrun : (streamSnapshot db.newName index count b).run disk d
          = (((streamSnapshot db.newName index count b).run disk d).1, .error e) :=
        Prod.ext rfl he
      exact Sound.bind hrun hcrash ((h.off (hkeeps.run hscratch (Off.refl _ _)).1).sound_ret _)

end Device

end Lsmdb.Db
