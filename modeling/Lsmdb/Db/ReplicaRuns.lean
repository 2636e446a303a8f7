import Lsmdb.Db.Replica
import Mathlib.Logic.Relation

namespace Lsmdb.Db

open Lsmdb.Versions Lsmdb.Effect

/-!
# Runs of a replica

The life of a database directory in replica mode: it is opened, the handle is called, closed or
lost in a crash, and the directory is opened again.

`Reached.replica` — every handle of such a life is a replica, with the files it has on the
disk.
-/

section Device
variable [BloomSize] [Remnant]

/-! ### Calls -/

/-- The calls that change a replica. -/
inductive ReplicaCall where
  | applyBatch (index : ℕ) (mutations : List Mutation)
  | replaceReplicaState (index : ℕ) (pairs : List KVPair)
  | replaceReplicaSnapshot (index : ℕ) (size : UInt64) (stream : List UInt8)
  | forceFlush
  | forceCompact

/-- The procedure of a call. -/
def ReplicaCall.on (db : DB) : ReplicaCall → Io (DB × Option String)
  | .applyBatch index mutations => db.applyBatch index mutations
  | .replaceReplicaState index pairs => db.replaceReplicaState index pairs
  | .replaceReplicaSnapshot index size stream =>
      db.replaceReplicaSnapshot index size.toNat stream
  | .forceFlush => db.flush
  | .forceCompact => db.compact

/-- The files, and the handle while there is one. -/
abbrev Life := Disk × Option DB

/-- **One move of a replica's life**, without a failing file operation.  `Close` flushes; a crash
    loses the handle. -/
inductive Move : Life → Life → Prop where
  | opened {d d' : Disk} {opts : Options} {db : DB} (hmode : opts.durabilityMode = .replica)
      (hrun : (openPath opts).run disk d = (d', .ok db)) : Move (d, none) (d', some db)
  | openCrash {d t : Disk} {opts : Options} (hmode : opts.durabilityMode = .replica)
      (ht : (openPath opts).Crash disk d t) : Move (d, none) (t, none)
  | called {d : Disk} {db : DB} (c : ReplicaCall) :
      Move (d, some db) (((c.on db).run disk d).1, some ((c.on db).run disk d).2.1)
  | crash {d t : Disk} {db : DB} (c : ReplicaCall) (ht : (c.on db).Crash disk d t) :
      Move (d, some db) (t, none)
  | closed {d : Disk} {db : DB} : Move (d, some db) ((db.flush.run disk d).1, none)

/-- What a life in a new directory leads to. -/
abbrev Reached : Life → Prop := Relation.ReflTransGen Move ({}, none)

/-! ### Opening -/

variable {d : Disk} {db : DB} {files : List (String × List Record)}

/-- The handle a replica is opened with. -/
def replicaHandle (opts : Options) (readers : List Reader) (state : State) : DB :=
  { mem := .new, onDisk := true, readers := readers, nextSST := state.nextSST, opts := opts
    manifest := state, appliedIndex := state.appliedIndex, durableIndex := state.appliedIndex }

omit [Remnant] in
/-- What is published is a replica as soon as it is opened. -/
theorem Published.replica {state : State} (h : Published d state files) {opts : Options}
    (hmode : opts.durabilityMode = .replica) :
    Replica d (replicaHandle opts (readersOf files) { state with version := 2 }) files := by
  refine ⟨⟨rfl, h.gen, h.names, rfl, le_rfl⟩, ?_, rfl, h.manifest, h.bound, ?_, rfl, le_rfl⟩
  · show (opts.durabilityMode == .replica) = true
    rw [hmode]
    rfl
  · intro r hr
    simp [replicaHandle, MemTable.new, MemTable.newWithSeq] at hr

/-- Steps that only read. -/
def FileStep.Reads : FileStep → Prop
  | .readManifest => True
  | .listTables => True
  | .openTable _ => True
  | _ => False

/-- The contract of a program that only reads: it gets the answers of `d`. -/
def reading (d : Disk) : Contract FileStep FileStep.Answer :=
  ⟨FileStep.Reads, fun i r => (disk.perform i d).2 = some r⟩

theorem upheld_reading (d : Disk) : (reading d).Upheld disk (· = d) := by
  refine ⟨fun i s hi hs => ?_, fun i s r _ hs hr => hs ▸ hr, fun i s t hi hs hcut => ?_⟩
  · cases i with
    | readManifest => exact hs
    | listTables => exact hs
    | openTable n => exact hs
    | _ => exact absurd hi id
  · cases i with
    | readManifest => exact absurd hcut id
    | listTables => exact absurd hcut id
    | openTable n => exact absurd hcut id
    | _ => exact absurd hi id

/-- The readers in a result have the names they were opened by. -/
def OpenedAs (names : List String) (r : Except String (List Reader)) : Prop :=
  ∀ readers, r = .ok readers → readers.map Reader.name = names

omit [BloomSize] [Remnant] in
theorem openedAs_error (names : List String) (e : String) : OpenedAs names (.error e) := by
  intro readers h
  simp at h

theorem keeps_openReaders (d : Disk) (names : List String) :
    (openReaders names).Keeps (reading d) (OpenedAs names) := by
  induction names with
  | nil =>
    refine .ret fun readers h => ?_
    rw [← Except.ok.inj h]
    rfl
  | cons name rest ih =>
    refine .attempt trivial (.ret (openedAs_error _ _)) fun t _ => ih.bind fun r hr => ?_
    cases r with
    | error e => exact .ret (openedAs_error _ _)
    | ok readers =>
      refine .ret fun all hall => ?_
      rw [← Except.ok.inj hall, List.map_cons, hr readers rfl]

/-- What `openSSTables` may return in the directory `d`. -/
def OpenedFrom (d : Disk) (r : Except String (List Reader × State × Bool)) : Prop :=
  ∀ readers state bootstrapped, r = .ok (readers, state, bootstrapped) →
    readers.map Reader.name = state.sstables.reverse
      ∧ (d.manifest = some state
        ∨ d.manifest = none ∧ state = bootstrapState (d.dir.map Prod.fst))

omit [BloomSize] [Remnant] in
theorem openedFrom_error (d : Disk) (e : String) : OpenedFrom d (.error e) := by
  intro readers state bootstrapped h
  simp at h

theorem keeps_openSSTables (d : Disk) : openSSTables.Keeps (reading d) (OpenedFrom d) := by
  -- both branches open the names of some manifest and return it with the readers
  have hopened : ∀ (state : State) (bootstrapped : Bool)
      (f : Except String (List Reader) → Io (Except String (List Reader × State × Bool))),
      (∀ e, f (.error e) = .ret (.error e)) →
      (∀ readers, f (.ok readers) = .ret (.ok (readers, state, bootstrapped))) →
      (d.manifest = some state
        ∨ d.manifest = none ∧ state = bootstrapState (d.dir.map Prod.fst)) →
      ((openReaders state.sstables.reverse).bind f).Keeps (reading d) (OpenedFrom d) := by
    intro state bootstrapped f herror hok hstate
    refine (keeps_openReaders d _).bind fun r hr => ?_
    cases r with
    | error e =>
      rw [herror]
      exact .ret (openedFrom_error d e)
    | ok readers =>
      rw [hok]
      refine .ret fun readers' state' bootstrapped' h => ?_
      obtain ⟨rfl, hrest⟩ := Prod.mk.inj (Except.ok.inj h)
      obtain ⟨rfl, rfl⟩ := Prod.mk.inj hrest
      exact ⟨hr _ rfl, hstate⟩
  refine .attempt trivial (.ret (openedFrom_error d _)) fun r hr => ?_
  have hmanifest : d.manifest = r := Option.some.inj hr
  cases r with
  | none =>
    refine .attempt trivial (.ret (openedFrom_error d _)) fun names hnames => ?_
    refine hopened _ true _ (fun _ => rfl) (fun _ => rfl) (Or.inr ⟨hmanifest, ?_⟩)
    rw [← Option.some.inj hnames]
  | some state =>
    dsimp only
    cases state.validate with
    | some e => exact .ret (openedFrom_error d e)
    | none => exact hopened state false _ (fun _ => rfl) (fun _ => rfl) (Or.inl hmanifest)

theorem openSSTables_published {state : State} (h : Published d state files) :
    openSSTables.run disk d
      = (d, .ok (readersOf files, { state with version := 2 }, false)) := by
  have hmanifest : disk.perform .readManifest d = (d, some (some { state with version := 2 })) := by
    show (d, some d.manifest) = _
    rw [h.manifest]
  have hnames : ({ state with version := 2 : State }.sstables).reverse = files.map Prod.fst := by
    show state.sstables.reverse = _
    rw [h.names, namesOf, List.reverse_reverse]
  unfold openSSTables
  rw [Prog.run_attempt_some disk hmanifest]
  dsimp only
  rw [h.gen.validate h.names]
  dsimp only
  rw [Prog.run_bind, hnames, openReaders_run h.gen.held]
  rfl

theorem openSSTables_new (hmanifest : d.manifest = none) (hdir : d.dir = []) :
    openSSTables.run disk d = (d, .ok ([], {}, true)) := by
  have hread : disk.perform .readManifest d = (d, some none) := by
    show (d, some d.manifest) = _
    rw [hmanifest]
  have hlist : disk.perform .listTables d = (d, some []) := by
    show (d, some (d.dir.map Prod.fst)) = _
    rw [hdir]
    rfl
  have hstate : bootstrapState [] = {} := by simp [bootstrapState]
  unfold openSSTables
  rw [Prog.run_attempt_some disk hread]
  dsimp only
  rw [Prog.run_attempt_some disk hlist, hstate]
  rfl

section Opening
variable {opts : Options} {readers : List Reader} {state : State} {bootstrapped : Bool}
  (hmode : opts.durabilityMode = .replica)
  (hrun : openSSTables.run disk d = (d, .ok (readers, state, bootstrapped)))
include hmode hrun

theorem openPath_run :
    (openPath opts).run disk d = (openReplicaAt opts readers state bootstrapped).run disk d := by
  unfold openPath
  rw [Prog.run_bind, hrun]
  dsimp only
  rw [hmode]

theorem openPath_crash {t : Disk} (ht : (openPath opts).Crash disk d t) :
    t = d ∨ (openReplicaAt opts readers state bootstrapped).Crash disk d t := by
  unfold openPath at ht
  rw [Prog.crash_bind, hrun] at ht
  rcases ht with ht | ht
  · exact Or.inl ((keeps_openSSTables d).crash (upheld_reading d) rfl ht)
  · dsimp only at ht
    rw [hmode] at ht
    exact Or.inr ht

end Opening

/-- `p` opens a replica, and a crash in it leaves files that can be opened. -/
structure Opens (p : Io (Except String DB)) (d : Disk) : Prop where
  run : ∃ d' db files, p.run disk d = (d', .ok db) ∧ Replica d' db files
  crash : ∀ t, p.Crash disk d t → Recoverable t

theorem Published.opens {state : State} (h : Published d state files) {opts : Options}
    (hmode : opts.durabilityMode = .replica) : Opens (openPath opts) d := by
  have hrun := openSSTables_published h
  have hstart : Recoverable d := Or.inr ⟨_, _, h⟩
  refine ⟨⟨d, _, files, openPath_run hmode hrun, h.replica hmode⟩, fun t ht => ?_⟩
  rcases openPath_crash hmode hrun ht with rfl | ht
  · exact hstart
  · rw [show t = d from ht]
    exact hstart

/-- A new directory gets its manifest when it is opened. -/
theorem openPath_new (hmanifest : d.manifest = none) (hdir : d.dir = []) {opts : Options}
    (hmode : opts.durabilityMode = .replica) :
    (openPath opts).run disk d = (d.published {}, .ok (replicaHandle opts [] {})) := by
  have hrun := openSSTables_new hmanifest hdir
  have hvalid : ({} : State).validate = none := by decide
  rw [openPath_run hmode hrun, openReplicaAt, if_pos rfl, Prog.run_bind, store_run hvalid]
  rfl

theorem opens_new (hmanifest : d.manifest = none) (hdir : d.dir = []) {opts : Options}
    (hmode : opts.durabilityMode = .replica) : Opens (openPath opts) d := by
  have hrun := openSSTables_new hmanifest hdir
  have hvalid : ({} : State).validate = none := by decide
  have hnew : Published (d.published {}) {} [] :=
    ⟨rfl, Generation.empty _ _, rfl, fun f hf => absurd hf List.not_mem_nil⟩
  refine ⟨⟨_, _, [], openPath_new hmanifest hdir hmode, hnew.replica hmode⟩, fun t ht => ?_⟩
  rcases openPath_crash hmode hrun ht with rfl | ht
  · exact Or.inl ⟨hmanifest, hdir⟩
  rw [openReplicaAt, if_pos rfl, Prog.crash_bind, store_run hvalid] at ht
  rcases ht with ht | ht
  · rcases store_crash hvalid ht with rfl | rfl
    · exact Or.inl ⟨hmanifest, hdir⟩
    · exact Or.inr ⟨_, _, hnew⟩
  · rw [show t = d.published {} from ht]
    exact Or.inr ⟨_, _, hnew⟩

/-- **Opening** what a replica has left, or a new directory. -/
theorem Recoverable.opens (h : Recoverable d) {opts : Options}
    (hmode : opts.durabilityMode = .replica) : Opens (openPath opts) d := by
  rcases h with ⟨hmanifest, hdir⟩ | ⟨state, files, h⟩
  · exact opens_new hmanifest hdir hmode
  · exact h.opens hmode

/-! ### Whole lives -/

/-- What holds at every point of a replica's life. -/
def Life.Sound : Life → Prop
  | (d, none) => Recoverable d
  | (d, some db) => ∃ files, Replica d db files

theorem Replica.sound_call (h : Replica d db files) (c : ReplicaCall) : Sound (c.on db) d := by
  cases c with
  | applyBatch index mutations => exact h.sound_applyBatch index mutations
  | replaceReplicaState index pairs => exact h.sound_replaceReplicaState index pairs
  | replaceReplicaSnapshot index size stream =>
    exact h.sound_replaceReplicaSnapshot index size.toNat_lt stream
  | forceFlush => exact h.settles_flush.sound
  | forceCompact => exact h.settles_compact.sound

theorem Move.sound {l l' : Life} (h : Move l l') (hl : l.Sound) : l'.Sound := by
  cases h with
  | opened hmode hrun =>
    obtain ⟨d', db, files, hopen, hreplica⟩ := (Recoverable.opens hl hmode).run
    obtain ⟨rfl, hdb⟩ := Prod.mk.inj (hopen.symm.trans hrun)
    exact ⟨files, Except.ok.inj hdb ▸ hreplica⟩
  | openCrash hmode ht => exact (Recoverable.opens hl hmode).crash _ ht
  | called c =>
    obtain ⟨files, hreplica⟩ := hl
    exact (hreplica.sound_call c).run
  | crash c ht =>
    obtain ⟨files, hreplica⟩ := hl
    exact (hreplica.sound_call c).crash _ ht
  | closed =>
    obtain ⟨files, hreplica⟩ := hl
    obtain ⟨files', hflushed⟩ := hreplica.settles_flush.sound.run
    exact hflushed.recoverable

/-- **Every handle of a replica's life is a replica.** -/
theorem Reached.replica (h : Reached (d, some db)) : ∃ files, Replica d db files := by
  have hsound : ∀ l, Reached l → l.Sound := by
    intro l hl
    induction hl with
    | refl => exact Or.inl ⟨rfl, rfl⟩
    | tail _ hmove ih => exact hmove.sound ih
  exact hsound _ h

/-- A new replica. -/
def newReplica : DB := replicaHandle { durabilityMode := .replica } [] {}

end Device

end Lsmdb.Db
