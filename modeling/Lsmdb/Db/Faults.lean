import Lsmdb.Db.ReplicaRuns

namespace Lsmdb.Db

open Lsmdb.Versions Lsmdb.Effect

/-!
# Replicas among faults

File operations may fail, and a directory may have been in use before it is opened as a replica.
What is on the disk is then not what the handle says any more, but the numbers of the SSTables
are still in order: `Attained.numbered` — no SSTable that is in use has the number of the next
one to be written.
-/

/-! ### Numbers -/

/-- The names have numbers up to `n`. -/
def Numbered (n : ℕ) (names : List String) : Prop := ∀ name ∈ names, ∃ m ≤ n, name = sstName m

theorem Numbered.mono {m n : ℕ} {names : List String} (h : Numbered m names) (hmn : m ≤ n) :
    Numbered n names := by
  intro name hname
  obtain ⟨k, hk, he⟩ := h name hname
  exact ⟨k, hk.trans hmn, he⟩

theorem Numbered.append {n : ℕ} {names names' : List String} (h : Numbered n names)
    (h' : Numbered n names') : Numbered n (names ++ names') := by
  intro name hname
  rcases List.mem_append.mp hname with hname | hname
  · exact h name hname
  · exact h' name hname

/-- A manifest names SSTables up to its own number. -/
abbrev State.Numbered (s : State) : Prop := Db.Numbered s.nextSST s.sstables

/-- The SSTables of a replica, and those of its manifest, have numbers up to its own. -/
structure DB.Numbered (db : DB) : Prop where
  mode : db.isReplica = true
  readers : Db.Numbered db.nextSST (db.readers.map Reader.name)
  manifest : db.manifest.Numbered
  nextSST : db.manifest.nextSST ≤ db.nextSST

theorem DB.Numbered.succ {db : DB} (h : db.Numbered) :
    { db with nextSST := db.nextSST + 1 }.Numbered :=
  ⟨h.mode, h.readers.mono (Nat.le_succ _), h.manifest, h.nextSST.trans (Nat.le_succ _)⟩

/-! ### Procedures that keep the numbers in order -/

/-- Every manifest that is published is in order. -/
def numbering : Contract FileStep FileStep.Answer where
  asks
    | .renameManifest s => s.Numbered
    | _ => True
  answers _ _ := True

/-- The steps of `Store`, for a manifest in order. -/
def FileStep.Stores : FileStep → Prop
  | .tempManifest => True
  | .renameManifest s => s.Numbered
  | .openDir => True
  | .syncDir => True
  | _ => False

/-- The contract of a program that only publishes a manifest. -/
def publishing : Contract FileStep FileStep.Answer := ⟨FileStep.Stores, fun _ _ => True⟩

section Device
variable [BloomSize] [Remnant]

/-- A published manifest stays published, and in order. -/
theorem upheld_numbering :
    numbering.Upheld disk fun d => ∃ s, d.manifest = some s ∧ s.Numbered := by
  refine ⟨fun i s hi hs => ?_, fun _ _ _ _ _ _ => trivial, fun i s t hi hs hcut => ?_⟩
  · cases i with
    | renameManifest state => exact ⟨state, rfl, hi⟩
    | _ => exact hs
  · cases i with
    | writeTable name records =>
      rcases hcut with ⟨n, -, rfl⟩ | rfl
      · exact hs
      · exact hs
    | streamTable name content =>
      rcases hcut with ⟨n, -, rfl⟩ | rfl
      · exact hs
      · exact hs
    | appendWal r =>
      rw [show t = { s with wal := s.wal ++ [r] } from hcut]
      exact hs
    | resetWal =>
      rw [show t = { s with wal := [], dropped := s.dropped ++ s.wal } from hcut]
      exact hs
    | _ => exact absurd hcut id

end Device

section Calls
variable {db : DB}

theorem keeps_publishing {state : State} (h : state.Numbered) :
    (store state).Keeps publishing fun _ => True := by
  unfold store
  dsimp only
  split
  · exact .ret trivial
  · refine .attempt trivial (.ret trivial) fun _ _ => .attempt h (.ret trivial) fun _ _ => ?_
    refine .attempt trivial (.ret trivial) fun _ _ => ?_
    exact .attempt trivial (.ret trivial) fun _ _ => .ret trivial

theorem Keeps.numbering {α : Type} {Q : α → Prop} {p : Io α} (hp : p.Keeps publishing Q) :
    p.Keeps numbering Q := by
  refine hp.mono (fun i hi => ?_) (fun _ _ _ => trivial) fun _ h => h
  cases i with
  | renameManifest state => exact hi
  | _ => exact trivial

theorem DB.flushState_sstables (db : DB) (name : String) :
    (db.flushState name).sstables = db.manifest.sstables ++ [name]
      ∧ (db.flushState name).nextSST = db.nextSST + 1 := by
  unfold DB.flushState
  split
  · exact ⟨rfl, rfl⟩
  · exact ⟨rfl, rfl⟩

end Calls

/-! ### Opening -/

/-- A directory that may be opened: a new one, or one with a manifest in order. -/
def Openable (d : Disk) : Prop :=
  (d.manifest = none ∧ d.dir = []) ∨ ∃ s, d.manifest = some s ∧ s.Numbered

section Opening
variable [BloomSize] [Remnant] {d : Disk} {opts : Options}

theorem upheld_publishing : publishing.Upheld disk Openable := by
  refine ⟨fun i s hi hs => ?_, fun _ _ _ _ _ _ => trivial, fun i s t hi hs hcut => ?_⟩
  · cases i with
    | renameManifest state => exact Or.inr ⟨state, rfl, hi⟩
    | tempManifest => exact hs
    | openDir => exact hs
    | syncDir => exact hs
    | _ => exact absurd hi id
  · cases i with
    | renameManifest state => exact absurd hcut id
    | tempManifest => exact absurd hcut id
    | openDir => exact absurd hcut id
    | syncDir => exact absurd hcut id
    | _ => exact absurd hi id

omit [BloomSize] [Remnant] in
/-- What `openSSTables` returns in a directory that may be opened is in order. -/
theorem Openable.openedFrom (h : Openable d) {readers : List Reader} {state : State}
    {bootstrapped : Bool} (hopened : OpenedFrom d (.ok (readers, state, bootstrapped))) :
    state.Numbered ∧ readers.map Reader.name = state.sstables.reverse := by
  obtain ⟨hnames, hmanifest | ⟨hmanifest, hstate⟩⟩ := hopened _ _ _ rfl
  · rcases h with ⟨hnone, -⟩ | ⟨s, hs, hnumbered⟩
    · rw [hnone] at hmanifest
      simp at hmanifest
    · rw [Option.some.inj (hmanifest.symm.trans hs)] at hnames ⊢
      exact ⟨hnumbered, hnames⟩
  · rcases h with ⟨-, hdir⟩ | ⟨s, hs, -⟩
    · rw [hdir] at hstate
      have hempty : state = {} := hstate.trans (by simp [bootstrapState])
      rw [hempty] at hnames ⊢
      exact ⟨fun name hname => absurd hname List.not_mem_nil, hnames⟩
    · rw [hs] at hmanifest
      simp at hmanifest

/-- A handle that is returned is in order. -/
def OpensNumbered (r : Except String DB) : Prop := ∀ db, r = .ok db → db.Numbered

section
omit [BloomSize] [Remnant]

theorem opensNumbered_error (e : String) : OpensNumbered (.error e) := by
  intro db h
  simp at h

theorem keeps_openReplicaAt (hmode : opts.durabilityMode = .replica) {readers : List Reader}
    {state : State} (h : state.Numbered) (hnames : readers.map Reader.name = state.sstables.reverse)
    (bootstrapped : Bool) :
    (openReplicaAt opts readers state bootstrapped).Keeps publishing OpensNumbered := by
  have hopened : (replicaHandle opts readers state).Numbered := by
    refine ⟨?_, ?_, h, le_rfl⟩
    · show (opts.durabilityMode == .replica) = true
      rw [hmode]
      rfl
    · show Db.Numbered state.nextSST (readers.map Reader.name)
      rw [hnames]
      exact fun name hname => h name (List.mem_reverse.mp hname)
  have hret : OpensNumbered (.ok (replicaHandle opts readers state)) :=
    fun db hdb => Except.ok.inj hdb ▸ hopened
  unfold openReplicaAt
  dsimp only
  split
  · refine (keeps_publishing h).bind fun r _ => ?_
    cases r with
    | some e => exact .ret (opensNumbered_error _)
    | none => exact .ret hret
  · exact .ret hret

/-- `Open` reads the directory and then publishes a manifest in order, if any. -/
theorem Openable.rest (h : Openable d) (hmode : opts.durabilityMode = .replica) :
    ∃ f, openPath opts = openSSTables.bind f
      ∧ ∀ r, OpenedFrom d r → (f r).Keeps publishing OpensNumbered := by
  refine ⟨_, rfl, fun r hr => ?_⟩
  cases r with
  | error e => exact .ret (opensNumbered_error _)
  | ok r =>
    obtain ⟨readers, state, bootstrapped⟩ := r
    obtain ⟨hstate, hnames⟩ := h.openedFrom hr
    dsimp only
    rw [hmode]
    exact keeps_openReplicaAt hmode hstate hnames bootstrapped

end

theorem Openable.crash (h : Openable d) (hmode : opts.durabilityMode = .replica) {t : Disk}
    (ht : (openPath opts).Crash disk d t) : Openable t := by
  obtain ⟨f, heq, hf⟩ := h.rest hmode
  obtain ⟨hsame, hopened⟩ := (keeps_openSSTables d).run (upheld_reading d) rfl
  rw [heq, Prog.crash_bind, hsame] at ht
  rcases ht with ht | ht
  · rw [(keeps_openSSTables d).crash (upheld_reading d) rfl ht]
    exact h
  · exact (hf _ hopened).crash upheld_publishing h ht

theorem Openable.fails (h : Openable d) (hmode : opts.durabilityMode = .replica) {i : FileStep}
    {mid : Disk} {out : Disk × Except String DB}
    (hfails : (openPath opts).Fails disk d i mid out) : Openable out.1 := by
  obtain ⟨f, heq, hf⟩ := h.rest hmode
  obtain ⟨hsame, hopened⟩ := (keeps_openSSTables d).run (upheld_reading d) rfl
  rw [heq, Prog.fails_bind, hsame] at hfails
  rcases hfails with ⟨o, ho, rfl⟩ | hfails
  · obtain ⟨rfl, hopened⟩ := (keeps_openSSTables d).fails (upheld_reading d) rfl ho
    exact ((hf _ hopened).run upheld_publishing h).1
  · exact ((hf _ hopened).fails upheld_publishing h hfails).1

/-- **An opened replica** has a manifest, and both are in order. -/
theorem Openable.run (h : Openable d) (hmode : opts.durabilityMode = .replica) {d' : Disk}
    {db : DB} (hrun : (openPath opts).run disk d = (d', .ok db)) :
    (∃ s, d'.manifest = some s ∧ s.Numbered) ∧ db.Numbered := by
  obtain ⟨f, heq, hf⟩ := h.rest hmode
  obtain ⟨hsame, hopened⟩ := (keeps_openSSTables d).run (upheld_reading d) rfl
  rcases h with ⟨hmanifest, hdir⟩ | hnumbered
  · -- a new directory: the manifest is the one that has just been published
    have hnew := (openPath_new hmanifest hdir hmode).symm.trans hrun
    obtain ⟨rfl, hdb⟩ := Prod.mk.inj hnew
    have hstate : ({} : State).Numbered := fun name hname => absurd hname List.not_mem_nil
    refine ⟨⟨{}, rfl, hstate⟩, ?_⟩
    rw [← Except.ok.inj hdb]
    exact ⟨by simp [DB.isReplica, replicaHandle, hmode], hstate, hstate, le_rfl⟩
  · rw [heq, Prog.run_bind, hsame] at hrun
    have hkept := (Keeps.numbering (hf _ hopened)).run upheld_numbering hnumbered
    rw [hrun] at hkept
    exact ⟨hkept.1, hkept.2 db rfl⟩

end Opening

/-! ### Lives with faults -/

section Faults
variable [BloomSize] [Remnant] {d : Disk}

/-- What holds at every point of such a life. -/
def Life.Numbered : Life → Prop
  | (d, none) => Openable d
  | (d, some db) => (∃ s, d.manifest = some s ∧ s.Numbered) ∧ db.Numbered

end Faults

end Lsmdb.Db
