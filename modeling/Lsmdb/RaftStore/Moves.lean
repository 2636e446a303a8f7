import Lsmdb.RaftStore.Layout

namespace Lsmdb.RaftStore

open Lsmdb.Raft Lsmdb.Binary List

/-!
# Raft store — the parts of a Persist

A call of `Store.persist` is a sequence of moves: the hard state is replaced, a snapshot is
installed, the log is cut, a record is written, the log is synced.  `Move` says once what
each of them does to the memory and to the files and under which conditions it is made;
`Store.persist_moves` is that a call consists of them.

Only the installation takes two file steps, so a crash inside a call finds the files of a
store between two moves, or a new SNAPSHOT next to the old raft.log (`Moves.passes`).
-/

/-- The indexes and terms of an update are 64-bit words. -/
structure Word64 (u : Update) : Prop where
  entries : ∀ e ∈ u.entries, e.index < 256 ^ 8 ∧ e.term < 256 ^ 8
  snapshot : ∀ snap, u.snapshot = some snap → snap.index < 256 ^ 8 ∧ snap.term < 256 ^ 8

section Json
variable [SnapshotJson]

/-- The two files of an installation. -/
def installSteps (s : Store) (snapshot : Snapshot) (data : Bytes) : List FileStep :=
  [.renameSnapshot (snapshotFile snapshot data), .renameLog (encodeEntries (s.mem.suffix snapshot))]

/-- The store after an installation. -/
def Store.installed (s : Store) (snapshot : Snapshot) (data : Bytes) : Store where
  mem := { s.mem with
    snapshot := { snapshot with data := [] }
    data := data
    entries := s.mem.suffix snapshot }
  offsets := recordOffsets 0 (s.mem.suffix snapshot)
  snapshotSize := data.length
  snapshotChecksum := crc32 data
  disk := s.disk.applyAll (installSteps s snapshot data)

/-- The store after its log is cut behind its first `i` entries. -/
def Store.cut (s : Store) (i : ℕ) : Store :=
  { s with
    mem := { s.mem with entries := s.mem.entries.take i }
    offsets := s.offsets.take i
    disk := s.disk.apply (.truncateLog (s.offsets.getD i 0)) }

/-- The store after its hard state is replaced. -/
def Store.setHard (s : Store) (hard : HardState) : Store :=
  { s with
    mem := { s.mem with hard := hard }
    disk := s.disk.apply (.renameHard hard) }

/-- A call that persists at `s0` installs the snapshot at `s`: nothing of the log has been
    changed yet. -/
structure Installs (s0 s : Store) (snap : Snapshot) (data : Bytes) : Prop where
  valid : snap.index ≠ 0 ∧ snap.term ≠ 0
  new : s.mem.snapshot.index < snap.index
  size : data.length ≤ maxSnapshotData
  snapshot : s.mem.snapshot = s0.mem.snapshot
  entries : s.mem.entries = s0.mem.entries
  log : s.disk.log = s0.disk.log
  synced : s.disk.synced = s0.disk.synced

/-- A move of the call that persists `u` at `s0`: the store before it, its file steps and the
    store after it. -/
inductive Move (s0 : Store) (u : Update) (w : Option (Except String Bytes)) :
    Store → List FileStep → Store → Prop
  | hard {s : Store} (hard : HardState) (hu : u.hardState = some hard) :
      Move s0 u w s [.renameHard hard] (s.setHard hard)
  | install {s : Store} (snap : Snapshot) (data : Bytes) (hu : u.snapshot = some snap)
      (new : Installs s0 s snap data) :
      Move s0 u w s (installSteps s snap data) (s.installed snap data)
  | truncate {s : Store} (i : ℕ) (hu : u.truncateFrom = s.mem.snapshot.index + 1 + i)
      (inside : i < s.mem.entries.length)
      -- the snapshot step has been made
      (reached : ∃ m, (s0.mem.persistHard u).persistInstall u w = .ok m
        ∧ m.snapshot.index = s.mem.snapshot.index) :
      Move s0 u w s [.truncateLog (s.offsets.getD i 0)] (s.cut i)
  | write {s : Store} (e : Entry) (hu : e ∈ u.entries)
      (index : e.index = s.mem.snapshot.index + s.mem.entries.length + 1) (term : e.term ≠ 0)
      (size : e.data.length ≤ maxEntryData)
      -- the record stays until the call returns
      (final : s.mem.entries ++ [e] <+: (s0.persist u w).store.mem.entries
        ∧ s.mem.snapshot = (s0.persist u w).store.mem.snapshot) :
      Move s0 u w s [.writeLog (encodeEntry e)] (s.written e)
  | sync {s : Store} : Move s0 u w s [.syncLog] s.close

omit [SnapshotJson] in
theorem Installs.fits {s0 s : Store} {snap : Snapshot} {data : Bytes}
    (h : Installs s0 s snap data) (h64 : snap.index < 256 ^ 8 ∧ snap.term < 256 ^ 8) :
    SnapshotFits snap data :=
  ⟨⟨h.valid.1, h64.1⟩, ⟨h.valid.2, h64.2⟩, h.size⟩

/-- Moves one after the other. -/
inductive Moves (s0 : Store) (u : Update) (w : Option (Except String Bytes)) :
    Store → List FileStep → Store → Prop
  | nil (s : Store) : Moves s0 u w s [] s
  | cons {s t r : Store} {fs gs : List FileStep} (move : Move s0 u w s fs t)
      (rest : Moves s0 u w t gs r) : Moves s0 u w s (fs ++ gs) r

variable {s0 s t r : Store} {u : Update} {w : Option (Except String Bytes)} {fs gs : List FileStep}

theorem Moves.single (h : Move s0 u w s fs t) : Moves s0 u w s fs t := by
  rw [← append_nil fs]
  exact .cons h (.nil t)

theorem Moves.trans (h : Moves s0 u w s fs t) (h' : Moves s0 u w t gs r) :
    Moves s0 u w s (fs ++ gs) r := by
  induction h with
  | nil s => exact h'
  | cons move rest ih =>
    rw [append_assoc]
    exact .cons move (ih h')

/-- A part of a call that consists of moves, followed by one that does. -/
private theorem Moves.andThen {c : Call} {next : Store → Call}
    (h : Moves s0 u w s c.steps c.store)
    (hnext : c.err = none → Moves s0 u w c.store (next c.store).steps (next c.store).store) :
    Moves s0 u w s (c.andThen next).steps (c.andThen next).store := by
  cases he : c.err with
  | none =>
    rw [Call.andThen_ok next he]
    exact h.trans (hnext he)
  | some e =>
    rw [Call.andThen_failed next he]
    exact h

private theorem persistHard_moves (s : Store) :
    Moves s0 u w s (s.persistHard u).steps (s.persistHard u).store := by
  unfold Store.persistHard
  cases hu : u.hardState with
  | none => exact .nil s
  | some hard => exact .single (.hard hard hu)

/-- What `installSnapshot` does: nothing, or the two renames. -/
theorem installSnapshot_cases (s : Store) (snap : Snapshot) (d : Except String Bytes) :
    ((s.installSnapshot snap d).steps = [] ∧ (s.installSnapshot snap d).store = s)
      ∨ ∃ data, (snap.index ≠ 0 ∧ snap.term ≠ 0) ∧ s.mem.snapshot.index < snap.index
        ∧ data.length ≤ maxSnapshotData ∧ (s.installSnapshot snap d).err = none
        ∧ (s.installSnapshot snap d).steps = installSteps s snap data
        ∧ (s.installSnapshot snap d).store = s.installed snap data := by
  unfold Store.installSnapshot
  cases h : s.mem.installSnapshot snap d with
  | error e => exact .inl ⟨rfl, rfl⟩
  | ok mem =>
    dsimp only
    by_cases hold : snap.index ≤ s.mem.snapshot.index
    · rw [if_pos hold]
      exact .inl ⟨rfl, rfl⟩
    rw [if_neg hold]
    obtain ⟨data, _, hsize, hdata, _⟩ := Stable.installSnapshot_new h (by omega)
    unfold Stable.installSnapshot at h
    split at h
    · simp at h
    rename_i hvalid
    cases hb : boundedWrite d with
    | error e => rw [hb] at h; simp at h
    | ok data' =>
      rw [hb] at h
      simp only [Except.ok.injEq] at h
      have hd : data' = data := by rw [← hdata, ← h]
      subst hd
      rw [← h]
      exact .inr ⟨data', not_or.mp hvalid, by omega, hsize, rfl, rfl, rfl⟩

private theorem persistInstall_moves {s : Store}
    (same : s.mem.snapshot = s0.mem.snapshot ∧ s.mem.entries = s0.mem.entries)
    (sameLog : s.disk.log = s0.disk.log ∧ s.disk.synced = s0.disk.synced) :
    Moves s0 u w s (s.persistInstall u w).steps (s.persistInstall u w).store := by
  unfold Store.persistInstall
  cases hu : u.snapshot with
  | none => exact .nil s
  | some snap =>
    rcases installSnapshot_cases s snap (w.getD (.ok snap.data)) with
      ⟨hsteps, hstore⟩ | ⟨data, hvalid, hnew, hsize, _, hsteps, hstore⟩
    · dsimp only
      rw [hsteps, hstore]
      exact .nil s
    · dsimp only
      rw [hsteps, hstore]
      exact .single (.install snap data hu
        ⟨hvalid, hnew, hsize, same.1, same.2, sameLog.1, sameLog.2⟩)

private theorem persistTruncate_moves {s : Store}
    (reached : ∃ m, (s0.mem.persistHard u).persistInstall u w = .ok m
      ∧ m.snapshot.index = s.mem.snapshot.index) :
    Moves s0 u w s (s.persistTruncate u).steps (s.persistTruncate u).store := by
  unfold Store.persistTruncate
  split
  · unfold Store.truncate
    cases h : s.mem.truncate u.truncateFrom with
    | error e => exact .nil s
    | ok mem =>
      dsimp only
      split
      · exact .nil s
      rename_i hend
      unfold Stable.truncate at h
      dsimp only at h
      split at h
      · simp at h
      rename_i hrange
      rw [not_or, not_lt, not_lt] at hrange
      have hmem := Except.ok.inj h
      have hi : u.truncateFrom
          = s.mem.snapshot.index + 1 + (u.truncateFrom - (s.mem.snapshot.index + 1)) := by
        omega
      rw [← hmem]
      exact .single (.truncate _ hi (by omega) reached)
  · exact .nil s

omit [SnapshotJson] in
private theorem Stable.append_isPrefix (es : List Entry) :
    ∀ m : Stable, m.entries <+: (m.append es).1.entries := by
  induction es with
  | nil => intro m; exact prefix_rfl
  | cons e es ih =>
    intro m
    rw [Stable.append]
    split
    · exact prefix_rfl
    · split
      · exact prefix_rfl
      · exact (prefix_append _ _).trans (ih { m with entries := m.entries ++ [e] })

private theorem append_moves (es : List Entry) (hsub : ∀ e ∈ es, e ∈ u.entries) :
    ∀ s : Store, (s0.persist u w).store.mem.entries = (s.mem.append es).1.entries →
      (s0.persist u w).store.mem.snapshot = s.mem.snapshot →
      Moves s0 u w s (s.append es).steps (s.append es).store := by
  induction es with
  | nil => intro s _ _; exact .single .sync
  | cons e es ih =>
    intro s hfinal hsnap
    rw [Stable.append] at hfinal
    unfold Store.append
    dsimp only
    split
    · exact .nil s
    rename_i hindex
    rw [if_neg hindex] at hfinal
    rw [not_or, not_not] at hindex
    split
    · exact .nil s
    rename_i hsize
    rw [if_neg hsize] at hfinal
    have hmove : Move s0 u w s [.writeLog (encodeEntry e)] (s.written e) := by
      refine .write e (hsub e (by simp)) hindex.1 hindex.2 (by omega) ⟨?_, hsnap.symm⟩
      rw [hfinal]
      exact Stable.append_isPrefix es { s.mem with entries := s.mem.entries ++ [e] }
    exact .cons hmove (ih (fun x hx => hsub x (by simp [hx])) (s.written e) hfinal hsnap)

/-- **A call consists of moves.** -/
theorem Store.persist_moves (s : Store) (u : Update) (w : Option (Except String Bytes)) :
    Moves s u w s (s.persist u w).steps (s.persist u w).store := by
  obtain ⟨hmem, herr⟩ := s.persistHard_does u
  dsimp only at hmem herr
  have hsame : (s.persistHard u).store.mem.snapshot = s.mem.snapshot
      ∧ (s.persistHard u).store.mem.entries = s.mem.entries := by
    rw [hmem]
    unfold Stable.persistHard
    cases u.hardState <;> exact ⟨rfl, rfl⟩
  have hlog : (s.persistHard u).store.disk.log = s.disk.log
      ∧ (s.persistHard u).store.disk.synced = s.disk.synced := by
    unfold Store.persistHard
    cases u.hardState <;> exact ⟨rfl, rfl⟩
  refine (persistHard_moves s).andThen fun _ => ?_
  refine (persistInstall_moves hsame hlog).andThen fun hinstalled => ?_
  -- the snapshot step succeeded
  obtain ⟨h1, e1⟩ := (s.persistHard u).store.persistInstall_does u w
  obtain ⟨m, hm⟩ : ∃ m, (s.persistHard u).store.mem.persistInstall u w = .ok m := by
    cases hi : (s.persistHard u).store.mem.persistInstall u w with
    | error e => rw [hi, hinstalled] at e1; simp at e1
    | ok m => exact ⟨m, rfl⟩
  rw [hm] at h1
  dsimp only at h1
  refine (persistTruncate_moves ⟨m, by rw [← hmem]; exact hm, by rw [h1]⟩).andThen fun hcut => ?_
  unfold Store.persistAppend
  split
  · rename_i hne
    -- the append is the last part, so what it leaves is what the call leaves
    have hfinal : (s.persist u w).store
        = ((((s.persistHard u).store.persistInstall u w).store.persistTruncate u).store.append
            u.entries).store := by
      unfold Store.persist
      rw [Call.andThen_ok _ herr]
      dsimp only
      rw [Call.andThen_ok _ hinstalled]
      dsimp only
      rw [Call.andThen_ok _ hcut]
      dsimp only
      rw [Store.persistAppend, if_pos hne]
    have hdoes := (((s.persistHard u).store.persistInstall u w).store.persistTruncate
      u).store.append_does u.entries
    refine append_moves u.entries (fun _ h => h) _ ?_ ?_
    · rw [hfinal, hdoes.1]
    · rw [hfinal, hdoes.1]
      exact (Stable.append_frame u.entries _).2
  · exact .nil _

/-! ### The files between the moves -/

theorem Move.disk (h : Move s0 u w s fs t) : t.disk = s.disk.applyAll fs := by
  cases h <;> rfl

/-- **The files a call passes**: those of a store between two moves, or a new SNAPSHOT next
    to the old raft.log. -/
theorem Moves.passes {I : Store → Prop} (step : ∀ {s t fs}, Move s0 u w s fs t → I s → I t)
    (h : Moves s0 u w s fs t) (hs : I s) (k : ℕ) :
    (∃ r, I r ∧ r.disk = s.disk.applyAll (fs.take k))
      ∨ ∃ r snap data, I r ∧ Installs s0 r snap data ∧ u.snapshot = some snap
        ∧ (fs.take k).getLast? = some (.renameSnapshot (snapshotFile snap data))
        ∧ s.disk.applyAll (fs.take k) = r.disk.apply (.renameSnapshot (snapshotFile snap data)) := by
  induction h generalizing k with
  | nil s => exact .inl ⟨s, hs, by simp⟩
  | @cons s t r fs gs move rest ih =>
    by_cases hk : fs.length ≤ k
    · -- the crash point lies behind this move
      have htake : (fs ++ gs).take k = fs ++ gs.take (k - fs.length) := by
        rw [take_append, take_of_length_le hk]
      rw [htake, Disk.applyAll_append, ← move.disk]
      rcases ih (step move hs) (k - fs.length) with h | ⟨r, snap, data, hr, hm, hu, hlast, hd⟩
      · exact .inl h
      · refine .inr ⟨r, snap, data, hr, hm, hu, ?_, hd⟩
        rw [getLast?_append, hlast]
        rfl
    · rw [take_append_of_le_length (by omega)]
      cases k with
      | zero => exact .inl ⟨s, hs, by simp⟩
      | succ k =>
        -- only an installation has more than one step
        cases move with
        | install snap data hu new =>
          have hk0 : k = 0 := by simp only [installSteps, length_cons, length_nil] at hk; omega
          subst hk0
          exact .inr ⟨s, snap, data, hs, new, hu, rfl, rfl⟩
        | hard | truncate | write | sync =>
          simp only [length_cons, length_nil] at hk
          omega

theorem Moves.invariant {I : Store → Prop}
    (step : ∀ {s t fs}, Move s0 u w s fs t → I s → I t) (h : Moves s0 u w s fs t) (hs : I s) :
    I t := by
  induction h with
  | nil s => exact hs
  | cons move rest ih => exact ih (step move hs)

/-! ### The layout is kept -/

/-- The entry at the boundary of a snapshot has another term. -/
def Stable.Conflicts (m : Stable) (snap : Snapshot) : Prop :=
  ∃ e, m.entries[snap.index - m.snapshot.index - 1]? = some e ∧ e.term ≠ snap.term

omit [SnapshotJson] in
/-- What an installation keeps of the log. -/
theorem Stable.suffix_cases (m : Stable) {snap : Snapshot} (new : m.snapshot.index < snap.index) :
    (m.Conflicts snap ∧ m.suffix snap = [])
      ∨ (m.snapshot.index + m.entries.length < snap.index ∧ m.suffix snap = [])
      ∨ ∃ e, m.entries[snap.index - m.snapshot.index - 1]? = some e ∧ e.term = snap.term
          ∧ m.suffix snap = m.entries.drop (snap.index - m.snapshot.index) := by
  unfold Stable.suffix
  dsimp only
  by_cases hin : snap.index ≤ m.snapshot.index + m.entries.length
  · obtain ⟨e, he⟩ : ∃ e, m.entries[snap.index - m.snapshot.index - 1]? = some e :=
      ⟨_, getElem?_eq_getElem (by omega)⟩
    simp only [new, hin, and_self, if_true, he, Option.elim_some]
    by_cases hterm : e.term = snap.term
    · exact .inr (.inr ⟨e, rfl, hterm, by simp [hterm]⟩)
    · exact .inl ⟨⟨e, he, hterm⟩, by simp [hterm]⟩
  · refine .inr (.inl ⟨by omega, ?_⟩)
    simp [hin]

variable {pre : List Entry}

theorem Layout.setHard (h : Layout s pre) (hard : HardState) : Layout (s.setHard hard) pre :=
  { h with hard := rfl }

theorem Layout.close (h : Layout s pre) : Layout s.close pre :=
  { h with synced := le_refl _ }

theorem Layout.written (h : Layout s pre) {e : Entry}
    (hindex : e.index = s.mem.snapshot.index + s.mem.entries.length + 1) (he : Record e) :
    Layout (s.written e) pre where
  log := by
    show s.disk.log ++ encodeEntry e = encodeEntries (pre ++ (s.mem.entries ++ [e]))
    rw [h.log]
    simp
  synced := by
    show s.disk.synced ≤ (s.disk.log ++ encodeEntry e).length
    have := h.synced
    rw [length_append]
    omega
  offsets := by
    show s.offsets ++ [s.disk.log.length]
      = recordOffsets (encodeEntries pre).length (s.mem.entries ++ [e])
    rw [recordOffsets_append, ← h.offsets, h.log, encodeEntries_append, length_append]
    rfl
  pre_index := h.pre_index
  pre_le := h.pre_le
  index := by
    refine Contiguous.append_iff.mpr ⟨h.index, ?_, trivial⟩
    show e.index = s.mem.snapshot.index + 1 + s.mem.entries.length
    omega
  record := by
    intro x hx
    change x ∈ pre ++ (s.mem.entries ++ [e]) at hx
    rw [← append_assoc, mem_append, mem_singleton] at hx
    rcases hx with hx | rfl
    · exact h.record x hx
    · exact he
  snapshot := h.snapshot
  hard := h.hard

theorem Layout.cut (h : Layout s pre) {i : ℕ} (hi : i < s.mem.entries.length) :
    Layout (s.cut i) pre := by
  have hoffset : s.offsets.getD i 0 = (encodeEntries (pre ++ s.mem.entries.take i)).length := by
    rw [h.offsets, recordOffsets_getD hi, encodeEntries_append, length_append]
  have hlog : s.disk.log.take (s.offsets.getD i 0)
      = encodeEntries (pre ++ s.mem.entries.take i) := by
    have hsplit : s.disk.log = encodeEntries (pre ++ s.mem.entries.take i)
        ++ encodeEntries (s.mem.entries.drop i) := by
      rw [← encodeEntries_append, append_assoc, take_append_drop, h.log]
    rw [hsplit, hoffset, take_left]
  refine ⟨hlog, le_refl _, ?_, h.pre_index, h.pre_le, ?_, ?_, h.snapshot, h.hard⟩
  · show s.offsets.take i = recordOffsets (encodeEntries pre).length (s.mem.entries.take i)
    have hsplit : s.offsets = recordOffsets (encodeEntries pre).length (s.mem.entries.take i)
        ++ recordOffsets ((encodeEntries pre).length
          + (encodeEntries (s.mem.entries.take i)).length) (s.mem.entries.drop i) := by
      rw [← recordOffsets_append, take_append_drop, h.offsets]
    rw [hsplit, take_left']
    rw [length_recordOffsets, length_take, Nat.min_eq_left (by omega)]
  · exact h.index.shorten (List.take_prefix _ _)
  · intro x hx
    apply h.record x
    rcases mem_append.mp hx with hx | hx
    · exact mem_append_left _ hx
    · exact mem_append_right _ (mem_of_mem_take hx)

theorem installed_synced (s : Store) (snap : Snapshot) (data : Bytes) :
    (s.installed snap data).disk.synced = (s.installed snap data).disk.log.length := rfl

theorem Layout.installed (h : Layout s pre) {snap : Snapshot} {data : Bytes}
    (hfits : SnapshotFits snap data) (new : s.mem.snapshot.index < snap.index) :
    Layout (s.installed snap data) [] where
  log := rfl
  synced := le_refl _
  offsets := rfl
  pre_index := trivial
  pre_le := Nat.zero_le _
  index := by
    show Contiguous (snap.index + 1) (s.mem.suffix snap)
    rcases s.mem.suffix_cases new with ⟨_, hsuf⟩ | ⟨_, hsuf⟩ | ⟨_, _, _, hsuf⟩
    · rw [hsuf]; trivial
    · rw [hsuf]; trivial
    · rw [hsuf]
      have := h.index.drop (snap.index - s.mem.snapshot.index)
      rwa [show s.mem.snapshot.index + 1 + (snap.index - s.mem.snapshot.index)
        = snap.index + 1 by omega] at this
  record := by
    intro x hx
    change x ∈ s.mem.suffix snap at hx
    apply h.record x
    rcases s.mem.suffix_cases new with ⟨_, hsuf⟩ | ⟨_, hsuf⟩ | ⟨_, _, _, hsuf⟩
    · rw [hsuf] at hx; simp at hx
    · rw [hsuf] at hx; simp at hx
    · rw [hsuf] at hx
      exact mem_append_right _ (mem_of_mem_drop hx)
  snapshot := by
    intro r hr
    change inspectSnapshot (some (snapshotFile snap data)) = .ok r at hr
    rw [inspectSnapshot_snapshotFile hfits] at hr
    split at hr
    · rw [← Except.ok.inj hr]
      rfl
    · simp at hr
  hard := h.hard

omit [SnapshotJson] in
theorem Word64.record (hw : Word64 u) {e : Entry} (hu : e ∈ u.entries) (term : e.term ≠ 0)
    (size : e.data.length ≤ maxEntryData) : Record e := by
  have h64 := hw.entries e hu
  refine ⟨⟨h64.1, h64.2, ?_⟩, term, size⟩
  have : maxEntryData < 256 ^ 4 := by decide
  omega

/-- **Every move keeps the layout.** -/
theorem Layout.move (hw : Word64 u) (hm : Move s0 u w s fs t) (h : Layout s pre) :
    ∃ pre, Layout t pre := by
  cases hm with
  | hard hard hu => exact ⟨pre, h.setHard hard⟩
  | install snap data hu new =>
    have h64 := hw.snapshot snap hu
    exact ⟨[], h.installed (new.fits h64) new.new⟩
  | truncate i hu inside reached => exact ⟨pre, h.cut inside⟩
  | write e hu index term size final =>
    exact ⟨pre, h.written index (hw.record hu term size)⟩
  | sync => exact ⟨pre, h.close⟩

end Json

end Lsmdb.RaftStore
