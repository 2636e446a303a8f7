import Lsmdb.Raft.WellFormed

namespace Lsmdb.RaftStore

open Lsmdb.Raft

/-!
# Raft store — the state a store keeps in memory

The fields of `internal/raftstore/store.go`'s `Store` that callers read back (`Load`,
`SnapshotMetadata`, `OpenSnapshot`), and what `Persist` and `PersistSnapshot` do to them.
The files behind them are added in `RaftStore.Store`.

A snapshot's bytes come from a writer callback; the model passes what it does, an
`Except String Bytes`: the bytes it writes, or the error it returns.  The size and checksum
fields are left out here: both are functions of `data`.

The main result, `Path.persists`, is that persisting the update of any operation of a
well-formed Raft node succeeds and leaves the store a mirror of the node.
-/

/-- `maxEntryData`. -/
def maxEntryData : ℕ := maxEntryBytes

/-- `maxSnapshotData`. -/
def maxSnapshotData : ℕ := 64 * 2 ^ 30

/-- The in-memory state of a `Store`.  `snapshot` is metadata without data; `data` is what
    `OpenSnapshot` reads. -/
structure Stable where
  hard : HardState := {}
  snapshot : Snapshot := {}
  data : Bytes := []
  entries : List Entry := []
  deriving DecidableEq, Repr

/-- `Store.truncate`. -/
def Stable.truncate (s : Stable) (start : ℕ) : Except String Stable :=
  let first := s.snapshot.index + 1
  let last := s.snapshot.index + s.entries.length
  if start < first ∨ last + 1 < start then .error s!"invalid raft truncation index {start}"
  else if start = last + 1 then .ok s
  else .ok { s with entries := s.entries.take (start - first) }

/-- `Store.append`: an entry that does not fit ends the loop with an error, the entries
    before it staying in place. -/
def Stable.append : Stable → List Entry → Stable × Option String
  | s, [] => (s, none)
  | s, entry :: rest =>
      let want := s.snapshot.index + s.entries.length + 1
      if entry.index ≠ want ∨ entry.term = 0 then
        (s, some s!"append raft entry index {entry.index} term {entry.term}, want index {want}")
      else if maxEntryData < entry.data.length then
        (s, some s!"raft entry {entry.index} exceeds {maxEntryData} bytes")
      else Stable.append { s with entries := s.entries ++ [entry] } rest

/-- The entries `installSnapshot` keeps: the suffix, if the entry at the boundary agrees. -/
def Stable.suffix (s : Stable) (snapshot : Snapshot) : List Entry :=
  let keepSuffix :=
    if s.snapshot.index < snapshot.index
        ∧ snapshot.index ≤ s.snapshot.index + s.entries.length then
      (s.entries[snapshot.index - s.snapshot.index - 1]?).elim false
        (fun entry => entry.term == snapshot.term)
    else false
  if keepSuffix then s.entries.drop (snapshot.index - s.snapshot.index) else []

/-- What reaches the snapshot file through `boundedSnapshotWriter`. -/
def boundedWrite (writeData : Except String Bytes) : Except String Bytes :=
  match writeData with
  | .error e => .error s!"write snapshot data: {e}"
  | .ok data =>
      if maxSnapshotData < data.length then
        .error s!"write snapshot data: snapshot exceeds {maxSnapshotData} bytes"
      else .ok data

/-- `Store.installSnapshot`. -/
def Stable.installSnapshot (s : Stable) (snapshot : Snapshot)
    (writeData : Except String Bytes) : Except String Stable :=
  if snapshot.index = 0 ∨ snapshot.term = 0 then
    .error (s!"invalid raft snapshot {snapshot.index}/{snapshot.term} " ++
      s!"({snapshot.data.length} bytes)")
  else if snapshot.index ≤ s.snapshot.index then .ok s
  else
    match boundedWrite writeData with
    | .error e => .error e
    | .ok data =>
        .ok { s with
          snapshot := { snapshot with data := [] }
          data := data
          entries := s.suffix snapshot }

/-- The hard-state step of `Store.persist`. -/
def Stable.persistHard (s : Stable) (u : Update) : Stable :=
  match u.hardState with
  | none => s
  | some hard => { s with hard := hard }

/-- The snapshot step of `Store.persist`: without a writer the snapshot's own data is
    written. -/
def Stable.persistInstall (s : Stable) (u : Update) (writeData : Option (Except String Bytes)) :
    Except String Stable :=
  match u.snapshot with
  | none => .ok s
  | some snapshot => s.installSnapshot snapshot (writeData.getD (.ok snapshot.data))

/-- The truncation step of `Store.persist`. -/
def Stable.persistTruncate (s : Stable) (u : Update) : Except String Stable :=
  if u.truncateFrom ≠ 0 then s.truncate u.truncateFrom else .ok s

/-- The steps of `Store.persist` after the hard state. -/
def Stable.persistLog (s : Stable) (u : Update) (writeData : Option (Except String Bytes)) :
    Stable × Option String :=
  match s.persistInstall u writeData with
  | .error e => (s, some e)
  | .ok s1 =>
    match s1.persistTruncate u with
    | .error e => (s1, some e)
    | .ok s2 => s2.append u.entries

/-- `Store.persist`: the new state, and the error if a step failed.  The effects of the steps
    before a failing one stay. -/
def Stable.persist (s : Stable) (u : Update) (writeData : Option (Except String Bytes)) :
    Stable × Option String :=
  (s.persistHard u).persistLog u writeData

/-- `Store.PersistSnapshot`, its writer given. -/
def Stable.persistSnapshot (s : Stable) (u : Update) (writeData : Except String Bytes) :
    Stable × Option String :=
  if u.snapshot = none then
    (s, some "streamed snapshot persistence requires metadata and a writer")
  else s.persist u (some writeData)

/-- `Store.LoadSnapshot`. -/
def Stable.loadSnapshot (s : Stable) : Snapshot :=
  if s.snapshot.index = 0 then s.snapshot else { s.snapshot with data := s.data }

/-! ### Merged updates -/

/-- Setting the hard state. -/
private def setHard (s : Stable) (h : HardState) : Stable := { s with hard := h }

private theorem truncate_setHard (s : Stable) (h : HardState) (i : ℕ) :
    (setHard s h).truncate i = (s.truncate i).map (setHard · h) := by
  unfold Stable.truncate
  dsimp only [setHard]
  split
  · rfl
  · split <;> rfl

private theorem append_setHard (es : List Entry) (h : HardState) :
    ∀ s : Stable, (setHard s h).append es = (setHard (s.append es).1 h, (s.append es).2) := by
  induction es with
  | nil => intro s; rfl
  | cons e t ih =>
    intro s
    unfold Stable.append
    dsimp only [setHard]
    split
    · rfl
    · split
      · rfl
      · exact ih { s with entries := s.entries ++ [e] }

private theorem persistInstall_setHard (s : Stable) (h : HardState) (u : Update)
    (w : Option (Except String Bytes)) :
    (setHard s h).persistInstall u w = (s.persistInstall u w).map (setHard · h) := by
  unfold Stable.persistInstall
  cases u.snapshot with
  | none => rfl
  | some snap =>
    dsimp only
    unfold Stable.installSnapshot
    by_cases h0 : snap.index = 0 ∨ snap.term = 0
    · rw [if_pos h0, if_pos h0]
      rfl
    by_cases hle : snap.index ≤ s.snapshot.index
    · rw [if_neg h0, if_neg h0, if_pos (show snap.index ≤ (setHard s h).snapshot.index from hle),
        if_pos hle]
      rfl
    · rw [if_neg h0, if_neg h0, if_neg (show ¬ snap.index ≤ (setHard s h).snapshot.index from hle),
        if_neg hle]
      cases boundedWrite (w.getD (.ok snap.data)) <;> rfl

private theorem persistTruncate_setHard (s : Stable) (h : HardState) (u : Update) :
    (setHard s h).persistTruncate u = (s.persistTruncate u).map (setHard · h) := by
  unfold Stable.persistTruncate
  split
  · exact truncate_setHard s h _
  · rfl

private theorem persistLog_setHard (s : Stable) (h : HardState) (u : Update)
    (w : Option (Except String Bytes)) :
    (setHard s h).persistLog u w = (setHard (s.persistLog u w).1 h, (s.persistLog u w).2) := by
  unfold Stable.persistLog
  rw [persistInstall_setHard]
  cases s.persistInstall u w with
  | error e => rfl
  | ok s1 =>
    dsimp only [Except.map]
    rw [persistTruncate_setHard]
    cases s1.persistTruncate u with
    | error e => rfl
    | ok s2 => exact append_setHard u.entries h s2

theorem Stable.append_append (a b : List Entry) :
    ∀ {s s1 : Stable}, s.append a = (s1, none) → s.append (a ++ b) = s1.append b := by
  induction a with
  | nil =>
    intro s s1 h
    simp only [Stable.append, Prod.mk.injEq, and_true] at h
    rw [List.nil_append, h]
  | cons e t ih =>
    intro s s1 h
    rw [Stable.append] at h
    rw [List.cons_append, Stable.append]
    split at h
    · simp at h
    rename_i h1
    split at h
    · simp at h
    · rename_i h2
      rw [if_neg h1, if_neg h2]
      exact ih h

private theorem persistHard_merge (s : Stable) (u v : Update) :
    s.persistHard (u.merge v) = (s.persistHard u).persistHard v := by
  unfold Stable.persistHard
  cases hu : u.hardState <;> cases hv : v.hardState <;> simp [Update.merge, hu, hv]

private theorem persistLog_persistHard (s : Stable) (u v : Update) (d : Option (Except String Bytes)) :
    (s.persistHard v).persistLog u d
      = ((s.persistLog u d).1.persistHard v, (s.persistLog u d).2) := by
  unfold Stable.persistHard
  cases v.hardState with
  | none => rfl
  | some h => exact persistLog_setHard s h u d

/-- **Persisting a merged update** is persisting its parts in order. -/
theorem Stable.persist_merge {s s1 s2 : Stable} {u v : Update} {d : Option (Except String Bytes)}
    (hc : Compatible u v) (hu : s.persist u d = (s1, none)) (hv : s1.persist v d = (s2, none)) :
    s.persist (u.merge v) d = (s2, none) := by
  unfold Stable.persist at *
  rw [persistHard_merge]
  rcases hc.log with ⟨hsn, htf⟩ | ⟨hsn, htf, hes⟩
  · -- `v` only appends: its entries follow those of `u`
    have hmerge : ∀ (t t1 : Stable), t.persistLog u d = (t1, none) →
        t.persistLog (u.merge v) d = t1.append v.entries := by
      intro t t1 ht
      have hi : t.persistInstall (u.merge v) d = t.persistInstall u d := by
        simp [Stable.persistInstall, hsn]
      have hcut : ∀ r : Stable, r.persistTruncate (u.merge v) = r.persistTruncate u := by
        intro r; simp [Stable.persistTruncate, Update.merge, htf]
      unfold Stable.persistLog at ht ⊢
      rw [hi]
      cases hs1 : t.persistInstall u d with
      | error e => rw [hs1] at ht; simp at ht
      | ok t2 =>
        rw [hs1] at ht
        dsimp only at ht ⊢
        rw [hcut]
        cases hs2 : t2.persistTruncate u with
        | error e => rw [hs2] at ht; simp at ht
        | ok t3 =>
          rw [hs2] at ht
          exact Stable.append_append _ _ ht
    have hvlog : ∀ t : Stable, t.persistLog v d = t.append v.entries := by
      intro t
      simp [Stable.persistLog, Stable.persistInstall, Stable.persistTruncate, hsn, htf]
    rw [hvlog] at hv
    have h1 := persistLog_persistHard (s.persistHard u) u v d
    rw [hu] at h1
    rw [hmerge _ _ h1]
    exact hv
  · -- `u` only sets the hard state
    have hulog : ∀ t : Stable, t.persistLog u d = (t, none) := by
      intro t
      simp [Stable.persistLog, Stable.persistInstall, Stable.persistTruncate, Stable.append,
        hsn, htf, hes]
    have hmerge : ∀ t : Stable, t.persistLog (u.merge v) d = t.persistLog v d := by
      intro t
      have hcut : ∀ r : Stable, r.persistTruncate (u.merge v) = r.persistTruncate v := by
        intro r
        by_cases h0 : v.truncateFrom = 0 <;> simp [Stable.persistTruncate, Update.merge, htf, h0]
      simp [Stable.persistLog, Stable.persistInstall, hcut, hsn, hes]
    rw [hulog] at hu
    rw [hmerge]
    simp only [Prod.mk.injEq, and_true] at hu
    rw [hu]
    exact hv

/-! ### The store mirrors the node -/

/-- The store's memory is the durable part of a core. -/
structure Mirrors (s : Stable) (c : Core) : Prop where
  hard : s.hard = c.hardState
  snapshot : s.snapshot = { c.snapshot with data := [] }
  entries : s.entries = c.log

/-- The parts of an update whose size the store limits. -/
structure Fits (u : Update) (stream : Option (Except String Bytes)) : Prop where
  entries : ∀ e ∈ u.entries, e.data.length ≤ maxEntryBytes
  snapshot : ∀ s, u.snapshot = some s →
    ∃ data, stream.getD (.ok s.data) = .ok data ∧ data.length ≤ maxSnapshotData

theorem Fits.merge_left {u v : Update} {d : Option (Except String Bytes)} (hc : Compatible u v)
    (h : Fits (u.merge v) d) : Fits u d := by
  refine ⟨fun e he => h.entries e (List.mem_append_left _ he), fun s hs => ?_⟩
  rcases hc.log with ⟨hv, _⟩ | ⟨hu, _⟩
  · exact h.snapshot s (by rw [Update.merge_snapshot, hv, hs]; rfl)
  · rw [hu] at hs; simp at hs

theorem Fits.merge_right {u v : Update} {d : Option (Except String Bytes)} (h : Fits (u.merge v) d) :
    Fits v d :=
  ⟨fun e he => h.entries e (List.mem_append_right _ he),
   fun s hs => h.snapshot s (by rw [Update.merge_snapshot, hs]; rfl)⟩

theorem Stable.append_ok (es : List Entry) :
    ∀ s : Stable,
      (∀ (k : ℕ) (e : Entry), es[k]? = some e →
        e.index = s.snapshot.index + s.entries.length + k + 1) →
      (∀ e ∈ es, e.term ≠ 0 ∧ e.data.length ≤ maxEntryBytes) →
      s.append es = ({ s with entries := s.entries ++ es }, none) := by
  induction es with
  | nil => intro s _ _; simp [Stable.append]
  | cons e t ih =>
    intro s hi hok
    have he : e.index = s.snapshot.index + s.entries.length + 1 := by
      simpa using hi 0 e rfl
    obtain ⟨hterm, hsize⟩ := hok e (by simp)
    unfold Stable.append
    dsimp only
    rw [if_neg (by simp [he, hterm]), if_neg (by unfold maxEntryData; omega), ih]
    · simp
    · intro k x hx
      have := hi (k + 1) x (by simpa using hx)
      simp only [List.length_append, List.length_singleton]
      omega
    · intro x hx
      exact hok x (by simp [hx])

/-- What the store appended without an error has a term and was within its limit. -/
theorem Stable.append_entries (es : List Entry) :
    ∀ {s s' : Stable}, s.append es = (s', none) →
      ∀ e ∈ es, e.term ≠ 0 ∧ e.data.length ≤ maxEntryBytes := by
  induction es with
  | nil => intro s s' _ e he; simp at he
  | cons x t ih =>
    intro s s' h e he
    rw [Stable.append] at h
    split at h
    · simp at h
    rename_i hterm
    split at h
    · simp at h
    · rename_i hsize
      rcases List.mem_cons.mp he with rfl | he
      · exact ⟨fun h0 => hterm (.inr h0), Nat.le_of_not_lt hsize⟩
      · exact ih h e he

/-- **A persist without an error** went through all its steps. -/
theorem Stable.persist_steps {s s' : Stable} {u : Update} {d : Option (Except String Bytes)}
    (h : s.persist u d = (s', none)) :
    ∃ s1 s2, (s.persistHard u).persistInstall u d = .ok s1 ∧ s1.persistTruncate u = .ok s2
      ∧ s2.append u.entries = (s', none) := by
  unfold Stable.persist Stable.persistLog at h
  cases hi : (s.persistHard u).persistInstall u d with
  | error e => rw [hi] at h; simp at h
  | ok s1 =>
    rw [hi] at h
    dsimp only at h
    cases ht : s1.persistTruncate u with
    | error e => rw [ht] at h; simp at h
    | ok s2 =>
      rw [ht] at h
      exact ⟨s1, s2, rfl, ht, h⟩

/-- **Installing a newer snapshot** stores what the writer wrote, within the limit. -/
theorem Stable.installSnapshot_new {s s1 : Stable} {snap : Snapshot} {w : Except String Bytes}
    (h : s.installSnapshot snap w = .ok s1) (hnew : s.snapshot.index < snap.index) :
    ∃ data, w = .ok data ∧ data.length ≤ maxSnapshotData ∧ s1.data = data
      ∧ s1.snapshot.index = snap.index := by
  unfold Stable.installSnapshot at h
  split at h
  · simp at h
  rw [if_neg (by omega)] at h
  cases w with
  | error e => simp [boundedWrite] at h
  | ok data =>
    by_cases hbig : maxSnapshotData < data.length
    · simp [boundedWrite, hbig] at h
    · refine ⟨data, rfl, Nat.le_of_not_lt hbig, ?_⟩
      simp only [boundedWrite, if_neg hbig, Except.ok.injEq] at h
      rw [← h]
      exact ⟨rfl, rfl⟩

private theorem persistHard_frame (s : Stable) (u : Update) :
    (s.persistHard u).data = s.data
      ∧ (s.persistHard u).snapshot.index = s.snapshot.index := by
  unfold Stable.persistHard
  cases u.hardState <;> exact ⟨rfl, rfl⟩

/-- **What was persisted without an error fits** the store's limits. -/
theorem Stable.persist_fits {s s' : Stable} {u : Update} {d : Option (Except String Bytes)}
    (h : s.persist u d = (s', none))
    (hnew : ∀ snap, u.snapshot = some snap → s.snapshot.index < snap.index) : Fits u d := by
  obtain ⟨s1, s2, hi, _, happ⟩ := Stable.persist_steps h
  refine ⟨fun e he => (Stable.append_entries u.entries happ e he).2, fun snap hs => ?_⟩
  unfold Stable.persistInstall at hi
  rw [hs] at hi
  obtain ⟨data, hw, hle, _, _⟩ := Stable.installSnapshot_new hi
    (by rw [(persistHard_frame s u).2]; exact hnew snap hs)
  exact ⟨data, hw, hle⟩

theorem Stable.append_frame (es : List Entry) :
    ∀ s : Stable, (s.append es).1.data = s.data ∧ (s.append es).1.snapshot = s.snapshot := by
  induction es with
  | nil => intro s; exact ⟨rfl, rfl⟩
  | cons x t ih =>
    intro s
    rw [Stable.append]
    split
    · exact ⟨rfl, rfl⟩
    · split
      · exact ⟨rfl, rfl⟩
      · exact ih _

theorem Stable.persistTruncate_frame {s s' : Stable} {u : Update}
    (h : s.persistTruncate u = .ok s') : s'.data = s.data ∧ s'.snapshot = s.snapshot := by
  unfold Stable.persistTruncate Stable.truncate at h
  dsimp only at h
  split at h
  · split at h
    · simp at h
    · split at h <;> (simp only [Except.ok.injEq] at h; rw [← h]; exact ⟨rfl, rfl⟩)
  · simp only [Except.ok.injEq] at h
    rw [← h]
    exact ⟨rfl, rfl⟩

/-- **The stored snapshot** after a persist: what the writer wrote of a new one, or what was
    there before. -/
theorem Stable.persist_installs {s s' : Stable} {u : Update} {d : Option (Except String Bytes)}
    (h : s.persist u d = (s', none))
    (hnew : ∀ snap, u.snapshot = some snap → s.snapshot.index < snap.index) :
    s'.snapshot.index = u.snapshot.elim s.snapshot.index Snapshot.index
      ∧ (u.snapshot = none → s'.data = s.data)
      ∧ ∀ snap, u.snapshot = some snap → d.getD (.ok snap.data) = .ok s'.data := by
  obtain ⟨s1, s2, hi, ht, happ⟩ := Stable.persist_steps h
  have hframe := Stable.append_frame u.entries s2
  rw [happ] at hframe
  have hcut := Stable.persistTruncate_frame ht
  rw [hframe.1, hframe.2, hcut.1, hcut.2]
  unfold Stable.persistInstall at hi
  cases hs : u.snapshot with
  | none =>
    rw [hs] at hi
    simp only [Except.ok.injEq] at hi
    rw [← hi]
    exact ⟨(persistHard_frame s u).2, fun _ => (persistHard_frame s u).1, by simp⟩
  | some snap =>
    rw [hs] at hi
    obtain ⟨data, hw, _, hd, hsi⟩ := Stable.installSnapshot_new hi
      (by rw [(persistHard_frame s u).2]; exact hnew snap hs)
    refine ⟨hsi, by simp, fun snap' hs' => ?_⟩
    rw [← Option.some.inj hs', hw, hd]

/-- **The stored snapshot data** after a persist without a writer: the data of a new snapshot,
    or what was there before. -/
theorem Stable.persist_data {s s' : Stable} {u : Update} (h : s.persist u none = (s', none))
    (hnew : ∀ snap, u.snapshot = some snap → s.snapshot.index < snap.index) :
    s'.data = u.snapshot.elim s.data Snapshot.data := by
  obtain ⟨_, hold, hinst⟩ := Stable.persist_installs h hnew
  cases hs : u.snapshot with
  | none => exact hold hs
  | some snap => exact (Except.ok.inj (hinst snap hs)).symm

theorem Stable.persist_terms {s s' : Stable} {u : Update} {d : Option (Except String Bytes)}
    (h : s.persist u d = (s', none)) : ∀ e ∈ u.entries, e.term ≠ 0 := by
  obtain ⟨_, _, _, _, happ⟩ := Stable.persist_steps h
  exact fun e he => (Stable.append_entries u.entries happ e he).1

theorem Mirrors.suffix {s : Stable} {c : Core} (h : Mirrors s c) {snap : Snapshot}
    (hlt : c.snapshot.index < snap.index) : s.suffix snap = (c.compactLog snap).log := by
  have hsi : s.snapshot.index = c.snapshot.index := by rw [h.snapshot]
  unfold Stable.suffix
  rw [hsi, h.entries]
  dsimp only
  by_cases hle : snap.index ≤ c.lastIndex
  · obtain ⟨e, he, ht⟩ := c.exists_of_termAt hlt hle
    have hin : c.snapshot.index < snap.index
        ∧ snap.index ≤ c.snapshot.index + c.log.length := ⟨hlt, hle⟩
    simp only [if_pos hin, he, Option.elim_some]
    by_cases hterm : c.termAt snap.index = snap.term
    · rw [Core.compactLog_log hlt hterm, if_pos (by rw [← ht]; simpa using hterm)]
    · have hne : ¬ (e.term == snap.term) = true := by rw [← ht]; simpa using hterm
      rw [if_neg hne]
      unfold Core.compactLog
      simp [hterm]
  · have hout : ¬ (c.snapshot.index < snap.index
        ∧ snap.index ≤ c.snapshot.index + c.log.length) := fun hin => hle hin.2
    simp only [if_neg hout, Bool.false_eq_true, if_false]
    unfold Core.compactLog
    dsimp only
    rw [if_neg (by omega)]

section Codec
variable [MembershipJson] {inp : Input} {c c' : Core} {u : Update} {s : Stable}
  {d : Option (Except String Bytes)}

/-- The store after a successful persist of `u`. -/
def Persists (s : Stable) (u : Update) (d : Option (Except String Bytes)) (c' : Core) : Prop :=
  ∃ s', s.persist u d = (s', none) ∧ Mirrors s' c'

section
omit [MembershipJson]

/-- An update without durable effects leaves the store alone. -/
private theorem persists_none (h : Mirrors s c) (hh : u.hardState = none)
    (hs : u.snapshot = none) (ht : u.truncateFrom = 0) (he : u.entries = [])
    (hd : c'.hardState = c.hardState) (hsn : c'.snapshot = c.snapshot) (hl : c'.log = c.log) :
    Persists s u d c' := by
  refine ⟨s, ?_, ?_⟩
  · simp [Stable.persist, Stable.persistHard, Stable.persistLog, Stable.persistInstall,
      Stable.persistTruncate, Stable.append, hh, hs, ht, he]
  · exact ⟨by rw [hd]; exact h.hard, by rw [hsn]; exact h.snapshot, by rw [hl]; exact h.entries⟩

private theorem persists_hard {hs : HardState} (h : Mirrors s c) (b : Bool)
    (hd : c'.hardState = hs) (hsn : c'.snapshot = c.snapshot) (hl : c'.log = c.log) :
    Persists s { hardState := some hs, roleChanged := b } d c' := by
  refine ⟨{ s with hard := hs }, ?_, ?_⟩
  · simp [Stable.persist, Stable.persistHard, Stable.persistLog, Stable.persistInstall,
      Stable.persistTruncate, Stable.append]
  · exact ⟨hd.symm, by rw [hsn]; exact h.snapshot, by rw [hl]; exact h.entries⟩

private theorem persists_entry {e : Entry} (h : Mirrors s c) (hi : e.index = c.lastIndex + 1)
    (ht : e.term ≠ 0) (hsz : e.data.length ≤ maxEntryBytes)
    (hd : c'.hardState = c.hardState) (hsn : c'.snapshot = c.snapshot)
    (hl : c'.log = c.log ++ [e]) : Persists s { entries := [e] } d c' := by
  refine ⟨{ s with entries := s.entries ++ [e] }, ?_, ?_⟩
  · have := Stable.append_ok [e] s ?_ ?_
    · simpa [Stable.persist, Stable.persistHard, Stable.persistLog, Stable.persistInstall,
        Stable.persistTruncate] using this
    · intro k x hx
      have hk := (List.getElem?_eq_some_iff.mp hx).1
      have hk0 : k = 0 := by simpa using hk
      subst hk0
      simp only [List.getElem?_cons_zero, Option.some.injEq] at hx
      subst hx
      rw [hi, h.snapshot, h.entries]
      rfl
    · intro x hx
      rw [List.mem_singleton.mp hx]
      exact ⟨ht, hsz⟩
  · exact ⟨by rw [hd]; exact h.hard, by rw [hsn]; exact h.snapshot, by rw [hl, ← h.entries]⟩

private theorem persists_snapshot {snap : Snapshot} (h : Mirrors s c) (hi : snap.index ≠ 0)
    (ht : snap.term ≠ 0) (hlt : c.snapshot.index < snap.index)
    (hw : ∃ data, d.getD (.ok snap.data) = .ok data ∧ data.length ≤ maxSnapshotData)
    (hd : c'.hardState = c.hardState)
    (hsn : c'.snapshot = snap) (hl : c'.log = (c.compactLog snap).log) :
    Persists s { snapshot := some snap } d c' := by
  have hsi : s.snapshot.index = c.snapshot.index := by rw [h.snapshot]
  obtain ⟨data, hdata, hsz⟩ := hw
  have hbound : boundedWrite (d.getD (.ok snap.data)) = .ok data := by
    rw [hdata]
    exact if_neg (by omega)
  refine ⟨{ s with
    snapshot := { snap with data := [] }
    data := data
    entries := s.suffix snap }, ?_, ?_⟩
  · simp only [Stable.persist, Stable.persistHard, Stable.persistLog, Stable.persistInstall,
      Stable.installSnapshot, hbound]
    rw [if_neg (by simp [hi, ht]), if_neg (by omega)]
    simp [Stable.persistTruncate, Stable.append]
  · exact ⟨by rw [hd]; exact h.hard, by rw [hsn], by rw [hl]; exact h.suffix hlt⟩

end

/-- **Persisting the effect of an elementary transition** succeeds and keeps the mirror. -/
theorem Trans.persists (h : c.WF) (hm : Mirrors s c) (ht : Trans inp c u c') (hf : Fits u d) :
    Persists s u d c' := by
  cases ht with
  | adopt t ht => exact persists_hard hm true rfl rfl rfl
  | stepDown => exact persists_none hm rfl rfl rfl rfl rfl rfl rfl
  | preCampaign => exact persists_none hm rfl rfl rfl rfl rfl rfl rfl
  | countPreVote peer granted hr => exact persists_none hm rfl rfl rfl rfl rfl rfl rfl
  | campaign => exact persists_hard hm true rfl rfl rfl
  | countVote m hr hmr => exact persists_none hm rfl rfl rfl rfl rfl rfl rfl
  | win hr hq => exact persists_none hm rfl rfl rfl rfl rfl rfl rfl
  | grant m hmr hv hup => exact persists_hard hm false rfl rfl rfl
  | propose data hr hd hlen =>
    have := h.active (.inl hr)
    exact persists_entry hm rfl (by show c.term ≠ 0; omega) hlen rfl rfl rfl
  | reconfigure core command hr hc hrb =>
    obtain ⟨m, _, rfl⟩ := Core.rebuildMembership_eq hrb
    have := h.active (.inl hr)
    exact persists_entry hm rfl (by show c.term ≠ 0; omega) (hf.entries _ (by simp)) rfl rfl rfl
  | orphan command e hr hc hrb =>
    obtain ⟨m, hfold, _⟩ := h.rebuild_ok (c.lastIndex + 1) c.term hc
    unfold Core.rebuildMembership at hrb
    rw [show ({ c with log := c.log ++ [{ index := c.lastIndex + 1, term := c.term,
                                          data := encodeMembership command }] } :
      Core).baseMembership = c.baseMembership from rfl, hfold] at hrb
    simp at hrb
  | acknowledge type m hmr ht hr hrej hlt => exact persists_none hm rfl rfl rfl rfl rfl rfl rfl
  | commit k hr hk hle ht hq => exact persists_none hm rfl rfl rfl rfl rfl rfl rfl
  | splice core m keep tf entries hmr hr hwf hle ht hs ha =>
    have hat := Core.spliceAt h.commit_lo hwf hle hs
    obtain ⟨mem, rfl, _⟩ := Core.applySplice_eq ha
    have hsi : s.snapshot.index = c.snapshot.index := by rw [hm.snapshot]
    have hkeep := hat.keep_le
    -- the store cuts at the same place, then appends the same entries
    have hcut : (if tf ≠ 0 then s.truncate tf else .ok s)
        = .ok { s with entries := c.log.take keep } := by
      rcases hat.cut with ⟨rfl, hk⟩ | ⟨htf, hk, _⟩
      · rw [hk, List.take_length, ← hm.entries]; simp
      rw [if_pos (by omega)]
      unfold Stable.truncate
      rw [hsi, hm.entries]
      dsimp only
      rw [if_neg (by omega), if_neg (by omega), htf,
        show c.snapshot.index + keep + 1 - (c.snapshot.index + 1) = keep by omega]
    have happ := Stable.append_ok entries { s with entries := c.log.take keep }
      (by
        intro k e he
        have := hat.index k e he
        rw [List.length_take, hsi]
        omega)
      (fun e he => ⟨(hat.entry e he).1, (hat.entry e he).2.2⟩)
    refine ⟨{ s with entries := c.log.take keep ++ entries }, ?_, ?_⟩
    · simp only [Stable.persist, Stable.persistHard, Stable.persistLog, Stable.persistInstall,
        Stable.persistTruncate, hcut]
      exact happ
    · exact ⟨hm.hard, hm.snapshot, rfl⟩
  | learn m k hmr hr hwf hh hk hlt => exact persists_none hm rfl rfl rfl rfl rfl rfl rfl
  | install core m sent hmr hr hs hi ht hv hmi hlt hcommit hb =>
    obtain ⟨mem, _, rfl⟩ := Core.rebuildMembership_eq hb
    have hsi : (c.received sent).index ≠ 0 ∧ (c.received sent).term ≠ 0 := by
      unfold Core.received; split <;> exact ⟨hi, ht⟩
    exact persists_snapshot hm hsi.1 hsi.2 hlt (hf.snapshot _ rfl) rfl rfl rfl
  | compact core snap m data hi hd hlt hle ht hterm hat hmm hmi hb =>
    obtain ⟨mem, _, rfl⟩ := Core.rebuildMembership_eq hb
    exact persists_snapshot hm (by omega) ht hlt (hf.snapshot _ rfl) rfl rfl rfl
  | halfCompact snap m data e hi hd hlt hle ht hterm hat hmm hmi hb =>
    obtain ⟨_, hfold⟩ := h.compact_folded hlt hterm hat hmm
    unfold Core.rebuildMembership at hb
    rw [hfold] at hb
    simp at hb
  | send ms hms => exact persists_none hm rfl rfl rfl rfl rfl rfl rfl
  | drop reason => exact persists_none hm rfl rfl rfl rfl rfl rfl rfl

/-- **Persisting the update of an operation** succeeds and leaves the store a mirror of the
    node. -/
theorem Path.persists (hp : inp.Plain) (h : c.WF) (hm : Mirrors s c) (hpath : Path inp c u c')
    (hf : Fits u d) : Persists s u d c' := by
  induction hpath with
  | nil => exact persists_none hm rfl rfl rfl rfl rfl rfl rfl
  | snoc hpre ht hc ih =>
    obtain ⟨s1, hs1, hm1⟩ := ih (hf.merge_left hc)
    obtain ⟨s2, hs2, hm2⟩ := Trans.persists (hpre.wf hp h) hm1 ht hf.merge_right
    exact ⟨s2, Stable.persist_merge hc hs1 hs2, hm2⟩

end Codec

end Lsmdb.RaftStore
