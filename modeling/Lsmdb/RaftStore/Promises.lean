import Lsmdb.RaftStore.Recovery
import Mathlib.Data.Set.Basic

namespace Lsmdb.RaftStore

open Lsmdb.Raft Lsmdb.Binary

/-!
# Raft store — what a Persist promises

An entry appended by a `Persist` that returned nil is owed: `Load` has to return it after
every later crash, until a later `Persist` truncates it, installs a snapshot that conflicts
with it, or a snapshot covers it.

The store does not keep this promise in all runs (`second_compaction_loses`).  It does if

* a crash between the renames of SNAPSHOT and raft.log meets a log that still starts at
  record 1, or one of which the installation keeps nothing;
* nothing is appended to a log that such a crash has left ending below the snapshot;
* the membership of a snapshot is within the limit that `Open` accepts.

`Holds` is the invariant behind it: every owed entry has its record within the synced part
of raft.log, at a place where `readLog` gets to it.
-/

section Json
variable [SnapshotJson]

/-! ### Sessions -/

/-- The call removes the entry from the log: a conflicting snapshot discards it, or the
    truncation cuts it off. -/
def Stable.Removes (m : Stable) (u : Update) (w : Option (Except String Bytes)) (e : Entry) :
    Prop :=
  (∃ snap, u.snapshot = some snap ∧ m.snapshot.index < snap.index ∧ m.Conflicts snap
      ∧ snap.index < e.index)
    ∨ ∃ m', (m.persistHard u).persistInstall u w = .ok m' ∧ m'.snapshot.index < u.truncateFrom
        ∧ u.truncateFrom ≤ e.index

/-- A store with the entries it owes: those appended by a call that returned nil and not
    removed since. -/
structure Session where
  store : Store
  owed : Set Entry

def Session.step (h : Session) : Op → Except String Session
  | .persist u w _ =>
      .ok {
        store := (h.store.persist u w).store
        owed := { e | (e ∈ h.owed ∧ ¬ h.store.mem.Removes u w e)
          ∨ ((h.store.persist u w).err = none ∧ e ∈ u.entries) } }
  | .crash u w _ k kept =>
      match openStore (h.store.crashed u w k kept) with
      | .error e => .error e
      | .ok s => .ok { store := s, owed := { e | e ∈ h.owed ∧ ¬ h.store.mem.Removes u w e } }
  | .reopen =>
      match openStore h.store.close.disk with
      | .error e => .error e
      | .ok s => .ok { store := s, owed := h.owed }

def Session.run : Session → List Op → Except String Session
  | h, [] => .ok h
  | h, op :: ops =>
      match h.step op with
      | .error e => .error e
      | .ok h' => h'.run ops

theorem Session.run_append {a b : List Op} :
    ∀ {h h' h'' : Session}, h.run a = .ok h' → h'.run b = .ok h'' → h.run (a ++ b) = .ok h'' := by
  induction a with
  | nil =>
    intro h h' h'' ha hb
    rw [← Except.ok.inj ha] at hb
    exact hb
  | cons op a ih =>
    intro h h' h'' ha hb
    rw [Session.run] at ha
    rw [List.cons_append, Session.run]
    cases hstep : h.step op with
    | error e => rw [hstep] at ha; simp at ha
    | ok h1 =>
      rw [hstep] at ha
      exact ih ha hb

/-- `Store.Load`. -/
def Store.load (s : Store) : HardState × List Entry := (s.mem.hard, s.mem.entries)

/-- raft.log starts at record 1 and ends below the snapshot. -/
def Store.Gap (s : Store) : Prop :=
  (readLog s.disk.log 0).1 ≠ [] ∧ (readLog s.disk.log 0).1.length < s.mem.snapshot.index

/-- The membership of a new snapshot is within the limit of `Open`. -/
def Small (u : Update) : Prop :=
  ∀ snap, u.snapshot = some snap →
    (SnapshotJson.marshal snap.membership).length ≤ maxMembership

/-- The operations under which the store keeps its promise. -/
def Op.Safe (s : Store) : Op → Prop
  | .persist u _ _ => Small u
      ∧ (u.entries ≠ [] → (∀ snap, u.snapshot = some snap → snap.index ≤ s.mem.snapshot.index) →
          ¬ s.Gap)
  | .crash u w _ k _ => Small u
      ∧ ∀ snap file, u.snapshot = some snap →
          ((s.persist u w).steps.take k).getLast? = some (.renameSnapshot file) →
          (readLog s.disk.log 0).1 ≠ [] ∨ s.mem.suffix snap = []
  | .reopen => True

/-- Every operation of a session is safe. -/
def Session.Safe : Session → List Op → Prop
  | _, [] => True
  | h, op :: ops => op.Safe h.store ∧ ∀ h', h.step op = .ok h' → h'.Safe ops

/-! ### The invariant -/

/-- The records of raft.log are contiguous, from 1 or from right above the snapshot. -/
def Straight (s : Store) (pre : List Entry) : Prop :=
  pre = [] ∨ pre.length = s.mem.snapshot.index

/-- The owed entries are safe. -/
structure Holds (s : Store) (owed : Set Entry) (pre : List Entry) : Prop where
  layout : Layout s pre
  readable : ∃ r, inspectSnapshot s.disk.snapshot = .ok r
  durable : ∀ e ∈ owed, s.mem.snapshot.index < e.index → ∃ i, e ∈ s.mem.entries.take i
    ∧ (encodeEntries (pre ++ s.mem.entries.take i)).length ≤ s.disk.synced
  straight : Straight s pre ∨ ∀ e ∈ owed, e.index ≤ s.mem.snapshot.index

variable {s0 s s' t : Store} {pre : List Entry} {owed : Set Entry} {u : Update}
  {w : Option (Except String Bytes)} {fs : List FileStep}

theorem Holds.mono {less : Set Entry} (h : Holds s owed pre) (hsub : ∀ e ∈ less, e ∈ owed) :
    Holds s less pre :=
  ⟨h.layout, h.readable, fun e he => h.durable e (hsub e he),
    h.straight.imp_right fun hall e he => hall e (hsub e he)⟩

/-- A store that has all its log synced holds what is in its memory. -/
theorem Holds.of_synced (hl : Layout s pre) (hread : ∃ r, inspectSnapshot s.disk.snapshot = .ok r)
    (hsync : s.disk.synced = s.disk.log.length)
    (howed : ∀ e ∈ owed, s.mem.snapshot.index < e.index → e ∈ s.mem.entries)
    (hstraight : Straight s pre ∨ ∀ e ∈ owed, e.index ≤ s.mem.snapshot.index) :
    Holds s owed pre := by
  refine ⟨hl, hread, fun e he habove => ⟨s.mem.entries.length, ?_, ?_⟩, hstraight⟩
  · rw [List.take_length]
    exact howed e he habove
  · rw [List.take_length, hsync, hl.log]

/-- A store that `Open` returns holds the owed entries it returned. -/
theorem Holds.of_open {d : Disk} (h : openStore d = .ok s) (hsync : d.synced = d.log.length)
    (howed : ∀ e ∈ owed, s.mem.snapshot.index < e.index → e ∈ s.mem.entries) :
    ∃ pre, Holds s owed pre := by
  obtain ⟨pre, hl, hgap⟩ := openStore_layout h
  obtain ⟨size, sum, hinspect, _, hsnap, hsynced⟩ := openStore_ok h
  refine ⟨pre, .of_synced hl ⟨_, by rw [hsnap]; exact hinspect⟩ (hsynced hsync) howed ?_⟩
  rcases hgap with hpre | hlen | hnone
  · exact .inl (.inl hpre)
  · exact .inl (.inr hlen)
  · -- without entries nothing above the snapshot is owed
    refine .inr fun e he => ?_
    by_contra habove
    have := howed e he (by omega)
    rw [hnone] at this
    simp at this

/-! ### Moves keep the invariant -/

private theorem mem_take_of_index (hl : Layout s pre) {e : Entry} {i : ℕ}
    (he : e ∈ s.mem.entries) (hi : e.index < s.mem.snapshot.index + 1 + i) :
    e ∈ s.mem.entries.take i := by
  obtain ⟨k, hk⟩ := List.mem_iff_getElem?.mp he
  have hindex := hl.index.getElem hk
  rw [List.mem_iff_getElem?]
  exact ⟨k, by rw [List.getElem?_take_of_lt (by omega), hk]⟩

/-- An entry above a new snapshot that agrees with the log is kept by the installation. -/
private theorem mem_suffix (hl : Layout s pre) {e : Entry} {snap : Snapshot}
    (new : s.mem.snapshot.index < snap.index) (hno : ¬ s.mem.Conflicts snap)
    (he : e ∈ s.mem.entries) (habove : snap.index < e.index) : e ∈ s.mem.suffix snap := by
  rcases s.mem.suffix_cases new with ⟨hc, _⟩ | ⟨hout, _⟩ | ⟨_, _, _, hsuf⟩
  · exact absurd hc hno
  · have := hl.index.bounds e he
    omega
  · have hfilter := filter_contiguous (S := snap.index) hl.index
    rw [show snap.index + 1 - (s.mem.snapshot.index + 1)
      = snap.index - s.mem.snapshot.index by omega] at hfilter
    rw [hsuf, ← hfilter, List.mem_filter]
    exact ⟨he, by simpa using habove⟩

theorem Holds.mem (h : Holds s owed pre) {e : Entry} (he : e ∈ owed)
    (habove : s.mem.snapshot.index < e.index) : e ∈ s.mem.entries := by
  obtain ⟨i, hi, _⟩ := h.durable e he habove
  exact List.mem_of_mem_take hi

/-- **Every move keeps the owed entries** that the call does not remove.  A gap below the
    snapshot stays only as long as no snapshot is installed. -/
private theorem holds_move (words : Word64 u) (small : Small u)
    (howed : ∀ e ∈ owed, ¬ s0.mem.Removes u w e) (hm : Move s0 u w s fs t)
    (h : ∃ pre, Holds s owed pre ∧ (Straight s pre
      ∨ s0.Gap ∧ s.mem.snapshot.index = s0.mem.snapshot.index)) :
    ∃ pre, Holds t owed pre ∧ (Straight t pre
      ∨ s0.Gap ∧ t.mem.snapshot.index = s0.mem.snapshot.index) := by
  obtain ⟨pre, h, hgap⟩ := h
  cases hm with
  | hard hard hu =>
    exact ⟨pre, ⟨h.layout.setHard hard, h.readable, h.durable, h.straight⟩, hgap⟩
  | install snap data hu new =>
    have hfits := new.fits (words.snapshot snap hu)
    have hinspect := inspectSnapshot_snapshotFile hfits
    rw [if_pos (small snap hu)] at hinspect
    refine ⟨[], .of_synced (h.layout.installed hfits new.new) ⟨_, hinspect⟩ rfl ?_ (.inl (.inl rfl)),
      .inl (.inl rfl)⟩
    intro e he habove
    have habove : snap.index < e.index := habove
    have hlt := new.new
    apply mem_suffix h.layout new.new _ (h.mem he (by omega)) habove
    intro hconf
    refine howed e he (.inl ⟨snap, hu, ?_, ?_, habove⟩)
    · rw [← new.snapshot]; exact new.new
    · unfold Stable.Conflicts at hconf ⊢
      rwa [← new.snapshot, ← new.entries]
  | truncate i hu inside reached =>
    refine ⟨pre, .of_synced (h.layout.cut inside) h.readable rfl ?_ h.straight, hgap⟩
    intro e he habove
    apply mem_take_of_index h.layout (h.mem he habove)
    by_contra hcut
    obtain ⟨m, hm, hindex⟩ := reached
    exact howed e he (.inr ⟨m, hm, by omega, by omega⟩)
  | write e hu index term size final =>
    refine ⟨pre, ⟨h.layout.written index (words.record hu term size), h.readable, ?_, h.straight⟩,
      hgap⟩
    intro x hx habove
    obtain ⟨i, hi, hsync⟩ := h.durable x hx habove
    -- the records that were synced are still the first ones
    have htake : (s.mem.entries ++ [e]).take (min i s.mem.entries.length)
        = s.mem.entries.take i := by
      rw [List.take_append_of_le_length (Nat.min_le_right _ _), ← List.take_take,
        List.take_length]
    refine ⟨min i s.mem.entries.length, ?_, ?_⟩
    · show x ∈ (s.mem.entries ++ [e]).take _
      rwa [htake]
    · show (encodeEntries (pre ++ (s.mem.entries ++ [e]).take _)).length ≤ s.disk.synced
      rwa [htake]
  | sync =>
    refine ⟨pre, ⟨h.layout.close, h.readable, ?_, h.straight⟩, hgap⟩
    intro x hx habove
    obtain ⟨i, hi, hsync⟩ := h.durable x hx habove
    exact ⟨i, hi, hsync.trans h.layout.synced⟩

/-! ### Crashes keep the invariant -/

private theorem Straight.contiguous (h : Straight s pre) (hl : Layout s pre) :
    ∃ i, (i = 1 ∨ i = s.mem.snapshot.index + 1) ∧ Contiguous i (pre ++ s.mem.entries) := by
  rcases h with rfl | hlen
  · exact ⟨_, .inr rfl, hl.index⟩
  · refine ⟨1, .inl rfl, Contiguous.append_iff.mpr ⟨hl.pre_index, ?_⟩⟩
    rw [hlen, Nat.add_comm]
    exact hl.index

private theorem readLog_whole (hl : Layout s pre) (S : ℕ) :
    (readLog s.disk.log S).1
      = ((logFraming S).accepted 0 (pre ++ s.mem.entries)).filter (fun e => S < e.index) := by
  rw [readLog_entries, hl.log, ← encodeAll_logFraming S,
    Framing.read_encodeAll (fun e he => (hl.record e he).fits)]

/-- A log of which something is read without a snapshot starts at 1. -/
private theorem starts_at_one (hl : Layout s pre) (h : (readLog s.disk.log 0).1 ≠ [])
    (hs : Straight s pre) : Contiguous 1 (pre ++ s.mem.entries) := by
  rcases hs with rfl | hlen
  · by_cases h0 : s.mem.snapshot.index = 0
    · have hindex := hl.index
      rwa [h0] at hindex
    · rw [readLog_whole hl, List.nil_append, accepted_refused (by omega) (by omega) hl.index] at h
      exact absurd rfl h
  · refine Contiguous.append_iff.mpr ⟨hl.pre_index, ?_⟩
    rw [hlen, Nat.add_comm]
    exact hl.index

/-- Records that are not contiguous up to the snapshot leave a gap. -/
private theorem gap_of_not_straight (hl : Layout s pre) (h : ¬ Straight s pre) : s.Gap := by
  obtain ⟨hne, hlen⟩ := not_or.mp h
  have hle := hl.pre_le
  have hrecord : ∀ e ∈ pre, Record e := fun e he => hl.record e (List.mem_append_left _ he)
  have hread : (readLog s.disk.log 0).1 = pre := by
    rw [readLog_whole hl, accepted_gap hrecord hne hl.pre_index hl.index (by omega),
      List.filter_eq_self]
    intro e he
    have := hl.pre_index.bounds e he
    simp only [decide_eq_true_eq]
    omega
  unfold Store.Gap
  rw [hread]
  exact ⟨hne, by omega⟩

/-- **A crash between two moves.** -/
theorem Holds.recover (h : Holds s owed pre) (kept : ℕ) :
    ∃ s', openStore (s.disk.crash kept) = .ok s' ∧ ∃ pre, Holds s' owed pre := by
  obtain ⟨r, hr⟩ := h.readable
  obtain ⟨s', hs'⟩ := openStore_of_inspect (d := s.disk.crash kept) hr
  refine ⟨s', hs', Holds.of_open hs' rfl ?_⟩
  obtain ⟨_, _, hinspect, hentries, _, _⟩ := openStore_ok hs'
  have hS : s'.mem.snapshot = s.mem.snapshot := h.layout.snapshot _ hinspect
  intro e he habove
  rw [hS] at habove
  rcases h.straight with hstraight | hbelow
  · obtain ⟨i, hi, hc⟩ := hstraight.contiguous h.layout
    obtain ⟨j, hj, hsync⟩ := h.durable e he habove
    rw [hentries, hS]
    exact readLog_durable h.layout hi hc hj hsync habove kept
  · have := hbelow e he
    omega

/-- **A crash between the renames of SNAPSHOT and raft.log.** -/
theorem Holds.recover_between (h : Holds s owed pre) {snap : Snapshot} {data : Bytes}
    (new : s.mem.snapshot.index < snap.index) (hfits : SnapshotFits snap data)
    (hsmall : (SnapshotJson.marshal snap.membership).length ≤ maxMembership)
    (hagree : ∀ e ∈ owed, snap.index < e.index → ¬ s.mem.Conflicts snap)
    (hlog : (readLog s.disk.log 0).1 ≠ [] ∨ s.mem.suffix snap = []) (kept : ℕ) :
    ∃ s', openStore ((s.disk.apply (.renameSnapshot (snapshotFile snap data))).crash kept) = .ok s'
      ∧ ∃ pre, Holds s' owed pre := by
  obtain ⟨s', hs', hsnap, hentries⟩ := openStore_between hfits hsmall s.disk kept
  refine ⟨s', hs', Holds.of_open hs' rfl ?_⟩
  have hS : s'.mem.snapshot.index = snap.index := by rw [hsnap]
  intro e he habove
  rw [hS] at habove
  have hold : s.mem.snapshot.index < e.index := by omega
  -- the installation keeps the entry, so the log must start at 1
  have hkept := mem_suffix h.layout new (hagree e he habove) (h.mem he hold) habove
  have hone : (readLog s.disk.log 0).1 ≠ [] := by
    rcases hlog with hlog | hnone
    · exact hlog
    · rw [hnone] at hkept
      simp at hkept
  rcases h.straight with hstraight | hbelow
  · obtain ⟨j, hj, hsync⟩ := h.durable e he hold
    rw [hentries]
    exact readLog_durable h.layout (.inl rfl) (starts_at_one h.layout hone hstraight) hj hsync
      habove kept
  · have := hbelow e he
    omega

/-! ### Calls keep the invariant -/

omit [SnapshotJson] in
private theorem Stable.append_none (es : List Entry) :
    ∀ {m m' : Stable}, m.append es = (m', none) → m'.entries = m.entries ++ es := by
  induction es with
  | nil =>
    intro m m' h
    rw [← (Prod.mk.inj h).1, List.append_nil]
  | cons e es ih =>
    intro m m' h
    rw [Stable.append] at h
    split at h
    · simp at h
    · split at h
      · simp at h
      · rw [ih h, List.append_assoc]
        rfl

omit [SnapshotJson] in
private theorem append_synced (es : List Entry) :
    ∀ {s : Store}, (s.append es).err = none →
      (s.append es).store.disk.synced = (s.append es).store.disk.log.length := by
  induction es with
  | nil => intro s _; rfl
  | cons e es ih =>
    intro s h
    unfold Store.append at h ⊢
    dsimp only at h ⊢
    split at h
    · simp at h
    rename_i h1
    rw [if_neg h1]
    split at h
    · simp at h
    · rename_i h2
      rw [if_neg h2]
      exact ih h

/-- A call that appends and returns nil has its entries in the log and the log synced. -/
private theorem persist_appends (h : (s.persist u w).err = none) (hne : u.entries ≠ []) :
    (∀ e ∈ u.entries, e ∈ (s.persist u w).store.mem.entries)
      ∧ (s.persist u w).store.disk.synced = (s.persist u w).store.disk.log.length := by
  obtain ⟨_, h, hstore⟩ := Call.andThen_none h
  obtain ⟨_, h, hstore1⟩ := Call.andThen_none h
  obtain ⟨_, h, hstore2⟩ := Call.andThen_none h
  have happ : ∀ t : Store, t.persistAppend u = t.append u.entries := fun t =>
    if_pos (List.length_pos_iff.mpr hne)
  rw [happ] at h hstore2
  unfold Store.persist
  rw [hstore, hstore1, hstore2]
  refine ⟨fun e he => ?_, append_synced u.entries h⟩
  obtain ⟨hmem, herr⟩ := Store.append_does u.entries
    (((s.persistHard u).store.persistInstall u w).store.persistTruncate u).store
  rw [hmem, Stable.append_none u.entries (Prod.ext rfl (herr ▸ h))]
  exact List.mem_append_right _ he

/-- **A complete call** keeps the owed entries it does not remove, and owes those it
    appended. -/
private theorem holds_persist (words : Word64 u) (h : Holds s owed pre)
    (hsafe : (Op.persist u w words).Safe s) :
    ∃ pre, Holds (s.persist u w).store
      { e | (e ∈ owed ∧ ¬ s.mem.Removes u w e) ∨ ((s.persist u w).err = none ∧ e ∈ u.entries) }
      pre := by
  have hkeep : Holds s { e | e ∈ owed ∧ ¬ s.mem.Removes u w e } pre := h.mono fun e he => he.1
  have hstart : Straight s pre ∨ s.Gap ∧ s.mem.snapshot.index = s.mem.snapshot.index := by
    by_cases hs : Straight s pre
    · exact .inl hs
    · exact .inr ⟨gap_of_not_straight h.layout hs, rfl⟩
  obtain ⟨pre', hfinal, hgap⟩ := Moves.invariant
    (holds_move words hsafe.1 (fun e he => he.2)) (s.persist_moves u w) ⟨pre, hkeep, hstart⟩
  refine ⟨pre', ?_⟩
  by_cases hnew : (s.persist u w).err = none ∧ u.entries ≠ []
  · obtain ⟨hin, hsync⟩ := persist_appends hnew.1 hnew.2
    refine .of_synced hfinal.layout hfinal.readable hsync ?_ (.inl ?_)
    · rintro e (he | he) habove
      · exact hfinal.mem he habove
      · exact hin e he.2
    · rcases hgap with hs | ⟨hgap, hsame⟩
      · exact hs
      · -- over a gap only a call that installs a snapshot may append
        exfalso
        refine hsafe.2 hnew.2 (fun snap hu => ?_) hgap
        by_contra hlt
        obtain ⟨hmem, herr⟩ := s.persist_mem u w
        have hp : s.mem.persist u w = ((s.persist u w).store.mem, none) :=
          Prod.ext hmem.symm (herr ▸ hnew.1)
        have hinst := (Stable.persist_installs hp (fun snap' hu' => by
            rw [hu] at hu'
            rw [← Option.some.inj hu']
            omega)).1
        rw [hu, hsame] at hinst
        simp only [Option.elim_some] at hinst
        omega
  · refine hfinal.mono ?_
    rintro e (he | ⟨herr, he⟩)
    · exact he
    · exact absurd ⟨herr, List.ne_nil_of_mem he⟩ hnew

/-- **A crash inside a call.** -/
private theorem holds_crash (words : Word64 u) {k kept : ℕ} (h : Holds s owed pre)
    (hsafe : (Op.crash u w words k kept).Safe s) :
    ∃ s', openStore (s.crashed u w k kept) = .ok s'
      ∧ ∃ pre, Holds s' { e | e ∈ owed ∧ ¬ s.mem.Removes u w e } pre := by
  have hkeep : Holds s { e | e ∈ owed ∧ ¬ s.mem.Removes u w e } pre := h.mono fun e he => he.1
  have hstart : Straight s pre ∨ s.Gap ∧ s.mem.snapshot.index = s.mem.snapshot.index := by
    by_cases hs : Straight s pre
    · exact .inl hs
    · exact .inr ⟨gap_of_not_straight h.layout hs, rfl⟩
  unfold Store.crashed
  rcases Moves.passes (holds_move words hsafe.1 (fun e he => he.2)) (s.persist_moves u w)
      ⟨pre, hkeep, hstart⟩ k with
    ⟨r, ⟨pre', hr, _⟩, hd⟩ | ⟨r, snap, data, ⟨pre', hr, _⟩, new, hu, hlast, hd⟩
  · rw [← hd]
    exact hr.recover kept
  rw [hd]
  refine hr.recover_between new.new (new.fits (words.snapshot snap hu)) (hsafe.1 snap hu) ?_ ?_
    kept
  · intro e he habove hconf
    refine he.2 (.inl ⟨snap, hu, ?_, ?_, habove⟩)
    · rw [← new.snapshot]; exact new.new
    · unfold Stable.Conflicts at hconf ⊢
      rwa [← new.snapshot, ← new.entries]
  · have hlog := hsafe.2 snap _ hu hlast
    rw [new.log]
    refine hlog.imp_right fun hnone => ?_
    unfold Stable.suffix at hnone ⊢
    rwa [new.snapshot, new.entries]

/-! ### Runs -/

/-- One safe operation of a session succeeds and keeps the invariant. -/
private theorem step_holds {h : Session} {op : Op} (hh : ∃ pre, Holds h.store h.owed pre)
    (hsafe : op.Safe h.store) :
    ∃ h', h.step op = .ok h' ∧ ∃ pre, Holds h'.store h'.owed pre := by
  obtain ⟨pre, hh⟩ := hh
  cases op with
  | persist u w words => exact ⟨_, rfl, holds_persist words hh hsafe⟩
  | crash u w words k kept =>
    obtain ⟨s', hs', hheld⟩ := holds_crash words hh hsafe
    refine ⟨{ store := s', owed := { e | e ∈ h.owed ∧ ¬ h.store.mem.Removes u w e } }, ?_, hheld⟩
    rw [Session.step, hs']
  | reopen =>
    obtain ⟨s', hs', hheld⟩ := hh.recover h.store.disk.log.length
    refine ⟨{ store := s', owed := h.owed }, ?_, hheld⟩
    rw [Session.step, h.store.close_disk, hs']

private theorem run_holds (ops : List Op) :
    ∀ {h : Session}, (∃ pre, Holds h.store h.owed pre) → h.Safe ops →
      ∃ h', h.run ops = .ok h' ∧ ∃ pre, Holds h'.store h'.owed pre := by
  induction ops with
  | nil => intro h hh _; exact ⟨h, rfl, hh⟩
  | cons op ops ih =>
    intro h hh hsafe
    obtain ⟨h1, hstep, hh1⟩ := step_holds hh hsafe.1
    obtain ⟨h2, hrun, hh2⟩ := ih hh1 (hsafe.2 h1 hstep)
    refine ⟨h2, ?_, hh2⟩
    rw [Session.run, hstep]
    exact hrun

/-- **Owed entries survive**: in every safe run, from any directory that opens, every `Open`
    succeeds and `Load` returns every owed entry above the snapshot. -/
theorem owed_entries_survive (d : Disk) (s0 : Store) (h0 : openStore d = .ok s0) (ops : List Op)
    (hsafe : Session.Safe { store := s0, owed := ∅ } ops) :
    ∃ h : Session, Session.run { store := s0, owed := ∅ } ops = .ok h
      ∧ ∀ e ∈ h.owed, h.store.mem.snapshot.index < e.index → e ∈ h.store.load.2 := by
  have hstart : ∃ pre, Holds s0 ∅ pre := by
    obtain ⟨pre, hl, hgap⟩ := openStore_layout h0
    obtain ⟨size, sum, hinspect, _, hsnap, _⟩ := openStore_ok h0
    exact ⟨pre, hl, ⟨_, by rw [hsnap]; exact hinspect⟩, fun e he => he.elim,
      .inr fun e he => he.elim⟩
  obtain ⟨h, hrun, pre, hh⟩ := run_holds ops hstart hsafe
  exact ⟨h, hrun, fun e he habove => hh.mem he habove⟩

end Json

/-! ### Runs on fixed inputs -/

/-- The update that compacts at `index`. -/
def compactAt (index : ℕ) : Update := { snapshot := some (bareSnapshot index 1) }

theorem compactAt_words {index : ℕ} (h : index < 256 ^ 8) : Word64 (compactAt index) := by
  constructor
  · intro e he
    simp [compactAt] at he
  · intro snap hs
    rw [← Option.some.inj hs]
    exact ⟨h, show 1 < 256 ^ 8 by decide⟩

/-- Three entries are persisted, then the process crashes outside a call. -/
theorem owed_entries_survive_first :
    letI := unarySnapshotJson
    ∃ h : Session, Session.run { store := {}, owed := ∅ }
        [.persist firstEntries none firstEntries_words,
          .crash {} none ⟨by simp, by simp⟩ 0 0] = .ok h
      ∧ ∀ e ∈ h.owed, h.store.mem.snapshot.index < e.index → e ∈ h.store.load.2 := by
  let _ := unarySnapshotJson
  refine owed_entries_survive {} {} openStore_empty _ ⟨⟨?_, ?_⟩, ?_⟩
  · intro snap h
    simp [firstEntries] at h
  · intro _ _ hgap
    exact absurd hgap.2 (Nat.not_lt_zero _)
  · intro h _
    refine ⟨⟨?_, ?_⟩, fun _ _ => trivial⟩
    · intro snap h
      simp at h
    · intro snap file h
      simp at h

/-- **The second compaction, cut between the renames**: entry 3 was persisted and neither
    truncated nor covered by a snapshot, and `Load` does not return it. -/
theorem second_compaction_loses :
    letI := unarySnapshotJson
    ∃ h : Session, openStore {} = .ok {}
      ∧ Session.run { store := {}, owed := ∅ }
          [.persist firstEntries none firstEntries_words,
            .persist (compactAt 1) none (compactAt_words (by decide)),
            .crash (compactAt 2) none (compactAt_words (by decide)) 1 0] = .ok h
      ∧ { index := 3, term := 1, data := [] } ∈ h.owed
      ∧ h.store.mem.snapshot.index = 2 ∧ h.store.load.2 = [] := by
  let _ := unarySnapshotJson
  let s1 : Store := (Store.persist {} firstEntries none).store
  let s2 : Store := (s1.persist (compactAt 1) none).store
  obtain ⟨pre, hl0, _⟩ := openStore_layout openStore_empty
  obtain ⟨pre, hl1⟩ := Store.perform_layout ⟨pre, hl0⟩
    (show Store.perform {} (.persist firstEntries none firstEntries_words) = .ok s1 from rfl)
  have hfits : ∀ i, i ≠ 0 → i < 256 ^ 8 → SnapshotFits (bareSnapshot i 1) [] :=
    fun i h0 h => ⟨⟨h0, h⟩, show 1 ≠ 0 ∧ 1 < 256 ^ 8 by decide, Nat.zero_le _⟩
  -- after the first compaction the log starts at record 2
  have hl2 : Layout s2 [] := hl1.installed (hfits 1 (by decide) (by decide)) (by decide)
  obtain ⟨s3, hopen, hsnap, hread⟩ :=
    openStore_between (hfits 2 (by decide) (by decide)) unarySnapshotJson_empty s2.disk 0
  have hsync : s2.disk.synced = s2.disk.log.length := installed_synced s1 (bareSnapshot 1 1) []
  have hnone : s3.mem.entries = [] := by
    rw [hread, readLog_synced hl2 hsync, List.nil_append,
      accepted_refused (i := 2) (by decide) (by decide) hl2.index]
    rfl
  -- no call removes entry 3
  have hkept : ∀ (s : Store) (i : ℕ), ¬ s.mem.Conflicts (bareSnapshot i 1) →
      ∀ e, ¬ s.mem.Removes (compactAt i) none e := by
    rintro s i hagree e (⟨snap, hs, _, hconf, _⟩ | ⟨m, _, htrunc, _⟩)
    · rw [← Option.some.inj hs] at hconf
      exact hagree hconf
    · exact absurd htrunc (Nat.not_lt_zero _)
  have hagree1 : ¬ s1.mem.Conflicts (bareSnapshot 1 1) := by
    rintro ⟨e, he, hterm⟩
    exact hterm (by rw [← Option.some.inj he]; rfl)
  have hagree2 : ¬ s2.mem.Conflicts (bareSnapshot 2 1) := by
    rintro ⟨e, he, hterm⟩
    exact hterm (by rw [← Option.some.inj he]; rfl)
  obtain ⟨h2, hrun2, hstore2, howed2⟩ : ∃ h : Session,
      Session.run { store := {}, owed := ∅ } [.persist firstEntries none firstEntries_words,
        .persist (compactAt 1) none (compactAt_words (by decide))] = .ok h
      ∧ h.store = s2 ∧ { index := 3, term := 1, data := [] } ∈ h.owed :=
    ⟨_, rfl, rfl, .inl ⟨.inr ⟨rfl, by simp [firstEntries]⟩, hkept s1 1 hagree1 _⟩⟩
  have hstep : h2.run [.crash (compactAt 2) none (compactAt_words (by decide)) 1 0]
      = .ok { store := s3, owed := { e | e ∈ h2.owed
          ∧ ¬ h2.store.mem.Removes (compactAt 2) none e } } := by
    have hopen' : openStore (h2.store.crashed (compactAt 2) none 1 0) = .ok s3 := by
      rw [hstore2]
      exact hopen
    rw [Session.run, Session.step, hopen']
    rfl
  refine ⟨_, openStore_empty, Session.run_append hrun2 hstep, ⟨howed2, ?_⟩, ?_, hnone⟩
  · rw [hstore2]
    exact hkept s2 2 hagree2 _
  · rw [hsnap]
    rfl

end Lsmdb.RaftStore
