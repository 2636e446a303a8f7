import Lsmdb.RaftStore.Moves

namespace Lsmdb.RaftStore

open Lsmdb.Raft Lsmdb.Binary List

/-!
# Raft store — what Open makes of the files a crash leaves

Runs of a store in which a crash may hit any call between two of its file steps; behind the
synced bytes raft.log may be cut anywhere.  `openStore` then reads back

* the entries in memory, or a prefix of them, if the files are those of a store between
  two moves (`recovered_isPrefix`);
* the records above the new snapshot of a log that was not rewritten, if the crash fell
  between the renames of SNAPSHOT and of raft.log (`readLog_above`).

In the second case the reader does not compare terms: `install_recovered` says exactly when
entries come back that the installation had discarded.
-/

section Json
variable [SnapshotJson]

/-! ### Runs -/

/-- The files after a crash inside `Persist`: the first `k` file steps have been made. -/
def Store.crashed (s : Store) (u : Update) (w : Option (Except String Bytes)) (k kept : ℕ) :
    Disk :=
  (s.disk.applyAll ((s.persist u w).steps.take k)).crash kept

/-- What happens to a store: a call of `Persist` or `PersistSnapshot`, a crash inside one
    followed by `Open`, or `Close` followed by `Open`. -/
inductive Op where
  | persist (u : Update) (w : Option (Except String Bytes)) (words : Word64 u)
  | crash (u : Update) (w : Option (Except String Bytes)) (words : Word64 u) (k kept : ℕ)
  | reopen

def Store.perform (s : Store) : Op → Except String Store
  | .persist u w _ => .ok (s.persist u w).store
  | .crash u w _ k kept => openStore (s.crashed u w k kept)
  | .reopen => openStore s.close.disk

def Store.performAll : Store → List Op → Except String Store
  | s, [] => .ok s
  | s, op :: ops =>
      match s.perform op with
      | .error e => .error e
      | .ok s' => s'.performAll ops

/-- `P` holds of every operation of a run, with the store it meets. -/
def Store.Along (P : Store → Op → Prop) : Store → List Op → Prop
  | _, [] => True
  | s, op :: ops => P s op ∧ ∀ s', s.perform op = .ok s' → s'.Along P ops

variable {s s' : Store} {pre : List Entry} {d : Disk}

omit [SnapshotJson] in
/-- Closing is a crash that loses nothing. -/
theorem Store.close_disk (s : Store) : s.close.disk = s.disk.crash s.disk.log.length := by
  have htake : s.disk.log.take (max s.disk.log.length s.disk.synced) = s.disk.log :=
    take_of_length_le (le_max_left _ _)
  simp only [Store.close, Disk.apply, Disk.crash, htake]

theorem openStore_ok (h : openStore d = .ok s') :
    ∃ size sum, inspectSnapshot d.snapshot = .ok (s'.mem.snapshot, size, sum)
      ∧ s'.mem.entries = (readLog d.log s'.mem.snapshot.index).1
      ∧ s'.disk.snapshot = d.snapshot
      ∧ (d.synced = d.log.length → s'.disk.synced = s'.disk.log.length) := by
  unfold openStore at h
  cases hsnap : inspectSnapshot d.snapshot with
  | error e => rw [hsnap] at h; simp at h
  | ok r =>
    obtain ⟨snap, size, sum⟩ := r
    rw [hsnap] at h
    rw [← Except.ok.inj h]
    refine ⟨size, sum, rfl, rfl, rfl, fun hsync => ?_⟩
    dsimp only
    rw [hsync, length_take, Nat.min_comm]

theorem openStore_of_inspect {r : Snapshot × ℕ × ℕ} (h : inspectSnapshot d.snapshot = .ok r) :
    ∃ s', openStore d = .ok s' := by
  unfold openStore
  rw [h]
  exact ⟨_, rfl⟩

theorem Store.perform_layout {op : Op} (hl : ∃ pre, Layout s pre) (h : s.perform op = .ok s') :
    ∃ pre, Layout s' pre := by
  cases op with
  | persist u w words =>
    rw [← Except.ok.inj h]
    exact Moves.invariant (I := fun s => ∃ pre, Layout s pre)
      (fun hm ⟨_, hl⟩ => hl.move words hm) (s.persist_moves u w) hl
  | crash u w words k kept =>
    obtain ⟨pre, hl, _⟩ := openStore_layout h
    exact ⟨pre, hl⟩
  | reopen =>
    obtain ⟨pre, hl, _⟩ := openStore_layout h
    exact ⟨pre, hl⟩

theorem Store.performAll_layout (ops : List Op) :
    ∀ {s s' : Store}, (∃ pre, Layout s pre) → s.performAll ops = .ok s' →
      ∃ pre, Layout s' pre := by
  induction ops with
  | nil =>
    intro s s' hl h
    rwa [← Except.ok.inj h]
  | cons op ops ih =>
    intro s s' hl h
    rw [Store.performAll] at h
    cases hop : s.perform op with
    | error e => rw [hop] at h; simp at h
    | ok t =>
      rw [hop] at h
      exact ih (Store.perform_layout hl hop) h

/-! ### Reading a log that a crash may have cut -/

omit [SnapshotJson] in
/-- Which records a cut leaves does not depend on the reader. -/
private theorem within_logFraming (S : ℕ) (es : List Entry) :
    ∀ n, (logFraming S).within n es = (logFraming 0).within n es := by
  induction es with
  | nil => intro n; rfl
  | cons e es ih =>
    intro n
    rw [Framing.within, Framing.within, ih]
    rfl

private theorem read_crashed (hl : Layout s pre) (kept : ℕ) :
    ∃ L, L <+: pre ++ s.mem.entries
      ∧ (∀ i, (encodeEntries (pre ++ s.mem.entries.take i)).length ≤ s.disk.synced →
          pre ++ s.mem.entries.take i <+: L)
      ∧ ∀ S, (logFraming S).read 0 (s.disk.crash kept).log = (logFraming S).accepted 0 L := by
  refine ⟨(logFraming 0).within (max kept s.disk.synced) (pre ++ s.mem.entries),
    Framing.within_isPrefix _ _, fun i hi => ?_, fun S => ?_⟩
  · have hsplit : pre ++ s.mem.entries
        = (pre ++ s.mem.entries.take i) ++ s.mem.entries.drop i := by
      rw [append_assoc, take_append_drop]
    rw [hsplit, Framing.within_append (by
      rw [encodeAll_logFraming]
      exact hi.trans (le_max_right _ _))]
    exact prefix_append _ _
  · show (logFraming S).read 0 (s.disk.log.take (max kept s.disk.synced)) = _
    rw [hl.log, ← encodeAll_logFraming S, ← within_logFraming S]
    exact Framing.read_take _ (fun e he => (hl.record e he).fits) _ _

/-- Above a snapshot at or beyond the store's, only entries in memory have records. -/
private theorem filter_layout (hl : Layout s pre) {S : ℕ} (hS : s.mem.snapshot.index ≤ S) :
    (pre ++ s.mem.entries).filter (fun e => S < e.index)
      = s.mem.entries.drop (S - s.mem.snapshot.index) := by
  have hpre : pre.filter (fun e => S < e.index) = [] := by
    rw [filter_eq_nil_iff]
    intro e he
    have := hl.pre_index.bounds e he
    have := hl.pre_le
    simp only [decide_eq_true_eq]
    omega
  rw [filter_append, hpre, filter_contiguous hl.index, nil_append]
  congr 1
  omega

/-- **Recovered entries** are among those in memory, without a gap. -/
theorem readLog_isPrefix (hl : Layout s pre) {S : ℕ} (hS : s.mem.snapshot.index ≤ S) (kept : ℕ) :
    (readLog (s.disk.crash kept).log S).1
      <+: s.mem.entries.drop (S - s.mem.snapshot.index) := by
  obtain ⟨L, hL, _, hread⟩ := read_crashed hl kept
  rw [readLog_entries, hread, ← filter_layout hl hS]
  exact ((Framing.accepted_isPrefix L 0).trans hL).filter _

omit [SnapshotJson] in
private theorem accepted_congr_after (S S' : ℕ) (es : List Entry) :
    ∀ {previous : ℕ}, previous ≠ 0 →
      (logFraming S).accepted previous es = (logFraming S').accepted previous es := by
  induction es with
  | nil => intro previous _; rfl
  | cons e es ih =>
    intro previous h0
    have hsame : (logFraming S).accepts previous e = (logFraming S').accepts previous e := by
      rw [Bool.eq_iff_iff]
      show headerOk _ _ _ _ _ = true ↔ headerOk _ _ _ _ _ = true
      rw [headerOk_iff, headerOk_iff]
      tauto
    rw [Framing.accepted, Framing.accepted, hsame]
    split
    · rename_i hok
      have hindex : e.index ≠ 0 := by
        have := (headerOk_iff.mp hok).2.2.1
        omega
      rw [show (logFraming S).advance previous e = e.index from rfl,
        show (logFraming S').advance previous e = e.index from rfl, ih hindex]
    · rfl

omit [SnapshotJson] in
/-- Records that start at 1 are read the same way whatever the snapshot. -/
private theorem accepted_congr (S S' : ℕ) {es : List Entry} (h : Contiguous 1 (es.take 1)) :
    (logFraming S).accepted 0 es = (logFraming S').accepted 0 es := by
  cases es with
  | nil => rfl
  | cons e es =>
    have hindex : e.index = 1 := h.1
    have hsame : (logFraming S).accepts 0 e = (logFraming S').accepts 0 e := by
      rw [Bool.eq_iff_iff]
      show headerOk _ _ _ _ _ = true ↔ headerOk _ _ _ _ _ = true
      rw [headerOk_iff, headerOk_iff]
      tauto
    rw [Framing.accepted, Framing.accepted, hsame]
    split
    · rw [show (logFraming S).advance 0 e = e.index from rfl,
        show (logFraming S').advance 0 e = e.index from rfl,
        accepted_congr_after S S' es (by omega)]
    · rfl

/-- **The log next to a newer snapshot** is read only if its records start at 1, as without
    a snapshot. -/
theorem readLog_above (hl : Layout s pre) {S : ℕ} (hS : s.mem.snapshot.index < S) (kept : ℕ) :
    (readLog (s.disk.crash kept).log S).1
      = (readLog (s.disk.crash kept).log 0).1.filter (fun e => S < e.index) := by
  obtain ⟨L, hL, _, hread⟩ := read_crashed hl kept
  have hsame : (logFraming S).accepted 0 L = (logFraming 0).accepted 0 L := by
    by_cases hone : pre ≠ [] ∨ s.mem.snapshot.index = 0
    · -- the records start at 1
      have hstart : Contiguous 1 ((pre ++ s.mem.entries).take 1) := by
        cases pre with
        | nil =>
          have h0 : s.mem.snapshot.index = 0 := by simpa using hone
          have hindex := hl.index
          rw [h0] at hindex
          exact hindex.shorten (List.take_prefix _ _)
        | cons p pre => exact ⟨hl.pre_index.1, trivial⟩
      exact accepted_congr S 0 (hstart.shorten (hL.take 1))
    · -- they start right above the store's own snapshot
      obtain ⟨hpre, h0⟩ := not_or.mp hone
      rw [not_not] at hpre
      have hL' : L <+: s.mem.entries := by rwa [hpre, nil_append] at hL
      have hc := hl.index.shorten hL'
      rw [accepted_refused (by omega) (by omega) hc, accepted_refused (by omega) (by omega) hc]
  rw [readLog_entries, readLog_entries, hread, hread, hsame, filter_filter]
  congr 1
  funext e
  rw [Bool.eq_iff_iff]
  simp only [decide_eq_true_eq, Bool.and_eq_true]
  omega

theorem readLog_synced (hl : Layout s pre) (hsync : s.disk.synced = s.disk.log.length)
    (S kept : ℕ) :
    (readLog (s.disk.crash kept).log S).1
      = ((logFraming S).accepted 0 (pre ++ s.mem.entries)).filter (fun e => S < e.index) := by
  obtain ⟨L, hL, hdurable, hread⟩ := read_crashed hl kept
  have hall := hdurable s.mem.entries.length (by
    rw [take_length, hsync, hl.log])
  rw [take_length] at hall
  rw [readLog_entries, hread, hL.eq_of_length_le hall.length_le]

/-- An entry whose record is synced is read, if the records before it are contiguous from
    where the reader expects them. -/
theorem readLog_durable (hl : Layout s pre) {S i j : ℕ} {e : Entry} (hi : i = 1 ∨ i = S + 1)
    (hc : Contiguous i (pre ++ s.mem.entries)) (he : e ∈ s.mem.entries.take j)
    (hsync : (encodeEntries (pre ++ s.mem.entries.take j)).length ≤ s.disk.synced)
    (habove : S < e.index) (kept : ℕ) : e ∈ (readLog (s.disk.crash kept).log S).1 := by
  obtain ⟨L, hL, hdurable, hread⟩ := read_crashed hl kept
  have hrecord : ∀ x ∈ L, Record x := fun x hx => hl.record x (hL.subset hx)
  rw [readLog_entries, hread, accepted_contiguous hrecord hi (hc.shorten hL), mem_filter]
  exact ⟨(hdurable j hsync).subset (mem_append_right _ he), by simpa using habove⟩

/-- **A new SNAPSHOT next to the old raft.log**: the log is read with the new snapshot's
    index. -/
theorem openStore_between {snap : Snapshot} {data : Bytes} (hfits : SnapshotFits snap data)
    (hsmall : (SnapshotJson.marshal snap.membership).length ≤ maxMembership) (d : Disk)
    (kept : ℕ) :
    ∃ s', openStore ((d.apply (.renameSnapshot (snapshotFile snap data))).crash kept) = .ok s'
      ∧ s'.mem.snapshot = { snap with data := [] }
      ∧ s'.mem.entries = (readLog (d.crash kept).log snap.index).1 := by
  have hinspect := inspectSnapshot_snapshotFile hfits
  rw [if_pos hsmall] at hinspect
  obtain ⟨s', hs'⟩ := openStore_of_inspect
    (d := (d.apply (.renameSnapshot (snapshotFile snap data))).crash kept) hinspect
  obtain ⟨_, _, hread, hentries, _, _⟩ := openStore_ok hs'
  have hS : s'.mem.snapshot = { snap with data := [] } := by
    change inspectSnapshot (some (snapshotFile snap data)) = _ at hread
    rw [hinspect] at hread
    exact (congrArg Prod.fst (Except.ok.inj hread)).symm
  refine ⟨s', hs', hS, ?_⟩
  rw [hentries, hS]
  rfl

/-! ### A crash inside the installation of a snapshot -/

/-- The log a crash leaves next to the new snapshot holds entries that the installation
    discards: its records start at 1 and reach above the snapshot, and the entry at the
    snapshot's index has another term. -/
def Resurrects (s : Store) (snap : Snapshot) (kept : ℕ) : Prop :=
  s.mem.snapshot.index < snap.index ∧ s.mem.Conflicts snap
    ∧ ∃ e ∈ (readLog (s.disk.crash kept).log 0).1, snap.index < e.index

/-- What is read between the two renames is kept by the installation, unless it resurrects
    discarded entries. -/
private theorem between_subset (hl : Layout s pre) {snap : Snapshot}
    (new : s.mem.snapshot.index < snap.index) {kept : ℕ} (hno : ¬ Resurrects s snap kept) :
    (readLog (s.disk.crash kept).log snap.index).1 <+: s.mem.suffix snap := by
  rcases s.mem.suffix_cases new with ⟨hconf, hsuf⟩ | ⟨hout, hsuf⟩ | ⟨_, _, _, hsuf⟩
  · rw [hsuf, prefix_nil, readLog_above hl new, filter_eq_nil_iff]
    intro e he habove
    exact hno ⟨new, hconf, e, he, by simpa using habove⟩
  · have h := readLog_isPrefix hl (Nat.le_of_lt new) kept
    rwa [drop_eq_nil_of_le (by omega), ← hsuf] at h
  · rw [hsuf]
    exact readLog_isPrefix hl (Nat.le_of_lt new) kept

/-- **What comes back of an interrupted installation**: nothing that the complete one would
    have discarded, except between the two renames when the log resurrects it. -/
theorem install_recovered (hl : Layout s pre) {snap : Snapshot} {data : Except String Bytes}
    (h64 : snap.index < 256 ^ 8 ∧ snap.term < 256 ^ 8) (k kept : ℕ)
    (hopen : openStore ((s.disk.applyAll ((s.installSnapshot snap data).steps.take k)).crash
      kept) = .ok s')
    (hnew : s'.mem.snapshot.index = snap.index) :
    (∀ e ∈ s'.mem.entries, e ∈ (s.installSnapshot snap data).store.mem.entries)
      ↔ ¬ (k = 1 ∧ Resurrects s snap kept) := by
  obtain ⟨size, sum, hinspect, hentries, _, _⟩ := openStore_ok hopen
  rcases installSnapshot_cases s snap data with
    ⟨hsteps, hstore⟩ | ⟨bytes, hvalid, new, hsize, _, hsteps, hstore⟩
  · -- nothing is installed
    rw [hsteps, take_nil, Disk.applyAll_nil] at hinspect hentries
    have hS : s'.mem.snapshot = s.mem.snapshot := hl.snapshot _ hinspect
    have hpre : s'.mem.entries <+: s.mem.entries := by
      have := readLog_isPrefix hl (le_refl s.mem.snapshot.index) kept
      rw [Nat.sub_self, drop_zero] at this
      rwa [hentries, hS]
    rw [hstore]
    refine iff_of_true (fun e he => hpre.subset he) ?_
    rintro ⟨_, hlt, _⟩
    rw [hS] at hnew
    omega
  · rw [hstore]
    show (∀ e ∈ s'.mem.entries, e ∈ s.mem.suffix snap) ↔ _
    rw [hsteps] at hinspect hentries
    have hk : k = 0 ∨ k = 1 ∨ 2 ≤ k := by omega
    rcases hk with rfl | rfl | hk
    · -- before the rename of SNAPSHOT: the old snapshot is read
      have hS : s'.mem.snapshot = s.mem.snapshot := hl.snapshot _ hinspect
      rw [hS] at hnew
      omega
    · have hlog : ((s.disk.applyAll ((installSteps s snap bytes).take 1)).crash kept).log
          = (s.disk.crash kept).log := rfl
      rw [hlog, hnew] at hentries
      rw [hentries]
      constructor
      · rintro hsub ⟨_, _, hconf, e, he, habove⟩
        -- the entry above the snapshot is read, and the installation keeps none
        have hread : e ∈ (readLog (s.disk.crash kept).log snap.index).1 := by
          rw [readLog_above hl new, mem_filter]
          exact ⟨he, by simpa using habove⟩
        have hkept := hsub e hread
        rcases s.mem.suffix_cases new with ⟨_, hsuf⟩ | ⟨_, hsuf⟩ | ⟨x, hx, hterm, _⟩
        · rw [hsuf] at hkept; simp at hkept
        · rw [hsuf] at hkept; simp at hkept
        · obtain ⟨y, hy, hne⟩ := hconf
          rw [hx] at hy
          exact hne (by rw [← Option.some.inj hy, hterm])
      · intro hno e he
        exact (between_subset hl new (fun h => hno ⟨rfl, h⟩)).subset he
    · have hinst : Layout (s.installed snap bytes) [] :=
        hl.installed ⟨⟨hvalid.1, h64.1⟩, ⟨hvalid.2, h64.2⟩, hsize⟩ new
      have hdisk : s.disk.applyAll ((installSteps s snap bytes).take k)
          = (s.installed snap bytes).disk := by
        rw [take_of_length_le (by simpa [installSteps] using hk)]
        rfl
      rw [hdisk] at hentries hinspect
      have hS : s'.mem.snapshot.index = (s.installed snap bytes).mem.snapshot.index :=
        congrArg Snapshot.index (hinst.snapshot _ hinspect)
      have hpre := readLog_isPrefix hinst (le_refl _) kept
      rw [Nat.sub_self, drop_zero, ← hS, ← hentries] at hpre
      exact iff_of_true (fun e he => hpre.subset he) (by omega)

/-- If the store has no entry at the snapshot's index, or one of another term, then the log
    recovered with the new snapshot is empty. -/
theorem install_recovered_empty (hl : Layout s pre) {snap : Snapshot}
    {data : Except String Bytes} (h64 : snap.index < 256 ^ 8 ∧ snap.term < 256 ^ 8) {k kept : ℕ}
    (hopen : openStore ((s.disk.applyAll ((s.installSnapshot snap data).steps.take k)).crash
      kept) = .ok s')
    (hnew : s'.mem.snapshot.index = snap.index) (hlt : s.mem.snapshot.index < snap.index)
    (hdiff : s.mem.snapshot.index + s.mem.entries.length < snap.index ∨ s.mem.Conflicts snap)
    (hno : ¬ (k = 1 ∧ Resurrects s snap kept)) : s'.mem.entries = [] := by
  have hsub := (install_recovered hl h64 k kept hopen hnew).mpr hno
  obtain ⟨_, _, hinspect, _, _, _⟩ := openStore_ok hopen
  rcases installSnapshot_cases s snap data with
    ⟨hsteps, _⟩ | ⟨bytes, _, _, _, _, _, hstore⟩
  · rw [hsteps, take_nil, Disk.applyAll_nil] at hinspect
    have hS : s'.mem.snapshot = s.mem.snapshot := hl.snapshot _ hinspect
    rw [hS] at hnew
    omega
  · have hsuf : s.mem.suffix snap = [] := by
      rcases s.mem.suffix_cases hlt with ⟨_, hsuf⟩ | ⟨_, hsuf⟩ | ⟨e, he, hterm, _⟩
      · exact hsuf
      · exact hsuf
      · -- the entry there has the snapshot's term
        have hin := (List.getElem?_eq_some_iff.mp he).1
        rcases hdiff with hout | ⟨x, hx, hne⟩
        · omega
        · rw [he] at hx
          exact absurd (by rw [← Option.some.inj hx, hterm]) hne
    rw [hstore] at hsub
    rw [eq_nil_iff_forall_not_mem]
    intro e he
    have hkept : e ∈ s.mem.suffix snap := hsub e he
    rw [hsuf] at hkept
    simp at hkept

/-! ### Terms over whole runs -/

/-- The terms of the log never decrease, from the term of the snapshot on. -/
def Stable.Ascending (m : Stable) : Prop :=
  (m.snapshot.term :: m.entries.map Entry.term).Pairwise (· ≤ ·)

omit [SnapshotJson] in
theorem Stable.Ascending.shorten {m m' : Stable} (h : m.Ascending)
    (hterm : m'.snapshot.term = m.snapshot.term) (hp : m'.entries <+: m.entries) :
    m'.Ascending := by
  unfold Stable.Ascending at h ⊢
  rw [hterm]
  exact h.sublist ((hp.map _).sublist.cons_cons _)

omit [SnapshotJson] in
/-- The log behind one of its entries does not decrease from the term of that entry. -/
private theorem Stable.Ascending.behind {m : Stable} (h : m.Ascending) {i : ℕ} {e : Entry}
    (he : m.entries[i]? = some e) :
    (e.term :: (m.entries.drop (i + 1)).map Entry.term).Pairwise (· ≤ ·) := by
  obtain ⟨hi, rfl⟩ := List.getElem?_eq_some_iff.mp he
  have hdrop := drop_eq_getElem_cons hi
  have hall : (m.entries.map Entry.term).Pairwise (· ≤ ·) := (pairwise_cons.mp h).2
  have hbehind := hall.sublist (((drop_sublist i m.entries).map Entry.term))
  rwa [hdrop] at hbehind

private theorem ascending_installed (h : s.mem.Ascending) {snap : Snapshot} (data : Bytes)
    (new : s.mem.snapshot.index < snap.index) : (s.installed snap data).mem.Ascending := by
  show (snap.term :: (s.mem.suffix snap).map Entry.term).Pairwise (· ≤ ·)
  rcases s.mem.suffix_cases new with ⟨_, hsuf⟩ | ⟨_, hsuf⟩ | ⟨e, he, hterm, hsuf⟩
  · rw [hsuf]; exact pairwise_singleton _ _
  · rw [hsuf]; exact pairwise_singleton _ _
  · have hb := h.behind he
    rw [hterm, show snap.index - s.mem.snapshot.index - 1 + 1
      = snap.index - s.mem.snapshot.index by omega] at hb
    rwa [hsuf]

/-- The memory of the store if the interrupted call is completed. -/
def Op.target (s : Store) : Op → Stable
  | .persist u w _ => (s.persist u w).store.mem
  | .crash u w _ _ _ => (s.persist u w).store.mem
  | .reopen => s.mem

/-- A crash between the renames of SNAPSHOT and raft.log meets a log that does not resurrect
    discarded entries. -/
def Op.Clean (s : Store) : Op → Prop
  | .crash u w _ k kept => ∀ snap file, u.snapshot = some snap →
      ((s.persist u w).steps.take k).getLast? = some (.renameSnapshot file) →
      ¬ Resurrects s snap kept
  | _ => True

/-- A move of a call that leaves ascending terms keeps them ascending. -/
private theorem ascending_move {s0 t : Store} {u : Update} {w : Option (Except String Bytes)}
    {fs : List FileStep} (words : Word64 u) (hfinal : (s0.persist u w).store.mem.Ascending)
    (hm : Move s0 u w s fs t) (h : ∃ pre, Layout s pre ∧ s.mem.Ascending) :
    ∃ pre, Layout t pre ∧ t.mem.Ascending := by
  obtain ⟨pre, hl, hasc⟩ := h
  obtain ⟨pre', hl'⟩ := hl.move words hm
  refine ⟨pre', hl', ?_⟩
  cases hm with
  | hard hard hu => exact hasc
  | install snap data hu new => exact ascending_installed hasc data new.new
  | truncate i hu inside reached => exact hasc.shorten rfl (List.take_prefix _ _)
  | write e hu index term size final => exact hfinal.shorten (by rw [← final.2]; rfl) final.1
  | sync => exact hasc

/-- What is recovered from the files of a store between two moves. -/
theorem recovered_isPrefix (hl : Layout s pre) {kept : ℕ}
    (h : openStore (s.disk.crash kept) = .ok s') :
    s'.mem.snapshot = s.mem.snapshot ∧ s'.mem.entries <+: s.mem.entries := by
  obtain ⟨size, sum, hinspect, hentries, _, _⟩ := openStore_ok h
  have hS : s'.mem.snapshot = s.mem.snapshot := hl.snapshot _ hinspect
  have hp := readLog_isPrefix hl (le_refl s.mem.snapshot.index) kept
  rw [Nat.sub_self, drop_zero, ← hS, ← hentries] at hp
  exact ⟨hS, hp⟩

private theorem perform_ascending {op : Op} (hl : ∃ pre, Layout s pre) (hasc : s.mem.Ascending)
    (hclean : op.Clean s) (htarget : (op.target s).Ascending) (h : s.perform op = .ok s') :
    s'.mem.Ascending := by
  obtain ⟨pre, hl⟩ := hl
  cases op with
  | persist u w words =>
    rw [← Except.ok.inj h]
    exact htarget
  | crash u w words k kept =>
    have hpass := Moves.passes (I := fun s => ∃ pre, Layout s pre ∧ s.mem.Ascending)
      (ascending_move words htarget) (s.persist_moves u w) ⟨pre, hl, hasc⟩ k
    change openStore (s.crashed u w k kept) = .ok s' at h
    unfold Store.crashed at h
    rcases hpass with ⟨r, ⟨pre', hlr, hr⟩, hd⟩ | ⟨r, snap, data, ⟨pre', hlr, hr⟩, hm, hu, hlast, hd⟩
    · rw [← hd] at h
      obtain ⟨hS, hp⟩ := recovered_isPrefix hlr h
      exact hr.shorten (by rw [hS]) hp
    -- a new SNAPSHOT next to the old raft.log
    rw [hd] at h
    obtain ⟨_, _, hinspect, hentries, _, _⟩ := openStore_ok h
    have hS : s'.mem.snapshot = { snap with data := [] } :=
      (hlr.installed (hm.fits (words.snapshot snap hu)) hm.new).snapshot _ hinspect
    have hno : ¬ Resurrects r snap kept := by
      have hs := hclean snap _ hu hlast
      unfold Resurrects Stable.Conflicts Disk.crash at hs ⊢
      rwa [hm.snapshot, hm.entries, hm.log, hm.synced]
    have hp := between_subset hlr hm.new hno
    refine (ascending_installed hr data hm.new).shorten (by rw [hS]; rfl) ?_
    rw [hentries, hS]
    exact hp
  | reopen =>
    change openStore s.close.disk = .ok s' at h
    rw [s.close_disk] at h
    obtain ⟨hS, hp⟩ := recovered_isPrefix hl h
    exact hasc.shorten (by rw [hS]) hp

/-- A run of clean operations whose calls leave ascending terms keeps them ascending. -/
private theorem performAll_ascending (ops : List Op) :
    ∀ {s s' : Store}, (∃ pre, Layout s pre) → s.mem.Ascending →
      s.Along (fun s op => op.Clean s ∧ (op.target s).Ascending) ops →
      s.performAll ops = .ok s' → s'.mem.Ascending := by
  induction ops with
  | nil =>
    intro s s' _ hasc _ h
    rwa [← Except.ok.inj h]
  | cons op ops ih =>
    intro s s' hl hasc halong h
    rw [Store.performAll] at h
    cases hop : s.perform op with
    | error e => rw [hop] at h; simp at h
    | ok t =>
      rw [hop] at h
      exact ih (Store.perform_layout hl hop)
        (perform_ascending hl hasc halong.1.1 halong.1.2 hop) (halong.2 t hop) h

/-- **No discarded suffix comes back**, exactly when the crash does not fall between the two
    renames with a log that resurrects it; and over a run without such crashes the recovered
    terms never decrease. -/
theorem discarded_suffix_stays :
    (∀ (d : Disk) (s0 s s' : Store) (ops : List Op) (snap : Snapshot)
        (data : Except String Bytes) (k kept : ℕ),
      openStore d = .ok s0 → s0.performAll ops = .ok s →
      snap.index < 256 ^ 8 ∧ snap.term < 256 ^ 8 →
      openStore ((s.disk.applyAll ((s.installSnapshot snap data).steps.take k)).crash kept)
        = .ok s' →
      s'.mem.snapshot.index = snap.index →
        ((∀ e ∈ s'.mem.entries, e ∈ (s.installSnapshot snap data).store.mem.entries)
          ↔ ¬ (k = 1 ∧ Resurrects s snap kept))
        ∧ (s.mem.snapshot.index < snap.index →
            s.mem.snapshot.index + s.mem.entries.length < snap.index ∨ s.mem.Conflicts snap →
            ¬ (k = 1 ∧ Resurrects s snap kept) → s'.mem.entries = []))
    ∧ ∀ (d : Disk) (s0 s : Store) (ops : List Op), openStore d = .ok s0 → s0.mem.Ascending →
        s0.Along (fun s op => op.Clean s ∧ (op.target s).Ascending) ops →
        s0.performAll ops = .ok s → s.mem.Ascending := by
  have hstart : ∀ {d : Disk} {s0 : Store}, openStore d = .ok s0 → ∃ pre, Layout s0 pre := by
    intro d s0 h
    obtain ⟨pre, hl, _⟩ := openStore_layout h
    exact ⟨pre, hl⟩
  constructor
  · intro d s0 s s' ops snap data k kept h0 hrun h64 hopen hnew
    obtain ⟨pre, hl⟩ := Store.performAll_layout ops (hstart h0) hrun
    exact ⟨install_recovered hl h64 k kept hopen hnew,
      install_recovered_empty hl h64 hopen hnew⟩
  · intro d s0 s ops h0 hasc halong hrun
    exact performAll_ascending ops (hstart h0) hasc halong hrun

end Json

/-! ### Runs on fixed inputs -/

/-- A codec that meets the one requirement on `encoding/json`, for runs on fixed inputs. -/
@[reducible] def unarySnapshotJson : SnapshotJson where
  marshal m := List.replicate (Encodable.encode (m.voters, m.jointVoters, m.index)) 0
  unmarshal data :=
    match (Encodable.decode data.length : Option (List ℕ × List ℕ × ℕ)) with
    | some (voters, jointVoters, index) =>
        .ok { voters := voters, jointVoters := jointVoters, index := index }
    | none => .error "unexpected end of JSON input"
  unmarshal_marshal m := by simp

theorem openStore_empty [SnapshotJson] : openStore {} = .ok {} := by
  have hread : (logFraming 0).read 0 [] = [] := Framing.read_of_none (Framing.next_nil 0)
  simp [openStore, inspectSnapshot, readLog_eq, hread, placed, encodeEntries]

theorem unarySnapshotJson_empty :
    (unarySnapshotJson.marshal {}).length ≤ maxMembership := by
  have hcode : Encodable.encode (([] : List ℕ), ([] : List ℕ), 0) = 0 := by
    simp [Encodable.encode_prod_val, Nat.pair]
  show (replicate (Encodable.encode (([] : List ℕ), ([] : List ℕ), 0)) (0 : UInt8)).length ≤ _
  rw [hcode]
  exact Nat.zero_le _

/-- Three entries of term 1, the first update of a fresh store. -/
def firstEntries : Update :=
  { entries := [{ index := 1, term := 1, data := [] }, { index := 2, term := 1, data := [] },
      { index := 3, term := 1, data := [] }] }

theorem firstEntries_words : Word64 firstEntries := by
  constructor
  · decide
  · intro snap h
    simp [firstEntries] at h

/-- A snapshot at index `index` of term `term`, without data. -/
def bareSnapshot (index term : ℕ) : Snapshot := { index := index, term := term }

/-- The same crash with a snapshot that agrees with the log. -/
theorem discarded_suffix_stays_first :
    letI := unarySnapshotJson
    ∃ s s' : Store,
      Store.performAll {} [.persist firstEntries none firstEntries_words] = .ok s
      ∧ openStore ((s.disk.applyAll
          ((s.installSnapshot (bareSnapshot 2 1) (.ok [])).steps.take 1)).crash 0) = .ok s'
      ∧ (∀ e ∈ s'.mem.entries,
          e ∈ (s.installSnapshot (bareSnapshot 2 1) (.ok [])).store.mem.entries)
      ∧ s.mem.Ascending := by
  let _ := unarySnapshotJson
  let s : Store := (Store.persist {} firstEntries none).store
  have hrun : Store.performAll {} [.persist firstEntries none firstEntries_words] = .ok s := rfl
  have hfits : SnapshotFits (bareSnapshot 2 1) [] := by
    constructor <;> decide
  obtain ⟨s', hopen, hsnap, _⟩ := openStore_between hfits unarySnapshotJson_empty s.disk 0
  have hagree : ¬ Resurrects s (bareSnapshot 2 1) 0 := by
    rintro ⟨_, ⟨e, he, hterm⟩, _⟩
    have hentry : e = { index := 2, term := 1, data := [] } := (Option.some.inj he).symm
    exact hterm (by rw [hentry]; rfl)
  refine ⟨s, s', hrun, hopen, ?_, ?_⟩
  · exact ((discarded_suffix_stays.1 {} {} s s' _ (bareSnapshot 2 1) (.ok []) 1 0 openStore_empty
      hrun (by decide) hopen (by rw [hsnap])).1).mpr (fun h => hagree h.2)
  · refine discarded_suffix_stays.2 {} {} s [.persist firstEntries none firstEntries_words]
      openStore_empty ?_ ⟨⟨trivial, ?_⟩, ?_⟩ hrun
    · exact pairwise_singleton _ _
    · show (Stable.Ascending (Store.persist {} firstEntries none).store.mem)
      unfold Stable.Ascending
      decide
    · intro t _
      trivial

/-- **The first compaction, cut between the renames**: next to a snapshot of term 2 at index
    2 a fresh log gives back entry 3, of term 1, which the installation discards. -/
theorem conflicting_suffix_returns :
    letI := unarySnapshotJson
    ∃ s s' : Store, openStore {} = .ok {}
      ∧ Store.performAll {} [.persist firstEntries none firstEntries_words] = .ok s
      ∧ openStore ((s.disk.applyAll
          ((s.installSnapshot (bareSnapshot 2 2) (.ok [])).steps.take 1)).crash 0) = .ok s'
      ∧ s'.mem.snapshot.index = 2
      ∧ (s.installSnapshot (bareSnapshot 2 2) (.ok [])).store.mem.entries = []
      ∧ s'.mem.entries = [{ index := 3, term := 1, data := [] }]
      ∧ ¬ s'.mem.Ascending := by
  let _ := unarySnapshotJson
  let s : Store := (Store.persist {} firstEntries none).store
  have hrun : Store.performAll {} [.persist firstEntries none firstEntries_words] = .ok s := rfl
  obtain ⟨pre, hl0, _⟩ := openStore_layout openStore_empty
  obtain ⟨pre, hl⟩ := Store.performAll_layout _ ⟨pre, hl0⟩ hrun
  have hpre : pre = [] := length_eq_zero_iff.mp (Nat.le_zero.mp hl.pre_le)
  have hfits : SnapshotFits (bareSnapshot 2 2) [] := by
    constructor <;> decide
  obtain ⟨s', hopen, hsnap, hread⟩ := openStore_between hfits unarySnapshotJson_empty s.disk 0
  -- the log starts at 1, so all of it is read, and entry 3 lies above the snapshot
  have hentries : s'.mem.entries = [{ index := 3, term := 1, data := [] }] := by
    rw [hread, readLog_synced hl rfl, hpre, nil_append,
      accepted_contiguous (i := 1) (fun e he => hl.record e (mem_append_right _ he)) (.inl rfl)
        hl.index]
    rfl
  refine ⟨s, s', openStore_empty, hrun, hopen, by rw [hsnap]; rfl, rfl, hentries, ?_⟩
  unfold Stable.Ascending
  rw [hentries, hsnap]
  decide

end Lsmdb.RaftStore
