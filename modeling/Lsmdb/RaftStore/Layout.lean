import Lsmdb.RaftStore.Store

namespace Lsmdb.RaftStore

open Lsmdb.Raft Lsmdb.Binary List

/-!
# Raft store — what raft.log holds

The log file of an open store is the records of the entries in memory, after older records
that start at index 1 if the log was never rewritten since (`Layout`).  Every store that
`Open` returns has this layout, whatever files it found, and every call keeps it
(`openStore_layout`, `Layout.persist`).  What `readLog` gets of such a file, whole or cut,
depends on where its records start: `read_contiguous`, `read_refused`, `read_gap`.
-/

/-! ### Contiguous records -/

/-- The indexes of the entries count up from `i`. -/
def Contiguous : ℕ → List Entry → Prop
  | _, [] => True
  | i, e :: es => e.index = i ∧ Contiguous (i + 1) es

theorem Contiguous.append_iff {a b : List Entry} :
    ∀ {i : ℕ}, Contiguous i (a ++ b) ↔ Contiguous i a ∧ Contiguous (i + a.length) b := by
  induction a with
  | nil => intro i; simp [Contiguous]
  | cons e a ih =>
    intro i
    simp only [cons_append, Contiguous, ih, length_cons, and_assoc]
    rw [show i + 1 + a.length = i + (a.length + 1) by omega]

theorem Contiguous.shorten {i : ℕ} {a b : List Entry} (h : Contiguous i b) (hp : a <+: b) :
    Contiguous i a := by
  obtain ⟨t, rfl⟩ := hp
  exact (Contiguous.append_iff.mp h).1

theorem Contiguous.bounds {es : List Entry} :
    ∀ {i : ℕ}, Contiguous i es → ∀ e ∈ es, i ≤ e.index ∧ e.index < i + es.length := by
  induction es with
  | nil => intro i _ e he; simp at he
  | cons x es ih =>
    intro i h e he
    rw [length_cons]
    rcases mem_cons.mp he with rfl | he
    · have := h.1
      omega
    · have := ih h.2 e he
      omega

theorem Contiguous.getElem {es : List Entry} {k : ℕ} {e : Entry} :
    ∀ {i : ℕ}, Contiguous i es → es[k]? = some e → e.index = i + k := by
  induction es generalizing k with
  | nil => intro i _ h; simp at h
  | cons x es ih =>
    intro i h he
    cases k with
    | zero =>
      simp only [getElem?_cons_zero, Option.some.injEq] at he
      rw [← he, h.1]
      rfl
    | succ k =>
      have := ih h.2 (by simpa using he)
      omega

theorem Contiguous.drop {es : List Entry} {i : ℕ} (h : Contiguous i es) (k : ℕ) :
    Contiguous (i + k) (es.drop k) := by
  by_cases hk : k ≤ es.length
  · rw [← take_append_drop k es, Contiguous.append_iff, length_take,
      Nat.min_eq_left hk] at h
    exact h.2
  · rw [drop_eq_nil_of_le (by omega)]
    trivial

/-- What both `Store.append` and `readLog` ask of an entry on its own. -/
structure Record (e : Entry) : Prop where
  fits : EntryFits e
  term : e.term ≠ 0
  size : e.data.length ≤ maxEntryData

theorem headerOk_iff {S previous index term length : ℕ} :
    headerOk S previous index term length ↔
      length ≤ maxEntryData ∧ term ≠ 0 ∧ (previous = 0 ∨ index = previous + 1)
        ∧ (previous ≠ 0 ∨ index = 1 ∨ index = S + 1) := by
  simp only [headerOk, Bool.and_eq_true, Bool.not_eq_true', decide_eq_false_iff_not]
  omega

private theorem accepted_after (S : ℕ) {es : List Entry} (hr : ∀ e ∈ es, Record e) :
    ∀ {previous : ℕ}, previous ≠ 0 → Contiguous (previous + 1) es →
      (logFraming S).accepted previous es = es := by
  induction es with
  | nil => intro previous _ _; rfl
  | cons e es ih =>
    intro previous h0 hc
    have he := hr e (by simp)
    have hok : (logFraming S).accepts previous e :=
      headerOk_iff.mpr ⟨he.size, he.term, .inr hc.1, .inl h0⟩
    rw [Framing.accepted, if_pos hok]
    have hadv : (logFraming S).advance previous e = previous + 1 := hc.1
    rw [hadv, ih (fun x hx => hr x (by simp [hx])) (by omega) hc.2]

/-- Records that start where the reader expects them are all accepted. -/
theorem accepted_contiguous {S i : ℕ} {es : List Entry} (hr : ∀ e ∈ es, Record e)
    (hi : i = 1 ∨ i = S + 1) (hc : Contiguous i es) : (logFraming S).accepted 0 es = es := by
  cases es with
  | nil => rfl
  | cons e es =>
    have he := hr e (by simp)
    have hok : (logFraming S).accepts 0 e :=
      headerOk_iff.mpr ⟨he.size, he.term, .inl rfl, .inr (by rw [hc.1]; exact hi)⟩
    rw [Framing.accepted, if_pos hok]
    have hadv : (logFraming S).advance 0 e = i := hc.1
    rw [hadv, accepted_after S (fun x hx => hr x (by simp [hx])) (by omega) hc.2]

theorem accepted_refused {S i : ℕ} {es : List Entry} (h1 : i ≠ 1) (hS : i ≠ S + 1)
    (hc : Contiguous i es) : (logFraming S).accepted 0 es = [] := by
  cases es with
  | nil => rfl
  | cons e es =>
    have hno : ¬ (logFraming S).accepts 0 e := by
      intro h
      have := (headerOk_iff.mp h).2.2.2
      have := hc.1
      omega
    rw [Framing.accepted, if_neg hno]

private theorem accepted_gap_after {S i : ℕ} {a b : List Entry} (hr : ∀ e ∈ a, Record e)
    (hb : Contiguous i b) :
    ∀ {previous : ℕ}, previous ≠ 0 → Contiguous (previous + 1) a → i ≠ previous + 1 + a.length →
      (logFraming S).accepted previous (a ++ b) = a := by
  induction a with
  | nil =>
    intro previous h0 _ hi
    cases b with
    | nil => rfl
    | cons e b =>
      have hno : ¬ (logFraming S).accepts previous e := by
        intro h
        have := (headerOk_iff.mp h).2.2.1
        have := hb.1
        simp only [length_nil] at hi
        omega
      rw [nil_append, Framing.accepted, if_neg hno]
  | cons e a ih =>
    intro previous h0 hc hi
    have he := hr e (by simp)
    have hok : (logFraming S).accepts previous e :=
      headerOk_iff.mpr ⟨he.size, he.term, .inr hc.1, .inl h0⟩
    have hadv : (logFraming S).advance previous e = previous + 1 := hc.1
    rw [cons_append, Framing.accepted, if_pos hok, hadv,
      ih (fun x hx => hr x (by simp [hx])) (by omega) hc.2 (by rw [length_cons] at hi; omega)]

/-- **A gap ends the reading**: records that do not continue the ones before are refused. -/
theorem accepted_gap {S i : ℕ} {a b : List Entry} (hr : ∀ e ∈ a, Record e) (hne : a ≠ [])
    (ha : Contiguous 1 a) (hb : Contiguous i b) (hi : i ≠ 1 + a.length) :
    (logFraming S).accepted 0 (a ++ b) = a := by
  cases a with
  | nil => exact absurd rfl hne
  | cons e a =>
    have he := hr e (by simp)
    have hok : (logFraming S).accepts 0 e :=
      headerOk_iff.mpr ⟨he.size, he.term, .inl rfl, .inr (.inl ha.1)⟩
    have hadv : (logFraming S).advance 0 e = 1 := ha.1
    rw [cons_append, Framing.accepted, if_pos hok, hadv,
      accepted_gap_after (fun x hx => hr x (by simp [hx])) hb (by omega) ha.2
        (by rw [length_cons] at hi; omega)]

private theorem contiguous_of_accepted_after {S : ℕ} {es : List Entry} :
    ∀ {previous : ℕ}, previous ≠ 0 → (logFraming S).accepted previous es = es →
      Contiguous (previous + 1) es := by
  induction es with
  | nil => intro previous _ _; trivial
  | cons e es ih =>
    intro previous h0 h
    rw [Framing.accepted] at h
    split at h
    · rename_i hok
      have hindex : e.index = previous + 1 := by
        rcases (headerOk_iff.mp hok).2.2.1 with h | h
        · exact absurd h h0
        · exact h
      have hadv : (logFraming S).advance previous e = previous + 1 := hindex
      rw [hadv] at h
      exact ⟨hindex, ih (by omega) (cons.inj h).2⟩
    · simp at h

/-- An accepted sequence is contiguous from 1 or from right above the snapshot. -/
theorem contiguous_of_accepted {S : ℕ} {es : List Entry}
    (h : (logFraming S).accepted 0 es = es) : Contiguous 1 es ∨ Contiguous (S + 1) es := by
  cases es with
  | nil => exact .inl trivial
  | cons e es =>
    rw [Framing.accepted] at h
    split at h
    · rename_i hok
      have hstart : e.index = 1 ∨ e.index = S + 1 := by
        rcases (headerOk_iff.mp hok).2.2.2 with h0 | h0
        · exact absurd rfl h0
        · exact h0
      have hadv : (logFraming S).advance 0 e = e.index := rfl
      rw [hadv] at h
      have hc := contiguous_of_accepted_after (by omega) (cons.inj h).2
      rcases hstart with hi | hi
      · rw [hi] at hc
        exact .inl ⟨hi, hc⟩
      · rw [hi] at hc
        exact .inr ⟨hi, hc⟩
    · simp at h

private theorem record_of_accepted {S : ℕ} {es : List Entry} (hv : ∀ e ∈ es, EntryFits e) :
    ∀ {previous : ℕ}, (logFraming S).accepted previous es = es → ∀ e ∈ es, Record e := by
  induction es with
  | nil => intro previous _ e he; simp at he
  | cons x es ih =>
    intro previous h e he
    rw [Framing.accepted] at h
    split at h
    · rename_i hok
      have hx := headerOk_iff.mp hok
      rcases mem_cons.mp he with rfl | he
      · exact ⟨hv e (by simp), hx.2.1, hx.1⟩
      · exact ih (fun y hy => hv y (by simp [hy])) (cons.inj h).2 e he
    · simp at h

/-! ### Entries above the snapshot -/

@[simp] theorem encodeEntries_nil : encodeEntries [] = [] := rfl

@[simp] theorem encodeEntries_cons (e : Entry) (es : List Entry) :
    encodeEntries (e :: es) = encodeEntry e ++ encodeEntries es := rfl

@[simp] theorem encodeEntries_append (a b : List Entry) :
    encodeEntries (a ++ b) = encodeEntries a ++ encodeEntries b := List.flatMap_append

theorem encodeAll_logFraming (S : ℕ) (es : List Entry) :
    (logFraming S).encodeAll es = encodeEntries es := rfl

@[simp] theorem length_recordOffsets (es : List Entry) :
    ∀ pos, (recordOffsets pos es).length = es.length := by
  induction es with
  | nil => intro pos; rfl
  | cons e es ih => intro pos; simp [recordOffsets, ih]

theorem recordOffsets_append (a b : List Entry) :
    ∀ pos, recordOffsets pos (a ++ b)
      = recordOffsets pos a ++ recordOffsets (pos + (encodeEntries a).length) b := by
  induction a with
  | nil => intro pos; simp [recordOffsets]
  | cons e a ih =>
    intro pos
    simp only [cons_append, recordOffsets, ih, encodeEntries_cons, length_append]
    rw [Nat.add_assoc]

theorem recordOffsets_getD {es : List Entry} {k : ℕ} (hk : k < es.length) (pos : ℕ) :
    (recordOffsets pos es).getD k 0 = pos + (encodeEntries (es.take k)).length := by
  induction es generalizing k pos with
  | nil => simp at hk
  | cons e es ih =>
    cases k with
    | zero => simp [recordOffsets]
    | succ k =>
      rw [recordOffsets, getD_cons_succ, ih (by simpa using hk)]
      simp [Nat.add_assoc]

theorem placed_map_fst (pos : ℕ) (es : List Entry) : (placed pos es).map Prod.fst = es := by
  rw [placed, map_fst_zip (by simp)]

theorem placed_map_snd (pos : ℕ) (es : List Entry) :
    (placed pos es).map Prod.snd = recordOffsets pos es := by
  rw [placed, map_snd_zip (by simp)]

/-- Of contiguous records, those above `S` are the ones behind a certain place. -/
theorem filter_placed {es : List Entry} {S : ℕ} :
    ∀ {i : ℕ}, Contiguous i es → ∀ pos,
      (placed pos es).filter (fun p => S < p.1.index)
        = placed (pos + (encodeEntries (es.take (S + 1 - i))).length) (es.drop (S + 1 - i)) := by
  induction es with
  | nil => intro i _ pos; simp [placed]
  | cons e es ih =>
    intro i h pos
    have hindex := h.1
    rw [show placed pos (e :: es) = (e, pos) :: placed (pos + (encodeEntry e).length) es from rfl,
      filter_cons]
    by_cases hS : S < e.index
    · have hzero : S + 1 - i = 0 := by omega
      have htail : S + 1 - (i + 1) = 0 := by omega
      rw [if_pos (by simpa using hS), ih h.2, hzero, htail]
      simp [placed, recordOffsets]
    · obtain ⟨k, hk⟩ : ∃ k, S + 1 - i = k + 1 := ⟨S - i, by omega⟩
      have htail : S + 1 - (i + 1) = k := by omega
      rw [if_neg (by simpa using hS), ih h.2, hk, htail]
      simp [Nat.add_assoc]

theorem filter_contiguous {es : List Entry} {S i : ℕ} (h : Contiguous i es) :
    es.filter (fun e => S < e.index) = es.drop (S + 1 - i) := by
  have hf := congrArg (map Prod.fst) (filter_placed h (S := S) 0)
  rw [placed_map_fst] at hf
  rw [← hf]
  conv_lhs => rw [← placed_map_fst 0 es]
  rw [filter_map]
  rfl

private theorem split_records {S : ℕ} {rs : List Entry}
    (h : Contiguous 1 rs ∨ Contiguous (S + 1) rs) :
    ∃ pre entries, rs = pre ++ entries
      ∧ ((placed 0 rs).filter (fun p => S < p.1.index)).map Prod.fst = entries
      ∧ ((placed 0 rs).filter (fun p => S < p.1.index)).map Prod.snd
          = recordOffsets (encodeEntries pre).length entries
      ∧ Contiguous 1 pre ∧ pre.length ≤ S ∧ Contiguous (S + 1) entries
      ∧ (pre = [] ∨ pre.length = S ∨ entries = []) := by
  rcases h with h | h
  · refine ⟨rs.take S, rs.drop S, (take_append_drop S rs).symm, ?_, ?_, ?_, ?_, ?_, ?_⟩
    · rw [filter_placed h, placed_map_fst]
      rfl
    · rw [filter_placed h, placed_map_snd, Nat.zero_add]
      rfl
    · exact h.shorten (List.take_prefix _ _)
    · exact length_take_le _ _
    · rw [Nat.add_comm]
      exact h.drop S
    · by_cases hS : S ≤ rs.length
      · exact .inr (.inl (by rw [length_take, Nat.min_eq_left hS]))
      · exact .inr (.inr (drop_eq_nil_of_le (by omega)))
  · refine ⟨[], rs, rfl, ?_, ?_, trivial, Nat.zero_le _, h, .inl rfl⟩
    · rw [filter_placed h, placed_map_fst, Nat.sub_self, drop_zero]
    · rw [filter_placed h, placed_map_snd, Nat.sub_self, drop_zero]
      rfl

theorem readLog_entries (file : Bytes) (S : ℕ) :
    (readLog file S).1 = ((logFraming S).read 0 file).filter (fun e => S < e.index) := by
  rw [readLog_eq]
  conv_rhs => rw [← placed_map_fst 0 ((logFraming S).read 0 file)]
  rw [filter_map]
  rfl

/-! ### The layout -/

section Json
variable [SnapshotJson]

/-- The files of an open store.  `pre` are the records in front of those of the entries in
    memory: none, or the records from 1 up to the snapshot or to somewhere below it. -/
structure Layout (s : Store) (pre : List Entry) : Prop where
  log : s.disk.log = encodeEntries (pre ++ s.mem.entries)
  synced : s.disk.synced ≤ s.disk.log.length
  offsets : s.offsets = recordOffsets (encodeEntries pre).length s.mem.entries
  pre_index : Contiguous 1 pre
  pre_le : pre.length ≤ s.mem.snapshot.index
  index : Contiguous (s.mem.snapshot.index + 1) s.mem.entries
  record : ∀ e ∈ pre ++ s.mem.entries, Record e
  snapshot : ∀ r, inspectSnapshot s.disk.snapshot = .ok r → r.1 = s.mem.snapshot
  hard : s.mem.hard = s.disk.hard.getD {}

variable {s : Store} {pre : List Entry}

/-- **Every store that `Open` returns** has the layout, and if records are missing below the
    snapshot then it has no entries. -/
theorem openStore_layout {d : Disk} (h : openStore d = .ok s) :
    ∃ pre, Layout s pre
      ∧ (pre = [] ∨ pre.length = s.mem.snapshot.index ∨ s.mem.entries = []) := by
  unfold openStore at h
  cases hsnap : inspectSnapshot d.snapshot with
  | error e => rw [hsnap] at h; simp at h
  | ok r =>
    obtain ⟨snap, size, checksum⟩ := r
    rw [hsnap] at h
    simp only [Except.ok.injEq] at h
    obtain ⟨hfits, hacc, hprefix⟩ := (logFraming snap.index).read_spec 0 d.log
    have hrecord := record_of_accepted hfits hacc
    rw [encodeAll_logFraming] at hprefix
    have htake : d.log.take (encodeEntries ((logFraming snap.index).read 0 d.log)).length
        = encodeEntries ((logFraming snap.index).read 0 d.log) :=
      (prefix_iff_eq_take.mp hprefix).symm
    obtain ⟨pre, entries, hrs, hfst, hsnd, hpre, hlen, hindex, hgap⟩ :=
      split_records (contiguous_of_accepted hacc)
    rw [readLog_eq] at h
    rw [hfst, hsnd, htake] at h
    refine ⟨pre, ?_, ?_⟩
    · rw [← h]
      constructor
      · dsimp only
        rw [hrs]
      · exact Nat.min_le_right _ _
      · rfl
      · exact hpre
      · exact hlen
      · exact hindex
      · intro e he
        exact hrecord e (by rw [hrs]; exact he)
      · intro r hr
        rw [hsnap] at hr
        rw [← Except.ok.inj hr]
      · rfl
    · rw [← h]
      exact hgap

end Json

end Lsmdb.RaftStore
