import Lsmdb.RaftStore.Recovery

namespace Lsmdb.RaftStore

open Lsmdb.Raft Lsmdb.Binary List

/-!
# Raft store — raft.log cut at any byte

What `readLog` returns of a log of records that ends anywhere: in a header, in the data, in a
checksum or between two records.  `readLog_cut` gives the entries, their offsets and the
valid end, and what is read again once the file was truncated there and more records were
written.  The checksum of the records is any function of their bytes.
-/

/-- Where the record of the entry at place `k` starts in a file of records. -/
def recordStart (checksum : Bytes → UInt32) (es : List Entry) (k : ℕ) : ℕ :=
  (encodeEntriesWith checksum (es.take k)).length

section Checksum
variable {checksum : Bytes → UInt32}

theorem encodeEntriesWith_append (a b : List Entry) :
    encodeEntriesWith checksum (a ++ b)
      = encodeEntriesWith checksum a ++ encodeEntriesWith checksum b :=
  flatMap_append

/-- The lengths of records do not depend on the checksum. -/
theorem length_encodeEntriesWith (es : List Entry) :
    (encodeEntriesWith checksum es).length = (encodeEntries es).length := by
  induction es with
  | nil => rfl
  | cons e es ih =>
    rw [encodeEntries_cons, length_append, length_encodeEntry, ← ih]
    simp [encodeEntriesWith]

/-! ### Positions -/

variable (checksum) in
theorem placed_eq_zipIdx (es : List Entry) :
    placed 0 es = es.zipIdx.map (fun p => (p.1, recordStart checksum es p.2)) := by
  have hoffsets : ∀ pos, recordOffsets pos es
      = (range es.length).map (fun k => pos + recordStart checksum es k) := by
    induction es with
    | nil => intro pos; rfl
    | cons e es ih =>
      intro pos
      rw [recordOffsets, ih, length_cons, range_succ_eq_map, map_cons,
        map_map]
      congr 1
      apply map_congr_left
      intro k _
      simp only [recordStart, Function.comp_apply, take_succ_cons, length_encodeEntriesWith,
        encodeEntries_cons, length_append]
      omega
  rw [placed, hoffsets, zip_map_right, zipIdx_eq_zip_range', range_eq_range']
  apply map_congr_left
  rintro ⟨e, k⟩ _
  simp

/-- What `readLog` returns of a file, by the records it gets there. -/
theorem readLogWith_of_read {file : Bytes} {S : ℕ} {rs : List Entry}
    (h : (logFramingWith checksum S).read 0 file = rs) :
    readLogWith checksum file S
      = (rs.filter (fun e => S < e.index),
         (rs.zipIdx.filter (fun p => S < p.1.index)).map (fun p => recordStart checksum rs p.2),
         recordStart checksum rs rs.length) := by
  have hentries : ((placed 0 rs).filter (fun p => S < p.1.index)).map Prod.fst
      = rs.filter (fun e => S < e.index) := by
    conv_rhs => rw [← placed_map_fst 0 rs, filter_map]
    rfl
  have hoffsets : ((placed 0 rs).filter (fun p => S < p.1.index)).map Prod.snd
      = (rs.zipIdx.filter (fun p => S < p.1.index)).map
          (fun p => recordStart checksum rs p.2) := by
    rw [placed_eq_zipIdx checksum, filter_map, map_map]
    rfl
  have hend : (encodeEntries rs).length = recordStart checksum rs rs.length := by
    rw [recordStart, take_length, length_encodeEntriesWith]
  rw [readLogWith_eq, h, hentries, hoffsets, hend]

/-! ### Whole and cut files -/

variable {S first : ℕ} {es : List Entry}

private theorem accepted_all (hfirst : first = 1 ∨ first = S + 1) (hindex : Contiguous first es)
    (hrecord : ∀ e ∈ es, Record e) : (logFramingWith checksum S).accepted 0 es = es := by
  have hsame := Framing.accepted_congr (F := logFramingWith checksum S) (G := logFraming S)
    (fun _ _ => rfl) (fun _ _ => rfl) es 0
  rw [hsame]
  exact accepted_contiguous hrecord hfirst hindex

/-- A whole file of contiguous records is read to its end. -/
theorem read_whole (hfirst : first = 1 ∨ first = S + 1) (hindex : Contiguous first es)
    (hrecord : ∀ e ∈ es, Record e) :
    (logFramingWith checksum S).read 0 (encodeEntriesWith checksum es) = es := by
  have hread := Framing.read_encodeAll (F := logFramingWith checksum S)
    (fun e he => (hrecord e he).fits) 0
  rw [accepted_all hfirst hindex hrecord] at hread
  exact hread

omit checksum in
/-- Of a file cut at byte `n` exactly the complete records are read, the same ones for every
    checksum. -/
theorem read_cut (hfirst : first = 1 ∨ first = S + 1) (hindex : Contiguous first es)
    (hrecord : ∀ e ∈ es, Record e) (n : ℕ) :
    ∃ m ≤ es.length, ∀ checksum,
      (∀ k ≤ es.length, recordStart checksum es k ≤ n ↔ k ≤ m)
        ∧ (logFramingWith checksum S).read 0 ((encodeEntriesWith checksum es).take n)
            = es.take m := by
  obtain ⟨m, hm, -, hfit⟩ := Framing.within_eq_take (F := logFraming S) es n
  refine ⟨m, hm, fun checksum => ?_⟩
  have hsame : ∀ k ≤ es.length, recordStart checksum es k ≤ n ↔ k ≤ m := by
    intro k hk
    rw [recordStart, length_encodeEntriesWith]
    exact hfit k hk
  refine ⟨hsame, ?_⟩
  obtain ⟨m', hm', hwithin, hfit'⟩ :=
    Framing.within_eq_take (F := logFramingWith checksum S) es n
  have hm_eq : m' = m := by
    have h1 := (hsame m' hm').mp ((hfit' m' hm').mpr (le_refl m'))
    have h2 := (hfit' m hm).mp ((hsame m hm).mpr (le_refl m))
    omega
  have hread := Framing.read_take (F := logFramingWith checksum S) es
    (fun e he => (hrecord e he).fits) 0 n
  rw [hwithin, hm_eq, accepted_all hfirst (hindex.shorten (List.take_prefix _ _))
    (fun e he => hrecord e (mem_of_mem_take he))] at hread
  exact hread

variable (checksum) in
/-- A log that starts right above the snapshot is returned whole. -/
theorem readLogWith_above (hindex : Contiguous (S + 1) es) (hrecord : ∀ e ∈ es, Record e) :
    readLogWith checksum (encodeEntriesWith checksum es) S
      = (es, (List.range es.length).map (recordStart checksum es),
         recordStart checksum es es.length) := by
  have habove : ∀ e ∈ es, S < e.index := fun e he => (hindex.bounds e he).1
  have hentries : es.filter (fun e => S < e.index) = es :=
    filter_eq_self.mpr fun e he => decide_eq_true (habove e he)
  have hplaces : es.zipIdx.filter (fun p => S < p.1.index) = es.zipIdx := by
    apply filter_eq_self.mpr
    rintro ⟨e, k⟩ hp
    exact decide_eq_true (habove e (fst_mem_of_mem_zipIdx hp))
  rw [readLogWith_of_read (read_whole (.inr rfl) hindex hrecord), hentries, hplaces,
    range_eq_range', ← zipIdx_map_snd, map_map]
  rfl

/-- The first `m` places start where they start in the whole file. -/
private theorem recordStart_take {m k : ℕ} (hk : k ≤ m) :
    recordStart checksum (es.take m) k = recordStart checksum es k := by
  rw [recordStart, recordStart, take_take, Nat.min_eq_left hk]

/-- The complete records of a cut file are its bytes up to the valid end. -/
private theorem take_recordStart {n m : ℕ} (hfit : recordStart checksum es m ≤ n) :
    ((encodeEntriesWith checksum es).take n).take (recordStart checksum es m)
      = encodeEntriesWith checksum (es.take m) := by
  have hsplit : encodeEntriesWith checksum es
      = encodeEntriesWith checksum (es.take m) ++ encodeEntriesWith checksum (es.drop m) := by
    rw [← encodeEntriesWith_append, take_append_drop]
  rw [take_take, Nat.min_eq_left hfit, hsplit]
  exact take_left

end Checksum

/-! ### The store -/

section Json
variable [SnapshotJson]

omit [SnapshotJson] in
/-- Entries that continue the store are appended without an error, behind what the file
    holds. -/
theorem Store.append_continues (es : List Entry) :
    ∀ s : Store, (∀ e ∈ es, Record e) →
      Contiguous (s.mem.snapshot.index + s.mem.entries.length + 1) es →
      (s.append es).err = none
        ∧ (s.append es).store.mem.entries = s.mem.entries ++ es
        ∧ (s.append es).store.disk.log = s.disk.log ++ encodeEntries es := by
  induction es with
  | nil =>
    intro s _ _
    refine ⟨rfl, ?_, ?_⟩
    · rw [append_nil]
      rfl
    · rw [encodeEntries_nil, append_nil]
      rfl
  | cons e es ih =>
    intro s hrecord hindex
    have he := hrecord e (by simp)
    have hterm : ¬ (e.index ≠ s.mem.snapshot.index + s.mem.entries.length + 1 ∨ e.term = 0) := by
      rintro (h | h)
      · exact h hindex.1
      · exact he.term h
    have hsize : ¬ maxEntryData < e.data.length := Nat.not_lt.mpr he.size
    have hnext : Contiguous ((s.written e).mem.snapshot.index
        + (s.written e).mem.entries.length + 1) es := by
      have hlen : (s.written e).mem.entries.length = s.mem.entries.length + 1 := by
        simp [Store.written]
      rw [hlen]
      exact hindex.2
    obtain ⟨herr, hentries, hlog⟩ := ih (s.written e) (fun x hx => hrecord x (by simp [hx])) hnext
    unfold Store.append
    dsimp only
    rw [if_neg hterm, if_neg hsize]
    refine ⟨herr, ?_, ?_⟩
    · show ((s.written e).append es).store.mem.entries = s.mem.entries ++ e :: es
      rw [hentries, Store.written, append_assoc]
      rfl
    · show ((s.written e).append es).store.disk.log = s.disk.log ++ encodeEntries (e :: es)
      rw [hlog, encodeEntries_cons, ← append_assoc]
      rfl

theorem openStore_log {d : Disk} {s : Store} (h : openStore d = .ok s) :
    s.mem.entries = (readLog d.log s.mem.snapshot.index).1
      ∧ s.disk.log = d.log.take (readLog d.log s.mem.snapshot.index).2.2 := by
  unfold openStore at h
  cases hsnap : inspectSnapshot d.snapshot with
  | error e => rw [hsnap] at h; simp at h
  | ok r =>
    rw [hsnap] at h
    rw [← Except.ok.inj h]
    exact ⟨rfl, rfl⟩

/-- `Open` truncates the file behind the records it read, so `append` continues them. -/
private theorem append_reopened {d : Disk} {s : Store} {es new : List Entry} {n m : ℕ}
    (hlog : d.log = (encodeEntries es).take n) (hopen : openStore d = .ok s)
    (hlen : (es.take m).length = m) (hfit : recordStart checksumIEEE es m ≤ n)
    (hread : (logFramingWith checksumIEEE s.mem.snapshot.index).read 0
      ((encodeEntriesWith checksumIEEE es).take n) = es.take m)
    (hall : Contiguous (s.mem.snapshot.index + 1) (es.take m ++ new))
    (hrecord : ∀ e ∈ es.take m ++ new, Record e) :
    s.mem.entries = es.take m ∧ (s.append new).err = none
      ∧ (readLog (s.append new).store.disk.log s.mem.snapshot.index).1
          = s.mem.entries ++ new := by
  obtain ⟨hold, hnext⟩ := Contiguous.append_iff.mp hall
  have hfound := readLogWith_of_read hread
  change readLog ((encodeEntries es).take n) s.mem.snapshot.index = _ at hfound
  obtain ⟨hentries, hfile⟩ := openStore_log hopen
  rw [hlog, hfound] at hentries hfile
  have hmem : s.mem.entries = es.take m := by
    rw [hentries]
    exact filter_eq_self.mpr fun e he => decide_eq_true (hold.bounds e he).1
  have htruncated : s.disk.log = encodeEntries (es.take m) := by
    rw [hfile, hlen, recordStart_take (le_refl m)]
    exact take_recordStart hfit
  obtain ⟨herr, -, happended⟩ := s.append_continues new
    (fun e he => hrecord e (mem_append_right _ he)) (by
      rw [hmem, Nat.add_right_comm]
      exact hnext)
  refine ⟨hmem, herr, ?_⟩
  rw [happended, htruncated, ← encodeEntries_append, hmem]
  exact congrArg Prod.fst (readLogWith_above checksumIEEE hall hrecord)

/-- **A log cut at any byte**: `readLog` returns the complete records above the snapshot, where
    their records start, and the end of the last complete one.  If the log starts right above
    the snapshot, then records written behind that end are read after them; and this is the
    file that `Open` and `append` leave. -/
theorem readLog_cut (checksum : Bytes → UInt32) {S first : ℕ} {es : List Entry}
    (hfirst : first = 1 ∨ first = S + 1) (hindex : Contiguous first es)
    (hrecord : ∀ e ∈ es, Record e) (n : ℕ) :
    ∃ m ≤ es.length, (∀ k ≤ es.length, recordStart checksum es k ≤ n ↔ k ≤ m)
      ∧ readLogWith checksum ((encodeEntriesWith checksum es).take n) S
          = ((es.take m).filter (fun e => S < e.index),
             ((es.take m).zipIdx.filter (fun p => S < p.1.index)).map
               (fun p => recordStart checksum es p.2),
             recordStart checksum es m)
      ∧ (first = S + 1 → ∀ new, (∀ e ∈ new, Record e) → Contiguous (S + 1 + m) new →
          readLogWith checksum
              (((encodeEntriesWith checksum es).take n).take (recordStart checksum es m)
                ++ encodeEntriesWith checksum new) S
            = (es.take m ++ new,
               (List.range (m + new.length)).map (recordStart checksum (es.take m ++ new)),
               recordStart checksum (es.take m ++ new) (m + new.length))
          ∧ ∀ d s, d.log = (encodeEntries es).take n → openStore d = .ok s →
              s.mem.snapshot.index = S →
              s.mem.entries = es.take m ∧ (s.append new).err = none
                ∧ (readLog (s.append new).store.disk.log S).1 = s.mem.entries ++ new) := by
  obtain ⟨m, hm, hcut⟩ := read_cut hfirst hindex hrecord n
  obtain ⟨hfit, hread⟩ := hcut checksum
  have hlen : (es.take m).length = m := by rw [length_take, Nat.min_eq_left hm]
  refine ⟨m, hm, hfit, ?_, ?_⟩
  · rw [readLogWith_of_read hread, hlen, recordStart_take (le_refl m)]
    congr 2
    -- the places of the complete records are among the first `m`
    apply map_congr_left
    rintro ⟨e, k⟩ hp
    have hk := snd_lt_of_mem_zipIdx (mem_of_mem_filter hp)
    exact recordStart_take (by rw [hlen] at hk; simp at hk; omega)
  · rintro rfl new hnew hnext
    have hkept : ∀ e ∈ es.take m ++ new, Record e := by
      intro e he
      rcases mem_append.mp he with he | he
      · exact hrecord e (mem_of_mem_take he)
      · exact hnew e he
    have hold : Contiguous (S + 1) (es.take m) := hindex.shorten (List.take_prefix _ _)
    have hall : Contiguous (S + 1) (es.take m ++ new) := by
      rw [Contiguous.append_iff, hlen]
      exact ⟨hold, hnext⟩
    refine ⟨?_, ?_⟩
    · have hagain := readLogWith_above checksum hall hkept
      rw [length_append, hlen, encodeEntriesWith_append] at hagain
      rw [take_recordStart ((hfit m hm).mpr (le_refl m))]
      exact hagain
    · rintro d s hlog hopen rfl
      obtain ⟨hfits, hstored⟩ := hcut checksumIEEE
      exact append_reopened hlog hopen hlen ((hfits m hm).mpr (le_refl m)) hstored hall hkept

end Json

/-- Two entries behind a snapshot at 2. -/
def tornEntries : List Entry :=
  [{ index := 3, term := 1, data := [7] }, { index := 4, term := 1, data := [8, 9] }]

theorem tornEntries_record : ∀ e ∈ tornEntries, Record e := by
  intro e he
  simp only [tornEntries, mem_cons, not_mem_nil, or_false] at he
  rcases he with rfl | rfl <;> exact ⟨⟨by decide, by decide, by decide⟩, by decide, by decide⟩

/-- The second record is cut in its header, and the entry that replaces it is read after the
    first one. -/
theorem readLog_cut_header :
    readLog ((encodeEntries tornEntries).take 30) 2
        = ([{ index := 3, term := 1, data := [7] }], [0], 25)
      ∧ (readLog (((encodeEntries tornEntries).take 30).take 25
            ++ encodeEntries [{ index := 4, term := 2, data := [] }]) 2).1
          = [{ index := 3, term := 1, data := [7] }, { index := 4, term := 2, data := [] }] := by
  let _ := unarySnapshotJson
  have hstart : recordStart checksumIEEE tornEntries 1 = 25
      ∧ recordStart checksumIEEE tornEntries 2 = 51 := by
    constructor <;> simp [recordStart, length_encodeEntriesWith, tornEntries, entryHeader]
  obtain ⟨m, hm, hfit, hread, hnext⟩ := readLog_cut checksumIEEE (.inr rfl)
    (show Contiguous (2 + 1) tornEntries from ⟨rfl, rfl, trivial⟩) tornEntries_record 30
  have hm1 : m = 1 := by
    have h1 := hfit 1 (by decide)
    have h2 := hfit 2 (by decide)
    rw [hstart.1] at h1
    rw [hstart.2] at h2
    omega
  subst hm1
  have hagain := (hnext rfl [{ index := 4, term := 2, data := [] }]
    (by
      intro e he
      rw [mem_singleton] at he
      subst he
      exact ⟨⟨by decide, by decide, by decide⟩, by decide, by decide⟩)
    ⟨rfl, trivial⟩).1
  rw [hstart.1] at hread hagain
  refine ⟨?_, congrArg Prod.fst hagain⟩
  exact hread

end Lsmdb.RaftStore
