import Mathlib.Data.List.TakeWhile
import Lsmdb.Wal.Log

namespace Lsmdb.Wal

open Lsmdb.Binary List

/-!
# Replaying the log

What `ReadAll` makes of a file that a crash has cut, of a file on which some appends have failed,
and of any file at all.

* `torn_tail_recovered` — a file of records, cut at any byte.
* `failed_appends_harmless` — appends of which some have left only a part of their record.
* `recovery_repairs` — any bytes, read, appended to, and read again.
-/

section Checksum
variable {crc : List UInt8 → UInt32}

theorem readAll_of_ok {file : List UInt8} {rs : List Record} {validEnd : ℕ}
    (h : readLoop crc file 0 0 [] = .ok (rs, validEnd)) :
    readAll crc file = .ok (rs, file.take validEnd) := by
  rw [readAll, h]

theorem readAll_of_error {file : List UInt8} {e : String}
    (h : readLoop crc file 0 0 [] = .error e) : readAll crc file = .error e := by
  rw [readAll, h]

/-! ### A cut file -/

variable (crc) in
/-- The records whose encodings lie completely within the first `n` bytes. -/
def complete : ℕ → List Record → List Record
  | _, [] => []
  | n, r :: rs =>
      if (encode crc r).length ≤ n then r :: complete (n - (encode crc r).length) rs else []

variable (crc) in
/-- The first `n` bytes end right behind the header of one of the records. -/
def CutBehindHeader (n : ℕ) (rs : List Record) : Prop :=
  ∃ before r after, rs = before ++ r :: after ∧ n = (encodeAll crc before).length + 17

/-- **Where a cut falls**: the complete records, and a part of the next one or nothing. -/
theorem cut_cases {rs : List Record} {n : ℕ} (hn : n ≤ (encodeAll crc rs).length) :
    (complete crc n rs = rs ∧ n = (encodeAll crc rs).length)
      ∨ ∃ r after m, rs = complete crc n rs ++ r :: after ∧ m < (encode crc r).length
          ∧ n = (encodeAll crc (complete crc n rs)).length + m
          ∧ (encodeAll crc rs).take n
              = encodeAll crc (complete crc n rs) ++ (encode crc r).take m := by
  induction rs generalizing n with
  | nil =>
      left
      simp only [encodeAll_nil, length_nil, Nat.le_zero] at hn
      simp [complete, hn]
  | cons r rs ih =>
      rw [encodeAll_cons, length_append] at hn
      rw [complete]
      by_cases hr : (encode crc r).length ≤ n
      · rw [if_pos hr]
        rcases ih (show n - (encode crc r).length ≤ (encodeAll crc rs).length by omega) with
          ⟨hall, hlen⟩ | ⟨r', after, m, hrs, hm, hlen, htake⟩
        · left
          refine ⟨by rw [hall], ?_⟩
          rw [encodeAll_cons, length_append]
          omega
        · right
          refine ⟨r', after, m, by rw [cons_append, ← hrs], hm, ?_, ?_⟩
          · rw [encodeAll_cons, length_append]
            omega
          · rw [encodeAll_cons, encodeAll_cons, take_append, take_of_length_le hr,
              htake, append_assoc]
      · rw [if_neg hr]
        right
        refine ⟨r, rs, n, rfl, by omega, by simp, ?_⟩
        rw [encodeAll_cons, take_append_of_le_length (by omega)]
        rfl

theorem cutBehindHeader_iff (done after : List Record) {r : Record} {m : ℕ}
    (hm : m < (encode crc r).length) :
    CutBehindHeader crc ((encodeAll crc done).length + m) (done ++ r :: after) ↔ m = 17 := by
  constructor
  · rintro ⟨before, r', after', hrs, hlen⟩
    -- the two places where the list is split are the same one
    rcases append_eq_append_iff.mp hrs with ⟨mid, hbefore, hmid⟩ | ⟨mid, hdone, hmid⟩
    · cases mid with
      | nil =>
          rw [append_nil] at hbefore
          rw [hbefore] at hlen
          omega
      | cons x mid =>
          obtain rfl : r = x := by simpa using (cons.inj hmid).1
          rw [hbefore, encodeAll_append, length_append, encodeAll_cons,
            length_append] at hlen
          omega
    · cases mid with
      | nil =>
          rw [append_nil] at hdone
          rw [hdone] at hlen
          omega
      | cons x mid =>
          obtain rfl : r' = x := by simpa using (cons.inj hmid).1
          rw [hdone, encodeAll_append, length_append, encodeAll_cons, length_append,
            length_encode] at hlen
          omega
  · rintro rfl
    exact ⟨done, r, after, rfl, rfl⟩

/-- **What is read of a cut file**, records of unknown types included. -/
theorem readLoop_cut {rs : List Record} (hwithin : ∀ r ∈ rs, r.Within) {n : ℕ}
    (hn : n ≤ (encodeAll crc rs).length) (hcut : ¬CutBehindHeader crc n rs) :
    (∃ validEnd, readLoop crc ((encodeAll crc rs).take n) 0 0 []
        = .ok ((complete crc n rs).filter (·.Known), validEnd))
      ∧ ((∀ r ∈ complete crc n rs, r.Known) →
          readLoop crc ((encodeAll crc rs).take n) 0 0 []
            = .ok (complete crc n rs, (encodeAll crc (complete crc n rs)).length)) := by
  -- in both cases the complete records are followed by bytes at which the loop stops
  obtain ⟨tail, htake, hstop, hin⟩ : ∃ tail,
      (encodeAll crc rs).take n = encodeAll crc (complete crc n rs) ++ tail
        ∧ readHead crc tail = .stop ∧ ∀ r ∈ complete crc n rs, r.Within := by
    rcases cut_cases hn with ⟨hall, hlen⟩ | ⟨r, after, m, hrs, hm, hlen, htake⟩
    · refine ⟨[], ?_, by simp [readHead], by rw [hall]; exact hwithin⟩
      rw [hall, hlen, take_length, append_nil]
    have hr : r.Within := hwithin r (by rw [hrs]; simp)
    have hm17 : m ≠ 17 := by
      intro h17
      apply hcut
      have := (cutBehindHeader_iff (complete crc n rs) after hm).mpr h17
      rwa [← hrs, ← hlen] at this
    refine ⟨_, htake, ?_, fun r' hr' => hwithin r' (by rw [hrs]; simp [hr'])⟩
    rw [readHead_torn crc hr hm, if_neg hm17]
  rw [htake]
  refine ⟨?_, fun hknown => ?_⟩
  · obtain ⟨pos', validEnd', hloop⟩ := readLoop_encodeAll_filter crc hin tail 0 0 []
    exact ⟨validEnd', by rw [hloop, readLoop_stop hstop, nil_append]⟩
  · have hloop := readLoop_encodeAll crc hin hknown tail 0 []
    rw [hloop, readLoop_stop hstop, Nat.zero_add, nil_append]

theorem readLoop_cutBehindHeader {rs : List Record} (hwithin : ∀ r ∈ rs, r.Within) {n : ℕ}
    (hcut : CutBehindHeader crc n rs) :
    readLoop crc ((encodeAll crc rs).take n) 0 0 [] = .error "wal read body: EOF" := by
  obtain ⟨before, r, after, rfl, rfl⟩ := hcut
  have htake : (encodeAll crc (before ++ r :: after)).take ((encodeAll crc before).length + 17)
      = encodeAll crc before ++ (encode crc r).take 17 := by
    rw [encodeAll_append, take_length_add_append, encodeAll_cons,
      take_append_of_le_length (by simp)]
  have heof : readHead crc ((encode crc r).take 17) = .eof := by
    rw [readHead_torn crc (hwithin r (by simp)) (by simp), if_pos rfl]
  have hbefore : ∀ r' ∈ before, r'.Within := fun r' hr' => hwithin r' (by simp [hr'])
  obtain ⟨pos', validEnd', hloop⟩ := readLoop_encodeAll_filter crc hbefore
    ((encode crc r).take 17) 0 0 []
  rw [htake, hloop, readLoop_eof heof]

/-- **A cut log is recovered unless it is cut right behind a header**: the complete records are
    returned and the file ends with the last of them.  Records of a type that `ReadAll` does not
    know are never returned. -/
theorem torn_tail_recovered {rs : List Record} (hwithin : ∀ r ∈ rs, r.Within) {n : ℕ}
    (hn : n ≤ (encodeAll crc rs).length) :
    readAll crc ((encodeAll crc rs).take n)
        = .ok (complete crc n rs,
            ((encodeAll crc rs).take n).take (encodeAll crc (complete crc n rs)).length)
      ↔ ¬CutBehindHeader crc n rs ∧ ∀ r ∈ complete crc n rs, r.Known := by
  constructor
  · intro hread
    have hcut : ¬CutBehindHeader crc n rs := by
      intro hcut
      rw [readAll_of_error (readLoop_cutBehindHeader hwithin hcut)] at hread
      simp at hread
    obtain ⟨validEnd, hloop⟩ := (readLoop_cut hwithin hn hcut).1
    rw [readAll_of_ok hloop] at hread
    simp only [Except.ok.injEq, Prod.mk.injEq] at hread
    refine ⟨hcut, fun r hr => ?_⟩
    have := filter_eq_self.mp hread.1 r hr
    simpa using this
  · rintro ⟨hcut, hknown⟩
    exact readAll_of_ok ((readLoop_cut hwithin hn hcut).2 hknown)

/-- A put of the value `02 03` under the key `01`. -/
def sampleRecord : Record := { type := typePut, seqNum := 7, key := [1], value := [2, 3] }

theorem sampleRecord_within : ∀ r ∈ [sampleRecord], r.Within := by decide

theorem sampleRecord_known : ∀ r ∈ [sampleRecord], r.Known := by decide

/-- A record of which the first five bytes were written is dropped. -/
theorem torn_tail_recovered_sample :
    readAll (fun _ => 0) ((encodeAll (fun _ => 0) [sampleRecord]).take 5) = .ok ([], []) := by
  refine (torn_tail_recovered sampleRecord_within (by decide)).mpr ⟨?_, by decide⟩
  rintro ⟨before, r, after, -, hlen⟩
  omega

/-- A record of which only the header was written makes the replay fail. -/
theorem header_only_not_recovered :
    readAll (fun bytes => .ofNat (crc32 bytes))
        ((encodeAll (fun bytes => .ofNat (crc32 bytes)) [sampleRecord]).take 17)
      = .error "wal read body: EOF" := by
  have hcut : CutBehindHeader (fun bytes => .ofNat (crc32 bytes)) 17 [sampleRecord] :=
    ⟨[], sampleRecord, [], rfl, rfl⟩
  exact readAll_of_error (readLoop_cutBehindHeader sampleRecord_within hcut)

/-! ### Any file -/

/-- What a turn finds is still found when the file is cut behind it and something else follows. -/
theorem readHead_take {rest : List UInt8} (hpos : (readHead crc rest).size ≠ 0) {n : ℕ}
    (hn : (readHead crc rest).size ≤ n) (tail : List UInt8) :
    readHead crc (rest.take n ++ tail) = readHead crc rest := by
  apply readHead_local crc hpos
  have hlen := (readHead_size crc rest).1
  rw [take_append_of_le_length (by rw [length_take]; omega), take_take,
    Nat.min_eq_left hn]

theorem drop_take_append {rest : List UInt8} {size n : ℕ} (hsize : size ≤ n)
    (hn : size ≤ rest.length) (tail : List UInt8) :
    (rest.take n ++ tail).drop size = (rest.drop size).take (n - size) ++ tail := by
  rw [drop_append_of_le_length (by rw [length_take]; omega), drop_take]

/-- **The end of the last valid record is a place to go on from.**  Either the loop finds no
    further record, or reading the file cut at the end of the last one brings the loop to
    the same records, and it goes on with whatever was appended there. -/
theorem readLoop_retained (rest : List UInt8) (pos validEnd : ℕ) (records rs : List Record)
    (last : ℕ) (h : readLoop crc rest pos validEnd records = .ok (rs, last)) :
    (rs = records ∧ last = validEnd)
      ∨ (pos < last ∧ last ≤ pos + rest.length
          ∧ ∀ tail, readLoop crc (rest.take (last - pos) ++ tail) pos validEnd records
              = readLoop crc tail last last rs) := by
  fun_induction readLoop crc rest pos validEnd records with
  | case1 rest pos validEnd records hhead =>
      left
      simp only [Except.ok.injEq, Prod.mk.injEq] at h
      exact ⟨h.1.symm, h.2.symm⟩
  | case2 rest pos validEnd records hhead => simp at h
  | case3 rest pos validEnd records size hhead ih =>
      have hlen := (readHead_size crc rest).1
      have hpos : (readHead crc rest).size ≠ 0 := by
        intro h0
        have := (readHead_size crc rest).2 h0
        simp [hhead] at this
      rcases ih h with hnone | ⟨hlast, hle, hgo⟩
      · exact Or.inl hnone
      right
      rw [length_drop] at hle
      rw [hhead] at hlen
      simp only [Head.size] at hlen
      refine ⟨by omega, by omega, fun tail => ?_⟩
      have hhead' := readHead_take hpos (show (readHead crc rest).size ≤ last - pos by
        rw [hhead]; simp only [Head.size]; omega) tail
      rw [hhead] at hhead'
      rw [readLoop_skip hhead', drop_take_append (by omega) hlen, Nat.sub_sub, hgo]
  | case4 rest pos validEnd records r size hhead ih =>
      have hlen := (readHead_size crc rest).1
      have hpos : (readHead crc rest).size ≠ 0 := by
        intro h0
        have := (readHead_size crc rest).2 h0
        simp [hhead] at this
      rw [hhead] at hlen
      simp only [Head.size] at hlen
      right
      -- the turn itself, for a file cut anywhere behind the record
      have hturn : ∀ n tail, size ≤ n →
          readLoop crc (rest.take n ++ tail) pos validEnd records
            = readLoop crc ((rest.drop size).take (n - size) ++ tail) (pos + size) (pos + size)
                (records ++ [r]) := by
        intro n tail hn
        have hhead' := readHead_take hpos (show (readHead crc rest).size ≤ n by
          rw [hhead]; exact hn) tail
        rw [hhead] at hhead'
        rw [readLoop_record hhead', drop_take_append hn hlen]
      have hsize : 0 < size := by
        rw [hhead] at hpos
        exact Nat.pos_of_ne_zero hpos
      rcases ih h with ⟨hrs, hlast⟩ | ⟨hlast, hle, hgo⟩
      · refine ⟨by omega, by omega, fun tail => ?_⟩
        rw [hturn _ tail (by omega), hlast, hrs]
        simp
      · rw [length_drop] at hle
        refine ⟨by omega, by omega, fun tail => ?_⟩
        rw [hturn _ tail (by omega), Nat.sub_sub, hgo]

/-- **A repaired log is read to its end**, and the loop goes on with whatever follows. -/
theorem readLoop_repaired {file file' : List UInt8} {rs : List Record}
    (h : readAll crc file = .ok (rs, file')) (tail : List UInt8) :
    readLoop crc (file' ++ tail) 0 0 [] = readLoop crc tail file'.length file'.length rs := by
  rw [readAll] at h
  split at h
  · simp at h
  rename_i records validEnd hloop
  simp only [Except.ok.injEq, Prod.mk.injEq] at h
  obtain ⟨rfl, rfl⟩ := h
  rcases readLoop_retained file 0 0 [] records validEnd hloop with ⟨rfl, rfl⟩ | ⟨-, hle, hgo⟩
  · simp
  have hlen : (file.take validEnd).length = validEnd := by
    rw [length_take]
    omega
  rw [hlen]
  exact hgo tail

/-- Records appended to a repaired log are replayed behind what it held. -/
theorem readAll_append {file file' : List UInt8} {rs : List Record}
    (h : readAll crc file = .ok (rs, file')) {as : List Record} (hwithin : ∀ r ∈ as, r.Within)
    (hknown : ∀ r ∈ as, r.Known) :
    readAll crc (file' ++ encodeAll crc as) = .ok (rs ++ as, file' ++ encodeAll crc as) := by
  have hloop := readLoop_repaired h (encodeAll crc as)
  have hread := readLoop_encodeAll crc hwithin hknown [] file'.length rs
  rw [append_nil, readLoop_nil] at hread
  rw [hread] at hloop
  rw [readAll_of_ok hloop, take_of_length_le (by simp)]

/-- **Recovery repairs any log**: what it returned and left is replayed again, with all records
    appended since. -/
theorem recovery_repairs {file file' : List UInt8} {rs : List Record}
    (h : readAll crc file = .ok (rs, file')) :
    (∀ as : List Record, (∀ r ∈ as, r.Within) → (∀ r ∈ as, r.Known) →
        readAll crc (file' ++ encodeAll crc as) = .ok (rs ++ as, file' ++ encodeAll crc as))
      ∧ readAll crc file' = .ok (rs, file') := by
  refine ⟨fun as hwithin hknown => readAll_append h hwithin hknown, ?_⟩
  have hnone := readAll_append h (forall_mem_nil Record.Within)
    (forall_mem_nil Record.Known)
  simpa using hnone

/-- A record and three more bytes, read, and then one more record. -/
theorem recovery_repairs_sample :
    readAll (fun _ => 0) (encodeAll (fun _ => 0) [sampleRecord] ++ [9, 9, 9])
        = .ok ([sampleRecord], encodeAll (fun _ => 0) [sampleRecord])
      ∧ readAll (fun _ => 0)
          (encodeAll (fun _ => 0) [sampleRecord] ++ encodeAll (fun _ => 0) [sampleRecord])
        = .ok ([sampleRecord] ++ [sampleRecord],
            encodeAll (fun _ => 0) [sampleRecord] ++ encodeAll (fun _ => 0) [sampleRecord]) := by
  have hread : readAll (fun _ => 0) (encodeAll (fun _ => 0) [sampleRecord] ++ [9, 9, 9])
      = .ok ([sampleRecord], encodeAll (fun _ => 0) [sampleRecord]) := by
    have hloop := readLoop_encodeAll (fun _ => 0) sampleRecord_within sampleRecord_known
      [9, 9, 9] 0 []
    have hstop : readHead (fun _ => 0) [9, 9, 9] = .stop := by decide
    rw [readLoop_stop hstop] at hloop
    rw [readAll_of_ok hloop]
    rfl
  exact ⟨hread, (recovery_repairs hread).1 _ sampleRecord_within sampleRecord_known⟩

/-! ### Records beyond the limits -/

variable (crc) in
theorem readLoop_beyond {as : List Record} (hshort : ∀ r ∈ as, r.Short)
    (hknown : ∀ r ∈ as, r.Known) (pos : ℕ) (records : List Record) :
    ∃ validEnd, readLoop crc (encodeAll crc as) pos pos records
      = .ok (records ++ as.takeWhile (·.Within), validEnd) := by
  induction as generalizing pos records with
  | nil => exact ⟨pos, by simp [readLoop_nil]⟩
  | cons r as ih =>
      simp only [forall_mem_cons] at hshort hknown
      rw [encodeAll_cons]
      by_cases hr : r.Within
      · have hhead := readHead_encode crc hr (encodeAll crc as)
        rw [if_pos hknown.1] at hhead
        rw [readLoop_record hhead, drop_left' rfl,
          takeWhile_cons_of_pos (by simpa using hr)]
        obtain ⟨validEnd, hrest⟩ := ih hshort.2 hknown.2 (pos + (encode crc r).length)
          (records ++ [r])
        exact ⟨validEnd, by rw [hrest, append_assoc, singleton_append]⟩
      · refine ⟨pos, ?_⟩
        rw [readLoop_stop (readHead_beyond crc hshort.1 hr _),
          takeWhile_cons_of_neg (by simpa using hr), append_nil]

/-- **Records appended to a repaired log are all replayed exactly if they are within the
    limits.** -/
theorem readAll_append_iff {file : List UInt8} {rs : List Record}
    (h : readAll crc file = .ok (rs, file)) {as : List Record} (hshort : ∀ r ∈ as, r.Short)
    (hknown : ∀ r ∈ as, r.Known) :
    (∃ file', readAll crc (file ++ encodeAll crc as) = .ok (rs ++ as, file'))
      ↔ ∀ r ∈ as, r.Within := by
  constructor
  · rintro ⟨file', hread⟩
    obtain ⟨validEnd, hloop⟩ := readLoop_beyond crc hshort hknown file.length rs
    rw [← readLoop_repaired h] at hloop
    rw [readAll_of_ok hloop] at hread
    simp only [Except.ok.injEq, Prod.mk.injEq, append_cancel_left_eq] at hread
    intro r hr
    simpa using takeWhile_eq_self_iff.mp hread.1 r hr
  · intro hwithin
    exact ⟨_, readAll_append h hwithin hknown⟩

/-! ### Appends that fail -/

/-- A call of `Append`: `written` is the number of bytes a failed call has left behind. -/
structure Attempt where
  record : Record
  written : Option ℕ

/-- What the call adds to the file. -/
def Attempt.bytes (crc : List UInt8 → UInt32) (c : Attempt) : List UInt8 :=
  match c.written with
  | none => encode crc c.record
  | some n => (encode crc c.record).take n

/-- A failed call has written a proper prefix of its record. -/
def Attempt.Proper (c : Attempt) : Prop :=
  ∀ n, c.written = some n → n < 17 + (c.record.key.length + c.record.value.length + 4)

/-- The file after the calls: each of them writes where the one before it stopped. -/
def appended (crc : List UInt8 → UInt32) (calls : List Attempt) : List UInt8 :=
  calls.flatMap (Attempt.bytes crc)

/-- The records whose `Append` returned nil. -/
def acknowledged (calls : List Attempt) : List Record :=
  calls.filterMap fun c => if c.written = none then some c.record else none

/-- A failed call has left nothing, unless it is the last one that writes at all and its bytes do
    not end right behind its header. -/
def Harmless : List Attempt → Prop
  | [] => True
  | c :: calls =>
      (∀ n, c.written = some n → n = 0 ∨ n ≠ 17 ∧ ∀ c' ∈ calls, c'.written = some 0)
        ∧ Harmless calls

theorem appended_cons (c : Attempt) (calls : List Attempt) :
    appended crc (c :: calls) = c.bytes crc ++ appended crc calls := by
  simp [appended]

variable (crc) in
/-- Calls that fail at once leave nothing and acknowledge nothing. -/
theorem appended_silent {calls : List Attempt} (h : ∀ c ∈ calls, c.written = some 0) :
    appended crc calls = [] ∧ acknowledged calls = [] := by
  constructor
  · rw [appended, flatMap_eq_nil_iff]
    intro c hc
    simp [Attempt.bytes, h c hc]
  · rw [acknowledged, filterMap_eq_nil_iff]
    intro c hc
    simp [h c hc]

variable (crc) in
theorem readLoop_appended {calls : List Attempt} (hproper : ∀ c ∈ calls, c.Proper)
    (hwithin : ∀ c ∈ calls, c.record.Within) (hknown : ∀ c ∈ calls, c.record.Known)
    (h : Harmless calls) (pos : ℕ) (records : List Record) :
    ∃ validEnd, readLoop crc (appended crc calls) pos pos records
      = .ok (records ++ acknowledged calls, validEnd) := by
  induction calls generalizing pos records with
  | nil =>
      refine ⟨pos, ?_⟩
      rw [appended, flatMap_nil, readLoop_nil]
      simp [acknowledged]
  | cons c calls ih =>
      simp only [forall_mem_cons] at hproper hwithin hknown
      obtain ⟨hc, hcalls⟩ := h
      rw [appended_cons]
      cases hw : c.written with
      | none =>
          have hbytes : c.bytes crc = encodeAll crc [c.record] := by
            simp [Attempt.bytes, hw, encodeAll]
          have hack : acknowledged (c :: calls) = [c.record] ++ acknowledged calls := by
            simp [acknowledged, hw]
          rw [hbytes, readLoop_encodeAll crc (by simpa using hwithin.1) (by simpa using hknown.1),
            hack, ← append_assoc]
          exact ih hproper.2 hwithin.2 hknown.2 hcalls _ _
      | some n =>
          have hack : acknowledged (c :: calls) = acknowledged calls := by
            simp [acknowledged, hw]
          have hbytes : c.bytes crc = (encode crc c.record).take n := by
            simp [Attempt.bytes, hw]
          rw [hack, hbytes]
          rcases hc n hw with rfl | ⟨h17, hsilent⟩
          · rw [take_zero, nil_append]
            exact ih hproper.2 hwithin.2 hknown.2 hcalls pos records
          -- the torn record is the end of the file
          obtain ⟨hfile, hnone⟩ := appended_silent crc hsilent
          have hn : n < (encode crc c.record).length := by
            rw [length_encode]
            exact hproper.1 n hw
          have hstop := readHead_torn crc hwithin.1 hn
          rw [if_neg h17] at hstop
          exact ⟨pos, by rw [hfile, hnone, append_nil, append_nil,
            readLoop_stop hstop]⟩

/-- **Failed appends that leave nothing before a later record harm nobody else.** -/
theorem failed_appends_harmless {calls : List Attempt} (hproper : ∀ c ∈ calls, c.Proper)
    (hwithin : ∀ c ∈ calls, c.record.Within) (hknown : ∀ c ∈ calls, c.record.Known)
    (h : Harmless calls) :
    ∃ file', readAll crc (appended crc calls) = .ok (acknowledged calls, file') := by
  obtain ⟨validEnd, hloop⟩ := readLoop_appended crc hproper hwithin hknown h 0 []
  exact ⟨_, readAll_of_ok hloop⟩

/-- A record, a failed call that left nothing, another record and a torn one. -/
def toleratedCalls : List Attempt :=
  [⟨sampleRecord, none⟩, ⟨sampleRecord, some 0⟩, ⟨sampleRecord, none⟩, ⟨sampleRecord, some 20⟩]

theorem failed_appends_harmless_sample :
    ∃ file', readAll (fun _ => 0) (appended (fun _ => 0) toleratedCalls)
      = .ok ([sampleRecord, sampleRecord], file') := by
  refine failed_appends_harmless ?_ ?_ ?_ ?_
  · simp [toleratedCalls, Attempt.Proper, sampleRecord]
  · simp only [toleratedCalls, forall_mem_cons]
    decide
  · simp only [toleratedCalls, forall_mem_cons]
    decide
  · simp [toleratedCalls, Harmless]

/-- A put of a value of eighty bytes. -/
def longRecord : Record :=
  { type := typePut, seqNum := 6, key := [1], value := List.replicate 80 0 }

/-- A failed call that wrote its header only, and a record behind it. -/
def swallowingCalls : List Attempt := [⟨longRecord, some 17⟩, ⟨sampleRecord, none⟩]

/-- **The record behind a torn one is taken for the torn one's body**: it was acknowledged, and the
    replay returns nothing and empties the file. -/
theorem torn_append_swallows_next :
    acknowledged swallowingCalls = [sampleRecord]
      ∧ ∀ crc, readAll crc (appended crc swallowingCalls) = .ok ([], []) := by
  refine ⟨rfl, fun crc => ?_⟩
  have hfile : appended crc swallowingCalls = header longRecord ++ encode crc sampleRecord := by
    have htorn : (encode crc longRecord).take 17 = header longRecord := by
      rw [encode_eq, take_left' (length_header _)]
    simp [swallowingCalls, appended, Attempt.bytes, htorn]
  have hstop : readHead crc (appended crc swallowingCalls) = .stop := by
    rw [hfile, readHead_header crc (by decide) (by simp [sampleRecord, longRecord]), if_neg]
    simp [encode, covered, header]
  rw [readAll_of_ok (readLoop_stop hstop 0 0 [])]
  rfl

end Checksum

end Lsmdb.Wal
