import Lsmdb.Db.Bloom

namespace Lsmdb.Db

open Lsmdb.Versions List

/-!
# SSTables

`internal/sstable`: what `Write` puts into a file and how a `Reader` finds it again.  A
complete file is kept by its sections — the data records at their byte offsets, the key
range, the bloom filter, the sparse index and the footer — and lengths, offsets and
sequence numbers are natural numbers; the encoding of the sections as bytes is not part of
this module.

* `SSTable.get_write`, `SSTable.scan_write`, `SSTable.loadAll_write` — on a table in key
  order, the filter, the range check and the index hide nothing.
-/

def indexStep : ℕ := 16

def footerSize : ℕ := 48

def recordHeaderSize : ℕ := 17

/-- `indexEntry`. -/
structure IndexEntry where
  key : Key
  offset : ℕ
  deriving DecidableEq, Repr

/-- A complete SSTable file. -/
structure SSTable where
  data : List Record
  minKey : Key
  maxKey : Key
  bloom : BloomFilter
  index : List IndexEntry
  metaOffset : ℕ
  recordCount : ℕ
  deriving DecidableEq, Repr

/-- The bytes of a data record. -/
def recordSize (r : Record) : ℕ := recordHeaderSize + r.key.length + r.value.length

/-- The bytes of a data section. -/
def dataSize (rs : List Record) : ℕ := (rs.map recordSize).sum

/-- The index entries of the loop of `Write`, from record `i` at `offset` on. -/
def indexEntries : ℕ → ℕ → List Record → List IndexEntry
  | _, _, [] => []
  | i, offset, r :: rs =>
      let rest := indexEntries (i + 1) (offset + recordSize r) rs
      if i % indexStep = 0 then { key := r.key, offset := offset } :: rest else rest

/-- `Write`, for a list of records that is not empty. -/
def SSTable.write [BloomSize] (records : List Record) : SSTable where
  data := records
  minKey := (records.head?.map Record.key).getD []
  maxKey := (records.getLast?.map Record.key).getD []
  bloom := (records.map Record.key).foldl BloomFilter.add (BloomFilter.new records.length)
  index := indexEntries 0 0 records
  metaOffset := dataSize records
  recordCount := records.length

/-! ### Readers -/

/-- `readRecordAt`: the record that starts at `offset`, and its size. -/
def readRecordAt : List Record → ℕ → Option (Record × ℕ)
  | [], _ => none
  | r :: rs, offset =>
      if offset = 0 then some (r, recordSize r)
      else if recordSize r ≤ offset then readRecordAt rs (offset - recordSize r)
      else none

theorem readRecordAt_pos {rs : List Record} {offset : ℕ} {r : Record} {size : ℕ}
    (h : readRecordAt rs offset = some (r, size)) : 0 < size := by
  induction rs generalizing offset with
  | nil => simp [readRecordAt] at h
  | cons x rs ih =>
    unfold readRecordAt at h
    split at h
    · simp only [Option.some.injEq, Prod.mk.injEq] at h
      rw [← h.2, recordSize, recordHeaderSize]
      omega
    · split at h
      · exact ih h
      · simp at h

/-- The binary search of `Get` and `Scan`: the offset of the last index entry at or below
    `key`, or the start of the file. -/
def SSTable.startOffset (t : SSTable) (key : Key) : ℕ :=
  match t.index.findIdx fun e => decide (key < e.key) with
  | 0 => 0
  | i + 1 => (t.index[i]?.map IndexEntry.offset).getD 0

/-- The loop of `Get`. -/
def SSTable.getLoop (t : SSTable) (key : Key) (pos : ℕ) (best : Option Record) :
    Except String (Option Record) :=
  if pos < t.metaOffset then
    match _h : readRecordAt t.data pos with
    | none => .error s!"read record header at {pos}"
    | some (rec, size) =>
        if rec.key = key then t.getLoop key (pos + size) (some (newer best rec))
        else if key < rec.key then .ok best
        else t.getLoop key (pos + size) best
  else .ok best
termination_by t.metaOffset - pos
decreasing_by
  all_goals
    have := readRecordAt_pos _h
    omega

/-- `Get`. -/
def SSTable.get (t : SSTable) (key : Key) : Except String (Option Record) :=
  if !t.bloom.mayContain key then .ok none
  else if key < t.minKey ∨ t.maxKey < key then .ok none
  else t.getLoop key (t.startOffset key) none

/-- The loop of `Scan`; `byKey` is the map of the newest records. -/
def SSTable.scanLoop (t : SSTable) (lo hi : Key) (pos : ℕ) (byKey : List Record) :
    Except String (List Record) :=
  if pos < t.metaOffset then
    match _h : readRecordAt t.data pos with
    | none => .error s!"read record header at {pos}"
    | some (rec, size) =>
        if hi < rec.key then .ok byKey
        else if rec.key < lo then t.scanLoop lo hi (pos + size) byKey
        else t.scanLoop lo hi (pos + size) (setNewer rec byKey)
  else .ok byKey
termination_by t.metaOffset - pos
decreasing_by
  all_goals
    have := readRecordAt_pos _h
    omega

/-- `Scan`. -/
def SSTable.scan (t : SSTable) (lo hi : Key) : Except String (List Record) :=
  if hi < t.minKey ∨ t.maxKey < lo then .ok []
  else t.scanLoop lo hi (t.startOffset lo) []

/-- The records from `pos` on, as `Iterator.Next` returns them one after another. -/
def SSTable.iterate (t : SSTable) (pos : ℕ) : Except String (List Record) :=
  if pos < t.metaOffset then
    match _h : readRecordAt t.data pos with
    | none => .error s!"read record header at {pos}"
    | some (rec, size) =>
        match t.iterate (pos + size) with
        | .error e => .error e
        | .ok rest => .ok (rec :: rest)
  else .ok []
termination_by t.metaOffset - pos
decreasing_by
  have := readRecordAt_pos _h
  omega

/-- `LoadAll`, and a full pass of `Iterator`. -/
def SSTable.loadAll (t : SSTable) : Except String (List Record) := t.iterate 0

/-! ### Offsets -/

@[simp] theorem dataSize_append (xs ys : List Record) :
    dataSize (xs ++ ys) = dataSize xs + dataSize ys := by
  simp [dataSize]

@[simp] theorem dataSize_cons (x : Record) (xs : List Record) :
    dataSize (x :: xs) = recordSize x + dataSize xs := by
  simp [dataSize]

theorem recordSize_pos (r : Record) : 0 < recordSize r := by
  unfold recordSize recordHeaderSize
  omega

theorem readRecordAt_append (front : List Record) (r : Record) (rest : List Record) :
    readRecordAt (front ++ r :: rest) (dataSize front) = some (r, recordSize r) := by
  induction front with
  | nil => simp [readRecordAt, dataSize]
  | cons x front ih =>
    have := recordSize_pos x
    rw [cons_append, readRecordAt, dataSize_cons, if_neg (by omega), if_pos (by omega),
      Nat.add_sub_cancel_left]
    exact ih

theorem mem_indexEntries {i offset : ℕ} {rs : List Record} {e : IndexEntry}
    (h : e ∈ indexEntries i offset rs) :
    ∃ front r rest, rs = front ++ r :: rest ∧ e.key = r.key
      ∧ e.offset = offset + dataSize front := by
  induction rs generalizing i offset with
  | nil => simp [indexEntries] at h
  | cons x rs ih =>
    have hrest : e ∈ indexEntries (i + 1) (offset + recordSize x) rs →
        ∃ front r rest, x :: rs = front ++ r :: rest ∧ e.key = r.key
          ∧ e.offset = offset + dataSize front := by
      intro h
      obtain ⟨front, r, rest, hrs, hk, ho⟩ := ih h
      exact ⟨x :: front, r, rest, by rw [hrs]; rfl, hk, by rw [ho, dataSize_cons]; omega⟩
    unfold indexEntries at h
    simp only at h
    split at h
    · rcases mem_cons.mp h with rfl | h
      · exact ⟨[], x, rs, rfl, rfl, by simp [dataSize]⟩
      · exact hrest h
    · exact hrest h

/-! ### Reading what was written -/

section Write
variable [BloomSize] {records : List Record}

@[simp] theorem SSTable.data_write : (write records).data = records := rfl

@[simp] theorem SSTable.metaOffset_write : (write records).metaOffset = dataSize records := rfl

/-- The search starts at a record, behind records below the key only. -/
theorem SSTable.startOffset_write (hasc : Ascending records) (key : Key) :
    ∃ front rest, records = front ++ rest ∧ (write records).startOffset key = dataSize front
      ∧ ∀ r ∈ front, r.key < key := by
  unfold startOffset
  split
  next => exact ⟨[], records, rfl, by simp [dataSize], by simp⟩
  next i hi =>
    let above : IndexEntry → Bool := fun e => decide (key < e.key)
    have hidx : (write records).index.findIdx above = i + 1 := hi
    have hlt : i < (write records).index.length := by
      have : (write records).index.findIdx above ≤ _ := findIdx_le_length
      omega
    have hle : (write records).index[i].key ≤ key := by
      have : i < (write records).index.findIdx above := by omega
      simpa [above] using not_of_lt_findIdx this
    obtain ⟨front, r, rest, hrs, hk, ho⟩ := mem_indexEntries (getElem_mem hlt)
    refine ⟨front, r :: rest, hrs, ?_, fun x hx => ?_⟩
    · rw [getElem?_eq_getElem hlt]
      simpa using ho
    · rw [hrs] at hasc
      have hxr : x.key < r.key := (pairwise_append.mp hasc).2.2 x hx r mem_cons_self
      exact lt_of_lt_of_le hxr (hk ▸ hle)

theorem SSTable.read_write {front rest : List Record} {r : Record}
    (hrs : records = front ++ r :: rest) :
    dataSize front < (write records).metaOffset
      ∧ readRecordAt (write records).data (dataSize front) = some (r, recordSize r)
      ∧ dataSize front + recordSize r = dataSize (front ++ [r]) := by
  have := recordSize_pos r
  refine ⟨?_, ?_, ?_⟩
  · rw [metaOffset_write, hrs, dataSize_append, dataSize_cons]
    omega
  · rw [data_write, hrs]
    exact readRecordAt_append front r rest
  · simp [dataSize]

theorem SSTable.getLoop_end (key : Key) (best : Option Record) :
    (write records).getLoop key (dataSize records) best = .ok best := by
  unfold getLoop
  rw [if_neg (by simp)]

theorem SSTable.getLoop_cons {front rest : List Record} {r : Record}
    (hrs : records = front ++ r :: rest) (key : Key) (best : Option Record) :
    (write records).getLoop key (dataSize front) best
      = if r.key = key then
          (write records).getLoop key (dataSize (front ++ [r])) (some (newer best r))
        else if key < r.key then .ok best
        else (write records).getLoop key (dataSize (front ++ [r])) best := by
  obtain ⟨hlt, hread, hnext⟩ := read_write hrs
  rw [getLoop, if_pos hlt]
  split
  next hnone => rw [hread] at hnone; simp at hnone
  next rec size hsome =>
    rw [hread, Option.some.injEq, Prod.mk.injEq] at hsome
    obtain ⟨rfl, rfl⟩ := hsome
    rw [hnext]

theorem SSTable.getLoop_write {front rest : List Record} (hrs : records = front ++ rest)
    (hasc : Ascending rest) (key : Key) (best : Option Record)
    (hbest : best = none ∨ ∀ r ∈ rest, key < r.key) :
    (write records).getLoop key (dataSize front) best = .ok (best.or (find key rest)) := by
  induction rest generalizing front best with
  | nil =>
    rw [append_nil] at hrs
    rw [← hrs, getLoop_end]
    simp
  | cons r rest ih =>
    obtain ⟨hr, htail⟩ := pairwise_cons.mp hasc
    have hrs' : records = (front ++ [r]) ++ rest := by simp [hrs]
    rw [getLoop_cons hrs, find_cons]
    by_cases hk : r.key = key
    · -- The key is found, and no record behind it has the same key.
      have hnone : best = none := by
        rcases hbest with h | h
        · exact h
        · exact absurd (h r mem_cons_self) (by rw [hk]; exact lt_irrefl _)
      rw [if_pos hk, ih hrs' htail _ (Or.inr fun x hx => hk ▸ hr x hx), hnone, newer]
      simp [hk]
    · rw [if_neg hk, key_eq, if_neg hk]
      by_cases hlt : key < r.key
      · -- All records from here on are above the key.
        have hnone : find key rest = none :=
          find_eq_none.mpr fun x hx => (hlt.trans (hr x hx)).ne'
        rw [if_pos hlt, hnone, Option.or_none]
      · rw [if_neg hlt]
        exact ih hrs' htail best (hbest.imp_right fun h x hx => h x (mem_cons_of_mem _ hx))

theorem SSTable.minKey_write (hasc : Ascending records) {r : Record} (hr : r ∈ records) :
    (write records).minKey ≤ r.key := by
  cases records with
  | nil => simp at hr
  | cons x xs =>
    rcases mem_cons.mp hr with rfl | hr
    · exact le_rfl
    · exact ((pairwise_cons.mp hasc).1 r hr).le

theorem SSTable.maxKey_write (hasc : Ascending records) {r : Record} (hr : r ∈ records) :
    r.key ≤ (write records).maxKey := by
  obtain ⟨xs, x, rfl⟩ := (eq_nil_or_concat' records).resolve_left (ne_nil_of_mem hr)
  have hmax : (write (xs ++ [x])).maxKey = x.key := by simp [write]
  rw [hmax]
  rcases mem_append.mp hr with hr | hr
  · exact ((pairwise_append.mp hasc).2.2 r hr x mem_cons_self).le
  · rw [mem_singleton.mp hr]

theorem SSTable.mayContain_write {r : Record} (hr : r ∈ records) :
    (write records).bloom.mayContain r.key = true :=
  (BloomFilter.sized_new _).mayContainWith_addAll (mem_map_of_mem hr)

omit [BloomSize] in
theorem find_append_of_lt {key : Key} {front rest : List Record}
    (hfront : ∀ r ∈ front, r.key < key) : find key (front ++ rest) = find key rest := by
  induction front with
  | nil => rfl
  | cons x front ih =>
    rw [cons_append, find_cons, key_eq, if_neg (hfront x mem_cons_self).ne]
    exact ih fun r hr => hfront r (mem_cons_of_mem _ hr)

/-- **`Get` finds the record of the key, and nothing else.** -/
theorem SSTable.get_write (hasc : Ascending records) (key : Key) :
    (write records).get key = .ok (find key records) := by
  unfold SSTable.get
  split
  next hbloom =>
    have hnone : find key records = none := find_eq_none.mpr fun r hr hk => by
      rw [← hk, key_eq, mayContain_write hr] at hbloom
      simp at hbloom
    rw [hnone]
  next =>
    split
    next hrange =>
      have hnone : find key records = none := find_eq_none.mpr fun r hr hk => by
        rw [← hk, key_eq] at hrange
        rcases hrange with h | h
        · exact absurd (minKey_write hasc hr) (not_le.mpr h)
        · exact absurd (maxKey_write hasc hr) (not_le.mpr h)
      rw [hnone]
    next =>
      obtain ⟨front, rest, hrs, ho, hfront⟩ := startOffset_write hasc key
      have hrest : Ascending rest := (pairwise_append.mp (hrs ▸ hasc)).2.1
      rw [ho, getLoop_write hrs hrest key none (Or.inl rfl), hrs, find_append_of_lt hfront]
      rfl

/-! ### Scans -/

theorem SSTable.scanLoop_end (lo hi : Key) (byKey : List Record) :
    (write records).scanLoop lo hi (dataSize records) byKey = .ok byKey := by
  unfold scanLoop
  rw [if_neg (by simp)]

theorem SSTable.scanLoop_cons {front rest : List Record} {r : Record}
    (hrs : records = front ++ r :: rest) (lo hi : Key) (byKey : List Record) :
    (write records).scanLoop lo hi (dataSize front) byKey
      = if hi < r.key then .ok byKey
        else if r.key < lo then (write records).scanLoop lo hi (dataSize (front ++ [r])) byKey
        else (write records).scanLoop lo hi (dataSize (front ++ [r])) (setNewer r byKey) := by
  obtain ⟨hlt, hread, hnext⟩ := read_write hrs
  rw [scanLoop, if_pos hlt]
  split
  next hnone => rw [hread] at hnone; simp at hnone
  next rec size hsome =>
    rw [hread, Option.some.injEq, Prod.mk.injEq] at hsome
    obtain ⟨rfl, rfl⟩ := hsome
    rw [hnext]

omit [BloomSize] in
theorem setNewer_above {xs : List Record} {r : Record} (h : ∀ x ∈ xs, x.key < r.key) :
    setNewer r xs = xs ++ [r] := by
  induction xs with
  | nil => rfl
  | cons x xs ih =>
    have hx := h x mem_cons_self
    rw [setNewer, key_eq, key_eq, if_neg hx.asymm, if_neg hx.ne',
      ih fun y hy => h y (mem_cons_of_mem _ hy)]
    rfl

theorem SSTable.scanLoop_write {front rest : List Record} (hrs : records = front ++ rest)
    (hasc : Ascending rest) (lo hi : Key) (byKey : List Record)
    (hby : ∀ x ∈ byKey, ∀ r ∈ rest, x.key < r.key) :
    (write records).scanLoop lo hi (dataSize front) byKey
      = .ok (byKey ++ rest.filter (inRange lo hi)) := by
  induction rest generalizing front byKey with
  | nil =>
    rw [append_nil] at hrs
    rw [← hrs, scanLoop_end]
    simp
  | cons r rest ih =>
    obtain ⟨hr, htail⟩ := pairwise_cons.mp hasc
    have hrs' : records = (front ++ [r]) ++ rest := by simp [hrs]
    have hby' : ∀ x ∈ byKey, ∀ y ∈ rest, x.key < y.key := fun x hx y hy =>
      hby x hx y (mem_cons_of_mem _ hy)
    rw [scanLoop_cons hrs]
    split
    next hhi =>
      have hnone : (r :: rest).filter (inRange lo hi) = [] := by
        refine filter_eq_nil_iff.mpr fun x hx => ?_
        have : hi < x.key := by
          rcases mem_cons.mp hx with rfl | hx
          · exact hhi
          · exact hhi.trans (hr x hx)
        simp [inRange, this]
      rw [hnone, append_nil]
    next hhi =>
      split
      next hlo =>
        rw [ih hrs' htail byKey hby', filter_cons_of_neg (by simp [inRange, hlo])]
      next hlo =>
        have hin : inRange lo hi r = true := by simp [inRange, not_lt.mp hhi, not_lt.mp hlo]
        rw [setNewer_above fun x hx => hby x hx r mem_cons_self, ih hrs' htail,
          filter_cons_of_pos hin]
        · simp
        · intro x hx y hy
          rcases mem_append.mp hx with hx | hx
          · exact hby' x hx y hy
          · rw [mem_singleton.mp hx]
            exact hr y hy

/-- **`Scan` returns the records of the range**, in key order. -/
theorem SSTable.scan_write (hasc : Ascending records) (lo hi : Key) :
    (write records).scan lo hi = .ok (records.filter (inRange lo hi)) := by
  unfold SSTable.scan
  split
  next hrange =>
    have hnone : records.filter (inRange lo hi) = [] := by
      refine filter_eq_nil_iff.mpr fun r hr => ?_
      have hmin := minKey_write hasc hr
      have hmax := maxKey_write hasc hr
      rcases hrange with h | h
      · simp [inRange, h.trans_le hmin]
      · simp [inRange, hmax.trans_lt h]
    rw [hnone]
  next =>
    obtain ⟨front, rest, hrs, ho, hfront⟩ := startOffset_write hasc lo
    have hrest : Ascending rest := (pairwise_append.mp (hrs ▸ hasc)).2.1
    have hskip : front.filter (inRange lo hi) = [] :=
      filter_eq_nil_iff.mpr fun r hr => by simp [inRange, hfront r hr]
    rw [ho, scanLoop_write hrs hrest lo hi [] (by simp), hrs, filter_append, hskip]

/-! ### Full passes -/

theorem SSTable.iterate_write {front rest : List Record} (hrs : records = front ++ rest) :
    (write records).iterate (dataSize front) = .ok rest := by
  induction rest generalizing front with
  | nil =>
    rw [append_nil] at hrs
    unfold iterate
    rw [if_neg (by simp [hrs])]
  | cons r rest ih =>
    obtain ⟨hlt, hread, hnext⟩ := read_write hrs
    unfold iterate
    rw [if_pos hlt]
    split
    next hnone => rw [hread] at hnone; simp at hnone
    next rec size hsome =>
      rw [hread, Option.some.injEq, Prod.mk.injEq] at hsome
      obtain ⟨rfl, rfl⟩ := hsome
      rw [hnext, ih (by simp [hrs])]

/-- **`LoadAll` returns the records that were written.** -/
theorem SSTable.loadAll_write : (write records).loadAll = .ok records :=
  iterate_write (nil_append records).symm

end Write

end Lsmdb.Db
