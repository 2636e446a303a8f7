import Lsmdb.Versions.Merge
import Mathlib.Order.RelClasses
import Mathlib.Data.List.Lex

namespace Lsmdb.Db

open Lsmdb.Versions

/-!
# Memtable

`internal/memtable/memtable.go`.  Keys and values are byte strings, and keys are compared
byte by byte, as Go compares strings.  The map of the memtable is kept as its entries in
key order, with that order as a field; sequence numbers are natural numbers.
-/

instance linearOrderByte : LinearOrder UInt8 where
  le_refl := UInt8.le_refl
  le_trans _ _ _ := UInt8.le_trans
  le_antisymm _ _ := UInt8.le_antisymm
  le_total := UInt8.le_total
  lt_iff_le_not_ge a b := by
    rw [UInt8.lt_iff_toNat_lt, UInt8.le_iff_toNat_le, UInt8.le_iff_toNat_le]
    omega
  toDecidableLE := inferInstance
  toDecidableEq := inferInstance
  toDecidableLT := inferInstance

abbrev Key := List UInt8

abbrev Value := List UInt8

/-- `RecordType`. -/
inductive RecordType where
  | put
  | delete
  deriving DecidableEq, Repr

/-- `Record`: a version of a key. -/
structure Record where
  key : Key
  value : Value := []
  seqNum : ℕ
  type : RecordType
  deriving DecidableEq, Repr

instance : Versioned Record Key where
  key := Record.key
  seq := Record.seqNum

@[simp] theorem key_eq (r : Record) : key r = r.key := rfl

@[simp] theorem seq_eq (r : Record) : seq r = r.seqNum := rfl

/-- The value a reader gets from the winning record of a key. -/
def Record.live (r : Record) : Option Value :=
  match r.type with
  | .put => some r.value
  | .delete => none

/-- The records of a range of keys. -/
def inRange (lo hi : Key) (r : Record) : Bool := decide (lo ≤ r.key ∧ r.key ≤ hi)

/-- `MemTable`. -/
structure MemTable where
  entries : List Record
  nextSeq : ℕ
  sorted : Ascending entries

/-- `NewWithSeq`. -/
def MemTable.newWithSeq (startSeq : ℕ) : MemTable where
  entries := []
  nextSeq := startSeq
  sorted := List.Pairwise.nil

/-- `New`. -/
def MemTable.new : MemTable := .newWithSeq 1

/-- `GetRecord`. -/
def MemTable.getRecord (m : MemTable) (key : Key) : Option Record := find key m.entries

/-- `AllocSeq`: the number handed out, and the memtable that has moved on. -/
def MemTable.allocSeq (m : MemTable) : ℕ × MemTable :=
  (m.nextSeq, { m with nextSeq := m.nextSeq + 1 })

/-- `SetRaw`. -/
def MemTable.setRaw (m : MemTable) (r : Record) : MemTable where
  entries := setNewer r m.entries
  nextSeq := if m.nextSeq ≤ r.seqNum then r.seqNum + 1 else m.nextSeq
  sorted := m.sorted.setNewer r

/-- `SetRaw` of one record after another. -/
def MemTable.setAll (m : MemTable) (rs : List Record) : MemTable := rs.foldl MemTable.setRaw m

/-- `Size`. -/
def MemTable.size (m : MemTable) : ℕ := m.entries.length

/-- `SortedEntries`. -/
def MemTable.sortedEntries (m : MemTable) : List Record := m.entries

/-- `ScanRange`: the search skips the keys below `lo`, the loop stops behind `hi`. -/
def MemTable.scanRange (m : MemTable) (lo hi : Key) : List Record :=
  (m.sortedEntries.dropWhile fun r => decide (r.key < lo)).takeWhile
    fun r => decide (r.key ≤ hi)

/-! ### Ranges -/

theorem takeWhile_eq_filter {xs : List Record} (hxs : Ascending xs) (hi : Key) :
    (xs.takeWhile fun r => decide (r.key ≤ hi)) = xs.filter fun r => decide (r.key ≤ hi) := by
  induction xs with
  | nil => rfl
  | cons x xs ih =>
    obtain ⟨hx, htail⟩ := List.pairwise_cons.mp hxs
    by_cases h : x.key ≤ hi
    · simp [h, ih htail]
    · have hnone : xs.filter (fun r => decide (r.key ≤ hi)) = [] := by
        refine List.filter_eq_nil_iff.mpr fun r hr => ?_
        simpa using (not_le.mp h).trans (hx r hr)
      simp [h, hnone]

theorem dropWhile_eq_filter {xs : List Record} (hxs : Ascending xs) (lo : Key) :
    (xs.dropWhile fun r => decide (r.key < lo))
      = xs.filter fun r => decide (lo ≤ r.key) := by
  induction xs with
  | nil => rfl
  | cons x xs ih =>
    obtain ⟨hx, htail⟩ := List.pairwise_cons.mp hxs
    by_cases h : x.key < lo
    · simp [h, not_le.mpr h, ih htail]
    · have hall : xs.filter (fun r => decide (lo ≤ r.key)) = xs := by
        refine List.filter_eq_self.mpr fun r hr => ?_
        simpa using (not_lt.mp h).trans (hx r hr).le
      simp [h, not_lt.mp h, hall]

theorem MemTable.scanRange_eq (m : MemTable) (lo hi : Key) :
    m.scanRange lo hi = m.entries.filter (inRange lo hi) := by
  unfold scanRange sortedEntries
  rw [dropWhile_eq_filter m.sorted, takeWhile_eq_filter (m.sorted.filter _), List.filter_filter]
  congr 1
  funext r
  simp [inRange, Bool.and_comm]

/-! ### Replaying records -/

@[simp] theorem MemTable.entries_setAll (m : MemTable) (rs : List Record) :
    (m.setAll rs).entries = rs.foldl (fun xs r => setNewer r xs) m.entries := by
  induction rs generalizing m with
  | nil => rfl
  | cons r rs ih => exact ih (m.setRaw r)

end Lsmdb.Db
