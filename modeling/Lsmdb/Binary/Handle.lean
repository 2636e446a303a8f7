import Mathlib.Data.List.Basic
import Mathlib.Tactic.Ring

namespace Lsmdb.Binary

/-!
# Open files and unsigned words

A file opened for reading and writing: its bytes and the position of the next write.  Writing at
the end appends, and writing as many bytes over the beginning replaces them (`Handle.write_end`,
`Handle.writeAt_zero`).  Beside it the differences and sums of `uint64` values.
-/

/-! ### Unsigned words -/

/-- `uint64(n)` of a signed value. -/
def uint64 (n : ℤ) : ℕ := (n % 2 ^ 64).toNat

/-- `a - b` on `uint64` values. -/
def subUint64 (a b : ℕ) : ℕ := (a + 2 ^ 64 - b) % 2 ^ 64

/-- `a + b` on `uint64` values. -/
def addUint64 (a b : ℕ) : ℕ := (a + b) % 2 ^ 64

theorem uint64_natCast {n : ℕ} (h : n < 2 ^ 64) : uint64 n = n := by
  unfold uint64
  omega

theorem subUint64_eq {a b : ℕ} (hle : b ≤ a) (ha : a < 2 ^ 64) : subUint64 a b = a - b := by
  unfold subUint64
  omega

theorem addUint64_eq {a b : ℕ} (h : a + b < 2 ^ 64) : addUint64 a b = a + b :=
  Nat.mod_eq_of_lt h

/-! ### Files -/

/-- An open file. -/
structure Handle (α : Type*) where
  content : List α := []
  pos : ℕ := 0
  deriving DecidableEq, Repr

namespace Handle
variable {α : Type*}

/-- `WriteAt`: the position stays. -/
def writeAt (f : Handle α) (bs : List α) (offset : ℕ) : Handle α where
  content := f.content.take offset ++ (bs ++ f.content.drop (offset + bs.length))
  pos := f.pos

/-- `Seek(offset, io.SeekStart)`. -/
def seek (f : Handle α) (offset : ℕ) : Handle α := { f with pos := offset }

/-- `Write`. -/
def write (f : Handle α) (bs : List α) : Handle α :=
  (f.writeAt bs f.pos).seek (f.pos + bs.length)

/-- The file with everything written so far, at its end. -/
def ending (bs : List α) : Handle α := { content := bs, pos := bs.length }

@[simp] theorem write_end (bs more : List α) : (ending bs).write more = ending (bs ++ more) := by
  simp [ending, write, writeAt, seek]

/-- Writing over the beginning, and going back to the end. -/
theorem writeAt_zero {old new : List α} (rest : List α) (h : old.length = new.length) :
    ((ending (old ++ rest)).writeAt new 0).seek (ending (old ++ rest)).pos =
      ending (new ++ rest) := by
  simp [ending, writeAt, seek, h]

end Handle

end Lsmdb.Binary
