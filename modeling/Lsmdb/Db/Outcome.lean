import Lsmdb.Binary.Words

namespace Lsmdb.Db

open Lsmdb.Binary

/-!
# Calls that may panic

What Go does where a read, a slice, an index or an allocation is not possible: a call returns an
error or it panics (`Fault`).  Signed 64-bit values are integers, their differences taken modulo
`2 ^ 64`.  How much can be allocated is a parameter: an allocation panics if its size is negative
or there is no room for it.
-/

/-! ### Outcomes -/

/-- How a call may end without a result. -/
inductive Fault where
  | error (msg : String)
  | panic (msg : String)
  deriving DecidableEq, Repr

abbrev Outcome (α : Type) := Except Fault α

/-- `fmt.Errorf("what: %w", err)`. -/
def wrap {α : Type} (what : String) : Except String α → Outcome α
  | .error e => .error (.error s!"{what}: {e}")
  | .ok a => .ok a

/-- `int64(n)` of a `uint64`. -/
def int64 (n : ℕ) : ℤ := if n < 2 ^ 63 then n else n - 2 ^ 64

/-- `a - b` on `int64` values. -/
def subInt64 (a b : ℤ) : ℤ := (a - b).bmod (2 ^ 64)

/-- `a + b` on `int64` values. -/
def addInt64 (a b : ℤ) : ℤ := (a + b).bmod (2 ^ 64)

/-- `make([]byte, n)`: the length of the buffer, if there is room for it. -/
def makeBytes (room : ℕ → Bool) (n : ℤ) : Outcome ℕ :=
  if n < 0 ∨ room n.toNat = false then .error (.panic "makeslice: len out of range")
  else .ok n.toNat

/-- `binary.BigEndian.Uint32(buf[pos:])`. -/
def uint32At (buf : List UInt8) (pos : ℕ) : Outcome ℕ :=
  if pos + 4 ≤ buf.length then .ok (wordAt buf pos 4) else .error (.panic "index out of range")

/-- `binary.BigEndian.Uint64(buf[pos:])`. -/
def uint64At (buf : List UInt8) (pos : ℕ) : Outcome ℕ :=
  if pos + 8 ≤ buf.length then .ok (wordAt buf pos 8) else .error (.panic "index out of range")

/-- `buf[start : start+n]`. -/
def slice (buf : List UInt8) (start n : ℕ) : Outcome (List UInt8) :=
  if start + n ≤ buf.length then .ok ((buf.drop start).take n)
  else .error (.panic "slice bounds out of range")

/-- `ReadAt` of `n` bytes. -/
def readAt (file : List UInt8) (n : ℕ) (offset : ℤ) : Except String (List UInt8) :=
  if offset < 0 then .error "negative offset"
  else if n = 0 then .ok []
  else if file.length < offset + n then .error "EOF"
  else .ok ((file.drop offset.toNat).take n)

/-- An error that another package has returned. -/
def Outcome.ofExcept {α : Type} : Except String α → Outcome α
  | .error e => .error (.error e)
  | .ok a => .ok a

theorem uint64At_of_le {buf : List UInt8} {pos : ℕ} (h : pos + 8 ≤ buf.length) :
    uint64At buf pos = .ok (wordAt buf pos 8) :=
  if_pos h

theorem readAt_natCast {file : List UInt8} {n offset : ℕ} (h : offset + n ≤ file.length) :
    readAt file n offset = .ok ((file.drop offset).take n) := by
  unfold readAt
  rw [if_neg (by omega)]
  by_cases hn : n = 0
  · rw [if_pos hn, hn, List.take_zero]
  · rw [if_neg hn, if_neg (by omega), Int.toNat_natCast]

theorem addInt64_eq {a b : ℤ} (hlo : -2 ^ 63 ≤ a + b) (hhi : a + b < 2 ^ 63) :
    addInt64 a b = a + b :=
  Int.bmod_eq_of_le (by omega) (by omega)

theorem addInt64_natCast {a b : ℕ} (h : a + b < 2 ^ 63) : addInt64 a b = (a + b : ℕ) := by
  rw [addInt64_eq (by omega) (by omega), Nat.cast_add]

theorem subInt64_natCast {a b : ℕ} (hle : b ≤ a) (h : a < 2 ^ 63) :
    subInt64 a b = (a - b : ℕ) := by
  unfold subInt64
  rw [← Nat.cast_sub hle]
  exact Int.bmod_eq_of_le (by omega) (by omega)

theorem int64_of_lt {n : ℕ} (h : n < 2 ^ 63) : int64 n = n := by
  unfold int64
  rw [if_pos h]

theorem subInt64_natCast_add {n : ℕ} (start : ℕ) (h : n < 2 ^ 63) :
    subInt64 ((start + n : ℕ) : ℤ) start = n := by
  unfold subInt64
  rw [Nat.cast_add, add_sub_cancel_left]
  exact Int.bmod_eq_of_le (by omega) (by omega)

/-! ### Panics -/

/-- The call returns, with a value or an error. -/
def Safe {α : Type} (x : Outcome α) : Prop := ∀ msg, x ≠ .error (.panic msg)

section Safe
variable {α β : Type}

theorem Safe.error {x : Outcome α} (h : Safe x) {e : Fault} (he : x = .error e) :
    Safe (.error e : Outcome β) := by
  intro msg hmsg
  rw [Except.error.inj hmsg] at he
  exact h msg he

theorem bind_eq_ok {x : Outcome α} {f : α → Outcome β} {b : β} :
    x >>= f = .ok b ↔ ∃ a, x = .ok a ∧ f a = .ok b := by
  cases x <;> simp [bind, Except.bind]

end Safe

end Lsmdb.Db
