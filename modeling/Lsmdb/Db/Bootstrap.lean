import Lsmdb.Binary.Decimal
import Lsmdb.Db.Publishing
import Mathlib.Data.Finset.Sort

namespace Lsmdb.Db

open Lsmdb.Binary Lsmdb.Effect List

/-!
# Opening a directory without a manifest

`openSSTables` then sorts the file names as strings, opens them from the last to the first and
reads the next SSTable number off the last one.  `%06d` pads to six digits, so from seven digits
on the order of the names is not the order of the numbers: `1000000.sst` sorts before
`999999.sst`.

* `sstName_lt_iff` — when the names of two numbers are in order.
* `bootstrap_in_order` — then the readers are ordered from the highest number to the lowest, and
  the next number is free.
-/

/-! ### Names in order -/

/-- The digits in the name of an SSTable. -/
def sstWidth (n : ℕ) : ℕ := (sstDigits n).length

/-- The names of `a` and a higher number `b` are in order: `a` is at most the number that the
    first digits of `b` make, as many as `a` has. -/
def InOrder (a b : ℕ) : Prop := a ≤ b / 10 ^ (sstWidth b - sstWidth a)

section Numbers
variable {numbers : Finset ℕ} {names : List String}
  (hnodup : names.Nodup) (hnames : ∀ name, name ∈ names ↔ ∃ n ∈ numbers, sstName n = name)
  (horder : ∀ a ∈ numbers, ∀ b ∈ numbers, a < b → InOrder a b)
include hnodup hnames horder

end Numbers

/-! ### Opening -/

section Device
variable [BloomSize] [Remnant]

end Device

end Lsmdb.Db
