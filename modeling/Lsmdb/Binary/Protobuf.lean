import Mathlib.Data.List.Basic
import Mathlib.Tactic.Ring

namespace Lsmdb.Binary

/-!
# Binary formats — the protobuf wire format

Base-128 varints, field tags and the field encodings of proto3, as far as sizes depend on
them.  A scalar or `bytes` field that holds its default value is not written; an embedded
message is written with its length in front.

A tag of a field number below sixteen takes one byte, a 64-bit varint at most ten, and a
length below `2 ^ 28` at most four.
-/

/-- A number in groups of seven bits, lowest first; every byte but the last has its high bit
    set. -/
def varint (n : ℕ) : List UInt8 :=
  if n < 128 then [UInt8.ofNat n] else UInt8.ofNat (n % 128 + 128) :: varint (n / 128)
termination_by n
decreasing_by omega

/-- The tag of a field: its number and its wire type. -/
def tag (field wire : ℕ) : List UInt8 := varint (field * 8 + wire)

/-- An unsigned integer or Boolean field (wire type 0). -/
def uintField (field value : ℕ) : List UInt8 :=
  if value = 0 then [] else tag field 0 ++ varint value

/-- An embedded message (wire type 2). -/
def messageField (field : ℕ) (body : List UInt8) : List UInt8 :=
  tag field 2 ++ (varint body.length ++ body)

/-- A `bytes` field (wire type 2). -/
def bytesField (field : ℕ) (value : List UInt8) : List UInt8 :=
  if value = [] then [] else messageField field value

/-! ### Sizes -/

end Lsmdb.Binary
