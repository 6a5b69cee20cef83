import Mathlib.Tactic.Basic

/-!
# Element types

The fourteen element types that can be transferred, and their `descr` strings.
-/

namespace Aex

inductive DType where
  | int8
  | int16
  | int32
  | int64
  | uint8
  | uint16
  | uint32
  | uint64
  | float16
  | float32
  | float64
  | complex64
  | complex128
  | bool
  deriving Repr, DecidableEq

namespace DType

def itemsize : DType → Nat
  | .int8 | .uint8 | .bool => 1
  | .int16 | .uint16 | .float16 => 2
  | .int32 | .uint32 | .float32 => 4
  | .int64 | .uint64 | .float64 | .complex64 => 8
  | .complex128 => 16

/-- The value of a type on the wire. -/
def asI32 : DType → UInt8
  | .int8 => 0
  | .int16 => 1
  | .int32 => 2
  | .int64 => 3
  | .uint8 => 4
  | .uint16 => 5
  | .uint32 => 6
  | .uint64 => 7
  | .float16 => 8
  | .float32 => 9
  | .float64 => 10
  | .complex64 => 11
  | .complex128 => 12
  | .bool => 13

/-- The numpy `descr` string, which is also how a type is printed. -/
def descr : DType → String
  | .bool => "|b1"
  | .int8 => "|i1"
  | .int16 => "<i2"
  | .int32 => "<i4"
  | .int64 => "<i8"
  | .uint8 => "|u1"
  | .uint16 => "<u2"
  | .uint32 => "<u4"
  | .uint64 => "<u8"
  | .float16 => "<f2"
  | .float32 => "<f4"
  | .float64 => "<f8"
  | .complex64 => "<c8"
  | .complex128 => "<c16"

instance : ToString DType := ⟨descr⟩

/-- From numpy's name for the type, which is also Zarr's. -/
def fromName : String → Option DType
  | "bool" => some .bool
  | "int8" => some .int8
  | "int16" => some .int16
  | "int32" => some .int32
  | "int64" => some .int64
  | "uint8" => some .uint8
  | "uint16" => some .uint16
  | "uint32" => some .uint32
  | "uint64" => some .uint64
  | "float16" => some .float16
  | "float32" => some .float32
  | "float64" => some .float64
  | "complex64" => some .complex64
  | "complex128" => some .complex128
  | _ => none

theorem itemsize_pos (d : DType) : 0 < d.itemsize := by
  cases d <;> decide

theorem itemsize_le (d : DType) : d.itemsize ≤ 16 := by
  cases d <;> decide

/-- Every item size divides every larger power of two. -/
theorem itemsize_dvd_sixteen (d : DType) : d.itemsize ∣ 16 := by
  cases d <;> decide

end DType

end Aex
