import Aex.Core.Reduce.Model
import Aex.Lib.Radix

/-!
# numpy's reductions of integers and bools

Every cell of the result is a function of the selected elements whose kept coordinates
are the cell's, in C order.
-/

namespace Aex

namespace Reduce

namespace Numpy

open Radix

/-! ## Axes -/

/-- An axis that may count from the end. -/
def axisIndex (ndim : Nat) (a : Int64) : Int := if a < 0 then a.toInt + ndim else a.toInt

/-- Whether an axis argument names the dimension `d`. -/
def reduces (ndim : Nat) (axis : Axis) (d : Nat) : Bool :=
  match axis with
  | .all => true
  | .one a => axisIndex ndim a = d
  | .many axes => axes.any fun a => axisIndex ndim a = d

def mask (ndim : Nat) (axis : Axis) : List Bool := (List.range ndim).map (reduces ndim axis)

/-- Reduced dimensions have length 1 or are dropped. -/
def resultShape (shape : List Nat) (args : ReduceArgs) : List Nat :=
  let mask := mask shape.length args.axis
  if args.keepdims then List.zipWith (fun len reduced => if reduced then 1 else len) shape mask
  else keep mask shape

/-- The position of the element number `k`: along the one axis, or in all of the selection. -/
def position (shape : List Nat) (axis : Axis) (k : Nat) : Nat :=
  match axis with
  | .one a => (coords shape k).getD (axisIndex shape.length a).toNat 0
  | _ => k

/-! ## Cells -/

/-- The elements that one cell is made from, with their positions. -/
def members (shape : List Nat) (axis : Axis) (values : List Int) (c : Nat) : List (Nat × Int) :=
  let mask := mask shape.length axis
  (values.zipIdx.filter fun (_, k) => keep mask (coords shape k) = coords (keep mask shape) c).map
    fun (x, k) => (position shape axis k, x)

/-- An integer in the bytes of a type. -/
def encode (dtype : DType) (x : Int) : List UInt8 :=
  Endian.toLE dtype.itemsize (Word.ofSigned (8 * dtype.itemsize) x)

def encodeBool (b : Bool) : List UInt8 := [UInt8.ofNat b.toNat]

/-- The position of the first that is `best`. -/
def first (best : Option Int) (data : List (Nat × Int)) : Option (List UInt8) :=
  (data.find? fun d => best = some d.2).map fun d => Endian.toLE 8 d.1

/-- What the elements of a cell reduce to; sums and products modulo 2^64. -/
def cell (function : Function) (dtype : DType) (data : List (Nat × Int)) : Option (List UInt8) :=
  let xs := data.map Prod.snd
  match function with
  | .sum => some (Endian.toLE 8 (Word.ofSigned 64 xs.sum))
  | .prod => some (Endian.toLE 8 (Word.ofSigned 64 xs.prod))
  | .max => xs.max?.map (encode dtype)
  | .min => xs.min?.map (encode dtype)
  | .all => some (encodeBool (xs.all (· ≠ 0)))
  | .any => some (encodeBool (xs.any (· ≠ 0)))
  | .argmax => first xs.max? data
  | .argmin => first xs.min? data
  | _ => none

/-- The functions above. -/
def covers : Function → Bool
  | .sum | .prod | .max | .min | .all | .any | .argmax | .argmin => true
  | _ => false

/-- The whole result. -/
def reduced (shape : List Nat) (dtype : DType) (function : Function) (args : ReduceArgs)
    (values : List Int) : Option Reduced :=
  let cells := (List.range (keep (mask shape.length args.axis) shape).prod).mapM fun c =>
    cell function dtype (members shape args.axis values c)
  cells.map fun cells => ⟨function.resultDtype dtype, resultShape shape args, cells.flatten⟩

/-! ## Values -/

/-- Whether the integers of a type have a sign. -/
def signed : DType → Bool
  | .int8 | .int16 | .int32 | .int64 => true
  | _ => false

/-- The integer that an element is; a bool is 0 or 1. -/
def value (dtype : DType) (bytes : List UInt8) : Int :=
  if dtype = .bool then if bytes.headD 0 = 0 then 0 else 1
  else if signed dtype then Word.toSigned (8 * dtype.itemsize) (Endian.ofLE bytes)
  else Endian.ofLE bytes

def values (dtype : DType) (stream : List UInt8) : List Int :=
  (chunksExact dtype.itemsize stream).map (value dtype)

end Numpy

end Reduce

end Aex
