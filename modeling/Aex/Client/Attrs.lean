import Aex.Client.Plan
import Aex.Core.Backends.ZarrAttrs
import Aex.Server.Error

/-!
# Attributes on the wire

An attribute is put into a message by the server and taken out of it by the client,
which holds the length of the data against the shape and the type.
-/

namespace Aex

namespace Proto

structure AttrArray where
  dtype : Int
  shape : List Int
  data : List UInt8
  deriving Repr, DecidableEq

inductive AttributeValue where
  | text (text : String)
  | array (array : AttrArray)
  deriving Repr, DecidableEq

structure Attribute where
  name : String
  value : Option AttributeValue
  deriving Repr, DecidableEq

end Proto

/-- The wire carries shapes as int64.  A longer axis cannot be described. -/
def shapeToProto (shape : List Nat) : Except ServerError (List Int) :=
  shape.mapM fun n : Nat =>
    if (n : Int) ≤ Word.signedMax 64 then .ok (n : Int)
    else .error (.core (.malformedNpy
      s!"axis of {n} elements does not fit the int64 shape on the wire"))

def attrToProto (name : String) : AttrValue → Except ServerError Proto.Attribute
  | .text text => .ok ⟨name, some (.text text)⟩
  | .array dtype shape data => do
      let shape ← shapeToProto shape
      .ok ⟨name, some (.array ⟨dtype.asI32.toNat, shape, data⟩)⟩

def attrFromProto (attr : Proto.Attribute) : Except ClientError (String × AttrValue) :=
  match attr.value with
  | none => .error (.protocol s!"attribute {attr.name.quote} has no value")
  | some (.text text) => .ok (attr.name, .text text)
  | some (.array array) => do
      let dtype ← (DType.fromI32 array.dtype).mapError fun e => .protocol e.message
      let shape ← shapeFromProto array.shape
      -- Nothing downstream can recover from a length that disagrees with the type.
      let expected := nbytes shape dtype
      if array.data.length ≠ expected then
        .error (.protocol <| s!"attribute {attr.name.quote} is {array.data.length} bytes, " ++
          s!"but {shape} of {dtype} is {expected}")
      else .ok (attr.name, .array dtype shape array.data)

section Length

variable {shape : List Nat} {dtype : DType} {data : List UInt8} {name : String}

theorem nbytes_eq (h : shape.prod * dtype.itemsize < Word.size 64) :
    nbytes shape dtype = shape.prod * dtype.itemsize := by
  have hsize : dtype.itemsize ≤ Word.size 64 - 1 := Nat.le_trans dtype.itemsize_le (by decide)
  rw [nbytes, Word.foldl_saturatingMul hsize, Nat.mul_comm]
  omega

theorem shapeToProto_eq (h : ∀ n ∈ shape, n < 2 ^ 63) :
    shapeToProto shape = .ok (shape.map fun n : Nat => (n : Int)) := by
  unfold shapeToProto
  induction shape with
  | nil => rfl
  | cons n shape ih =>
      rw [List.forall_mem_cons] at h
      have hfits : (n : Int) ≤ Word.signedMax 64 := by
        have := h.1
        rw [Word.signedMax]
        omega
      rw [List.mapM_cons, if_pos hfits, ih h.2]
      rfl

theorem shapeFromProto_map : shapeFromProto (shape.map fun n : Nat => (n : Int)) = .ok shape := by
  unfold shapeFromProto
  induction shape with
  | nil => rfl
  | cons n shape ih =>
      rw [List.map_cons, List.mapM_cons, if_neg (Int.not_lt.mpr (Int.natCast_nonneg n)), ih]
      rfl

/-- An array of the length its shape says goes through the wire as it is. -/
theorem attrFromProto_attrToProto (h : ∀ n ∈ shape, n < 2 ^ 63)
    (hdata : data.length = nbytes shape dtype) :
    ∃ attr, attrToProto name (.array dtype shape data) = .ok attr ∧
      attrFromProto attr = .ok (name, .array dtype shape data) := by
  refine ⟨⟨name, some (.array ⟨dtype.asI32.toNat, shape.map fun n : Nat => (n : Int), data⟩)⟩, ?_, ?_⟩
  · rw [attrToProto, shapeToProto_eq h]
    rfl
  · simp only [attrFromProto, DType.fromI32_asI32, shapeFromProto_map, Except.mapError]
    exact if_neg (not_not.mpr hdata)

end Length

/-! ## Attributes of a Zarr node -/

/-- The doubles of JSON as they are; what becomes of its integers is left open. -/
def plainDoubles : Doubles where
  asF64
    | .float bits => some bits
    | .posInt n => some n
    | .negInt i => some i.toUInt64
  toF32 bits := bits.toUInt32
  toF16 bits := bits.toUInt16

/-- Two rows of one double. -/
def rows : Value :=
  .array [.array [.number (.float 0x3ff8000000000000)], .array [.number (.float 0x4004000000000000)]]

theorem rows_nests : rows.Nests [2, 1] := by
  simp [rows, Value.Nests, Value.isLeaf, Value.isNumber]

end Aex
