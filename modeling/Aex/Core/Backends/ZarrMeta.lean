import Aex.Lib.Fallible
import Aex.Lib.Word
import Aex.Core.Backends.ZarrCodecs
import Aex.Core.DType

/-!
# The metadata of a Zarr array

How the parts of the metadata that are read as values of their own are read: fill
values, names with their configuration, and how chunks are named.
-/

namespace Aex

/-! ## Fill values -/

/-- What floating point does to the numbers of JSON. -/
structure Doubles where
  /-- A number as the bits of a double. -/
  asF64 : Number → Option UInt64
  toF32 : UInt64 → UInt32
  toF16 : UInt64 → UInt16

/-- A JSON number, or one of the three floats JSON cannot write as one. -/
def jsonFloat (f : Doubles) : Value → Option UInt64
  | .number n => f.asF64 n
  | .string "NaN" => some 0x7ff8000000000000
  | .string "Infinity" => some 0x7ff0000000000000
  | .string "-Infinity" => some 0xfff0000000000000
  | _ => none

/-- The integer of a JSON number, if it is one. -/
def jsonInt : Value → Option Int
  | .number (.posInt n) => some n.toNat
  | .number (.negInt i) => some i.toInt
  | _ => none

def hexDigit (c : Char) : Option Nat :=
  if '0' ≤ c ∧ c ≤ '9' then some (c.toNat - '0'.toNat)
  else if 'a' ≤ c ∧ c ≤ 'f' then some (c.toNat - 'a'.toNat + 10)
  else if 'A' ≤ c ∧ c ≤ 'F' then some (c.toNat - 'A'.toNat + 10)
  else none

/-- Hexadecimal digits, after a plus sign if there is one. -/
def fromHex (digits : List Char) : Option Nat :=
  let digits := if digits.head? = some '+' then digits.tail else digits
  if digits = [] then none
  else digits.foldlM (fun n c => do let d ← hexDigit c; some (n * 16 + d)) 0

/-- The bytes of a signed integer of `size` bytes, if the number fits it. -/
def signedBytes (size : Nat) (number : Int) : Option (List UInt8) :=
  if Word.signedMin (8 * size) ≤ number ∧ number ≤ Word.signedMax (8 * size) then
    some (Endian.toLE size (Word.ofSigned (8 * size) number))
  else none

/-- The bytes of an unsigned integer of `size` bytes, if the number fits it. -/
def unsignedBytes (size : Nat) (number : Int) : Option (List UInt8) :=
  if 0 ≤ number ∧ number < Word.size (8 * size) then some (Endian.toLE size number.toNat) else none

/-- A number as an integer type, if it fits. -/
def intBytes (dtype : DType) (number : Int) : Option (List UInt8) :=
  match dtype with
  | .int8 => signedBytes 1 number
  | .int16 => signedBytes 2 number
  | .int32 => signedBytes 4 number
  | .int64 => signedBytes 8 number
  | .uint8 => unsignedBytes 1 number
  | .uint16 => unsignedBytes 2 number
  | .uint32 => unsignedBytes 4 number
  | .uint64 => unsignedBytes 8 number
  | _ => none

/-- The raw bits of a float, written in hexadecimal with the highest digit first. -/
def bitsOf (size : Nat) (hex : List Char) : Option (List UInt8) :=
  if (hex.map Char.utf8Size).sum ≠ size * 2 then none
  else (fromHex hex).map (Endian.toLE size)

/-- One element of a float type. -/
def floatBytes (f : Doubles) (dtype : DType) (value : Value) : Option (List UInt8) :=
  let hex? : Option (List Char) :=
    match value with
    | .string s => if s.toList.take 2 = ['0', 'x'] then some (s.toList.drop 2) else none
    | _ => none
  match hex? with
  | some hex => bitsOf dtype.itemsize hex
  | none => (jsonFloat f value).map fun number =>
      match dtype with
      | .float16 => Endian.toLE 2 (f.toF16 number).toNat
      | .float32 => Endian.toLE 4 (f.toF32 number).toNat
      | _ => Endian.toLE 8 number.toNat

def notFill (w : Wording) (dtype : DType) (value : Value) : AexError :=
  .malformedZarr s!"fill_value {w.display value} is not a {dtype}"

/-- One element of a float type, which is all zeros where no value is given. -/
def floatFill (w : Wording) (f : Doubles) (dtype : DType) : Value → Except AexError (List UInt8)
  | .null => .ok (List.replicate dtype.itemsize 0)
  | value => (floatBytes f dtype value).elim (.error (notFill w dtype value)) .ok

/-- One element of a complex type, whose parts are of type `part`. -/
def complexFill (w : Wording) (f : Doubles) (dtype part : DType) : Value →
    Except AexError (List UInt8)
  | .array [re, im] => do
      let first ← floatFill w f part re
      let second ← floatFill w f part im
      .ok (first ++ second)
  | value => .error (notFill w dtype value)

/-- One element of an integer type. -/
def intFill (w : Wording) (dtype : DType) (value : Value) : Except AexError (List UInt8) :=
  ((jsonInt value).bind (intBytes dtype)).elim (.error (notFill w dtype value)) .ok

/-- One element of a type holding the JSON fill value, as it would be stored. -/
def fillBytes (w : Wording) (f : Doubles) (dtype : DType) : Value → Except AexError (List UInt8)
  | .null => .ok (List.replicate dtype.itemsize 0)
  | value =>
      match dtype with
      | .bool =>
          match value with
          | .bool set => .ok [if set then 1 else 0]
          | _ => .error (notFill w dtype value)
      | .complex64 => complexFill w f dtype .float32 value
      | .complex128 => complexFill w f dtype .float64 value
      | .float16 | .float32 | .float64 => floatFill w f dtype value
      | _ => intFill w dtype value

section Fill

variable {w : Wording} {f : Doubles} {dtype : DType} {value : Value} {bytes : List UInt8}
  {number : Int} {size : Nat}

theorem length_signedBytes (h : signedBytes size number = some bytes) : bytes.length = size := by
  unfold signedBytes at h
  split at h <;> cases h
  exact Endian.length_toLE

theorem length_unsignedBytes (h : unsignedBytes size number = some bytes) : bytes.length = size := by
  unfold unsignedBytes at h
  split at h <;> cases h
  exact Endian.length_toLE

theorem length_intBytes (h : intBytes dtype number = some bytes) : bytes.length = dtype.itemsize := by
  cases dtype <;> first | exact length_signedBytes h | exact length_unsignedBytes h | cases h

theorem length_floatBytes (hdtype : dtype = .float16 ∨ dtype = .float32 ∨ dtype = .float64)
    (h : floatBytes f dtype value = some bytes) : bytes.length = dtype.itemsize := by
  unfold floatBytes at h
  dsimp only at h
  split at h
  · unfold bitsOf at h
    split at h
    · cases h
    · obtain ⟨bits, -, rfl⟩ := Option.map_eq_some_iff.mp h
      exact Endian.length_toLE
  · obtain ⟨number, -, rfl⟩ := Option.map_eq_some_iff.mp h
    rcases hdtype with rfl | rfl | rfl <;> exact Endian.length_toLE

theorem length_floatFill (hdtype : dtype = .float16 ∨ dtype = .float32 ∨ dtype = .float64)
    (h : floatFill w f dtype value = .ok bytes) : bytes.length = dtype.itemsize := by
  unfold floatFill at h
  split at h
  · cases h
    exact List.length_replicate
  · cases hbytes : floatBytes f dtype value with
    | none =>
        rw [hbytes] at h
        cases h
    | some out =>
        rw [hbytes] at h
        cases h
        exact length_floatBytes hdtype hbytes

theorem length_complexFill {part : DType} (hpart : part = .float32 ∨ part = .float64)
    (h : complexFill w f dtype part value = .ok bytes) :
    bytes.length = part.itemsize + part.itemsize := by
  have hfloat : part = .float16 ∨ part = .float32 ∨ part = .float64 := Or.inr hpart
  unfold complexFill at h
  split at h
  · obtain ⟨first, hfirst, h⟩ := Fallible.bind_eq_ok.mp h
    obtain ⟨second, hsecond, h⟩ := Fallible.bind_eq_ok.mp h
    cases h
    rw [List.length_append, length_floatFill hfloat hfirst, length_floatFill hfloat hsecond]
  · cases h

theorem length_intFill (h : intFill w dtype value = .ok bytes) : bytes.length = dtype.itemsize := by
  unfold intFill at h
  cases hbytes : (jsonInt value).bind (intBytes dtype) with
  | none =>
      rw [hbytes] at h
      cases h
  | some out =>
      rw [hbytes] at h
      cases h
      obtain ⟨number, -, hout⟩ := Option.bind_eq_some_iff.mp hbytes
      exact length_intBytes hout

/-- A fill value is one element. -/
theorem length_fillBytes (h : fillBytes w f dtype value = .ok bytes) :
    bytes.length = dtype.itemsize := by
  unfold fillBytes at h
  split at h
  · cases h
    exact List.length_replicate
  split at h
  · split at h <;> cases h
    rfl
  · exact length_complexFill (Or.inl rfl) h
  · exact length_complexFill (Or.inr rfl) h
  · exact length_floatFill (by simp) h
  · exact length_floatFill (by simp) h
  · exact length_floatFill (by simp) h
  · exact length_intFill h

end Fill

/-! ## Names and what configures them -/

/-- A value as a name with its configuration: an object, or the fields in order. -/
def Value.toNamed : Value → Option Named
  | .object fields =>
      match fields.lookup "name" with
      | some (.string name) =>
          match fields.lookup "configuration" with
          | none => some ⟨name, []⟩
          | some (.object configuration) => some ⟨name, configuration⟩
          | some _ => none
      | _ => none
  | .array [.string name] => some ⟨name, []⟩
  | .array [.string name, .object configuration] => some ⟨name, configuration⟩
  | _ => none

/-- A value as a list of names with their configurations, if it is one. -/
def Value.toVecNamed : Value → Option (List Named)
  | .array values => values.mapM Value.toNamed
  | _ => none

/-- How the JSON library also words why a value is not a list of names. -/
structure MetaWording extends Wording where
  notVecNamed : Value → String

/-- How a chunk's coordinates become its file name. -/
structure KeyEncoding where
  /-- The `default` encoding prefixes `c`; the `v2` encoding does not. -/
  prefixed : Bool
  separator : Char
  deriving Repr, DecidableEq

/-- What the separator of an encoding is set to, if not left as it is. -/
def separatorOf (w : Wording) (pfx : String) (configuration : List (String × Value)) (usual : Char) :
    Except AexError Char :=
  match configuration.lookup "separator" with
  | none => .ok usual
  | some (.string "/") => .ok '/'
  | some (.string ".") => .ok '.'
  | some other => .error (.malformedZarr s!"{pfx}: chunk key separator {w.display other}")

def keyEncoding (w : Wording) (pfx : String) : Option Named → Except AexError KeyEncoding
  | none => .ok ⟨true, '/'⟩
  | some named => do
      let (prefixed, usual) ←
        match named.name with
        | "default" => .ok (true, '/')
        | "v2" => .ok (false, '.')
        | other => .error (.unsupportedZarr s!"{pfx} names its chunks with the {other.quote} encoding")
      let separator ← separatorOf w pfx named.configuration usual
      .ok ⟨prefixed, separator⟩

/-- The sharding codec of a chain, if that is what the chain is. -/
def shardingOf : List Named → Option Named
  | [only] => if only.name = "sharding_indexed" then some only else none
  | _ => none

end Aex
