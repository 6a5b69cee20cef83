import Aex.Core.DType

/-!
# Quality and codec

What is done to the elements of a transfer and how its payload is compressed.
A request that cannot be honoured falls back to `exact` rather than failing.
-/

namespace Aex

inductive Encoding where
  | exact
  | dtypeCast
  | errorBound
  deriving Repr, DecidableEq

inductive Codec where
  | raw
  | sz
  | zfp
  | gzip
  deriving Repr, DecidableEq

/-- The value of an encoding on the wire. -/
def Encoding.asU8 : Encoding → UInt8
  | .exact => 0
  | .dtypeCast => 1
  | .errorBound => 2

/-- From the wire; `none` for a value this build does not know. -/
def Encoding.fromU8 : UInt8 → Option Encoding
  | 0 => some .exact
  | 1 => some .dtypeCast
  | 2 => some .errorBound
  | _ => none

theorem Encoding.fromU8_eq_some {v : UInt8} {e : Encoding} : fromU8 v = some e ↔ v = e.asU8 := by
  constructor
  · unfold fromU8
    intro h
    split at h <;> cases h <;> rfl
  · rintro rfl
    cases e <;> rfl

/-- The value of a codec on the wire. -/
def Codec.asU8 : Codec → UInt8
  | .raw => 0
  | .sz => 1
  | .zfp => 2
  | .gzip => 3

/-- From the wire; `none` for a value this build does not know. -/
def Codec.fromU8 : UInt8 → Option Codec
  | 0 => some .raw
  | 1 => some .sz
  | 2 => some .zfp
  | 3 => some .gzip
  | _ => none

theorem Codec.fromU8_eq_some {v : UInt8} {c : Codec} : fromU8 v = some c ↔ v = c.asU8 := by
  constructor
  · unfold fromU8
    intro h
    split at h <;> cases h <;> rfl
  · rintro rfl
    cases c <;> rfl

/-- The bits of a 64-bit float. -/
abbrev F64 := BitVec 64

namespace F64

def isFinite (x : F64) : Bool := x.extractLsb' 52 11 != 0x7FF#11

/-- `x > 0.0`: a clear sign bit, not zero and not a NaN. -/
def isPositive (x : F64) : Bool := 0 < x.toNat && x.toNat ≤ 0x7FF0000000000000

end F64

/-- The optional features a build was compiled with. -/
structure Build where
  sz : Bool
  zfp : Bool
  deriving Repr, DecidableEq

namespace Codec

/-- The name a codec is printed under. -/
def debug : Codec → String
  | .raw => "Raw"
  | .sz => "Sz"
  | .zfp => "Zfp"
  | .gzip => "Gzip"

def isErrorBounded : Codec → Bool
  | .sz | .zfp => true
  | .raw | .gzip => false

/-- Whether this build can produce it. -/
def isSupported (build : Build) : Codec → Bool
  | .raw | .gzip => true
  | .sz => build.sz
  | .zfp => build.zfp

/-- The error-bounded codec a build reaches for when the client names none. -/
def defaultLossy (build : Build) : Codec := if build.sz then .sz else .zfp

end Codec

/-- Whether this build can produce it. -/
def Encoding.isSupported (build : Build) : Encoding → Bool
  | .exact | .dtypeCast => true
  | .errorBound => build.sz || build.zfp

/-- What a client asks for, or what a server applied. -/
structure QualitySpec where
  encoding : Encoding := .exact
  castDtype : Option DType := none
  absErrorBound : Option F64 := none
  relErrorBound : Option F64 := none
  codec : Option Codec := none
  deriving Repr, DecidableEq

namespace QualitySpec

def exact : QualitySpec := {}

/-- The codec carrying this quality, with the build's default filled in. -/
def codecFor (build : Build) (q : QualitySpec) : Codec :=
  match q.encoding with
  | .errorBound => (q.codec.filter Codec.isErrorBounded).getD (Codec.defaultLossy build)
  | _ => (q.codec.filter fun c => !c.isErrorBounded && c.isSupported build).getD .raw

def canApply (build : Build) (q : QualitySpec) (dtype : DType) : Bool :=
  match q.encoding with
  | .exact => true
  | .errorBound =>
      (q.codecFor build).isSupported build && (dtype = .float32 || dtype = .float64) &&
        q.relErrorBound.isNone &&
        q.absErrorBound.any fun bound => bound.isFinite && bound.isPositive
  | .dtypeCast =>
      match dtype, q.castDtype with
      | .float64, some .float32 | .float32, some .float16 => true
      | _, _ => false

/-- What a server can actually produce for this request, on `dtype`. -/
def applied (build : Build) (q : QualitySpec) (dtype : DType) : QualitySpec :=
  if q.canApply build dtype then q else exact

/-- The element type that travels, given the array's own. -/
def wireDtype (build : Build) (q : QualitySpec) (dtype : DType) : DType :=
  match q.encoding with
  | .dtypeCast => if q.canApply build dtype then q.castDtype.getD dtype else dtype
  | _ => dtype

/-- The error bound, when there is one. -/
def eps (q : QualitySpec) : Option F64 :=
  if q.encoding = .errorBound then q.absErrorBound else none

/-! ## What an applied quality promises -/

variable {build : Build} {q : QualitySpec} {dtype : DType}

theorem applied_canApply (build : Build) (q : QualitySpec) (dtype : DType) :
    (q.applied build dtype).canApply build dtype = true := by
  unfold applied
  split
  · assumption
  · rfl

/-- An error-bounded quality never travels raw. -/
theorem codecFor_ne_raw (h : q.encoding = .errorBound) : q.codecFor build ≠ .raw := by
  simp only [codecFor, h]
  cases hc : q.codec.filter Codec.isErrorBounded with
  | none =>
      unfold Codec.defaultLossy
      split <;> simp
  | some c =>
      rw [Option.filter_eq_some_iff] at hc
      rintro rfl
      exact absurd hc.2 (by decide)

/-- The codec of an applied quality is one the build has. -/
theorem codecFor_isSupported (h : q.canApply build dtype = true) :
    (q.codecFor build).isSupported build = true := by
  cases he : q.encoding with
  | errorBound =>
      simp only [canApply, he, Bool.and_eq_true] at h
      exact h.1.1.1
  | exact | dtypeCast =>
      simp only [codecFor, he]
      cases hc : q.codec.filter fun c => !c.isErrorBounded && c.isSupported build with
      | none => rfl
      | some c =>
          rw [Option.filter_eq_some_iff, Bool.and_eq_true] at hc
          exact hc.2.2

/-- An applied error bound is a positive number, carried by floats only. -/
theorem eps_of_canApply (h : q.canApply build dtype = true) (he : q.encoding = .errorBound) :
    (dtype = .float32 ∨ dtype = .float64) ∧
      ∃ bound, q.eps = some bound ∧ bound.isFinite = true ∧ bound.isPositive = true := by
  simp only [canApply, he, Bool.and_eq_true, Bool.or_eq_true, decide_eq_true_eq] at h
  obtain ⟨⟨⟨-, hdtype⟩, -⟩, hbound⟩ := h
  rw [Option.any_eq_true] at hbound
  obtain ⟨bound, hsome, hgood⟩ := hbound
  rw [Bool.and_eq_true] at hgood
  exact ⟨hdtype, bound, by simp [eps, he, hsome], hgood⟩

end QualitySpec

end Aex
