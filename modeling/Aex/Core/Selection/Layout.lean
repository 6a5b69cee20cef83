import Aex.Core.Block
import Aex.Core.Selection.Resolve

/-!
# Selections as logical byte streams

A resolved selection is one run of bytes in the source, or a walk over its
output dimensions: the source element behind an output position is `base` plus
one term per dimension.  Arithmetic is that of 64-bit words, checked where the
code checks it and wrapping where it does not.
-/

namespace Aex

/-- What one output dimension adds to the source element as its index moves. -/
inductive Dim where
  | stride (len : Nat) (step : Int)
  | list (offsets : List Nat)
  deriving Repr, DecidableEq

namespace Dim

def len : Dim → Nat
  | .stride len _ => len
  | .list offsets => offsets.length

/-- The term for index `k`, modulo the word size: a negative stride only lands on
a valid element once the other terms are added. -/
def term (k : Nat) : Dim → Nat
  | .stride _ step => Word.wrappingMul 64 k (Word.ofSigned 64 step)
  | .list offsets => offsets.getD k 0

end Dim

/-- A selection that is not one run. -/
structure Gathered where
  base : Nat
  /-- Output dimensions longer than 1, in output order. -/
  dims : List Dim
  deriving Repr, DecidableEq

/-- Source elements per step along each axis, in C order. -/
def stridesOf : List Nat → Option (List Nat)
  | [] => some []
  | [_] => some [1]
  | _ :: dim :: rest => do
      let strides ← stridesOf (dim :: rest)
      let stride ← Word.checkedMul 64 (strides.headD 1) dim
      some (stride :: strides)

namespace Gathered

def tooLarge (shape : List Nat) : AexError :=
  .badSelection s!"an array of shape {shape} has more elements than an offset can address"

/-- The walk as its axes are visited, and where the group's dimension goes. -/
structure Partial where
  base : Nat
  dims : List Dim
  groupAt : Option Nat
  deriving Repr, DecidableEq

/-- Visit one axis: a group axis only marks the place of the group. -/
def visit (shape : List Nat) (group : Option Advanced) (p : Partial) :
    (AxisSel × Nat) × Nat → Except AexError Partial
  | ((sel, stride), axis) =>
      if group.any fun g => g.axes.contains axis then
        .ok { p with groupAt := some (p.groupAt.getD p.dims.length) }
      else
        match sel with
        | .point index =>
            .ok { p with base := Word.wrappingAdd 64 p.base (Word.wrappingMul 64 index stride) }
        | .range start len step =>
            let base := Word.wrappingAdd 64 p.base (Word.wrappingMul 64 start stride)
            if 1 < len then
              match (Word.checkedToSigned 64 stride).bind (Word.checkedMulSigned 64 · step) with
              | none => .error (tooLarge shape)
              | some step => .ok { p with base := base, dims := p.dims ++ [.stride len step] }
            else .ok { p with base := base }
        -- An index array is always in the group.
        | .fancy _ => .ok p

/-- Add the terms of one index array, position by position. -/
def addTerms (stride : Nat) : List Nat → List Nat → List Nat
  | offset :: offsets, index :: indices =>
      Word.wrappingAdd 64 offset (Word.wrappingMul 64 index stride) :: addTerms stride offsets indices
  | offsets, _ => offsets

/-- Visit one axis of the group: a scalar or a list of one index goes into the base. -/
def visitGroup (axes : List AxisSel) (strides : List Nat) (p : Nat × List Nat) (axis : Nat) :
    Nat × List Nat :=
  let stride := strides.getD axis 1
  match axes.getD axis (.point 0) with
  | .point index => (Word.wrappingAdd 64 p.1 (Word.wrappingMul 64 index stride), p.2)
  | .fancy [index] => (Word.wrappingAdd 64 p.1 (Word.wrappingMul 64 index stride), p.2)
  | .fancy list => (p.1, addTerms stride p.2 list)
  -- A slice is never in the group.
  | .range _ _ _ => p

def new (shape : List Nat) (resolved : ResolvedSelection) : Except AexError Gathered :=
  match stridesOf shape with
  | none => .error (tooLarge shape)
  | some strides => do
      let p ← (resolved.axes.zip strides).zipIdx.foldlM (visit shape resolved.advanced) ⟨0, [], none⟩
      match resolved.advanced with
      | none => .ok ⟨p.base, p.dims⟩
      | some group =>
          let (base, offsets) := group.axes.foldl (visitGroup resolved.axes strides)
            (p.base, List.replicate group.len 0)
          if 1 < group.len then
            let place := if group.adjacent then p.groupAt.getD 0 else 0
            .ok ⟨base, p.dims.insertIdx place (.list offsets)⟩
          else .ok ⟨base, p.dims⟩

end Gathered

/-- How the selected bytes lie in the source. -/
inductive LayoutKind where
  | contiguous (srcOffset len : Nat)
  | gathered (g : Gathered)
  deriving Repr, DecidableEq

/-- Whether walking the axes independently visits what was selected. -/
def walksIndependently (resolved : ResolvedSelection) : Bool :=
  match resolved.advanced with
  | none => true
  | some group =>
      group.adjacent &&
        (group.axes.countP fun axis => 1 < (resolved.axes.getD axis (.point 0)).len) ≤ 1

/-- The one run of source elements a selection covers, if it is one. -/
def contiguousRun (shape : List Nat) (axes : List AxisSel) : Option (Nat × Nat) := do
  let runs ← axes.mapM AxisSel.asRun
  if runs.any fun run => run.2 = 0 then some (0, 0)
  else
    -- Past the first axis that takes more than one index, every axis takes all of its own.
    let below := ((runs.zip shape).dropWhile fun (run, _) => run.2 ≤ 1).tail
    if below.any fun (run, dim) => run.1 ≠ 0 || run.2 ≠ dim then none
    else
      let offset := (runs.zip shape).foldl (fun offset (run, dim) =>
        Word.wrappingAdd 128 (Word.wrappingMul 128 offset dim) run.1) 0
      let len := runs.foldl (fun len run => Word.wrappingMul 128 len run.2) 1
      if offset < Word.size 64 ∧ len < Word.size 64 then some (offset, len) else none

/-- A selection resolved into a logical byte stream. -/
structure SelectionLayout where
  outShape : List Nat
  dtype : DType
  srcDtype : DType
  totalBytes : Nat
  quality : QualitySpec
  kind : LayoutKind
  deriving Repr, DecidableEq

namespace SelectionLayout

variable {build : Build} {shape : List Nat} {dtype : DType} {indices : List Index}
  {quality : QualitySpec} {L : SelectionLayout}

/-- The bytes of a resolved selection in elements of `dtype`. -/
def kindOf (shape : List Nat) (dtype : DType) (resolved : ResolvedSelection) (totalBytes : Nat) :
    Except AexError LayoutKind :=
  match if walksIndependently resolved then contiguousRun shape resolved.axes else none with
  | some (offset, _) => .ok (.contiguous (Word.wrappingMul 64 offset dtype.itemsize) totalBytes)
  | none => (Gathered.new shape resolved).map .gathered

/-- Resolve `indices` against an array of `shape` and `dtype`.  A cast that comes
through unchanged is one that should have fallen back to `exact`. -/
def resolve (build : Build) (shape : List Nat) (dtype : DType) (indices : List Index)
    (quality : QualitySpec) : Except AexError SelectionLayout :=
  let wire := quality.wireDtype build dtype
  if quality.encoding = .dtypeCast ∧ wire = dtype then
    .error (.unsupportedSelection "DtypeCast encoding is not implemented")
  else do
    let resolved ← Aex.resolve shape indices
    match Word.checkedMul 64 resolved.numElements wire.itemsize with
    | none =>
        .error (.badSelection s!"a selection of {resolved.numElements} {wire} elements is larger than the byte range")
    | some totalBytes => do
        let kind ← kindOf shape dtype resolved totalBytes
        .ok ⟨resolved.outShape, wire, dtype, totalBytes, quality, kind⟩

/-- Bytes of one innermost row of the output array. -/
def rowBytes (L : SelectionLayout) : Option Nat := do
  let inner ← L.outShape.getLast?
  (Word.checkedMul 64 inner L.dtype.itemsize).filter (0 < ·)

/-- How the block covering `[offset, offset + len)` is described to a codec, or
`none` when this transfer is not compressed. -/
def block (build : Build) (L : SelectionLayout) (offset len : Nat) :
    Except AexError (Option BlockSpec) :=
  if L.quality.codecFor build = .raw then .ok none
  else (BlockSpec.forRange L.outShape L.dtype (L.quality.eps.getD 0) offset len).map some

/-- Reject a range that falls outside the logical byte stream. -/
def checkRange (L : SelectionLayout) (offset len : Nat) : Except AexError Unit :=
  match (Word.checkedAdd 64 offset len).filter (· ≤ L.totalBytes) with
  | none => .error (.outOfRange offset len L.totalBytes)
  | some _ => .ok ()

/-! ## What a layout says -/

theorem checkRange_eq_ok {offset len : Nat} :
    L.checkRange offset len = .ok () ↔ offset + len < Word.size 64 ∧ offset + len ≤ L.totalBytes := by
  unfold checkRange
  split
  · rename_i h
    rw [Option.filter_eq_none_iff] at h
    constructor
    · intro h
      cases h
    · rintro ⟨hlt, hle⟩
      have := h (offset + len) (by rw [Word.checkedAdd_eq_some]; exact ⟨hlt, rfl⟩)
      simp [hle] at this
  · rename_i stop h
    rw [Option.filter_eq_some_iff, Word.checkedAdd_eq_some] at h
    obtain ⟨⟨hlt, rfl⟩, hle⟩ := h
    simpa using ⟨hlt, by simpa using hle⟩

/-- The parts a resolved layout is made of. -/
theorem resolve_spec (h : resolve build shape dtype indices quality = .ok L) :
    ∃ resolved kind, Aex.resolve shape indices = .ok resolved ∧
      resolved.numElements * (quality.wireDtype build dtype).itemsize < Word.size 64 ∧
      L = ⟨resolved.outShape, quality.wireDtype build dtype, dtype,
        resolved.numElements * (quality.wireDtype build dtype).itemsize, quality, kind⟩ ∧
      kindOf shape dtype resolved L.totalBytes = .ok kind := by
  unfold resolve at h
  dsimp only at h
  split at h
  · cases h
  cases hr : Aex.resolve shape indices with
  | error e =>
      rw [hr] at h
      cases h
  | ok resolved =>
      rw [hr] at h
      simp only [Bind.bind, Except.bind] at h
      split at h
      · cases h
      rename_i totalBytes htotal
      rw [Word.checkedMul_eq_some] at htotal
      obtain ⟨hlt, rfl⟩ := htotal
      split at h
      · cases h
      rename_i kind hkind
      cases h
      exact ⟨resolved, kind, rfl, hlt, rfl, hkind⟩

theorem quality_eq (h : resolve build shape dtype indices quality = .ok L) :
    L.quality = quality := by
  obtain ⟨_, _, -, -, rfl, -⟩ := resolve_spec h
  rfl

/-- The stream is made of whole elements. -/
theorem itemsize_dvd_totalBytes (h : resolve build shape dtype indices quality = .ok L) :
    L.dtype.itemsize ∣ L.totalBytes := by
  obtain ⟨_, _, -, -, rfl, -⟩ := resolve_spec h
  exact Nat.dvd_mul_left _ _

theorem totalBytes_lt (h : resolve build shape dtype indices quality = .ok L) :
    L.totalBytes < Word.size 64 := by
  obtain ⟨_, _, -, hlt, rfl, -⟩ := resolve_spec h
  exact hlt

/-- A row is a whole number of elements. -/
theorem itemsize_dvd_rowBytes {row : Nat} (h : L.rowBytes = some row) :
    0 < row ∧ L.dtype.itemsize ∣ row := by
  simp only [rowBytes, Option.bind_eq_bind, Option.bind_eq_some_iff, Option.filter_eq_some_iff,
    Word.checkedMul_eq_some, decide_eq_true_eq] at h
  obtain ⟨inner, -, ⟨-, rfl⟩, hpos⟩ := h
  exact ⟨hpos, Nat.dvd_mul_left _ _⟩

end SelectionLayout

end Aex
