import Mathlib.Algebra.BigOperators.Ring.List
import Mathlib.Algebra.Ring.Nat
import Aex.Lib.Radix
import Aex.Lib.Word
import Aex.Core.Error
import Aex.Core.Quality

/-!
# Blocks

A payload that is not raw is one self-contained block: an element type, the
shape of the piece of the output array it holds, and an error bound.  A range of
whole innermost rows is described as a slab, any other as one flat axis.
-/

namespace Aex

/-- One block: what it holds, and how faithfully. -/
structure BlockSpec where
  dtype : DType
  dims : List Nat
  eps : F64
  deriving Repr, DecidableEq

/-- The axes of a slab of `rows` rows of `inner` elements starting at row
`first`: three when it is whole planes on a plane boundary, two otherwise. -/
def planeAxes (outShape : List Nat) (rows first inner : Nat) : List Nat :=
  let plane := if 2 ≤ outShape.length then outShape.getD (outShape.length - 2) 1 else 1
  if 1 < plane ∧ rows % plane = 0 ∧ first % plane = 0 then [rows / plane, plane, inner]
  else [rows, inner]

/-- The block's axes, when the range is a slab of whole innermost rows. -/
def slabAxes (outShape : List Nat) (itemsize offset len : Nat) : Option (List Nat) := do
  let inner ← outShape.getLast?
  let row ← Word.checkedMul 64 inner itemsize
  if row = 0 ∨ offset % row ≠ 0 ∨ len % row ≠ 0 then none
  else
    let axes := (planeAxes outShape (len / row) (offset / row) inner).filter (1 < ·)
    if axes = [] then none else some axes

namespace BlockSpec

/-- The axes a range is described with. -/
def axesFor (outShape : List Nat) (dtype : DType) (offset len : Nat) : List Nat :=
  (slabAxes outShape dtype.itemsize offset len).getD [len / dtype.itemsize]

/-- Describe the block covering `[offset, offset + len)` of a logical stream. -/
def forRange (outShape : List Nat) (dtype : DType) (eps : F64) (offset len : Nat) :
    Except AexError BlockSpec :=
  if len = 0 ∨ len % dtype.itemsize ≠ 0 then
    .error (.badBlock s!"a block of {len} bytes does not hold whole {dtype} elements")
  else
    match (axesFor outShape dtype offset len).find? (Word.size 32 ≤ ·) with
    | some axis => .error (.badBlock s!"a block axis of {axis} elements is too long")
    | none => .ok ⟨dtype, axesFor outShape dtype offset len, eps⟩

def count (spec : BlockSpec) : Nat := spec.dims.foldl (Word.wrappingMul 64) 1

/-- Logical bytes the block expands to. -/
def bytes (spec : BlockSpec) : Nat := Word.wrappingMul 64 spec.count spec.dtype.itemsize

end BlockSpec

/-- The streams of the compressors, which are code of other packages.  Each may
refuse a block. -/
structure Compressors where
  gzip : List UInt8 → Except AexError (List UInt8)
  sz : BlockSpec → List UInt8 → Except AexError (List UInt8)
  zfp : BlockSpec → List UInt8 → Except AexError (List UInt8)

/-- Bytes of block header before the codec's own stream. -/
def blockHeaderLen : Nat := 24

/-- The bytes of a block's header. -/
def BlockSpec.encode (spec : BlockSpec) : List UInt8 :=
  let le (n width : Nat) : List UInt8 := (List.range width).map fun i => UInt8.ofNat (n / 256 ^ i)
  [1, spec.dtype.asI32, UInt8.ofNat spec.dims.length, 0] ++ le spec.eps.toNat 8 ++
    (List.range 3).flatMap fun i => le (spec.dims.getD i 0) 4

/-- The stream a codec makes of a block, after the block's header. -/
def compressStream (build : Build) (compressors : Compressors) (codec : Codec) (spec : BlockSpec)
    (src : List UInt8) : Except AexError (List UInt8) :=
  match codec with
  | .gzip => compressors.gzip src
  | .sz =>
      if build.sz then compressors.sz spec src
      else .error (.badBlock "Sz is not a codec this build can produce")
  | .zfp =>
      if build.zfp then compressors.zfp spec src
      else .error (.badBlock "Zfp is not a codec this build can produce")
  | .raw => .error (.badBlock "Raw is not a codec this build can produce")

/-- Compress one block; `none` when it did not shrink and should go raw. -/
def compress (build : Build) (compressors : Compressors) (codec : Codec) (spec : BlockSpec)
    (src : List UInt8) : Except AexError (Option (List UInt8)) :=
  if spec.bytes ≠ src.length then
    .error (.badBlock s!"a block of {spec.dims} {spec.dtype} elements is {spec.bytes} bytes, not {src.length}")
  else do
    let stream ← compressStream build compressors codec spec src
    let packed := spec.encode ++ stream
    .ok (if src.length ≤ packed.length then none else some packed)

/-! ## What a described block holds -/

theorem foldl_wrappingMul_eq {dims : List Nat} (h : dims.prod < Word.size 64) :
    dims.foldl (Word.wrappingMul 64) 1 = dims.prod := by
  have hmod : ∀ (dims : List Nat) (a : Nat),
      dims.foldl (Word.wrappingMul 64) a % Word.size 64 = (a * dims.prod) % Word.size 64 := by
    intro dims
    induction dims with
    | nil => simp
    | cons d dims ih =>
        intro a
        rw [List.foldl_cons, ih, List.prod_cons, ← Nat.mul_assoc, Word.wrappingMul, Nat.mod_mul_mod]
  have hlt : ∀ (dims : List Nat) (a : Nat), a < Word.size 64 →
      dims.foldl (Word.wrappingMul 64) a < Word.size 64 := by
    intro dims
    induction dims with
    | nil => exact fun a ha => ha
    | cons d dims ih => exact fun a _ => ih _ Word.wrappingMul_lt
  have := hmod dims 1
  rw [Nat.one_mul, Nat.mod_eq_of_lt h, Nat.mod_eq_of_lt (hlt dims 1 (by decide))] at this
  exact this

theorem planeAxes_prod (outShape : List Nat) (rows first inner : Nat) :
    (planeAxes outShape rows first inner).prod = rows * inner := by
  unfold planeAxes
  extract_lets plane
  split
  · rename_i h
    simp only [List.prod_cons, List.prod_nil, Nat.mul_one]
    rw [← Nat.mul_assoc, Nat.div_mul_cancel (Nat.dvd_of_mod_eq_zero h.2.1)]
  · simp

/-- The axes of a slab account for the elements of the range. -/
theorem slabAxes_prod {outShape axes : List Nat} {itemsize offset len : Nat} (hlen : 0 < len)
    (h : slabAxes outShape itemsize offset len = some axes) :
    axes.prod * itemsize = len := by
  simp only [slabAxes, Option.bind_eq_bind, Option.bind_eq_some_iff] at h
  obtain ⟨inner, -, row, hrow, h⟩ := h
  rw [Word.checkedMul_eq_some] at hrow
  obtain ⟨-, rfl⟩ := hrow
  split at h
  · cases h
  rename_i hwhole
  split at h
  · cases h
  rw [Option.some.injEq] at h
  simp only [not_or, not_not] at hwhole
  have hrows : 0 < len / (inner * itemsize) :=
    Nat.div_pos (Nat.le_of_dvd hlen (Nat.dvd_of_mod_eq_zero hwhole.2.2)) (by omega)
  have hinner : 0 < inner := Nat.pos_of_mul_pos_right (Nat.pos_of_ne_zero hwhole.1)
  have hprod := planeAxes_prod outShape (len / (inner * itemsize)) (offset / (inner * itemsize)) inner
  have hpos : ∀ axis ∈ planeAxes outShape (len / (inner * itemsize)) (offset / (inner * itemsize)) inner,
      0 < axis := by
    intro axis hmem
    apply Nat.pos_of_ne_zero
    rintro rfl
    have hzero := List.prod_eq_zero hmem
    rw [hprod] at hzero
    exact (Nat.mul_pos hrows hinner).ne' hzero
  rw [← h, Radix.prod_filter_one_lt hpos, hprod, Nat.mul_assoc]
  exact Nat.div_mul_cancel (Nat.dvd_of_mod_eq_zero hwhole.2.2)

/-- A slab has one to three axes, none of them of length 1. -/
theorem slabAxes_axes {outShape axes : List Nat} {itemsize offset len : Nat}
    (h : slabAxes outShape itemsize offset len = some axes) :
    (0 < axes.length ∧ axes.length ≤ 3) ∧ ∀ axis ∈ axes, 1 < axis := by
  simp only [slabAxes, Option.bind_eq_bind, Option.bind_eq_some_iff] at h
  obtain ⟨inner, -, row, -, h⟩ := h
  split at h
  · cases h
  split at h
  · cases h
  rename_i hne
  rw [Option.some.injEq] at h
  have hplane : (planeAxes outShape (len / row) (offset / row) inner).length ≤ 3 := by
    unfold planeAxes
    extract_lets plane
    split <;> simp
  subst h
  exact ⟨⟨List.length_pos_iff.mpr hne, (List.length_filter_le _ _).trans hplane⟩,
    fun axis hmem => by simpa using (List.mem_filter.mp hmem).2⟩

namespace BlockSpec

variable {outShape : List Nat} {dtype : DType} {eps : F64} {offset len : Nat} {spec : BlockSpec}

/-- A range is described when it holds whole elements and no axis is too long. -/
theorem forRange_isOk_iff (outShape : List Nat) (dtype : DType) (eps : F64) (offset len : Nat) :
    (∃ spec, forRange outShape dtype eps offset len = .ok spec) ↔
      0 < len ∧ dtype.itemsize ∣ len ∧
        ∀ axis ∈ axesFor outShape dtype offset len, axis < Word.size 32 := by
  unfold forRange
  split
  · rename_i h
    constructor
    · rintro ⟨_, h⟩
      cases h
    · rintro ⟨hpos, hdvd, -⟩
      have := Nat.mod_eq_zero_of_dvd hdvd
      omega
  · rename_i h
    simp only [not_or, not_not] at h
    have hdvd : dtype.itemsize ∣ len := Nat.dvd_of_mod_eq_zero h.2
    simp only [Nat.pos_of_ne_zero h.1, hdvd, true_and]
    split
    · rename_i axis hfind
      constructor
      · rintro ⟨_, h⟩
        cases h
      · intro hshort
        have := hshort axis (List.mem_of_find?_eq_some hfind)
        have hlong := List.find?_some hfind
        rw [decide_eq_true_eq] at hlong
        omega
    · rename_i hfind
      simpa using hfind

theorem forRange_spec (h : forRange outShape dtype eps offset len = .ok spec) :
    spec = ⟨dtype, axesFor outShape dtype offset len, eps⟩ := by
  unfold forRange at h
  split at h
  · cases h
  split at h
  · cases h
  · exact (Except.ok.inj h).symm

theorem axesFor_prod (outShape : List Nat) (offset : Nat) (hlen : 0 < len)
    (hdvd : dtype.itemsize ∣ len) : (axesFor outShape dtype offset len).prod * dtype.itemsize = len := by
  unfold axesFor
  cases haxes : slabAxes outShape dtype.itemsize offset len with
  | none => simpa using Nat.div_mul_cancel hdvd
  | some axes => exact slabAxes_prod hlen haxes

/-- A described block expands to exactly the bytes of its range, so a codec
never finds its source to be of another length. -/
theorem forRange_bytes (hlen : len < Word.size 64)
    (h : forRange outShape dtype eps offset len = .ok spec) : spec.bytes = len := by
  obtain ⟨hpos, hdvd, -⟩ := (forRange_isOk_iff _ _ _ _ _).mp ⟨spec, h⟩
  have hprod := axesFor_prod outShape offset hpos hdvd
  have hle : (axesFor outShape dtype offset len).prod ≤ len :=
    Nat.le_of_mul_le_mul_right (by
      calc _ = len := hprod
        _ ≤ len * dtype.itemsize := Nat.le_mul_of_pos_right _ dtype.itemsize_pos) dtype.itemsize_pos
  rw [forRange_spec h, bytes, count]
  dsimp only
  rw [foldl_wrappingMul_eq (by omega), Word.wrappingMul_of_lt (by omega), hprod]

end BlockSpec

end Aex
