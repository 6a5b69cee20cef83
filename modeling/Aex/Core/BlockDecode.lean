import Aex.Core.Block
import Aex.Lib.Endian
import Aex.Lib.Vec

/-!
# Reading blocks

The header of a block as a receiver reads it, with its own rules on axes and
bound, and the expansion of the stream behind it into a buffer of the block's
logical size.
-/

namespace Aex

/-- `x < 0.0`: a set sign bit, not a zero and not a NaN. -/
def F64.isNegative (x : F64) : Bool := 2 ^ 63 < x.toNat && x.toNat ≤ 0xFFF0000000000000

namespace DType

def all : List DType :=
  [.int8, .int16, .int32, .int64, .uint8, .uint16, .uint32, .uint64, .float16, .float32, .float64,
    .complex64, .complex128, .bool]

/-- From the value on the wire. -/
def fromI32 (v : Int) : Except AexError DType :=
  match all.find? fun dtype => (dtype.asI32.toNat : Int) == v with
  | some dtype => .ok dtype
  | none => .error (.unsupportedDType s!"unknown DataType value {v}")

@[simp] theorem fromI32_asI32 (dtype : DType) : fromI32 dtype.asI32.toNat = .ok dtype := by
  cases dtype <;> rfl

end DType

namespace BlockSpec

/-- The axis in slot `i` of a header. -/
def axisAt (src : List UInt8) (i : Nat) : Nat := Endian.ofLE (Vec.slice src (12 + i * 4) 4)

def ndimAt (src : List UInt8) : Nat := (src.getD 2 0).toNat

def epsAt (src : List UInt8) : F64 := BitVec.ofNat 64 (Endian.ofLE (Vec.slice src 4 8))

/-- A length-1 axis is folded away when a block is described, so that one past
the first slot means the header disagrees with itself. -/
def slotBad (ndim i dim : Nat) : Bool :=
  let wantUsed := decide (i < ndim)
  wantUsed != decide (1 < dim) && !(wantUsed && ndim == 1 && dim == 1)

/-- Read a header.  `display` prints a float. -/
def decode (display : F64 → String) (src : List UInt8) : Except AexError BlockSpec :=
  if src.length < blockHeaderLen then
    .error (.badBlock s!"a header is {blockHeaderLen} bytes, and only {src.length} arrived")
  else if src.getD 0 0 ≠ 1 then
    .error (.badBlock s!"block format {src.getD 0 0} is not one this build knows")
  else
    match DType.fromI32 (src.getD 1 0).toNat with
    | .error e => .error e
    | .ok dtype =>
        if ndimAt src = 0 ∨ 3 < ndimAt src then
          .error (.badBlock s!"a block has 1 to 3 axes, not {ndimAt src}")
        else if !(epsAt src).isFinite || (epsAt src).isNegative then
          .error (.badBlock s!"{display (epsAt src)} is not an error bound")
        else
          match (List.range 3).find? fun i => slotBad (ndimAt src) i (axisAt src i) with
          | some i => .error (.badBlock
              s!"axis {i} of a {ndimAt src}-axis block is {axisAt src i}")
          | none => .ok ⟨dtype, (List.range (ndimAt src)).map (axisAt src), epsAt src⟩

/-- What an accepted header says. -/
structure Reads (src : List UInt8) (spec : BlockSpec) : Prop where
  long : blockHeaderLen ≤ src.length
  version : src.getD 0 0 = 1
  dtype : DType.fromI32 (src.getD 1 0).toNat = .ok spec.dtype
  ndim : 0 < ndimAt src ∧ ndimAt src ≤ 3
  bound : (epsAt src).isFinite = true ∧ (epsAt src).isNegative = false
  slots : ∀ i < 3, slotBad (ndimAt src) i (axisAt src i) = false
  dims : spec.dims = (List.range (ndimAt src)).map (axisAt src)
  eps : spec.eps = epsAt src

theorem decode_eq_ok {display : F64 → String} {src : List UInt8} {spec : BlockSpec} :
    decode display src = .ok spec ↔ Reads src spec := by
  constructor
  · intro h
    unfold decode at h
    split at h
    · cases h
    rename_i hlong
    split at h
    · cases h
    rename_i hversion
    split at h
    · cases h
    rename_i dtype hdtype
    split at h
    · cases h
    rename_i hndim
    split at h
    · cases h
    rename_i hbound
    split at h
    · cases h
    rename_i hslots
    cases h
    rw [Bool.not_eq_true, Bool.or_eq_false_iff, Bool.not_eq_false'] at hbound
    constructor
    · exact Nat.le_of_not_lt hlong
    · exact not_not.mp hversion
    · exact hdtype
    · omega
    · exact hbound
    · simpa using hslots
    · rfl
    · rfl
  · intro h
    have hslots : (List.range 3).find? (fun i => slotBad (ndimAt src) i (axisAt src i)) = none := by
      simpa using h.slots
    unfold decode
    rw [if_neg (Nat.not_lt.mpr h.long), if_neg (not_not.mpr h.version), h.dtype]
    dsimp only
    rw [if_neg (by have := h.ndim; omega), h.bound.1, h.bound.2, hslots]
    simp [← h.dims, ← h.eps]

/-- The number of bytes that the axes and the element type of a header stand for. -/
def described (src : List UInt8) : Nat :=
  match DType.fromI32 (src.getD 1 0).toNat with
  | .ok dtype => ((List.range (ndimAt src)).map (axisAt src)).prod * dtype.itemsize
  | .error _ => 0

theorem Reads.described_eq {src : List UInt8} {spec : BlockSpec} (h : Reads src spec) :
    described src = spec.dims.prod * spec.dtype.itemsize := by
  rw [described, h.dtype, h.dims]

/-- A header accepted for a buffer describes the block that fills it exactly when
the bytes it stands for fit a word. -/
theorem decode_describes_iff {display : F64 → String} {src dst : List UInt8} {spec : BlockSpec}
    (hdecode : decode display src = .ok spec) (hbytes : spec.bytes = dst.length) :
    spec.dims.prod * spec.dtype.itemsize = dst.length ∧ spec.count = spec.dims.prod ↔
      described src < Word.size 64 := by
  rw [(decode_eq_ok.mp hdecode).described_eq]
  constructor
  · intro h
    rw [h.1, ← hbytes]
    exact Word.wrappingMul_lt
  · intro h
    have hle : spec.dims.prod ≤ spec.dims.prod * spec.dtype.itemsize :=
      Nat.le_mul_of_pos_right _ spec.dtype.itemsize_pos
    have hcount : spec.count = spec.dims.prod := foldl_wrappingMul_eq (by omega)
    refine ⟨?_, hcount⟩
    rw [← hbytes, bytes, hcount, Word.wrappingMul_of_lt h]

/-- Two rows of three floats, for a buffer of 24 bytes. -/
theorem decode_describes_iff_rows :
    let src : List UInt8 := [1, 9, 2, 0, 0, 0, 0, 0, 0, 0, 0, 0, 2, 0, 0, 0, 3, 0, 0, 0, 0, 0, 0, 0]
    let spec : BlockSpec := ⟨.float32, [2, 3], 0⟩
    spec.dims.prod * spec.dtype.itemsize = (List.replicate 24 (0 : UInt8)).length ∧
        spec.count = spec.dims.prod ↔ described src < Word.size 64 :=
  @decode_describes_iff (fun _ => "") _ (List.replicate 24 0) _ (by decide) (by decide)

/-- Three axes of `2 ^ 62 + 1` elements of four bytes are accepted for four bytes. -/
theorem decode_wraps :
    let src : List UInt8 := [1, 9, 3, 0, 0, 0, 0, 0, 0, 0, 0, 0] ++ Endian.toLE 4 242243305 ++
      Endian.toLE 4 49477 ++ Endian.toLE 4 384773
    let spec : BlockSpec := ⟨.float32, [242243305, 49477, 384773], 0⟩
    decode (fun _ => "") src = .ok spec ∧ spec.bytes = [0, 0, 0, 0].length ∧
      ¬ spec.dims.prod * spec.dtype.itemsize = [0, 0, 0, 0].length := by
  decide

/-! ### What is written is read back -/

variable {spec : BlockSpec} {rest : List UInt8} {outShape : List Nat} {dtype : DType} {eps : F64}
  {offset len : Nat}

/-- A spec whose header is one that a receiver accepts. -/
structure Describable (spec : BlockSpec) : Prop where
  ndim : 0 < spec.dims.length ∧ spec.dims.length ≤ 3
  axes : spec.dims = [1] ∨ ∀ axis ∈ spec.dims, 1 < axis
  short : ∀ axis ∈ spec.dims, axis < Word.size 32
  bound : spec.eps.isFinite = true ∧ spec.eps.isNegative = false

theorem encode_eq (spec : BlockSpec) :
    spec.encode = [1, spec.dtype.asI32, UInt8.ofNat spec.dims.length, 0] ++
      (Endian.toLE 8 spec.eps.toNat ++
        (List.range 3).flatMap fun i => Endian.toLE 4 (spec.dims.getD i 0)) := by
  simp only [encode, Endian.toLE_eq_map, List.append_assoc]

theorem length_encode : spec.encode.length = blockHeaderLen := by
  simp [encode_eq, List.range_succ, blockHeaderLen]

theorem ndimAt_encode (h : spec.dims.length ≤ 3) :
    ndimAt (spec.encode ++ rest) = spec.dims.length := by
  have hsmall : (UInt8.ofNat spec.dims.length).toNat = spec.dims.length := by
    rw [UInt8.toNat_ofNat']
    omega
  rw [encode_eq]
  exact hsmall

theorem epsAt_encode : epsAt (spec.encode ++ rest) = spec.eps := by
  have hslice : Vec.slice (spec.encode ++ rest) 4 8 = Endian.toLE 8 spec.eps.toNat := by
    rw [Vec.slice_append_left (by rw [length_encode]; decide), encode_eq]
    calc Vec.slice _ ([1, spec.dtype.asI32, UInt8.ofNat spec.dims.length, 0].length + 0) 8
      _ = Vec.slice _ 0 8 := Vec.slice_append_right
      _ = Endian.toLE 8 spec.eps.toNat := by simp [Vec.slice]
  rw [epsAt, hslice, Endian.ofLE_toLE_of_lt spec.eps.isLt, BitVec.ofNat_toNat, BitVec.setWidth_eq]

theorem axisAt_encode {i : Nat} (hi : i < 3) (hshort : ∀ axis ∈ spec.dims, axis < Word.size 32) :
    axisAt (spec.encode ++ rest) i = spec.dims.getD i 0 := by
  have hlen : ([1, spec.dtype.asI32, UInt8.ofNat spec.dims.length, 0] ++
      Endian.toLE 8 spec.eps.toNat).length = 12 := by simp
  have hslice : Vec.slice (spec.encode ++ rest) (12 + i * 4) 4 =
      Endian.toLE 4 (spec.dims.getD i 0) := by
    rw [Vec.slice_append_left (by rw [length_encode, blockHeaderLen]; omega), encode_eq,
      ← List.append_assoc, ← hlen, Vec.slice_append_right,
      Vec.slice_flatMap_one (by simp) (by simpa using hi), List.getElem_range]
  have hlt : spec.dims.getD i 0 < Word.size 32 := by
    rw [List.getD_eq_getElem?_getD]
    cases hget : spec.dims[i]? with
    | none => decide
    | some axis => exact hshort axis (List.mem_of_getElem? hget)
  rw [axisAt, hslice, Endian.ofLE_toLE_of_lt hlt]

/-- Slots hold the axes that are used, and zeros past them. -/
theorem slotBad_dims {i : Nat} (h : spec.Describable) :
    slotBad spec.dims.length i (spec.dims.getD i 0) = false := by
  unfold slotBad
  rw [List.getD_eq_getElem?_getD]
  by_cases hi : i < spec.dims.length
  · rw [List.getElem?_eq_getElem hi, Option.getD_some]
    rcases h.axes with hone | hlong
    · have hall : ∀ axis ∈ spec.dims, axis = 1 := by
        rw [hone]
        exact fun axis => List.mem_singleton.mp
      have hlen : spec.dims.length = 1 := congrArg List.length hone
      simp [hlen, hall _ (List.getElem_mem hi)]
    · simp [hi, hlong _ (List.getElem_mem hi)]
  · simp [hi]

/-- A header is read back as the spec it was written for, whatever follows it. -/
theorem decode_encode {display : F64 → String} (h : spec.Describable) :
    decode display (spec.encode ++ rest) = .ok spec := by
  have hndim := @ndimAt_encode spec rest h.ndim.2
  rw [decode_eq_ok]
  constructor
  · rw [List.length_append, length_encode]
    exact Nat.le_add_right _ _
  · rw [encode_eq]
    rfl
  · rw [encode_eq]
    exact DType.fromI32_asI32 _
  · rw [hndim]
    exact h.ndim
  · rw [epsAt_encode]
    exact h.bound
  · intro i hi
    rw [hndim, axisAt_encode hi h.short]
    exact slotBad_dims h
  · apply List.ext_getElem?
    intro i
    rw [hndim, List.getElem?_map]
    by_cases hi : i < spec.dims.length
    · rw [List.getElem?_range hi, Option.map_some, axisAt_encode (by have := h.ndim; omega) h.short,
        List.getD_eq_getElem?_getD, List.getElem?_eq_getElem hi, Option.getD_some]
    · rw [List.getElem?_eq_none (by omega), List.getElem?_eq_none (by simpa using hi)]
      rfl
  · exact epsAt_encode.symm

/-- What describes a range can be read back, given a bound that can. -/
theorem forRange_describable (h : forRange outShape dtype eps offset len = .ok spec)
    (hbound : eps.isFinite = true ∧ eps.isNegative = false) : spec.Describable := by
  obtain ⟨hpos, hdvd, hshort⟩ := (forRange_isOk_iff _ _ _ _ _).mp ⟨spec, h⟩
  obtain rfl := forRange_spec h
  have hcount : 0 < len / dtype.itemsize := Nat.div_pos (Nat.le_of_dvd hpos hdvd) dtype.itemsize_pos
  cases haxes : slabAxes outShape dtype.itemsize offset len with
  | none =>
      have hflat : axesFor outShape dtype offset len = [len / dtype.itemsize] := by
        rw [axesFor, haxes, Option.getD_none]
      refine ⟨by simp [hflat], ?_, hshort, hbound⟩
      by_cases hone : len / dtype.itemsize = 1
      · exact Or.inl (by rw [hflat, hone])
      · apply Or.inr
        intro axis hmem
        rw [hflat, List.mem_singleton] at hmem
        omega
  | some axes =>
      have hslab : axesFor outShape dtype offset len = axes := by
        rw [axesFor, haxes, Option.getD_some]
      obtain ⟨hsize, hlong⟩ := slabAxes_axes haxes
      exact ⟨by rwa [hslab], Or.inr (by rwa [hslab]), hshort, hbound⟩

end BlockSpec

/-- The expanders, which are code of other packages.  Inflating writes what it can
of its room, refused or not; the others fill a scratch buffer of the block's size. -/
structure Expanders where
  inflate : List UInt8 → Nat → Option String × List UInt8
  sz : BlockSpec → List UInt8 → Except String (List UInt8)
  zfp : BlockSpec → List UInt8 → Except String (List UInt8)
  length_inflate : ∀ src room, (inflate src room).2.length ≤ room
  length_sz : ∀ spec src values, sz spec src = .ok values → values.length = spec.bytes
  length_zfp : ∀ spec src values, zfp spec src = .ok values → values.length = spec.bytes

/-- A short stream leaves the tail of its block untouched, which would otherwise
pass for data. -/
def gzipDecompressInto (expanders : Expanders) (src dst : List UInt8) :
    Except AexError Unit × List UInt8 :=
  let (refused, written) := expanders.inflate src dst.length
  match refused with
  | some text => (.error (.badBlock s!"deflate: {text}"), Vec.write dst 0 written)
  | none =>
      if written.length < dst.length then
        (.error (.badBlock <| s!"a deflate stream left {dst.length - written.length} bytes of its " ++
          "block unwritten"), Vec.write dst 0 written)
      else (.ok (), Vec.write dst 0 written)

/-- Expand a block of floats by way of a scratch buffer, which is copied out whole. -/
def expandAs (unsupported : DType → String)
    (expand : BlockSpec → List UInt8 → Except String (List UInt8)) (spec : BlockSpec)
    (src dst : List UInt8) : Except AexError Unit × List UInt8 :=
  if spec.dtype = .float32 ∨ spec.dtype = .float64 then
    match expand spec src with
    | .error text => (.error (.badBlock text), dst)
    | .ok values => (.ok (), Vec.write dst 0 values)
  else (.error (.badBlock (unsupported spec.dtype)), dst)

def szDecompressInto (expanders : Expanders) : BlockSpec → List UInt8 → List UInt8 →
    Except AexError Unit × List UInt8 :=
  expandAs (fun dtype => s!"SZ3 compresses floats, not {dtype}") expanders.sz

def zfpDecompressInto (expanders : Expanders) : BlockSpec → List UInt8 → List UInt8 →
    Except AexError Unit × List UInt8 :=
  expandAs (fun dtype => s!"zfp compresses floats, not {dtype}") expanders.zfp

/-- Expand the stream of a block of a known header. -/
def expandStream (build : Build) (expanders : Expanders) (codec : Codec) (spec : BlockSpec)
    (src dst : List UInt8) : Except AexError Unit × List UInt8 :=
  match codec with
  | .gzip => gzipDecompressInto expanders src dst
  | .sz =>
      if build.sz then szDecompressInto expanders spec src dst
      else (.error (.badBlock "Sz is not a codec this build can expand"), dst)
  | .zfp =>
      if build.zfp then zfpDecompressInto expanders spec src dst
      else (.error (.badBlock "Zfp is not a codec this build can expand"), dst)
  | .raw => (.error (.badBlock "Raw is not a codec this build can expand"), dst)

/-- Expand one block into `dst`, which must be exactly the block's logical size. -/
def decompressInto (build : Build) (display : F64 → String) (expanders : Expanders) (codec : Codec)
    (src dst : List UInt8) : Except AexError Unit × List UInt8 :=
  match BlockSpec.decode display src with
  | .error e => (.error e, dst)
  | .ok spec =>
      if spec.bytes ≠ dst.length then
        (.error (.badBlock <| s!"a block of {spec.dims} {spec.dtype} elements expands to " ++
          s!"{spec.bytes} bytes, not the {dst.length} asked for"), dst)
      else expandStream build expanders codec spec (src.drop blockHeaderLen) dst

/-! ## What an expansion leaves alone -/

section Expansion

variable {expanders : Expanders} {spec : BlockSpec} {src dst : List UInt8}

theorem length_gzipDecompressInto :
    (gzipDecompressInto expanders src dst).2.length = dst.length := by
  have hroom := expanders.length_inflate src dst.length
  have hwrite : (Vec.write dst 0 (expanders.inflate src dst.length).2).length = dst.length :=
    Vec.length_write (by omega)
  unfold gzipDecompressInto
  dsimp only
  split
  · exact hwrite
  · split
    · exact hwrite
    · exact hwrite

theorem length_expandAs {unsupported : DType → String}
    {expand : BlockSpec → List UInt8 → Except String (List UInt8)}
    (hexpand : ∀ spec src values, expand spec src = .ok values → values.length = spec.bytes)
    (hbytes : spec.bytes = dst.length) :
    (expandAs unsupported expand spec src dst).2.length = dst.length := by
  unfold expandAs
  split
  · split
    · rfl
    · rename_i values hvalues
      exact Vec.length_write (by rw [hexpand _ _ _ hvalues]; omega)
  · rfl

/-- Whatever becomes of a block, its buffer keeps its length. -/
theorem length_decompressInto {build : Build} {display : F64 → String} {codec : Codec} :
    (decompressInto build display expanders codec src dst).2.length = dst.length := by
  unfold decompressInto
  split
  · rfl
  rename_i spec _
  split
  · rfl
  rename_i hbytes
  rw [not_not] at hbytes
  unfold expandStream
  cases codec with
  | raw => rfl
  | gzip => exact length_gzipDecompressInto
  | sz =>
      dsimp only
      split
      · exact length_expandAs expanders.length_sz hbytes
      · rfl
  | zfp =>
      dsimp only
      split
      · exact length_expandAs expanders.length_zfp hbytes
      · rfl

end Expansion

end Aex
