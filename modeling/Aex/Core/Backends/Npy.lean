import Aex.Core.Selection.Faults

/-!
# The `.npy` backend

A `.npy` is a header and the array flattened in C order.  The header is parsed by a
library, and what it says is checked against the file before anything is read.  A read
may come back short, and the file may be cut short after it was opened.
-/

namespace Aex

/-! ## Opening -/

/-- The kinds of element a `.npy` can declare. -/
inductive TypeChar where
  | bool
  | int
  | uint
  | float
  | complex
  /-- Times, strings, objects and raw bytes. -/
  | other
  deriving Repr, DecidableEq

/-- A type string as the library reads it. -/
structure TypeStr where
  typeChar : TypeChar
  /-- None for a type with no fixed size. -/
  numBytes : Option Nat
  bigEndian : Bool
  /-- As it is printed. -/
  text : String
  deriving Repr, DecidableEq

/-- Types that are not handled are rejected, as are big-endian ones of more than a byte. -/
def DType.fromTypeStr (ts : TypeStr) : Except AexError DType :=
  match ts.numBytes with
  | none => .error (.unsupportedDType s!"dtype {ts.text} has no fixed item size")
  | some size =>
      if 1 < size ∧ ts.bigEndian then
        .error (.unsupportedDType s!"big-endian dtype {ts.text} is not supported")
      else
        match ts.typeChar, size with
        | .bool, 1 => .ok .bool
        | .int, 1 => .ok .int8
        | .int, 2 => .ok .int16
        | .int, 4 => .ok .int32
        | .int, 8 => .ok .int64
        | .uint, 1 => .ok .uint8
        | .uint, 2 => .ok .uint16
        | .uint, 4 => .ok .uint32
        | .uint, 8 => .ok .uint64
        | .float, 2 => .ok .float16
        | .float, 4 => .ok .float32
        | .float, 8 => .ok .float64
        | .complex, 8 => .ok .complex64
        | .complex, 16 => .ok .complex128
        | _, _ => .error (.unsupportedDType s!"dtype {ts.text} is not supported")

/-- The `descr` of a header: one type, or something with fields. -/
inductive Descr where
  | plain (ts : TypeStr)
  | structured (text : String)
  deriving Repr, DecidableEq

/-- What the library makes of a header. -/
structure NpyHeader where
  descr : Descr
  fortranOrder : Bool
  /-- Its elements are Python objects. -/
  pickled : Bool
  shape : List Nat
  deriving Repr, DecidableEq

/-- The element type that a header declares. -/
def NpyHeader.dtype (header : NpyHeader) : Except AexError DType :=
  match header.descr with
  | .plain ts => DType.fromTypeStr ts
  | .structured text => .error (.unsupportedDType s!"structured dtype {text} is not supported")

/-- One more axis of a shape. -/
def countAxis (shape : List Nat) (acc n : Nat) : Except AexError Nat :=
  (Word.checkedMul 64 acc n).elim
    (.error (.malformedNpy s!"shape {shape} has more elements than u64 can count")) .ok

/-- Product of the shape, without overflowing. -/
def checkedNumElements (shape : List Nat) : Except AexError Nat := shape.foldlM (countAxis shape) 1

/-- A `.npy` opened for reading. -/
structure NpyDataset where
  /-- First byte after the header. -/
  dataOffset : Nat
  fileLen : Nat
  numElements : Nat
  /-- Length of the array in bytes. -/
  dataLen : Nat
  dtype : DType
  shape : List Nat
  deriving Repr, DecidableEq

namespace NpyDataset

/-- Check a header against the file it was read from: `dataOffset` bytes of header in a
file of `fileLen`. -/
def fromHeader (header : NpyHeader) (dataOffset fileLen : Nat) : Except AexError NpyDataset :=
  if header.fortranOrder then
    .error (.unsupportedNpy
      "fortran_order arrays are not supported; fragment computation assumes C order")
  else if header.pickled then
    .error (.unsupportedDType "object arrays (pickled) are not supported")
  else do
    let dtype ← header.dtype
    let numElements ← checkedNumElements header.shape
    let dataLen ← (Word.checkedMul 64 numElements dtype.itemsize).elim
      (.error (.malformedNpy
        s!"shape {header.shape} of {dtype} overflows the addressable byte range")) .ok
    let declaredEnd ← (Word.checkedAdd 64 dataOffset dataLen).elim
      (.error (.malformedNpy <| s!"header declares {dataLen} bytes of data past offset " ++
        s!"{dataOffset}, which overflows")) .ok
    if fileLen < declaredEnd then
      .error (.malformedNpy <| s!"header declares shape {header.shape} of {dtype} " ++
        s!"({dataLen} bytes after a {dataOffset} byte header) but the file is only {fileLen} bytes")
    else .ok ⟨dataOffset, fileLen, numElements, dataLen, dtype, header.shape⟩

/-- The array is in the file, and every count of it is exact. -/
structure Valid (ds : NpyDataset) : Prop where
  numElements : ds.numElements = ds.shape.prod
  dataLen : ds.dataLen = ds.numElements * ds.dtype.itemsize
  inside : ds.dataOffset + ds.dataLen ≤ ds.fileLen
  lt : ds.dataOffset + ds.dataLen < Word.size 64

end NpyDataset

/-! ## Reading -/

/-- `pread` on a file: what it gives may depend on all that happened before. -/
structure FileReads (σ : Type) where
  readAt : σ → (at_ len : Nat) → Except (IoKind × String) (List UInt8) × σ

theorem size_toArray_of_length_eq {bytes : List UInt8} {len : Nat} (h : bytes.length = len) :
    bytes.toArray.size = len := h

namespace NpyDataset

variable {σ : Type} (file : FileReads σ)

def shrankMessage (at_ : Nat) : String :=
  s!"unexpected end of file at byte {at_}; the file shrank after it was opened"

/-- Read until the buffer of `len` bytes is full.  Every turn adds to `filled`, so `len`
is enough fuel. -/
def fill (start len : Nat) : Nat → List UInt8 → σ → Except AexError (List UInt8) × σ
  | 0, filled, s => (.ok filled, s)
  | fuel + 1, filled, s =>
      if len ≤ filled.length then (.ok filled, s)
      else
        match file.readAt s (start + filled.length) (len - filled.length) with
        | (.error (kind, text), s) => (.error (.io kind text), s)
        | (.ok [], s) => (.error (.malformedNpy (shrankMessage (start + filled.length))), s)
        | (.ok (b :: bytes), s) => fill start len fuel (filled ++ b :: bytes) s

/-- Read `[offset, offset + len)` of the array's own bytes. -/
def readBytesAt (ds : NpyDataset) (offset len : Nat) (s : σ) : Except AexError (List UInt8) × σ :=
  match Word.checkedAdd 64 offset len with
  | none => (.error (.outOfRange offset len ds.dataLen), s)
  | some stop =>
      if ds.dataLen < stop then (.error (.outOfRange offset len ds.dataLen), s)
      else fill file (ds.dataOffset + offset) len len [] s

/-- The reads of a range, each of which finds the file as it then is. -/
def source (ds : NpyDataset) (found : Nat → Nat → σ) : ReadSrc UInt8 := fun offset len =>
  match (readBytesAt file ds offset len (found offset len)).1 with
  | .error e => .error e
  | .ok bytes =>
      if h : bytes.length = len then .ok ⟨bytes.toArray, size_toArray_of_length_eq h⟩
      else .error (.malformedNpy "a buffer changed its length")

end NpyDataset

/-! ## What opening establishes -/

section Open

variable {header : NpyHeader} {shape : List Nat} {dataOffset fileLen : Nat} {ds : NpyDataset}

theorem foldlM_countAxis {whole : List Nat} {start total : Nat}
    (h : shape.foldlM (countAxis whole) start = .ok total) : total = start * shape.prod := by
  induction shape generalizing start with
  | nil =>
      cases h
      exact (Nat.mul_one _).symm
  | cons n shape ih =>
      rw [List.foldlM_cons] at h
      obtain ⟨next, hnext, h⟩ := Fallible.bind_eq_ok.mp h
      have hproduct := Word.checkedMul_eq_some.mp (Fallible.elim_eq_ok.mp hnext)
      rw [ih h, ← hproduct.2, List.prod_cons, Nat.mul_assoc]

/-- A file that is opened holds its whole array, in C order. -/
theorem NpyDataset.fromHeader_valid (h : fromHeader header dataOffset fileLen = .ok ds) :
    ds.Valid ∧ ds.fileLen = fileLen ∧ ds.dataOffset = dataOffset := by
  unfold fromHeader at h
  split at h
  · cases h
  split at h
  · cases h
  obtain ⟨dtype, -, h⟩ := Fallible.bind_eq_ok.mp h
  obtain ⟨numElements, hcount, h⟩ := Fallible.bind_eq_ok.mp h
  obtain ⟨dataLen, hbytes, h⟩ := Fallible.bind_eq_ok.mp h
  obtain ⟨declaredEnd, hend, h⟩ := Fallible.bind_eq_ok.mp h
  have hdata := Word.checkedMul_eq_some.mp (Fallible.elim_eq_ok.mp hbytes)
  have hdeclared := Word.checkedAdd_eq_some.mp (Fallible.elim_eq_ok.mp hend)
  have hprod := foldlM_countAxis hcount
  rw [Nat.one_mul] at hprod
  split at h
  · cases h
  · cases h
    refine ⟨⟨hprod, hdata.2.symm, ?_, ?_⟩, rfl, rfl⟩
    · dsimp only
      omega
    · dsimp only
      omega

end Open

/-! ## What reading gives -/

section Read

variable {σ : Type} {file : FileReads σ} {content : List UInt8} {lengthIn : σ → Nat} {ds : NpyDataset}

/-- The file is as it was opened, except that it may have been cut short: a read gives some
of the bytes asked for that are still there, and none only where the file ends. -/
structure FileReads.Keeps (file : FileReads σ) (content : List UInt8) (lengthIn : σ → Nat) : Prop where
  bytes : ∀ s at_ n bytes s', file.readAt s at_ n = (.ok bytes, s') →
    bytes <+: Vec.slice (content.take (lengthIn s)) at_ n
  ended : ∀ s at_ n s', file.readAt s at_ n = (.ok [], s') → n = 0 ∨ lengthIn s ≤ at_

/-- How a read of some of `[first, last)` of a file fails: the system's failure, or a file
that ends before `last`. -/
inductive FileReads.Fails (file : FileReads σ) (lengthIn : σ → Nat) (first last : Nat) : AexError → Prop
  | io (s s' : σ) (at_ n : Nat) (hinside : first ≤ at_ ∧ at_ + n ≤ last) (kind : IoKind)
      (text : String) (h : file.readAt s at_ n = (.error (kind, text), s')) :
      Fails file lengthIn first last (.io kind text)
  | shrank (s : σ) (at_ : Nat) (hinside : first ≤ at_ ∧ at_ < last) (h : lengthIn s ≤ at_) :
      Fails file lengthIn first last (.malformedNpy (NpyDataset.shrankMessage at_))

theorem FileReads.Fails.mono {first last first' last' : Nat} {e : AexError}
    (h : file.Fails lengthIn first last e) (hfirst : first' ≤ first) (hlast : last ≤ last') :
    file.Fails lengthIn first' last' e := by
  cases h with
  | io s s' at_ n hinside kind text h =>
      exact .io s s' at_ n ⟨hfirst.trans hinside.1, hinside.2.trans hlast⟩ kind text h
  | shrank s at_ hinside h => exact .shrank s at_ ⟨hfirst.trans hinside.1, by omega⟩ h

/-- What a read adds to the bytes before it. -/
theorem FileReads.Keeps.slice_append (hkeeps : file.Keeps content lengthIn) {s s' : σ}
    {start len at_ : Nat} {bytes : List UInt8} (hread : file.readAt s (start + at_) len = (.ok bytes, s')) :
    bytes.length ≤ len ∧
      Vec.slice content start at_ ++ bytes = Vec.slice content start (at_ + bytes.length) := by
  have hkept := hkeeps.bytes _ _ _ _ _ hread
  have hbytes : bytes = Vec.slice content (start + at_) bytes.length := by
    have hshort : Vec.slice (content.take (lengthIn s)) (start + at_) len <+:
        content.drop (start + at_) := by
      rw [Vec.slice, List.drop_take]
      exact (List.take_prefix _ _).trans (List.take_prefix _ _)
    exact List.prefix_iff_eq_take.mp (hkept.trans hshort)
  constructor
  · have hlen := hkept.length_le
    rw [Vec.slice, List.length_take] at hlen
    omega
  · rw [← Vec.slice_append_slice, ← hbytes]

namespace NpyDataset

theorem fill_gives (hkeeps : file.Keeps content lengthIn) {start len fuel : Nat}
    {filled : List UInt8} (hfilled : filled = Vec.slice content start filled.length)
    (hle : filled.length ≤ len) (hfuel : len ≤ fuel + filled.length) (s : σ) :
    (fill file start len fuel filled s).1 = .ok (Vec.slice content start len) ∨
      ∃ e, file.Fails lengthIn start (start + len) e ∧
        (fill file start len fuel filled s).1 = .error e := by
  have hdone : len ≤ filled.length → filled = Vec.slice content start len := by
    intro hlen
    rwa [Nat.le_antisymm hle hlen] at hfilled
  induction fuel generalizing filled s with
  | zero => exact .inl (congrArg Except.ok (hdone (by omega)))
  | succ fuel ih =>
      rw [fill]
      by_cases hlen : len ≤ filled.length
      · rw [if_pos hlen]
        exact .inl (congrArg Except.ok (hdone hlen))
      rw [if_neg hlen]
      cases hread : file.readAt s (start + filled.length) (len - filled.length) with
      | mk result s' =>
          cases result with
          | error e => exact .inr ⟨_, .io s s' _ _ ⟨by omega, by omega⟩ e.1 e.2 hread, rfl⟩
          | ok bytes =>
              have hmore := hkeeps.slice_append hread
              rw [← hfilled] at hmore
              cases bytes with
              | nil =>
                  have hended := (hkeeps.ended _ _ _ _ hread).resolve_left (by omega)
                  exact .inr ⟨_, .shrank s _ ⟨by omega, by omega⟩ hended, rfl⟩
              | cons b bytes =>
                  have hcount : (filled ++ b :: bytes).length = filled.length + (b :: bytes).length :=
                    List.length_append
                  have hpos : 0 < (b :: bytes).length := Nat.succ_pos _
                  have hnext : filled ++ b :: bytes =
                      Vec.slice content start (filled ++ b :: bytes).length := by
                    rw [hcount]
                    exact hmore.2
                  have hle' : (filled ++ b :: bytes).length ≤ len := by omega
                  refine ih hnext hle' (by omega) s' fun hlen => ?_
                  rwa [Nat.le_antisymm hle' hlen] at hnext

/-- The bytes of the array in the file. -/
def bytes (ds : NpyDataset) (content : List UInt8) (i : Nat) : UInt8 :=
  content.getD (ds.dataOffset + i) 0

theorem bytesAt_bytes (offset len : Nat) (h : ds.dataOffset + offset + len ≤ content.length) :
    bytesAt (ds.bytes content) offset len = Vec.slice content (ds.dataOffset + offset) len := by
  apply List.ext_getElem?
  intro i
  unfold bytesAt
  rw [Vec.getElem?_slice, List.getElem?_map]
  by_cases hi : i < len
  · rw [if_pos hi, List.getElem?_range' hi, Nat.one_mul, Option.map_some, bytes,
      List.getD_eq_getElem?_getD, ← Nat.add_assoc, List.getElem?_eq_getElem (by omega)]
    rfl
  · rw [if_neg hi, List.getElem?_eq_none (by rw [List.length_range']; omega)]
    rfl

/-- An open dataset gives what was in its file, unless the file cannot be read there. -/
theorem source_servesOr (hvalid : ds.Valid) (hlen : content.length = ds.fileLen)
    (hkeeps : file.Keeps content lengthIn) (found : Nat → Nat → σ) :
    (ds.source file found).ServesOr (ds.bytes content) (ds.shape.prod * ds.dtype.itemsize)
      (file.Fails lengthIn ds.dataOffset (ds.dataOffset + ds.dataLen)) := by
  intro offset len hsize hword
  have hinside := hvalid.inside
  have hdata := hvalid.dataLen
  rw [hvalid.numElements] at hdata
  rw [← hdata] at hsize
  have hread : readBytesAt file ds offset len (found offset len) =
      fill file (ds.dataOffset + offset) len len [] (found offset len) := by
    unfold readBytesAt
    rw [Word.checkedAdd_eq_some.mpr ⟨hword, rfl⟩]
    exact if_neg (by omega)
  have hgives := @fill_gives σ file content lengthIn hkeeps (ds.dataOffset + offset) len len [] rfl
    (Nat.zero_le len) (Nat.le_refl _) (found offset len)
  unfold source
  rw [hread]
  cases hgives with
  | inl hok =>
      left
      have hroom : ds.dataOffset + offset + len ≤ content.length := by omega
      rw [hok]
      dsimp only
      rw [dif_pos (Vec.length_slice hroom)]
      exact ⟨_, rfl, (bytesAt_bytes offset len hroom).symm⟩
  | inr hfail =>
      obtain ⟨e, he, hfail⟩ := hfail
      right
      rw [hfail]
      exact ⟨e, he.mono (by omega) (by omega), rfl⟩

/-- A range of a selection of a `.npy` is read as the elements numpy selects from the file
as it was opened, or fails where the file cannot be read any more. -/
theorem readRange_reads {build : Build} {header : NpyHeader} {dataOffset : Nat}
    (hopen : fromHeader header dataOffset content.length = .ok ds)
    (hkeeps : file.Keeps content lengthIn) (p : ArraySelection build) (hshape : p.shape = ds.shape)
    (hdtype : p.dtype = ds.dtype) (convert : Narrow UInt8) (scratch : List UInt8)
    (found : Nat → Nat → σ) {offset : Nat} {dst : List UInt8}
    (hrange : offset + dst.length ≤ p.layout.totalBytes) :
    p.layout.readWith 0 convert scratch (ds.source file found) offset dst =
        .ok (Vec.slice (p.content convert (ds.bytes content)) offset dst.length) ∨
      ∃ e, file.Fails lengthIn ds.dataOffset (ds.dataOffset + ds.dataLen) e ∧
        p.layout.readWith 0 convert scratch (ds.source file found) offset dst = .error (.error e) := by
  obtain ⟨hvalid, hlen, -⟩ := fromHeader_valid hopen
  have hserves := source_servesOr hvalid hlen.symm hkeeps found
  rw [← hshape, ← hdtype] at hserves
  exact p.readWith_servesOr convert scratch hserves hrange

end NpyDataset

end Read

/-! ## A file being cut short -/

/-- A file that is given out one byte at a time, of which so many are left. -/
def cutFile (content : List UInt8) : FileReads Nat where
  readAt left at_ len := (.ok (Vec.slice (content.take left) at_ (min len 1)), left)

theorem cutFile_keeps (content : List UInt8) :
    (cutFile content).Keeps content fun left => min left content.length := by
  constructor
  · intro left at_ n bytes left' hread
    unfold cutFile at hread
    cases hread
    have htake : content.take (min left content.length) = content.take left :=
      List.take_eq_take_min.symm
    unfold Vec.slice
    rw [htake]
    exact List.take_prefix_take_left (Nat.min_le_left n 1)
  · intro left at_ n left' hread
    unfold cutFile Vec.slice at hread
    rw [Prod.mk.injEq, Except.ok.injEq, List.take_eq_nil_iff, List.drop_eq_nil_iff,
      List.length_take] at hread
    omega

/-- Two rows of two, read from the last one. -/
def twoRows : ArraySelection ⟨false, false⟩ where
  shape := [2, 2]
  dtype := .int16
  indices := [.slice none none (some (-1))]
  quality := {}
  layout := ⟨[2, 2], .int16, .int16, 8, {}, .gathered ⟨2, [.stride 2 (-2), .stride 2 1]⟩⟩
  resolved := by decide
  addressed := by decide
  counted := by decide

/-- A header of two bytes, and eight of data. -/
def tenBytes : List UInt8 := [0, 0, 1, 2, 3, 4, 5, 6, 7, 8]

/-- The file has lost its last byte by the time it is read. -/
theorem NpyDataset.readRange_reads_cut :
    ∃ ds : NpyDataset, fromHeader ⟨.plain ⟨.int, some 2, false, "<i2"⟩, false, false, [2, 2]⟩ 2 10 =
        .ok ds ∧
      (twoRows.layout.readWith 0 (fun _ narrow _ => Vector.replicate narrow.itemsize 0) []
          (ds.source (cutFile tenBytes) fun _ _ => 9) 3 [0, 0, 0] =
          .ok (Vec.slice (twoRows.content (fun _ narrow _ => Vector.replicate narrow.itemsize 0)
            (ds.bytes tenBytes)) 3 3) ∨
        ∃ e, (cutFile tenBytes).Fails (fun left => min left 10) 2 10 e ∧
          twoRows.layout.readWith 0 (fun _ narrow _ => Vector.replicate narrow.itemsize 0) []
            (ds.source (cutFile tenBytes) fun _ _ => 9) 3 [0, 0, 0] = .error (.error e)) := by
  have hopen : fromHeader ⟨.plain ⟨.int, some 2, false, "<i2"⟩, false, false, [2, 2]⟩ 2
      tenBytes.length = .ok ⟨2, 10, 4, 8, .int16, [2, 2]⟩ := by decide
  have hrange : 3 + [(0 : UInt8), 0, 0].length ≤ twoRows.layout.totalBytes := by decide
  exact ⟨_, hopen, readRange_reads hopen (cutFile_keeps _) twoRows rfl rfl
    (fun _ narrow _ => Vector.replicate narrow.itemsize 0) [] (fun _ _ => 9) hrange⟩

end Aex
