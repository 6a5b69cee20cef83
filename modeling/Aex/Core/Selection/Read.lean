import Mathlib.Algebra.Order.Floor.Div
import Aex.Lib.Vec
import Aex.Core.Selection.Layout

/-!
# Reading a logical byte stream

A range of the stream is read from the source array's own bytes.  One run is one
read; anything else is walked in output order as stretches, and stretches close
together in the source are read as one span and cut out of it.
-/

namespace Aex

/-- Reads the source array's own bytes at a byte offset. -/
abbrev ReadSrc (β : Type) := (offset len : Nat) → Except AexError (Vector β len)

/-- Converts one element of a wide type to a narrow one. -/
abbrev Narrow (β : Type) := (wide narrow : DType) → Vector β wide.itemsize → Vector β narrow.itemsize

/-- A read ends in an error, or in a panic at a slice out of bounds or a division
by zero. -/
inductive ReadFailure where
  | error (e : AexError)
  | panic
  deriving Repr, DecidableEq

/-- Runs further apart than this are read separately. -/
def spanGapBytes : Nat := 4096

/-- Ceiling on one span read. -/
def spanMaxBytes : Nat := 2 ^ 20

/-- Output elements taken from the source at a fixed step. -/
structure Stretch where
  /-- Source element of the first. -/
  src : Nat
  step : Int
  count : Nat
  deriving Repr, DecidableEq

namespace Stretch

/-- The source elements it touches, as `[lo, hi)`. -/
def extent (s : Stretch) : Nat × Nat :=
  let last := Word.wrappingAdd 64 s.src
    (Word.wrappingMul 64 (Word.wrappingSub 64 s.count 1) (Word.ofSigned 64 s.step))
  (min s.src last, Word.wrappingAdd 64 (max s.src last) 1)

/-- One element has no step of its own; calling it 1 lets the next one join. -/
def settle (s : Stretch) : Stretch := if s.count = 1 then { s with step := 1 } else s

/-- Hold `s` back if the stretch before it can absorb it: the stretch handed on,
if any, and the one pending. -/
def hold (pending : Option Stretch) (s : Stretch) : Option Stretch × Stretch :=
  match pending with
  | none => (none, s.settle)
  | some p =>
      if p.step = 1 ∧ s.settle.step = 1 ∧ Word.wrappingAdd 64 p.src p.count = s.settle.src then
        (none, { p with count := Word.wrappingAdd 64 p.count s.settle.count })
      else (some p, s.settle)

/-- The stretches handed on, in order. -/
def holdAll : Option Stretch → List Stretch → List Stretch
  | pending, [] => pending.toList
  | pending, s :: rest =>
      (hold pending s).1.toList ++ holdAll (some (hold pending s).2) rest

end Stretch

/-! ## The walk -/

namespace Dim

/-- The step of a stretch along an innermost dimension. -/
def step : Dim → Int
  | .stride _ step => step
  | .list _ => 1

/-- The bytes between neighbours of an innermost dimension. -/
def gap (itemsize : Nat) : Dim → Nat
  | .stride _ step => Word.wrappingMul 64 step.natAbs itemsize
  | .list _ => Word.size 64 - 1

/-- How many of `take` elements one stretch holds: elements further apart than a
span would join are read one by one.  `none` is a division by zero. -/
def per (itemsize take : Nat) (inner : Dim) : Option Nat :=
  match inner with
  | .stride _ 1 => some take
  | _ =>
      if inner.gap itemsize ≤ spanGapBytes then
        if inner.gap itemsize = 0 then none else some (max (spanMaxBytes / inner.gap itemsize) 1)
      else some 1

/-- The stretches of one row, from index `k` of the innermost dimension on.  Each
holds an element, so `take` is enough fuel. -/
def rowStretches (inner : Dim) (row k per : Nat) : Nat → Nat → Nat → List Stretch
  | 0, _, _ => []
  | fuel + 1, i, take =>
      if i < take then
        let n := min per (take - i)
        ⟨Word.wrappingAdd 64 row (inner.term (Word.wrappingAdd 64 k i)), inner.step, n⟩ ::
          rowStretches inner row k per fuel (i + n) take
      else []

/-- The index of the element `rest` elements on, and what is left past the first
dimension. -/
def indexOf : List Dim → Nat → List Nat × Nat
  | [], rest => ([], rest)
  | dim :: dims, rest =>
      let (index, rest) := indexOf dims rest
      (rest % dim.len :: index, rest / dim.len)

/-- Advance an index like an odometer: the index, the dimension it stopped at, and
whether it went past the end. -/
def advance : List Dim → List Nat → List Nat × Nat × Bool
  | dim :: dims, k :: index =>
      match advance dims index with
      | (index, at_, false) => (k :: index, at_ + 1, false)
      | (index, _, true) =>
          if k + 1 < dim.len then ((k + 1) :: index, 0, false) else (0 :: index, 0, true)
  | _, _ => ([], 0, true)

/-- The source element with the dimensions past `i` at 0, for every `i`. -/
def prefixes : Nat → List Dim → List Nat → List Nat
  | base, dim :: dims, k :: index =>
      base :: prefixes (Word.wrappingAdd 64 base (dim.term k)) dims index
  | base, _, _ => [base]

/-- Recompute the prefixes past dimension `from_`. -/
def refresh (dims : List Dim) (prefixes_ : List Nat) (index : List Nat) (from_ : Nat) : List Nat :=
  prefixes_.take from_ ++
    prefixes (prefixes_.getD from_ 0) (dims.drop from_) (index.drop from_)

/-- The stretches of `remaining` elements, row by row.  Every row holds an element,
so `remaining` is enough fuel. -/
def rows (outer : List Dim) (inner : Dim) (itemsize : Nat) :
    Nat → List Nat → Nat → List Nat → Nat → Option (List Stretch)
  | 0, _, _, _, _ => some []
  | fuel + 1, index, k, prefixes_, remaining =>
      if remaining = 0 then some []
      else do
        let take := min (inner.len - k) remaining
        let per ← inner.per itemsize take
        let (next, at_, _) := advance outer index
        let more ← rows outer inner itemsize fuel next 0 (refresh outer prefixes_ next at_)
          (remaining - take)
        some (rowStretches inner (prefixes_.getLastD 0) k per take 0 take ++ more)

end Dim

/-! ## Spans -/

/-- Source elements `[lo, hi)`, holding `outCount` output elements from the
`outAt`-th on. -/
structure Span where
  lo : Nat
  hi : Nat
  outAt : Nat
  outCount : Nat
  deriving Repr, DecidableEq

/-- Take in the next stretch if it lies close enough, in either direction. -/
def Span.join (w : Span) (lo hi count itemsize : Nat) : Option Span :=
  let gap := spanGapBytes / itemsize
  let newLo := min w.lo lo
  let newHi := max w.hi hi
  if w.lo ≤ Word.wrappingAdd 64 hi gap ∧ lo ≤ Word.wrappingAdd 64 w.hi gap ∧
      Word.wrappingMul 64 (Word.wrappingSub 64 newHi newLo) itemsize ≤ spanMaxBytes then
    some ⟨newLo, newHi, w.outAt, Word.wrappingAdd 64 w.outCount count⟩
  else none

section Cutting

variable {β : Type}

/-- `xs[at_..at_ + len]`. -/
def sliceOf (xs : List β) (at_ len : Nat) : Except ReadFailure (List β) :=
  if at_ + len ≤ xs.length then .ok (Vec.slice xs at_ len) else .error .panic

/-- Every `step`-th of `n` elements of `src` from byte `from_` on. -/
def strided (src : List β) (from_ : Nat) (step : Int) (itemsize n : Nat) :
    Except ReadFailure (List β) :=
  let stride := Word.wrappingMul 64 (Word.ofSigned 64 step) itemsize
  (List.range n).foldlM (fun taken i => do
    let element ← sliceOf src (Word.wrappingAdd 64 from_ (Word.wrappingMul 64 i stride)) itemsize
    .ok (taken ++ element)) []

/-- Cut the stretches of a span out of the scratch buffer, whose first `len` bytes
were just read, into `out` from `pos` on. -/
def cutOut (itemsize lo len : Nat) (scratch : List β) :
    List Stretch → Nat → List β → Except ReadFailure (List β)
  | [], _, out => .ok out
  | s :: rest, pos, out => do
      let n := Word.wrappingMul 64 s.count itemsize
      let from_ := Word.wrappingMul 64 (Word.wrappingSub 64 s.src lo) itemsize
      let _ ← sliceOf out pos n
      let bytes ←
        if s.step = 1 then sliceOf scratch from_ n
        else strided (scratch.take len) from_ s.step itemsize (n / itemsize)
      cutOut itemsize lo len scratch rest (pos + n) (Vec.write out pos bytes)

/-- A read of the source, with its error as the read's. -/
def fromSrc (readSrc : ReadSrc β) (offset len : Nat) : Except ReadFailure (List β) :=
  match readSrc offset len with
  | .error e => .error (.error e)
  | .ok bytes => .ok bytes.toList

/-- Read the source behind a span and cut its stretches out into `out`.  `scratch`
is the thread's buffer, grown when it is too short and never cleared. -/
def copySpan (zero : β) (readSrc : ReadSrc β) (itemsize : Nat) (w : Span) (stretches : List Stretch)
    (out scratch : List β) : Except ReadFailure (List β × List β) :=
  let at_ := Word.wrappingMul 64 w.outAt itemsize
  let bytes := Word.wrappingMul 64 w.outCount itemsize
  if ∃ only ∈ stretches.head?, stretches.length = 1 ∧ only.step = 1 then do
    let _ ← sliceOf out at_ bytes
    let read ← fromSrc readSrc (Word.wrappingMul 64 w.lo itemsize) bytes
    .ok (Vec.write out at_ read, scratch)
  else do
    let len := Word.wrappingMul 64 (Word.wrappingSub 64 w.hi w.lo) itemsize
    let grown := scratch ++ List.replicate (len - scratch.length) zero
    let read ← fromSrc readSrc (Word.wrappingMul 64 w.lo itemsize) len
    let scratch := Vec.write grown 0 read
    let out ← cutOut itemsize w.lo len scratch stretches at_ out
    .ok (out, scratch)

/-- What is carried from stretch to stretch: the span so far, the stretches held
for it, and where the next one goes. -/
structure Gathering (β : Type) where
  span : Option Span
  held : List Stretch
  outAt : Nat
  out : List β
  scratch : List β

namespace Gathering

variable (zero : β) (readSrc : ReadSrc β) (itemsize : Nat)

/-- Copy out the span so far. -/
def flush (st : Gathering β) : Except ReadFailure (List β × List β) :=
  match st.span with
  | some w => copySpan zero readSrc itemsize w st.held st.out st.scratch
  | none => .ok (st.out, st.scratch)

/-- Take in one stretch: join the span so far, or copy that out and begin another. -/
def add (st : Gathering β) (s : Stretch) : Except ReadFailure (Gathering β) :=
  match st.span.bind (·.join s.extent.1 s.extent.2 s.count itemsize) with
  | some w =>
      .ok { st with
        span := some w
        held := st.held ++ [s]
        outAt := Word.wrappingAdd 64 st.outAt s.count }
  | none => do
      let (out, scratch) ← st.flush zero readSrc itemsize
      .ok {
        span := some ⟨s.extent.1, s.extent.2, st.outAt, s.count⟩
        held := [s]
        outAt := Word.wrappingAdd 64 st.outAt s.count
        out := out
        scratch := scratch }

end Gathering

end Cutting

/-! ## Reads -/

namespace Gathered

/-- The stretches of output elements `[first, first + count)`, in order. -/
def stretches (g : Gathered) (itemsize first count : Nat) : Option (List Stretch) :=
  if count = 0 then some []
  else
    match g.dims.getLast? with
    -- Every axis was folded into the base, so there is one element.
    | none => some [⟨g.base, 1, 1⟩]
    | some inner =>
        let outer := g.dims.dropLast
        let index := (Dim.indexOf g.dims first).1
        (Dim.rows outer inner itemsize count index.dropLast (index.getLastD 0)
          (Dim.prefixes g.base outer index.dropLast) count).map (Stretch.holdAll none)

variable {β : Type}

/-- Fill `dst` with `[offset, offset + dst.length)` of the logical stream.  A range
off the element boundaries is cut out of whole elements read aside. -/
def read (zero : β) (scratch : List β) (readSrc : ReadSrc β) (g : Gathered) (itemsize offset : Nat)
    (dst : List β) : Except ReadFailure (List β) := do
  let stop := Word.wrappingAdd 64 offset dst.length
  let first := offset / itemsize
  let count := Word.wrappingSub 64 (stop ⌈/⌉ itemsize) first
  let skip := offset - first * itemsize
  let aligned := skip = 0 ∧ stop % itemsize = 0
  let out := if aligned then dst else List.replicate (Word.wrappingMul 64 count itemsize) zero
  match g.stretches itemsize first count with
  | none => .error .panic
  | some stretches => do
      let st ← stretches.foldlM (Gathering.add zero readSrc itemsize) ⟨none, [], 0, out, scratch⟩
      let (out, _) ← st.flush zero readSrc itemsize
      if aligned then .ok out else sliceOf out skip dst.length

end Gathered

section Casting

variable {β : Type} (zero : β) (convert : Narrow β)

/-- Narrow every element of `src` into `dst`: only the two casts a quality agrees to. -/
def castInto (wide narrow : DType) (src dst : List β) : Except ReadFailure (List β) :=
  if (wide = .float64 ∧ narrow = .float32) ∨ (wide = .float32 ∧ narrow = .float16) then
    let n := min (src.length / wide.itemsize) (dst.length / narrow.itemsize)
    .ok (Vec.write dst 0 ((List.range n).flatMap fun i =>
      (convert wide narrow (Vector.ofFn fun j => src.getD (i * wide.itemsize + j) zero)).toList))
  else .error (.error (.unsupportedSelection s!"{wide} does not narrow to {narrow}"))

namespace SelectionLayout

/-- A read in the array's own element type. -/
def readSource (scratch : List β) (readSrc : ReadSrc β) (L : SelectionLayout)
    (itemsize offset : Nat) (dst : List β) : Except ReadFailure (List β) :=
  match L.kind with
  | .contiguous srcOffset _ => fromSrc readSrc (Word.wrappingAdd 64 srcOffset offset) dst.length
  | .gathered g => g.read zero scratch readSrc itemsize offset dst

/-- Read whole source elements covering the range, and narrow them.  The elements
are read and converted aside and the bytes asked for cut out of them. -/
def readCast (scratch : List β) (readSrc : ReadSrc β) (L : SelectionLayout) (offset : Nat)
    (dst : List β) : Except ReadFailure (List β) := do
  let wide := L.srcDtype.itemsize
  let narrow := L.dtype.itemsize
  let first := offset / narrow
  let count := Word.wrappingSub 64 (Word.wrappingAdd 64 offset dst.length ⌈/⌉ narrow) first
  let skip := offset - first * narrow
  let wideBytes := Word.wrappingMul 64 count wide
  let narrowBytes := Word.wrappingMul 64 count narrow
  -- The two halves of one buffer: its length wraps before it is split.
  if Word.wrappingAdd 64 wideBytes narrowBytes < wideBytes then .error .panic
  else do
    let source ← L.readSource zero scratch readSrc wide (Word.wrappingMul 64 first wide)
      (List.replicate wideBytes zero)
    let narrowed ← castInto zero convert L.srcDtype L.dtype source (List.replicate narrowBytes zero)
    sliceOf narrowed skip dst.length

/-- Read `[offset, offset + dst.length)` of the logical byte stream.  `scratch` is
what the thread's buffer holds from earlier reads, and `zero` a zeroed byte. -/
def readWith (scratch : List β) (readSrc : ReadSrc β) (L : SelectionLayout) (offset : Nat)
    (dst : List β) : Except ReadFailure (List β) :=
  match L.checkRange offset dst.length with
  | .error e => .error (.error e)
  | .ok () =>
      if L.dtype = L.srcDtype then
        L.readSource zero scratch readSrc L.dtype.itemsize offset dst
      else L.readCast zero convert scratch readSrc offset dst

/-- Where `[offset, offset + len)` of the logical stream lies in the source, when the
selection is one run.  The range is clipped to the stream. -/
def sourceRun (L : SelectionLayout) (offset len : Nat) : Option (Nat × Nat) :=
  match L.kind with
  | .contiguous srcOffset _ => do
      let rest ← Word.checkedSub L.totalBytes offset
      let len := min len rest
      if len = 0 then none
      else
        -- Under a cast both ends grow to whole source elements.
        let wide := L.srcDtype.itemsize
        let narrow := L.dtype.itemsize
        let first := offset / narrow
        let count := Word.wrappingSub 64 (Word.wrappingAdd 64 offset len ⌈/⌉ narrow) first
        some (Word.wrappingAdd 64 srcOffset (Word.wrappingMul 64 first wide),
          Word.wrappingMul 64 count wide)
  | .gathered _ => none

end SelectionLayout

end Casting

end Aex
