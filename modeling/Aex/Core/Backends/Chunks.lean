import Mathlib.Algebra.Order.Floor.Div
import Aex.Lib.Radix
import Aex.Lib.Word
import Aex.Core.Error

/-!
# A regular grid of chunks over a C-order array

Edge chunks are stored padded to the full chunk shape.  A walk turns a range of the
array's byte stream into runs, each inside one chunk, and leaves to its callback
where the bytes of a chunk come from.
-/

namespace Aex

/-- Why a call does not return a value. -/
inductive Halt where
  | error (e : AexError)
  /-- A failed `expect`, a division by zero or an index past the end. -/
  | panic
  /-- The loop goes on. -/
  | running
  deriving Repr, DecidableEq

/-- Code that keeps a state of type `σ`. -/
abbrev Run (σ α : Type) := StateT σ (Except Halt) α

/-- A dense chunk index of this many entries already costs a gigabyte. -/
def maxChunks : Nat := 2 ^ 26

/-- Chunks of one shape laid over an array of another. -/
structure ChunkGrid where
  shape : List Nat
  chunkShape : List Nat
  /-- Chunks along each axis. -/
  grid : List Nat
  itemsize : Nat
  /-- Bytes of a whole chunk, decoded. -/
  chunkBytes : Nat
  /-- Every axis after this one is covered by one chunk with no padding. -/
  runAxis : Nat
  deriving Repr, DecidableEq

/-- One call of the callback of a walk: the chunk's number, the byte offset within
it and how many bytes of `dst` to fill. -/
structure Piece where
  chunk : Nat
  start : Nat
  len : Nat
  deriving Repr, DecidableEq

/-- The C-order number of `coords` in a grid of `dims`, if it lies inside. -/
def linear (coords dims : List Nat) : Option Nat :=
  (coords.zip dims).foldlM (fun n (c, d) =>
    if d ≤ c then none else some (Word.wrappingAdd 64 (Word.wrappingMul 64 n d) c)) 0

/-- `linear` for coordinates known to be inside. -/
def linearUnchecked (coords dims : List Nat) : Nat :=
  (coords.zip dims).foldl (fun n (c, d) => Word.wrappingAdd 64 (Word.wrappingMul 64 n d) c) 0

/-- The coordinates of an element, found from the last axis on, and what is left. -/
def unravel : List Nat → Nat → List Nat × Nat
  | [], rest => ([], rest)
  | d :: dims, rest =>
      let (pos, rest) := unravel dims rest
      (rest % d :: pos, rest / d)

namespace ChunkGrid

/-- The run axis, looked for from axis `j` down. -/
def runAxisFrom (shape chunkShape : List Nat) : Nat → Nat
  | 0 => 0
  | j + 1 => if chunkShape[j + 1]? = shape[j + 1]? then runAxisFrom shape chunkShape j else j + 1

/-- `none` if the ranks disagree, a chunk axis is zero, or a chunk is too big to
address. -/
def new (shape chunkShape : List Nat) (itemsize : Nat) : Option ChunkGrid :=
  if chunkShape.length ≠ shape.length ∨ 0 ∈ chunkShape then none
  else do
    let grid := List.zipWith (fun n c : Nat => n ⌈/⌉ c) shape chunkShape
    let _ ← grid.foldlM (Word.checkedMul 64) 1
    let chunkBytes ← chunkShape.foldlM (Word.checkedMul 64) itemsize
    some ⟨shape, chunkShape, grid, itemsize, chunkBytes,
      runAxisFrom shape chunkShape (shape.length - 1)⟩

/-- How many chunks the grid holds. -/
def chunks (g : ChunkGrid) : Nat := g.grid.foldl (Word.wrappingMul 64) 1

/-- The coordinates of chunk `n`; `none` is a division by zero. -/
def coordsOf (g : ChunkGrid) (n : Nat) : Option (List Nat) :=
  if 0 ∈ g.grid then none else some (unravel g.grid n).1

/-- The run at byte `offset`, where `left` bytes of `dst` remain; `none` is a panic. -/
def pieceAt (g : ChunkGrid) (offset left : Nat) : Option Piece :=
  if g.itemsize = 0 ∨ 0 ∈ g.shape then none
  else do
    let element := offset / g.itemsize
    let skip := offset % g.itemsize
    let pos := (unravel g.shape element).1
    let chunk ← linear (List.zipWith (· / ·) pos g.chunkShape) g.grid
    let within := linearUnchecked (List.zipWith (· % ·) pos g.chunkShape) g.chunkShape
    -- Elements from here to the end of this chunk along the run axis, less those of
    -- the trailing axes already behind us.
    let j := g.runAxis
    let trailing := (g.shape.drop (j + 1)).foldl (Word.wrappingMul 64) 1
    let behind := linearUnchecked (pos.drop (j + 1)) (g.shape.drop (j + 1))
    let along := min (g.chunkShape.getD j 0 - pos.getD j 0 % g.chunkShape.getD j 0)
      (g.shape.getD j 0 - pos.getD j 0)
    let run := Word.wrappingSub 64 (Word.wrappingMul 64 along trailing) behind
    let start := Word.wrappingAdd 64 (Word.wrappingMul 64 within g.itemsize) skip
    let len := min (Word.wrappingSub 64 (Word.wrappingMul 64 run g.itemsize) skip) left
    some ⟨chunk, start, len⟩

/-- The loop of a walk, at most `fuel` times. -/
def walkFrom {σ : Type} (g : ChunkGrid) (read : Piece → Run σ (List UInt8)) :
    Nat → Nat → Nat → Run σ (List UInt8)
  | 0, _, left => if left = 0 then pure [] else throw .running
  | fuel + 1, offset, left =>
      if left = 0 then pure []
      else
        match g.pieceAt offset left with
        | none => throw .panic
        | some piece => do
            let out ← read piece
            let tail ← walkFrom g read fuel (Word.wrappingAdd 64 offset piece.len) (left - piece.len)
            pure (out ++ tail)

/-- Walk `[offset, offset + len)` of the array's C-order bytes, calling `read` once per
run that stays inside one chunk.  The bytes are those `read` fills `dst` with. -/
def walk {σ : Type} (g : ChunkGrid) (read : Piece → Run σ (List UInt8)) (fuel offset len : Nat) :
    Run σ (List UInt8) :=
  -- A scalar array is one chunk holding one element.
  if g.shape = [] then read ⟨0, offset, len⟩ else walkFrom g read fuel offset len

end ChunkGrid

/-- Fill `dst` with the bytes from `at_` on of an array made of nothing but `pattern`;
`none` is a division by zero. -/
def fillFrom (pattern : List UInt8) (at_ : Nat) (dst : List UInt8) : Option (List UInt8) :=
  if pattern = [] then none
  else some (dst.mapIdx fun i _ =>
    pattern.getD ((at_ % pattern.length + i) % pattern.length) 0)

end Aex
