import Aex.Core.Backends.ChunkReads
import Aex.Core.Backends.Hdf5Filters
import Aex.Core.Backends.ZarrArray
import Aex.Core.Selection.Layout

/-!
# HDF5 datasets

What libhdf5 says of a dataset is taken from it.  The bytes are read from the file without it:
a chunked dataset has a table of where its chunks are, made from those libhdf5 visits.
-/

namespace Aex

/-- A chunk never written, which reads as the fill value. -/
def ChunkEntry.missing : ChunkEntry := ⟨2 ^ 64 - 1, 0, 0⟩

/-! ## What libhdf5 says -/

/-- A chunk as it is visited. -/
structure VisitedChunk where
  /-- The coordinates of its first element. -/
  offset : List Nat
  addr : Nat
  size : Nat
  filterMask : Nat
  deriving Repr, DecidableEq

/-- A visit of a dataset's chunks. -/
structure ChunkVisit where
  chunks : List VisitedChunk
  /-- What it comes to after the last of them. -/
  ended : Except AexError Unit
  /-- What it comes to when the callback stops it. -/
  stopped : Except AexError Unit

/-- How a dataset is laid out. -/
inductive Hdf5Layout where
  /-- In one run of the file, unless nothing is allocated. -/
  | contiguous (offset : Option Nat)
  | chunked (chunkShape : Option (List Nat))
  /-- Another, as it is printed. -/
  | other (debug : String)
  deriving Repr, DecidableEq

/-- The fill value of a dataset. -/
inductive FillValue where
  | undefined
  /-- It cannot be converted to the dataset's type. -/
  | unreadable
  | defined (byte : Nat → UInt8)

/-- What an open dataset's metadata is, where libhdf5 gives it. -/
structure Hdf5Meta where
  name : String
  dtype : Except String DType
  /-- Whether its dataspace is null. -/
  isNull : Bool
  shape : List Nat
  /-- Whether its data is in external files. -/
  external : Bool
  layout : Hdf5Layout
  filters : List Filter
  fill : FillValue

/-! ## Chunks -/

/-- A chunked dataset: a regular grid of chunks, each stored on its own. -/
structure Chunked where
  name : String
  grid : ChunkGrid
  /-- In the order they were applied when writing. -/
  filters : List Filter
  /-- By chunk number in C order; built on first use. -/
  built : Option (List ChunkEntry)
  /-- Tells this dataset's chunks apart from others' in the shared cache. -/
  cacheKey : Nat

namespace Chunked

def new (name : String) (shape : List Nat) (dtype : DType) (chunkShape : List Nat)
    (filters : List Filter) (cache : DecodeCache) : Except AexError (Chunked × DecodeCache) := do
  let grid ← (ChunkGrid.new shape chunkShape dtype.itemsize).elim
    (.error (.malformedHdf5 s!"{name}: chunks of {chunkShape} do not fit an array of {shape}")) .ok
  if maxChunks < grid.chunks then
    .error (.unsupportedHdf5
      s!"{name} has {grid.chunks} chunks; at most {maxChunks} are served")
  else
    let (cacheKey, cache) := cache.newKey
    .ok (⟨name, grid, filters, none, cacheKey⟩, cache)

/-- Enter a visited chunk in the table.  An error is a chunk that does not fit, at which the
visit stops, or else a panic. -/
def addChunk (c : Chunked) (fileLen : Nat) (index : List ChunkEntry) (chunk : VisitedChunk) :
    Except (Option ChunkEntry) (List ChunkEntry) :=
  match linear (List.zipWith (· / ·) chunk.offset c.grid.chunkShape) c.grid.grid with
  -- A chunk left behind by shrinking the dataset is not part of it.
  | none => .ok index
  | some number =>
      let entry : ChunkEntry := ⟨chunk.addr, chunk.size, chunk.filterMask⟩
      if (c.filters = [] ∧ entry.size ≠ c.grid.chunkBytes) ∨
          (Word.checkedAdd 64 entry.addr entry.size).all (fun last => fileLen < last) then
        .error (some entry)
      else if number < index.length then .ok (index.set number entry)
      else .error none

/-- The chunk index, reading it from libhdf5 the first time. -/
def index (c : Chunked) (visit : ChunkVisit) (raw : List UInt8) : Except Halt (List ChunkEntry) :=
  match c.built with
  | some index => .ok index
  | none =>
      match visit.chunks.foldlM (c.addChunk raw.length) (List.replicate c.grid.chunks .missing) with
      | .ok index => do
          visit.ended.mapError Halt.error
          .ok index
      | .error none => .error .panic
      | .error (some entry) => do
          visit.stopped.mapError Halt.error
          .error (.error (.malformedHdf5 (s!"{c.name}: a chunk of {entry.size} bytes at " ++
            s!"{entry.addr} does not fit the file ({raw.length} bytes) or the chunk shape")))

section Read

variable (inflate : List UInt8 → List UInt8 × Bool) (visit : ChunkVisit) (raw fill : List UInt8)
  (held : ChunkKey → Bool)

/-- Read a run that stays inside one chunk. -/
def readPiece (c : Chunked) (index : List ChunkEntry) (piece : Piece) :
    Run DecodeCache (List UInt8) :=
  match index[piece.chunk]? with
  | none => throw .panic
  | some entry =>
      if entry.addr = ChunkEntry.missing.addr then
        (fillFrom fill (piece.start % c.grid.itemsize) (List.replicate piece.len 0)).elim
          (throw .panic) pure
      else if c.filters = [] then
        liftM ((ZarrArray.readExactAt raw (Word.wrappingAdd 64 entry.addr piece.start)
          piece.len).mapError Halt.error)
      else DecodeCache.readInto held (c.cacheKey, piece.chunk) piece.start piece.len
        (decode inflate c.filters c.grid.itemsize c.grid.chunkBytes raw entry)

/-- Read `[at_, at_ + len)` of the dataset's C-order bytes. -/
def read (c : Chunked) (fuel at_ len : Nat) : Run DecodeCache (List UInt8) := do
  let index ← liftM (c.index visit raw)
  c.grid.walk (c.readPiece inflate raw fill held index) fuel at_ len

end Read

end Chunked

/-! ## Datasets -/

/-- Where a dataset's bytes are. -/
inductive Storage where
  /-- One run of the file starting here. -/
  | contiguous (offset : Nat)
  /-- Never written: every element reads as the fill value. -/
  | unallocated
  | chunked (chunked : Chunked)

/-- One dataset of an HDF5 file. -/
structure Hdf5Dataset where
  dtype : DType
  shape : List Nat
  storage : Storage
  /-- One element's worth of bytes, as stored. -/
  fill : List UInt8

namespace Hdf5Dataset

/-- One element of the fill value, as stored. -/
def fillValue (name : String) (dtype : DType) : FillValue → Except AexError (List UInt8)
  -- Undefined is what libhdf5 reads back as zeros too.
  | .undefined => .ok (List.replicate dtype.itemsize 0)
  | .unreadable => .error (.malformedHdf5 s!"{name}: cannot read the fill value")
  | .defined byte => .ok ((List.range dtype.itemsize).map byte)

/-- Where the bytes are, by how the dataset is laid out. -/
def storageOf (info : Hdf5Meta) (dtype : DType) (dataLen : Nat) (raw : List UInt8)
    (cache : DecodeCache) : Except AexError (Storage × DecodeCache) :=
  match info.layout with
  | .contiguous none => .ok (.unallocated, cache)
  | .contiguous (some offset) =>
      if (Word.checkedAdd 64 offset dataLen).all (fun last => raw.length < last) then
        .error (.malformedHdf5 (s!"{info.name} claims {dataLen} bytes at offset {offset}, " ++
          s!"but the file is only {raw.length} bytes"))
      else .ok (.contiguous offset, cache)
  | .chunked none => .error (.malformedHdf5 s!"{info.name} has no chunk shape")
  | .chunked (some chunkShape) => do
      let filters ← checkFilters info.name info.filters
      let (chunked, cache) ← Chunked.new info.name info.shape dtype chunkShape filters cache
      .ok (.chunked chunked, cache)
  | .other debug => .error (.unsupportedHdf5
      s!"{info.name} has {debug} layout, which is not served")

def open_ (info : Hdf5Meta) (raw : List UInt8) (cache : DecodeCache) :
    Except AexError (Hdf5Dataset × DecodeCache) := do
  let dtype ← info.dtype.mapError fun e => .unsupportedDType s!"{info.name}: {e}"
  if info.isNull then
    .error (.unsupportedHdf5 s!"{info.name} has a null dataspace and holds no array")
  else do
    let dataLen ← (info.shape.foldlM (Word.checkedMul 64) dtype.itemsize).elim
      (.error (.malformedHdf5 s!"{info.name}: shape {info.shape} overflows u64")) .ok
    if info.external then
      .error (.unsupportedHdf5 s!"{info.name} keeps its data in external files")
    else do
      let (storage, cache) ← storageOf info dtype dataLen raw cache
      let fill ← fillValue info.name dtype info.fill
      .ok (⟨dtype, info.shape, storage, fill⟩, cache)

/-- Resolve a selection.  The chunk index is built here, so a bad index fails the request
that met it. -/
def layout (build : Build) (ds : Hdf5Dataset) (visit : ChunkVisit) (raw : List UInt8)
    (indices : List Index) (quality : QualitySpec) :
    Except Halt (Except AexError SelectionLayout × Hdf5Dataset) :=
  match ds.storage with
  | .chunked chunked => do
      let index ← chunked.index visit raw
      .ok (SelectionLayout.resolve build ds.shape ds.dtype indices quality,
        { ds with storage := .chunked { chunked with built := some index } })
  | _ => .ok (SelectionLayout.resolve build ds.shape ds.dtype indices quality, ds)

/-- What `read_range` reads `[at_, at_ + len)` of the dataset's bytes with. -/
def readAt (ds : Hdf5Dataset) (inflate : List UInt8 → List UInt8 × Bool) (visit : ChunkVisit)
    (raw : List UInt8) (held : ChunkKey → Bool) (fuel at_ len : Nat) :
    Run DecodeCache (List UInt8) :=
  match ds.storage with
  | .contiguous base =>
      liftM ((ZarrArray.readExactAt raw (Word.wrappingAdd 64 base at_) len).mapError Halt.error)
  | .unallocated => (fillFrom ds.fill at_ (List.replicate len 0)).elim (throw .panic) pure
  | .chunked chunked => chunked.read inflate visit raw ds.fill held fuel at_ len

end Hdf5Dataset

end Aex
