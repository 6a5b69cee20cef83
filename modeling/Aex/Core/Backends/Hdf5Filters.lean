import Aex.Lib.Endian
import Aex.Lib.Pipeline
import Aex.Core.Backends.Chunks
import Aex.Core.Backends.Fletcher

/-!
# The filters of an HDF5 chunk

The filters are listed in the order they were applied, and a chunk's mask says which
of them were skipped for it.
-/

namespace Aex

/-- A filter of the pipeline. -/
inductive Filter where
  | deflate (level : UInt8)
  | shuffle
  | fletcher32
  /-- One that is not decoded, as it is printed. -/
  | other (debug : String)
  deriving Repr, DecidableEq

/-- Whether a dataset is opened with a filter. -/
def Filter.isDecoded : Filter → Bool
  | .other _ => false
  | _ => true

def Filter.debug : Filter → String
  | .deflate level => s!"Deflate({level})"
  | .shuffle => "Shuffle"
  | .fletcher32 => "Fletcher32"
  | .other debug => debug

/-- The pipelines a dataset is opened with. -/
def checkFilters (name : String) (filters : List Filter) : Except AexError (List Filter) :=
  match filters.find? fun filter => !filter.isDecoded with
  | some filter => .error (.unsupportedHdf5
      (s!"{name} uses the {filter.debug} filter; only deflate, shuffle and " ++
        "fletcher32 are decoded"))
  | none => .ok filters

/-- Where one chunk is stored. -/
structure ChunkEntry where
  addr : Nat
  size : Nat
  /-- Bit `i` set: filter `i` of the pipeline was skipped for this chunk. -/
  filterMask : Nat
  deriving Repr, DecidableEq

/-- Each half of a checksum with its bytes swapped. -/
def swapHalves (sum : UInt32) : UInt32 :=
  ((sum &&& (0x00ff00ff : UInt32)) <<< 8) ||| ((sum >>> 8) &&& (0x00ff00ff : UInt32))

/-- Check and drop the trailing checksum. -/
def stripFletcher32 (bytes : List UInt8) : Option (List UInt8) :=
  if bytes.length < 4 then none
  else
    let body := bytes.take (bytes.length - 4)
    let stored := Endian.ofLE (bytes.drop (bytes.length - 4))
    let sum := fletcher32 body
    -- Before 1.6.3, libhdf5 wrote each half of the sum byte-swapped on little-endian
    -- machines, and it still accepts both.
    if stored ≠ sum.toNat ∧ stored ≠ (swapHalves sum).toNat then none else some body

/-- Undo the shuffle into `out`: byte `b` of every element was moved to block `b`.
Whatever the permutation leaves untouched is the input itself. -/
def unshuffle (bytes : List UInt8) (itemsize : Nat) : List UInt8 :=
  if 1 < itemsize then
    let elements := bytes.length / itemsize
    (List.range itemsize).foldl (fun out b =>
      (Vec.slice bytes (b * elements) elements).zipIdx.foldl (fun out (byte, e) =>
        out.set (e * itemsize + b) byte) out) bytes
  else bytes

section Decode

-- What a zlib stream yields, and whether it then ends rather than fails.
variable (inflate : List UInt8 → List UInt8 × Bool)

/-- Undo zlib, refusing to produce more than `limit` bytes. -/
def inflateUpTo (bytes : List UInt8) (limit : Nat) : Option (List UInt8) :=
  let (yielded, ends) := inflate bytes
  if limit + 1 ≤ yielded.length then some (yielded.take (limit + 1))
  else if ends then some yielded
  else none

/-- Undo one filter, unless it was skipped.  The first buffer holds the bytes and the
second is spare. -/
def undoFilter (entry : ChunkEntry) (itemsize chunkBytes : Nat) :
    Filter × Nat → List UInt8 × List UInt8 → Except Halt (List UInt8 × List UInt8)
  | (filter, i), (bytes, spare) =>
      if entry.filterMask.testBit (i % 32) then .ok (bytes, spare)
      else
        match filter with
        | .fletcher32 =>
            match stripFletcher32 bytes with
            | some bytes => .ok (bytes, spare)
            | none => .error (.error (.malformedHdf5
                s!"chunk at byte {entry.addr}: fletcher32 checksum mismatch"))
        | .deflate _ =>
            match inflateUpTo inflate bytes chunkBytes with
            | some out => .ok (out, bytes)
            | none => .error (.error (.malformedHdf5
                s!"chunk at byte {entry.addr}: deflate stream is corrupt"))
        | .shuffle => .ok (unshuffle bytes itemsize, bytes)
        -- Rejected when the dataset was opened.
        | .other _ => .error .panic

/-- Read one chunk and undo its filters.  `spare` is the buffer the cache lent. -/
def decode (filters : List Filter) (itemsize chunkBytes : Nat) (raw : List UInt8)
    (entry : ChunkEntry) (spare : List UInt8) : Except Halt (List UInt8) := do
  let bytes ← if entry.addr + entry.size ≤ raw.length then .ok (Vec.slice raw entry.addr entry.size)
    else .error (.error (.io .unexpectedEof "failed to fill whole buffer"))
  let (bytes, _) ← Pipeline.backward (undoFilter inflate entry itemsize chunkBytes) filters.zipIdx
    (bytes, spare)
  if bytes.length ≠ chunkBytes then
    .error (.error (.malformedHdf5 (s!"chunk at byte {entry.addr}: decodes to {bytes.length} " ++
      s!"bytes instead of {chunkBytes}")))
  else .ok bytes

end Decode

end Aex
