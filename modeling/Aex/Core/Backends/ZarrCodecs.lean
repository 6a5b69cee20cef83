import Aex.Lib.Endian
import Aex.Lib.Pipeline
import Aex.Lib.Vec
import Aex.Core.Error

/-!
# The codecs of a Zarr chunk

The codecs are listed in the order they were applied, and undone from the last one
on.  An expanding codec writes into a spare buffer and the two swap roles.
-/

namespace Aex

/-! ## Metadata -/

/-- A number in JSON: an integer as large as it gets, or a double. -/
inductive Number where
  | posInt (n : UInt64)
  | negInt (i : Int64)
  | float (bits : UInt64)
  deriving Repr, DecidableEq

/-- A JSON value. -/
inductive Value where
  | null
  | bool (b : Bool)
  | number (n : Number)
  | string (s : String)
  | array (values : List Value)
  | object (fields : List (String × Value))

/-- A value as a list of unsigned integers, if it is one. -/
def Value.toVecU64 : Value → Option (List Nat)
  | .array values => values.mapM fun
      | .number (.posInt n) => some n.toNat
      | _ => none
  | _ => none

/-- How the JSON library words a value, and why one is not a list of integers. -/
structure Wording where
  display : Value → String
  notVecU64 : Value → String

/-- A name and what configures it. -/
structure Named where
  name : String
  configuration : List (String × Value)

/-- A codec that turns a chunk's bytes into other bytes. -/
inductive ChunkCodec where
  | gzip
  | zstd
  /-- Four little-endian bytes of CRC-32C at the end of what it wrapped. -/
  | crc32c
  deriving Repr, DecidableEq

/-- One codec of a chain, after those in `chain`. -/
def parseCodec (w : Wording) (pfx : String) (chain : List ChunkCodec) (codec : Named) :
    Except AexError (List ChunkCodec) :=
  match codec.name with
  | "bytes" =>
      match codec.configuration.lookup "endian" with
      | none => .ok chain
      | some (.string "little") => .ok chain
      | some other => .error (.unsupportedZarr
          s!"{pfx} stores {w.display other} elements; only little-endian data is served")
  | "transpose" =>
      let order := (codec.configuration.lookup "order").getD .null
      match order.toVecU64 with
      | none => .error (.malformedZarr s!"{pfx}: transpose: {w.notVecU64 order}")
      | some order =>
          if order.zipIdx.any fun (o, i) => o ≠ i then
            .error (.unsupportedZarr
              s!"{pfx} is stored transposed as {order}; only C order is served")
          else .ok chain
  | "gzip" => .ok (chain ++ [.gzip])
  | "zstd" => .ok (chain ++ [.zstd])
  | "crc32c" => .ok (chain ++ [.crc32c])
  | other => .error (.unsupportedZarr s!"{pfx} uses the {other.quote} codec, which is not decoded")

/-- The bytes-to-bytes codecs of a chain.  `bytes` and an identity `transpose` change
nothing about the stored bytes, so they are checked and then forgotten. -/
def parseCodecs (w : Wording) (pfx : String) (codecs : List Named) :
    Except AexError (List ChunkCodec) :=
  codecs.foldlM (parseCodec w pfx) []

/-! ## Undoing -/

/-- The decoders of other libraries. -/
structure Library where
  /-- What a stream yields, and whether it then ends rather than fails. -/
  gunzip : List UInt8 → List UInt8 × Bool
  /-- A stream expanded into a buffer of a capacity. -/
  unzstd : List UInt8 → Nat → Except String (List UInt8)
  crc32c : List UInt8 → UInt32

namespace Library

/-- Undo gzip, refusing to produce more than `limit` bytes. -/
def ungzip (lib : Library) (bytes : List UInt8) (limit : Nat) : Option (List UInt8) :=
  let (yielded, ends) := lib.gunzip bytes
  if limit + 1 ≤ yielded.length then some (yielded.take (limit + 1))
  else if ends then some yielded
  else none

/-- Undo zstd into `out`, whose size is one chunk. -/
def decompress (lib : Library) (bytes : List UInt8) (chunkBytes : Nat) (out : List UInt8) :
    Except String (List UInt8) := do
  let written ← lib.unzstd bytes chunkBytes
  .ok ((Vec.write (Vec.resize out chunkBytes 0) 0 written).take written.length)

/-- Drop the trailing CRC-32C, if it is the one the rest of the bytes have. -/
def stripCrc32c (lib : Library) (bytes : List UInt8) : Option (List UInt8) :=
  if bytes.length < 4 then none
  else
    let body := bytes.take (bytes.length - 4)
    let stored := Endian.ofLE (bytes.drop (bytes.length - 4))
    if (lib.crc32c body).toNat = stored then some body else none

/-- Undo one codec.  The first buffer holds the bytes and the second is spare. -/
def undoCodec (lib : Library) (key : String) (chunkBytes : Nat) :
    ChunkCodec → List UInt8 × List UInt8 → Except AexError (List UInt8 × List UInt8)
  | .gzip, (bytes, _) =>
      match lib.ungzip bytes chunkBytes with
      | some out => .ok (out, bytes)
      | none => .error (.malformedZarr
          s!"chunk {key}: the gzip stream does not expand to a chunk")
  | .zstd, (bytes, spare) =>
      match lib.decompress bytes chunkBytes spare with
      | .ok out => .ok (out, bytes)
      | .error e => .error (.malformedZarr s!"chunk {key}: zstd: {e}")
  | .crc32c, (bytes, spare) =>
      match lib.stripCrc32c bytes with
      | some bytes => .ok (bytes, spare)
      | none => .error (.malformedZarr s!"chunk {key}: CRC-32C mismatch")

/-- Undo a chunk's codecs.  `spare` is the buffer the cache lent. -/
def undo (lib : Library) (key : String) (codecs : List ChunkCodec) (bytes : List UInt8)
    (chunkBytes : Nat) (spare : List UInt8) : Except AexError (List UInt8) := do
  let (bytes, _) ← Pipeline.backward (lib.undoCodec key chunkBytes) codecs (bytes, spare)
  if bytes.length ≠ chunkBytes then
    .error (.malformedZarr s!"chunk {key}: holds {bytes.length} bytes instead of {chunkBytes}")
  else .ok bytes

end Library

end Aex
