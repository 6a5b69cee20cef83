import Aex.Core.Backends.Chunks
import Aex.Core.Backends.DecodeCache
import Aex.Core.Backends.ZarrMeta

/-!
# Zarr arrays

A chunk's bytes come from a file of its own, or from a shard: a file of many chunks
with an index saying where each one is.  A shard is a chunk of the array and an inner
chunk is a chunk of the shard, so a read walks one grid inside another.
-/

namespace Aex

/-- What is stored under each name, while nobody writes to the store: nothing, or the
bytes of a file.  A name that leaves the store or a file that cannot be read fails. -/
abbrev StoreRoot := String → Except AexError (Option (List UInt8))

/-! ## Shards -/

/-- Where one inner chunk lies in its shard file. -/
structure ShardEntry where
  offset : Nat
  nbytes : Nat
  deriving Repr, DecidableEq

namespace ShardEntry

/-- What the index holds for a chunk that was never written. -/
def missing : ShardEntry := ⟨2 ^ 64 - 1, 2 ^ 64 - 1⟩

def isMissing (entry : ShardEntry) : Bool :=
  entry.offset = 2 ^ 64 - 1 ∧ entry.nbytes = 2 ^ 64 - 1

end ShardEntry

/-- Many chunks to a file, with an index saying where each one is. -/
structure Sharded where
  /-- The array, in chunks of the shard shape. -/
  shards : ChunkGrid
  /-- One shard, in chunks of the inner chunk shape. -/
  inner : ChunkGrid
  /-- The inner chunks' codecs, in the order they were applied. -/
  codecs : List ChunkCodec
  /-- Bytes the index occupies. -/
  indexBytes : Nat
  indexAtStart : Bool
  indexCrc32c : Bool

namespace Sharded

/-- Whether the index is checked, if its codecs keep it at a known place. -/
def parseIndexCodecs (pfx : String) (codecs : List Named) : Except AexError Bool :=
  codecs.foldlM (fun checked codec =>
    match codec.name with
    | "bytes" => .ok checked
    | "crc32c" => .ok true
    | other => .error (.unsupportedZarr
        s!"{pfx}: the shard index uses the {other.quote} codec, which would move it")) false

/-- Whether the index is at the start of a shard. -/
def parseIndexLocation (w : Wording) (pfx : String) (configuration : List (String × Value)) :
    Except AexError Bool :=
  match configuration.lookup "index_location" with
  | none => .ok false
  | some (.string "end") => .ok false
  | some (.string "start") => .ok true
  | some other => .error (.malformedZarr s!"{pfx}: index_location {w.display other}")

/-- A list of names and configurations under one name of a configuration. -/
def namedUnder (w : MetaWording) (pfx what name : String) (configuration : List (String × Value)) :
    Except AexError (List Named) :=
  let value := (configuration.lookup name).getD .null
  value.toVecNamed.elim (.error (.malformedZarr s!"{pfx}: {what}: {w.notVecNamed value}")) .ok

def new (w : MetaWording) (pfx : String) (shards : ChunkGrid) (dtype : DType) (named : Named) :
    Except AexError Sharded := do
  let value := (named.configuration.lookup "chunk_shape").getD .null
  let chunkShape ← value.toVecU64.elim
    (.error (.malformedZarr s!"{pfx}: shard chunk_shape: {w.notVecU64 value}")) .ok
  let inner ← (ChunkGrid.new shards.chunkShape chunkShape dtype.itemsize).elim
    (.error (.malformedZarr
      s!"{pfx}: inner chunks of {chunkShape} do not fit a shard of {shards.chunkShape}")) .ok
  -- A shard is divided evenly, with no padding at its edge.
  if (shards.chunkShape.zip chunkShape).any fun (shard, chunk) => shard % chunk ≠ 0 then
    .error (.malformedZarr
      s!"{pfx}: inner chunks of {chunkShape} do not divide a shard of {shards.chunkShape}")
  else do
    let codecs ← namedUnder w pfx "shard codecs" "codecs" named.configuration
    let codecs ← parseCodecs w.toWording pfx codecs
    let indexCodecs ← namedUnder w pfx "index_codecs" "index_codecs" named.configuration
    let indexCrc32c ← parseIndexCodecs pfx indexCodecs
    let indexAtStart ← parseIndexLocation w.toWording pfx named.configuration
    let entries ← (Word.checkedMul 64 shards.chunks inner.chunks).elim
      (.error (.malformedZarr s!"{pfx}: too many inner chunks")) .ok
    if maxChunks < entries then
      .error (.unsupportedZarr s!"{pfx}: {entries} inner chunks; at most {maxChunks} are served")
    else
      let indexBytes := Word.wrappingAdd 64 (Word.wrappingMul 64 inner.chunks 16)
        (if indexCrc32c then 4 else 0)
      .ok ⟨shards, inner, codecs, indexBytes, indexAtStart, indexCrc32c⟩

/-- The number an inner chunk of a shard goes by in the index and in the cache. -/
def number (sharded : Sharded) (shard chunk : Nat) : Nat :=
  Word.wrappingAdd 64 (Word.wrappingMul 64 shard sharded.inner.chunks) chunk

/-- The bytes of a shard's index, its checksum taken off. -/
def rawIndex (sharded : Sharded) (lib : Library) (key : String) (file : List UInt8) :
    Except AexError (List UInt8) :=
  if file.length < sharded.indexBytes then
    .error (.malformedZarr s!"shard {key}: {file.length} bytes cannot hold an index")
  else
    let at_ := if sharded.indexAtStart then 0 else file.length - sharded.indexBytes
    let raw := Vec.slice file at_ sharded.indexBytes
    if sharded.indexCrc32c then
      (lib.stripCrc32c raw).elim (.error (.malformedZarr s!"shard {key}: index CRC-32C mismatch")) .ok
    else .ok raw

/-- Put entry `i` of a shard's index in its place in the table. -/
def addEntry (sharded : Sharded) (key : String) (shard fileLen : Nat) (raw : List UInt8)
    (index : List ShardEntry) (i : Nat) : Except Halt (List ShardEntry) :=
  if raw.length < (i + 1) * 16 then .error .panic
  else
    let pair := Vec.slice raw (i * 16) 16
    let entry : ShardEntry := ⟨Endian.ofLE (pair.take 8), Endian.ofLE (pair.drop 8)⟩
    if entry.isMissing then .ok index
    else if Word.size 64 ≤ entry.offset + entry.nbytes ∨ fileLen < entry.offset + entry.nbytes then
      .error (.error (.malformedZarr
        s!"shard {key}: an inner chunk of {entry.nbytes} bytes at {entry.offset} does not fit {fileLen} bytes"))
    else
      let n := sharded.number shard i
      if n < index.length then .ok (index.set n entry) else .error .panic

/-- Read one shard's index into the table. -/
def addShard (sharded : Sharded) (lib : Library) (root : StoreRoot) (keyOf : Nat → Option String)
    (index : List ShardEntry) (shard : Nat) : Except Halt (List ShardEntry) :=
  match keyOf shard with
  | none => .error .panic
  | some key =>
      match root key with
      | .error e => .error (.error e)
      -- A shard nobody wrote leaves all of its chunks missing.
      | .ok none => .ok index
      | .ok (some file) =>
          match sharded.rawIndex lib key file with
          | .error e => .error (.error e)
          | .ok raw => (List.range sharded.inner.chunks).foldlM
              (sharded.addEntry key shard file.length raw) index

/-- Where every inner chunk lies.  Built once, it stays as it is. -/
def index (sharded : Sharded) (lib : Library) (root : StoreRoot) (keyOf : Nat → Option String) :
    Except Halt (List ShardEntry) :=
  (List.range sharded.shards.chunks).foldlM (sharded.addShard lib root keyOf)
    (List.replicate (Word.wrappingMul 64 sharded.shards.chunks sharded.inner.chunks) .missing)

end Sharded

/-! ## Arrays -/

/-- How an array's chunks are laid out in files. -/
inductive Store where
  /-- One file per chunk, named after its coordinates. -/
  | chunked (grid : ChunkGrid) (codecs : List ChunkCodec)
  | sharded (sharded : Sharded)

/-- An array's metadata, as far as it is read. -/
structure ArrayMeta where
  shape : List Nat
  dataType : Value
  chunkGrid : Named
  chunkKeyEncoding : Option Named
  fillValue : Value
  codecs : List Named
  storageTransformers : List Value

/-- One array of a store. -/
structure ZarrArray where
  /-- This array's own path in the store; empty if the store is the array. -/
  pfx : String
  dtype : DType
  shape : List Nat
  key : KeyEncoding
  store : Store
  /-- One element's worth of bytes, as stored. -/
  fill : List UInt8
  /-- Tells this array's chunks apart from others' in the shared cache. -/
  cacheKey : Nat

namespace ZarrArray

/-- The element type named in the metadata. -/
def parseDType (pfx : String) : Value → Except AexError DType
  | .string name => (DType.fromName name).elim
      (.error (.unsupportedDType s!"{pfx}: Zarr data type {name.quote}")) .ok
  | _ => .error (.unsupportedZarr s!"{pfx}: only the core data types are served")

/-- The grid of the files. -/
def parseGrid (w : Wording) (pfx : String) (meta_ : ArrayMeta) (dtype : DType) :
    Except AexError ChunkGrid :=
  if meta_.chunkGrid.name ≠ "regular" then
    .error (.unsupportedZarr
      s!"{pfx} has a {meta_.chunkGrid.name.quote} chunk grid; only regular grids are served")
  else do
    let value := (meta_.chunkGrid.configuration.lookup "chunk_shape").getD .null
    let chunkShape ← value.toVecU64.elim
      (.error (.malformedZarr s!"{pfx}: chunk_shape: {w.notVecU64 value}")) .ok
    (ChunkGrid.new meta_.shape chunkShape dtype.itemsize).elim
      (.error (.malformedZarr
        s!"{pfx}: chunks of {chunkShape} do not fit an array of {meta_.shape}")) .ok

/-- How the chunks of a grid are laid out. -/
def parseStore (w : MetaWording) (pfx : String) (grid : ChunkGrid) (dtype : DType)
    (codecs : List Named) : Except AexError Store :=
  match shardingOf codecs with
  | some named => (Sharded.new w pfx grid dtype named).map .sharded
  | none => (parseCodecs w.toWording pfx codecs).map (.chunked grid)

def new (w : MetaWording) (f : Doubles) (pfx : String) (meta_ : ArrayMeta) (cache : DecodeCache) :
    Except AexError (ZarrArray × DecodeCache) := do
  let dtype ← parseDType pfx meta_.dataType
  if meta_.storageTransformers ≠ [] then
    .error (.unsupportedZarr s!"{pfx} uses a storage transformer")
  else do
    let grid ← parseGrid w.toWording pfx meta_ dtype
    let store ← parseStore w pfx grid dtype meta_.codecs
    let key ← keyEncoding w.toWording pfx meta_.chunkKeyEncoding
    let fill ← (fillBytes w.toWording f dtype meta_.fillValue).mapError
      fun e => .malformedZarr s!"{pfx}: {e.message}"
    let (cacheKey, cache) := cache.newKey
    .ok (⟨pfx, dtype, meta_.shape, key, store, fill, cacheKey⟩, cache)

/-- The store-relative name of the file holding chunk `n` of `grid`. -/
def keyOf (array : ZarrArray) (grid : ChunkGrid) (n : Nat) : Option String := do
  let coords ← grid.coordsOf n
  let path := if array.pfx = "" then "" else array.pfx ++ "/"
  let separator := String.singleton array.key.separator
  if array.key.prefixed then
    some (path ++ "c" ++ String.join (coords.map fun c => separator ++ toString c))
  -- A scalar array has one chunk and no coordinates to name it with.
  else if coords = [] then some (path ++ "0")
  else some (path ++ separator.intercalate (coords.map toString))

/-- A whole chunk of the fill value, for one that was never written. -/
def fillChunk (array : ZarrArray) (chunkBytes : Nat) (chunk : List UInt8) :
    Except Halt (List UInt8) :=
  (fillFrom array.fill 0 (Vec.resize chunk chunkBytes 0)).elim (.error .panic) .ok

/-- The bytes at `[offset, offset + len)` of a file. -/
def readExactAt (file : List UInt8) (offset len : Nat) : Except AexError (List UInt8) :=
  if len = 0 ∨ offset + len ≤ file.length then .ok (Vec.slice file offset len)
  else .error (.io .unexpectedEof "failed to fill whole buffer")

/-- Decode the inner chunk at `entry` of the shard named `key`. -/
def decodeInner (array : ZarrArray) (lib : Library) (root : StoreRoot) (sharded : Sharded)
    (key : String) (entry : ShardEntry) (spare : List UInt8) : Except Halt (List UInt8) :=
  if entry.isMissing then array.fillChunk sharded.inner.chunkBytes spare
  else
    match root key with
    | .error e => .error (.error e)
    | .ok none => array.fillChunk sharded.inner.chunkBytes spare
    | .ok (some file) =>
        (do
          let bytes ← readExactAt file entry.offset entry.nbytes
          lib.undo key sharded.codecs bytes sharded.inner.chunkBytes spare).mapError .error

/-- Decode the chunk that the file named `key` holds. -/
def decodeChunk (array : ZarrArray) (lib : Library) (root : StoreRoot) (grid : ChunkGrid)
    (codecs : List ChunkCodec) (key : String) (spare : List UInt8) : Except Halt (List UInt8) :=
  match root key with
  | .error e => .error (.error e)
  | .ok none => array.fillChunk grid.chunkBytes spare
  | .ok (some bytes) => (lib.undo key codecs bytes grid.chunkBytes spare).mapError .error

/-- The name of a chunk's file, where its number is one of the grid's. -/
def keyAt (array : ZarrArray) (grid : ChunkGrid) (n : Nat) : Run DecodeCache String :=
  (array.keyOf grid n).elim (throw .panic) pure

/-- Read `[at_, at_ + len)` of the array's C-order bytes. -/
def readAt (array : ZarrArray) (lib : Library) (root : StoreRoot) (held : ChunkKey → Bool)
    (fuel at_ len : Nat) : Run DecodeCache (List UInt8) :=
  match array.store with
  | .chunked grid codecs =>
      grid.walk (fun piece => do
        let key ← array.keyAt grid piece.chunk
        DecodeCache.readInto held (array.cacheKey, piece.chunk) piece.start piece.len
          (array.decodeChunk lib root grid codecs key)) fuel at_ len
  | .sharded sharded => do
      let index ← liftM (sharded.index lib root (array.keyOf sharded.shards))
      sharded.shards.walk (fun outer => do
        -- The offset into a shard is one into an array of the shard shape.
        let key ← array.keyAt sharded.shards outer.chunk
        sharded.inner.walk (fun piece =>
          let n := sharded.number outer.chunk piece.chunk
          DecodeCache.readInto held (array.cacheKey, n) piece.start piece.len fun spare =>
            match index[n]? with
            | none => .error .panic
            | some entry => array.decodeInner lib root sharded key entry spare)
          fuel outer.start outer.len) fuel at_ len

end ZarrArray

end Aex
