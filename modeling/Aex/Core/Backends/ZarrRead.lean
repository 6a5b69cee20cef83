import Mathlib.Tactic.IntervalCases
import Aex.Lib.Fallible
import Aex.Core.Backends.ChunkWalk
import Aex.Core.Backends.ZarrArray
import Aex.Core.Backends.ZarrChain

/-!
# Reads through shards

A read of a sharded array walks the inner chunks of every shard it touches.  It yields
the bytes that the two grids, one inside the other, place in the inner chunks, and the
fill value where nothing was written.
-/

namespace Aex

/-! ## The contents of the array -/

/-- Byte `j` of an array divided into shards and these into inner chunks, whose contents
are given by the shard's number and the inner chunk's. -/
def shardedByte (shape shardShape chunkShape : List Nat) (itemsize : Nat) (fill : List UInt8)
    (content : Nat → Nat → Option (List UInt8)) (j : Nat) : Option UInt8 :=
  let pos := Radix.coords shape (j / itemsize)
  let inShard := List.zipWith (· % ·) pos shardShape
  let shard := Radix.flat (List.zipWith (· / ·) pos shardShape)
    (List.zipWith (fun n c : Nat => n ⌈/⌉ c) shape shardShape)
  let chunk := Radix.flat (List.zipWith (· / ·) inShard chunkShape)
    (List.zipWith (· / ·) shardShape chunkShape)
  let within := Radix.flat (List.zipWith (· % ·) inShard chunkShape) chunkShape
  match content shard chunk with
  | some bytes => bytes[within * itemsize + j % itemsize]?
  | none => fill[j % itemsize]?

namespace ZarrArray

/-- What an inner chunk decodes to, or that it or its whole shard was never written. -/
def Stored (array : ZarrArray) (lib : Library) (root : StoreRoot) (sharded : Sharded)
    (index : List ShardEntry) (shard chunk : Nat) : Option (List UInt8) → Prop
  | some bytes => ∃ key file entry, array.keyOf sharded.shards shard = some key ∧
      root key = .ok (some file) ∧ index[sharded.number shard chunk]? = some entry ∧
      entry.isMissing = false ∧
      lib.undo key sharded.codecs (Vec.slice file entry.offset entry.nbytes)
        sharded.inner.chunkBytes [] = .ok bytes
  | none => (∃ key, array.keyOf sharded.shards shard = some key ∧ root key = .ok none) ∨
      ∃ entry, index[sharded.number shard chunk]? = some entry ∧ entry.isMissing = true

end ZarrArray

/-! ## What is accepted -/

/-- What `Sharded.new` checks and computes. -/
structure Sharded.Sound (sharded : Sharded) (itemsize : Nat) : Prop where
  shards : sharded.shards.Sound
  inner : sharded.inner.Sound
  shardItem : sharded.shards.itemsize = itemsize
  innerItem : sharded.inner.itemsize = itemsize
  nested : sharded.inner.shape = sharded.shards.chunkShape
  divides : List.Forall₂ (· ∣ ·) sharded.inner.chunkShape sharded.shards.chunkShape
  few : sharded.shards.chunks * sharded.inner.chunks ≤ maxChunks

section Sharded

variable {sharded : Sharded} {shards : ChunkGrid} {w : MetaWording} {pfx : String} {dtype : DType}
  {named : Named} {lib : Library} {root : StoreRoot} {keyOf : Nat → Option String}
  {index : List ShardEntry} {shard chunk shard' chunk' : Nat}

namespace Sharded

theorem divides_of_checked {shardShape chunkShape : List Nat}
    (hlen : chunkShape.length = shardShape.length)
    (h : ¬(shardShape.zip chunkShape).any (fun (shard, chunk) => shard % chunk ≠ 0) = true) :
    List.Forall₂ (· ∣ ·) chunkShape shardShape := by
  induction chunkShape generalizing shardShape with
  | nil =>
      obtain rfl := List.length_eq_zero_iff.mp hlen.symm
      exact .nil
  | cons chunk chunkShape ih =>
      cases shardShape with
      | nil => cases hlen
      | cons shard shardShape =>
          simp only [List.zip_cons_cons, List.any_cons, Bool.or_eq_true, not_or] at h
          refine .cons ?_ (ih (Nat.succ.inj hlen) h.2)
          apply Nat.dvd_of_mod_eq_zero
          simpa using h.1

theorem new_sound (hshards : shards.Sound) (hitem : shards.itemsize = dtype.itemsize)
    (h : new w pfx shards dtype named = .ok sharded) :
    sharded.Sound dtype.itemsize ∧ sharded.shards = shards := by
  unfold new at h
  obtain ⟨chunkShape, -, h⟩ := Fallible.bind_eq_ok.mp h
  obtain ⟨inner, hinner, h⟩ := Fallible.bind_eq_ok.mp h
  rw [Fallible.elim_eq_ok] at hinner
  obtain ⟨hsound, hshape, hchunks, hitems⟩ := ChunkGrid.new_sound hinner
  split at h
  · cases h
  rename_i hdivides
  obtain ⟨_, -, h⟩ := Fallible.bind_eq_ok.mp h
  obtain ⟨codecs, -, h⟩ := Fallible.bind_eq_ok.mp h
  obtain ⟨_, -, h⟩ := Fallible.bind_eq_ok.mp h
  obtain ⟨indexCrc32c, -, h⟩ := Fallible.bind_eq_ok.mp h
  obtain ⟨indexAtStart, -, h⟩ := Fallible.bind_eq_ok.mp h
  obtain ⟨entries, hentries, h⟩ := Fallible.bind_eq_ok.mp h
  rw [Fallible.elim_eq_ok, Word.checkedMul_eq_some] at hentries
  split at h
  · cases h
  rename_i hfew
  cases h
  refine ⟨⟨hshards, hsound, hitem, hitems, hshape, ?_, hentries.2 ▸ Nat.not_lt.mp hfew⟩, rfl⟩
  apply divides_of_checked
  · rw [← hsound.rank, hshape]
  · rw [hchunks]
    exact hdivides

/-! ## Numbers of inner chunks -/

variable {itemsize : Nat}

theorem Sound.few_lt (h : sharded.Sound itemsize) :
    sharded.shards.chunks * sharded.inner.chunks < Word.size 64 :=
  Nat.lt_of_le_of_lt h.few (by decide)

theorem Sound.number_eq (h : sharded.Sound itemsize) (hshard : shard < sharded.shards.chunks)
    (hchunk : chunk < sharded.inner.chunks) :
    sharded.number shard chunk = shard * sharded.inner.chunks + chunk ∧
      sharded.number shard chunk < sharded.shards.chunks * sharded.inner.chunks := by
  have hfew := h.few_lt
  have hlast : (shard + 1) * sharded.inner.chunks ≤ sharded.shards.chunks * sharded.inner.chunks :=
    Nat.mul_le_mul_right _ hshard
  rw [Nat.succ_mul] at hlast
  have heq : sharded.number shard chunk = shard * sharded.inner.chunks + chunk := by
    unfold number
    rw [Word.wrappingMul_of_lt (by omega), Word.wrappingAdd_of_lt (by omega)]
  omega

/-- No two inner chunks share a number. -/
theorem Sound.number_inj (h : sharded.Sound itemsize) (hshard : shard < sharded.shards.chunks)
    (hchunk : chunk < sharded.inner.chunks) (hshard' : shard' < sharded.shards.chunks)
    (hchunk' : chunk' < sharded.inner.chunks)
    (heq : sharded.number shard chunk = sharded.number shard' chunk') :
    shard = shard' ∧ chunk = chunk' := by
  rw [(h.number_eq hshard hchunk).1, (h.number_eq hshard' hchunk').1] at heq
  have hpos : 0 < sharded.inner.chunks := by omega
  have hdiv := congrArg (· / sharded.inner.chunks) heq
  simp only [Nat.mul_comm _ sharded.inner.chunks, Nat.mul_add_div hpos, Nat.div_eq_of_lt hchunk,
    Nat.div_eq_of_lt hchunk', Nat.add_zero] at hdiv
  subst hdiv
  exact ⟨rfl, by omega⟩

/-! ## The index -/

/-- The table has an entry for every inner chunk, and every entry that was written lies
inside its shard's file. -/
def Located (sharded : Sharded) (root : StoreRoot) (keyOf : Nat → Option String)
    (index : List ShardEntry) : Prop :=
  index.length = sharded.shards.chunks * sharded.inner.chunks ∧
    ∀ shard < sharded.shards.chunks, ∀ chunk < sharded.inner.chunks, ∀ entry,
      index[sharded.number shard chunk]? = some entry → entry.isMissing = false →
        ∀ key file, keyOf shard = some key → root key = .ok (some file) →
          entry.offset + entry.nbytes ≤ file.length

theorem Sound.addEntry_located {key : String} {file raw : List UInt8} {next : List ShardEntry}
    {i : Nat} (h : sharded.Sound itemsize) (hshard : shard < sharded.shards.chunks)
    (hi : i < sharded.inner.chunks) (hkey : keyOf shard = some key)
    (hfile : root key = .ok (some file)) (hlocated : sharded.Located root keyOf index)
    (hadd : sharded.addEntry key shard file.length raw index i = .ok next) :
    sharded.Located root keyOf next := by
  unfold addEntry at hadd
  split at hadd
  · cases hadd
  dsimp only at hadd
  split at hadd
  · cases hadd
    exact hlocated
  split at hadd
  · cases hadd
  rename_i hinside
  split at hadd
  · cases hadd
    refine ⟨by rw [List.length_set]; exact hlocated.1, ?_⟩
    intro shard' hshard' chunk' hchunk' entry hentry hwritten key' file' hkey' hfile'
    rw [List.getElem?_set] at hentry
    split at hentry
    · rename_i hsame
      obtain ⟨rfl, rfl⟩ := h.number_inj hshard hi hshard' hchunk' hsame
      cases hentry
      obtain rfl := Option.some.inj (hkey.symm.trans hkey')
      rw [hfile] at hfile'
      cases hfile'
      rw [not_or, Nat.not_le, Nat.not_lt] at hinside
      exact hinside.2
    · exact hlocated.2 shard' hshard' chunk' hchunk' entry hentry hwritten key' file' hkey' hfile'
  · cases hadd

theorem Sound.addShard_located {next : List ShardEntry} (h : sharded.Sound itemsize)
    (hshard : shard < sharded.shards.chunks) (hlocated : sharded.Located root keyOf index)
    (hadd : sharded.addShard lib root keyOf index shard = .ok next) :
    sharded.Located root keyOf next := by
  unfold addShard at hadd
  split at hadd
  · cases hadd
  rename_i key hkey
  split at hadd
  · cases hadd
  · cases hadd
    exact hlocated
  rename_i file hfile
  split at hadd
  · cases hadd
  · apply Fallible.foldlM_invariant _ hlocated hadd
    intro i hi a c ha hstep
    exact h.addEntry_located hshard (List.mem_range.mp hi) hkey hfile ha hstep

/-- What the index says lies inside the files. -/
theorem Sound.index_located (h : sharded.Sound itemsize)
    (hindex : sharded.index lib root keyOf = .ok index) : sharded.Located root keyOf index := by
  apply Fallible.foldlM_invariant _ _ hindex
  · intro shard hshard a c ha hstep
    exact h.addShard_located (List.mem_range.mp hshard) ha hstep
  · refine ⟨by rw [List.length_replicate, Word.wrappingMul_of_lt h.few_lt], ?_⟩
    intro shard _ chunk _ entry hentry hwritten
    obtain rfl := List.eq_of_mem_replicate (List.mem_of_getElem? hentry)
    cases hwritten

end Sharded

end Sharded

/-! ## Inner chunks -/

/-- `n` bytes of an array made of nothing but `fill`. -/
def filler (fill : List UInt8) (n : Nat) : List UInt8 :=
  (List.range n).map fun i => fill.getD (i % fill.length) 0

theorem fillFrom_eq {fill dst : List UInt8} (hfill : fill ≠ []) :
    fillFrom fill 0 dst = some (filler fill dst.length) := by
  rw [fillFrom, if_neg hfill]
  congr 1
  apply List.ext_getElem?
  intro i
  by_cases hi : i < dst.length
  · simp [filler, hi]
  · simp [filler, hi]

section Inner

variable {array : ZarrArray} {lib : Library} {root : StoreRoot} {sharded : Sharded}
  {index : List ShardEntry} {shard chunk n itemsize : Nat} {content : Nat → Nat → Option (List UInt8)}
  {key : String} {spare : List UInt8} {g : ChunkGrid} {held : ChunkKey → Bool} {cache : DecodeCache}

/-- Every chunk of a grid has a name. -/
theorem keyOf_isSome (hn : n < g.chunks) : ∃ key, array.keyOf g n = some key := by
  have hzero : 0 ∉ g.grid := by
    intro hmem
    unfold ChunkGrid.chunks at hn
    rw [Word.foldl_wrappingMul (by decide), List.prod_eq_zero hmem] at hn
    simp at hn
  unfold ZarrArray.keyOf ChunkGrid.coordsOf
  rw [if_neg hzero]
  simp only [Option.bind_eq_bind, Option.bind_some]
  split
  · exact ⟨_, rfl⟩
  split
  · exact ⟨_, rfl⟩
  · exact ⟨_, rfl⟩

/-- The bytes of an inner chunk, written or not. -/
def ZarrArray.innerBytes (array : ZarrArray) (sharded : Sharded)
    (content : Nat → Nat → Option (List UInt8)) (shard chunk : Nat) : List UInt8 :=
  (content shard chunk).getD (filler array.fill sharded.inner.chunkBytes)

/-- A cached chunk of the array is an inner chunk's bytes, under the inner chunk's number. -/
def ZarrArray.Cached (array : ZarrArray) (sharded : Sharded)
    (content : Nat → Nat → Option (List UInt8)) (key : ChunkKey) (bytes : List UInt8) : Prop :=
  ∀ shard < sharded.shards.chunks, ∀ chunk < sharded.inner.chunks,
    key = (array.cacheKey, sharded.number shard chunk) →
      bytes = array.innerBytes sharded content shard chunk

theorem fillChunk_eq (hfill : array.fill ≠ []) :
    array.fillChunk n spare = .ok (filler array.fill n) := by
  unfold ZarrArray.fillChunk
  rw [fillFrom_eq hfill, Vec.length_resize]
  rfl

/-- What a chunk decodes to does not depend on the buffer the cache lends. -/
theorem decodeChunk_spare {codecs : List ChunkCodec} {spare' : List UInt8} (hfill : array.fill ≠ []) :
    array.decodeChunk lib root g codecs key spare = array.decodeChunk lib root g codecs key spare' := by
  unfold ZarrArray.decodeChunk
  cases root key with
  | error e => rfl
  | ok file =>
      cases file with
      | none =>
          show array.fillChunk g.chunkBytes spare = array.fillChunk g.chunkBytes spare'
          rw [fillChunk_eq hfill, fillChunk_eq hfill]
      | some bytes =>
          show (lib.undo key codecs bytes g.chunkBytes spare).mapError Halt.error = _
          rw [Library.undo_spare]

/-- An inner chunk is decoded to its bytes, whatever buffer the cache lends. -/
theorem decodeInner_eq {entry : ShardEntry} (hfill : array.fill ≠ [])
    (hlocated : sharded.Located root (array.keyOf sharded.shards) index)
    (hshard : shard < sharded.shards.chunks) (hchunk : chunk < sharded.inner.chunks)
    (hkey : array.keyOf sharded.shards shard = some key)
    (hentry : index[sharded.number shard chunk]? = some entry)
    (hstored : array.Stored lib root sharded index shard chunk (content shard chunk)) :
    array.decodeInner lib root sharded key entry spare =
      .ok (array.innerBytes sharded content shard chunk) := by
  unfold ZarrArray.innerBytes ZarrArray.decodeInner
  cases hcontent : content shard chunk with
  | none =>
      rw [hcontent] at hstored
      rcases hstored with ⟨key', hkey', hfile⟩ | ⟨entry', hentry', hmissing⟩
      · obtain rfl := Option.some.inj (hkey.symm.trans hkey')
        rw [hfile]
        split <;> exact fillChunk_eq hfill
      · obtain rfl := Option.some.inj (hentry.symm.trans hentry')
        rw [if_pos hmissing]
        exact fillChunk_eq hfill
  | some bytes =>
      rw [hcontent] at hstored
      obtain ⟨key', file, entry', hkey', hfile, hentry', hwritten, hundo⟩ := hstored
      obtain rfl := Option.some.inj (hkey.symm.trans hkey')
      obtain rfl := Option.some.inj (hentry.symm.trans hentry')
      have hinside := hlocated.2 shard hshard chunk hchunk entry hentry hwritten key file hkey hfile
      have hread : ZarrArray.readExactAt file entry.offset entry.nbytes =
          .ok (Vec.slice file entry.offset entry.nbytes) := if_pos (Or.inr hinside)
      rw [if_neg (by simp [hwritten]), hfile]
      dsimp only
      rw [hread]
      show (lib.undo key sharded.codecs _ _ spare).mapError Halt.error = _
      rw [Library.undo_spare, hundo]
      rfl

theorem length_innerBytes (hstored : array.Stored lib root sharded index shard chunk
    (content shard chunk)) :
    (array.innerBytes sharded content shard chunk).length = sharded.inner.chunkBytes := by
  unfold ZarrArray.innerBytes
  cases hcontent : content shard chunk with
  | none => simp [filler]
  | some bytes =>
      rw [hcontent] at hstored
      obtain ⟨_, _, _, -, -, -, -, hundo⟩ := hstored
      exact Library.length_undo hundo

/-- A read of an inner chunk yields its bytes, and leaves only such chunks in the cache. -/
theorem readInto_inner {start len : Nat} (h : sharded.Sound itemsize) (hfill : array.fill ≠ [])
    (hlocated : sharded.Located root (array.keyOf sharded.shards) index)
    (hshard : shard < sharded.shards.chunks) (hchunk : chunk < sharded.inner.chunks)
    (hkey : array.keyOf sharded.shards shard = some key)
    (hstored : array.Stored lib root sharded index shard chunk (content shard chunk))
    (hinside : start + len ≤ sharded.inner.chunkBytes)
    (hcache : cache.Consistent (array.Cached sharded content)) :
    Triple.Yields (DecodeCache.readInto held (array.cacheKey, sharded.number shard chunk) start len
      fun spare =>
        match index[sharded.number shard chunk]? with
        | none => .error .panic
        | some entry => array.decodeInner lib root sharded key entry spare) cache fun out next =>
      out = (List.range' start len).map (fun k =>
        (array.innerBytes sharded content shard chunk).getD k 0) ∧
      next.Consistent (array.Cached sharded content) := by
  have hlen := length_innerBytes hstored
  have hnumber := (h.number_eq hshard hchunk).2
  rw [← hlocated.1] at hnumber
  apply Triple.Yields.mono (hcache.readInto ?_ ?_
    (show start + len ≤ (array.innerBytes sharded content shard chunk).length by omega))
  · intro out next hout
    rw [← Vec.slice_eq_map (by omega)]
    exact hout
  · intro out
    constructor
    · intro hvalid
      exact hvalid shard hshard chunk hchunk rfl
    · intro hout shard' hshard' chunk' hchunk' hsame
      obtain ⟨rfl, rfl⟩ := h.number_inj hshard hchunk hshard' hchunk' (Prod.mk.inj hsame).2
      exact hout
  · intro spare
    rw [List.getElem?_eq_getElem hnumber]
    exact decodeInner_eq hfill hlocated hshard hchunk hkey (List.getElem?_eq_getElem hnumber) hstored

/-! ## The nested walk -/

/-- The byte of the array at an offset into a shard. -/
def ZarrArray.shardBytes (array : ZarrArray) (sharded : Sharded)
    (content : Nat → Nat → Option (List UInt8)) (shard offset : Nat) : UInt8 :=
  (array.innerBytes sharded content shard (sharded.inner.place offset).1).getD
    (sharded.inner.place offset).2 0

theorem Sharded.Sound.shardBytes_eq (h : sharded.Sound itemsize) :
    sharded.inner.shape.prod * sharded.inner.itemsize = sharded.shards.chunkBytes := by
  rw [h.shards.bytes, h.nested, h.innerItem, h.shardItem]

/-- A walk over the inner chunks of one shard. -/
theorem walk_inner {start len fuel : Nat} (h : sharded.Sound itemsize)
    (hitem : itemsize < Word.size 64) (hfill : array.fill ≠ [])
    (hlocated : sharded.Located root (array.keyOf sharded.shards) index)
    (hshard : shard < sharded.shards.chunks)
    (hkey : array.keyOf sharded.shards shard = some key)
    (hstored : ∀ chunk < sharded.inner.chunks,
      array.Stored lib root sharded index shard chunk (content shard chunk))
    (hinside : start + len ≤ sharded.shards.chunkBytes) (hfuel : len ≤ fuel)
    (hcache : cache.Consistent (array.Cached sharded content)) :
    Triple.Yields (sharded.inner.walk (fun piece =>
        DecodeCache.readInto held (array.cacheKey, sharded.number shard piece.chunk) piece.start
          piece.len fun spare =>
            match index[sharded.number shard piece.chunk]? with
            | none => .error .panic
            | some entry => array.decodeInner lib root sharded key entry spare) fuel start len)
      cache fun out next =>
        out = (List.range' start len).map (array.shardBytes sharded content shard) ∧
          next.Consistent (array.Cached sharded content) := by
  have hend := h.shards.bytesFit (h.shardItem ▸ hitem)
  apply h.inner.walk_reads (fun chunk k => (array.innerBytes sharded content shard chunk).getD k 0)
    (fun _ => h.innerItem ▸ hitem) (by rw [h.shardBytes_eq]; exact hinside) (by omega) hfuel hcache
  intro piece cache hchunk hpiece _ hcache
  exact readInto_inner h hfill hlocated hshard hchunk hkey (hstored piece.chunk hchunk) hpiece hcache

/-- A read walks the inner chunks of the shards it walks. -/
theorem readAt_walks {at_ len fuel : Nat} (h : sharded.Sound itemsize)
    (hitem : itemsize < Word.size 64) (hfill : array.fill ≠ []) (hstore : array.store = .sharded sharded)
    (hindex : sharded.index lib root (array.keyOf sharded.shards) = .ok index)
    (hstored : ∀ shard < sharded.shards.chunks, ∀ chunk < sharded.inner.chunks,
      array.Stored lib root sharded index shard chunk (content shard chunk))
    (hrange : at_ + len ≤ sharded.shards.shape.prod * itemsize) (hend : at_ + len ≤ Word.size 64)
    (hfuel : len ≤ fuel) (hcache : cache.Consistent (array.Cached sharded content)) :
    Triple.Yields (array.readAt lib root held fuel at_ len) cache fun out next =>
      out = ((List.range' at_ len).map fun j =>
        array.shardBytes sharded content (sharded.shards.place j).1 (sharded.shards.place j).2) ∧
      next.Consistent (array.Cached sharded content) := by
  have hlocated := h.index_located hindex
  unfold ZarrArray.readAt
  rw [hstore]
  apply Triple.Yields.bind (Triple.yields_lift hindex)
  intro a s ha
  obtain ⟨rfl, rfl⟩ := ha
  apply h.shards.walk_reads (array.shardBytes sharded content) (fun _ => h.shardItem ▸ hitem) (h.shardItem ▸ hrange) hend hfuel hcache
  intro piece cache hshard hpiece hlen hcache
  obtain ⟨key, hkey⟩ := @keyOf_isSome array _ _ hshard
  unfold ZarrArray.keyAt
  rw [hkey]
  exact walk_inner h hitem hfill hlocated hshard hkey (hstored piece.chunk hshard) hpiece
    (le_trans hlen hfuel) hcache

/-! ## Where the two grids place a byte -/

theorem ceilDiv_of_dvd {shardShape chunkShape : List Nat} (hpos : ∀ c ∈ chunkShape, 0 < c)
    (h : List.Forall₂ (· ∣ ·) chunkShape shardShape) :
    List.zipWith (fun n c : Nat => n ⌈/⌉ c) shardShape chunkShape =
      List.zipWith (· / ·) shardShape chunkShape := by
  induction h with
  | nil => rfl
  | @cons c n chunkShape shardShape hdvd _ ih =>
      rw [List.forall_mem_cons] at hpos
      obtain ⟨m, rfl⟩ := hdvd
      have hceil : (c * m) ⌈/⌉ c = m := by
        apply eq_of_forall_ge_iff
        intro b
        rw [ceilDiv_le_iff_le_mul hpos.1]
        exact ⟨fun h => Nat.le_of_mul_le_mul_left h hpos.1, fun h => Nat.mul_le_mul_left c h⟩
      rw [List.zipWith_cons_cons, List.zipWith_cons_cons, ih hpos.2, hceil,
        Nat.mul_div_cancel_left m hpos.1]

/-- The element of a padded shard that a byte of the array is in, as a position. -/
theorem Sharded.Sound.inner_place {j : Nat} (h : sharded.Sound itemsize) (hitem : 0 < itemsize) :
    sharded.inner.place (sharded.shards.place j).2 =
      (Radix.flat (List.zipWith (· / ·) (List.zipWith (· % ·)
          (Radix.coords sharded.shards.shape (j / itemsize)) sharded.shards.chunkShape)
          sharded.inner.chunkShape)
        (List.zipWith (· / ·) sharded.shards.chunkShape sharded.inner.chunkShape),
      Radix.flat (List.zipWith (· % ·) (List.zipWith (· % ·)
          (Radix.coords sharded.shards.shape (j / itemsize)) sharded.shards.chunkShape)
          sharded.inner.chunkShape) sharded.inner.chunkShape * itemsize + j % itemsize) := by
  have hrank : (Radix.coords sharded.shards.shape (j / itemsize)).length =
      sharded.shards.chunkShape.length := by
    rw [Radix.length_coords, h.shards.rank]
  have hwithin := within_mod h.shards.chunkPos hrank
  have hskip := Nat.mod_lt j hitem
  simp only [ChunkGrid.place, placeOf, h.nested, h.innerItem, h.shardItem]
  rw [Nat.mul_comm (withinOf _ _ _), Nat.mul_add_div hitem, Nat.mul_add_mod, Nat.div_eq_of_lt hskip,
    Nat.mod_mod, Nat.add_zero]
  unfold chunkOf withinOf
  rw [Radix.coords_flat hwithin, ceilDiv_of_dvd h.inner.chunkPos h.divides]

/-- Every byte the two grids place is the array's. -/
theorem shardBytes_place {j : Nat} (h : sharded.Sound itemsize)
    (hfill : array.fill.length = itemsize) (hj : j < sharded.shards.shape.prod * itemsize)
    (hstored : ∀ shard < sharded.shards.chunks, ∀ chunk < sharded.inner.chunks,
      array.Stored lib root sharded index shard chunk (content shard chunk)) :
    some (array.shardBytes sharded content (sharded.shards.place j).1 (sharded.shards.place j).2) =
      shardedByte sharded.shards.shape sharded.shards.chunkShape sharded.inner.chunkShape itemsize
        array.fill content j := by
  have hitem : 0 < itemsize := by
    apply Nat.pos_of_ne_zero
    rintro rfl
    omega
  obtain ⟨hshard, hoffset⟩ := h.shards.place_lt
    (show j < sharded.shards.shape.prod * sharded.shards.itemsize by rw [h.shardItem]; exact hj)
  rw [← h.shardBytes_eq] at hoffset
  obtain ⟨hchunk, hk⟩ := h.inner.place_lt hoffset
  have hlen := length_innerBytes (hstored _ hshard _ hchunk)
  have hplace := h.inner_place (j := j) hitem
  have hfst : (sharded.shards.place j).1 = Radix.flat
      (List.zipWith (· / ·) (Radix.coords sharded.shards.shape (j / itemsize))
        sharded.shards.chunkShape)
      (List.zipWith (fun n c : Nat => n ⌈/⌉ c) sharded.shards.shape sharded.shards.chunkShape) := by
    simp only [ChunkGrid.place, placeOf, chunkOf, h.shardItem]
  unfold ZarrArray.shardBytes shardedByte
  dsimp only
  rw [← hfst]
  have hchunkEq := congrArg Prod.fst hplace
  have hwithinEq := congrArg Prod.snd hplace
  dsimp only at hchunkEq hwithinEq
  rw [← hchunkEq]
  unfold ZarrArray.innerBytes at hlen ⊢
  cases hcontent : content (sharded.shards.place j).1
      (sharded.inner.place (sharded.shards.place j).2).1 with
  | none =>
      have hskip := Nat.mod_lt j hitem
      rw [hwithinEq] at hk ⊢
      simp only [filler, Option.getD_none, List.getD_eq_getElem?_getD, List.getElem?_map,
        List.getElem?_range hk, Option.map_some, Option.getD_some, hfill, Nat.mul_add_mod',
        Nat.mod_mod]
      rw [List.getElem?_eq_getElem (by omega), Option.getD_some]
  | some bytes =>
      rw [hcontent, Option.getD_some] at hlen
      rw [← hwithinEq]
      simp only [Option.getD_some, List.getD_eq_getElem?_getD]
      rw [List.getElem?_eq_getElem (by omega), Option.getD_some]

end Inner

/-! ## Reads of an array that was opened -/

namespace ZarrArray

variable {w : MetaWording} {f : Doubles} {pfx : String} {meta_ : ArrayMeta} {array : ZarrArray}
  {before after cache : DecodeCache} {sharded : Sharded} {lib : Library} {root : StoreRoot}
  {index : List ShardEntry} {content : Nat → Nat → Option (List UInt8)} {held : ChunkKey → Bool}
  {at_ len fuel : Nat}

/-- What opening an array checks and computes. -/
theorem new_sound (h : new w f pfx meta_ before = .ok (array, after)) :
    array.shape = meta_.shape ∧ array.fill.length = array.dtype.itemsize ∧
      ∀ sharded, array.store = .sharded sharded →
        sharded.Sound array.dtype.itemsize ∧ sharded.shards.shape = meta_.shape := by
  unfold new at h
  obtain ⟨dtype, -, h⟩ := Fallible.bind_eq_ok.mp h
  split at h
  · cases h
  obtain ⟨grid, hgrid, h⟩ := Fallible.bind_eq_ok.mp h
  obtain ⟨store, hstore, h⟩ := Fallible.bind_eq_ok.mp h
  obtain ⟨key, -, h⟩ := Fallible.bind_eq_ok.mp h
  obtain ⟨fill, hfill, h⟩ := Fallible.bind_eq_ok.mp h
  cases h
  refine ⟨rfl, ?_, ?_⟩
  · cases hbytes : fillBytes w.toWording f dtype meta_.fillValue with
    | error e =>
        rw [hbytes] at hfill
        cases hfill
    | ok bytes =>
        rw [hbytes] at hfill
        cases hfill
        exact length_fillBytes hbytes
  · intro sharded hsharded
    obtain rfl : store = .sharded sharded := hsharded
    unfold parseGrid at hgrid
    split at hgrid
    · cases hgrid
    obtain ⟨chunkShape, -, hgrid⟩ := Fallible.bind_eq_ok.mp hgrid
    rw [Fallible.elim_eq_ok] at hgrid
    obtain ⟨hsound, hshape, -, hitem⟩ := ChunkGrid.new_sound hgrid
    unfold parseStore at hstore
    split at hstore
    · obtain ⟨sharded', hnew, hsame⟩ := Fallible.map_eq_ok.mp hstore
      cases hsame
      obtain ⟨hsharded, rfl⟩ := Sharded.new_sound hsound hitem hnew
      exact ⟨hsharded, hshape⟩
    · obtain ⟨_, -, hsame⟩ := Fallible.map_eq_ok.mp hstore
      cases hsame

/-- A range of a sharded array reads as its bytes in C order, taken from the inner chunks
that were written and from the fill value elsewhere, and no two inner chunks share a
number in the cache. -/
theorem readAt_sharded (hnew : new w f pfx meta_ before = .ok (array, after))
    (hstore : array.store = .sharded sharded)
    (hindex : sharded.index lib root (array.keyOf sharded.shards) = .ok index)
    (hstored : ∀ shard < sharded.shards.chunks, ∀ chunk < sharded.inner.chunks,
      array.Stored lib root sharded index shard chunk (content shard chunk))
    (hcache : cache.Consistent (array.Cached sharded content))
    (hrange : at_ + len ≤ array.shape.prod * array.dtype.itemsize) (hend : at_ + len ≤ 2 ^ 64)
    (hfuel : len ≤ fuel) :
    (∃ out next, array.readAt lib root held fuel at_ len cache = .ok (out, next) ∧
      next.Consistent (array.Cached sharded content) ∧ out.length = len ∧
      ∀ k < len, out[k]? = shardedByte array.shape sharded.shards.chunkShape
        sharded.inner.chunkShape array.dtype.itemsize array.fill content (at_ + k)) ∧
    ∀ shard < sharded.shards.chunks, ∀ chunk < sharded.inner.chunks,
      ∀ shard' < sharded.shards.chunks, ∀ chunk' < sharded.inner.chunks,
        sharded.number shard chunk = sharded.number shard' chunk' → shard = shard' ∧ chunk = chunk' := by
  obtain ⟨hshape, hfill, hsound⟩ := new_sound hnew
  obtain ⟨hsharded, hshards⟩ := hsound sharded hstore
  have hitem : array.dtype.itemsize < Word.size 64 :=
    Nat.lt_of_le_of_lt array.dtype.itemsize_le (by decide)
  have hne : array.fill ≠ [] := by
    apply List.ne_nil_of_length_pos
    rw [hfill]
    exact array.dtype.itemsize_pos
  rw [hshape, ← hshards] at hrange ⊢
  refine ⟨?_, ?_⟩
  · obtain ⟨out, next, hrun, rfl, hnext⟩ := @readAt_walks array lib root sharded index _ content held
      cache at_ len fuel hsharded hitem hne hstore hindex hstored hrange hend hfuel hcache
    refine ⟨_, next, hrun, hnext, by rw [List.length_map, List.length_range'], ?_⟩
    intro k hk
    rw [List.getElem?_map, List.getElem?_range' hk, Nat.one_mul, Option.map_some]
    exact shardBytes_place hsharded hfill (by omega) hstored
  · intro shard hshard chunk hchunk shard' hshard' chunk' hchunk' hsame
    exact hsharded.number_inj hshard hchunk hshard' hchunk' hsame

/-! ## Five elements in shards of four -/

/-- A wording that says nothing. -/
def silent : MetaWording := ⟨⟨fun _ => "", fun _ => ""⟩, fun _ => ""⟩

/-- The codec that only says the bytes are little-endian. -/
def plainCodecs : Value := .array [.object [("name", .string "bytes")]]

/-- Inner chunks of two 16-bit elements, with 258 for what was never written. -/
def fiveMeta : ArrayMeta where
  shape := [5]
  dataType := .string "uint16"
  chunkGrid := ⟨"regular", [("chunk_shape", .array [.number (.posInt 4)])]⟩
  chunkKeyEncoding := none
  fillValue := .number (.posInt 258)
  codecs := [⟨"sharding_indexed", [("chunk_shape", .array [.number (.posInt 2)]),
    ("codecs", plainCodecs), ("index_codecs", plainCodecs)]⟩]
  storageTransformers := []

def fiveShards : Sharded where
  shards := ⟨[5], [4], [2], 2, 8, 0⟩
  inner := ⟨[4], [2], [2], 2, 4, 0⟩
  codecs := []
  indexBytes := 32
  indexAtStart := false
  indexCrc32c := false

def five : ZarrArray := ⟨"a", .uint16, [5], ⟨true, '/'⟩, .sharded fiveShards, [2, 1], 0⟩

/-- A shard whose second inner chunk was never written. -/
def halfShard : List UInt8 := [1, 2, 3, 4] ++ Endian.toLE 8 0 ++ Endian.toLE 8 4 ++ List.replicate 16 255

def fiveIndex : List ShardEntry := [⟨0, 4⟩, .missing, ⟨0, 4⟩, .missing]

def fiveContent (_ chunk : Nat) : Option (List UInt8) :=
  if chunk = 0 then some [1, 2, 3, 4] else none

theorem five_new : new silent ⟨fun _ => none, fun _ => 0, fun _ => 0⟩ "a" fiveMeta (.new 64) =
    .ok (five, { DecodeCache.new 64 with nextKey := 1 }) := by
  rfl

theorem five_stored : ∀ shard < fiveShards.shards.chunks, ∀ chunk < fiveShards.inner.chunks,
    five.Stored spelledLibrary (fun _ => .ok (some halfShard)) fiveShards fiveIndex shard chunk
      (fiveContent shard chunk) := by
  have hshards : fiveShards.shards.chunks = 2 := by decide
  have hinner : fiveShards.inner.chunks = 2 := by decide
  rw [hshards, hinner]
  intro shard hshard chunk hchunk
  obtain ⟨key, hkey⟩ := @keyOf_isSome five shard fiveShards.shards (hshards ▸ hshard)
  interval_cases chunk
  · refine ⟨key, halfShard, ⟨0, 4⟩, hkey, rfl, ?_, rfl, rfl⟩
    interval_cases shard <;> rfl
  · refine Or.inr ⟨.missing, ?_, rfl⟩
    interval_cases shard <;> rfl

theorem five_index : fiveShards.index spelledLibrary (fun _ => .ok (some halfShard))
    (five.keyOf fiveShards.shards) = .ok fiveIndex := by
  rfl

/-- A range that starts and stops inside an element. -/
theorem readAt_sharded_inside : ∃ out next, five.readAt spelledLibrary
    (fun _ => .ok (some halfShard)) (fun _ => false) 8 1 8 (.new 64) = .ok (out, next) ∧
      out.length = 8 ∧ ∀ k < 8, out[k]? = shardedByte [5] [4] [2] 2 [2, 1] fiveContent (1 + k) := by
  obtain ⟨⟨out, next, hrun, -, hlen, hbytes⟩, -⟩ := readAt_sharded
    five_new rfl five_index five_stored DecodeCache.new_consistent (show 1 + 8 ≤ _ by decide)
    (by decide) (Nat.le_refl 8)
  exact ⟨out, next, hrun, hlen, hbytes⟩

end ZarrArray

end Aex
