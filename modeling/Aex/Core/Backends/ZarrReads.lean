import Aex.Core.Backends.ChunkReads
import Aex.Core.Backends.ZarrIndex

/-!
# Selections of a Zarr array

The array is what its chunks decode to, each in its place, and the fill value where none
was written.  A selection of it reads as the elements it selects, or fails as one of the
chunks or the index of a shard does.
-/

namespace Aex

open Triple (YieldsOr)

/-! ## The table of a sharded array -/

namespace Sharded

variable {sharded : Sharded} {lib : Library} {root : StoreRoot} {keyOf : Nat → Option String}
  {key : String} {raw : List UInt8} {index : List ShardEntry} {itemsize shard i m : Nat}

theorem Sound.addEntry_cases (h : sharded.Sound itemsize) (hshard : shard < sharded.shards.chunks)
    (hi : i < sharded.inner.chunks) (hraw : raw.length = sharded.inner.chunks * 16)
    (hindex : index.length = sharded.shards.chunks * sharded.inner.chunks) :
    (∃ next, sharded.addEntry key shard m raw index i = .ok next ∧
        next.length = sharded.shards.chunks * sharded.inner.chunks) ∨
      ∃ halt, (∃ e, halt = Halt.error e) ∧ sharded.addEntry key shard m raw index i = .error halt := by
  have hnumber := (h.number_eq hshard hi).2
  rw [← hindex] at hnumber
  rw [addEntry_eq, if_neg (by omega), if_pos hnumber]
  split
  · exact .inl ⟨_, rfl, hindex⟩
  split
  · exact .inr ⟨_, ⟨_, rfl⟩, rfl⟩
  · exact .inl ⟨_, rfl, by rw [List.length_set, hindex]⟩

theorem Sound.addShard_cases (h : sharded.Sound itemsize) (hroomy : sharded.Roomy)
    (hshard : shard < sharded.shards.chunks) (hkey : keyOf shard = some key)
    (hindex : index.length = sharded.shards.chunks * sharded.inner.chunks) :
    (∃ next, sharded.addShard lib root keyOf index shard = .ok next ∧
        next.length = sharded.shards.chunks * sharded.inner.chunks) ∨
      ∃ halt, (∃ e, halt = Halt.error e) ∧ sharded.addShard lib root keyOf index shard = .error halt := by
  unfold addShard
  rw [hkey]
  dsimp only
  split
  · exact .inr ⟨_, ⟨_, rfl⟩, rfl⟩
  · exact .inl ⟨_, rfl, hindex⟩
  · split
    · exact .inr ⟨_, ⟨_, rfl⟩, rfl⟩
    · rename_i file _ _ raw hraw
      have hlen := length_rawIndex hroomy hraw
      exact Fallible.foldlM_cases (fun i hi index hindex =>
        h.addEntry_cases hshard (List.mem_range.mp hi) hlen hindex) hindex

/-- Reading the index of every shard panics nowhere. -/
theorem Sound.index_cases (h : sharded.Sound itemsize)
    (hroomy : 0 < sharded.shards.chunks → sharded.Roomy)
    (hkeys : ∀ shard < sharded.shards.chunks, ∃ key, keyOf shard = some key) :
    (∃ index, sharded.index lib root keyOf = .ok index ∧
        index.length = sharded.shards.chunks * sharded.inner.chunks) ∨
      ∃ halt, (∃ e, halt = Halt.error e) ∧ sharded.index lib root keyOf = .error halt := by
  unfold Sharded.index
  apply Fallible.foldlM_cases
  · intro shard hmem index hindex
    have hshard := List.mem_range.mp hmem
    obtain ⟨key, hkey⟩ := hkeys shard hshard
    exact h.addShard_cases (hroomy (by omega)) hshard hkey hindex
  · rw [List.length_replicate, Word.wrappingMul_of_lt h.few_lt]

end Sharded

/-! ## What a chunk decodes to -/

namespace ZarrArray

variable (array : ZarrArray) (lib : Library) (root : StoreRoot)

/-- What chunk `n` comes to, from a file of its own. -/
def decoded (grid : ChunkGrid) (codecs : List ChunkCodec) (n : Nat) : Except Halt (List UInt8) :=
  (array.keyOf grid n).elim (.error .panic) fun key => array.decodeChunk lib root grid codecs key []

/-- What an inner chunk comes to, where its shard's index says it is. -/
def decodedInner (sharded : Sharded) (index : List ShardEntry) (shard chunk : Nat) :
    Except Halt (List UInt8) :=
  (array.keyOf sharded.shards shard).elim (.error .panic) fun key =>
    (index[sharded.number shard chunk]?).elim (.error .panic) fun entry =>
      array.decodeInner lib root sharded key entry []

/-- The byte at an offset into a shard. -/
def byteInShard (sharded : Sharded) (index : List ShardEntry) (shard k : Nat) : UInt8 :=
  blockOf (array.decodedInner lib root sharded index shard) (sharded.inner.place k).1
    (sharded.inner.place k).2

/-- Byte `j` of the array in C order: that of its element in the chunk it is in. -/
def bytes (j : Nat) : UInt8 :=
  match array.store with
  | .chunked grid codecs =>
      blockOf (array.decoded lib root grid codecs) (grid.place j).1 (grid.place j).2
  | .sharded sharded =>
      ((sharded.index lib root (array.keyOf sharded.shards)).toOption).elim 0 fun index =>
        array.byteInShard lib root sharded index (sharded.shards.place j).1 (sharded.shards.place j).2

/-- How a read of the array fails: as one of its chunks does, or the index of a shard. -/
def Fails (e : AexError) : Prop :=
  match array.store with
  | .chunked grid codecs => ∃ n < grid.chunks, array.decoded lib root grid codecs n = .error (.error e)
  | .sharded sharded =>
      sharded.index lib root (array.keyOf sharded.shards) = .error (.error e) ∨
        ∃ index, sharded.index lib root (array.keyOf sharded.shards) = .ok index ∧
          ∃ shard < sharded.shards.chunks, ∃ chunk < sharded.inner.chunks,
            array.decodedInner lib root sharded index shard chunk = .error (.error e)

/-- A cached chunk of the array is one that decodes, as it does. -/
def Holds (key : ChunkKey) (chunk : List UInt8) : Prop :=
  match array.store with
  | .chunked grid codecs => ∀ n < grid.chunks, key = (array.cacheKey, n) →
      array.decoded lib root grid codecs n = .ok chunk
  | .sharded sharded => ∀ index, sharded.index lib root (array.keyOf sharded.shards) = .ok index →
      ∀ shard < sharded.shards.chunks, ∀ i < sharded.inner.chunks,
        key = (array.cacheKey, sharded.number shard i) →
          array.decodedInner lib root sharded index shard i = .ok chunk

/-- What opening an array establishes about how it is stored. -/
def StoredWell : Prop :=
  match array.store with
  | .chunked grid _ => grid.Sound ∧ grid.shape = array.shape ∧ grid.itemsize = array.dtype.itemsize
  | .sharded sharded => sharded.Sound array.dtype.itemsize ∧ sharded.shards.shape = array.shape ∧
      (0 < sharded.shards.chunks → sharded.Roomy)

section Stored

variable {array lib root} {grid : ChunkGrid} {codecs : List ChunkCodec} {sharded : Sharded}
  {index : List ShardEntry} {shard i n at_ len : Nat} {chunk : List UInt8} {e : AexError}

theorem bytesAt_chunked (hstore : array.store = .chunked grid codecs) :
    bytesAt (array.bytes lib root) at_ len = (List.range' at_ len).map fun j =>
      blockOf (array.decoded lib root grid codecs) (grid.place j).1 (grid.place j).2 := by
  unfold bytesAt bytes
  rw [hstore]

theorem bytesAt_sharded (hstore : array.store = .sharded sharded)
    (hindex : sharded.index lib root (array.keyOf sharded.shards) = .ok index) :
    bytesAt (array.bytes lib root) at_ len = (List.range' at_ len).map fun j =>
      array.byteInShard lib root sharded index (sharded.shards.place j).1
        (sharded.shards.place j).2 := by
  unfold bytesAt bytes
  rw [hstore]
  dsimp only
  rw [hindex]
  rfl

theorem holds_chunked (hstore : array.store = .chunked grid codecs) (hn : n < grid.chunks) :
    array.Holds lib root (array.cacheKey, n) chunk ↔
      array.decoded lib root grid codecs n = .ok chunk := by
  unfold Holds
  rw [hstore]
  constructor
  · exact fun h => h n hn rfl
  · intro h m _ hsame
    rwa [← (Prod.mk.inj hsame).2]

/-- Inner chunks of different shards have different numbers, so a cached one is its own. -/
theorem holds_sharded (hstore : array.store = .sharded sharded)
    (hsound : sharded.Sound array.dtype.itemsize)
    (hindex : sharded.index lib root (array.keyOf sharded.shards) = .ok index)
    (hshard : shard < sharded.shards.chunks) (hi : i < sharded.inner.chunks) :
    array.Holds lib root (array.cacheKey, sharded.number shard i) chunk ↔
      array.decodedInner lib root sharded index shard i = .ok chunk := by
  unfold Holds
  rw [hstore]
  constructor
  · exact fun h => h index hindex shard hshard i hi rfl
  · intro h index' hindex' shard' hshard' i' hi' hsame
    rw [hindex, Except.ok.injEq] at hindex'
    have hnumber := hsound.number_inj hshard hi hshard' hi' (Prod.mk.inj hsame).2
    rwa [← hindex', ← hnumber.1, ← hnumber.2]

theorem fails_chunked (hstore : array.store = .chunked grid codecs) (hn : n < grid.chunks)
    (hfail : array.decoded lib root grid codecs n = .error (.error e)) : array.Fails lib root e := by
  unfold Fails
  rw [hstore]
  exact ⟨n, hn, hfail⟩

theorem fails_index (hstore : array.store = .sharded sharded)
    (hfail : sharded.index lib root (array.keyOf sharded.shards) = .error (.error e)) :
    array.Fails lib root e := by
  unfold Fails
  rw [hstore]
  exact .inl hfail

theorem fails_inner (hstore : array.store = .sharded sharded)
    (hindex : sharded.index lib root (array.keyOf sharded.shards) = .ok index)
    (hshard : shard < sharded.shards.chunks) (hi : i < sharded.inner.chunks)
    (hfail : array.decodedInner lib root sharded index shard i = .error (.error e)) :
    array.Fails lib root e := by
  unfold Fails
  rw [hstore]
  exact .inr ⟨index, hindex, shard, hshard, i, hi, hfail⟩

end Stored

section Chunks

variable {array lib root} {grid : ChunkGrid} {codecs : List ChunkCodec} {key : String}
  {sharded : Sharded} {entry : ShardEntry} {spare spare' : List UInt8}

/-- A chunk comes out whole or fails with an error. -/
theorem decodeChunk_cases (hfill : array.fill ≠ []) :
    (∃ chunk, array.decodeChunk lib root grid codecs key spare = .ok chunk ∧
        chunk.length = grid.chunkBytes) ∨
      ∃ e, array.decodeChunk lib root grid codecs key spare = .error (.error e) := by
  unfold decodeChunk
  split
  · exact .inr ⟨_, rfl⟩
  · exact .inl ⟨_, fillChunk_eq hfill, by simp [filler]⟩
  · rename_i file _
    cases hundo : lib.undo key codecs file grid.chunkBytes spare with
    | error e => exact .inr ⟨e, rfl⟩
    | ok chunk => exact .inl ⟨chunk, rfl, Library.length_undo hundo⟩

theorem decodeInner_spare (hfill : array.fill ≠ []) :
    array.decodeInner lib root sharded key entry spare =
      array.decodeInner lib root sharded key entry spare' := by
  unfold decodeInner
  rw [fillChunk_eq hfill, fillChunk_eq hfill]
  split
  · rfl
  split
  · rfl
  · rfl
  · rename_i file _
    cases readExactAt file entry.offset entry.nbytes with
    | error e => rfl
    | ok bytes =>
        show (lib.undo key sharded.codecs bytes sharded.inner.chunkBytes spare).mapError Halt.error = _
        rw [Library.undo_spare]
        rfl

theorem decodeInner_cases (hfill : array.fill ≠ []) :
    (∃ chunk, array.decodeInner lib root sharded key entry spare = .ok chunk ∧
        chunk.length = sharded.inner.chunkBytes) ∨
      ∃ e, array.decodeInner lib root sharded key entry spare = .error (.error e) := by
  have hfilled : ∃ chunk, array.fillChunk sharded.inner.chunkBytes spare = .ok chunk ∧
      chunk.length = sharded.inner.chunkBytes := ⟨_, fillChunk_eq hfill, by simp [filler]⟩
  unfold decodeInner
  split
  · exact .inl hfilled
  split
  · exact .inr ⟨_, rfl⟩
  · exact .inl hfilled
  · rename_i file _
    cases hread : readExactAt file entry.offset entry.nbytes with
    | error e => exact .inr ⟨e, rfl⟩
    | ok bytes =>
        cases hundo : lib.undo key sharded.codecs bytes sharded.inner.chunkBytes spare with
        | error e => exact .inr ⟨e, by simp [bind, Except.bind, hundo, Except.mapError]⟩
        | ok chunk =>
            exact .inl ⟨chunk, by simp [bind, Except.bind, hundo, Except.mapError],
              Library.length_undo hundo⟩

theorem decoded_cases {n : Nat} (hfill : array.fill ≠ []) (hn : n < grid.chunks) :
    ∃ key, array.keyOf grid n = some key ∧
      (∀ spare, array.decodeChunk lib root grid codecs key spare =
        array.decoded lib root grid codecs n) ∧
      ((∃ chunk, array.decoded lib root grid codecs n = .ok chunk ∧ chunk.length = grid.chunkBytes) ∨
        ∃ e, array.decoded lib root grid codecs n = .error (.error e)) := by
  obtain ⟨key, hkey⟩ := @keyOf_isSome array n grid hn
  have hdecoded : array.decoded lib root grid codecs n =
      array.decodeChunk lib root grid codecs key [] := by
    unfold decoded
    rw [hkey]
    rfl
  refine ⟨key, hkey, fun spare => ?_, ?_⟩
  · rw [hdecoded]
    exact decodeChunk_spare hfill
  · rw [hdecoded]
    exact decodeChunk_cases hfill

theorem decodedInner_cases {index : List ShardEntry} {shard chunk : Nat} (hfill : array.fill ≠ [])
    (hkey : array.keyOf sharded.shards shard = some key)
    (hentry : index[sharded.number shard chunk]? = some entry) :
    (∀ spare, array.decodeInner lib root sharded key entry spare =
        array.decodedInner lib root sharded index shard chunk) ∧
      ((∃ bytes, array.decodedInner lib root sharded index shard chunk = .ok bytes ∧
          bytes.length = sharded.inner.chunkBytes) ∨
        ∃ e, array.decodedInner lib root sharded index shard chunk = .error (.error e)) := by
  have hdecoded : array.decodedInner lib root sharded index shard chunk =
      array.decodeInner lib root sharded key entry [] := by
    unfold decodedInner
    rw [hkey, Option.elim_some, hentry]
    rfl
  rw [hdecoded]
  exact ⟨fun spare => decodeInner_spare hfill, decodeInner_cases hfill⟩

end Chunks

/-! ## Reads of a range -/

section Reads

variable {array lib root} {grid : ChunkGrid} {codecs : List ChunkCodec} {sharded : Sharded}
  {index : List ShardEntry} {held : ChunkKey → Bool} {cache : DecodeCache} {at_ len fuel : Nat}

/-- A read of an array with a file for each chunk. -/
theorem readAt_chunked (hstore : array.store = .chunked grid codecs) (hwell : array.StoredWell)
    (hfill : array.fill ≠ []) (hitem : array.dtype.itemsize < Word.size 64)
    (hrange : at_ + len ≤ array.shape.prod * array.dtype.itemsize) (hend : at_ + len ≤ Word.size 64)
    (hfuel : len ≤ fuel) (hcache : cache.Consistent (array.Holds lib root)) :
    YieldsOr (fun halt => ∃ e, array.Fails lib root e ∧ halt = .error e)
      (array.readAt lib root held fuel at_ len) cache fun out next =>
        out = bytesAt (array.bytes lib root) at_ len ∧ next.Consistent (array.Holds lib root) := by
  unfold StoredWell at hwell
  rw [hstore] at hwell
  obtain ⟨hsound, hshape, hgridItem⟩ := hwell
  rw [bytesAt_chunked hstore]
  unfold readAt
  rw [hstore]
  apply hsound.walk_readsOr _ (fun _ => by rw [hgridItem]; exact hitem)
    (by rw [hshape, hgridItem]; exact hrange) hend hfuel hcache
  intro piece cache hchunk hpiece _ hcache
  obtain ⟨key, hkey, hspare, hcases⟩ := @decoded_cases array lib root grid codecs piece.chunk hfill hchunk
  unfold keyAt
  rw [hkey]
  exact hcache.readIntoOr (fun _ => holds_chunked hstore hchunk) hspare hcases hpiece
    fun e hfail => fails_chunked hstore hchunk hfail

/-- A read of a sharded array. -/
theorem readAt_shards (hstore : array.store = .sharded sharded) (hwell : array.StoredWell)
    (hfill : array.fill ≠ []) (hitem : array.dtype.itemsize < Word.size 64)
    (hrange : at_ + len ≤ array.shape.prod * array.dtype.itemsize) (hend : at_ + len ≤ Word.size 64)
    (hfuel : len ≤ fuel) (hcache : cache.Consistent (array.Holds lib root)) :
    YieldsOr (fun halt => ∃ e, array.Fails lib root e ∧ halt = .error e)
      (array.readAt lib root held fuel at_ len) cache fun out next =>
        out = bytesAt (array.bytes lib root) at_ len ∧ next.Consistent (array.Holds lib root) := by
  unfold StoredWell at hwell
  rw [hstore] at hwell
  obtain ⟨hsound, hshape, hroomy⟩ := hwell
  have hkeys : ∀ shard < sharded.shards.chunks, ∃ key, array.keyOf sharded.shards shard = some key :=
    fun shard hshard => keyOf_isSome hshard
  have hcases := @Sharded.Sound.index_cases sharded lib root (array.keyOf sharded.shards)
    array.dtype.itemsize hsound hroomy hkeys
  unfold readAt
  rw [hstore]
  cases hcases with
  | inr hfail =>
      obtain ⟨_, ⟨e, rfl⟩, hindex⟩ := hfail
      refine .inr ⟨.error e, ⟨e, fails_index hstore hindex, rfl⟩, ?_⟩
      dsimp only
      rw [hindex]
      rfl
  | inl hok =>
      obtain ⟨index, hindex, hlength⟩ := hok
      rw [bytesAt_sharded hstore hindex]
      apply YieldsOr.bind (.inl (Triple.yields_lift hindex))
      intro table s htable
      obtain ⟨rfl, rfl⟩ := htable
      have hend' := hsound.shards.bytesFit (hsound.shardItem ▸ hitem)
      apply hsound.shards.walk_readsOr (array.byteInShard lib root sharded table)
        (fun _ => hsound.shardItem ▸ hitem) (by rw [hshape, hsound.shardItem]; exact hrange) hend hfuel hcache
      intro outer cache hshard houter houterLen hcache
      obtain ⟨key, hkey⟩ := hkeys outer.chunk hshard
      unfold keyAt
      rw [hkey]
      apply hsound.inner.walk_readsOr _ (fun _ => hsound.innerItem ▸ hitem)
        (by rw [hsound.shardBytes_eq]; exact houter) (by omega) (le_trans houterLen hfuel) hcache
      intro piece cache hchunk hpiece _ hcache
      have hnumber := (hsound.number_eq hshard hchunk).2
      rw [← hlength] at hnumber
      have hentry := List.getElem?_eq_getElem hnumber
      have hinner := @decodedInner_cases array lib root key sharded _ table outer.chunk piece.chunk
        hfill hkey hentry
      refine hcache.readIntoOr (fun _ => holds_sharded hstore hsound hindex hshard hchunk)
        (fun spare => ?_) hinner.2 hpiece fun e hfail => fails_inner hstore hindex hshard hchunk hfail
      rw [hentry]
      exact hinner.1 spare

end Reads

/-! ## Selections -/

section Selections

variable {array lib root} {w : MetaWording} {f : Doubles} {pfx : String} {meta_ : ArrayMeta}
  {before after : DecodeCache}

theorem new_storedWell (h : new w f pfx meta_ before = .ok (array, after)) : array.StoredWell := by
  unfold new at h
  obtain ⟨dtype, -, h⟩ := Fallible.bind_eq_ok.mp h
  split at h
  · cases h
  obtain ⟨grid, hgrid, h⟩ := Fallible.bind_eq_ok.mp h
  obtain ⟨store, hstore, h⟩ := Fallible.bind_eq_ok.mp h
  obtain ⟨key, -, h⟩ := Fallible.bind_eq_ok.mp h
  obtain ⟨fill, -, h⟩ := Fallible.bind_eq_ok.mp h
  cases h
  unfold parseGrid at hgrid
  split at hgrid
  · cases hgrid
  obtain ⟨chunkShape, -, hgrid⟩ := Fallible.bind_eq_ok.mp hgrid
  rw [Fallible.elim_eq_ok] at hgrid
  obtain ⟨hsound, hshape, -, hitem⟩ := ChunkGrid.new_sound hgrid
  unfold parseStore at hstore
  split at hstore
  · obtain ⟨sharded, hnew, rfl⟩ := Fallible.map_eq_ok.mp hstore
    obtain ⟨hsharded, rfl⟩ := Sharded.new_sound hsound hitem hnew
    obtain ⟨-, -, -, -, hbytes⟩ := Sharded.new_index hnew
    exact ⟨hsharded, hshape, fun hpos => Sharded.roomy_of_new hsharded hpos hbytes⟩
  · obtain ⟨codecs, -, rfl⟩ := Fallible.map_eq_ok.mp hstore
    exact ⟨hsound, hshape, hitem⟩

/-- A read of an open array gives its bytes, or fails as one of its chunks or indexes does. -/
theorem readAt_reads (h : new w f pfx meta_ before = .ok (array, after)) {held : ChunkKey → Bool}
    {cache : DecodeCache} {at_ len fuel : Nat}
    (hrange : at_ + len ≤ array.shape.prod * array.dtype.itemsize) (hend : at_ + len ≤ Word.size 64)
    (hfuel : len ≤ fuel) (hcache : cache.Consistent (array.Holds lib root)) :
    YieldsOr (fun halt => ∃ e, array.Fails lib root e ∧ halt = .error e)
      (array.readAt lib root held fuel at_ len) cache fun out next =>
        out = bytesAt (array.bytes lib root) at_ len ∧ next.Consistent (array.Holds lib root) := by
  have hwell := new_storedWell h
  have hitem : array.dtype.itemsize < Word.size 64 :=
    Nat.lt_of_le_of_lt array.dtype.itemsize_le (by decide)
  have hfill : array.fill ≠ [] := by
    apply List.ne_nil_of_length_pos
    rw [(new_sound h).2.1]
    exact array.dtype.itemsize_pos
  cases hstore : array.store with
  | chunked grid codecs => exact readAt_chunked hstore hwell hfill hitem hrange hend hfuel hcache
  | sharded sharded => exact readAt_shards hstore hwell hfill hitem hrange hend hfuel hcache

/-- The reads of an array's ranges, each of which finds the cache as others left it. -/
def source (array : ZarrArray) (lib : Library) (root : StoreRoot) (held : ChunkKey → Bool)
    (found : Nat → Nat → DecodeCache) : ReadSrc UInt8 :=
  .ofRun (fun at_ len => array.readAt lib root held len at_ len) found

end Selections

/-! ## Five elements backwards -/

/-- The elements of `five` from the last to the first. -/
def fiveBackwards : ArraySelection ⟨false, false⟩ where
  shape := [5]
  dtype := .uint16
  indices := [.slice none none (some (-1))]
  quality := {}
  layout := ⟨[5], .uint16, .uint16, 10, {}, .gathered ⟨4, [.stride 5 (-1)]⟩⟩
  resolved := by decide
  addressed := by decide
  counted := by decide

end ZarrArray

end Aex
