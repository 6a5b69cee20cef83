import Aex.Core.Backends.Hdf5Dataset
import Aex.Core.Backends.Hdf5Pipeline
import Aex.Core.Backends.ZarrReads

/-!
# Selections of an HDF5 dataset

Once a selection of it has been resolved, a chunked dataset has its table, and the table says
nothing that is not in the file.  A read then gives the elements selected, or fails as one
of the chunks does.
-/

namespace Aex

open Triple (YieldsOr)

/-! ## Undoing the filters -/

section Decode

variable {inflate : List UInt8 → List UInt8 × Bool} {filters : List Filter} {itemsize n : Nat}
  {raw bytes spare spare' : List UInt8} {entry : ChunkEntry} {stage : Filter × Nat}

theorem undoFilter_spare : (undoFilter inflate entry itemsize n stage (bytes, spare)).map Prod.fst =
    (undoFilter inflate entry itemsize n stage (bytes, spare')).map Prod.fst := by
  obtain ⟨filter, i⟩ := stage
  unfold undoFilter
  dsimp only
  split
  · rfl
  cases filter with
  | deflate level => rfl
  | shuffle => rfl
  | fletcher32 =>
      dsimp only
      split
      · rfl
      · rfl
  | other debug => rfl

/-- A chunk is checked for its length once its filters are undone. -/
theorem decode_eq (hinside : entry.addr + entry.size ≤ raw.length) :
    decode inflate filters itemsize n raw entry spare =
      ((Pipeline.backward (undoFilter inflate entry itemsize n) filters.zipIdx
        (Vec.slice raw entry.addr entry.size, spare)).map Prod.fst >>= fun bytes =>
          if bytes.length ≠ n then .error (.error (.malformedHdf5
            (s!"chunk at byte {entry.addr}: decodes to {bytes.length} " ++ s!"bytes instead of {n}")))
          else .ok bytes) := by
  unfold decode
  rw [if_pos hinside]
  simp only [bind, Except.bind]
  cases Pipeline.backward (undoFilter inflate entry itemsize n) filters.zipIdx
      (Vec.slice raw entry.addr entry.size, spare) with
  | error e => rfl
  | ok y => rfl

/-- What a chunk decodes to does not depend on the buffer the cache lent. -/
theorem decode_spare : decode inflate filters itemsize n raw entry spare =
    decode inflate filters itemsize n raw entry spare' := by
  by_cases hinside : entry.addr + entry.size ≤ raw.length
  · rw [decode_eq hinside, decode_eq hinside,
      Pipeline.backward_scratch fun _ _ _ _ => undoFilter_spare]
  · unfold decode
    rw [if_neg hinside, if_neg hinside]
    rfl

theorem undoFilter_cases {y : List UInt8 × List UInt8} (h : stage.1.isDecoded = true) :
    (∃ z, undoFilter inflate entry itemsize n stage y = .ok z ∧ True) ∨
      ∃ halt, (∃ e, halt = Halt.error e) ∧ undoFilter inflate entry itemsize n stage y = .error halt := by
  obtain ⟨filter, i⟩ := stage
  unfold undoFilter
  dsimp only
  split
  · exact .inl ⟨_, rfl, trivial⟩
  cases filter with
  | deflate level =>
      dsimp only
      split
      · exact .inl ⟨_, rfl, trivial⟩
      · exact .inr ⟨_, ⟨_, rfl⟩, rfl⟩
  | shuffle => exact .inl ⟨_, rfl, trivial⟩
  | fletcher32 =>
      dsimp only
      split
      · exact .inl ⟨_, rfl, trivial⟩
      · exact .inr ⟨_, ⟨_, rfl⟩, rfl⟩
  | other debug => cases h

/-- A chunk comes out whole or fails with an error, if every filter is one that is decoded. -/
theorem decode_cases (h : ∀ filter ∈ filters, filter.isDecoded = true) :
    (∃ chunk, decode inflate filters itemsize n raw entry spare = .ok chunk ∧ chunk.length = n) ∨
      ∃ e, decode inflate filters itemsize n raw entry spare = .error (.error e) := by
  unfold decode
  split
  · have hback : (∃ z, filters.zipIdx.reverse.foldlM (fun y stage =>
          undoFilter inflate entry itemsize n stage y) (Vec.slice raw entry.addr entry.size, spare) =
            .ok z ∧ True) ∨
        ∃ halt, (∃ e, halt = Halt.error e) ∧ filters.zipIdx.reverse.foldlM (fun y stage =>
          undoFilter inflate entry itemsize n stage y) (Vec.slice raw entry.addr entry.size, spare) =
            .error halt := by
      apply Fallible.foldlM_cases
      · intro stage hstage y _
        have hmem := List.fst_mem_of_mem_zipIdx (List.mem_reverse.mp hstage)
        exact undoFilter_cases (h _ hmem)
      · trivial
    simp only [bind, Except.bind, Pipeline.backward]
    cases hback with
    | inl hok =>
        obtain ⟨z, hz, -⟩ := hok
        rw [hz]
        dsimp only
        split
        · exact .inr ⟨_, rfl⟩
        · rename_i hlen
          exact .inl ⟨_, rfl, Decidable.not_not.mp hlen⟩
    | inr hfail =>
        obtain ⟨_, ⟨e, rfl⟩, hfail⟩ := hfail
        rw [hfail]
        exact .inr ⟨e, rfl⟩
  · exact .inr ⟨_, rfl⟩

end Decode

/-! ## The fill value -/

section Fill

variable {fill : List UInt8} {at_ len n : Nat}

theorem fillFrom_range (hfill : fill ≠ []) :
    fillFrom fill at_ (List.replicate len 0) =
      some ((List.range' at_ len).map fun k => fill.getD (k % fill.length) 0) := by
  rw [fillFrom, if_neg hfill]
  congr 1
  apply List.ext_getElem?
  intro i
  rw [List.getElem?_mapIdx, List.getElem?_map]
  by_cases hi : i < len
  · rw [List.getElem?_range' hi, List.getElem?_replicate_of_lt hi]
    simp [Nat.mod_add_mod]
  · rw [List.getElem?_eq_none (by simpa using hi), List.getElem?_eq_none (by simpa using hi)]
    rfl

theorem fillFrom_mod : fillFrom fill (at_ % fill.length) (List.replicate len 0) =
    fillFrom fill at_ (List.replicate len 0) := by
  unfold fillFrom
  rw [Nat.mod_mod]

theorem getD_filler {k : Nat} (hk : k < n) :
    (filler fill n).getD k 0 = fill.getD (k % fill.length) 0 := by
  simp [filler, hk]

end Fill

/-! ## The table of the chunks -/

/-- A range that is checked to end in the file does. -/
theorem end_le_of_checked {start len fileLen : Nat}
    (h : ¬(Word.checkedAdd 64 start len).all (fun last => fileLen < last) = true) :
    start + len ≤ fileLen := by
  cases hsum : Word.checkedAdd 64 start len with
  | none => simp [hsum] at h
  | some last =>
      rw [hsum] at h
      rw [Word.checkedAdd_eq_some] at hsum
      simp only [Option.all_some, decide_eq_true_eq, Nat.not_lt] at h
      omega

namespace Chunked

variable {c : Chunked} {visit : ChunkVisit} {raw : List UInt8} {index next : List ChunkEntry}
  {chunk : VisitedChunk} {cache after : DecodeCache}

/-- An entry that says nothing that is not in the file. -/
def Fits (c : Chunked) (raw : List UInt8) (entry : ChunkEntry) : Prop :=
  (c.filters = [] → entry.size = c.grid.chunkBytes) ∧ entry.addr + entry.size ≤ raw.length

/-- A table of every chunk of the grid. -/
structure Indexed (c : Chunked) (raw : List UInt8) (index : List ChunkEntry) : Prop where
  length : index.length = c.grid.chunks
  fits : ∀ entry ∈ index, entry = .missing ∨ c.Fits raw entry

/-- A chunk enters the table if it is in the file, and whole if it is not filtered. -/
theorem addChunk_indexed (h : c.Indexed raw index)
    (hadd : c.addChunk raw.length index chunk = .ok next) : c.Indexed raw next := by
  unfold addChunk at hadd
  cases hnumber : linear (List.zipWith (· / ·) chunk.offset c.grid.chunkShape) c.grid.grid with
  | none =>
      rw [hnumber] at hadd
      cases hadd
      exact h
  | some number =>
      rw [hnumber] at hadd
      dsimp only at hadd
      by_cases hbad : (c.filters = [] ∧ chunk.size ≠ c.grid.chunkBytes) ∨
          (Word.checkedAdd 64 chunk.addr chunk.size).all (fun last => raw.length < last) = true
      · rw [if_pos hbad] at hadd
        cases hadd
      rw [if_neg hbad] at hadd
      by_cases hinside : number < index.length
      · rw [if_pos hinside] at hadd
        cases hadd
        rw [not_or, not_and, Decidable.not_not] at hbad
        have hfits : c.Fits raw ⟨chunk.addr, chunk.size, chunk.filterMask⟩ :=
          ⟨hbad.1, end_le_of_checked hbad.2⟩
        constructor
        · rw [List.length_set, h.length]
        · intro entry hentry
          cases List.mem_or_eq_of_mem_set hentry with
          | inl hmem => exact h.fits entry hmem
          | inr heq => exact .inr (heq ▸ hfits)
      · rw [if_neg hinside] at hadd
        cases hadd

theorem index_indexed (hbuilt : c.built = none) (h : c.index visit raw = .ok index) :
    c.Indexed raw index := by
  unfold Chunked.index at h
  rw [hbuilt] at h
  dsimp only at h
  split at h
  · rename_i table hfold
    obtain ⟨-, -, h⟩ := Fallible.bind_eq_ok.mp h
    cases h
    have hstart : c.Indexed raw (List.replicate c.grid.chunks .missing) :=
      ⟨List.length_replicate, fun entry hentry => .inl (List.eq_of_mem_replicate hentry)⟩
    exact Fallible.foldlM_invariant (fun _ _ _ _ h hadd => addChunk_indexed h hadd) hstart hfold
  · cases h
  · obtain ⟨-, -, h⟩ := Fallible.bind_eq_ok.mp h
    cases h

end Chunked

/-! ## What a chunk decodes to -/

namespace Chunked

section Decoded

variable {c : Chunked} {inflate : List UInt8 → List UInt8 × Bool} {raw fill : List UInt8}
  {index : List ChunkEntry} {entry : ChunkEntry} {n : Nat}

/-- What chunk `n` comes to. -/
def decoded (c : Chunked) (inflate : List UInt8 → List UInt8 × Bool) (raw fill : List UInt8)
    (n : Nat) : Except Halt (List UInt8) :=
  ((c.built.getD [])[n]?).elim (.error .panic) fun entry =>
    if entry.addr = ChunkEntry.missing.addr then .ok (filler fill c.grid.chunkBytes)
    else if c.filters = [] then .ok (Vec.slice raw entry.addr entry.size)
    else decode inflate c.filters c.grid.itemsize c.grid.chunkBytes raw entry []

theorem decoded_of_entry (hbuilt : c.built = some index) (hentry : index[n]? = some entry) :
    c.decoded inflate raw fill n =
      if entry.addr = ChunkEntry.missing.addr then .ok (filler fill c.grid.chunkBytes)
      else if c.filters = [] then .ok (Vec.slice raw entry.addr entry.size)
      else decode inflate c.filters c.grid.itemsize c.grid.chunkBytes raw entry [] := by
  unfold decoded
  rw [hbuilt, Option.getD_some, hentry]
  rfl

/-- A chunked dataset whose table has been made from the file. -/
structure Laid (c : Chunked) (raw : List UInt8) : Prop where
  sound : c.grid.Sound
  decoded : ∀ filter ∈ c.filters, filter.isDecoded = true
  built : ∃ index, c.built = some index ∧ c.Indexed raw index

/-- A piece of a chunk is read as it decodes, or fails as it does. -/
theorem readPiece_reads {held : ChunkKey → Bool} {cache : DecodeCache} {piece : Piece}
    {valid : ChunkKey → List UInt8 → Prop} {P : AexError → Prop} (h : c.Laid raw)
    (hbuilt : c.built = some index) (hfill : fill.length = c.grid.itemsize)
    (hitem : 0 < c.grid.itemsize) (hfile : raw.length < Word.size 64)
    (hchunk : piece.chunk < c.grid.chunks) (hpiece : piece.start + piece.len ≤ c.grid.chunkBytes)
    (hvalid : ∀ out, valid (c.cacheKey, piece.chunk) out ↔
      c.decoded inflate raw fill piece.chunk = .ok out)
    (hfails : ∀ e, c.decoded inflate raw fill piece.chunk = .error (.error e) → P e)
    (hcache : cache.Consistent valid) :
    YieldsOr (fun halt => ∃ e, P e ∧ halt = .error e)
      (c.readPiece inflate raw fill held index piece) cache fun out next =>
        out = (List.range' piece.start piece.len).map (blockOf (c.decoded inflate raw fill) piece.chunk) ∧
          next.Consistent valid := by
  obtain ⟨table, htable, hindexed⟩ := h.built
  rw [hbuilt, Option.some.injEq] at htable
  subst htable
  have hlt : piece.chunk < index.length := by rwa [hindexed.length]
  obtain ⟨entry, hentry⟩ : ∃ entry, index[piece.chunk]? = some entry :=
    ⟨_, List.getElem?_eq_getElem hlt⟩
  have hfits := hindexed.fits entry (List.mem_of_getElem? hentry)
  have hne : fill ≠ [] := List.ne_nil_of_length_pos (by omega)
  have hdecoded := @decoded_of_entry c inflate raw fill index entry piece.chunk hbuilt hentry
  unfold readPiece
  rw [hentry]
  dsimp only
  by_cases hmissing : entry.addr = ChunkEntry.missing.addr
  · -- A chunk never written.
    rw [if_pos hmissing] at hdecoded ⊢
    rw [← hfill, fillFrom_mod, fillFrom_range hne]
    left
    apply Triple.yields_pure
    refine ⟨?_, hcache⟩
    apply List.map_congr_left
    intro k hk
    have hk := (List.mem_range'_1.mp hk).2
    rw [blockOf, hdecoded, Except.toOption, Option.getD_some, getD_filler (by omega)]
  rw [if_neg hmissing] at hdecoded ⊢
  have hin := hfits.resolve_left fun heq => hmissing (congrArg ChunkEntry.addr heq)
  by_cases hfilters : c.filters = []
  · -- A chunk as it is in the file, which is not cached.
    rw [if_pos hfilters] at hdecoded ⊢
    have hsize := hin.1 hfilters
    have hend := hin.2
    rw [Word.wrappingAdd_of_lt (by omega), ZarrArray.readExactAt, if_pos (.inr (by omega))]
    left
    apply Triple.Yields.mono (Triple.yields_lift rfl)
    intro out next hout
    obtain ⟨rfl, rfl⟩ := hout
    refine ⟨?_, hcache⟩
    rw [← Vec.slice_slice (n := entry.size) (by omega),
      Vec.slice_eq_map (x := 0) (by rw [Vec.length_slice hend]; omega)]
    apply List.map_congr_left
    intro k _
    rw [blockOf, hdecoded, Except.toOption, Option.getD_some]
  · rw [if_neg hfilters] at hdecoded ⊢
    apply hcache.readIntoOr hvalid (fun spare => hdecoded ▸ decode_spare) _ hpiece hfails
    rw [hdecoded]
    exact decode_cases h.decoded

end Decoded

end Chunked

/-! ## Datasets -/

namespace Hdf5Dataset

variable {ds ds' : Hdf5Dataset} {info : Hdf5Meta} {inflate : List UInt8 → List UInt8 × Bool}
  {visit : ChunkVisit} {raw : List UInt8} {before after : DecodeCache}

/-- What opening a dataset of a file establishes, and resolving selections keeps. -/
structure Opened (ds : Hdf5Dataset) (raw : List UInt8) : Prop where
  fill : ds.fill.length = ds.dtype.itemsize
  addressed : ds.shape.prod * ds.dtype.itemsize < Word.size 64
  inside : ∀ base, ds.storage = .contiguous base →
    base + ds.shape.prod * ds.dtype.itemsize ≤ raw.length
  grid : ∀ c, ds.storage = .chunked c →
    c.grid.Sound ∧ c.grid.shape = ds.shape ∧ c.grid.itemsize = ds.dtype.itemsize
  decoded : ∀ c, ds.storage = .chunked c → ∀ filter ∈ c.filters, filter.isDecoded = true
  built : ∀ c, ds.storage = .chunked c → ∀ index, c.built = some index → c.Indexed raw index

theorem length_fillValue {name : String} {dtype : DType} {value : FillValue} {fill : List UInt8}
    (h : fillValue name dtype value = .ok fill) : fill.length = dtype.itemsize := by
  cases value with
  | undefined =>
      cases h
      exact List.length_replicate
  | unreadable => cases h
  | defined byte =>
      cases h
      rw [List.length_map, List.length_range]

/-- Where the bytes are said to be, they are. -/
theorem storageOf_ok {dtype : DType} {dataLen : Nat} {storage : Storage}
    (h : storageOf info dtype dataLen raw before = .ok (storage, after)) :
    (∀ base, storage = .contiguous base → base + dataLen ≤ raw.length) ∧
      ∀ c, storage = .chunked c →
        (c.grid.Sound ∧ c.grid.shape = info.shape ∧ c.grid.itemsize = dtype.itemsize) ∧
          (∀ filter ∈ c.filters, filter.isDecoded = true) ∧ c.built = none := by
  unfold storageOf at h
  split at h
  · cases h
    simp
  · split at h
    · cases h
    · rename_i offset _ hinside
      cases h
      constructor
      · intro base hbase
        cases hbase
        exact end_le_of_checked hinside
      · intro c hc
        cases hc
  · cases h
  · obtain ⟨filters, hfilters, h⟩ := Fallible.bind_eq_ok.mp h
    obtain ⟨⟨chunked, cache⟩, hnew, h⟩ := Fallible.bind_eq_ok.mp h
    cases h
    constructor
    · intro base hbase
      cases hbase
    · intro c hc
      cases hc
      unfold Chunked.new at hnew
      obtain ⟨grid, hgrid, hnew⟩ := Fallible.bind_eq_ok.mp hnew
      split at hnew
      · cases hnew
      cases hnew
      rw [Fallible.elim_eq_ok] at hgrid
      obtain ⟨hsound, hshape, -, hitem⟩ := ChunkGrid.new_sound hgrid
      obtain ⟨rfl, hdecoded⟩ := isDecoded_of_checked hfilters
      exact ⟨⟨hsound, hshape, hitem⟩, hdecoded, rfl⟩
  · cases h

theorem open_opened (h : open_ info raw before = .ok (ds, after)) : ds.Opened raw := by
  unfold open_ at h
  obtain ⟨dtype, -, h⟩ := Fallible.bind_eq_ok.mp h
  split at h
  · cases h
  obtain ⟨dataLen, hlen, h⟩ := Fallible.bind_eq_ok.mp h
  split at h
  · cases h
  obtain ⟨⟨storage, cache⟩, hstorage, h⟩ := Fallible.bind_eq_ok.mp h
  obtain ⟨fill, hfill, h⟩ := Fallible.bind_eq_ok.mp h
  cases h
  rw [Fallible.elim_eq_ok] at hlen
  obtain ⟨hproduct, hfits⟩ := Word.foldlM_checkedMul hlen
  have haddressed := hfits (Nat.lt_of_le_of_lt dtype.itemsize_le (by decide))
  rw [hproduct, Nat.mul_comm] at haddressed
  rw [Nat.mul_comm] at hproduct
  obtain ⟨hinside, hchunked⟩ := storageOf_ok hstorage
  constructor
  · exact length_fillValue hfill
  · exact haddressed
  · intro base hbase
    rw [← hproduct]
    exact hinside base hbase
  · exact fun c hc => (hchunked c hc).1
  · exact fun c hc => (hchunked c hc).2.1
  · intro c hc index hbuilt
    rw [(hchunked c hc).2.2] at hbuilt
    cases hbuilt

/-- A dataset a selection of which has been resolved. -/
structure Laid (ds : Hdf5Dataset) (raw : List UInt8) : Prop extends ds.Opened raw where
  ready : ∀ c, ds.storage = .chunked c → ∃ index, c.built = some index

/-- Resolving a selection makes the table, and changes nothing else. -/
theorem layout_laid {build : Build} {indices : List Index} {quality : QualitySpec}
    {result : Except AexError SelectionLayout} (h : ds.Opened raw)
    (hlayout : ds.layout build visit raw indices quality = .ok (result, ds')) :
    ds'.Laid raw ∧ ds'.shape = ds.shape ∧ ds'.dtype = ds.dtype ∧
      result = SelectionLayout.resolve build ds.shape ds.dtype indices quality := by
  unfold layout at hlayout
  split at hlayout
  · rename_i c hstorage
    obtain ⟨index, hindex, hlayout⟩ := Fallible.bind_eq_ok.mp hlayout
    cases hlayout
    have hindexed : c.Indexed raw index := by
      cases hbuilt : c.built with
      | none => exact Chunked.index_indexed hbuilt hindex
      | some table =>
          unfold Chunked.index at hindex
          rw [hbuilt] at hindex
          cases hindex
          exact h.built c hstorage index hbuilt
    refine ⟨⟨⟨h.fill, h.addressed, ?_, ?_, ?_, ?_⟩, ?_⟩, rfl, rfl, rfl⟩
    · intro base hbase
      cases hbase
    · intro _ hc
      cases hc
      exact h.grid c hstorage
    · intro _ hc
      cases hc
      exact h.decoded c hstorage
    · intro _ hc table hbuilt
      cases hc
      cases hbuilt
      exact ⟨hindexed.length, hindexed.fits⟩
    · intro _ hc
      cases hc
      exact ⟨index, rfl⟩
  · rename_i hstorage
    cases hlayout
    exact ⟨⟨h, fun c hc => absurd hc (hstorage c)⟩, rfl, rfl, rfl⟩

/-! ## Reads of a range -/

/-- Byte `j` of the dataset in C order. -/
def bytes (ds : Hdf5Dataset) (inflate : List UInt8 → List UInt8 × Bool) (raw : List UInt8)
    (j : Nat) : UInt8 :=
  match ds.storage with
  | .contiguous base => raw.getD (base + j) 0
  | .unallocated => ds.fill.getD (j % ds.fill.length) 0
  | .chunked c => blockOf (c.decoded inflate raw ds.fill) (c.grid.place j).1 (c.grid.place j).2

/-- How a read of the dataset fails: as one of its chunks does. -/
def Fails (ds : Hdf5Dataset) (inflate : List UInt8 → List UInt8 × Bool) (raw : List UInt8)
    (e : AexError) : Prop :=
  ∃ c, ds.storage = .chunked c ∧
    ∃ n < c.grid.chunks, c.decoded inflate raw ds.fill n = .error (.error e)

/-- A cached chunk of the dataset is one that decodes, as it does. -/
def Holds (ds : Hdf5Dataset) (inflate : List UInt8 → List UInt8 × Bool) (raw : List UInt8)
    (key : ChunkKey) (chunk : List UInt8) : Prop :=
  ∀ c, ds.storage = .chunked c → ∀ n < c.grid.chunks, key = (c.cacheKey, n) →
    c.decoded inflate raw ds.fill n = .ok chunk

section Reads

variable {held : ChunkKey → Bool} {cache : DecodeCache} {at_ len fuel : Nat} {c : Chunked}

theorem holds_chunked {n : Nat} {chunk : List UInt8} (hstorage : ds.storage = .chunked c)
    (hn : n < c.grid.chunks) : ds.Holds inflate raw (c.cacheKey, n) chunk ↔
      c.decoded inflate raw ds.fill n = .ok chunk := by
  constructor
  · exact fun h => h c hstorage n hn rfl
  · intro h c' hstorage' m _ hsame
    rw [hstorage, Storage.chunked.injEq] at hstorage'
    subst hstorage'
    rwa [← (Prod.mk.inj hsame).2]

/-- A read of a dataset gives its bytes, or fails as one of its chunks does. -/
theorem readAt_reads (h : ds.Laid raw) (hfile : raw.length < Word.size 64)
    (hrange : at_ + len ≤ ds.shape.prod * ds.dtype.itemsize) (hend : at_ + len ≤ Word.size 64)
    (hfuel : len ≤ fuel) (hcache : cache.Consistent (ds.Holds inflate raw)) :
    YieldsOr (fun halt => ∃ e, ds.Fails inflate raw e ∧ halt = .error e)
      (ds.readAt inflate visit raw held fuel at_ len) cache fun out next =>
        out = bytesAt (ds.bytes inflate raw) at_ len ∧ next.Consistent (ds.Holds inflate raw) := by
  have hpos := ds.dtype.itemsize_pos
  have hfill : ds.fill ≠ [] := List.ne_nil_of_length_pos (by rw [h.fill]; exact hpos)
  unfold readAt
  cases hstorage : ds.storage with
  | contiguous base =>
      have hinside := h.inside base hstorage
      dsimp only
      rw [Word.wrappingAdd_of_lt (by omega), ZarrArray.readExactAt, if_pos (.inr (by omega))]
      left
      apply Triple.Yields.mono (Triple.yields_lift rfl)
      intro out next hout
      obtain ⟨rfl, rfl⟩ := hout
      refine ⟨?_, hcache⟩
      unfold bytesAt bytes
      rw [hstorage, Vec.slice_eq_map (x := 0) (by omega), List.range'_eq_map_range,
        List.range'_eq_map_range, List.map_map, List.map_map]
      apply List.map_congr_left
      intro k _
      rw [Function.comp_apply, Function.comp_apply, Nat.add_assoc]
  | unallocated =>
      dsimp only
      rw [fillFrom_range hfill]
      left
      apply Triple.yields_pure
      refine ⟨?_, hcache⟩
      unfold bytesAt bytes
      rw [hstorage]
  | chunked c =>
      obtain ⟨hsound, hshape, hitem⟩ := h.grid c hstorage
      obtain ⟨index, hbuilt⟩ := h.ready c hstorage
      have hlaid : c.Laid raw :=
        ⟨hsound, h.decoded c hstorage, index, hbuilt, h.built c hstorage index hbuilt⟩
      have hbytes : bytesAt (ds.bytes inflate raw) at_ len = (List.range' at_ len).map fun j =>
          blockOf (c.decoded inflate raw ds.fill) (c.grid.place j).1 (c.grid.place j).2 := by
        unfold bytesAt bytes
        rw [hstorage]
      have hindex : c.index visit raw = .ok index := by
        unfold Chunked.index
        rw [hbuilt]
      rw [hbytes]
      dsimp only
      unfold Chunked.read
      apply YieldsOr.bind (.inl (Triple.yields_lift hindex))
      intro table s htable
      obtain ⟨rfl, rfl⟩ := htable
      apply hsound.walk_readsOr _
        (fun _ => hitem ▸ Nat.lt_of_le_of_lt ds.dtype.itemsize_le (by decide))
        (by rw [hshape, hitem]; exact hrange) hend hfuel hcache
      intro piece cache hchunk hpiece _ hcache
      exact Chunked.readPiece_reads hlaid hbuilt (by rw [h.fill, hitem]) (by rw [hitem]; exact hpos)
        hfile hchunk hpiece (fun _ => holds_chunked hstorage hchunk)
        (fun e hfail => ⟨c, hstorage, piece.chunk, hchunk, hfail⟩) hcache

end Reads

/-! ## Selections -/

/-- The reads of a dataset's ranges, each of which finds the cache as others left it. -/
def source (ds : Hdf5Dataset) (inflate : List UInt8 → List UInt8 × Bool) (visit : ChunkVisit)
    (raw : List UInt8) (held : ChunkKey → Bool) (found : Nat → Nat → DecodeCache) :
    ReadSrc UInt8 :=
  .ofRun (fun at_ len => ds.readAt inflate visit raw held len at_ len) found

/-- Five elements in chunks of two, each shuffled. -/
def fiveInfo : Hdf5Meta where
  name := "/five"
  dtype := .ok .uint16
  isNull := false
  shape := [5]
  external := false
  layout := .chunked (some [2])
  filters := [.shuffle]
  fill := .defined fun _ => 7

/-- The first chunk and the last, and between them one that is left behind. -/
def fiveVisit : ChunkVisit where
  chunks := [⟨[0], 0, 4, 0⟩, ⟨[6], 9, 9, 0⟩, ⟨[4], 4, 4, 0⟩]
  ended := .ok ()
  stopped := .ok ()

def fiveFile : List UInt8 := [1, 2, 3, 4, 5, 6, 7, 8]

def fiveDataset (built : Option (List ChunkEntry)) : Hdf5Dataset :=
  ⟨.uint16, [5], .chunked ⟨"/five", ⟨[5], [2], [3], 2, 4, 0⟩, [.shuffle], built, 0⟩, [7, 7]⟩

/-- The table of the chunks, the second of which was never written. -/
def fiveTable : List ChunkEntry := [⟨0, 4, 0⟩, .missing, ⟨4, 4, 0⟩]

theorem five_open : open_ fiveInfo fiveFile (.new 64) =
    .ok (fiveDataset none, (DecodeCache.new 64).newKey.2) := rfl

theorem five_layout : (fiveDataset none).layout ⟨false, false⟩ fiveVisit fiveFile
    ZarrArray.fiveBackwards.indices ZarrArray.fiveBackwards.quality =
      .ok (.ok ZarrArray.fiveBackwards.layout, fiveDataset (some fiveTable)) := rfl

example : (List.range 10).map ((fiveDataset (some fiveTable)).bytes (fun bytes => (bytes, true)) fiveFile) =
    [1, 3, 2, 4, 7, 7, 7, 7, 5, 7] := by decide

end Hdf5Dataset

end Aex
