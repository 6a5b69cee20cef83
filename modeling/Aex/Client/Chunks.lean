import Aex.Server.Answer
import Mathlib.Algebra.BigOperators.Group.List.Lemmas

/-!
# Chunks

A client cuts the logical stream of a plan into the chunks it fetches.  Three
numbers decide how: the chunk size it was configured with, the one the server
announced, and the server's ceiling.
-/

namespace Aex

open Tiling (Tiles)

/-- What a server announces when a session is opened. -/
structure Session where
  defaultChunkBytes : Nat
  maxFetchBytes : Nat
  deriving Repr, DecidableEq

def TransferLimits.announce (t : TransferLimits) : Session :=
  ⟨t.defaultChunkBytes, t.maxFetchBytes⟩

/-- Chunks are not cut smaller than this to keep extra connections busy. -/
def minChunkBytes : Nat := 256 * 1024

/-- Shrink `chunkBytes` so that a transfer has a chunk for every connection. -/
def splitForStreams (chunkBytes totalBytes streams : Nat) : Nat :=
  let streams := max streams 1
  if streams ≤ totalBytes ⌈/⌉ chunkBytes then chunkBytes
  else min (max (totalBytes ⌈/⌉ streams) minChunkBytes) chunkBytes

/-- How much of the logical byte stream one fetch asks for; `configured` is 0
when the client leaves it open, and `totalBytes` counts the whole batch. -/
def chunkBytes (session : Session) (configured streams totalBytes : Nat) : Nat :=
  let ceiling := max session.maxFetchBytes 1
  if configured ≠ 0 then max 1 (min configured ceiling)
  else splitForStreams (max 1 (min session.defaultChunkBytes ceiling)) totalBytes streams

/-- Cut the logical byte stream of a plan into the chunks to fetch. -/
def planChunks (totalBytes chunkBytes : Nat) : List (Nat × Nat) :=
  Tiling.cut (max chunkBytes 1) totalBytes

/-- The server's checks on one chunk of a plan: those made before anything is
read, and that each piece it is served in can be described as a block. -/
structure Accepted (ctx : Context) (L : SelectionLayout) (chunk : Nat × Nat) : Prop where
  short : chunk.2 ≤ ctx.config.transfer.maxFetchBytes
  inRange : L.checkRange chunk.1 chunk.2 = .ok ()
  aligned : misaligned L chunk.1 chunk.2 = false
  described : ∀ piece ∈ cuts L ctx.config.transfer.readBufferBytes chunk.2 chunk.1 chunk.2,
    ∃ block, L.block ctx.build piece.1 piece.2 = .ok block

/-- The chunks a client asks for agree with what the server accepts. -/
structure ChunksAgree (ctx : Context) (L : SelectionLayout) (chunks : List (Nat × Nat)) : Prop where
  tiles : Tiles 0 chunks L.totalBytes
  short : ∀ chunk ∈ chunks, chunk.2 ≤ ctx.config.transfer.maxFetchBytes
  accepted : ∀ chunk ∈ chunks, Accepted ctx L chunk

/-- The size a stream is cut at is whole elements, or the stream is no longer
than it.  Case by case: the configured size, the announced one, or each
connection's share when that is above the least chunk. -/
def CutsWhole (t : TransferLimits) (configured streams batchBytes itemsize totalBytes : Nat) :
    Prop :=
  if configured ≠ 0 then
    itemsize ∣ min configured t.maxFetchBytes ∨ totalBytes ≤ min configured t.maxFetchBytes
  else if max streams 1 ≤ batchBytes ⌈/⌉ t.defaultChunkBytes ∨ t.defaultChunkBytes ≤ minChunkBytes
    then itemsize ∣ t.defaultChunkBytes ∨ totalBytes ≤ t.defaultChunkBytes
  else
    minChunkBytes < batchBytes ⌈/⌉ max streams 1 →
      itemsize ∣ batchBytes ⌈/⌉ max streams 1 ∨ totalBytes ≤ batchBytes ⌈/⌉ max streams 1

/-- No block axis of a piece of the range is too long for the block header. -/
def ShortAxes (L : SelectionLayout) (bufferLen : Nat) (chunk : Nat × Nat) : Prop :=
  ∀ piece ∈ cuts L bufferLen chunk.2 chunk.1 chunk.2,
    ∀ axis ∈ BlockSpec.axesFor L.outShape L.dtype piece.1 piece.2, axis < Word.size 32

instance (t : TransferLimits) (configured streams batchBytes itemsize totalBytes : Nat) :
    Decidable (CutsWhole t configured streams batchBytes itemsize totalBytes) := by
  unfold CutsWhole
  infer_instance

instance (L : SelectionLayout) (bufferLen : Nat) (chunk : Nat × Nat) :
    Decidable (ShortAxes L bufferLen chunk) := by
  unfold ShortAxes
  infer_instance

/-! ## Where the server cuts -/

variable {ctx : Context} {L : SelectionLayout} {bufferLen fuel offset len : Nat}

theorem block_isOk_iff (hraw : L.quality.codecFor ctx.build ≠ .raw) :
    (∃ block, L.block ctx.build offset len = .ok block) ↔
      0 < len ∧ L.dtype.itemsize ∣ len ∧
        ∀ axis ∈ BlockSpec.axesFor L.outShape L.dtype offset len, axis < Word.size 32 := by
  rw [← BlockSpec.forRange_isOk_iff L.outShape L.dtype (L.quality.eps.getD 0) offset len,
    SelectionLayout.block, if_neg hraw]
  cases BlockSpec.forRange L.outShape L.dtype (L.quality.eps.getD 0) offset len with
  | error e => simp [Except.map]
  | ok spec => simp [Except.map]

/-- A block axis is never longer than its block, so a buffer of fewer than `2 ^ 32`
elements never meets one that is too long. -/
theorem shortAxes_of_buffer {chunk : Nat × Nat} (hbuffer : 0 < bufferLen)
    (hwhole : L.dtype.itemsize ∣ bufferLen) (hoffset : L.dtype.itemsize ∣ chunk.1)
    (hlen : L.dtype.itemsize ∣ chunk.2) (hsmall : bufferLen < Word.size 32 * L.dtype.itemsize) :
    ShortAxes L bufferLen chunk := by
  intro piece hpiece axis haxis
  have hdvd := cuts_whole hbuffer hwhole hoffset hlen piece hpiece
  have hpos := ((cuts_tiles hbuffer (Nat.le_refl _)).bounds hpiece).2.1
  have hprod := BlockSpec.axesFor_prod L.outShape piece.1 hpos hdvd
  have hle : axis ≤ (BlockSpec.axesFor L.outShape L.dtype piece.1 piece.2).prod := by
    refine Nat.le_of_dvd (Nat.pos_of_mul_pos_right (hprod ▸ hpos)) ?_
    exact List.dvd_prod haxis
  have hfit : (BlockSpec.axesFor L.outShape L.dtype piece.1 piece.2).prod < Word.size 32 := by
    refine Nat.lt_of_mul_lt_mul_right (a := L.dtype.itemsize) ?_
    rw [hprod]
    exact (cuts_le piece hpiece).trans_lt hsmall
  exact hle.trans_lt hfit

/-! ## The size of a chunk -/

/-- Least chunks are whole elements whatever the element. -/
theorem itemsize_dvd_minChunkBytes (dtype : DType) : dtype.itemsize ∣ minChunkBytes :=
  dtype.itemsize_dvd_sixteen.trans (by decide)

theorem splitForStreams_le (chunkBytes totalBytes streams : Nat) :
    splitForStreams chunkBytes totalBytes streams ≤ chunkBytes := by
  unfold splitForStreams
  dsimp only
  split <;> omega

theorem splitForStreams_pos {chunkBytes : Nat} (h : 0 < chunkBytes) (totalBytes streams : Nat) :
    0 < splitForStreams chunkBytes totalBytes streams := by
  unfold splitForStreams minChunkBytes
  dsimp only
  split <;> omega

variable (config : ValidConfig) (configured streams batchBytes : Nat)

theorem chunkBytes_bounds :
    0 < chunkBytes config.transfer.announce configured streams batchBytes ∧
      chunkBytes config.transfer.announce configured streams batchBytes ≤
        config.transfer.maxFetchBytes := by
  have hdefault := config.defaultChunk_pos
  have hmax := config.defaultChunk_le
  unfold chunkBytes
  dsimp only [TransferLimits.announce]
  split
  · omega
  · exact ⟨splitForStreams_pos (by omega) _ _, (splitForStreams_le _ _ _).trans (by omega)⟩

/-- A client whose server announces validated limits cuts its chunks where
`CutsWhole` says. -/
theorem cutsWhole_iff (dtype : DType) (totalBytes : Nat) :
    CutsWhole config.transfer configured streams batchBytes dtype.itemsize totalBytes ↔
      dtype.itemsize ∣ chunkBytes config.transfer.announce configured streams batchBytes ∨
        totalBytes ≤ chunkBytes config.transfer.announce configured streams batchBytes := by
  have hdefault := config.defaultChunk_pos
  have hmax := config.defaultChunk_le
  unfold CutsWhole chunkBytes
  dsimp only [TransferLimits.announce]
  by_cases hconfigured : configured ≠ 0
  · have hclamp : max 1 (min configured (max config.transfer.maxFetchBytes 1)) =
        min configured config.transfer.maxFetchBytes := by omega
    rw [if_pos hconfigured, if_pos hconfigured, hclamp]
  have hclamp : max 1 (min config.transfer.defaultChunkBytes (max config.transfer.maxFetchBytes 1)) =
      config.transfer.defaultChunkBytes := by omega
  rw [if_neg hconfigured, if_neg hconfigured, hclamp, splitForStreams]
  by_cases henough : max streams 1 ≤ batchBytes ⌈/⌉ config.transfer.defaultChunkBytes
  · rw [if_pos (.inl henough), if_pos henough]
  rw [if_neg henough]
  by_cases hsmall : config.transfer.defaultChunkBytes ≤ minChunkBytes
  · rw [if_pos (.inr hsmall), Nat.min_eq_right (by omega)]
  rw [if_neg (by tauto)]
  -- A connection's share never exceeds the announced chunk, of which there are too few.
  have hshare : batchBytes ⌈/⌉ max streams 1 ≤ config.transfer.defaultChunkBytes := by
    rw [ceilDiv_le_iff_le_mul (by omega)]
    have hbatch := (ceilDiv_le_iff_le_mul hdefault).mp
      (Nat.le_of_lt (Nat.lt_of_not_le henough))
    rwa [Nat.mul_comm] at hbatch
  by_cases hleast : minChunkBytes < batchBytes ⌈/⌉ max streams 1
  · rw [Nat.max_eq_left hleast.le, Nat.min_eq_left hshare]
    simp only [hleast, forall_const]
  · have hshrunk : min (max (batchBytes ⌈/⌉ max streams 1) minChunkBytes)
        config.transfer.defaultChunkBytes = minChunkBytes := by omega
    rw [hshrunk]
    simp only [hleast, false_imp_iff, itemsize_dvd_minChunkBytes, true_or]

/-! ## What the server accepts -/

variable {config configured streams batchBytes}

/-- A layout handed out under an error bound is never raw. -/
theorem eps_eq_none_of_raw (h : L.quality.codecFor ctx.build = .raw) : L.quality.eps = none := by
  unfold QualitySpec.eps
  split
  · rename_i he
    exact absurd h (QualitySpec.codecFor_ne_raw he)
  · rfl

/-- The server accepts a chunk of a raw plan, and a chunk of whole elements whose
pieces have short axes. -/
theorem accepted_iff (hbuffer : L.dtype.itemsize ∣ ctx.config.transfer.readBufferBytes)
    {chunk : Nat × Nat} (hshort : chunk.2 ≤ ctx.config.transfer.maxFetchBytes)
    (hrange : L.checkRange chunk.1 chunk.2 = .ok ()) (hoffset : L.dtype.itemsize ∣ chunk.1) :
    Accepted ctx L chunk ↔ L.quality.codecFor ctx.build = .raw ∨
      (L.dtype.itemsize ∣ chunk.2 ∧ ShortAxes L ctx.config.transfer.readBufferBytes chunk) := by
  have htiles : Tiles chunk.1 (cuts L ctx.config.transfer.readBufferBytes chunk.2 chunk.1 chunk.2)
      (chunk.1 + chunk.2) := cuts_tiles ctx.config.readBuffer_pos (Nat.le_refl _)
  by_cases hraw : L.quality.codecFor ctx.build = .raw
  · simp only [hraw, true_or, iff_true]
    refine ⟨hshort, hrange, ?_, fun piece _ => ⟨none, block_of_raw hraw⟩⟩
    simp [misaligned, eps_eq_none_of_raw hraw]
  simp only [hraw, false_or]
  constructor
  · rintro ⟨-, -, -, hdescribed⟩
    have hblock := fun piece hpiece => (block_isOk_iff hraw).mp (hdescribed piece hpiece)
    have hdvd := htiles.dvd fun piece hpiece => (hblock piece hpiece).2.1
    rw [Nat.add_sub_cancel_left] at hdvd
    exact ⟨hdvd, fun piece hpiece => (hblock piece hpiece).2.2⟩
  · rintro ⟨hdvd, haxes⟩
    refine ⟨hshort, hrange, ?_, fun piece hpiece => (block_isOk_iff hraw).mpr
      ⟨(htiles.bounds hpiece).2.1, cuts_whole ctx.config.readBuffer_pos hbuffer hoffset hdvd piece
        hpiece, haxes piece hpiece⟩⟩
    simp [misaligned, Nat.mod_eq_zero_of_dvd hoffset, Nat.mod_eq_zero_of_dvd hdvd]

/-- The chunks a client cuts a plan into agree with what the server accepts exactly
when the plan goes raw, or they are cut at whole elements and their pieces have
short axes. -/
theorem chunksAgree_iff (ctx : Context) (L : SelectionLayout) (hplan : HandedOut ctx.build L)
    (hbuffer : L.dtype.itemsize ∣ ctx.config.transfer.readBufferBytes)
    (configured streams batchBytes : Nat) :
    ChunksAgree ctx L (planChunks L.totalBytes
        (chunkBytes ctx.config.transfer.announce configured streams batchBytes)) ↔
      L.quality.codecFor ctx.build = .raw ∨
        (CutsWhole ctx.config.transfer configured streams batchBytes L.dtype.itemsize L.totalBytes ∧
          ∀ chunk ∈ planChunks L.totalBytes
              (chunkBytes ctx.config.transfer.announce configured streams batchBytes),
            ShortAxes L ctx.config.transfer.readBufferBytes chunk) := by
  obtain ⟨shape, dtype, indices, requested, hresolve⟩ := hplan
  have htotal := SelectionLayout.totalBytes_lt hresolve
  have hwhole := SelectionLayout.itemsize_dvd_totalBytes hresolve
  obtain ⟨hpos, hmax⟩ := chunkBytes_bounds ctx.config configured streams batchBytes
  have hcut := cutsWhole_iff ctx.config configured streams batchBytes L.dtype L.totalBytes
  generalize chunkBytes ctx.config.transfer.announce configured streams batchBytes = step at *
  rw [hcut, planChunks, Nat.max_eq_left hpos]
  have htiles : Tiles 0 (Tiling.cut step L.totalBytes) L.totalBytes := Tiling.tiles_cut hpos
  have hshort : ∀ chunk ∈ Tiling.cut step L.totalBytes,
      chunk.2 ≤ ctx.config.transfer.maxFetchBytes := by
    intro chunk hchunk
    obtain ⟨k, rfl, -⟩ := Tiling.mem_cut hpos hchunk
    dsimp only
    omega
  have hrange : ∀ chunk ∈ Tiling.cut step L.totalBytes, L.checkRange chunk.1 chunk.2 = .ok () := by
    intro chunk hchunk
    have hbounds := htiles.bounds hchunk
    exact SelectionLayout.checkRange_eq_ok.mpr ⟨by omega, by omega⟩
  -- Cut at whole elements, every chunk starts and ends on one.
  have hdvd : L.dtype.itemsize ∣ step ∨ L.totalBytes ≤ step →
      ∀ chunk ∈ Tiling.cut step L.totalBytes,
        L.dtype.itemsize ∣ chunk.1 ∧ L.dtype.itemsize ∣ chunk.2 := by
    intro hstep chunk hchunk
    obtain ⟨k, rfl, hlt⟩ := Tiling.mem_cut hpos hchunk
    rcases hstep with hstep | hle
    · have hstart : L.dtype.itemsize ∣ k * step := Dvd.dvd.mul_left hstep k
      refine ⟨hstart, ?_⟩
      rcases Nat.le_total step (L.totalBytes - k * step) with h | h
      · rwa [Nat.min_eq_left h]
      · rw [Nat.min_eq_right h]
        exact Nat.dvd_sub hwhole hstart
    · obtain rfl : k = 0 := by
        by_contra hk
        have := Nat.le_mul_of_pos_left step (Nat.pos_of_ne_zero hk)
        omega
      simp [Nat.min_eq_right hle, hwhole]
  constructor
  · intro hagree
    by_cases hraw : L.quality.codecFor ctx.build = .raw
    · exact .inl hraw
    have hstart : ∀ chunk ∈ Tiling.cut step L.totalBytes, L.dtype.itemsize ∣ chunk.1 →
        L.dtype.itemsize ∣ chunk.2 ∧ ShortAxes L ctx.config.transfer.readBufferBytes chunk := by
      intro chunk hchunk hoffset
      have := (accepted_iff hbuffer (hshort chunk hchunk) (hrange chunk hchunk) hoffset).mp
        (hagree.accepted chunk hchunk)
      exact this.resolve_left hraw
    have hstep : L.dtype.itemsize ∣ step ∨ L.totalBytes ≤ step := by
      by_cases hone : L.totalBytes ≤ step
      · exact .inr hone
      · exact .inl (hstart _ (Tiling.mem_cut_first hpos (by omega)) (dvd_zero _)).1
    exact .inr ⟨hstep, fun chunk hchunk =>
      (hstart chunk hchunk (hdvd hstep chunk hchunk).1).2⟩
  · intro h
    refine ⟨htiles, hshort, fun chunk hchunk => ?_⟩
    rcases h with hraw | ⟨hstep, haxes⟩
    · refine ⟨hshort chunk hchunk, hrange chunk hchunk, ?_, fun piece _ => ⟨none, block_of_raw hraw⟩⟩
      simp [misaligned, eps_eq_none_of_raw hraw]
    · obtain ⟨hoffset, hlen⟩ := hdvd hstep chunk hchunk
      exact (accepted_iff hbuffer (hshort chunk hchunk) (hrange chunk hchunk) hoffset).mpr
        (.inr ⟨hlen, haxes chunk hchunk⟩)

/-- Four deflated floats, a client that leaves the chunk size open. -/
theorem chunksAgree_iff_gzip : ChunksAgree plainContext (fourFloats .gzip)
    (planChunks 16 (chunkBytes plainContext.config.transfer.announce 0 1 16)) :=
  (chunksAgree_iff plainContext _ (fourFloats_handedOut .gzip) (by decide) 0 1 16).mpr
    (.inr ⟨by decide, by decide⟩)

/-- A client configured to fetch three bytes at a time asks for parts of an
element, which a deflated plan is not served in. -/
theorem odd_chunks_disagree : ¬ ∀ (ctx : Context) (L : SelectionLayout),
    HandedOut ctx.build L → L.dtype.itemsize ∣ ctx.config.transfer.readBufferBytes →
    ∀ configured streams batchBytes, ChunksAgree ctx L (planChunks L.totalBytes
      (chunkBytes ctx.config.transfer.announce configured streams batchBytes)) := by
  intro h
  have hagree := h plainContext _ (fourFloats_handedOut .gzip) (by decide) 3 1 16
  obtain ⟨block, hblock⟩ := (hagree.accepted (0, 3) (by decide)).described (0, 3) (by decide)
  have hnone : (fourFloats .gzip).block plainContext.build 0 3 =
      .error (.badBlock "a block of 3 bytes does not hold whole <f4 elements") := rfl
  rw [hnone] at hblock
  cases hblock

end Aex
