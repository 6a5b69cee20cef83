import Mathlib.Order.Bounds.Basic
import Aex.Server.Reader

/-!
# The pieces of a fetch

What `serve` passes on, when every read and every send goes through, are the
cuts of the range.  They tile it, whatever the quality; under an error bound each
piece ends on the last row in reach, or else on the last element.
-/

namespace Aex

open Tiling (Tiles)

/-- The pieces were read and sent one after the other, all of them successfully. -/
inductive Passed {σ ε : Type} (readRange : ReadRange)
    (send : Nat → List UInt8 → σ → Except ε Unit × σ) : List (Nat × Nat) → σ → σ → Prop
  | nil (s : σ) : Passed readRange send [] s s
  | cons {offset len : Nat} {bytes : Vector UInt8 len} {more : List (Nat × Nat)} {s t u : σ}
      (hread : readRange offset len = .ok bytes) (hsend : send offset bytes.toList s = (.ok (), t))
      (hmore : Passed readRange send more t u) :
      Passed readRange send ((offset, len) :: more) s u

namespace SelectionLayout

/-- A position where a row of the output array starts. -/
def RowBoundary (L : SelectionLayout) (position : Nat) : Prop :=
  ∃ inner, L.outShape.getLast? = some inner ∧ inner * L.dtype.itemsize ∣ position

/-- The row boundaries past `offset` a piece of at most `room` bytes can end on. -/
def boundariesIn (L : SelectionLayout) (offset room : Nat) : Set Nat :=
  {stop | L.RowBoundary stop ∧ offset < stop ∧ stop ≤ offset + room}

/-- How long a piece from `offset` is when there is room for `room` bytes. -/
structure CutsWell (L : SelectionLayout) (offset len room : Nat) : Prop where
  /-- It ends on the last row boundary in reach. -/
  row : (L.boundariesIn offset room).Nonempty → IsGreatest (L.boundariesIn offset room) (offset + len)
  /-- Without one it holds the most whole elements that fit. -/
  whole : ¬ (L.boundariesIn offset room).Nonempty →
    IsGreatest {n | L.dtype.itemsize ∣ n ∧ n ≤ room} len

end SelectionLayout

section Serve

variable {σ ε : Type} {L : SelectionLayout} {bufferLen fuel offset len : Nat}
  {readRange : ReadRange} {send : Nat → List UInt8 → σ → Except ε Unit × σ} {s t : σ}

/-- A range is served when all its cuts pass. -/
theorem serve_eq_ok_iff : serve L bufferLen readRange send fuel offset len s = (.ok (.ok ()), t) ↔
    Passed readRange send (cuts L bufferLen fuel offset len) s t := by
  induction fuel generalizing offset len s with
  | zero =>
      rw [serve, cuts]
      constructor
      · intro h
        cases h
        exact .nil _
      · intro h
        cases h
        rfl
  | succ fuel ih =>
      rw [serve, cuts]
      by_cases hlen : len = 0
      · rw [if_pos hlen, if_pos hlen]
        constructor
        · intro h
          cases h
          exact .nil _
        · intro h
          cases h
          rfl
      rw [if_neg hlen, if_neg hlen]
      dsimp only
      generalize rowAligned L offset (min len bufferLen) = piece
      constructor
      · intro h
        split at h
        · cases h
        · rename_i bytes hread
          split at h
          · cases h
          · rename_i hsend
            exact .cons hread hsend (ih.mp h)
      · intro h
        cases h with
        | cons hread hsend hmore =>
            rw [hread]
            dsimp only
            rw [hsend]
            exact ih.mpr hmore

/-- The range is used up before the fuel is. -/
theorem serve_fuel (hbuffer : 0 < bufferLen) {more : Nat} (hfuel : len ≤ fuel) (hmore : len ≤ more) :
    serve L bufferLen readRange send fuel offset len s =
      serve L bufferLen readRange send more offset len s := by
  induction fuel generalizing more offset len s with
  | zero =>
      obtain rfl : len = 0 := Nat.le_zero.mp hfuel
      cases more with
      | zero => rfl
      | succ more => simp [serve]
  | succ fuel ih =>
      by_cases hlen : len = 0
      · cases more with
        | zero => simp [serve, hlen]
        | succ more => simp [serve, hlen]
      obtain ⟨more, rfl⟩ := Nat.exists_eq_succ_of_ne_zero (show more ≠ 0 by omega)
      have hpos : 0 < rowAligned L offset (min len bufferLen) := rowAligned_pos (by omega)
      rw [serve, serve, if_neg hlen, if_neg hlen]
      dsimp only
      cases readRange offset (rowAligned L offset (min len bufferLen)) with
      | error e => rfl
      | ok bytes =>
          dsimp only
          cases send offset bytes.toList s with
          | mk result t =>
              cases result with
              | error e => rfl
              | ok _ => exact ih (by omega) (by omega)

end Serve

/-! ## Where a piece ends -/

section Cuts

variable {L : SelectionLayout} {bufferLen fuel offset len room : Nat}

/-- A row that has a boundary in reach has a length the code can compute. -/
theorem SelectionLayout.rowBytes_of_boundary {stop : Nat} (hstop : stop ∈ L.boundariesIn offset room)
    (hmax : offset + room < Word.size 64) : ∃ row, L.rowBytes = some row ∧ row ∣ stop := by
  obtain ⟨⟨inner, hinner, hdvd⟩, hlow, hhigh⟩ := hstop
  have hle := Nat.le_of_dvd (by omega) hdvd
  have hpos := Nat.pos_of_dvd_of_pos hdvd (by omega)
  refine ⟨_, ?_, hdvd⟩
  simp only [SelectionLayout.rowBytes, hinner, Option.bind_eq_bind, Option.bind_some,
    Option.filter_eq_some_iff, Word.checkedMul_eq_some, decide_eq_true_eq, and_true]
  exact ⟨by omega, hpos⟩

theorem SelectionLayout.rowBoundary_of_rowBytes {row stop : Nat} (hrow : L.rowBytes = some row)
    (hdvd : row ∣ stop) : L.RowBoundary stop := by
  simp only [SelectionLayout.rowBytes, Option.bind_eq_bind, Option.bind_eq_some_iff,
    Option.filter_eq_some_iff, Word.checkedMul_eq_some, decide_eq_true_eq] at hrow
  obtain ⟨inner, hinner, ⟨-, rfl⟩, -⟩ := hrow
  exact ⟨inner, hinner, hdvd⟩

/-- The last multiple of `d` not past `last`. -/
theorem le_sub_mod {d stop last : Nat} (hdvd : d ∣ stop) (hle : stop ≤ last) :
    stop ≤ last - last % d := by
  obtain ⟨k, rfl⟩ := hdvd
  rcases Nat.eq_zero_or_pos d with rfl | hd
  · simp
  · have hk : k ≤ last / d := (Nat.le_div_iff_mul_le hd).mpr (by rwa [Nat.mul_comm])
    have := Nat.div_add_mod last d
    calc d * k ≤ d * (last / d) := Nat.mul_le_mul_left _ hk
      _ = last - last % d := by omega

/-- Cutting on an element keeps the most whole ones. -/
theorem greatest_whole (d room : Nat) : IsGreatest {n | d ∣ n ∧ n ≤ room} (room - room % d) := by
  constructor
  · exact ⟨Nat.dvd_sub_mod _, Nat.sub_le _ _⟩
  · intro n hn
    exact le_sub_mod hn.1 hn.2

theorem alignedCut_cutsWell (hmax : offset + room < Word.size 64) :
    L.CutsWell offset (alignedCut L offset room) room := by
  unfold alignedCut
  cases hrow : L.rowBytes with
  | none =>
      have hnone : ¬ (L.boundariesIn offset room).Nonempty := by
        intro h
        obtain ⟨stop, hstop⟩ := h
        obtain ⟨row, hsome, -⟩ := SelectionLayout.rowBytes_of_boundary hstop hmax
        rw [hrow] at hsome
        cases hsome
      exact ⟨fun h => absurd h hnone, fun _ => greatest_whole _ _⟩
  | some row =>
      have hlast : ∀ stop ∈ L.boundariesIn offset room,
          stop ≤ offset + room - (offset + room) % row := by
        intro stop hstop
        obtain ⟨row', hrow', hdvd⟩ := SelectionLayout.rowBytes_of_boundary hstop hmax
        rw [hrow] at hrow'
        cases hrow'
        exact le_sub_mod hdvd hstop.2.2
      dsimp only
      by_cases hreach : (offset + room) % row < room
      · rw [if_pos hreach]
        have hend : offset + (room - (offset + room) % row) =
            offset + room - (offset + room) % row := by omega
        have hmem : offset + (room - (offset + room) % row) ∈ L.boundariesIn offset room := by
          refine ⟨?_, by omega, by omega⟩
          rw [hend]
          exact SelectionLayout.rowBoundary_of_rowBytes hrow (Nat.dvd_sub_mod _)
        refine ⟨fun _ => ⟨hmem, ?_⟩, fun h => absurd ⟨_, hmem⟩ h⟩
        rw [hend]
        exact hlast
      · rw [if_neg hreach]
        have hnone : ¬ (L.boundariesIn offset room).Nonempty := by
          intro h
          obtain ⟨stop, hstop⟩ := h
          have hle := hlast stop hstop
          have hlow := hstop.2.1
          omega
        exact ⟨fun h => absurd h hnone, fun _ => greatest_whole _ _⟩

/-- Under an error bound, the cuts of a range of whole elements lie on whole
elements and end where they should. -/
theorem cuts_cutWell (hbound : L.quality.eps.isSome) (hbuffer : L.dtype.itemsize ≤ bufferLen)
    (hoffset : L.dtype.itemsize ∣ offset) (hlen : L.dtype.itemsize ∣ len)
    (hmax : offset + len < Word.size 64) :
    ∀ piece ∈ cuts L bufferLen fuel offset len,
      (L.dtype.itemsize ∣ piece.1 ∧ L.dtype.itemsize ∣ piece.2) ∧
        L.CutsWell piece.1 piece.2 (min bufferLen (offset + len - piece.1)) := by
  induction fuel generalizing offset len with
  | zero => simp [cuts]
  | succ fuel ih =>
      rw [cuts]
      by_cases hzero : len = 0
      · simp [hzero]
      rw [if_neg hzero]
      have hroom : L.dtype.itemsize ≤ min len bufferLen :=
        Nat.le_min.mpr ⟨Nat.le_of_dvd (by omega) hlen, hbuffer⟩
      obtain ⟨hpos, hdvd⟩ := alignedCut_spec hoffset hroom
      have hcut : rowAligned L offset (min len bufferLen) =
          alignedCut L offset (min len bufferLen) := by
        unfold rowAligned
        rw [if_neg (by simp [Option.isSome_iff_ne_none.mp hbound]), if_neg hpos.ne']
      have hle : alignedCut L offset (min len bufferLen) ≤ min len bufferLen := alignedCut_le
      have hwell : L.CutsWell offset (alignedCut L offset (min len bufferLen)) (min len bufferLen) :=
        alignedCut_cutsWell (by omega)
      rw [hcut]
      generalize alignedCut L offset (min len bufferLen) = cut at *
      intro piece hmem
      rcases List.mem_cons.mp hmem with rfl | hmem
      · refine ⟨⟨hoffset, hdvd⟩, ?_⟩
        rwa [Nat.add_sub_cancel_left, Nat.min_comm]
      · have := ih (Nat.dvd_add hoffset hdvd) (Nat.dvd_sub hlen hdvd) (by omega) piece hmem
        rwa [show offset + cut + (len - cut) = offset + len by omega] at this

end Cuts

/-- Serving a range inside the stream runs to its end, and when every read and
every send goes through, what was passed on tiles the range in pieces no longer
than the buffer; under an error bound a range of whole elements goes out in whole
elements, each piece ending on the last row boundary in reach, or else after the
most whole elements that fit. -/
theorem serve_pieces {σ ε : Type} {L : SelectionLayout} {bufferLen fuel offset len : Nat}
    {readRange : ReadRange} {send : Nat → List UInt8 → σ → Except ε Unit × σ} {s : σ}
    (hbuffer : L.dtype.itemsize ≤ bufferLen) (htotal : L.totalBytes < Word.size 64)
    (hinside : offset + len ≤ L.totalBytes) (hfuel : len ≤ fuel) :
    serve L bufferLen readRange send fuel offset len s =
        serve L bufferLen readRange send len offset len s ∧
      ∃ pieces, Tiles offset pieces (offset + len) ∧ (∀ piece ∈ pieces, piece.2 ≤ bufferLen) ∧
        (∀ t, serve L bufferLen readRange send fuel offset len s = (.ok (.ok ()), t) ↔
          Passed readRange send pieces s t) ∧
        (L.quality.eps.isSome → L.dtype.itemsize ∣ offset → L.dtype.itemsize ∣ len →
          ∀ piece ∈ pieces, (L.dtype.itemsize ∣ piece.1 ∧ L.dtype.itemsize ∣ piece.2) ∧
            L.CutsWell piece.1 piece.2 (min bufferLen (offset + len - piece.1))) := by
  have hpos : 0 < bufferLen := L.dtype.itemsize_pos.trans_le hbuffer
  refine ⟨serve_fuel hpos hfuel le_rfl, cuts L bufferLen fuel offset len, cuts_tiles hpos hfuel,
    cuts_le, fun t => serve_eq_ok_iff, ?_⟩
  intro hbound hoffset hlen
  exact cuts_cutWell hbound hbuffer hoffset hlen (by omega)

/-- Three rows of two `float32` elements under an error bound, through a buffer
with room for two rows and a half. -/
def threeRows : SelectionLayout where
  outShape := [3, 2]
  dtype := .float32
  srcDtype := .float32
  totalBytes := 24
  quality := { encoding := .errorBound, absErrorBound := some 0x3F50624DD2F1A9FC }
  kind := .contiguous 0 24

example : cuts threeRows 20 24 0 24 = [(0, 16), (16, 8)] := by decide

/-- A send that keeps what it is handed. -/
def logged (offset : Nat) (bytes : List UInt8) (log : List (Nat × List UInt8)) :
    Except Unit Unit × List (Nat × List UInt8) :=
  (.ok (), log ++ [(offset, bytes)])

/-- A source of one byte. -/
def sevens : ReadRange := fun _ len => .ok (Vector.replicate len 7)

/-- The whole of `threeRows`, read and logged. -/
theorem serve_pieces_threeRows :
    (threeRows.dtype.itemsize ≤ 20 ∧ threeRows.totalBytes < Word.size 64 ∧
      0 + 24 ≤ threeRows.totalBytes ∧ 24 ≤ 30) ∧
    serve threeRows 20 sevens logged 30 0 24 [] = serve threeRows 20 sevens logged 24 0 24 [] ∧
      ∃ pieces, Tiles 0 pieces (0 + 24) ∧ (∀ piece ∈ pieces, piece.2 ≤ 20) ∧
        (∀ t, serve threeRows 20 sevens logged 30 0 24 [] = (.ok (.ok ()), t) ↔
          Passed sevens logged pieces [] t) ∧
        (threeRows.quality.eps.isSome → threeRows.dtype.itemsize ∣ 0 →
          threeRows.dtype.itemsize ∣ 24 → ∀ piece ∈ pieces,
            (threeRows.dtype.itemsize ∣ piece.1 ∧ threeRows.dtype.itemsize ∣ piece.2) ∧
              threeRows.CutsWell piece.1 piece.2 (min 20 (0 + 24 - piece.1))) :=
  ⟨by decide, serve_pieces (by decide) (by decide) (by decide) (by decide)⟩

end Aex
