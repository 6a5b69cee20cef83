import Aex.Lib.Tiling
import Aex.Core.Selection.Layout

/-!
# The read half of a data connection

A fetched range is read in pieces no longer than the connection's buffer.  The
pieces of an error-bounded transfer end where a row of the output array does, or
on an element when no row ends in reach.
-/

namespace Aex

open Tiling (Tiles)

/-- Where a piece ends when it is cut on a row, or else on an element. -/
def alignedCut (L : SelectionLayout) (offset piece : Nat) : Nat :=
  match L.rowBytes with
  | some row =>
      if (offset + piece) % row < piece then piece - (offset + piece) % row
      else piece - piece % L.dtype.itemsize
  | none => piece - piece % L.dtype.itemsize

/-- Cut a piece so that it ends where a row of the output array does.  Whatever
happens, a piece has to move the range forward. -/
def rowAligned (L : SelectionLayout) (offset piece : Nat) : Nat :=
  if L.quality.eps.isNone then piece
  else if alignedCut L offset piece = 0 then piece
  else alignedCut L offset piece

/-- A backend's answer to one read: the bytes of the range, or a failure. -/
abbrev ReadRange := (offset len : Nat) → Except AexError (Vector UInt8 len)

/-- Read `[offset, offset + len)` in pieces of at most `bufferLen`, handing each
to `send`.  A failed read stops the range and is the inner result; a failed
`send` is the outer one.  Every piece moves the range on, so `len` is enough fuel. -/
def serve {σ ε : Type} (L : SelectionLayout) (bufferLen : Nat) (readRange : ReadRange)
    (send : Nat → List UInt8 → σ → Except ε Unit × σ) :
    Nat → Nat → Nat → σ → Except ε (Except AexError Unit) × σ
  | 0, _, _, s => (.ok (.ok ()), s)
  | fuel + 1, offset, len, s =>
      if len = 0 then (.ok (.ok ()), s)
      else
        let piece := rowAligned L offset (min len bufferLen)
        match readRange offset piece with
        | .error e => (.ok (.error e), s)
        | .ok bytes =>
            match send offset bytes.toList s with
            | (.error e, s) => (.error e, s)
            | (.ok (), s) => serve L bufferLen readRange send fuel (offset + piece) (len - piece) s

/-- Where `serve` cuts a range. -/
def cuts (L : SelectionLayout) (bufferLen : Nat) : Nat → Nat → Nat → List (Nat × Nat)
  | 0, _, _ => []
  | fuel + 1, offset, len =>
      if len = 0 then []
      else
        let piece := rowAligned L offset (min len bufferLen)
        (offset, piece) :: cuts L bufferLen fuel (offset + piece) (len - piece)

variable {L : SelectionLayout} {bufferLen offset len piece : Nat}

theorem alignedCut_le : alignedCut L offset piece ≤ piece := by
  unfold alignedCut
  split
  · split <;> omega
  · omega

/-- A piece that starts on an element and has room for one keeps whole elements. -/
theorem alignedCut_spec (hoffset : L.dtype.itemsize ∣ offset) (hpiece : L.dtype.itemsize ≤ piece) :
    0 < alignedCut L offset piece ∧ L.dtype.itemsize ∣ alignedCut L offset piece := by
  have hmod := Nat.mod_lt piece L.dtype.itemsize_pos
  unfold alignedCut
  split
  · rename_i row hrow
    split
    · rename_i hreach
      refine ⟨by omega, ?_⟩
      have hrow := (SelectionLayout.itemsize_dvd_rowBytes hrow).2
      have hend : L.dtype.itemsize ∣ offset + (piece - (offset + piece) % row) := by
        rw [← Nat.add_sub_assoc hreach.le]
        exact hrow.trans (Nat.dvd_sub_mod _)
      exact (Nat.dvd_add_right hoffset).mp hend
    · exact ⟨by omega, Nat.dvd_sub_mod _⟩
  · exact ⟨by omega, Nat.dvd_sub_mod _⟩

theorem rowAligned_pos (h : 0 < piece) : 0 < rowAligned L offset piece := by
  unfold rowAligned
  split
  · exact h
  · split <;> omega

theorem rowAligned_le (L : SelectionLayout) (offset piece : Nat) :
    rowAligned L offset piece ≤ piece := by
  unfold rowAligned
  split
  · exact Nat.le_refl _
  · split
    · exact Nat.le_refl _
    · exact alignedCut_le

theorem itemsize_dvd_rowAligned (hoffset : L.dtype.itemsize ∣ offset)
    (hpiece : L.dtype.itemsize ≤ piece) (hwhole : L.quality.eps = none → L.dtype.itemsize ∣ piece) :
    L.dtype.itemsize ∣ rowAligned L offset piece := by
  obtain ⟨hpos, hdvd⟩ := alignedCut_spec hoffset hpiece
  unfold rowAligned
  split
  · rename_i heps
    exact hwhole (Option.isNone_iff_eq_none.mp heps)
  · rw [if_neg hpos.ne']
    exact hdvd

/-! ## Where a range is cut -/

variable {fuel : Nat}

/-- The pieces of a range tile it. -/
theorem cuts_tiles (hbuffer : 0 < bufferLen) (hfuel : len ≤ fuel) :
    Tiles offset (cuts L bufferLen fuel offset len) (offset + len) := by
  induction fuel generalizing offset len with
  | zero =>
      obtain rfl : len = 0 := by omega
      exact rfl
  | succ fuel ih =>
      rw [cuts]
      by_cases hlen : len = 0
      · rw [if_pos hlen, hlen]
        exact rfl
      · rw [if_neg hlen]
        have hpos : 0 < rowAligned L offset (min len bufferLen) := rowAligned_pos (by omega)
        have hle := rowAligned_le L offset (min len bufferLen)
        refine ⟨rfl, hpos, ?_⟩
        have := @ih (offset + rowAligned L offset (min len bufferLen))
          (len - rowAligned L offset (min len bufferLen)) (by omega)
        rwa [show offset + rowAligned L offset (min len bufferLen) +
          (len - rowAligned L offset (min len bufferLen)) = offset + len by omega] at this

/-- With a buffer of whole elements, the pieces of a range of whole elements hold
whole elements. -/
theorem cuts_whole (hbuffer : 0 < bufferLen) (hwhole : L.dtype.itemsize ∣ bufferLen)
    (hoffset : L.dtype.itemsize ∣ offset) (hlen : L.dtype.itemsize ∣ len) :
    ∀ piece ∈ cuts L bufferLen fuel offset len, L.dtype.itemsize ∣ piece.2 := by
  induction fuel generalizing offset len with
  | zero => simp [cuts]
  | succ fuel ih =>
      rw [cuts]
      by_cases hzero : len = 0
      · simp [hzero]
      rw [if_neg hzero]
      have hmin : L.dtype.itemsize ∣ min len bufferLen := by
        rcases Nat.le_total len bufferLen with h | h
        · rwa [Nat.min_eq_left h]
        · rwa [Nat.min_eq_right h]
      have hpiece : L.dtype.itemsize ∣ rowAligned L offset (min len bufferLen) :=
        itemsize_dvd_rowAligned hoffset (Nat.le_of_dvd (by omega) hmin) fun _ => hmin
      intro piece hmem
      rcases List.mem_cons.mp hmem with rfl | hmem
      · exact hpiece
      · exact ih (Nat.dvd_add hoffset hpiece) (Nat.dvd_sub hlen hpiece) piece hmem

theorem cuts_le : ∀ piece ∈ cuts L bufferLen fuel offset len, piece.2 ≤ bufferLen := by
  induction fuel generalizing offset len with
  | zero => simp [cuts]
  | succ fuel ih =>
      rw [cuts]
      split
      · simp
      · intro piece hmem
        rcases List.mem_cons.mp hmem with rfl | hmem
        · have := rowAligned_le L offset (min len bufferLen)
          dsimp only
          omega
        · exact ih piece hmem

end Aex
