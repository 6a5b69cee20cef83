import Aex.Core.Block

/-!
# What the axes of a block stand for

A block lists the elements of its range in C order over its axes.  Every axis
but the slowest is an axis of the output array, so a codec that predicts along
it predicts from neighbouring elements of the array.
-/

namespace Aex

open Radix

/-- A step of one along axis `k` of a block is a step of one along one axis of the
output array, wherever in the block.  The block starts at element `first`. -/
def IsOutputAxis (outShape dims : List Nat) (first k : Nat) : Prop :=
  ∃ axis < outShape.length, ∀ pos, Within pos dims → Within (pos.modify k (· + 1)) dims →
    coords outShape (first + flat (pos.modify k (· + 1)) dims) =
      (coords outShape (first + flat pos dims)).modify axis (· + 1)

/-- Whole rows over the trailing axes of an output array, past `above` positions of
the axes in front. -/
structure Slab where
  front : List Nat
  tail : List Nat
  rows : Nat
  above : Nat
  positive : ∀ d ∈ rows :: tail, 0 < d

namespace Slab

/-- The output array it is part of. -/
def shape (slab : Slab) : List Nat := slab.front ++ slab.tail

/-- Its axes, without those of length 1. -/
def axes (slab : Slab) : List Nat := (slab.rows :: slab.tail).filter (1 < ·)

/-- Its first element. -/
def first (slab : Slab) : Nat := slab.above * slab.tail.prod

variable {slab : Slab} {k : Nat}

/-- Where an element of a slab is in the output array. -/
theorem coords_shape {r : Nat} {t : List Nat} (h : Within t slab.tail) :
    coords slab.shape (slab.first + flat (r :: t) (slab.rows :: slab.tail)) =
      coords slab.front (slab.above + r) ++ t := by
  have hlt := flat_lt h
  have hrow : slab.first + flat (r :: t) (slab.rows :: slab.tail) =
      (slab.above + r) * slab.tail.prod + flat t slab.tail := by
    rw [first, flat, Nat.add_mul, Nat.add_assoc]
  have habove : ((slab.above + r) * slab.tail.prod + flat t slab.tail) / slab.tail.prod =
      slab.above + r := by
    rw [Nat.add_comm, Nat.add_mul_div_right _ _ (by omega), Nat.div_eq_of_lt hlt, Nat.zero_add]
  rw [hrow, shape, coords_append, habove, coords_add_mul, coords_flat h]

/-- Every axis of a slab but the first is an output axis. -/
theorem isOutputAxis (hpos : 0 < k) (hk : k < slab.axes.length) :
    IsOutputAxis slab.shape slab.axes slab.first k := by
  obtain ⟨i, hle, hlt, hi⟩ := spread_modify hk (· + 1)
  obtain ⟨j, rfl⟩ := Nat.exists_eq_succ_of_ne_zero (show i ≠ 0 by omega)
  refine ⟨slab.front.length + j, ?_, ?_⟩
  · rw [shape, List.length_append]
    rw [List.length_cons] at hlt
    omega
  intro pos hwithin hnext
  have hspread := spread_within slab.positive hwithin
  have hspread' := spread_within slab.positive hnext
  rw [axes, ← flat_spread slab.positive hwithin, ← flat_spread slab.positive hnext]
  rw [hi pos hwithin.length_eq] at hspread' ⊢
  cases hrt : spread (slab.rows :: slab.tail) pos with
  | nil =>
      rw [hrt] at hspread
      cases hspread
  | cons r t =>
      rw [hrt] at hspread hspread'
      rw [Nat.succ_eq_add_one, List.modify_succ_cons] at hspread' ⊢
      cases hspread with
      | cons _ ht =>
          cases hspread' with
          | cons _ ht' =>
              have hfront : (coords slab.front (slab.above + r)).length = slab.front.length :=
                length_coords
              rw [coords_shape ht, coords_shape ht', ← hfront]
              exact (List.modifyTailIdx_add (List.modifyHead (· + 1)) j _ t).symm

end Slab

/-- The axes of whole rows of `inner` elements, gathered into planes where they
make up whole ones, are those of a slab. -/
theorem planeAxes_slab {front : List Nat} {inner rows above : Nat} (hinner : 0 < inner)
    (hrows : 0 < rows) :
    ∃ slab : Slab, slab.shape = front ++ [inner] ∧ slab.first = above * inner ∧
      slab.axes = (planeAxes (front ++ [inner]) rows above inner).filter (1 < ·) := by
  have hflat : ∃ slab : Slab, slab.shape = front ++ [inner] ∧ slab.first = above * inner ∧
      slab.axes = [rows, inner].filter (1 < ·) :=
    ⟨⟨front, [inner], rows, above, by simp [hrows, hinner]⟩, rfl, by simp [Slab.first], rfl⟩
  unfold planeAxes
  extract_lets plane
  split
  · rename_i hplane
    obtain ⟨hone, hwhole, hstart⟩ := hplane
    by_cases hlong : 2 ≤ (front ++ [inner]).length
    · obtain ⟨outer, p, rfl⟩ : ∃ outer p, front = outer ++ [p] := by
        rw [List.length_append, List.length_singleton] at hlong
        exact ⟨_, _, (List.dropLast_append_getLast (List.ne_nil_of_length_pos (by omega))).symm⟩
      have hp : plane = p := by
        simp [plane]
      rw [hp] at hone hwhole hstart ⊢
      refine ⟨⟨outer, [p, inner], rows / p, above / p, ?_⟩, ?_, ?_, rfl⟩
      · have hdiv : 0 < rows / p :=
          Nat.div_pos (Nat.le_of_dvd hrows (Nat.dvd_of_mod_eq_zero hwhole)) (by omega)
        simp [hdiv, hinner]
        omega
      · simp [Slab.shape]
      · rw [Slab.first, List.prod_cons, List.prod_singleton, ← Nat.mul_assoc,
          Nat.div_mul_cancel (Nat.dvd_of_mod_eq_zero hstart)]
    · have hp : plane = 1 := if_neg hlong
      omega
  · exact hflat

/-- A range of whole rows is a slab. -/
theorem slabAxes_slab {outShape axes : List Nat} {itemsize offset len : Nat} (hlen : 0 < len)
    (h : slabAxes outShape itemsize offset len = some axes) :
    ∃ slab : Slab, slab.shape = outShape ∧ slab.first = offset / itemsize ∧ slab.axes = axes := by
  simp only [slabAxes, Option.bind_eq_bind, Option.bind_eq_some_iff] at h
  obtain ⟨inner, hlast, row, hrow, h⟩ := h
  rw [Word.checkedMul_eq_some] at hrow
  obtain ⟨-, rfl⟩ := hrow
  split at h
  · cases h
  rename_i hwhole
  split at h
  · cases h
  obtain rfl := Option.some.inj h
  simp only [not_or, not_not] at hwhole
  obtain ⟨hrow, hoffset, hrows⟩ := hwhole
  obtain ⟨front, rfl⟩ := List.getLast?_eq_some_iff.mp hlast
  have hinner : 0 < inner := Nat.pos_of_mul_pos_right (Nat.pos_of_ne_zero hrow)
  have hitem : 0 < itemsize := Nat.pos_of_mul_pos_left (Nat.pos_of_ne_zero hrow)
  obtain ⟨slab, hshape, hfirst, haxes⟩ := @planeAxes_slab front inner (len / (inner * itemsize))
    (offset / (inner * itemsize)) hinner
    (Nat.div_pos (Nat.le_of_dvd hlen (Nat.dvd_of_mod_eq_zero hrows)) (by omega))
  refine ⟨slab, hshape, ?_, haxes⟩
  rw [hfirst]
  obtain ⟨q, rfl⟩ := Nat.dvd_of_mod_eq_zero hoffset
  rw [Nat.mul_div_cancel_left _ (by omega), Nat.mul_comm inner, Nat.mul_assoc,
    Nat.mul_div_cancel_left _ hitem, Nat.mul_comm]

namespace BlockSpec

variable {outShape : List Nat} {dtype : DType} {eps : F64} {offset len : Nat} {spec : BlockSpec}

/-- A described block has one to three axes, none of length 1 unless it is a single
element, which account for exactly the elements of its range, and every axis but
the first is an axis of the output array. -/
theorem forRange_describes (h : forRange outShape dtype eps offset len = .ok spec) :
    (1 ≤ spec.dims.length ∧ spec.dims.length ≤ 3) ∧
      ((∀ d ∈ spec.dims, 1 < d) ∨ spec.dims = [1] ∧ len / dtype.itemsize = 1) ∧
      spec.dims.prod = len / dtype.itemsize ∧
      ∀ k, 0 < k → k < spec.dims.length →
        IsOutputAxis outShape spec.dims (offset / dtype.itemsize) k := by
  obtain ⟨hpos, hdvd, -⟩ := (forRange_isOk_iff _ _ _ _ _).mp ⟨spec, h⟩
  obtain rfl := forRange_spec h
  have hprod : (axesFor outShape dtype offset len).prod = len / dtype.itemsize :=
    (Nat.div_eq_of_eq_mul_left dtype.itemsize_pos
      (axesFor_prod outShape offset hpos hdvd).symm).symm
  have hcount : 0 < len / dtype.itemsize := Nat.div_pos (Nat.le_of_dvd hpos hdvd) dtype.itemsize_pos
  dsimp only
  unfold axesFor at hprod ⊢
  cases haxes : slabAxes outShape dtype.itemsize offset len with
  | none =>
      refine ⟨by simp, ?_, by simp, ?_⟩
      · rw [Option.getD_none]
        by_cases hone : len / dtype.itemsize = 1
        · exact .inr ⟨by rw [hone], hone⟩
        · exact .inl (by simp; omega)
      · intro k hk hlt
        rw [Option.getD_none, List.length_singleton] at hlt
        omega
  | some axes =>
      rw [haxes, Option.getD_some] at hprod
      obtain ⟨⟨hlow, hhigh⟩, haxis⟩ := slabAxes_axes haxes
      refine ⟨⟨hlow, hhigh⟩, .inl haxis, hprod, ?_⟩
      intro k hk hlt
      obtain ⟨slab, hshape, hfirst, rfl⟩ := slabAxes_slab hpos haxes
      rw [← hshape, ← hfirst]
      exact slab.isOutputAxis hk hlt

/-- Two planes of three rows of four `float32` elements. -/
theorem forRange_describes_planes :
    forRange [5, 3, 4] .float32 0 48 96 = .ok ⟨.float32, [2, 3, 4], 0⟩ ∧
      (1 ≤ [2, 3, 4].length ∧ [2, 3, 4].length ≤ 3) ∧
      ((∀ d ∈ [2, 3, 4], 1 < d) ∨ [2, 3, 4] = [1] ∧ 96 / DType.float32.itemsize = 1) ∧
      [2, 3, 4].prod = 96 / DType.float32.itemsize ∧
      ∀ k, 0 < k → k < [2, 3, 4].length →
        IsOutputAxis [5, 3, 4] [2, 3, 4] (48 / DType.float32.itemsize) k :=
  ⟨by decide, @forRange_describes [5, 3, 4] .float32 0 48 96 ⟨.float32, [2, 3, 4], 0⟩ (by decide)⟩

end BlockSpec

end Aex
