import Mathlib.Data.Nat.Basic
import Mathlib.Algebra.Order.Floor.Div
import Mathlib.Data.List.Count

/-!
# Tilings of a range

A list of ranges `(offset, length)` that follow one another without gap or
overlap, and the cut of a range into pieces of one length.
-/

namespace Tiling

/-- The ranges tile `[start, stop)` in order, none of them empty. -/
def Tiles : Nat → List (Nat × Nat) → Nat → Prop
  | start, [], stop => start = stop
  | start, (offset, len) :: ranges, stop =>
      offset = start ∧ 0 < len ∧ Tiles (start + len) ranges stop

/-- Cut `[0, total)` every `step`. -/
def cut (step total : Nat) : List (Nat × Nat) :=
  (List.range (total ⌈/⌉ step)).map fun k => (k * step, min step (total - k * step))

variable {start mid stop step total d : Nat} {ranges more : List (Nat × Nat)} {range : Nat × Nat}

theorem Tiles.append (h : Tiles start ranges mid) (h' : Tiles mid more stop) :
    Tiles start (ranges ++ more) stop := by
  induction ranges generalizing start with
  | nil =>
      obtain rfl : start = mid := h
      exact h'
  | cons range ranges ih => exact ⟨h.1, h.2.1, ih h.2.2⟩

theorem Tiles.le (h : Tiles start ranges stop) : start ≤ stop := by
  induction ranges generalizing start with
  | nil => exact Nat.le_of_eq h
  | cons range ranges ih =>
      have := ih h.2.2
      omega

theorem Tiles.bounds (h : Tiles start ranges stop) (hrange : range ∈ ranges) :
    start ≤ range.1 ∧ 0 < range.2 ∧ range.1 + range.2 ≤ stop := by
  induction ranges generalizing start with
  | nil => cases hrange
  | cons first ranges ih =>
      obtain ⟨rfl, hpos, hrest⟩ := h
      rcases List.mem_cons.mp hrange with rfl | hrange
      · exact ⟨Nat.le_refl _, hpos, hrest.le⟩
      · have := ih hrest hrange
        omega

/-- Pieces of whole units make up a whole number of them. -/
theorem Tiles.dvd (h : Tiles start ranges stop) (hdvd : ∀ range ∈ ranges, d ∣ range.2) :
    d ∣ stop - start := by
  induction ranges generalizing start with
  | nil =>
      obtain rfl : start = stop := h
      simp
  | cons first ranges ih =>
      obtain ⟨rfl, hpos, hrest⟩ := h
      have hfirst := hdvd first List.mem_cons_self
      have := ih hrest fun range hrange => hdvd range (List.mem_cons_of_mem _ hrange)
      have hle := hrest.le
      rw [show stop - first.1 = first.2 + (stop - (first.1 + first.2)) by omega]
      exact Nat.dvd_add hfirst this

theorem lt_total_of_lt_ceilDiv (hstep : 0 < step) {k : Nat} (hk : k < total ⌈/⌉ step) :
    k * step < total := by
  by_contra h
  have : total ⌈/⌉ step ≤ k := by
    rw [ceilDiv_le_iff_le_mul hstep]
    rw [Nat.mul_comm]
    omega
  omega

theorem mem_cut (hstep : 0 < step) (h : range ∈ cut step total) :
    ∃ k, range = (k * step, min step (total - k * step)) ∧ k * step < total := by
  obtain ⟨k, hk, rfl⟩ := List.mem_map.mp h
  exact ⟨k, rfl, lt_total_of_lt_ceilDiv hstep (List.mem_range.mp hk)⟩

/-- Cutting at regular positions tiles the range. -/
theorem tiles_cut (hstep : 0 < step) : Tiles 0 (cut step total) total := by
  suffices h : ∀ n, n ≤ total ⌈/⌉ step →
      Tiles 0 ((List.range n).map fun k => (k * step, min step (total - k * step)))
        (min (n * step) total) by
    have hall := h _ (Nat.le_refl _)
    have hle : total ≤ (total ⌈/⌉ step) * step := by
      have := (ceilDiv_le_iff_le_mul (a := step) (b := total) (c := total ⌈/⌉ step) hstep).mp le_rfl
      rwa [Nat.mul_comm]
    rwa [Nat.min_eq_right hle] at hall
  intro n hn
  induction n with
  | zero => simp [Tiles]
  | succ n ih =>
      have hlt := lt_total_of_lt_ceilDiv hstep (show n < total ⌈/⌉ step by omega)
      rw [List.range_succ, List.map_append]
      refine (ih (by omega)).append ⟨by omega, by omega, ?_⟩
      show _ = _
      rw [Nat.succ_mul]
      omega

/-- The first piece of a range longer than one step. -/
theorem mem_cut_first (hstep : 0 < step) (h : step < total) : (0, step) ∈ cut step total := by
  refine List.mem_map.mpr ⟨0, List.mem_range.mpr ?_, by simp; omega⟩
  by_contra hzero
  have := (ceilDiv_le_iff_le_mul (a := step) (b := total) (c := 0) hstep).mp (by omega)
  omega

/-! ## Whole steps around a range -/

/-- The steps from the one a range starts in to the one it ends in are those it meets. -/
theorem meets_iff (hstep : 0 < step) (at_ len i : Nat) :
    at_ / step ≤ i ∧ i < (at_ + len) ⌈/⌉ step ↔ at_ < (i + 1) * step ∧ i * step < at_ + len := by
  have hlow : at_ / step ≤ i ↔ at_ < (i + 1) * step := by
    rw [← Nat.lt_succ_iff, Nat.div_lt_iff_lt_mul hstep]
  have hhigh : i < (at_ + len) ⌈/⌉ step ↔ i * step < at_ + len := by
    rw [← Nat.not_le, ceilDiv_le_iff_le_mul hstep, Nat.mul_comm, Nat.not_le]
  rw [hlow, hhigh]

/-- The steps that a range touches, and no more of them. -/
theorem exists_steps (hstep : 0 < step) (at_ len : Nat) :
    ∃ count, (at_ + len) ⌈/⌉ step = at_ / step + count ∧ at_ / step * step ≤ at_ ∧
      at_ < at_ / step * step + step ∧ at_ + len ≤ (at_ / step + count) * step ∧
      ∀ n, at_ + len ≤ n * step → at_ / step + count ≤ n := by
  have hceil : ∀ n, (at_ + len) ⌈/⌉ step ≤ n ↔ at_ + len ≤ n * step := by
    intro n
    rw [ceilDiv_le_iff_le_mul hstep, Nat.mul_comm]
  have hlow := Nat.div_mul_le_self at_ step
  have hhigh : at_ < at_ / step * step + step := Nat.lt_div_mul_add hstep
  have hle : at_ / step ≤ (at_ + len) ⌈/⌉ step := by
    rw [Nat.div_le_iff_le_mul hstep]
    have := (hceil _).mp le_rfl
    omega
  obtain ⟨count, hcount⟩ := Nat.exists_eq_add_of_le hle
  rw [hcount] at hceil
  exact ⟨count, hcount, hlow, hhigh, (hceil _).mp le_rfl, fun n => (hceil n).mpr⟩

/-! ## Tilings in any order -/

/-- Whether a position lies in a range. -/
def holds (p : Nat) (range : Nat × Nat) : Bool := range.1 ≤ p && p < range.1 + range.2

/-- The ranges tile `[0, total)` in some order, none of them empty. -/
structure Partitions (ranges : List (Nat × Nat)) (total : Nat) : Prop where
  nonempty : ∀ range ∈ ranges, 0 < range.2
  once : ∀ p, ranges.countP (holds p) = if p < total then 1 else 0

theorem Tiles.countP_holds (h : Tiles start ranges stop) (p : Nat) :
    ranges.countP (holds p) = if start ≤ p ∧ p < stop then 1 else 0 := by
  induction ranges generalizing start with
  | nil =>
      obtain rfl : start = stop := h
      rw [if_neg (by omega)]
      rfl
  | cons range ranges ih =>
      obtain ⟨rfl, hpos, hrest⟩ := h
      have hle := hrest.le
      rw [List.countP_cons, ih hrest]
      simp only [holds, Bool.and_eq_true, decide_eq_true_eq]
      split <;> split <;> split <;> omega

theorem Tiles.partitions (h : Tiles 0 ranges stop) : Partitions ranges stop where
  nonempty range hrange := (h.bounds hrange).2.1
  once p := by simp [h.countP_holds p]

theorem Partitions.le (h : Partitions ranges stop) (hrange : range ∈ ranges) :
    range.1 + range.2 ≤ stop := by
  have hpos := h.nonempty range hrange
  have hlast := h.once (range.1 + range.2 - 1)
  have hcount : 0 < ranges.countP (holds (range.1 + range.2 - 1)) :=
    List.countP_pos_iff.mpr ⟨range, hrange, by simp [holds]; omega⟩
  split at hlast <;> omega

end Tiling
