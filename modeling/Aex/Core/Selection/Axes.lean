import Mathlib.Tactic.Linarith
import Mathlib.Tactic.SplitIfs
import Aex.Core.Selection.Numpy

/-!
# One index against one axis

What the code resolves an index to names the positions numpy does, every one of
them on the axis.
-/

namespace Aex

namespace AxisSel

/-- The positions along the axis, in order. -/
def indices : AxisSel → List Nat
  | .point index => [index]
  | .range start len step => (List.range len).map fun k : Nat => (start + k * step : Int).toNat
  | .fancy indices => indices

/-- Every position is one of the `n` of its axis. -/
def Fits (n : Nat) : AxisSel → Prop
  | .point index => index < n
  | .range start len step => ∀ k < len, 0 ≤ (start + k * step : Int) ∧ (start + k * step : Int) < n
  | .fancy indices => ∀ i ∈ indices, i < n

variable {n : Nat} {sel : AxisSel}

theorem length_indices : sel.indices.length = sel.len := by
  cases sel <;> simp [indices, len]

theorem Fits.lt (h : sel.Fits n) : ∀ i ∈ sel.indices, i < n := by
  cases sel with
  | point index =>
      intro i hi
      obtain rfl := List.mem_singleton.mp hi
      exact h
  | range start len step =>
      intro i hi
      obtain ⟨k, hk, rfl⟩ := List.mem_map.mp hi
      have := h k (List.mem_range.mp hk)
      omega
  | fancy indices => exact h

theorem whole_fits : (whole n).Fits n := by
  intro k hk
  omega

theorem indices_whole : (whole n).indices = List.range n := by
  simp [whole, indices]

end AxisSel

/-! ## Integers -/

section Axis

variable {n axis : Nat} {dim : Int} {i : Int64} {start stop step : Option Int64} {sel : AxisSel}

theorem saturatingAddSigned_of_neg (hneg : i.toInt < 0) (hdim : 0 ≤ dim)
    (hmax : dim ≤ Word.signedMax 64) : Word.saturatingAddSigned 64 i.toInt dim = i.toInt + dim := by
  have hlow := i.le_toInt
  simp only [Word.saturatingAddSigned, Word.signedMin, Word.signedMax] at hmax ⊢
  omega

theorem normalizeIndex_ok {p : Nat} (hmax : (n : Int) ≤ Word.signedMax 64)
    (h : normalizeIndex i n axis = .ok p) : Numpy.position n i = some p ∧ p < n := by
  unfold normalizeIndex at h
  unfold Numpy.position
  by_cases hneg : i.toInt < 0
  · simp only [hneg, if_true, saturatingAddSigned_of_neg hneg (Int.natCast_nonneg n) hmax] at h ⊢
    split at h
    · cases h
    · cases h
      rw [if_pos (by omega)]
      exact ⟨rfl, by omega⟩
  · simp only [hneg, if_false] at h ⊢
    split at h
    · cases h
    · cases h
      rw [if_pos (by omega)]
      exact ⟨rfl, by omega⟩

/-- An index array is resolved one index at a time. -/
theorem normalizeIndices_ok {list : List Int64} {ps : List Nat}
    (hmax : (n : Int) ≤ Word.signedMax 64)
    (h : (list.mapM fun i => normalizeIndex i n axis) = .ok ps) :
    list.mapM (Numpy.position n) = some ps ∧ ∀ p ∈ ps, p < n := by
  induction list generalizing ps with
  | nil =>
      cases h
      simp
  | cons i list ih =>
      rw [List.mapM_cons] at h ⊢
      cases hi : normalizeIndex i n axis with
      | error e =>
          rw [hi] at h
          cases h
      | ok p =>
          cases hlist : list.mapM fun i => normalizeIndex i n axis with
          | error e =>
              rw [hi, hlist] at h
              cases h
          | ok more =>
              rw [hi, hlist] at h
              cases h
              obtain ⟨hp, hlt⟩ := normalizeIndex_ok hmax hi
              obtain ⟨hmore, hlts⟩ := ih hlist
              rw [hp, hmore]
              refine ⟨rfl, ?_⟩
              intro q hq
              rcases List.mem_cons.mp hq with rfl | hq
              · exact hlt
              · exact hlts q hq

/-! ## Slices -/

/-- Clamping to the range of the direction is Python's clipping. -/
theorem clampBound_eq {s : Int} (hmax : (n : Int) ≤ Word.signedMax 64) (hs : s ≠ 0) :
    clampBound (if 0 < s then 0 else -1) (if 0 < s then n else n - 1) n i = Numpy.clip s n i := by
  unfold clampBound Numpy.clip
  by_cases hneg : i.toInt < 0
  · simp only [hneg, if_true, saturatingAddSigned_of_neg hneg (Int.natCast_nonneg n) hmax]
    split <;> split <;> omega
  · simp only [hneg, if_false]
    split <;> split <;> omega

theorem clip_bounds {s : Int} :
    (0 < s → 0 ≤ Numpy.clip s n i ∧ Numpy.clip s n i ≤ n) ∧
      (s < 0 → -1 ≤ Numpy.clip s n i ∧ Numpy.clip s n i ≤ n - 1) := by
  unfold Numpy.clip
  dsimp only
  constructor <;> intro hs <;> split_ifs <;> omega

/-- A prefix of a range is what the test holds for, when it holds for that alone. -/
theorem takeWhile_map_range {α : Type} {f : Nat → α} {p : α → Bool} {m : Nat} (hm : m ≤ n)
    (h : ∀ k < n, p (f k) = true ↔ k < m) :
    ((List.range n).map f).takeWhile p = (List.range m).map f := by
  obtain ⟨more, rfl⟩ := Nat.exists_eq_add_of_le hm
  rw [List.range_add, List.map_append, List.takeWhile_append_of_pos]
  · cases more with
    | zero => simp
    | succ more =>
        have hstop : p (f m) = false := by
          have := h m (by omega)
          simpa using this
        simp [List.range_succ_eq_map, hstop]
  · intro x hx
    obtain ⟨k, hk, rfl⟩ := List.mem_map.mp hx
    have hk := List.mem_range.mp hk
    exact (h k (by omega)).mpr hk

/-- How many steps of `s` stay below a distance of `d`. -/
theorem lt_steps_iff {d s k : Int} (hs : 0 < s) : k * s < d ↔ k < 1 + (d - 1) / s := by
  have := Int.le_ediv_iff_mul_le (a := k) (b := d - 1) hs
  omega

theorem steps_le {d s : Int} (hd : 0 < d) : 1 + (d - 1) / s ≤ d := by
  have := Int.ediv_le_self s (show 0 ≤ d - 1 by omega)
  omega

theorem sliceStart_bounds (s : Int) (n : Nat) (start : Option Int64) :
    (0 < s → 0 ≤ Numpy.sliceStart s n start ∧ Numpy.sliceStart s n start ≤ n) ∧
      (s < 0 → -1 ≤ Numpy.sliceStart s n start ∧ Numpy.sliceStart s n start ≤ n - 1) := by
  cases start with
  | some bound => exact clip_bounds
  | none =>
      simp only [Numpy.sliceStart]
      constructor <;> intro hs <;> split <;> omega

theorem sliceStop_bounds (s : Int) (n : Nat) (stop : Option Int64) :
    (0 < s → 0 ≤ Numpy.sliceStop s n stop ∧ Numpy.sliceStop s n stop ≤ n) ∧
      (s < 0 → -1 ≤ Numpy.sliceStop s n stop ∧ Numpy.sliceStop s n stop ≤ n - 1) := by
  cases stop with
  | some bound => exact clip_bounds
  | none =>
      simp only [Numpy.sliceStop]
      constructor <;> intro hs <;> split <;> omega

/-- How far a slice from `a` to `b` goes in its direction. -/
def sliceDistance (s a b : Int) : Int := if 0 < s then b - a else a - b

/-- How many steps fit into a distance. -/
def sliceLen (s d : Int) : Int := if 0 < d then 1 + (d - 1) / s.natAbs else 0

/-- The steps of a slice that have not reached its end. -/
theorem lt_sliceLen_iff {s a b : Int} (hs : s ≠ 0) {k : Int} (hk : 0 ≤ k) :
    k < sliceLen s (sliceDistance s a b) ↔ if s < 0 then b < a + k * s else a + k * s < b := by
  have habs : 0 < (s.natAbs : Int) := by omega
  have hdist : k * s.natAbs < sliceDistance s a b ↔
      if s < 0 then b < a + k * s else a + k * s < b := by
    unfold sliceDistance
    by_cases hneg : s < 0
    · rw [if_neg (by omega), if_pos hneg, show (s.natAbs : Int) = -s by omega, Int.mul_neg]
      omega
    · rw [if_pos (by omega), if_neg hneg, show (s.natAbs : Int) = s by omega]
      omega
  rw [← hdist]
  unfold sliceLen
  split
  · exact (lt_steps_iff habs).symm
  · have := Int.mul_nonneg hk habs.le
    omega

theorem sliceLen_le {s d : Int} (hd : d ≤ n) : sliceLen s d ≤ n := by
  unfold sliceLen
  split
  · rename_i hpos
    exact (steps_le hpos).trans hd
  · omega

theorem sliceLen_nonneg {s d : Int} : 0 ≤ sliceLen s d := by
  unfold sliceLen
  split
  · rename_i hpos
    have := Int.ediv_nonneg (show 0 ≤ d - 1 by omega) (Int.natCast_nonneg s.natAbs)
    omega
  · exact le_rfl

/-- A slice in terms of Python's bounds. -/
theorem resolveSlice_eq (hmax : (n : Int) ≤ Word.signedMax 64) {s : Int}
    (hstep : (step.map Int64.toInt).getD 1 = s) (hs : s ≠ 0) :
    resolveSlice start stop step n =
      let a := Numpy.sliceStart s n start
      let len := sliceLen s (sliceDistance s a (Numpy.sliceStop s n stop))
      .ok (if len = 0 then .range 0 0 s else .range a.toNat len.toNat s) := by
  have hfirst : (if 0 < s then 0 else (n : Int) - 1) = if s < 0 then (n : Int) - 1 else 0 := by
    split <;> split <;> omega
  have hlast : (if 0 < s then (n : Int) else -1) = if s < 0 then -1 else (n : Int) := by
    split <;> split <;> omega
  unfold resolveSlice
  rw [hstep, if_neg hs, apply_ite Except.ok]
  cases start <;> cases stop <;>
    simp only [clampBound_eq hmax hs, hfirst, hlast, Numpy.sliceStart, Numpy.sliceStop, sliceLen,
      sliceDistance] <;>
    rfl

/-- A slice is resolved to the positions Python gives it. -/
theorem resolveSlice_ok (hmax : (n : Int) ≤ Word.signedMax 64)
    (h : resolveSlice start stop step n = .ok sel) :
    Numpy.positions n start stop step = some sel.indices ∧ sel.Fits n ∧
      ∃ first len s, sel = .range first len s := by
  by_cases hs : (step.map Int64.toInt).getD 1 = 0
  · simp [resolveSlice, hs] at h
  rw [resolveSlice_eq hmax rfl hs] at h
  unfold Numpy.positions
  dsimp only at h ⊢
  rw [if_neg hs]
  generalize (step.map Int64.toInt).getD 1 = s at h hs ⊢
  obtain ⟨hapos, haneg⟩ := sliceStart_bounds s n start
  obtain ⟨hbpos, hbneg⟩ := sliceStop_bounds s n stop
  generalize Numpy.sliceStart s n start = a at *
  generalize Numpy.sliceStop s n stop = b at *
  have hreach := fun k : Nat => lt_sliceLen_iff (a := a) (b := b) hs (Int.natCast_nonneg k)
  have hle : sliceLen s (sliceDistance s a b) ≤ n := by
    apply sliceLen_le
    unfold sliceDistance
    split <;> omega
  have hnonneg : 0 ≤ sliceLen s (sliceDistance s a b) := sliceLen_nonneg
  generalize sliceLen s (sliceDistance s a b) = len at *
  have hwalk := takeWhile_map_range (n := n) (f := fun k : Nat => a + k * s)
    (p := fun i => if s < 0 then b < i else i < b) (m := len.toNat) (by omega) fun k _ => by
      rw [show k < len.toNat ↔ (k : Int) < len by omega, hreach k]
      split <;> simp
  rw [hwalk]
  by_cases hlen : len = 0
  · rw [if_pos hlen] at h
    cases h
    refine ⟨by simp [hlen, AxisSel.indices], fun k hk => ?_, _, _, _, rfl⟩
    exact absurd hk (Nat.not_lt_zero k)
  · rw [if_neg hlen] at h
    cases h
    have hfits : ∀ k : Nat, k < len.toNat → 0 ≤ a + k * s ∧ a + k * s < n := by
      intro k hk
      have hin := (hreach k).mp (by omega)
      by_cases hneg : s < 0
      · rw [if_pos hneg] at hin
        have := mul_nonneg (Int.natCast_nonneg k) (show 0 ≤ -s by omega)
        rw [Int.mul_neg] at this
        omega
      · rw [if_neg hneg] at hin
        have := mul_nonneg (Int.natCast_nonneg k) (show 0 ≤ s by omega)
        omega
    have ha : (a.toNat : Int) = a := by
      have := hfits 0 (by omega)
      omega
    refine ⟨?_, ?_, _, _, _, rfl⟩
    · simp only [AxisSel.indices, List.map_map, ha, Function.comp_def]
    · intro k hk
      rw [ha]
      exact hfits k hk

end Axis

end Aex
