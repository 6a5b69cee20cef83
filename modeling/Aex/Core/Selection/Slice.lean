import Aex.Core.Selection.Axes

/-!
# Slices over machine integers

Resolving a slice works in 64 bits, and in 128 for the distance.  Every step that
could leave its width or panic is made visible here; on any axis a backend can
report none of them does, and the range that comes out is Python's.
-/

namespace Aex

/-! ## Python's own definition -/

namespace Python

/-- `range(a, b, s)`: from `a` on, as long as `b` is not reached. -/
def range (a b s : Int) : List Int :=
  if 0 < s ∧ a < b then a :: range (a + s) b s
  else if s < 0 ∧ b < a then a :: range (a + s) b s
  else []
termination_by (if 0 < s then b - a else a - b).toNat
decreasing_by all_goals grind

/-- `slice(start, stop, step).indices(n)`. -/
def indices (start stop step : Option Int64) (n : Nat) : Int × Int × Int :=
  let s := (step.map Int64.toInt).getD 1
  (Numpy.sliceStart s n start, Numpy.sliceStop s n stop, s)

/-- `range(*slice(start, stop, step).indices(n))`. -/
def sliceRange (start stop step : Option Int64) (n : Nat) : List Int :=
  let (a, b, s) := indices start stop step n
  range a b s

end Python

/-! ## What the machine does -/

/-- Fold a slice bound and clamp it.  Clamping panics when the bounds cross. -/
def clampBoundChecked (lower upper dim : Int) (bound : Int64) : Option Int :=
  let folded :=
    if bound.toInt < 0 then Word.saturatingAddSigned 64 bound.toInt dim else bound.toInt
  if lower ≤ upper then some (max lower (min folded upper)) else none

/-- A bound, or what stands for a missing one. -/
def sliceBoundChecked (lower upper dim : Int) (missing : Option Int) : Option Int64 → Option Int
  | some bound => clampBoundChecked lower upper dim bound
  | none => missing

/-- The ceiling division of the distance by the stride. -/
def sliceLenChecked (step distance : Int) : Option Int :=
  if 0 < distance then do
    let last ← Word.checkedSigned 128 (distance - 1)
    Word.checkedSigned 128 (1 + last / step.natAbs)
  else some 0

/-- `resolveSlice` with every overflow and panic visible. -/
def resolveSliceChecked (start stop step : Option Int64) (dim : Int) :
    Option (Except AexError AxisSel) :=
  let step := (step.map Int64.toInt).getD 1
  if step = 0 then some (.error (.badSelection "slice step cannot be 0"))
  else do
    let lower : Int := if 0 < step then 0 else -1
    let upper ← Word.checkedSigned 64 (if 0 < step then dim else dim - 1)
    let start ← sliceBoundChecked lower upper dim
      (Word.checkedSigned 64 (if 0 < step then 0 else dim - 1)) start
    let stop ← sliceBoundChecked lower upper dim (some (if 0 < step then dim else -1)) stop
    let distance ← Word.checkedSigned 128 (if 0 < step then stop - start else start - stop)
    let len ← sliceLenChecked step distance
    some (.ok (if len = 0 then .range 0 0 step
      else .range (Word.ofSigned 64 start) (Word.ofSigned 64 len) step))

section Slice

variable {a b s : Int} {n m : Nat} {start stop step : Option Int64}

/-- A range has its first `m` terms when those are the ones before its end. -/
theorem Python.range_eq_map (hs : s ≠ 0)
    (h : ∀ k : Nat, k < m ↔ if s < 0 then b < a + k * s else a + k * s < b) :
    Python.range a b s = (List.range m).map fun k : Nat => a + k * s := by
  have hfirst := h 0
  induction m generalizing a with
  | zero =>
      rw [Python.range]
      grind
  | succ m ih =>
      have htail : Python.range (a + s) b s =
          (List.range m).map fun k : Nat => a + s + k * s := by
        have hshift : ∀ k : Nat,
            k < m ↔ if s < 0 then b < a + s + k * s else a + s + k * s < b := by
          intro k
          have := h (k + 1)
          rw [Nat.cast_succ, Int.add_mul, Int.one_mul] at this
          rw [show a + s + k * s = a + (k * s + s) by omega, ← this]
          omega
        exact ih hshift (hshift 0)
      have hcons : Python.range a b s = a :: Python.range (a + s) b s := by
        rw [Python.range]
        grind
      rw [hcons, htail, List.range_succ_eq_map, List.map_cons, List.map_map]
      congr 1
      · simp
      · apply List.map_congr_left
        intro k _
        simp only [Function.comp_apply, Nat.cast_succ]
        rw [Int.add_mul]
        omega

/-- The terms of a slice are counted by its length. -/
theorem Python.range_eq_sliceLen (hs : s ≠ 0) :
    Python.range a b s =
      (List.range (sliceLen s (sliceDistance s a b)).toNat).map fun k : Nat => a + k * s := by
  apply Python.range_eq_map hs
  intro k
  rw [← lt_sliceLen_iff hs (Int.natCast_nonneg k)]
  omega

/-- Clamping never meets crossed bounds. -/
theorem clampBoundChecked_eq (hmax : (n : Int) ≤ Word.signedMax 64) (hs : s ≠ 0) (bound : Int64) :
    clampBoundChecked (if 0 < s then 0 else -1) (if 0 < s then n else n - 1) n bound =
      some (Numpy.clip s n bound) := by
  rw [← clampBound_eq hmax hs]
  unfold clampBoundChecked clampBound
  apply if_pos
  split <;> omega

theorem sliceStartChecked_eq (hmax : (n : Int) ≤ Word.signedMax 64) (hs : s ≠ 0) :
    sliceBoundChecked (if 0 < s then 0 else -1) (if 0 < s then n else n - 1) n
      (some (if 0 < s then 0 else (n : Int) - 1)) start = some (Numpy.sliceStart s n start) := by
  cases start with
  | some bound => exact clampBoundChecked_eq hmax hs bound
  | none =>
      unfold sliceBoundChecked Numpy.sliceStart
      grind

theorem sliceStopChecked_eq (hmax : (n : Int) ≤ Word.signedMax 64) (hs : s ≠ 0) :
    sliceBoundChecked (if 0 < s then 0 else -1) (if 0 < s then n else n - 1) n
      (some (if 0 < s then (n : Int) else -1)) stop = some (Numpy.sliceStop s n stop) := by
  cases stop with
  | some bound => exact clampBoundChecked_eq hmax hs bound
  | none =>
      unfold sliceBoundChecked Numpy.sliceStop
      grind

/-- The distance of a slice is at most the axis. -/
theorem sliceDistance_bound (hs : s ≠ 0) :
    (sliceDistance s (Numpy.sliceStart s n start) (Numpy.sliceStop s n stop)).natAbs ≤ n := by
  have hstart := sliceStart_bounds s n start
  have hstop := sliceStop_bounds s n stop
  unfold sliceDistance
  split <;> omega

/-- The division stays in range where the distance does. -/
theorem sliceLenChecked_eq {d : Int} (hd : d ≤ Word.signedMax 64) :
    sliceLenChecked s d = some (sliceLen s d) := by
  have hwide : Word.signedMax 64 < Word.signedMax 128 := by decide
  have hmin : Word.signedMin 128 ≤ 0 := by decide
  unfold sliceLenChecked sliceLen
  split
  · rename_i hpos
    have hle := steps_le (s := (s.natAbs : Int)) hpos
    have hnonneg := Int.ediv_nonneg (show 0 ≤ d - 1 by omega) (Int.natCast_nonneg s.natAbs)
    rw [Word.checkedSigned_of_mem (by omega) (by omega), Option.bind_eq_bind, Option.bind_some,
      Word.checkedSigned_of_mem (by omega) (by omega)]
  · rfl

/-- A slice that selects something starts on the axis. -/
theorem sliceStart_nonneg (hs : s ≠ 0)
    (hlen : sliceLen s (sliceDistance s (Numpy.sliceStart s n start)
      (Numpy.sliceStop s n stop)) ≠ 0) : 0 ≤ Numpy.sliceStart s n start := by
  have hstart := sliceStart_bounds s n start
  have hstop := sliceStop_bounds s n stop
  generalize Numpy.sliceStart s n start = a at *
  generalize Numpy.sliceStop s n stop = b at *
  have hnonneg := sliceLen_nonneg (s := s) (d := sliceDistance s a b)
  have hfirst := (lt_sliceLen_iff hs le_rfl).mp
    (show (0 : Int) < sliceLen s (sliceDistance s a b) by omega)
  split at hfirst <;> omega

/-- No step of the resolution overflows or panics on an axis that can be reported. -/
theorem resolveSliceChecked_eq (hmax : (n : Int) ≤ Word.signedMax 64) :
    resolveSliceChecked start stop step n = some (resolveSlice start stop step n) := by
  obtain ⟨s, hstep⟩ : ∃ s, (step.map Int64.toInt).getD 1 = s := ⟨_, rfl⟩
  by_cases hs : s = 0
  · simp [resolveSliceChecked, resolveSlice, hstep, hs]
  have hmin : Word.signedMin 64 ≤ -1 := by decide
  have hupper : Word.checkedSigned 64 (if 0 < s then (n : Int) else n - 1) =
      some (if 0 < s then (n : Int) else n - 1) :=
    Word.checkedSigned_of_mem (by omega) (by omega)
  have hfirst : Word.checkedSigned 64 (if 0 < s then 0 else (n : Int) - 1) =
      some (if 0 < s then 0 else (n : Int) - 1) :=
    Word.checkedSigned_of_mem (by omega) (by omega)
  have hbound := @sliceDistance_bound s n start stop hs
  have hstart := sliceStart_bounds s n start
  have hnonneg := @sliceStart_nonneg s n start stop hs
  rw [resolveSlice_eq hmax hstep hs]
  unfold resolveSliceChecked
  simp only [hstep, if_neg hs, hupper, hfirst, sliceStartChecked_eq hmax hs,
    sliceStopChecked_eq hmax hs, Option.bind_eq_bind, Option.bind_some]
  generalize Numpy.sliceStart s n start = a at *
  generalize Numpy.sliceStop s n stop = b at *
  have hdistance : Word.checkedSigned 128 (if 0 < s then b - a else a - b) =
      some (sliceDistance s a b) := by
    have hwide : Word.signedMax 64 < Word.signedMax 128 := by decide
    have hmin : Word.signedMin 128 ≤ -Word.signedMax 64 := by decide
    rw [← sliceDistance]
    exact Word.checkedSigned_of_mem (by omega) (by omega)
  have hle : sliceLen s (sliceDistance s a b) ≤ n := sliceLen_le (by omega)
  have hlen : 0 ≤ sliceLen s (sliceDistance s a b) := sliceLen_nonneg
  have hsize : Word.signedMax 64 < Word.size 64 := by decide
  rw [hdistance, Option.bind_some, sliceLenChecked_eq (by omega), Option.bind_some,
    Word.ofSigned_of_nonneg hlen (by omega)]
  by_cases hempty : sliceLen s (sliceDistance s a b) = 0
  · rw [if_pos hempty, if_pos hempty]
  · rw [if_neg hempty, if_neg hempty, Word.ofSigned_of_nonneg (hnonneg hempty) (by omega)]

/-- A slice of an axis is resolved to Python's range over it, in place and in
order, without leaving the machine's integers. -/
theorem resolveSlice_python (hdim : n < 2 ^ 63) (hstep : step ≠ some 0) :
    ∃ first len s, resolveSliceChecked start stop step n = some (.ok (.range first len s)) ∧
      (List.range len).map (fun k : Nat => (first + k * s : Int)) =
        Python.sliceRange start stop step n ∧
      ∀ i ∈ Python.sliceRange start stop step n, 0 ≤ i ∧ i < n := by
  have hmax : (n : Int) ≤ Word.signedMax 64 := by
    unfold Word.signedMax
    omega
  obtain ⟨s, hs⟩ : ∃ s, (step.map Int64.toInt).getD 1 = s := ⟨_, rfl⟩
  have hzero : s ≠ 0 := by
    rw [← hs]
    cases step with
    | none => decide
    | some step =>
        intro h
        exact hstep (congrArg some (Int64.toInt_inj.mp h))
  obtain ⟨a, ha⟩ : ∃ a, Numpy.sliceStart s n start = a := ⟨_, rfl⟩
  obtain ⟨b, hb⟩ : ∃ b, Numpy.sliceStop s n stop = b := ⟨_, rfl⟩
  have hterms : Python.sliceRange start stop step n =
      (List.range (sliceLen s (sliceDistance s a b)).toNat).map fun k : Nat => a + k * s := by
    simp only [Python.sliceRange, Python.indices, hs, ha, hb]
    exact Python.range_eq_sliceLen hzero
  have hok := @resolveSlice_eq n start stop step hmax s hs hzero
  rw [ha, hb] at hok
  obtain ⟨-, hfits, -⟩ := resolveSlice_ok hmax hok
  have hnonneg := @sliceStart_nonneg s n start stop hzero
  rw [ha, hb] at hnonneg
  rw [resolveSliceChecked_eq hmax, hok, hterms]
  dsimp only
  by_cases hempty : sliceLen s (sliceDistance s a b) = 0
  · rw [if_pos hempty, hempty]
    exact ⟨0, 0, s, rfl, rfl, by simp⟩
  · rw [if_neg hempty] at hfits ⊢
    have hstart : ((a.toNat : Nat) : Int) = a := Int.toNat_of_nonneg (hnonneg hempty)
    refine ⟨_, _, s, rfl, by rw [hstart], ?_⟩
    intro i hi
    obtain ⟨k, hk, rfl⟩ := List.mem_map.mp hi
    have := hfits k (List.mem_range.mp hk)
    rwa [hstart] at this

/-- The whole of the longest axis there can be, walked backwards in one step of
the least step. -/
theorem resolveSlice_python_min :
    (2 ^ 63 - 1 < 2 ^ 63 ∧ (some (-9223372036854775808) : Option Int64) ≠ some 0) ∧
      ∃ first len s, resolveSliceChecked none none (some (-9223372036854775808))
          ((2 ^ 63 - 1 : Nat) : Int) = some (.ok (.range first len s)) ∧
        (List.range len).map (fun k : Nat => (first + k * s : Int)) =
          Python.sliceRange none none (some (-9223372036854775808)) (2 ^ 63 - 1) ∧
        ∀ i ∈ Python.sliceRange none none (some (-9223372036854775808)) (2 ^ 63 - 1),
          0 ≤ i ∧ i < ((2 ^ 63 - 1 : Nat) : Int) :=
  ⟨by decide, resolveSlice_python (by decide) (by decide)⟩

end Slice

end Aex
