import Aex.Core.Reduce.Stream
import Aex.Lib.Fallible

/-!
# Counts, shapes and lengths of a reduction

When the counts a reduction computes with are exact, and how long its result is.
-/

namespace Aex

namespace Reduce

open Radix

/-- The elements of a type, in the bytes of that type. -/
structure Elem.Holds {ν α : Type} (e : Elem ν α) (dtype : DType) : Prop where
  size : e.size = dtype.itemsize
  write : ∀ x, (e.write x).length = dtype.itemsize
  intBits : e.intBits.isSome = Function.integral dtype

section Finish

variable {ν α β : Type} {F : Arith ν} {e : Elem ν α} {dtype : DType}

theorem floatElem_holds {f : Ieee.Format} (hsize : f.bytes = dtype.itemsize)
    (hdtype : Function.integral dtype = false) : (floatElem F f).Holds dtype where
  size := hsize
  write _ := Endian.length_toLE.trans hsize
  intBits := hdtype.symm

theorem complexElem_holds {f : Ieee.Format} (hsize : 2 * f.bytes = dtype.itemsize)
    (hdtype : Function.integral dtype = false) : (complexElem F f).Holds dtype where
  size := hsize
  write x := by
    rw [← hsize]
    simp [complexElem, Nat.two_mul]
  intBits := hdtype.symm

theorem intElem_holds {size : Nat} {signed : Bool} (hsize : size = dtype.itemsize)
    (hdtype : Function.integral dtype = true) : (intElem F size signed).Holds dtype where
  size := hsize
  write _ := Endian.length_toLE.trans hsize
  intBits := hdtype.symm

theorem boolElem_holds (F : Arith ν) : (boolElem F).Holds .bool where
  size := rfl
  write _ := rfl
  intBits := rfl

/-- What holds of a run for any elements of the type holds of the run for the type's. -/
theorem runDtype_of {checks : Bool} {read : ReadRange} {total blockBytes : Nat}
    {function : Function} {walk : Walk} {P : Except Halt (List UInt8) → Prop}
    (h : ∀ (α : Type) (e : Elem ν α), e.Holds dtype →
      P (run checks F read total blockBytes e function walk)) :
    P (runDtype checks F read total blockBytes dtype function walk) := by
  cases dtype with
  | bool => exact h _ _ (boolElem_holds F)
  | int8 => exact h _ _ (intElem_holds rfl rfl)
  | int16 => exact h _ _ (intElem_holds rfl rfl)
  | int32 => exact h _ _ (intElem_holds rfl rfl)
  | int64 => exact h _ _ (intElem_holds rfl rfl)
  | uint8 => exact h _ _ (intElem_holds rfl rfl)
  | uint16 => exact h _ _ (intElem_holds rfl rfl)
  | uint32 => exact h _ _ (intElem_holds rfl rfl)
  | uint64 => exact h _ _ (intElem_holds rfl rfl)
  | float16 => exact h _ _ (floatElem_holds rfl rfl)
  | float32 => exact h _ _ (floatElem_holds rfl rfl)
  | float64 => exact h _ _ (floatElem_holds rfl rfl)
  | complex64 => exact h _ _ (complexElem_holds rfl rfl)
  | complex128 => exact h _ _ (complexElem_holds rfl rfl)

theorem length_writeFloat (h : Function.integral dtype = false) (re im : ν) :
    ∃ bytes, writeFloat F dtype re im = some bytes ∧ bytes.length = dtype.itemsize := by
  cases dtype <;> simp_all [Function.integral, writeFloat, DType.itemsize]

/-! ## The results of the cells -/

theorem finish_panics {write : β → Option (List UInt8)} {cells : List β} {b : β} (hb : b ∈ cells)
    (h : write b = none) : finish write cells = .error .panic := by
  have hnone : cells.mapM write = none := by
    cases hsome : cells.mapM write with
    | none => rfl
    | some written =>
        obtain ⟨i, hi, rfl⟩ := List.getElem_of_mem hb
        have hall := Fallible.mapM_eq_some.mp hsome
        have := hall.get hi (hall.length_eq ▸ hi)
        rw [List.get_eq_getElem, h] at this
        cases this
  rw [finish, hnone]
  rfl

theorem length_finish {write : β → Option (List UInt8)} {cells : List β} {width : Nat}
    (h : ∀ b ∈ cells, ∃ bytes, write b = some bytes ∧ bytes.length = width) :
    ∃ data, finish write cells = .ok data ∧ data.length = cells.length * width := by
  suffices hsome : ∃ written, cells.mapM write = some written ∧
      written.flatten.length = cells.length * width by
    obtain ⟨written, hwritten, hlength⟩ := hsome
    refine ⟨written.flatten, ?_, hlength⟩
    rw [finish, hwritten]
    rfl
  induction cells with
  | nil => exact ⟨[], rfl, by simp⟩
  | cons b cells ih =>
      rw [List.forall_mem_cons] at h
      obtain ⟨bytes, hbytes, hwidth⟩ := h.1
      obtain ⟨written, hwritten, hlength⟩ := ih h.2
      refine ⟨bytes :: written, ?_, ?_⟩
      · rw [List.mapM_cons, hbytes, hwritten]
        rfl
      · rw [List.flatten_cons, List.length_append, hwidth, hlength, List.length_cons, Nat.succ_mul,
          Nat.add_comm]

/-- A slot that takes every element is empty where none came. -/
theorem foldl_eq_none_iff {γ : Type} {step : Option β → γ → Option β}
    (h : ∀ slot x, step slot x ≠ none) {xs : List γ} : xs.foldl step none = none ↔ xs = [] := by
  induction xs using List.reverseRecOn with
  | nil => simp
  | append_singleton xs x ih => simp [h]

theorem exists_write {γ : Type} {step : Option β → γ → Option β} (h : ∀ slot x, step slot x ≠ none)
    {xs : List γ} (hxs : xs ≠ []) {write : β → List UInt8} {width : Nat}
    (hwrite : ∀ b, (write b).length = width) :
    ∃ bytes, (xs.foldl step none).map write = some bytes ∧ bytes.length = width := by
  obtain ⟨b, hb⟩ := Option.ne_none_iff_exists'.mp (mt (foldl_eq_none_iff h).mp hxs)
  exact ⟨write b, by rw [hb]; rfl, hwrite b⟩

theorem ite_some_ne_none {c : Bool} {a b : β} : (if c then some a else some b) ≠ none := by
  cases c <;> exact Option.some_ne_none _

theorem extremePush_ne_none {max skipNan : Bool} (slot : Option α) (d : Nat × α) :
    extremePush e max skipNan slot d.1 d.2 ≠ none := by
  cases slot with
  | none => exact Option.some_ne_none _
  | some acc => exact ite_some_ne_none

theorem argPush_ne_none {max : Bool} (slot : Option (α × Nat × Bool)) (d : Nat × α) :
    argPush e max slot d.1 d.2 ≠ none := by
  match slot with
  | none => exact Option.some_ne_none _
  | some (best, at_, true) => exact Option.some_ne_none _
  | some (best, at_, false) => exact ite_some_ne_none

theorem count_foldl_momentsPush (data : List (Nat × α)) (acc : Moments ν) :
    (data.foldl (fun acc d => momentsPush F e acc d.1 d.2) acc).count = acc.count + data.length := by
  induction data generalizing acc with
  | nil => rfl
  | cons d data ih =>
      have hpush : (momentsPush F e acc d.1 d.2).count = acc.count + 1 := rfl
      rw [List.foldl_cons, ih, List.length_cons, hpush]
      omega

end Finish

/-! ## Elements per cell -/

/-- How many of the first `n` elements come to the cell `c`. -/
def countAt (shape : List Nat) (mask : List Bool) (n c : Nat) : Nat :=
  (List.range n).countP fun k => cellAt shape mask k = c

section Counts

variable {ν α β : Type} {checks : Bool} {F : Arith ν} {e : Elem ν α} {dtype : DType}
  {shape : List Nat} {mask : List Bool} {posAxis : Option Nat} {ddof : Int64} {out : DType}
  {read : ReadRange} {total blockBytes : Nat} {function : Function} {els : List (List UInt8)}

theorem length_of_placed {xs : List α} {c : Nat} :
    (Bins.of c (placed shape mask posAxis 0 xs)).length = countAt shape mask xs.length c := by
  have hsnd : xs.zipIdx.map Prod.snd = List.range xs.length := by
    rw [List.zipIdx_map_snd, List.range_eq_range']
  rw [Bins.of, List.length_map, ← List.countP_eq_length_filter, placed, List.countP_map, countAt,
    ← hsnd, List.countP_map]
  rfl

theorem of_placed_eq_nil_iff {c : Nat} :
    Bins.of c (placed shape mask posAxis 0 (els.map e.read)) = [] ↔
      countAt shape mask els.length c = 0 := by
  rw [← List.length_eq_zero_iff, length_of_placed, List.length_map]

/-- Every cell gets what its result needs. -/
def Served (checks : Bool) (function : Function) (ddof : Int64) (shape : List Nat)
    (mask : List Bool) (n : Nat) : Prop :=
  (function.needsAnElement = true → ∀ c < (keep mask shape).prod, countAt shape mask n c ≠ 0) ∧
  (function = .var ∨ function = .std → ∀ c < (keep mask shape).prod,
    dofOf checks (countAt shape mask n c) ddof ≠ none)

section FoldFinish

variable {push : Push β α} {step : β → Nat → α → β} {init : β} {write : β → Option (List UInt8)}
  (hdims : 0 < total → ∀ d ∈ shape, 0 < d) (hlength : mask.length = shape.length)
  (hfit : (keep mask shape).prod < Word.size 64) (hsize : 0 < e.size)
  (hblock : e.size ≤ blockBytes)
  (hpush : ∀ acc cell pos x, cell < acc.length →
    push acc cell pos x = some (acc.modify cell fun b => step b pos x))

include hdims hlength hfit hsize hblock hpush

theorem fold_finish_error {error : AexError}
    (h : elementsFrom read total (blockBytes / e.size * e.size) e.size (total + 1) 0 =
      .error error) :
    ((walkOf shape mask posAxis ddof out).fold checks read total blockBytes e push init >>=
      finish write) = .error (.error error) := by
  rw [fold_eq hdims hlength hfit hsize hblock hpush, h]
  rfl

theorem fold_finish_ok
    (h : elementsFrom read total (blockBytes / e.size * e.size) e.size (total + 1) 0 = .ok els)
    {width : Nat}
    (hwrite : ∀ c < (keep mask shape).prod, ∃ bytes,
      write ((Bins.of c (placed shape mask posAxis 0 (els.map e.read))).foldl
        (fun b d => step b d.1 d.2) init) = some bytes ∧ bytes.length = width) :
    ∃ data, ((walkOf shape mask posAxis ddof out).fold checks read total blockBytes e push init >>=
      finish write) = .ok data ∧ data.length = (keep mask shape).prod * width := by
  have hcells : ∀ b ∈ Bins.fill (fun b (d : Nat × α) => step b d.1 d.2)
      (List.replicate (keep mask shape).prod init)
      (placed shape mask posAxis 0 (els.map e.read)),
      ∃ bytes, write b = some bytes ∧ bytes.length = width := by
    intro b hb
    obtain ⟨c, hc, rfl⟩ := Bins.mem_fill_replicate.mp hb
    exact hwrite c hc
  obtain ⟨data, hdata, hlen⟩ := length_finish hcells
  rw [Bins.length_fill, List.length_replicate] at hlen
  rw [fold_eq hdims hlength hfit hsize hblock hpush, h]
  exact ⟨data, hdata, hlen⟩

theorem fold_finish_panics
    (h : elementsFrom read total (blockBytes / e.size * e.size) e.size (total + 1) 0 = .ok els)
    {c : Nat} (hc : c < (keep mask shape).prod)
    (hwrite : write ((Bins.of c (placed shape mask posAxis 0 (els.map e.read))).foldl
      (fun b d => step b d.1 d.2) init) = none) :
    ((walkOf shape mask posAxis ddof out).fold checks read total blockBytes e push init >>=
      finish write) = .error .panic := by
  rw [fold_eq hdims hlength hfit hsize hblock hpush, h]
  exact finish_panics (Bins.mem_fill_replicate.mpr ⟨c, hc, rfl⟩) hwrite

end FoldFinish

section Run

variable (h : e.Holds dtype) (hdims : 0 < total → ∀ d ∈ shape, 0 < d)
  (hlength : mask.length = shape.length) (hfit : (keep mask shape).prod < Word.size 64)
  (hblock : dtype.itemsize ≤ blockBytes)

include h hdims hlength hfit hblock

theorem run_error {error : AexError}
    (hels : elementsFrom read total (blockBytes / e.size * e.size) e.size (total + 1) 0 =
      .error error) :
    run checks F read total blockBytes e function
      (walkOf shape mask posAxis ddof out) = .error (.error error) := by
  have hsize : 0 < e.size := h.size ▸ dtype.itemsize_pos
  rw [← h.size] at hblock
  cases function with
  | sum | prod | nanSum =>
      simp only [run, runSum]
      split
      · exact fold_finish_error hdims hlength hfit hsize hblock pushAt_of_lt hels
      · exact fold_finish_error hdims hlength hfit hsize hblock skipping_of_lt hels
  | mean | nanMean => exact fold_finish_error hdims hlength hfit hsize hblock skipping_of_lt hels
  | max | min | nanMax | nanMin | var | std | all | any | argmax | argmin =>
      exact fold_finish_error hdims hlength hfit hsize hblock pushAt_of_lt hels

section Ok

variable (hels : elementsFrom read total (blockBytes / e.size * e.size) e.size (total + 1) 0 =
  .ok els)

include hels

theorem runSum_ok (hout : out = Function.resultDtype .sum dtype) :
    ∃ data, runSum checks F read total blockBytes e function
        (walkOf shape mask posAxis ddof out) = .ok data ∧
      data.length = (keep mask shape).prod * out.itemsize := by
  have hsize : 0 < e.size := h.size ▸ dtype.itemsize_pos
  rw [← h.size] at hblock
  have hintegral := h.intBits
  unfold runSum
  cases hbits : e.intBits with
  | some bits =>
      have height : out.itemsize = 8 := by
        rw [hbits] at hintegral
        rw [hout]
        cases dtype <;> first | rfl | cases hintegral
      exact fold_finish_ok hdims hlength hfit hsize hblock pushAt_of_lt hels
        fun c hc => ⟨_, rfl, Endian.length_toLE.trans height.symm⟩
  | none =>
      have hfloat : Function.integral out = false := by
        rw [hbits] at hintegral
        rw [hout]
        cases dtype <;> first | rfl | cases hintegral
      exact fold_finish_ok hdims hlength hfit hsize hblock skipping_of_lt hels
        fun c hc => length_writeFloat hfloat _ _

theorem runMean_ok (hout : Function.integral out = false) :
    ∃ data, runMean checks F read total blockBytes e function
        (walkOf shape mask posAxis ddof out) = .ok data ∧
      data.length = (keep mask shape).prod * out.itemsize := by
  have hsize : 0 < e.size := h.size ▸ dtype.itemsize_pos
  rw [← h.size] at hblock
  exact fold_finish_ok hdims hlength hfit hsize hblock skipping_of_lt hels
    fun c hc => length_writeFloat hout _ _

theorem runVar_ok (hout : Function.integral out = false)
    (hdof : ∀ c < (keep mask shape).prod, dofOf checks (countAt shape mask els.length c) ddof ≠ none) :
    ∃ data, runVar checks F read total blockBytes e function
        (walkOf shape mask posAxis ddof out) = .ok data ∧
      data.length = (keep mask shape).prod * out.itemsize := by
  have hsize : 0 < e.size := h.size ▸ dtype.itemsize_pos
  rw [← h.size] at hblock
  refine fold_finish_ok hdims hlength hfit hsize hblock pushAt_of_lt hels fun c hc => ?_
  obtain ⟨dof, hsome⟩ := Option.ne_none_iff_exists'.mp (hdof c hc)
  rw [Moments.finish, count_foldl_momentsPush, Moments.new, Nat.zero_add, length_of_placed,
    List.length_map, walkOf, hsome]
  exact length_writeFloat hout _ _

theorem runExtreme_ok
    (hcount : ∀ c < (keep mask shape).prod, countAt shape mask els.length c ≠ 0) :
    ∃ data, runExtreme checks read total blockBytes e function
        (walkOf shape mask posAxis ddof out) = .ok data ∧
      data.length = (keep mask shape).prod * dtype.itemsize := by
  have hsize : 0 < e.size := h.size ▸ dtype.itemsize_pos
  rw [← h.size] at hblock
  refine fold_finish_ok hdims hlength hfit hsize hblock pushAt_of_lt hels fun c hc => ?_
  exact exists_write extremePush_ne_none (mt of_placed_eq_nil_iff.mp (hcount c hc)) h.write

theorem runArg_ok
    (hcount : ∀ c < (keep mask shape).prod, countAt shape mask els.length c ≠ 0) :
    ∃ data, runArg checks read total blockBytes e function
        (walkOf shape mask posAxis ddof out) = .ok data ∧
      data.length = (keep mask shape).prod * 8 := by
  have hsize : 0 < e.size := h.size ▸ dtype.itemsize_pos
  rw [← h.size] at hblock
  refine fold_finish_ok hdims hlength hfit hsize hblock pushAt_of_lt hels fun c hc => ?_
  exact exists_write argPush_ne_none (mt of_placed_eq_nil_iff.mp (hcount c hc))
    fun _ => Endian.length_toLE

theorem runLogic_ok :
    ∃ data, runLogic checks read total blockBytes e function
        (walkOf shape mask posAxis ddof out) = .ok data ∧
      data.length = (keep mask shape).prod * 1 := by
  have hsize : 0 < e.size := h.size ▸ dtype.itemsize_pos
  rw [← h.size] at hblock
  exact fold_finish_ok hdims hlength hfit hsize hblock pushAt_of_lt hels fun c hc => ⟨_, rfl, rfl⟩

theorem runVar_panics {c : Nat} (hc : c < (keep mask shape).prod)
    (hdof : dofOf checks (countAt shape mask els.length c) ddof = none) :
    runVar checks F read total blockBytes e function (walkOf shape mask posAxis ddof out) =
      .error .panic := by
  have hsize : 0 < e.size := h.size ▸ dtype.itemsize_pos
  rw [← h.size] at hblock
  refine fold_finish_panics hdims hlength hfit hsize hblock pushAt_of_lt hels hc ?_
  rw [Moments.finish, count_foldl_momentsPush, Moments.new, Nat.zero_add, length_of_placed,
    List.length_map, walkOf, hdof]
  rfl

theorem runExtreme_panics {c : Nat} (hc : c < (keep mask shape).prod)
    (hcount : countAt shape mask els.length c = 0) :
    runExtreme checks read total blockBytes e function (walkOf shape mask posAxis ddof out) =
      .error .panic := by
  have hsize : 0 < e.size := h.size ▸ dtype.itemsize_pos
  rw [← h.size] at hblock
  refine fold_finish_panics hdims hlength hfit hsize hblock pushAt_of_lt hels hc ?_
  rw [of_placed_eq_nil_iff.mpr hcount]
  rfl

theorem runArg_panics {c : Nat} (hc : c < (keep mask shape).prod)
    (hcount : countAt shape mask els.length c = 0) :
    runArg checks read total blockBytes e function (walkOf shape mask posAxis ddof out) =
      .error .panic := by
  have hsize : 0 < e.size := h.size ▸ dtype.itemsize_pos
  rw [← h.size] at hblock
  refine fold_finish_panics hdims hlength hfit hsize hblock pushAt_of_lt hels hc ?_
  rw [of_placed_eq_nil_iff.mpr hcount]
  rfl

/-- A result of every cell, in the bytes of its type. -/
theorem run_ok (hserved : Served checks function ddof shape mask els.length) :
    ∃ data, run checks F read total blockBytes e function
        (walkOf shape mask posAxis ddof (function.resultDtype dtype)) = .ok data ∧
      data.length = (keep mask shape).prod * (function.resultDtype dtype).itemsize := by
  cases function with
  | sum | prod | nanSum => exact runSum_ok h hdims hlength hfit hblock hels rfl
  | mean | nanMean =>
      refine runMean_ok h hdims hlength hfit hblock hels ?_
      cases dtype <;> rfl
  | var =>
      refine runVar_ok h hdims hlength hfit hblock hels ?_ (hserved.2 (.inl rfl))
      cases dtype <;> rfl
  | std =>
      refine runVar_ok h hdims hlength hfit hblock hels ?_ (hserved.2 (.inr rfl))
      cases dtype <;> rfl
  | max | min | nanMax | nanMin => exact runExtreme_ok h hdims hlength hfit hblock hels (hserved.1 rfl)
  | argmax | argmin => exact runArg_ok h hdims hlength hfit hblock hels (hserved.1 rfl)
  | all | any => exact runLogic_ok h hdims hlength hfit hblock hels

theorem run_panics (hserved : ¬ Served checks function ddof shape mask els.length) :
    run checks F read total blockBytes e function (walkOf shape mask posAxis ddof out) =
      .error .panic := by
  have hwant : ∃ c < (keep mask shape).prod,
      (function.needsAnElement = true ∧ countAt shape mask els.length c = 0) ∨
      ((function = .var ∨ function = .std) ∧
        dofOf checks (countAt shape mask els.length c) ddof = none) := by
    by_contra hnone
    push Not at hnone
    exact hserved ⟨fun hneeds c hc => (hnone c hc).1 hneeds, fun hvar c hc => (hnone c hc).2 hvar⟩
  obtain ⟨c, hc, ⟨hneeds, hcount⟩ | ⟨hvar, hdof⟩⟩ := hwant
  · cases function with
    | max | min | nanMax | nanMin =>
        exact runExtreme_panics h hdims hlength hfit hblock hels hc hcount
    | argmax | argmin => exact runArg_panics h hdims hlength hfit hblock hels hc hcount
    | sum | prod | mean | std | var | all | any | nanSum | nanMean => cases hneeds
  · rcases hvar with rfl | rfl
    · exact runVar_panics h hdims hlength hfit hblock hels hc hdof
    · exact runVar_panics h hdims hlength hfit hblock hels hc hdof

end Ok

end Run

end Counts

/-! ## The shape of the result -/

/-- The lengths of the axes reduced. -/
def reducedLens (shape : List Nat) (mask : List Bool) : List Nat := keep (mask.map not) shape

/-- The products of the first reduced lengths all fit. -/
def PerCellFits (shape : List Nat) (mask : List Bool) : Prop :=
  ∀ k, ((reducedLens shape mask).take k).prod < Word.size 64

section Shape

variable {checks : Bool} {shape : List Nat} {mask : List Bool}

theorem perCell_eq_foldlM :
    perCell checks shape mask = (reducedLens shape mask).foldlM (Word.mul checks 64) 1 := by
  have hlens : reducedLens shape mask = ((shape.zip mask).filter Prod.snd).map Prod.fst := by
    unfold reducedLens
    induction shape generalizing mask with
    | nil => simp
    | cons d shape ih =>
        match mask with
        | [] => rfl
        | true :: mask => exact congrArg (d :: ·) ih
        | false :: mask => exact ih
  rw [hlens, List.foldlM_map, perCell]

theorem perCell_of_fits (h : PerCellFits shape mask) :
    perCell checks shape mask = some (reducedLens shape mask).prod := by
  have hfits : ∀ k, 1 * ((reducedLens shape mask).take k).prod < Word.size 64 := by
    intro k
    rw [Nat.one_mul]
    exact h k
  rw [perCell_eq_foldlM, Word.foldlM_mul_of_lt hfits, Nat.one_mul]

theorem perCell_true_ne_none (h : perCell true shape mask ≠ none) : PerCellFits shape mask := by
  rw [perCell_eq_foldlM] at h
  intro k
  have := Word.foldlM_mul_true_ne_none (by decide) h k
  rwa [Nat.one_mul] at this

theorem outShape_prod {keepdims : Bool} : (outShape keepdims shape mask).prod = (keep mask shape).prod := by
  induction shape generalizing mask with
  | nil => cases mask <;> simp [outShape]
  | cons d shape ih =>
      match mask with
      | [] => rfl
      | true :: mask => cases keepdims <;> simp [outShape, keep, ih]
      | false :: mask => simp [outShape, keep, ih]

theorem length_reduceAxis {ndim : Nat} {reduced next : List Bool} {a : Int64}
    (h : reduceAxis ndim reduced a = .ok next) : next.length = reduced.length := by
  unfold reduceAxis at h
  extract_lets d at h
  split at h
  · cases h
  split at h
  · cases h
  · cases h
    exact List.length_set

theorem length_reducedAxes {ndim : Nat} {axis : Axis} {function : Function}
    (h : reducedAxes ndim axis function = .ok mask) : mask.length = ndim := by
  unfold reducedAxes at h
  cases axis with
  | all =>
      cases h
      exact List.length_replicate
  | one a => exact (length_reduceAxis h).trans List.length_replicate
  | many axes =>
      dsimp only at h
      split at h
      · cases h
      · refine Fallible.foldlM_invariant (P := fun mask : List Bool => mask.length = ndim)
          (fun a _ reduced next hreduced hnext => ?_) List.length_replicate h
        exact (length_reduceAxis hnext).trans hreduced

end Shape

/-! ## Degrees of freedom -/

theorem dofOf_exact_iff {n : Nat} {ddof : Int64} (hn : n < Word.size 64) :
    (∀ checks, dofOf checks n ddof = some (n - ddof.toInt)) ↔
      n < 2 ^ 63 ∧ (n : Int) - ddof.toInt < 2 ^ 63 := by
  have hlower := ddof.le_toInt
  have hupper := ddof.toInt_lt
  unfold dofOf
  constructor
  · intro h
    obtain ⟨⟨-, hmax⟩, heq⟩ := Word.checkedSigned_eq_some.mp (h true)
    unfold Word.signedMax at hmax
    unfold Word.toSigned at hmax heq
    split at heq
    · rename_i hlt
      rw [if_pos hlt] at hmax
      omega
    · omega
  · rintro ⟨hlt, hdof⟩ checks
    have hsigned : Word.toSigned 64 n = n := if_pos (by simpa using hlt)
    rw [hsigned]
    apply Word.subSigned_of_mem (by decide)
    · unfold Word.signedMin
      omega
    · unfold Word.signedMax
      omega

/-! ## The bookkeeping of a request -/

/-- An error, or a result in as many bytes as its shape says and no more than allowed. -/
def Safe (maxBytes : Nat) : Except Halt Reduced → Prop
  | .ok r => r.data.length = r.shape.prod * r.dtype.itemsize ∧ r.data.length ≤ maxBytes
  | .error (.error _) => True
  | .error _ => False

/-- The two errors found before anything is read. -/
def Refused (L : SelectionLayout) (function : Function) (mask : List Bool) (maxBytes : Nat) : Prop :=
  maxBytes < Word.saturatingMul 64 (keep mask L.outShape).prod
    (function.resultDtype L.dtype).itemsize ∨
  (reducedLens L.outShape mask).prod = 0 ∧ 0 < (keep mask L.outShape).prod ∧
    function.needsAnElement = true

/-- How many elements of the stream come to the cell `c`. -/
def cellCount (L : SelectionLayout) (mask : List Bool) (c : Nat) : Nat :=
  countAt L.outShape mask (L.totalBytes / L.dtype.itemsize) c

/-- Whatever is read, and also where every operation is checked, there is an error or a
result of the right length; and every difference of a count and `ddof` is exact. -/
def Bookkept (L : SelectionLayout) (function : Function) (args : ReduceArgs) (maxBytes : Nat) :
    Prop :=
  (∀ (ν : Type) (F : Arith ν) (read : ReadRange) (checks : Bool),
    Safe maxBytes (reduce checks F read L function args maxBytes)) ∧
  ∀ mask, reducedAxes L.outShape.length args.axis function = .ok mask →
    ¬ Refused L function mask maxBytes → function = .var ∨ function = .std →
      ∀ c < (keep mask L.outShape).prod, ∀ checks,
        dofOf checks (cellCount L mask c) args.ddof = some (cellCount L mask c - args.ddof.toInt)

/-- The products of lengths fit, and past the first checks the result is as small as it is
taken to be, the cells get what they need and the differences fit. -/
def Fits (L : SelectionLayout) (function : Function) (args : ReduceArgs) (maxBytes : Nat) : Prop :=
  ∀ mask, reducedAxes L.outShape.length args.axis function = .ok mask →
    CellsFit L.outShape mask ∧ PerCellFits L.outShape mask ∧
    (¬ Refused L function mask maxBytes →
      (keep mask L.outShape).prod * (function.resultDtype L.dtype).itemsize ≤ maxBytes ∧
      (function.needsAnElement = true → ∀ c < (keep mask L.outShape).prod, cellCount L mask c ≠ 0) ∧
      (function = .var ∨ function = .std → ∀ c < (keep mask L.outShape).prod,
        cellCount L mask c < 2 ^ 63 ∧ (cellCount L mask c : Int) - args.ddof.toInt < 2 ^ 63))

section Request

variable {ν : Type} {checks : Bool} {F : Arith ν} {read : ReadRange} {L : SelectionLayout}
  {function : Function} {args : ReduceArgs} {maxBytes : Nat} {mask : List Bool}

/-- A request past its checks. -/
def runOf (checks : Bool) (F : Arith ν) (read : ReadRange) (L : SelectionLayout)
    (function : Function) (args : ReduceArgs) (mask : List Bool) : Except Halt (List UInt8) :=
  runDtype checks F read L.totalBytes blockBytes L.dtype function
    (walkOf L.outShape mask
      (match args.axis with
        | .one _ => mask.findIdx? id
        | _ => none)
      args.ddof (function.resultDtype L.dtype))

theorem reduce_of_refused (hmask : reducedAxes L.outShape.length args.axis function = .ok mask)
    (hcells : CellsFit L.outShape mask) (hper : PerCellFits L.outShape mask)
    (hrefused : Refused L function mask maxBytes) :
    ∃ error, reduce checks F read L function args maxBytes = .error (.error error) := by
  simp only [reduce, reduceBy, hmask, Except.mapError, Bind.bind, Except.bind,
    strides_of_fit hcells, perCell_of_fits hper, orPanic]
  by_cases hlarge : maxBytes < Word.saturatingMul 64 (keep mask L.outShape).prod
      (function.resultDtype L.dtype).itemsize
  · rw [if_pos hlarge]
    exact ⟨_, rfl⟩
  · rw [if_neg hlarge, if_pos (hrefused.resolve_left hlarge)]
    exact ⟨_, rfl⟩

theorem reduce_of_not_refused
    (hmask : reducedAxes L.outShape.length args.axis function = .ok mask)
    (hcells : CellsFit L.outShape mask) (hper : PerCellFits L.outShape mask)
    (hrefused : ¬ Refused L function mask maxBytes) :
    reduce checks F read L function args maxBytes =
      (runOf checks F read L function args mask).map fun data =>
        ⟨function.resultDtype L.dtype, outShape args.keepdims L.outShape mask, data⟩ := by
  simp only [reduce, reduceBy, hmask, Except.mapError, Bind.bind, Except.bind,
    strides_of_fit hcells, perCell_of_fits hper, orPanic]
  rw [if_neg fun hlarge => hrefused (.inl hlarge), if_neg fun hempty => hrefused (.inr hempty)]
  rfl

theorem cellCount_lt (h : L.totalBytes < Word.size 64) (c : Nat) :
    cellCount L mask c < Word.size 64 := by
  have hcount : cellCount L mask c ≤ (List.range (L.totalBytes / L.dtype.itemsize)).length :=
    List.countP_le_length
  rw [List.length_range] at hcount
  exact (hcount.trans (Nat.div_le_self _ _)).trans_lt h

/-- What a resolved layout says of its stream. -/
structure Streams (L : SelectionLayout) : Prop where
  dims_pos : 0 < L.totalBytes → ∀ d ∈ L.outShape, 0 < d
  whole : L.dtype.itemsize ∣ L.totalBytes
  fits : L.totalBytes < Word.size 64

theorem streams_of_resolve {build : Build} {shape : List Nat} {dtype : DType}
    {indices : List Index} {quality : QualitySpec}
    (h : SelectionLayout.resolve build shape dtype indices quality = .ok L) : Streams L where
  dims_pos := by
    obtain ⟨resolved, kind, -, -, rfl, -⟩ := SelectionLayout.resolve_spec h
    intro hpos d hd
    dsimp only at hpos hd
    rw [ResolvedSelection.numElements_eq] at hpos
    by_contra hzero
    obtain rfl : d = 0 := by omega
    rw [List.prod_eq_zero hd, Nat.zero_mod, Nat.zero_mul] at hpos
    exact Nat.lt_irrefl 0 hpos
  whole := SelectionLayout.itemsize_dvd_totalBytes h
  fits := SelectionLayout.totalBytes_lt h

theorem itemsize_le_blockBytes (dtype : DType) : dtype.itemsize ≤ blockBytes :=
  dtype.itemsize_le.trans (by decide)

/-- The whole stream is read, element by element. -/
theorem length_elements {α : Type} {e : Elem ν α} (h : Streams L) (he : e.Holds L.dtype)
    {els : List (List UInt8)}
    (hels : elementsFrom read L.totalBytes (blockBytes / e.size * e.size) e.size
      (L.totalBytes + 1) 0 = .ok els) : els.length = L.totalBytes / L.dtype.itemsize := by
  have hsize : 0 < e.size := he.size ▸ L.dtype.itemsize_pos
  have hblock : 0 < blockBytes / e.size * e.size :=
    Nat.mul_pos (Nat.div_pos (he.size ▸ itemsize_le_blockBytes L.dtype) hsize) hsize
  have hwhole : e.size ∣ L.totalBytes - 0 := he.size ▸ h.whole
  rw [length_elementsFrom hblock (Nat.dvd_mul_left _ _) hwhole (by omega) hels, he.size, Nat.sub_zero]

section Streams

variable (hstreams : Streams L)
  (hmask : reducedAxes L.outShape.length args.axis function = .ok mask)
  (hcells : CellsFit L.outShape mask)

include hstreams hmask hcells

theorem runOf_safe
    (hserved : Served checks function args.ddof L.outShape mask (L.totalBytes / L.dtype.itemsize)) :
    (∃ error, runOf checks F read L function args mask = .error (.error error)) ∨
    ∃ data, runOf checks F read L function args mask = .ok data ∧
      data.length = (keep mask L.outShape).prod * (function.resultDtype L.dtype).itemsize := by
  refine runDtype_of (P := fun r => (∃ error, r = .error (.error error)) ∨ ∃ data, r = .ok data ∧
    data.length = (keep mask L.outShape).prod * (function.resultDtype L.dtype).itemsize)
    fun α e he => ?_
  have hlength := length_reducedAxes hmask
  cases hels : elementsFrom read L.totalBytes (blockBytes / e.size * e.size) e.size
      (L.totalBytes + 1) 0 with
  | error error =>
      exact .inl ⟨error, run_error he hstreams.dims_pos hlength hcells.prod_lt
        (itemsize_le_blockBytes _) hels⟩
  | ok els =>
      rw [← length_elements hstreams he hels] at hserved
      exact .inr (run_ok he hstreams.dims_pos hlength hcells.prod_lt (itemsize_le_blockBytes _) hels
        hserved)

theorem runOf_ok (hread : ∀ offset len, ∃ bytes, read offset len = .ok bytes)
    (hserved : Served checks function args.ddof L.outShape mask (L.totalBytes / L.dtype.itemsize)) :
    ∃ data, runOf checks F read L function args mask = .ok data ∧
      data.length = (keep mask L.outShape).prod * (function.resultDtype L.dtype).itemsize := by
  refine runDtype_of (P := fun r => ∃ data, r = .ok data ∧
    data.length = (keep mask L.outShape).prod * (function.resultDtype L.dtype).itemsize)
    fun α e he => ?_
  obtain ⟨els, hels⟩ := exists_elementsFrom hread L.totalBytes (blockBytes / e.size * e.size)
    e.size (L.totalBytes + 1) 0
  rw [← length_elements hstreams he hels] at hserved
  exact run_ok he hstreams.dims_pos (length_reducedAxes hmask) hcells.prod_lt
    (itemsize_le_blockBytes _) hels hserved

theorem runOf_panics (hread : ∀ offset len, ∃ bytes, read offset len = .ok bytes)
    (hserved : ¬ Served checks function args.ddof L.outShape mask (L.totalBytes / L.dtype.itemsize)) :
    runOf checks F read L function args mask = .error .panic := by
  refine runDtype_of (P := fun r => r = .error .panic) fun α e he => ?_
  obtain ⟨els, hels⟩ := exists_elementsFrom hread L.totalBytes (blockBytes / e.size * e.size)
    e.size (L.totalBytes + 1) 0
  rw [← length_elements hstreams he hels] at hserved
  exact run_panics he hstreams.dims_pos (length_reducedAxes hmask) hcells.prod_lt
    (itemsize_le_blockBytes _) hels hserved

end Streams

/-- What a request that fits does. -/
theorem bookkept_of_fits (hstreams : Streams L) (h : Fits L function args maxBytes) :
    Bookkept L function args maxBytes := by
  refine ⟨fun ν F read checks => ?_, fun mask hmask hrefused hvar c hc => ?_⟩
  · cases hmask : reducedAxes L.outShape.length args.axis function with
    | error error =>
        have herror : reduce checks F read L function args maxBytes = .error (.error error) := by
          rw [reduce, reduceBy, hmask]
          rfl
        rw [herror]
        trivial
    | ok mask =>
        obtain ⟨hcells, hper, hrest⟩ := h mask hmask
        by_cases hrefused : Refused L function mask maxBytes
        · obtain ⟨error, herror⟩ := @reduce_of_refused ν checks F read _ _ _ _ _ hmask hcells hper
            hrefused
          rw [herror]
          trivial
        · obtain ⟨hbytes, hneeds, hdof⟩ := hrest hrefused
          have hserved : Served checks function args.ddof L.outShape mask
              (L.totalBytes / L.dtype.itemsize) := by
            refine ⟨hneeds, fun hvar c hc => ?_⟩
            have hexact := (dofOf_exact_iff (cellCount_lt hstreams.fits c)).mpr (hdof hvar c hc) checks
            rw [cellCount] at hexact
            rw [hexact]
            exact Option.some_ne_none _
          rw [reduce_of_not_refused hmask hcells hper hrefused]
          rcases @runOf_safe ν checks F read _ _ _ _ hstreams hmask hcells hserved with
            ⟨error, herror⟩ | ⟨data, hdata, hlength⟩
          · rw [herror]
            trivial
          · rw [hdata]
            refine ⟨?_, hlength.trans_le hbytes⟩
            rw [outShape_prod]
            exact hlength
  · obtain ⟨-, -, hrest⟩ := h mask hmask
    exact (dofOf_exact_iff (cellCount_lt hstreams.fits c)).mpr ((hrest hrefused).2.2 hvar c hc)

/-- Bytes that can always be read. -/
def zeros : ReadRange := fun _ len => .ok (Vector.replicate len 0)

/-- Arithmetic on no numbers. -/
def noArith : Arith Unit where
  ofNat _ := ()
  ofInt _ := ()
  ofBits _ _ := ()
  add _ _ := ()
  sub _ _ := ()
  mul _ _ := ()
  div _ _ := ()
  sqrt _ := ()
  half _ := Vector.replicate 2 0
  single _ := Vector.replicate 4 0
  double _ := Vector.replicate 8 0

theorem fits_of_bookkept (hstreams : Streams L) (h : Bookkept L function args maxBytes) :
    Fits L function args maxBytes := by
  intro mask hmask
  have hsafe := h.1 Unit noArith zeros true
  have hcells : CellsFit L.outShape mask := by
    by_contra hoverflow
    have hnone := not_not.mp (mt strides_true_ne_none_iff.mp hoverflow)
    simp only [reduce, reduceBy, hmask, Except.mapError, Bind.bind, Except.bind, hnone, orPanic]
      at hsafe
    exact hsafe
  have hper : PerCellFits L.outShape mask := by
    by_contra hoverflow
    have hnone := not_not.mp (mt perCell_true_ne_none hoverflow)
    simp only [reduce, reduceBy, hmask, Except.mapError, Bind.bind, Except.bind,
      strides_of_fit hcells, hnone, orPanic] at hsafe
    exact hsafe
  refine ⟨hcells, hper, fun hrefused => ?_⟩
  rw [reduce_of_not_refused hmask hcells hper hrefused] at hsafe
  have hread : ∀ offset len, ∃ bytes, zeros offset len = .ok bytes := fun _ _ => ⟨_, rfl⟩
  have hserved : Served true function args.ddof L.outShape mask
      (L.totalBytes / L.dtype.itemsize) := by
    by_contra hnot
    rw [runOf_panics hstreams hmask hcells hread hnot] at hsafe
    exact hsafe
  refine ⟨?_, hserved.1, fun hvar c hc => ?_⟩
  · obtain ⟨data, hdata, hlength⟩ := @runOf_ok _ true noArith _ _ _ _ _ hstreams hmask hcells hread
      hserved
    rw [hdata] at hsafe
    exact hlength.symm.trans_le hsafe.2
  · exact (dofOf_exact_iff (cellCount_lt hstreams.fits c)).mp (h.2 mask hmask hrefused hvar c hc)

end Request

end Reduce

end Aex
