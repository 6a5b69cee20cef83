import Aex.Core.Reduce.Bookkeeping
import Aex.Core.Reduce.Extremes
import Aex.Core.Reduce.Numpy

/-!
# Reductions of integers and bools are numpy's

Whatever blocks the stream is read in, the result is numpy's, as long as the number of
cells fits.
-/

namespace Aex

namespace Reduce

open Radix

/-! ## Axes -/

section Axes

variable {ndim : Nat} {axis : Axis} {function : Function} {reduced next : List Bool} {a : Int64}

theorem reduceAxis_spec (h : reduceAxis ndim reduced a = .ok next) :
    0 ≤ Numpy.axisIndex ndim a ∧ Numpy.axisIndex ndim a < ndim ∧
      next = reduced.set (Numpy.axisIndex ndim a).toNat true := by
  unfold reduceAxis at h
  dsimp only at h
  rw [← Numpy.axisIndex] at h
  split at h
  · cases h
  rename_i hrange
  split at h
  · cases h
  · cases h
    exact ⟨by omega, by omega, rfl⟩

/-- Marking one axis more. -/
theorem reduceAxis_map {p : Nat → Bool}
    (h : reduceAxis ndim ((List.range ndim).map p) a = .ok next) :
    next = (List.range ndim).map fun d => p d || decide (Numpy.axisIndex ndim a = d) := by
  obtain ⟨hnonneg, hlt, rfl⟩ := reduceAxis_spec h
  apply List.ext_getElem?
  intro d
  rw [List.getElem?_set, List.getElem?_map, List.getElem?_map, List.length_map, List.length_range]
  rcases Nat.lt_or_ge d ndim with hd | hd
  · rw [List.getElem?_range hd]
    by_cases heq : (Numpy.axisIndex ndim a).toNat = d
    · have hindex : Numpy.axisIndex ndim a = d := by omega
      rw [if_pos heq, if_pos (by omega)]
      simp [hindex]
    · have hindex : ¬ Numpy.axisIndex ndim a = d := by omega
      rw [if_neg heq]
      simp [hindex]
  · rw [if_neg (by omega), List.getElem?_eq_none (by simpa using hd)]
    rfl

theorem reduceAxes_map {axes : List Int64} {p : Nat → Bool}
    (h : axes.foldlM (reduceAxis ndim) ((List.range ndim).map p) = .ok next) :
    next = (List.range ndim).map fun d =>
      p d || axes.any fun a => decide (Numpy.axisIndex ndim a = d) := by
  induction axes generalizing p with
  | nil =>
      cases h
      simp
  | cons a axes ih =>
      rw [List.foldlM_cons] at h
      cases hone : reduceAxis ndim ((List.range ndim).map p) a with
      | error e =>
          rw [hone] at h
          cases h
      | ok first =>
          rw [hone, reduceAxis_map hone] at h
          rw [ih h]
          simp only [List.any_cons, Bool.or_assoc]

theorem reducedAxes_eq (h : reducedAxes ndim axis function = .ok reduced) :
    reduced = Numpy.mask ndim axis := by
  have hnone : List.replicate ndim false = (List.range ndim).map fun _ => false := by
    rw [List.map_const', List.length_range]
  unfold reducedAxes at h
  cases axis with
  | all =>
      cases h
      rw [Numpy.mask, ← List.length_range (n := ndim), ← List.map_const', List.length_range]
      rfl
  | one a =>
      dsimp only at h
      rw [hnone] at h
      rw [reduceAxis_map h]
      simp only [Bool.false_or]
      rfl
  | many axes =>
      dsimp only at h
      split at h
      · cases h
      · rw [hnone] at h
        rw [reduceAxes_map h]
        simp only [Bool.false_or]
        rfl

theorem findIdx?_mask (h : reducedAxes ndim (.one a) function = .ok reduced) :
    reduced.findIdx? id = some (Numpy.axisIndex ndim a).toNat := by
  obtain ⟨hnonneg, hlt, rfl⟩ := reduceAxis_spec h
  have hpos : (Numpy.axisIndex ndim a).toNat < ndim := by omega
  rw [List.findIdx?_eq_some_iff_getElem]
  refine ⟨by simpa using hpos, by simp, fun j hj => ?_⟩
  rw [List.getElem_set_ne (by omega), List.getElem_replicate]
  exact Bool.false_ne_true

/-- The code's positions are numpy's. -/
theorem posAt_eq {shape : List Nat} {posAxis : Option Nat}
    (hpos : posAxis = match axis with
      | .one _ => reduced.findIdx? id
      | _ => none)
    (h : reducedAxes shape.length axis function = .ok reduced) (k : Nat) :
    posAt shape posAxis k = Numpy.position shape axis k := by
  subst hpos
  cases axis with
  | all => rfl
  | one a =>
      dsimp only
      rw [findIdx?_mask h]
      rfl
  | many axes => rfl

end Axes

/-! ## Cells -/

section Cells

variable {checks : Bool} {shape : List Nat} {mask : List Bool} {stride : List Nat} {cells : Nat}

theorem mul_eq_some {a b c : Nat} (h : Word.mul checks 64 a b = some c) : c = a * b % Word.size 64 := by
  unfold Word.mul at h
  split at h
  · obtain ⟨hlt, rfl⟩ := Word.checkedMul_eq_some.mp h
    exact (Nat.mod_eq_of_lt hlt).symm
  · cases h
    rfl

/-- The number of cells is right up to what a word cannot hold. -/
theorem strides_cells (h : strides checks shape mask = some (stride, cells)) :
    cells = (keep mask shape).prod % Word.size 64 := by
  induction shape generalizing mask stride cells with
  | nil =>
      cases h
      simp [Word.size]
  | cons d shape ih =>
      cases mask with
      | nil =>
          cases h
          simp [Word.size, keep]
      | cons m mask =>
          rw [strides, Option.bind_eq_bind, Option.bind_eq_some_iff] at h
          obtain ⟨⟨rest, inner⟩, hrest, h⟩ := h
          have hinner := ih hrest
          cases m with
          | true =>
              cases h
              exact hinner
          | false =>
              simp only [Bool.false_eq_true, if_false, Option.bind_eq_bind,
                Option.bind_eq_some_iff] at h
              obtain ⟨more, hmore, h⟩ := h
              cases h
              rw [mul_eq_some hmore, hinner, keep, List.prod_cons, Nat.mul_comm d, Nat.mod_mul_mod]

/-- Where no dimension is 0, there are no more cells than elements. -/
theorem cellsFit_of_prod_lt (hdims : ∀ d ∈ shape, 0 < d) (h : shape.prod < Word.size 64) :
    CellsFit shape mask := by
  intro k
  have hkeep : ∀ (mask : List Bool) (dims : List Nat), (∀ d ∈ dims, 0 < d) →
      (keep mask dims).prod ≤ dims.prod := by
    intro mask dims
    induction dims generalizing mask with
    | nil => simp
    | cons d dims ih =>
        intro hdims
        rw [List.forall_mem_cons] at hdims
        match mask with
        | [] => exact prod_pos (List.forall_mem_cons.mpr hdims)
        | true :: mask =>
            rw [keep, List.prod_cons]
            exact (ih mask hdims.2).trans (Nat.le_mul_of_pos_left _ hdims.1)
        | false :: mask =>
            rw [keep, List.prod_cons, List.prod_cons]
            exact Nat.mul_le_mul_left d (ih mask hdims.2)
  have hdrop : (shape.drop k).prod ≤ shape.prod := by
    rw [← List.prod_take_mul_prod_drop shape k]
    exact Nat.le_mul_of_pos_left _ (prod_pos fun d hd => hdims d (List.mem_of_mem_take hd))
  exact ((hkeep _ _ fun d hd => hdims d (List.mem_of_mem_drop hd)).trans hdrop).trans_lt h

end Cells

/-! ## The stream -/

section Stream

variable {read : ReadRange} {total block size fuel offset : Nat} {stream : List UInt8}

/-- What can be read of the selection's bytes is what they are. -/
def Serves (read : ReadRange) (stream : List UInt8) : Prop :=
  ∀ offset len bytes, offset + len ≤ stream.length → read offset len = .ok bytes →
    bytes.toList = Vec.slice stream offset len

theorem chunksExact_nil : chunksExact size [] = [] := by
  simp [chunksExact]

theorem chunksExact_append {xs ys : List UInt8} (hsize : 0 < size) (h : size ∣ xs.length) :
    chunksExact size (xs ++ ys) = chunksExact size xs ++ chunksExact size ys := by
  obtain ⟨n, hn⟩ := h
  have hcount : (xs ++ ys).length / size = n + ys.length / size := by
    rw [List.length_append, hn, Nat.mul_add_div hsize]
  have hfront : xs.length / size = n := by rw [hn, Nat.mul_div_cancel_left n hsize]
  rw [chunksExact, hcount, List.range_add, List.map_append, List.map_map, chunksExact, hfront]
  congr 1
  · apply List.map_congr_left
    intro i hi
    rw [List.mem_range] at hi
    apply Vec.slice_append_left
    have := Nat.mul_le_mul_left size hi
    rw [hn, ← Nat.succ_mul, Nat.mul_comm]
    exact this
  · apply List.map_congr_left
    intro i _
    rw [Function.comp_apply, Nat.add_mul, Nat.mul_comm n, ← hn, Vec.slice_append_right]

/-- Blocks of whole elements give the elements of the stream. -/
theorem elementsFrom_eq (hread : Serves read stream) (htotal : stream.length = total)
    (hsize : 0 < size) (hpos : 0 < block) (hblock : size ∣ block) (hfuel : total - offset < fuel)
    {els : List (List UInt8)} (h : elementsFrom read total block size fuel offset = .ok els) :
    els = chunksExact size (stream.drop offset) := by
  induction fuel generalizing offset els with
  | zero => omega
  | succ fuel ih =>
      rw [elementsFrom] at h
      split at h
      · rename_i hlt
        split at h
        · cases h
        rename_i bytes hbytes
        cases hrest : elementsFrom read total block size fuel
            (offset + min (total - offset) block) with
        | error e =>
            rw [hrest] at h
            cases h
        | ok rest =>
            rw [hrest] at h
            cases h
            rw [hread _ _ _ (by omega) hbytes, ih (by omega) hrest]
            dsimp only
            rcases Nat.le_total (total - offset) block with hle | hle
            · have hend : stream.drop (offset + (total - offset)) = [] :=
                List.drop_eq_nil_of_le (by omega)
              rw [Nat.min_eq_left hle, hend, chunksExact_nil, List.append_nil, Vec.slice,
                List.take_of_length_le (by rw [List.length_drop, htotal])]
            · have hwhole : size ∣ ((stream.drop offset).take block).length := by
                rwa [List.length_take, List.length_drop, htotal, Nat.min_eq_left hle]
              rw [Nat.min_eq_right hle, Vec.slice, ← chunksExact_append hsize hwhole,
                ← List.drop_drop, List.take_append_drop]
      · cases h
        rw [List.drop_eq_nil_of_le (by omega), chunksExact_nil]

end Stream

/-! ## Elements -/

/-- The elements are the integers of a type, and computed with as such. -/
structure Elem.Valued {ν α : Type} (e : Elem ν α) (dtype : DType) (value : α → Int) : Prop where
  size : e.size = dtype.itemsize
  read : ∀ bytes, value (e.read bytes) = Numpy.value dtype bytes
  bits : e.intBits = some fun x => Word.ofSigned 64 (value x)
  write : ∀ x, e.write x = Numpy.encode dtype (value x)
  truthy : ∀ x, e.truthy x = decide (value x ≠ 0)
  comparable : e.Comparable fun x => some (value x)

section Valued

variable {ν : Type} {F : Arith ν} {dtype : DType}

theorem Elem.Valued.holds {α : Type} {e : Elem ν α} {value : α → Int} (h : e.Valued dtype value)
    (hdtype : Function.integral dtype = true) : e.Holds dtype where
  size := h.size
  write x := by
    rw [h.write]
    exact Endian.length_toLE
  intBits := by
    rw [h.bits, hdtype]
    rfl

theorem intElem_valued {size : Nat} {signed : Bool} (hsize : size = dtype.itemsize)
    (hsigned : signed = Numpy.signed dtype) (hbool : dtype ≠ .bool) :
    (intElem F size signed).Valued dtype id where
  size := hsize
  read bytes := by
    rw [Numpy.value, if_neg hbool, ← hsize, ← hsigned]
    rfl
  bits := rfl
  write x := by
    rw [Numpy.encode, ← hsize]
    rfl
  truthy x := rfl
  comparable := intElem_comparable F size signed

theorem boolElem_valued (F : Arith ν) : (boolElem F).Valued .bool fun x => (x.toNat : Int) where
  size := rfl
  read bytes := by
    rw [Numpy.value, if_pos rfl]
    by_cases h : bytes.headD 0 = 0
    · rw [if_pos h]
      simp only [boolElem, h]
      rfl
    · rw [if_neg h]
      simp only [boolElem, ne_eq, h, not_false_eq_true, decide_true]
      rfl
  bits := by
    apply congrArg some
    funext x
    cases x <;> rfl
  write x := by cases x <;> rfl
  truthy x := by cases x <;> rfl
  comparable := {
    isNan := by simp [boolElem]
    keeps := by
      intro max x y
      cases max <;> cases x <;> cases y <;> simp [boolElem, AsExtreme]
    moves := by
      intro max x best a h
      cases h
      cases max <;> cases x <;> cases best <;> simp [boolElem, AsExtreme] }

/-- What holds of a run for elements with the type's values holds of the type's run. -/
theorem runDtype_valued {checks : Bool} {read : ReadRange} {total blockBytes : Nat}
    {function : Function} {walk : Walk} {P : Except Halt (List UInt8) → Prop}
    (hdtype : Function.integral dtype = true)
    (h : ∀ (α : Type) (e : Elem ν α) (value : α → Int), e.Valued dtype value →
      P (run checks F read total blockBytes e function walk)) :
    P (runDtype checks F read total blockBytes dtype function walk) := by
  cases dtype with
  | bool => exact h _ _ _ (boolElem_valued F)
  | int8 => exact h _ _ _ (intElem_valued rfl rfl (by decide))
  | int16 => exact h _ _ _ (intElem_valued rfl rfl (by decide))
  | int32 => exact h _ _ _ (intElem_valued rfl rfl (by decide))
  | int64 => exact h _ _ _ (intElem_valued rfl rfl (by decide))
  | uint8 => exact h _ _ _ (intElem_valued rfl rfl (by decide))
  | uint16 => exact h _ _ _ (intElem_valued rfl rfl (by decide))
  | uint32 => exact h _ _ _ (intElem_valued rfl rfl (by decide))
  | uint64 => exact h _ _ _ (intElem_valued rfl rfl (by decide))
  | float16 | float32 | float64 | complex64 | complex128 => cases hdtype

end Valued

/-! ## One cell -/

section Cell

variable {ν α : Type} {e : Elem ν α} {dtype : DType} {value : α → Int} {max : Bool}
  {data : List (Nat × α)}

/-- The elements of a cell as integers. -/
def valuesOf (value : α → Int) (data : List (Nat × α)) : List (Nat × Int) :=
  data.map fun d => (d.1, value d.2)

theorem map_snd_valuesOf : (valuesOf value data).map Prod.snd = (data.map Prod.snd).map value := by
  simp [valuesOf]

theorem foldl_sumPush (prod : Bool) (a : Int) :
    data.foldl (fun acc d => sumPush (fun x => Word.ofSigned 64 (value x)) prod acc d.1 d.2)
        (Word.ofSigned 64 a) =
      Word.ofSigned 64 (if prod then a * ((valuesOf value data).map Prod.snd).prod
        else a + ((valuesOf value data).map Prod.snd).sum) := by
  induction data generalizing a with
  | nil => cases prod <;> simp [valuesOf]
  | cons d data ih =>
      cases prod with
      | true =>
          rw [List.foldl_cons, sumPush, if_pos rfl, Word.wrappingMul_ofSigned, ih]
          simp [valuesOf, Int.mul_assoc]
      | false =>
          rw [List.foldl_cons, sumPush, if_neg Bool.false_ne_true, Word.wrappingAdd_ofSigned, ih]
          simp [valuesOf, Int.add_assoc]

theorem foldl_logicPush (h : e.Valued dtype value) (all acc : Bool) :
    data.foldl (fun acc d => logicPush e all acc d.1 d.2) acc =
      if all then acc && ((valuesOf value data).map Prod.snd).all (· ≠ 0)
      else acc || ((valuesOf value data).map Prod.snd).any (· ≠ 0) := by
  induction data generalizing acc with
  | nil => cases all <;> simp [valuesOf]
  | cons d data ih =>
      rw [List.foldl_cons, ih, logicPush, h.truthy]
      cases all <;> simp [valuesOf, Bool.and_assoc, Bool.or_assoc]

/-- The most extreme of some integers. -/
def best (max : Bool) (xs : List Int) : Option Int := if max then xs.max? else xs.min?

theorem best_eq_some_iff {xs : List Int} {a : Int} :
    best max xs = some a ↔ a ∈ xs ∧ ∀ b ∈ xs, AsExtreme max a b := by
  cases max with
  | true => exact List.max?_eq_some_iff
  | false => exact List.min?_eq_some_iff

theorem MaxOf.best_eq {xs : List α} {slot : Option α}
    (h : MaxOf (fun x => some (value x)) max xs slot) :
    slot.map value = best max (xs.map value) := by
  cases slot with
  | none =>
      obtain rfl : xs = [] := h
      cases max <;> rfl
  | some x =>
      obtain ⟨hmem, -, hextreme⟩ := h
      obtain ⟨a, ha, hall⟩ := hextreme fun _ _ => Option.some_ne_none _
      cases ha
      refine (best_eq_some_iff.mpr ⟨List.mem_map_of_mem hmem, fun b hb => ?_⟩).symm
      obtain ⟨y, hy, rfl⟩ := List.mem_map.mp hb
      exact hall y hy _ rfl

theorem FirstOf.first_eq {slot : Option (α × Nat × Bool)}
    (h : FirstOf (fun x => some (value x)) max data slot) :
    slot.map (fun s => Endian.toLE 8 s.2.1) =
      Numpy.first (best max ((valuesOf value data).map Prod.snd)) (valuesOf value data) := by
  match slot, h with
  | none, h =>
      obtain rfl : data = [] := h
      rfl
  | some (x, pos, done), ⟨_, front, rest, hdata, _, hor⟩ =>
      obtain ⟨-, ⟨a, ha, hall⟩, hfirst⟩ := hor.resolve_left (Option.some_ne_none _)
      cases ha
      have hbest : best max ((valuesOf value data).map Prod.snd) = some (value x) := by
        rw [map_snd_valuesOf, best_eq_some_iff]
        refine ⟨List.mem_map_of_mem (by simp [hdata]), fun b hb => ?_⟩
        obtain ⟨y, hy, rfl⟩ := List.mem_map.mp hb
        exact hall y hy _ rfl
      have hfind : (valuesOf value data).find? (fun d => some (value x) = some d.2) =
          some (pos, value x) := by
        refine List.find?_eq_some_iff_append.mpr
          ⟨by simp, valuesOf value front, valuesOf value rest, by simp [hdata, valuesOf], ?_⟩
        intro d hd
        obtain ⟨d', hd', rfl⟩ := List.mem_map.mp hd
        have hless := hfirst d' hd' _ _ rfl rfl
        have hne : value x ≠ value d'.2 := by
          intro heq
          rw [heq] at hless
          exact hless .refl
        simpa using hne
      rw [Numpy.first, hbest, hfind]
      rfl

end Cell

/-! ## All cells -/

/-- What is folded into each cell, whatever the accumulators are. -/
def Walk.Gives {ν α : Type} (walk : Walk) (checks : Bool) (read : ReadRange)
    (total blockBytes : Nat) (e : Elem ν α) (members : Nat → List (Nat × α)) : Prop :=
  ∀ (β : Type) (step : β → Nat → α → β) (init : β),
    walk.fold checks read total blockBytes e (pushAt step) init =
      .ok ((List.range walk.cells).map fun c =>
        (members c).foldl (fun b d => step b d.1 d.2) init)

section Run

variable {ν α : Type} {checks : Bool} {F : Arith ν} {e : Elem ν α} {dtype : DType}
  {value : α → Int} {read : ReadRange} {total blockBytes : Nat} {function : Function} {walk : Walk}
  {members : Nat → List (Nat × α)}

theorem gives_zero : walk.Gives checks read 0 blockBytes e fun _ => [] := by
  intro β step init
  have hcells : List.replicate walk.cells init = (List.range walk.cells).map fun _ => init := by
    rw [List.map_const', List.length_range]
  rw [Walk.fold, Walk.foldFrom, if_neg (Nat.lt_irrefl 0)]
  exact congrArg Except.ok hcells

theorem finish_map {β : Type} {write : β → Option (List UInt8)} {f : Nat → β} {n : Nat} :
    finish write ((List.range n).map f) =
      orPanic (((List.range n).mapM fun c => write (f c)).map List.flatten) := by
  rw [finish, List.mapM_map]
  rfl

theorem Walk.Gives.fold_finish {β : Type} {step : β → Nat → α → β} {init : β}
    {write : β → Option (List UInt8)}
    (hgives : walk.Gives checks read total blockBytes e members) :
    (walk.fold checks read total blockBytes e (pushAt step) init >>= finish write) =
      orPanic (((List.range walk.cells).mapM fun c =>
        write ((members c).foldl (fun b d => step b d.1 d.2) init)).map List.flatten) := by
  rw [hgives β step init]
  exact finish_map

/-- A run writes numpy's function of what is folded into each cell. -/
theorem run_of_gives (h : e.Valued dtype value)
    (hgives : walk.Gives checks read total blockBytes e members)
    (hcovers : Numpy.covers function = true) :
    run checks F read total blockBytes e function walk =
      orPanic (((List.range walk.cells).mapM fun c =>
        Numpy.cell function dtype (valuesOf value (members c))).map List.flatten) := by
  have hextreme : ∀ (max : Bool) (c : Nat),
      ((members c).foldl (fun slot d => extremePush e max false slot d.1 d.2) none).map e.write =
        (best max ((valuesOf value (members c)).map Prod.snd)).map (Numpy.encode dtype) := by
    intro max c
    rw [map_snd_valuesOf, ← (maxOf_foldl h.comparable (members c)).best_eq, Option.map_map]
    exact congrArg (Option.map · _) (funext h.write)
  have hfirst : ∀ (max : Bool) (c : Nat),
      ((members c).foldl (fun slot d => argPush e max slot d.1 d.2) none).map
          (fun s => Endian.toLE 8 s.2.1) =
        Numpy.first (best max ((valuesOf value (members c)).map Prod.snd))
          (valuesOf value (members c)) :=
    fun max c => (firstOf_foldl h.comparable (members c)).first_eq
  have hcells : ∀ f : Nat → Option (List UInt8),
      (∀ c, f c = Numpy.cell function dtype (valuesOf value (members c))) →
        orPanic (((List.range walk.cells).mapM f).map List.flatten) =
          orPanic (((List.range walk.cells).mapM fun c =>
            Numpy.cell function dtype (valuesOf value (members c))).map List.flatten) := by
    intro f hf
    rw [funext hf]
  cases function with
  | sum =>
      simp only [run, runSum, h.bits, hgives.fold_finish]
      apply hcells
      intro c
      have hfold := @foldl_sumPush α value (members c) false 0
      rw [if_neg Bool.false_ne_true, Int.zero_add] at hfold
      exact congrArg (fun n => some (Endian.toLE 8 n)) hfold
  | prod =>
      simp only [run, runSum, h.bits, hgives.fold_finish]
      apply hcells
      intro c
      have hfold := @foldl_sumPush α value (members c) true 1
      rw [if_pos rfl, Int.one_mul] at hfold
      exact congrArg (fun n => some (Endian.toLE 8 n)) hfold
  | max =>
      rw [run, runExtreme, hgives.fold_finish]
      exact hcells _ (hextreme true)
  | min =>
      rw [run, runExtreme, hgives.fold_finish]
      exact hcells _ (hextreme false)
  | argmax =>
      rw [run, runArg, hgives.fold_finish]
      exact hcells _ (hfirst true)
  | argmin =>
      rw [run, runArg, hgives.fold_finish]
      exact hcells _ (hfirst false)
  | all =>
      rw [run, runLogic, hgives.fold_finish]
      exact hcells _ fun c => congrArg (fun b => some (Numpy.encodeBool b))
        ((foldl_logicPush h true true).trans (Bool.true_and _))
  | any =>
      rw [run, runLogic, hgives.fold_finish]
      exact hcells _ fun c => congrArg (fun b => some (Numpy.encodeBool b))
        ((foldl_logicPush h false false).trans (Bool.false_or _))
  | mean | std | var | nanSum | nanMean | nanMax | nanMin => cases hcovers

section Elements

variable {shape : List Nat} {mask : List Bool} {posAxis : Option Nat} {ddof : Int64} {out : DType}
  {els : List (List UInt8)}

theorem gives_of_elements (hdims : ∀ d ∈ shape, 0 < d) (hlength : mask.length = shape.length)
    (hfit : (keep mask shape).prod < Word.size 64) (hsize : 0 < e.size)
    (hblock : e.size ≤ blockBytes)
    (hels : elementsFrom read total (blockBytes / e.size * e.size) e.size (total + 1) 0 =
      .ok els) :
    (walkOf shape mask posAxis ddof out).Gives checks read total blockBytes e fun c =>
      Bins.of c (placed shape mask posAxis 0 (els.map e.read)) := by
  intro β step init
  rw [fold_eq (fun _ => hdims) hlength hfit hsize hblock pushAt_of_lt, hels]
  exact congrArg Except.ok Bins.fill_replicate

theorem cellAt_eq_iff (hdims : ∀ d ∈ shape, 0 < d) {c k : Nat} (hc : c < (keep mask shape).prod) :
    cellAt shape mask k = c ↔ keep mask (coords shape k) = coords (keep mask shape) c := by
  have hwithin : Within (keep mask (coords shape k)) (keep mask shape) :=
    keep_within (coords_within hdims)
  constructor
  · rintro rfl
    exact (coords_flat hwithin).symm
  · intro h
    rw [cellAt, h, flat_coords, Nat.mod_eq_of_lt hc]

/-- What comes to a cell is what numpy makes it from. -/
theorem valuesOf_placed {axis : Axis} (hdims : ∀ d ∈ shape, 0 < d)
    (hmask : mask = Numpy.mask shape.length axis)
    (hpos : ∀ k, posAt shape posAxis k = Numpy.position shape axis k) {c : Nat}
    (hc : c < (keep mask shape).prod) (xs : List α) :
    valuesOf value (Bins.of c (placed shape mask posAxis 0 xs)) =
      Numpy.members shape axis (xs.map value) c := by
  unfold valuesOf Bins.of placed Numpy.members
  dsimp only
  rw [← hmask, List.zipIdx_map, List.filter_map, List.filter_map, List.map_map, List.map_map,
    List.map_map]
  have hfilter : ((fun datum : Nat × Nat × α => decide (datum.1 = c)) ∘
      fun x : α × Nat => (cellAt shape mask x.2, posAt shape posAxis x.2, x.1)) =
      (fun x : Int × Nat => decide (keep mask (coords shape x.2) = coords (keep mask shape) c)) ∘
        Prod.map value id := by
    funext x
    exact decide_eq_decide.mpr (cellAt_eq_iff hdims hc)
  rw [hfilter]
  apply List.map_congr_left
  intro x _
  exact congrArg (·, value x.1) (hpos x.2)

end Elements

end Run

/-! ## Requests -/

theorem outShape_eq {keepdims : Bool} {shape : List Nat} {mask : List Bool} :
    outShape keepdims shape mask =
      if keepdims then List.zipWith (fun len reduced => if reduced then 1 else len) shape mask
      else keep mask shape := by
  induction shape generalizing mask with
  | nil => cases mask <;> simp [outShape]
  | cons d shape ih =>
      cases mask with
      | nil => cases keepdims <;> rfl
      | cons reduced mask => cases reduced <;> cases keepdims <;> simp [outShape, keep, ih]

theorem length_cell {function : Function} {dtype : DType} {data : List (Nat × Int)}
    {bytes : List UInt8} (hdtype : Function.integral dtype = true)
    (h : Numpy.cell function dtype data = some bytes) :
    bytes.length = (function.resultDtype dtype).itemsize := by
  have hsum : ∀ n, (Endian.toLE 8 n).length = (Function.resultDtype .sum dtype).itemsize := by
    intro n
    rw [Endian.length_toLE]
    cases dtype <;> first | rfl | cases hdtype
  have hfirst : ∀ best, Numpy.first best data = some bytes → bytes.length = 8 := by
    intro best hsome
    obtain ⟨d, -, rfl⟩ := Option.map_eq_some_iff.mp hsome
    exact Endian.length_toLE
  cases function with
  | sum | prod =>
      cases h
      exact hsum _
  | max | min =>
      obtain ⟨x, -, rfl⟩ := Option.map_eq_some_iff.mp h
      exact Endian.length_toLE
  | argmax | argmin => exact hfirst _ h
  | all | any =>
      cases h
      rfl
  | mean | std | var | nanSum | nanMean | nanMax | nanMin => cases h

theorem length_cells {function : Function} {dtype : DType} {members : Nat → List (Nat × Int)}
    {n : Nat} {cells : List (List UInt8)} (hdtype : Function.integral dtype = true)
    (h : (List.range n).mapM (fun c => Numpy.cell function dtype (members c)) = some cells) :
    cells.flatten.length = n * (function.resultDtype dtype).itemsize := by
  have hall := Fallible.mapM_eq_some.mp h
  have hlen : cells.length = n := by rw [← hall.length_eq, List.length_range]
  have hwidth : ∀ bytes ∈ cells, bytes.length = (function.resultDtype dtype).itemsize := by
    intro bytes hbytes
    obtain ⟨i, hi, rfl⟩ := List.getElem_of_mem hbytes
    exact length_cell hdtype (hall.get (hall.length_eq ▸ hi) hi)
  rw [List.length_flatten, List.map_congr_left hwidth, List.map_const', List.sum_replicate, hlen,
    smul_eq_mul]

section Request

variable {ν : Type} {checks : Bool} {F : Arith ν} {read : ReadRange} {L : SelectionLayout}
  {function : Function} {args : ReduceArgs} {blockBytes maxBytes : Nat} {stream : List UInt8}
  {r : Reduced}

/-- What a request that succeeds has done. -/
theorem reduceBy_ok (h : reduceBy blockBytes checks F read L function args maxBytes = .ok r) :
    ∃ mask stride cells posAxis data,
      reducedAxes L.outShape.length args.axis function = .ok mask ∧
      strides checks L.outShape mask = some (stride, cells) ∧
      (posAxis = match args.axis with
        | .one _ => mask.findIdx? id
        | _ => none) ∧
      runDtype checks F read L.totalBytes blockBytes L.dtype function
        ⟨L.outShape, stride, posAxis, cells, args.ddof, function.resultDtype L.dtype⟩ = .ok data ∧
      r = ⟨function.resultDtype L.dtype, outShape args.keepdims L.outShape mask, data⟩ := by
  unfold reduceBy at h
  cases hmask : reducedAxes L.outShape.length args.axis function with
  | error e =>
      rw [hmask] at h
      cases h
  | ok mask =>
      cases hstrides : strides checks L.outShape mask with
      | none => simp [hmask, hstrides, Except.mapError, Bind.bind, Except.bind, orPanic] at h
      | some walk =>
          cases hper : perCell checks L.outShape mask with
          | none =>
              simp [hmask, hstrides, hper, Except.mapError, Bind.bind, Except.bind, orPanic] at h
          | some per =>
              simp only [hmask, hstrides, hper, Except.mapError, Bind.bind, Except.bind, orPanic] at h
              split at h
              · cases h
              split at h
              · cases h
              split at h
              · cases h
              rename_i data hdata
              cases h
              exact ⟨mask, walk.1, walk.2, _, data, rfl, hstrides, rfl, hdata, rfl⟩

/-- The cells of a result are numpy's, as many as their number in a word. -/
theorem reduceBy_cells (hstreams : Streams L) (hcount : L.outShape.prod < Word.size 64)
    (hdtype : Function.integral L.dtype = true) (hcovers : Numpy.covers function = true)
    (hstream : stream.length = L.totalBytes) (hread : Serves read stream)
    (hblock : L.dtype.itemsize ≤ blockBytes)
    (h : reduceBy blockBytes checks F read L function args maxBytes = .ok r) :
    ∃ cells, (List.range
        ((keep (Numpy.mask L.outShape.length args.axis) L.outShape).prod % Word.size 64)).mapM
          (fun c => Numpy.cell function L.dtype
            (Numpy.members L.outShape args.axis (Numpy.values L.dtype stream) c)) = some cells ∧
      r = ⟨function.resultDtype L.dtype, Numpy.resultShape L.outShape args, cells.flatten⟩ := by
  obtain ⟨mask, stride, n, posAxis, data, hmask, hstrides, hposAxis, hdata, rfl⟩ := reduceBy_ok h
  have hlength := length_reducedAxes hmask
  have hpos := posAt_eq hposAxis hmask
  have hnumpy := reducedAxes_eq hmask
  have hshape : Numpy.resultShape L.outShape args = outShape args.keepdims L.outShape mask := by
    rw [outShape_eq, hnumpy]
    rfl
  rw [← hnumpy, ← strides_cells hstrides, hshape]
  suffices hcells : ∃ cells, (List.range n).mapM (fun c => Numpy.cell function L.dtype
      (Numpy.members L.outShape args.axis (Numpy.values L.dtype stream) c)) = some cells ∧
      data = cells.flatten by
    obtain ⟨cells, hcells, rfl⟩ := hcells
    exact ⟨cells, hcells, rfl⟩
  have hok : ∀ run : Option (List (List UInt8)), orPanic (run.map List.flatten) = .ok data →
      ∃ cells, run = some cells ∧ data = cells.flatten := by
    intro run hrun
    cases run with
    | none => cases hrun
    | some cells =>
        cases hrun
        exact ⟨cells, rfl, rfl⟩
  revert hdata
  refine runDtype_valued (P := fun run => run = .ok data → _) hdtype fun α e value he hdata => ?_
  rcases Nat.eq_zero_or_pos L.totalBytes with hzero | htotal
  · obtain rfl : stream = [] := List.length_eq_zero_iff.mp (hstream.trans hzero)
    rw [hzero, run_of_gives he gives_zero hcovers] at hdata
    have hvalues : Numpy.values L.dtype [] = [] := by rw [Numpy.values, chunksExact_nil]; rfl
    rw [hvalues]
    exact hok _ hdata
  · have hdims := hstreams.dims_pos htotal
    have hcells : CellsFit L.outShape mask := cellsFit_of_prod_lt hdims hcount
    rw [strides_of_fit hcells] at hstrides
    cases hstrides
    have hsize : 0 < e.size := he.size ▸ L.dtype.itemsize_pos
    have hblock' : e.size ≤ blockBytes := he.size ▸ hblock
    cases hels : elementsFrom read L.totalBytes (blockBytes / e.size * e.size) e.size
        (L.totalBytes + 1) 0 with
    | error error =>
        cases hdata.symm.trans (run_error (he.holds hdtype) (fun _ => hdims) hlength hcells.prod_lt
          hblock hels)
    | ok els =>
        have hgives := @gives_of_elements ν α checks e read L.totalBytes blockBytes L.outShape mask
          posAxis args.ddof (function.resultDtype L.dtype) els hdims hlength hcells.prod_lt hsize
          hblock' hels
        have hdrop := elementsFrom_eq hread hstream hsize
          (Nat.mul_pos (Nat.div_pos hblock' hsize) hsize) (Nat.dvd_mul_left _ _) (by omega) hels
        rw [List.drop_zero, he.size] at hdrop
        have hvalues : (els.map e.read).map value = Numpy.values L.dtype stream := by
          rw [List.map_map, hdrop, Numpy.values]
          exact congrArg (List.map · _) (funext he.read)
        obtain ⟨cells, hcells, hflat⟩ := hok _ ((run_of_gives he hgives hcovers).symm.trans hdata)
        refine ⟨cells, ?_, hflat⟩
        rw [← hcells]
        apply Fallible.mapM_congr
        intro c hc
        rw [valuesOf_placed hdims hnumpy hpos (List.mem_range.mp hc), hvalues]

/-- The result is numpy's, and any other way to read the stream in blocks gives the same. -/
def Reproduces (checks : Bool) (F : Arith ν) (read : ReadRange) (L : SelectionLayout)
    (function : Function) (args : ReduceArgs) (maxBytes : Nat) (stream : List UInt8)
    (r : Reduced) : Prop :=
  Numpy.reduced L.outShape L.dtype function args (Numpy.values L.dtype stream) = some r ∧
  ∀ blockBytes r', L.dtype.itemsize ≤ blockBytes →
    reduceBy blockBytes checks F read L function args maxBytes = .ok r' → r' = r

theorem length_reduced {shape : List Nat} {dtype : DType} {values : List Int}
    (hdtype : Function.integral dtype = true)
    (h : Numpy.reduced shape dtype function args values = some r) :
    r.data.length = (keep (Numpy.mask shape.length args.axis) shape).prod *
      (function.resultDtype dtype).itemsize := by
  obtain ⟨cells, hcells, rfl⟩ := Option.map_eq_some_iff.mp h
  exact length_cells hdtype hcells

end Request

/-- A reduction of integers or bools is numpy's just where the number of its cells fits. -/
theorem integers_reduced_iff {ν : Type} {build : Build} {shape : List Nat} {dtype : DType}
    {indices : List Index} {quality : QualitySpec} {L : SelectionLayout}
    (hL : SelectionLayout.resolve build shape dtype indices quality = .ok L)
    (hcount : L.outShape.prod < 2 ^ 64) (hdtype : Function.integral L.dtype = true)
    {function : Function} (hcovers : Numpy.covers function = true) {read : ReadRange}
    {stream : List UInt8} (hstream : stream.length = L.totalBytes) (hread : Serves read stream)
    {blockBytes : Nat} (hblock : L.dtype.itemsize ≤ blockBytes) {checks : Bool} {F : Arith ν}
    {args : ReduceArgs} {maxBytes : Nat} {r : Reduced}
    (h : reduceBy blockBytes checks F read L function args maxBytes = .ok r) :
    Reproduces checks F read L function args maxBytes stream r ↔
      (keep (Numpy.mask L.outShape.length args.axis) L.outShape).prod < 2 ^ 64 := by
  have hcells := fun blockBytes hblock r h => @reduceBy_cells ν checks F read L function args
    blockBytes maxBytes stream r (streams_of_resolve hL) hcount hdtype hcovers hstream hread hblock h
  constructor
  · rintro ⟨hreduced, -⟩
    obtain ⟨cells, hsome, rfl⟩ := hcells blockBytes hblock r h
    have hcode := length_cells hdtype hsome
    have hnumpy := length_reduced hdtype hreduced
    have heq := Nat.eq_of_mul_eq_mul_right (DType.itemsize_pos _) (hcode.symm.trans hnumpy)
    exact heq ▸ Nat.mod_lt _ (Nat.two_pow_pos 64)
  · intro hfit
    have hreduced : ∀ blockBytes, L.dtype.itemsize ≤ blockBytes → ∀ r,
        reduceBy blockBytes checks F read L function args maxBytes = .ok r →
        Numpy.reduced L.outShape L.dtype function args (Numpy.values L.dtype stream) = some r := by
      intro blockBytes hblock r h
      obtain ⟨cells, hsome, rfl⟩ := hcells blockBytes hblock r h
      rw [Nat.mod_eq_of_lt hfit] at hsome
      exact Option.map_eq_some_iff.mpr ⟨cells, hsome, rfl⟩
    refine ⟨hreduced blockBytes hblock r h, fun other r' hother h' => ?_⟩
    have hboth := (hreduced other hother r' h').symm.trans (hreduced blockBytes hblock r h)
    exact Option.some.inj hboth

/-- Reads the bytes of a stream. -/
def reading (stream : List UInt8) : ReadRange := fun offset len =>
  .ok (Vector.ofFn fun i : Fin len => stream.getD (offset + i) 0)

theorem serves_reading (stream : List UInt8) : Serves (reading stream) stream := by
  intro offset len bytes hlen h
  cases h
  apply List.ext_getElem?
  intro i
  rw [Vec.getElem?_slice, Vector.toList_ofFn, List.getElem?_ofFn]
  by_cases hi : i < len
  · rw [dif_pos hi, if_pos hi, List.getD_eq_getElem?_getD,
      List.getElem?_eq_getElem (by omega : offset + i < stream.length)]
    rfl
  · rw [dif_neg hi, if_neg hi]

/-- A whole array of 16-bit integers. -/
def wholeShorts (shape : List Nat) (count : Nat) : SelectionLayout :=
  ⟨shape, .int16, .int16, count * 2, .exact, .contiguous 0 (count * 2)⟩

theorem integers_reduced_iff_rows :
    Reproduces true noArith (reading [1, 0, 2, 0, 3, 0, 4, 0, 5, 0, 255, 255]) (wholeShorts [2, 3] 6)
      .sum ⟨.one (-1), false, 0⟩ 1024 [1, 0, 2, 0, 3, 0, 4, 0, 5, 0, 255, 255]
      ⟨.int64, [2], [6, 0, 0, 0, 0, 0, 0, 0, 8, 0, 0, 0, 0, 0, 0, 0]⟩ := by
  have hL : SelectionLayout.resolve ⟨false, false⟩ [2, 3] .int16 [] .exact =
      .ok (wholeShorts [2, 3] 6) := by decide +kernel
  have hreduce : reduceBy 4 true noArith (reading [1, 0, 2, 0, 3, 0, 4, 0, 5, 0, 255, 255])
      (wholeShorts [2, 3] 6) .sum ⟨.one (-1), false, 0⟩ 1024 =
      .ok ⟨.int64, [2], [6, 0, 0, 0, 0, 0, 0, 0, 8, 0, 0, 0, 0, 0, 0, 0]⟩ := by decide +kernel
  exact (integers_reduced_iff hL (by decide) rfl rfl rfl (serves_reading _) (by decide) hreduce).mpr
    (by decide)

/-- The cells of an empty selection can be more than a word counts. -/
theorem wide_empty_reduction_dropped :
    ¬ ∀ (build : Build) (shape : List Nat) (dtype : DType) (indices : List Index)
      (quality : QualitySpec) (L : SelectionLayout) (function : Function) (read : ReadRange)
      (stream : List UInt8) (blockBytes : Nat) (checks : Bool) (F : Arith Unit) (args : ReduceArgs)
      (maxBytes : Nat) (r : Reduced),
      SelectionLayout.resolve build shape dtype indices quality = .ok L →
        L.outShape.prod < 2 ^ 64 → Function.integral L.dtype = true →
          Numpy.covers function = true → stream.length = L.totalBytes → Serves read stream →
            L.dtype.itemsize ≤ blockBytes →
              reduceBy blockBytes checks F read L function args maxBytes = .ok r →
                Reproduces checks F read L function args maxBytes stream r := by
  intro h
  have hL : SelectionLayout.resolve ⟨false, false⟩ [0, 2 ^ 32, 2 ^ 32] .int16 [] .exact =
      .ok (wholeShorts [0, 2 ^ 32, 2 ^ 32] 0) := by decide +kernel
  have hreduce : reduceBy 4 false noArith (reading []) (wholeShorts [0, 2 ^ 32, 2 ^ 32] 0) .sum
      ⟨.one 0, false, 0⟩ 1024 = .ok ⟨.int64, [2 ^ 32, 2 ^ 32], []⟩ := by decide +kernel
  obtain ⟨hreduced, -⟩ := h _ _ _ _ _ _ .sum _ [] 4 false noArith _ 1024 _ hL (by decide) rfl rfl rfl
    (serves_reading []) (by decide) hreduce
  exact absurd (length_reduced rfl hreduced) (by decide)

end Reduce

end Aex
