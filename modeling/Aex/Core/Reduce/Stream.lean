import Mathlib.Data.Nat.ModEq
import Aex.Core.Reduce.Model
import Aex.Lib.Bins
import Aex.Lib.Radix

/-!
# How a selection's elements come to the cells

Every element of the stream goes, with its position, to the cell that the kept
coordinates of its own position number.
-/

namespace Aex

namespace Reduce

open Radix

/-! ## Cells -/

/-- The products of the last kept lengths all fit. -/
def CellsFit (shape : List Nat) (mask : List Bool) : Prop :=
  ∀ k, (keep (mask.drop k) (shape.drop k)).prod < Word.size 64

/-- Per axis, how far a step moves the cell. -/
def cellStrides : List Nat → List Bool → List Nat
  | _ :: shape, reduced :: mask =>
      (if reduced then 0 else (keep mask shape).prod) :: cellStrides shape mask
  | _, _ => []

/-- The cell of the element number `k`. -/
def cellAt (shape : List Nat) (mask : List Bool) (k : Nat) : Nat :=
  flat (keep mask (coords shape k)) (keep mask shape)

variable {checks : Bool} {shape : List Nat} {mask : List Bool} {base k : Nat}

theorem CellsFit.prod_lt (h : CellsFit shape mask) : (keep mask shape).prod < Word.size 64 := h 0

theorem CellsFit.tail {d : Nat} {m : Bool} (h : CellsFit (d :: shape) (m :: mask)) :
    CellsFit shape mask := fun k => h (k + 1)

theorem strides_of_fit (h : CellsFit shape mask) :
    strides checks shape mask = some (cellStrides shape mask, (keep mask shape).prod) := by
  induction shape generalizing mask with
  | nil => simp [strides, cellStrides]
  | cons d shape ih =>
      cases mask with
      | nil => rfl
      | cons m mask =>
          rw [strides, ih h.tail]
          cases m with
          | true => rfl
          | false =>
              have hprod := h.prod_lt
              rw [keep, List.prod_cons, Nat.mul_comm] at hprod
              simp only [Option.bind_eq_bind, Option.bind_some, Bool.false_eq_true, if_false,
                Word.mul_of_lt hprod, keep, List.prod_cons, Nat.mul_comm d, cellStrides]

/-- Where the arithmetic is checked, that they fit is what it checks. -/
theorem strides_true_ne_none_iff :
    strides true shape mask ≠ none ↔ CellsFit shape mask := by
  constructor
  · intro h
    induction shape generalizing mask with
    | nil =>
        intro k
        simp
    | cons d shape ih =>
        cases mask with
        | nil =>
            intro k
            simp [keep]
        | cons m mask =>
            have htail : strides true shape mask ≠ none := by
              intro hnone
              rw [strides, hnone] at h
              exact h rfl
            have hfit := ih htail
            intro k
            cases k with
            | succ k => exact hfit k
            | zero =>
                cases m with
                | true => exact hfit 0
                | false =>
                    rw [strides, strides_of_fit hfit] at h
                    simp only [Option.bind_eq_bind, Option.bind_some, Bool.false_eq_true, if_false,
                      Word.mul, if_true, Word.checkedMul] at h
                    split at h
                    · rename_i hlt
                      rw [List.drop_zero, List.drop_zero, keep, List.prod_cons, Nat.mul_comm]
                      exact hlt
                    · exact absurd rfl h
  · intro h
    rw [strides_of_fit h]
    exact Option.some_ne_none _

theorem cellAt_lt (hdims : ∀ d ∈ shape, 0 < d) : cellAt shape mask k < (keep mask shape).prod :=
  flat_lt (keep_within (coords_within hdims))

section Advance

variable {strides idx rest : List Nat} {len stride i cell next : Nat}

theorem advance_stay (h : advance checks shape strides idx cell = some (rest, next, false)) :
    advance checks (len :: shape) (stride :: strides) (i :: idx) cell =
      some (i :: rest, next, false) := by
  rw [advance, h]
  rfl

theorem advance_step (h : advance checks shape strides idx cell = some (rest, next, true))
    (hadd : next + stride < Word.size 64) (hi : i + 1 < len) :
    advance checks (len :: shape) (stride :: strides) (i :: idx) cell =
      some ((i + 1) :: rest, next + stride, false) := by
  rw [advance, h]
  simp only [Option.bind_eq_bind, Option.bind_some, Word.add_of_lt hadd, if_pos hi]

theorem advance_turn (h : advance checks shape strides idx cell = some (rest, next, true))
    (hadd : next + stride < Word.size 64) (hi : ¬ i + 1 < len)
    (hturn : stride * len ≤ next + stride) :
    advance checks (len :: shape) (stride :: strides) (i :: idx) cell =
      some (0 :: rest, next + stride - stride * len, true) := by
  rw [advance, h]
  simp only [Option.bind_eq_bind, Option.bind_some, Word.add_of_lt hadd, if_neg hi,
    Word.mul_of_lt (hturn.trans_lt hadd), Word.sub_of_le hturn hadd]

end Advance

/-- The cell is where the odometer says it is, past the cells before the box. -/
theorem advance_eq (hdims : ∀ d ∈ shape, 0 < d) (hlength : mask.length = shape.length)
    (hfit : base + (keep mask shape).prod < Word.size 64) :
    advance checks shape (cellStrides shape mask) (coords shape k) (base + cellAt shape mask k) =
      some (coords shape (k + 1), base + cellAt shape mask (k + 1),
        decide (shape.prod ∣ k + 1)) := by
  induction shape generalizing mask base with
  | nil =>
      obtain rfl : mask = [] := List.length_eq_zero_iff.mp hlength
      simp [advance, cellAt, keep]
  | cons d shape ih =>
      cases mask with
      | nil => cases hlength
      | cons m mask =>
          rw [List.forall_mem_cons] at hdims
          have hlt : k / shape.prod % d < d := Nat.mod_lt _ hdims.1
          have hwhole := @prod_cons_dvd_succ_iff shape k d hdims.1
          have hbelow : cellAt shape mask (k + 1) < (keep mask shape).prod := cellAt_lt hdims.2
          cases m with
          | true =>
              have hcell : cellAt (d :: shape) (true :: mask) = cellAt shape mask := rfl
              rw [keep] at hfit
              have hrest := @ih mask base hdims.2 (Nat.succ.inj hlength) hfit
              rw [hcell, cellStrides, if_pos rfl, coords]
              by_cases hdvd : shape.prod ∣ k + 1
              · rw [decide_eq_true hdvd] at hrest
                by_cases hmore : k / shape.prod % d + 1 < d
                · rw [advance_step hrest (by omega) hmore, coords_succ_of_lt hdvd hmore,
                    decide_eq_false (mt hwhole.mp (by omega))]
                  rfl
                · have hlast : k / shape.prod % d + 1 = d := by omega
                  rw [advance_turn hrest (by omega) hmore (by simp),
                    coords_succ_of_last hdvd hlast, decide_eq_true (hwhole.mpr ⟨hdvd, hlast⟩)]
                  simp
              · rw [decide_eq_false hdvd] at hrest
                rw [advance_stay hrest, coords_succ_of_not_dvd hdvd,
                  decide_eq_false (mt hwhole.mp fun h => hdvd h.1)]
          | false =>
              obtain ⟨P, hP⟩ : ∃ P, (keep mask shape).prod = P := ⟨_, rfl⟩
              have hcell : ∀ j, cellAt (d :: shape) (false :: mask) j =
                  j / shape.prod % d * P + cellAt shape mask j := fun j => by rw [← hP]; rfl
              rw [keep, List.prod_cons, hP] at hfit
              rw [hP] at hbelow
              obtain ⟨q, hq⟩ : ∃ q, k / shape.prod % d = q := ⟨_, rfl⟩
              have hroom : (q + 1) * P ≤ d * P := Nat.mul_le_mul_right P (hq ▸ hlt)
              rw [Nat.add_mul, Nat.one_mul] at hroom
              have hrest := @ih mask (base + q * P) hdims.2 (Nat.succ.inj hlength) (by omega)
              rw [hcell k, cellStrides, if_neg Bool.false_ne_true, coords, hP, hq, ← Nat.add_assoc]
              by_cases hdvd : shape.prod ∣ k + 1
              · have hzero : cellAt shape mask (k + 1) = 0 := by
                  rw [cellAt, coords_of_dvd hdvd, flat_keep_replicate]
                rw [decide_eq_true hdvd, hzero] at hrest
                by_cases hmore : k / shape.prod % d + 1 < d
                · have hnext : (k + 1) / shape.prod % d = q + 1 := by
                    have := coords_succ_of_lt hdvd hmore
                    rw [coords, hq] at this
                    exact (List.cons.inj this).1
                  rw [hq] at hmore
                  rw [advance_step hrest (by omega) hmore, hcell, hnext, hzero, Nat.add_mul,
                    coords_succ_of_lt hdvd (hq ▸ hmore), hq,
                    decide_eq_false (mt hwhole.mp (by omega))]
                  simp only [Nat.one_mul, Nat.add_zero, Nat.add_assoc]
                · have hlast : q + 1 = d := by omega
                  have hnext : (k + 1) / shape.prod % d = 0 := by
                    have := coords_succ_of_last hdvd (hq ▸ hlast)
                    rw [coords] at this
                    exact (List.cons.inj this).1
                  have hfull : P * d = q * P + P := by
                    rw [← hlast, Nat.mul_comm, Nat.add_mul, Nat.one_mul]
                  rw [advance_turn hrest (by omega) (by omega) (by omega), hcell, hnext, hzero,
                    coords_succ_of_last hdvd (hq ▸ hlast),
                    decide_eq_true (hwhole.mpr ⟨hdvd, hq ▸ hlast⟩), hfull]
                  simp only [Nat.zero_mul, Nat.add_zero]
                  congr 3
                  omega
              · have hnext : (k + 1) / shape.prod % d = q := by
                  have := @coords_succ_of_not_dvd shape k d hdvd
                  rw [coords, hq] at this
                  exact (List.cons.inj this).1
                rw [decide_eq_false hdvd] at hrest
                rw [advance_stay hrest, coords_succ_of_not_dvd hdvd, hcell, hnext, hq,
                  decide_eq_false (mt hwhole.mp fun h => hdvd h.1), Nat.add_assoc]

/-! ## Feeding the cells -/

section Feed

variable {ν α β : Type} {push : Push β α} {step : β → Nat → α → β} {acc : List β}
  {data more : List (Nat × Nat × α)}

/-- Elements come to cells one after the other, each with its position. -/
def feed (push : Push β α) (acc : List β) (data : List (Nat × Nat × α)) : Option (List β) :=
  data.foldlM (fun acc d => push acc d.1 d.2.1 d.2.2) acc

theorem feed_append :
    feed push acc (data ++ more) = (feed push acc data).bind fun acc => feed push acc more := by
  simp [feed]

/-- Within its cells, an accumulator puts each element into its bin. -/
theorem feed_of_lt (hpush : ∀ acc cell pos x, cell < acc.length →
      push acc cell pos x = some (acc.modify cell fun b => step b pos x))
    (hdata : ∀ d ∈ data, d.1 < acc.length) :
    feed push acc data = some (Bins.fill (fun b (d : Nat × α) => step b d.1 d.2) acc data) := by
  induction data generalizing acc with
  | nil => rfl
  | cons d data ih =>
      rw [List.forall_mem_cons] at hdata
      rw [feed, List.foldlM_cons, hpush _ _ _ _ hdata.1]
      exact ih (by simpa using hdata.2)

theorem pushAt_of_lt (acc : List β) (cell pos : Nat) (x : α) (h : cell < acc.length) :
    pushAt step acc cell pos x = some (acc.modify cell fun b => step b pos x) := if_pos h

theorem skipping_of_lt {e : Elem ν α} {skipNan : Bool} (acc : List β) (cell pos : Nat) (x : α)
    (h : cell < acc.length) : skipping e skipNan (pushAt step) acc cell pos x =
      some (acc.modify cell fun b => if skipNan && e.isNan x then b else step b pos x) := by
  unfold skipping
  split
  · exact congrArg some (List.modify_id _ _).symm
  · exact pushAt_of_lt acc cell pos x h

end Feed

/-! ## The walk -/

section Walk

variable {ν α β : Type} {e : Elem ν α} {push : Push β α} {posAxis : Option Nat} {ddof : Int64}
  {out : DType}

/-- The walk over a selection whose cells fit. -/
def walkOf (shape : List Nat) (mask : List Bool) (posAxis : Option Nat) (ddof : Int64)
    (out : DType) : Walk :=
  ⟨shape, cellStrides shape mask, posAxis, (keep mask shape).prod, ddof, out⟩

/-- The position reported for the element number `k`. -/
def posAt (shape : List Nat) (posAxis : Option Nat) (k : Nat) : Nat :=
  posAxis.elim k fun a => (coords shape k).getD a 0

/-- Elements from the number `k` on, with their cells and positions. -/
def placed (shape : List Nat) (mask : List Bool) (posAxis : Option Nat) (k : Nat) (xs : List α) :
    List (Nat × Nat × α) :=
  (xs.zipIdx k).map fun (x, j) => (cellAt shape mask j, posAt shape posAxis j, x)

def cursorAt (shape : List Nat) (mask : List Bool) (k : Nat) (acc : List β) : Cursor β :=
  ⟨coords shape k, cellAt shape mask k, k, acc⟩

theorem visits_eq (hdims : ∀ d ∈ shape, 0 < d) (hlength : mask.length = shape.length)
    (hfit : (keep mask shape).prod < Word.size 64) (xs : List α) (k : Nat) (acc : List β) :
    xs.foldlM (fun c x => (walkOf shape mask posAxis ddof out).visit checks push c x)
        (cursorAt shape mask k acc) =
      (feed push acc (placed shape mask posAxis k xs)).map
        (cursorAt shape mask (k + xs.length)) := by
  induction xs generalizing k acc with
  | nil => rfl
  | cons x xs ih =>
      have hnext := @advance_eq checks shape mask 0 k hdims hlength (by omega)
      rw [Nat.zero_add, Nat.zero_add] at hnext
      have hvisit : (walkOf shape mask posAxis ddof out).visit checks push
          (cursorAt shape mask k acc) x =
          (push acc (cellAt shape mask k) (posAt shape posAxis k) x).map
            (cursorAt shape mask (k + 1)) := by
        unfold Walk.visit
        simp only [walkOf, cursorAt, hnext, Option.bind_eq_bind, Option.bind_some]
        show (push acc _ (posAt shape posAxis k) x).bind _ = _
        cases push acc (cellAt shape mask k) (posAt shape posAxis k) x <;> rfl
      rw [List.foldlM_cons, hvisit, placed, List.zipIdx_cons, List.map_cons, feed,
        List.foldlM_cons]
      cases hpush : push acc (cellAt shape mask k) (posAt shape posAxis k) x with
      | none => rfl
      | some acc' =>
          have hrest := ih (k + 1) acc'
          rw [List.length_cons, Nat.add_comm xs.length, ← Nat.add_assoc]
          exact hrest

/-- The elements that are read from an offset on. -/
def elementsFrom (read : ReadRange) (total block size : Nat) :
    Nat → Nat → Except AexError (List (List UInt8))
  | 0, _ => .ok []
  | fuel + 1, offset =>
      if offset < total then
        match read offset (min (total - offset) block) with
        | .error e => .error e
        | .ok bytes =>
            (elementsFrom read total block size fuel (offset + min (total - offset) block)).map
              (chunksExact size bytes.toList ++ ·)
      else .ok []

theorem length_chunksExact {size : Nat} {bytes : List UInt8} :
    (chunksExact size bytes).length = bytes.length / size := by
  simp [chunksExact]

theorem length_elementsFrom {read : ReadRange} {total block size fuel offset : Nat}
    (hblock : 0 < block) (hsize : size ∣ block) (htotal : size ∣ total - offset)
    (hfuel : total - offset < fuel) {els : List (List UInt8)}
    (h : elementsFrom read total block size fuel offset = .ok els) :
    els.length = (total - offset) / size := by
  induction fuel generalizing offset els with
  | zero => omega
  | succ fuel ih =>
      rw [elementsFrom] at h
      split at h
      · rename_i hlt
        split at h
        · cases h
        rename_i bytes hread
        cases hrest : elementsFrom read total block size fuel
            (offset + min (total - offset) block) with
        | error e =>
            rw [hrest] at h
            cases h
        | ok rest =>
            rw [hrest] at h
            cases h
            have hlen : size ∣ min (total - offset) block := by
              rcases Nat.le_total (total - offset) block with hle | hle
              · rwa [Nat.min_eq_left hle]
              · rwa [Nat.min_eq_right hle]
            have hless : total - (offset + min (total - offset) block) =
                total - offset - min (total - offset) block := by omega
            have hsum : total - offset = min (total - offset) block +
                (total - (offset + min (total - offset) block)) := by omega
            rw [List.length_append, length_chunksExact, Vector.length_toList,
              ih (hless ▸ Nat.dvd_sub htotal hlen) (by omega) hrest, ← Nat.add_div_of_dvd_right hlen,
              ← hsum]
      · rename_i hend
        cases h
        rw [Nat.sub_eq_zero_of_le (Nat.not_lt.mp hend), Nat.zero_div]
        rfl

theorem exists_elementsFrom {read : ReadRange} (hread : ∀ offset len, ∃ bytes,
    read offset len = .ok bytes) (total block size fuel offset : Nat) :
    ∃ els, elementsFrom read total block size fuel offset = .ok els := by
  induction fuel generalizing offset with
  | zero => exact ⟨[], rfl⟩
  | succ fuel ih =>
      rw [elementsFrom]
      split
      · obtain ⟨bytes, hbytes⟩ := hread offset (min (total - offset) block)
        obtain ⟨els, hels⟩ := ih (offset + min (total - offset) block)
        rw [hbytes, hels]
        exact ⟨_, rfl⟩
      · exact ⟨[], rfl⟩

section Blocks

variable {read : ReadRange} {total block fuel offset : Nat} {acc : List β} {step : β → Nat → α → β}

theorem placed_append {xs ys : List α} :
    placed shape mask posAxis k (xs ++ ys) =
      placed shape mask posAxis k xs ++ placed shape mask posAxis (k + xs.length) ys := by
  simp [placed, List.zipIdx_append]

theorem visitAll_eq (hdims : ∀ d ∈ shape, 0 < d) (hlength : mask.length = shape.length)
    (hfit : (keep mask shape).prod < Word.size 64)
    (hpush : ∀ acc cell pos x, cell < acc.length →
      push acc cell pos x = some (acc.modify cell fun b => step b pos x))
    (hacc : acc.length = (keep mask shape).prod) (bytes : List UInt8) :
    (walkOf shape mask posAxis ddof out).visitAll checks e push (cursorAt shape mask k acc) bytes =
      some (cursorAt shape mask (k + (chunksExact e.size bytes).length)
        (Bins.fill (fun b (d : Nat × α) => step b d.1 d.2) acc
          (placed shape mask posAxis k ((chunksExact e.size bytes).map e.read)))) := by
  have hvisits := @visits_eq checks shape mask α β push posAxis ddof out hdims hlength hfit
    ((chunksExact e.size bytes).map e.read) k acc
  rw [List.foldlM_map, List.length_map, feed_of_lt hpush] at hvisits
  · exact hvisits
  · intro d hd
    obtain ⟨⟨x, j⟩, -, rfl⟩ := List.mem_map.mp hd
    rw [hacc]
    exact cellAt_lt hdims

/-- What the loop over the blocks does, for accumulators that take every element. -/
theorem foldFrom_eq (hdims : ∀ d ∈ shape, 0 < d) (hlength : mask.length = shape.length)
    (hfit : (keep mask shape).prod < Word.size 64) (hblock : 0 < block)
    (hpush : ∀ acc cell pos x, cell < acc.length →
      push acc cell pos x = some (acc.modify cell fun b => step b pos x))
    (hacc : acc.length = (keep mask shape).prod) (hfuel : total - offset < fuel) :
    (walkOf shape mask posAxis ddof out).foldFrom checks read total block e push fuel offset
        (cursorAt shape mask k acc) =
      match elementsFrom read total block e.size fuel offset with
      | .error error => .error (.error error)
      | .ok els => .ok (cursorAt shape mask (k + els.length)
          (Bins.fill (fun b (d : Nat × α) => step b d.1 d.2) acc
            (placed shape mask posAxis k (els.map e.read)))) := by
  induction fuel generalizing offset k acc with
  | zero => omega
  | succ fuel ih =>
      rw [Walk.foldFrom, elementsFrom]
      by_cases hlt : offset < total
      · rw [if_pos hlt, if_pos hlt]
        dsimp only
        cases hread : read offset (min (total - offset) block) with
        | error error => rfl
        | ok bytes =>
            simp only [visitAll_eq hdims hlength hfit hpush hacc]
            rw [ih (Bins.length_fill.trans hacc) (by omega)]
            cases elementsFrom read total block e.size fuel
                (offset + min (total - offset) block) with
            | error error => rfl
            | ok rest =>
                simp only [Except.map, List.map_append, placed_append, Bins.fill_append,
                  List.length_append, List.length_map, Nat.add_assoc]
      · rw [if_neg hlt, if_neg hlt]
        rfl

/-- A fold over the selection puts each element it reads into its bin. -/
theorem fold_eq {blockBytes : Nat} {init : β} (hdims : 0 < total → ∀ d ∈ shape, 0 < d)
    (hlength : mask.length = shape.length) (hfit : (keep mask shape).prod < Word.size 64)
    (hsize : 0 < e.size) (hblock : e.size ≤ blockBytes)
    (hpush : ∀ acc cell pos x, cell < acc.length →
      push acc cell pos x = some (acc.modify cell fun b => step b pos x)) :
    (walkOf shape mask posAxis ddof out).fold checks read total blockBytes e push init =
      match elementsFrom read total (blockBytes / e.size * e.size) e.size (total + 1) 0 with
      | .error error => .error (.error error)
      | .ok els => .ok (Bins.fill (fun b (d : Nat × α) => step b d.1 d.2)
          (List.replicate (keep mask shape).prod init)
          (placed shape mask posAxis 0 (els.map e.read))) := by
  have hpos : 0 < blockBytes / e.size * e.size :=
    Nat.mul_pos (Nat.div_pos hblock hsize) hsize
  have hstart : (⟨List.replicate (walkOf shape mask posAxis ddof out).shape.length 0, 0, 0,
      List.replicate (walkOf shape mask posAxis ddof out).cells init⟩ : Cursor β) =
      cursorAt shape mask 0 (List.replicate (keep mask shape).prod init) := by
    rw [cursorAt, coords_zero, cellAt, coords_zero, flat_keep_replicate]
    rfl
  rw [Walk.fold, hstart]
  rcases Nat.eq_zero_or_pos total with rfl | htotal
  · rfl
  · rw [foldFrom_eq (hdims htotal) hlength hfit hpos hpush (List.length_replicate) (by omega)]
    cases elementsFrom read total (blockBytes / e.size * e.size) e.size (total + 1) 0 <;> rfl

end Blocks

end Walk

end Reduce

end Aex
