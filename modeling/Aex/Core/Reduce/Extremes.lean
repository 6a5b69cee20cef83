import Mathlib.Data.Prod.Lex
import Aex.Core.Reduce.Stream

/-!
# Extremes among numbers and NaNs

What the accumulators of max, min, argmax and argmin end with, for elements that are
numbers of a linear order or no number, whatever cells they come to.
-/

namespace Aex

namespace Reduce

/-- At least as extreme: no smaller for a maximum, and no larger for a minimum. -/
def AsExtreme {κ : Type} [LinearOrder κ] (max : Bool) (a b : κ) : Prop :=
  if max then b ≤ a else a ≤ b

section AsExtreme

variable {κ : Type} [LinearOrder κ] {max : Bool} {a b c : κ}

theorem AsExtreme.refl : AsExtreme max a a := by
  cases max <;> exact le_rfl

theorem AsExtreme.trans (hab : AsExtreme max a b) (hbc : AsExtreme max b c) : AsExtreme max a c := by
  cases max with
  | false => exact le_trans (α := κ) hab hbc
  | true => exact le_trans (α := κ) hbc hab

theorem asExtreme_of_not (h : ¬ AsExtreme max a b) : AsExtreme max b a := by
  cases max with
  | false => exact (not_le.mp h).le
  | true => exact (not_le.mp h).le

end AsExtreme

/-- The elements are numbers of a linear order, or no number, and compare as such. -/
structure Elem.Comparable {ν α κ : Type} [LinearOrder κ] (e : Elem ν α) (number : α → Option κ) :
    Prop where
  isNan : ∀ x, e.isNan x = true ↔ number x = none
  keeps : ∀ max x y, (if max then e.ge x y else e.le x y) = true ↔
    ∃ a b, number x = some a ∧ number y = some b ∧ AsExtreme max a b
  /-- An argmax moves from a number to what is more extreme, or no number. -/
  moves : ∀ max x best a, number best = some a →
    ((if max then e.argGt x best else e.argLt x best) = true ↔
      ∀ b, number x = some b → ¬ AsExtreme max a b)

/-! ## The elements -/

section Elements

variable {ν : Type} (F : Arith ν)

theorem intElem_comparable (size : Nat) (signed : Bool) : (intElem F size signed).Comparable some where
  isNan x := by simp [intElem]
  keeps max x y := by cases max <;> simp [intElem, AsExtreme]
  moves max x best a h := by
    cases h
    cases max <;> simp [intElem, AsExtreme]

theorem boolElem_comparable : (boolElem F).Comparable some where
  isNan x := by simp [boolElem]
  keeps max x y := by cases max <;> cases x <;> cases y <;> simp [boolElem, AsExtreme]
  moves max x best a h := by
    cases h
    cases max <;> cases x <;> cases best <;> simp [boolElem, AsExtreme]

theorem floatElem_comparable (f : Ieee.Format) : (floatElem F f).Comparable f.number where
  isNan x := Ieee.Format.isNan_iff
  keeps max x y := by
    cases max with
    | false => exact Ieee.Format.le_iff
    | true =>
        refine Ieee.Format.le_iff.trans ?_
        constructor
        · rintro ⟨b, a, hb, ha, hle⟩
          exact ⟨a, b, ha, hb, hle⟩
        · rintro ⟨a, b, ha, hb, hle⟩
          exact ⟨b, a, hb, ha, hle⟩
  moves max x best a h := by
    cases max <;> cases hx : f.number x <;> simp [floatElem, Ieee.Format.le, h, hx, AsExtreme]

/-- A complex number, if both its parts are numbers; the real parts compare first. -/
def complexNumber (f : Ieee.Format) (x : Nat × Nat) : Option (Int ×ₗ Int) :=
  match f.number x.1, f.number x.2 with
  | some a, some b => some (toLex (a, b))
  | _, _ => none

theorem complexElem_le_iff {f : Ieee.Format} {x y : Nat × Nat} :
    (complexElem F f).le x y = true ↔
      ∃ a b, complexNumber f x = some a ∧ complexNumber f y = some b ∧ a ≤ b := by
  simp only [complexElem, complexNumber, Ieee.Format.isNan, Ieee.Format.lt, Ieee.Format.le,
    Ieee.Format.eq]
  cases f.number x.1 <;> cases f.number x.2 <;> cases f.number y.1 <;> cases f.number y.2 <;>
    simp [Prod.Lex.toLex_le_toLex]

theorem complexElem_ge {f : Ieee.Format} {x y : Nat × Nat} :
    (complexElem F f).ge x y = (complexElem F f).le y x := by
  have hcomm : f.eq x.1 y.1 = f.eq y.1 x.1 := by
    rw [Bool.eq_iff_iff, Ieee.Format.eq_iff, Ieee.Format.eq_iff]
    simp only [and_comm]
  simp only [complexElem, hcomm, Bool.and_assoc, Bool.and_comm (!f.isNan x.2)]

theorem complexElem_argLt_iff {f : Ieee.Format} {x best : Nat × Nat} {a : Int ×ₗ Int}
    (h : complexNumber f best = some a) :
    (complexElem F f).argLt x best = true ↔ ∀ b, complexNumber f x = some b → ¬ a ≤ b := by
  revert h
  simp only [complexElem, complexNumber, Ieee.Format.isNan, Ieee.Format.lt, Ieee.Format.eq]
  cases f.number x.1 <;> cases f.number x.2 <;> cases f.number best.1 <;> cases f.number best.2 <;>
    simp
  rintro rfl
  rw [Prod.Lex.toLex_lt_toLex]

theorem complexElem_argGt_iff {f : Ieee.Format} {x best : Nat × Nat} {a : Int ×ₗ Int}
    (h : complexNumber f best = some a) :
    (complexElem F f).argGt x best = true ↔ ∀ b, complexNumber f x = some b → ¬ b ≤ a := by
  revert h
  simp only [complexElem, complexNumber, Ieee.Format.isNan, Ieee.Format.lt, Ieee.Format.eq]
  cases f.number x.1 <;> cases f.number x.2 <;> cases f.number best.1 <;> cases f.number best.2 <;>
    simp
  rintro rfl
  rw [Prod.Lex.toLex_lt_toLex]
  simp [eq_comm]

theorem complexElem_comparable (f : Ieee.Format) :
    (complexElem F f).Comparable (complexNumber f) where
  isNan x := by
    simp only [complexElem, complexNumber, Ieee.Format.isNan]
    cases f.number x.1 <;> cases f.number x.2 <;> simp
  keeps max x y := by
    cases max with
    | false => exact complexElem_le_iff F
    | true =>
        simp only [if_true, complexElem_ge, complexElem_le_iff]
        constructor
        · rintro ⟨b, a, hb, ha, hle⟩
          exact ⟨a, b, ha, hb, hle⟩
        · rintro ⟨a, b, ha, hb, hle⟩
          exact ⟨b, a, hb, ha, hle⟩
  moves max x best a h := by
    cases max with
    | false => exact complexElem_argLt_iff F h
    | true => exact complexElem_argGt_iff F h

end Elements

/-! ## One cell -/

section Cell

variable {ν α κ : Type} [LinearOrder κ] {e : Elem ν α} {number : α → Option κ} {max : Bool}
  {xs : List α} {data : List (Nat × α)} {best : α}

/-- A number that no other of the elements is more extreme than. -/
def IsExtreme (number : α → Option κ) (max : Bool) (xs : List α) (best : α) : Prop :=
  ∃ a, number best = some a ∧ ∀ x ∈ xs, ∀ b, number x = some b → AsExtreme max a b

/-- numpy's `maximum` and `minimum`: what is no number wins. -/
def MaxOf (number : α → Option κ) (max : Bool) (xs : List α) : Option α → Prop
  | none => xs = []
  | some best => best ∈ xs ∧ ((∃ x ∈ xs, number x = none) → number best = none) ∧
      ((∀ x ∈ xs, number x ≠ none) → IsExtreme number max xs best)

/-- numpy's `fmax` and `fmin`: a number wins. -/
def NanMaxOf (number : α → Option κ) (max : Bool) (xs : List α) : Option α → Prop
  | none => xs = []
  | some best => best ∈ xs ∧ ((∃ x ∈ xs, number x ≠ none) → IsExtreme number max xs best)

/-- The first of the elements that are no number, or else the first extreme one. -/
def FirstOf (number : α → Option κ) (max : Bool) (data : List (Nat × α)) :
    Option (α × Nat × Bool) → Prop
  | none => data = []
  | some (best, pos, done) => done = (number best).isNone ∧
      ∃ front rest, data = front ++ (pos, best) :: rest ∧
        (∀ d ∈ front, number d.2 ≠ none) ∧
        (number best = none ∨ (∀ d ∈ rest, number d.2 ≠ none) ∧
          IsExtreme number max (data.map Prod.snd) best ∧
          ∀ d ∈ front, ∀ a b, number best = some a → number d.2 = some b → ¬ AsExtreme max b a)

theorem IsExtreme.concat_keep (h : IsExtreme number max xs best) {x : α}
    (hx : ∀ a b, number best = some a → number x = some b → AsExtreme max a b) :
    IsExtreme number max (xs ++ [x]) best := by
  obtain ⟨a, ha, hall⟩ := h
  refine ⟨a, ha, fun y hy b hb => ?_⟩
  rcases List.mem_append.mp hy with hy | hy
  · exact hall y hy b hb
  · obtain rfl := List.mem_singleton.mp hy
    exact hx a b ha hb

theorem IsExtreme.concat_move (h : IsExtreme number max xs best) {x : α} {c : κ}
    (hc : number x = some c)
    (hx : ∀ a, number best = some a → ¬ AsExtreme max a c) :
    IsExtreme number max (xs ++ [x]) x := by
  obtain ⟨a, ha, hall⟩ := h
  refine ⟨c, hc, fun y hy b hb => ?_⟩
  rcases List.mem_append.mp hy with hy | hy
  · exact (asExtreme_of_not (hx a ha)).trans (hall y hy b hb)
  · obtain rfl := List.mem_singleton.mp hy
    rw [hb] at hc
    cases hc
    exact .refl

theorem isExtreme_singleton {x : α} (hx : number x ≠ none) : IsExtreme number max [x] x := by
  obtain ⟨a, ha⟩ := Option.ne_none_iff_exists'.mp hx
  refine ⟨a, ha, fun y hy b hb => ?_⟩
  obtain rfl := List.mem_singleton.mp hy
  rw [ha] at hb
  cases hb
  exact .refl

/-- One element more for a max or a min. -/
theorem MaxOf.push (h : e.Comparable number) {slot : Option α} (hslot : MaxOf number max xs slot)
    (pos : Nat) (x : α) : MaxOf number max (xs ++ [x]) (extremePush e max false slot pos x) := by
  cases slot with
  | none =>
      obtain rfl : xs = [] := hslot
      refine ⟨List.mem_singleton_self x, ?_, fun hall => ?_⟩
      · rintro ⟨y, hy, hnone⟩
        exact List.mem_singleton.mp hy ▸ hnone
      · exact isExtreme_singleton (hall x (List.mem_singleton_self x))
  | some acc =>
      obtain ⟨hmem, hnan, hextreme⟩ := hslot
      simp only [extremePush, Bool.false_eq_true, if_false]
      cases hacc : number acc with
      | none =>
          rw [(h.isNan acc).mpr hacc, Bool.true_or, if_pos rfl]
          refine ⟨List.mem_append_left _ hmem, fun _ => hacc, fun hall => ?_⟩
          exact absurd hacc (hall acc (List.mem_append_left _ hmem))
      | some a =>
          have hnum : e.isNan acc = false := by
            rw [Bool.eq_false_iff, ne_eq, h.isNan, hacc]
            simp
          rw [hnum, Bool.false_or]
          have hxs : ∀ y ∈ xs, number y ≠ none := by
            intro y hy hnone
            rw [hnan ⟨y, hy, hnone⟩] at hacc
            cases hacc
          by_cases hkeep : (if max then e.ge acc x else e.le acc x) = true
          · rw [if_pos hkeep]
            obtain ⟨a', b, ha', hb, hle⟩ := (h.keeps max acc x).mp hkeep
            refine ⟨List.mem_append_left _ hmem, ?_, fun _ => (hextreme hxs).concat_keep ?_⟩
            · rintro ⟨y, hy, hnone⟩
              rcases List.mem_append.mp hy with hy | hy
              · exact absurd hnone (hxs y hy)
              · rw [List.mem_singleton.mp hy, hb] at hnone
                cases hnone
            · intro c d hc hd
              rw [ha'] at hc
              rw [hb] at hd
              cases hc
              cases hd
              exact hle
          · rw [if_neg hkeep]
            refine ⟨List.mem_append_right _ (List.mem_singleton_self x), ?_, fun hall => ?_⟩
            · rintro ⟨y, hy, hnone⟩
              rcases List.mem_append.mp hy with hy | hy
              · exact absurd hnone (hxs y hy)
              · exact List.mem_singleton.mp hy ▸ hnone
            · obtain ⟨c, hc⟩ := Option.ne_none_iff_exists'.mp
                (hall x (List.mem_append_right _ (List.mem_singleton_self x)))
              exact (hextreme hxs).concat_move hc fun a' ha' hle =>
                hkeep ((h.keeps max acc x).mpr ⟨a', c, ha', hc, hle⟩)

/-- One element more where those that are no number are skipped. -/
theorem NanMaxOf.push (h : e.Comparable number) {slot : Option α}
    (hslot : NanMaxOf number max xs slot) (pos : Nat) (x : α) :
    NanMaxOf number max (xs ++ [x]) (extremePush e max true slot pos x) := by
  cases slot with
  | none =>
      obtain rfl : xs = [] := hslot
      refine ⟨List.mem_singleton_self x, ?_⟩
      rintro ⟨y, hy, hnum⟩
      exact isExtreme_singleton (List.mem_singleton.mp hy ▸ hnum)
  | some acc =>
      obtain ⟨hmem, hextreme⟩ := hslot
      simp only [extremePush, if_true]
      cases hx : number x with
      | none =>
          rw [(h.isNan x).mpr hx, Bool.true_or, if_pos rfl]
          refine ⟨List.mem_append_left _ hmem, ?_⟩
          rintro ⟨y, hy, hnum⟩
          rcases List.mem_append.mp hy with hy | hy
          · refine (hextreme ⟨y, hy, hnum⟩).concat_keep fun a b _ hb => ?_
            rw [hx] at hb
            cases hb
          · rw [List.mem_singleton.mp hy] at hnum
            exact absurd hx hnum
      | some c =>
          have hnum : e.isNan x = false := by
            rw [Bool.eq_false_iff, ne_eq, h.isNan, hx]
            simp
          rw [hnum, Bool.false_or]
          by_cases hkeep : (if max then e.ge acc x else e.le acc x) = true
          · rw [if_pos hkeep]
            obtain ⟨a, b, ha, hb, hle⟩ := (h.keeps max acc x).mp hkeep
            refine ⟨List.mem_append_left _ hmem, fun _ => ?_⟩
            refine (hextreme ⟨acc, hmem, by simp [ha]⟩).concat_keep fun a' b' ha' hb' => ?_
            rw [ha] at ha'
            rw [hb] at hb'
            cases ha'
            cases hb'
            exact hle
          · rw [if_neg hkeep]
            refine ⟨List.mem_append_right _ (List.mem_singleton_self x), fun _ => ?_⟩
            by_cases hany : ∃ y ∈ xs, number y ≠ none
            · exact (hextreme hany).concat_move hx fun a ha hle =>
                hkeep ((h.keeps max acc x).mpr ⟨a, c, ha, hx, hle⟩)
            · refine ⟨c, hx, fun y hy b hb => ?_⟩
              rcases List.mem_append.mp hy with hy | hy
              · exact absurd ⟨y, hy, by simp [hb]⟩ hany
              · rw [List.mem_singleton.mp hy, hx] at hb
                cases hb
                exact .refl

/-- One element more for an argmax or an argmin. -/
theorem FirstOf.push (h : e.Comparable number) {slot : Option (α × Nat × Bool)}
    (hslot : FirstOf number max data slot) (pos : Nat) (x : α) :
    FirstOf number max (data ++ [(pos, x)]) (argPush e max slot pos x) := by
  have hisNan : ∀ y, e.isNan y = (number y).isNone := by
    intro y
    rw [Bool.eq_iff_iff, h.isNan, Option.isNone_iff_eq_none]
  match slot, hslot with
  | none, hslot =>
      obtain rfl : data = [] := hslot
      refine ⟨hisNan x, [], [], rfl, by simp, ?_⟩
      by_cases hx : number x = none
      · exact .inl hx
      · exact .inr ⟨by simp, isExtreme_singleton hx, by simp⟩
  | some (best, at_, true), ⟨hdone, front, rest, hdata, hfront, _⟩ =>
      have hbest : number best = none := Option.isNone_iff_eq_none.mp hdone.symm
      exact ⟨hdone, front, rest ++ [(pos, x)], by simp [hdata], hfront, .inl hbest⟩
  | some (best, at_, false), ⟨hdone, front, rest, hdata, hfront, hor⟩ =>
      obtain ⟨a, ha⟩ := Option.isSome_iff_exists.mp (Option.isNone_eq_false_iff.mp hdone.symm)
      obtain ⟨hrest, hextreme, hfirst⟩ := hor.resolve_left (by simp [ha])
      have hnums : ∀ d ∈ data, number d.2 ≠ none := by
        intro d hd
        rw [hdata] at hd
        rcases List.mem_append.mp hd with hd | hd
        · exact hfront d hd
        · rcases List.mem_cons.mp hd with rfl | hd
          · simp [ha]
          · exact hrest d hd
      simp only [argPush]
      by_cases hmove : (if max then e.argGt x best else e.argLt x best) = true
      · rw [if_pos hmove]
        have hless := (h.moves max x best a ha).mp hmove
        refine ⟨hisNan x, data, [], rfl, hnums, ?_⟩
        cases hx : number x with
        | none => exact .inl rfl
        | some c =>
            refine .inr ⟨by simp, ?_, fun d hd a' b ha' hb hle => ?_⟩
            · rw [List.map_append, List.map_singleton]
              refine hextreme.concat_move hx fun a' ha' => ?_
              rw [ha] at ha'
              cases ha'
              exact hless c hx
            · cases ha'
              obtain ⟨a'', ha'', hall⟩ := hextreme
              rw [ha] at ha''
              cases ha''
              exact hless c hx ((hall d.2 (List.mem_map_of_mem hd) b hb).trans hle)
      · rw [if_neg hmove]
        have hkept := mt (h.moves max x best a ha).mpr hmove
        push Not at hkept
        obtain ⟨c, hc, hle⟩ := hkept
        refine ⟨hdone, front, rest ++ [(pos, x)], by simp [hdata], hfront, .inr ⟨?_, ?_, hfirst⟩⟩
        · intro d hd
          rcases List.mem_append.mp hd with hd | hd
          · exact hrest d hd
          · rw [List.mem_singleton.mp hd, hc]
            simp
        · rw [List.map_append, List.map_singleton]
          refine hextreme.concat_keep fun a' b ha' hb => ?_
          rw [ha] at ha'
          rw [hc] at hb
          cases ha'
          cases hb
          exact hle

end Cell

/-! ## Many cells -/

/-- Whatever cells the elements come to and in whatever order, each cell ends with the
extreme of its own, and with the position of the first. -/
def KeepsExtremes {ν α κ : Type} [LinearOrder κ] (e : Elem ν α) (number : α → Option κ) : Prop :=
  ∀ (max : Bool) (cells i : Nat) (data : List (Nat × Nat × α)), (∀ d ∈ data, d.1 < cells) →
    i < cells →
      (∃ slots slot, feed (pushAt (extremePush e max false)) (List.replicate cells none) data =
        some slots ∧ slots[i]? = some slot ∧
          MaxOf number max ((Bins.of i data).map Prod.snd) slot) ∧
      (∃ slots slot, feed (pushAt (extremePush e max true)) (List.replicate cells none) data =
        some slots ∧ slots[i]? = some slot ∧
          NanMaxOf number max ((Bins.of i data).map Prod.snd) slot) ∧
      ∃ slots slot, feed (pushAt (argPush e max)) (List.replicate cells none) data = some slots ∧
        slots[i]? = some slot ∧ FirstOf number max (Bins.of i data) slot

section Cells

variable {ν α κ : Type} [LinearOrder κ] {e : Elem ν α} {number : α → Option κ} {max : Bool}

theorem maxOf_foldl (h : e.Comparable number) (data : List (Nat × α)) :
    MaxOf number max (data.map Prod.snd)
      (data.foldl (fun slot d => extremePush e max false slot d.1 d.2) none) := by
  induction data using List.reverseRecOn with
  | nil => rfl
  | append_singleton data d ih =>
      rw [List.map_append, List.foldl_append]
      exact ih.push h d.1 d.2

theorem nanMaxOf_foldl (h : e.Comparable number) (data : List (Nat × α)) :
    NanMaxOf number max (data.map Prod.snd)
      (data.foldl (fun slot d => extremePush e max true slot d.1 d.2) none) := by
  induction data using List.reverseRecOn with
  | nil => rfl
  | append_singleton data d ih =>
      rw [List.map_append, List.foldl_append]
      exact ih.push h d.1 d.2

theorem firstOf_foldl (h : e.Comparable number) (data : List (Nat × α)) :
    FirstOf number max data (data.foldl (fun slot d => argPush e max slot d.1 d.2) none) := by
  induction data using List.reverseRecOn with
  | nil => rfl
  | append_singleton data d ih =>
      rw [List.foldl_append]
      exact ih.push h d.1 d.2

/-- What a cell holds once its elements have been fed to it. -/
theorem feed_replicate {β : Type} {step : β → Nat → α → β} {init : β} {cells i : Nat}
    {data : List (Nat × Nat × α)} (hdata : ∀ d ∈ data, d.1 < cells) (hi : i < cells) :
    ∃ slots, feed (pushAt step) (List.replicate cells init) data = some slots ∧
      slots[i]? = some ((Bins.of i data).foldl (fun b d => step b d.1 d.2) init) := by
  refine ⟨_, feed_of_lt pushAt_of_lt (by simpa using hdata), ?_⟩
  rw [Bins.getElem?_fill, List.getElem?_replicate, if_pos hi]
  rfl

theorem keepsExtremes (h : e.Comparable number) : KeepsExtremes e number := by
  intro max cells i data hdata hi
  obtain ⟨maxes, hmaxes, hmax⟩ := @feed_replicate α _ (extremePush e max false) none _ _ _ hdata hi
  obtain ⟨nans, hnans, hnan⟩ := @feed_replicate α _ (extremePush e max true) none _ _ _ hdata hi
  obtain ⟨args, hargs, harg⟩ := @feed_replicate α _ (argPush e max) none _ _ _ hdata hi
  exact ⟨⟨maxes, _, hmaxes, hmax, maxOf_foldl h _⟩, ⟨nans, _, hnans, hnan, nanMaxOf_foldl h _⟩,
    ⟨args, _, hargs, harg, firstOf_foldl h _⟩⟩

end Cells

/-- Max, min, argmax and argmin of floating-point and of complex elements. -/
theorem floats_keepExtremes {ν : Type} (F : Arith ν) (f : Ieee.Format) :
    KeepsExtremes (floatElem F f) f.number ∧ KeepsExtremes (complexElem F f) (complexNumber f) :=
  ⟨keepsExtremes (floatElem_comparable F f), keepsExtremes (complexElem_comparable F f)⟩

end Reduce

end Aex
