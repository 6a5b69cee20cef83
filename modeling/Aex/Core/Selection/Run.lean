import Mathlib.Data.List.TakeWhile
import Aex.Core.Selection.Walk

/-!
# One run of source elements

When every axis takes consecutive positions and, past the first that takes more
than one, all of its own, the grid is one run and needs no walk.
-/

namespace Aex

open Grid (sums)

/-! ## Runs along the axes -/

/-- A run along each axis, with the axis's length. -/
abbrev Runs := List ((Nat × Nat) × Nat)

namespace Runs

/-- The terms of the runs, an axis striding over those after it. -/
def terms : Runs → List (List Nat)
  | [] => []
  | (run, _) :: rs => (List.range' run.1 run.2).map (· * (rs.map Prod.snd).prod) :: terms rs

/-- Where the runs start, unbounded. -/
def offset : Runs → Nat
  | [] => 0
  | (run, _) :: rs => run.1 * (rs.map Prod.snd).prod + offset rs

variable {rs : Runs}

/-- Rows that follow one another. -/
theorem flatMap_range' (s l p : Nat) :
    ((List.range' s l).map (· * p)).flatMap (fun t => (List.range' 0 p).map (t + ·)) =
      List.range' (s * p) (l * p) := by
  induction l generalizing s with
  | zero => simp
  | succ l ih =>
      rw [List.range'_succ, List.map_cons, List.flatMap_cons, ih, List.map_add_range', Nat.add_zero,
        Nat.succ_mul, Nat.succ_mul, List.range'_append_1, Nat.add_comm]

theorem sums_whole (h : ∀ x ∈ rs, x.1.1 = 0 ∧ x.1.2 = x.2) :
    sums rs.terms = List.range' 0 (rs.map Prod.snd).prod ∧ rs.offset = 0 := by
  induction rs with
  | nil => exact ⟨rfl, rfl⟩
  | cons x rs ih =>
      obtain ⟨⟨start, len⟩, dim⟩ := x
      obtain ⟨hsums, hoffset⟩ := ih fun x hx => h x (List.mem_cons_of_mem _ hx)
      obtain ⟨rfl, rfl⟩ : start = 0 ∧ len = dim := h _ List.mem_cons_self
      refine ⟨?_, by simp [offset, hoffset]⟩
      rw [terms, Grid.sums_cons, hsums, flatMap_range', Nat.zero_mul, List.map_cons, List.prod_cons]

/-- Whole rows past the first axis of several positions make one run. -/
theorem sums_terms (hpos : ∀ x ∈ rs, 0 < x.1.2)
    (h : ∀ x ∈ (rs.dropWhile fun x => x.1.2 ≤ 1).tail, x.1.1 = 0 ∧ x.1.2 = x.2) :
    sums rs.terms = List.range' rs.offset (rs.map fun x => x.1.2).prod := by
  induction rs with
  | nil => rfl
  | cons x rs ih =>
      obtain ⟨⟨start, len⟩, dim⟩ := x
      have hlen : 0 < len := hpos _ List.mem_cons_self
      have hpos' : ∀ x ∈ rs, 0 < x.1.2 := fun x hx => hpos x (List.mem_cons_of_mem _ hx)
      by_cases hone : len ≤ 1
      · rw [List.dropWhile_cons_of_pos (by simpa using hone)] at h
        obtain rfl : len = 1 := by omega
        rw [terms, Grid.sums_cons, ih hpos' h]
        simp [offset, List.map_add_range']
      · rw [List.dropWhile_cons_of_neg (by simpa using hone), List.tail_cons] at h
        obtain ⟨hsums, hoffset⟩ := sums_whole h
        have hdims : rs.map (fun x => x.1.2) = rs.map Prod.snd :=
          List.map_congr_left fun x hx => (h x hx).2
        rw [terms, Grid.sums_cons, hsums, flatMap_range']
        simp [offset, hoffset, hdims]

/-- The code's offset is the exact one, modulo the width it is computed in. -/
theorem foldl_offset (a : Nat) (ha : a < Word.size 128) :
    rs.foldl (fun offset (run, dim) =>
        Word.wrappingAdd 128 (Word.wrappingMul 128 offset dim) run.1) a =
      (a * (rs.map Prod.snd).prod + rs.offset) % Word.size 128 := by
  induction rs generalizing a with
  | nil => simpa [offset] using (Nat.mod_eq_of_lt ha).symm
  | cons x rs ih =>
      obtain ⟨⟨start, len⟩, dim⟩ := x
      rw [List.foldl_cons, ih _ Word.wrappingAdd_lt, List.map_cons, List.prod_cons, offset]
      have hstep : Word.wrappingAdd 128 (Word.wrappingMul 128 a dim) start ≡ a * dim + start
          [MOD Word.size 128] :=
        (Nat.mod_modEq _ _).trans ((Nat.mod_modEq _ _).add_right _)
      have := (hstep.mul_right (rs.map Prod.snd).prod).add_right (offset rs)
      refine Eq.trans this ?_
      congr 1
      ring

end Runs

/-- A run names its consecutive positions. -/
theorem indices_of_asRun {sel : AxisSel} {run : Nat × Nat} (h : sel.asRun = some run)
    (hne : sel.indices ≠ []) : sel.indices = List.range' run.1 run.2 := by
  cases sel with
  | point index =>
      cases h
      rfl
  | range start len step =>
      simp only [AxisSel.asRun] at h
      have hrange : ∀ n, (List.range n).map (fun k : Nat => (start + k * (1 : Int)).toNat) =
          List.range' start n := by
        intro n
        rw [List.range'_eq_map_range]
        refine List.map_congr_left fun k _ => ?_
        omega
      split at h
      · rename_i hzero
        exact absurd (by simp [AxisSel.indices, hzero]) hne
      · split at h
        · rename_i hone
          cases h
          simp [AxisSel.indices, hone]
        · split at h
          · rename_i hstep
            cases h
            rw [hstep]
            exact hrange len
          · cases h
  | fancy list =>
      cases list with
      | nil => exact absurd rfl hne
      | cons first rest =>
          simp only [AxisSel.asRun] at h
          split at h
          · rename_i hall
            cases h
            have hrest : rest = List.range' (first + 1) rest.length := by
              apply List.ext_getElem (by simp)
              intro i hi _
              rw [List.all_eq_true] at hall
              have := hall (rest[i], i) (List.mk_mem_zipIdx_iff_getElem?.mpr (by simp))
              rw [decide_eq_true_eq, Word.checkedAdd_eq_some] at this
              rw [List.getElem_range']
              omega
            show first :: rest = _
            rw [List.range'_succ, ← hrest]
          · cases h

/-! ## The group as axes of its own -/

section Members

variable {members : List (List Nat)} {len : Nat}

/-- Members that stand still are one constant. -/
theorem sums_still (h : ∀ terms ∈ members, terms.length = 1) (k : Nat) :
    sums members =
      [(members.map fun terms => terms.getD (if terms.length = 1 then 0 else k) 0).sum] := by
  induction members with
  | nil => rfl
  | cons terms members ih =>
      obtain ⟨t, rfl⟩ := List.length_eq_one_iff.mp (h terms List.mem_cons_self)
      rw [Grid.sums_cons, ih fun terms hterms => h terms (List.mem_cons_of_mem _ hterms)]
      simp

theorem groupTerms_cons_still {t : Nat} :
    groupTerms ([t] :: members) len = (groupTerms members len).map (t + ·) := by
  simp [groupTerms, Function.comp_def]

/-- When one member takes several positions, walking them in step is walking them
independently. -/
theorem groupTerms_eq_sums (hlen : ∀ terms ∈ members, terms.length = 1 ∨ terms.length = len)
    (hmany : 1 < len) (hone : members.countP (fun terms => 1 < terms.length) = 1) :
    groupTerms members len = sums members := by
  induction members with
  | nil => cases hone
  | cons terms members ih =>
      have hlen' := fun t ht => hlen t (List.mem_cons_of_mem _ ht)
      by_cases hstill : terms.length = 1
      · obtain ⟨t, rfl⟩ := List.length_eq_one_iff.mp hstill
        rw [List.countP_cons_of_neg (by simp)] at hone
        rw [groupTerms_cons_still, ih hlen' hone, Grid.sums_cons]
        simp
      · have hterms : terms.length = len := (hlen terms List.mem_cons_self).resolve_left hstill
        rw [List.countP_cons_of_pos (by simpa [hterms] using hmany)] at hone
        have hnone : members.countP (fun terms => 1 < terms.length) = 0 := by omega
        rw [List.countP_eq_zero] at hnone
        have hall : ∀ t ∈ members, t.length = 1 := by
          intro t ht
          refine (hlen' t ht).resolve_right fun heq => hnone t ht ?_
          simpa [heq] using hmany
        have hconst := fun k => List.singleton_inj.mp
          ((sums_still hall k).symm.trans (sums_still hall 0))
        rw [Grid.sums_cons, sums_still hall 0]
        simp only [List.map_cons, List.map_nil]
        rw [← List.map_eq_flatMap]
        apply List.ext_getElem
        · simp [groupTerms, hterms]
        · intro k hk _
          have hkt : k < terms.length := by simpa [groupTerms, hterms] using hk
          simp only [groupTerms, List.getElem_map, List.getElem_range, List.map_cons, List.sum_cons,
            if_neg hstill, hconst, List.getD_eq_getElem?_getD (l := terms),
            List.getElem?_eq_getElem hkt, Option.getD_some]

theorem groupTerms_of_countP (hlen : ∀ terms ∈ members, terms.length = 1 ∨ terms.length = len)
    (hfind : len = ((members.map List.length).find? (· ≠ 1)).getD 1) (hpos : 0 < len)
    (hone : members.countP (fun terms => 1 < terms.length) ≤ 1) :
    groupTerms members len = sums members := by
  by_cases hcount : members.countP (fun terms => 1 < terms.length) = 1
  · obtain ⟨terms, hterms, hlong⟩ := List.countP_pos_iff.mp
      (show 0 < members.countP (fun terms => 1 < terms.length) by omega)
    have := hlen terms hterms
    exact groupTerms_eq_sums hlen (by simp at hlong; omega) hcount
  · have hstill : ∀ terms ∈ members, terms.length = 1 := by
      have hzero : members.countP (fun terms => 1 < terms.length) = 0 := by omega
      rw [List.countP_eq_zero] at hzero
      intro terms hterms
      have hshort := hzero terms hterms
      rw [decide_eq_true_eq] at hshort
      have := hlen terms hterms
      omega
    have hnone : (members.map List.length).find? (· ≠ 1) = none := by
      rw [List.find?_eq_none]
      intro n hn
      obtain ⟨terms, hterms, rfl⟩ := List.mem_map.mp hn
      simp [hstill terms hterms]
    rw [hnone] at hfind
    rw [show len = 1 from hfind, sums_still hstill 0]
    rfl

end Members

/-! ## Axes walked independently -/

section Independent

variable {shape dims : List Nat} {indices : List Index} {r : ResolvedSelection}
  {entries : List Entry} {s : Numpy.Selected} {parts : List Numpy.Part}

/-- The terms of a part as an axis of its own. -/
def Numpy.Part.terms : Numpy.Part → List Nat
  | .free terms => terms
  | .fixed term => [term]
  | .member terms => terms

def Numpy.Part.isMember (part : Numpy.Part) : Bool := part.member?.isSome

theorem own_of_none (h : ∀ part ∈ parts, part.isMember = false) :
    parts.filterMap Numpy.Part.own? = parts.map Numpy.Part.terms ∧
      parts.filterMap Numpy.Part.member? = [] := by
  induction parts with
  | nil => exact ⟨rfl, rfl⟩
  | cons part parts ih =>
      obtain ⟨hown, hmember⟩ := ih fun p hp => h p (List.mem_cons_of_mem _ hp)
      have hpart := h part List.mem_cons_self
      cases part with
      | free terms => exact ⟨congrArg (terms :: ·) hown, hmember⟩
      | fixed term => exact ⟨congrArg ([term] :: ·) hown, hmember⟩
      | member terms => cases hpart

theorem own_of_all (h : ∀ part ∈ parts, part.isMember = true) :
    parts.filterMap Numpy.Part.own? = [] ∧
      parts.filterMap Numpy.Part.member? = parts.map Numpy.Part.terms := by
  induction parts with
  | nil => exact ⟨rfl, rfl⟩
  | cons part parts ih =>
      obtain ⟨hown, hmember⟩ := ih fun p hp => h p (List.mem_cons_of_mem _ hp)
      have hpart := h part List.mem_cons_self
      cases part with
      | free terms => cases hpart
      | fixed term => cases hpart
      | member terms => exact ⟨hown, congrArg (terms :: ·) hmember⟩

theorem isMember_parts (hfit : Entry.Fit entries dims) :
    (Entry.parts entries dims).map Numpy.Part.isMember = entries.map Entry.isAdvanced := by
  induction entries generalizing dims with
  | nil => rfl
  | cons entry entries ih =>
      cases entry with
      | new => exact congrArg (false :: ·) (ih hfit)
      | axis sel flag =>
          cases dims with
          | nil => exact hfit.elim
          | cons n dims =>
              obtain ⟨-, hsorted, hfit⟩ := hfit
              have hrest := ih hfit
              cases sel with
              | point index => cases flag <;> exact congrArg (_ :: ·) hrest
              | range start len step =>
                  obtain rfl : flag = false := hsorted
                  exact congrArg (false :: ·) hrest
              | fancy list =>
                  obtain rfl : flag = true := hsorted
                  exact congrArg (true :: ·) hrest

/-- Parts whose members sit together fall into three stretches. -/
theorem exists_stretches (h : together (parts.map Numpy.Part.isMember) = true) :
    ∃ members after, parts.dropWhile (fun part => part.member?.isNone) = members ++ after ∧
      (∀ part ∈ parts.takeWhile (fun part => part.member?.isNone), part.isMember = false) ∧
      (∀ part ∈ members, part.isMember = true) ∧ (∀ part ∈ after, part.isMember = false) := by
  have hflip : (fun part : Numpy.Part => part.member?.isNone) = fun part => !part.isMember := by
    funext part
    cases part <;> rfl
  rw [hflip]
  refine ⟨(parts.dropWhile fun part => !part.isMember).takeWhile Numpy.Part.isMember,
    (parts.dropWhile fun part => !part.isMember).dropWhile Numpy.Part.isMember,
    List.takeWhile_append_dropWhile.symm, ?_, ?_, ?_⟩
  · intro part hpart
    simpa using List.mem_takeWhile_imp hpart
  · intro part hpart
    exact List.mem_takeWhile_imp hpart
  · unfold together at h
    rw [List.dropWhile_map, List.dropWhile_map, List.any_map, Bool.not_eq_true',
      List.any_eq_false] at h
    intro part hpart
    simpa using h part hpart

/-- How many members of the group take several positions. -/
theorem countP_members (h : Resolves shape indices r entries) {group : Advanced}
    (hadvanced : r.advanced = some group) :
    (group.axes.countP fun axis => 1 < (r.axes.getD axis (.point 0)).len) =
      (Entry.memberTerms entries shape).countP fun terms => 1 < terms.length := by
  rw [Entry.memberTerms, ← Gathered.lookup_members h hadvanced, List.map_map, List.countP_map]
  refine List.countP_congr fun axis _ => ?_
  simp [AxisSel.length_indices]

/-- A selection whose axes can be walked independently is the grid of all its parts. -/
theorem sums_independent (h : Resolves shape indices r entries)
    (hs : Numpy.select shape indices = some s) (hne : [] ∉ s.dims (Gathered.front r))
    (hwalk : walksIndependently r = true) :
    sums (s.dims (Gathered.front r)) = sums ((Entry.parts entries shape).map Numpy.Part.terms) := by
  have hmembers := members_eq h.fit
  rw [h.select_eq] at hs
  cases hs
  cases hadvanced : r.advanced with
  | none =>
      have hnone : ∀ part ∈ Entry.parts entries shape, part.isMember = false := by
        have hflags := isMember_parts h.fit
        have hplain := flagged_eq_nil.mp (h.plain hadvanced)
        rw [any_axes, ← hflags, List.any_map, List.any_eq_false] at hplain
        intro part hpart
        simpa using hplain part hpart
      rw [← (own_of_none hnone).1]
      simp only [Numpy.Selected.dims, Option.map_none]
      exact congrArg sums (Gathered.owned_split entries shape).symm
  | some group =>
      obtain ⟨-, -, hlen, hadjacent⟩ := h.group group hadvanced
      simp only [walksIndependently, hadvanced, Bool.and_eq_true, decide_eq_true_eq] at hwalk
      obtain ⟨htogether, hcount⟩ := hwalk
      rw [hadjacent, ← isMember_parts h.fit] at htogether
      rw [countP_members h hadvanced] at hcount
      obtain ⟨members, after, hdrop, hbefore, hin, hafter⟩ := exists_stretches htogether
      have hsplit := List.takeWhile_append_dropWhile (p := fun part : Numpy.Part => part.member?.isNone)
        (l := Entry.parts entries shape)
      rw [hdrop] at hsplit
      have hterms : Entry.memberTerms entries shape = members.map Numpy.Part.terms := by
        rw [Entry.memberTerms, ← hmembers, ← hsplit, List.filterMap_append, List.filterMap_append,
          (own_of_none hbefore).2, (own_of_all hin).2, (own_of_none hafter).2]
        simp
      have hafter' : Entry.after entries shape = after.map Numpy.Part.terms := by
        rw [Entry.after, hdrop, List.filterMap_append, (own_of_all hin).1, (own_of_none hafter).1]
        rfl
      have hfront : Gathered.front r = false := by
        rw [Gathered.front, hadvanced, Option.any_some, hadjacent, ← isMember_parts h.fit, htogether]
        rfl
      have hpos : 0 < group.len := by
        rw [Nat.pos_iff_ne_zero]
        intro hzero
        exact hne (by simp [Numpy.Selected.dims, hadvanced, hzero, groupTerms, hfront])
      have hgroup : groupTerms (Entry.memberTerms entries shape) group.len =
          sums (Entry.memberTerms entries shape) :=
        groupTerms_of_countP (h.members_length hadvanced) (h.group_len hadvanced) hpos hcount
      simp only [Numpy.Selected.dims, hfront, Option.map_some, Bool.false_eq_true, if_false]
      rw [← hsplit, List.map_append, List.map_append, ← hterms, Entry.before,
        (own_of_none hbefore).1, hafter', Grid.sums_append, Grid.sums_append, Grid.sums_append,
        ← hgroup]
      rfl

end Independent

end Aex
