import Mathlib.Data.Int.ModEq
import Aex.Core.Selection.Layout
import Aex.Core.Selection.Parts

/-!
# The walk over a gathered selection

The base and the dimensions of a walk stand for the grid of source elements that
was selected, up to the wrap of the words they are computed in.
-/

namespace Aex

open Grid (sums)

/-! ## What a walk represents -/

/-- What a dimension of a walk adds as its index moves, unbounded. -/
inductive Dim.Adds : Dim → List Int → Prop
  | stride {len : Nat} {step : Int} (h : 1 < len) :
      Adds (.stride len step) ((List.range len).map fun k : Nat => k * step)
  | list {terms : List Nat} (h : 1 < terms.length) :
      Adds (.list (terms.map (· % Word.size 64))) (terms.map fun t : Nat => (t : Int))

/-- A constant and the dimensions of a walk stand for a grid of source elements. -/
def Represents (c : Nat) (dims : List Dim) (grid : List (List Nat)) : Prop :=
  ∃ added, List.Forall₂ Dim.Adds dims added ∧
    (sums added).map ((c : Int) + ·) = (sums grid).map fun e : Nat => (e : Int)

section Represent

variable {c c' : Nat} {dims dims' : List Dim} {grid grid' : List (List Nat)} {dim : Dim}
  {added : List Int}

theorem Dim.Adds.one_lt (h : dim.Adds added) : 1 < dim.len ∧ dim.len = added.length := by
  cases h with
  | stride h => exact ⟨h, by simp [Dim.len]⟩
  | list h => exact ⟨by simpa [Dim.len] using h, by simp [Dim.len]⟩

theorem ofSigned_modEq (a : Int) : (Word.ofSigned 64 a : Int) ≡ a [ZMOD Word.size 64] := by
  unfold Word.ofSigned
  rw [Int.toNat_of_nonneg (Int.emod_nonneg _ (by decide))]
  exact Int.mod_modEq a _

theorem wrappingAdd_modEq (a b : Nat) :
    (Word.wrappingAdd 64 a b : Int) ≡ a + b [ZMOD Word.size 64] := by
  unfold Word.wrappingAdd
  push_cast
  exact Int.mod_modEq _ _

theorem wrappingMul_modEq (a b : Nat) :
    (Word.wrappingMul 64 a b : Int) ≡ a * b [ZMOD Word.size 64] := by
  unfold Word.wrappingMul
  push_cast
  exact Int.mod_modEq _ _

/-- The term of a walk is the one it stands for, up to the wrap. -/
theorem Dim.Adds.term (h : dim.Adds added) {k : Nat} (hk : k < added.length) :
    (dim.term k : Int) ≡ added[k] [ZMOD Word.size 64] := by
  cases h with
  | stride h =>
      rw [List.getElem_map, List.getElem_range]
      exact (wrappingMul_modEq _ _).trans ((ofSigned_modEq _).mul_left _)
  | list h =>
      rw [List.length_map] at hk
      rw [List.getElem_map, Dim.term, List.getD_eq_getElem?_getD,
        List.getElem?_eq_getElem (by simpa using hk), Option.getD_some, List.getElem_map]
      push_cast
      exact Int.mod_modEq _ _

theorem Represents.nil : Represents 0 [] [] := ⟨[], .nil, rfl⟩

theorem Represents.append (h : Represents c dims grid) (h' : Represents c' dims' grid') :
    Represents (c + c') (dims ++ dims') (grid ++ grid') := by
  obtain ⟨added, hadds, heq⟩ := h
  obtain ⟨added', hadds', heq'⟩ := h'
  refine ⟨added ++ added', List.rel_append hadds hadds', ?_⟩
  have hcast : ∀ xs : List (List Nat), (sums xs).map (fun e : Nat => (e : Int)) =
      sums (xs.map (List.map fun e : Nat => (e : Int))) :=
    fun xs => Grid.map_sums (Nat.castAddMonoidHom Int)
  rw [hcast] at heq heq' ⊢
  rw [List.map_append, Grid.sums_append, Grid.sums_append, ← heq, ← heq']
  simp only [List.map_flatMap, List.flatMap_map, List.map_map, Function.comp_def]
  congr! 4
  push_cast
  ring

/-- A dimension of one term is a constant. -/
theorem Represents.one (t : Nat) : Represents t [] [[t]] := ⟨[], .nil, by simp⟩

end Represent

/-! ## Strides -/

section Strides

variable {shape : List Nat} {result : List Nat}

theorem stridesOf_eq (h : stridesOf shape = some result) : result = strides shape := by
  induction shape generalizing result with
  | nil =>
      cases h
      rfl
  | cons n shape ih =>
      cases shape with
      | nil =>
          cases h
          rfl
      | cons m shape =>
          simp only [stridesOf, Option.bind_eq_bind, Option.bind_eq_some_iff,
            Word.checkedMul_eq_some] at h
          obtain ⟨more, hmore, stride, ⟨-, rfl⟩, heq⟩ := h
          cases heq
          obtain rfl := ih hmore
          simp [strides, Nat.mul_comm]

theorem length_strides : (strides shape).length = shape.length := by
  induction shape with
  | nil => rfl
  | cons n shape ih => simp [strides, ih]

end Strides

/-! ## Visiting the axes -/

namespace Gathered

section Visit

variable {shape dims : List Nat} {advanced : Option Advanced} {p p' : Partial} {sel : AxisSel}
  {stride axis n : Nat} {entries : List Entry}

/-- A partial walk that went on: by a constant and some dimensions. -/
structure Extends (p p' : Partial) (c : Nat) (dims : List Dim) : Prop where
  lt : p'.base < Word.size 64
  base : (p'.base : Int) ≡ p.base + c [ZMOD Word.size 64]
  dims : p'.dims = p.dims ++ dims

theorem Extends.refl (h : p.base < Word.size 64) : Extends p p 0 [] :=
  ⟨h, by simp, by simp⟩

theorem Extends.trans {p'' : Partial} {c c' : Nat} {d d' : List Dim} (h : Extends p p' c d)
    (h' : Extends p' p'' c' d') : Extends p p'' (c + c') (d ++ d') where
  lt := h'.lt
  base := by
    have := h'.base.trans (h.base.add_right _)
    rwa [Int.add_assoc, ← Nat.cast_add] at this
  dims := by rw [h'.dims, h.dims, List.append_assoc]

/-- The base takes in a position along an axis. -/
theorem extends_base (base i stride : Nat) :
    (Word.wrappingAdd 64 base (Word.wrappingMul 64 i stride) : Int) ≡ base + (i * stride : Nat)
      [ZMOD Word.size 64] := by
  refine (wrappingAdd_modEq _ _).trans ?_
  push_cast
  exact (wrappingMul_modEq i stride).add_left _

/-- An axis of the group only marks its place. -/
theorem visit_member (h : (advanced.any fun g => g.axes.contains axis) = true) :
    visit shape advanced p ((sel, stride), axis) =
      .ok { p with groupAt := some (p.groupAt.getD p.dims.length) } := by
  exact if_pos h

/-- Any other axis adds a constant, and a dimension when it takes several positions. -/
theorem visit_own (hmark : (advanced.any fun g => g.axes.contains axis) = false)
    (hfits : sel.Fits n) (hsorted : Entry.Sorted sel false) (hne : sel.indices ≠ [])
    (h : visit shape advanced p ((sel, stride), axis) = .ok p') :
    p'.groupAt = p.groupAt ∧
      ∃ c d, Extends p p' c d ∧ Represents c d [sel.indices.map (· * stride)] := by
  simp only [visit, hmark, Bool.false_eq_true, if_false] at h
  cases sel with
  | point index =>
      cases h
      exact ⟨rfl, index * stride, [], ⟨Word.wrappingAdd_lt, extends_base _ _ _, by simp⟩, .one _⟩
  | range start len step =>
      dsimp only at h
      split at h
      · rename_i hlen
        split at h
        · cases h
        rename_i step' hstep
        cases h
        have hstep' : step' = stride * step := by
          obtain ⟨s, hs, hmul⟩ := Option.bind_eq_some_iff.mp hstep
          unfold Word.checkedToSigned at hs
          unfold Word.checkedMulSigned at hmul
          split at hs
          · cases hs
            split at hmul
            · cases hmul
              rfl
            · cases hmul
          · cases hs
        refine ⟨rfl, start * stride, [.stride len step'],
          ⟨Word.wrappingAdd_lt, extends_base _ _ _, rfl⟩, _, .cons (.stride hlen) .nil, ?_⟩
        rw [Grid.sums_singleton, Grid.sums_singleton]
        simp only [AxisSel.indices, List.map_map]
        refine List.map_congr_left fun k hk => ?_
        have hpos := (hfits k (List.mem_range.mp hk)).1
        simp only [Function.comp_apply, hstep']
        push_cast
        rw [Int.toNat_of_nonneg hpos]
        ring
      · rename_i hlen
        cases h
        have hone : len = 1 := by
          by_contra hne'
          have hzero : len = 0 := by omega
          exact hne (by simp [AxisSel.indices, hzero])
        subst hone
        refine ⟨rfl, start * stride, [], ⟨Word.wrappingAdd_lt, extends_base _ _ _, by simp⟩, ?_⟩
        simpa [AxisSel.indices] using Represents.one (start * stride)
  | fancy list => cases hsorted

/-- The axes of entries as they are visited, from axis `n` on. -/
def visited (entries : List Entry) (dims : List Nat) (n : Nat) : List ((AxisSel × Nat) × Nat) :=
  (((Entry.axes entries).map Prod.fst).zip (strides dims)).zipIdx n

/-- The group is where the entries say, from axis `n` on. -/
def Marked (advanced : Option Advanced) (entries : List Entry) (n : Nat) : Prop :=
  ∀ i flag, ((Entry.axes entries).map Prod.snd)[i]? = some flag →
    (advanced.any fun g => g.axes.contains (n + i)) = flag

theorem Marked.head {flag : Bool} (h : Marked advanced (.axis sel flag :: entries) n) :
    (advanced.any fun g => g.axes.contains n) = flag := h 0 flag rfl

theorem Marked.tail {flag : Bool} (h : Marked advanced (.axis sel flag :: entries) n) :
    Marked advanced entries (n + 1) := by
  intro i flag' hi
  have := h (i + 1) flag' hi
  rwa [show n + (i + 1) = n + 1 + i by omega] at this

/-- The dimensions outside the group. -/
def owned (entries : List Entry) (dims : List Nat) : List (List Nat) :=
  (Entry.parts entries dims).filterMap Numpy.Part.own?

theorem owned_own (entries : List Entry) (m : Nat) (dims : List Nat) (hsorted : Entry.Sorted sel false) :
    owned (.axis sel false :: entries) (m :: dims) =
        sel.indices.map (· * dims.prod) :: owned entries dims ∧
      Entry.before (.axis sel false :: entries) (m :: dims) =
        sel.indices.map (· * dims.prod) :: Entry.before entries dims ∧
      Entry.after (.axis sel false :: entries) (m :: dims) = Entry.after entries dims := by
  cases sel with
  | point index => exact ⟨rfl, rfl, rfl⟩
  | range start len step => exact ⟨rfl, rfl, rfl⟩
  | fancy list => cases hsorted

theorem owned_member (entries : List Entry) (m : Nat) (dims : List Nat) (hsorted : Entry.Sorted sel true) :
    owned (.axis sel true :: entries) (m :: dims) = owned entries dims ∧
      Entry.before (.axis sel true :: entries) (m :: dims) = [] ∧
      Entry.after (.axis sel true :: entries) (m :: dims) = owned entries dims := by
  cases sel with
  | point index => exact ⟨rfl, rfl, rfl⟩
  | range start len step => cases hsorted
  | fancy list => exact ⟨rfl, rfl, rfl⟩

/-- A whole visit represents the dimensions outside the group. -/
theorem visited_ok (hfit : Entry.Fit entries dims) (hmark : Marked advanced entries n)
    (hne : [] ∉ owned entries dims) (hp : p.base < Word.size 64)
    (h : (visited entries dims n).foldlM (visit shape advanced) p = .ok p') :
    (∀ at_, p.groupAt = some at_ → p'.groupAt = some at_) ∧
      ∃ c d, Extends p p' c d ∧ Represents c d (owned entries dims) := by
  induction entries generalizing dims n p with
  | nil =>
      cases h
      exact ⟨fun _ h => h, 0, [], .refl hp, .nil⟩
  | cons entry entries ih =>
      cases entry with
      | new =>
          obtain ⟨hgroup, c, d, hext, hrep⟩ := ih (n := n) hfit hmark
            (fun hmem => hne (List.mem_cons_of_mem _ hmem)) hp h
          refine ⟨hgroup, c, d, hext, ?_⟩
          have := (Represents.one 0).append hrep
          rw [Nat.zero_add] at this
          exact this
      | axis sel flag =>
          cases dims with
          | nil => exact hfit.elim
          | cons m dims =>
              obtain ⟨hfits, hsorted, hfit⟩ := hfit
              obtain ⟨next, hnext, hmore⟩ := Fallible.bind_eq_ok.mp h
              cases flag with
              | true =>
                  rw [visit_member hmark.head] at hnext
                  cases hnext
                  rw [(owned_member _ _ _ hsorted).1] at hne ⊢
                  obtain ⟨hgroup, c, d, hext, hrep⟩ :=
                    ih (p := { p with groupAt := some (p.groupAt.getD p.dims.length) }) hfit
                      hmark.tail hne hp hmore
                  refine ⟨?_, c, d, ⟨hext.lt, hext.base, hext.dims⟩, hrep⟩
                  intro at_ hat
                  exact hgroup at_ (by simp [hat])
              | false =>
                  rw [(owned_own _ _ _ hsorted).1] at hne ⊢
                  obtain ⟨hsame, c, d, hext, hrep⟩ := visit_own hmark.head hfits hsorted
                    (fun hnil => hne (by simp [hnil])) hnext
                  obtain ⟨hgroup, c', d', hext', hrep'⟩ := ih hfit hmark.tail
                    (fun hmem => hne (List.mem_cons_of_mem _ hmem)) hext.lt hmore
                  exact ⟨fun at_ hat => hgroup at_ (hsame ▸ hat), c + c', d ++ d',
                    hext.trans hext', hrep.append hrep'⟩

/-- The dimensions of a visit fall into those before the group and those after. -/
theorem visited_split (hfit : Entry.Fit entries dims) (hmark : Marked advanced entries n)
    (hne : [] ∉ owned entries dims) (hp : p.base < Word.size 64) (hplace : p.groupAt = none)
    (h : (visited entries dims n).foldlM (visit shape advanced) p = .ok p') :
    ∃ c d c' d', Extends p p' (c + c') (d ++ d') ∧
      Represents c d (Entry.before entries dims) ∧ Represents c' d' (Entry.after entries dims) ∧
      (Entry.members entries dims ≠ [] → p'.groupAt = some (p.dims.length + d.length)) := by
  induction entries generalizing dims n p with
  | nil =>
      cases h
      exact ⟨0, [], 0, [], .refl hp, .nil, .nil, fun h => absurd rfl h⟩
  | cons entry entries ih =>
      cases entry with
      | new =>
          obtain ⟨c, d, c', d', hext, hbefore, hafter, hgroup⟩ := ih (n := n) hfit hmark
            (fun hmem => hne (List.mem_cons_of_mem _ hmem)) hp hplace h
          refine ⟨c, d, c', d', hext, ?_, hafter, hgroup⟩
          have := (Represents.one 0).append hbefore
          rw [Nat.zero_add] at this
          exact this
      | axis sel flag =>
          cases dims with
          | nil => exact hfit.elim
          | cons m dims =>
              cases flag with
              | true =>
                  obtain ⟨next, hnext, hmore⟩ := Fallible.bind_eq_ok.mp h
                  rw [visit_member hmark.head, hplace] at hnext
                  cases hnext
                  obtain ⟨-, hbefore, hafter⟩ := owned_member entries m dims hfit.2.1
                  rw [(owned_member _ _ _ hfit.2.1).1] at hne
                  obtain ⟨hgroup, c, d, hext, hrep⟩ :=
                    visited_ok (p := { p with groupAt := some p.dims.length }) hfit.2.2
                      hmark.tail hne hp hmore
                  rw [hbefore, hafter]
                  refine ⟨0, [], c, d, ⟨hext.lt, ?_, hext.dims⟩, .nil, hrep, fun _ => ?_⟩
                  · simpa using hext.base
                  · exact hgroup _ rfl
              | false =>
                  obtain ⟨hfits, hsorted, hfit⟩ := hfit
                  obtain ⟨next, hnext, hmore⟩ := Fallible.bind_eq_ok.mp h
                  obtain ⟨howned, hbefore', hafter'⟩ := owned_own entries m dims hsorted
                  rw [howned] at hne
                  obtain ⟨hsame, c₀, d₀, hext₀, hrep₀⟩ := visit_own hmark.head hfits hsorted
                    (fun hnil => hne (by simp [hnil])) hnext
                  obtain ⟨c, d, c', d', hext, hbefore, hafter, hgroup⟩ := ih hfit hmark.tail
                    (fun hmem => hne (List.mem_cons_of_mem _ hmem)) hext₀.lt (hsame.trans hplace)
                    hmore
                  rw [hbefore', hafter']
                  refine ⟨c₀ + c, d₀ ++ d, c', d', ?_, hrep₀.append hbefore, hafter, ?_⟩
                  · rw [Nat.add_assoc, List.append_assoc]
                    exact hext₀.trans hext
                  · intro hmembers
                    rw [hgroup hmembers, hext₀.dims, List.length_append, List.length_append,
                      Nat.add_assoc]

end Visit

/-! ## Visiting the group -/

section Group

variable {shape dims ts indices : List Nat} {r : ResolvedSelection} {entries : List Entry}
  {selIndices : List Index} {axes : List (AxisSel × Bool)} {front : List AxisSel}
  {stride len base : Nat} {strides_ frontStrides : List Nat}

/-- Visit a member of the group by itself. -/
def visitMember (q : Nat × List Nat) (m : AxisSel × Nat) : Nat × List Nat :=
  visitGroup [m.1] [m.2] q 0

/-- The axes of the group are looked up in order. -/
theorem flagged_lookup (hlen : axes.length = strides_.length)
    (hfront : front.length = frontStrides.length) :
    (flagged front.length (axes.map Prod.snd)).map (fun i =>
        ((front ++ axes.map Prod.fst).getD i (.point 0), (frontStrides ++ strides_).getD i 1)) =
      (axes.zip strides_).filterMap fun ((sel, advanced), stride) =>
        if advanced then some (sel, stride) else none := by
  induction axes generalizing strides_ front frontStrides with
  | nil => rfl
  | cons axis axes ih =>
      obtain ⟨sel, flag⟩ := axis
      cases strides_ with
      | nil => cases hlen
      | cons stride strides_ =>
          have hlen' : axes.length = strides_.length := by simpa using hlen
          have hfront' : (front ++ [sel]).length = (frontStrides ++ [stride]).length := by
            simp [hfront]
          have hrest := ih hlen' hfront'
          simp only [List.append_assoc, List.singleton_append, List.length_append,
            List.length_singleton] at hrest
          cases flag with
          | false => exact hrest
          | true =>
              have hsel : (front ++ sel :: axes.map Prod.fst).getD front.length (.point 0) = sel := by
                simp
              have hstride : (frontStrides ++ stride :: strides_).getD front.length 1 = stride := by
                simp [hfront]
              simp only [List.map_cons, flagged_true, hrest, hsel, hstride]
              rfl

/-- The terms of a list are added up to the wrap. -/
theorem addTerms_eq (h : ts.length = indices.length) :
    addTerms stride (ts.map (· % Word.size 64)) indices =
      (List.zipWith (fun t i => t + i * stride) ts indices).map (· % Word.size 64) := by
  induction ts generalizing indices with
  | nil =>
      obtain rfl : indices = [] := List.length_eq_zero_iff.mp h.symm
      rfl
  | cons t ts ih =>
      cases indices with
      | nil => cases h
      | cons i indices =>
          rw [List.map_cons, addTerms, ih (by simpa using h), List.zipWith_cons_cons, List.map_cons]
          congr 1
          simp [Word.wrappingAdd, Word.wrappingMul]

/-- Members that stand still go into the base and the others into the offsets. -/
theorem foldl_visitMember {members : List (AxisSel × Nat)}
    (hsorted : ∀ m ∈ members, Entry.Sorted m.1 true)
    (hlen : ∀ m ∈ members, m.1.indices.length = 1 ∨ m.1.indices.length = ts.length)
    (hbase : base < Word.size 64) :
    ∃ (base' c : Nat) (ts' : List Nat), members.foldl visitMember (base, ts.map (· % Word.size 64)) =
        (base', ts'.map (· % Word.size 64)) ∧
      base' < Word.size 64 ∧ (base' : Int) ≡ base + c [ZMOD Word.size 64] ∧
      ts'.length = ts.length ∧ ((∀ m ∈ members, m.1.indices.length = 1) → ts' = ts) ∧
      ∀ k < ts.length, c + ts'.getD k 0 = ts.getD k 0 +
        ((members.map fun m => m.1.indices.map (· * m.2)).map fun terms =>
          terms.getD (if terms.length = 1 then 0 else k) 0).sum := by
  induction members generalizing base ts with
  | nil => exact ⟨base, 0, ts, rfl, hbase, by simp, rfl, fun _ => rfl, by simp⟩
  | cons m members ih =>
      obtain ⟨sel, stride⟩ := m
      have hsorted' := fun m hm => hsorted m (List.mem_cons_of_mem _ hm)
      have hlen' := fun m hm => hlen m (List.mem_cons_of_mem _ hm)
      by_cases hone : sel.indices.length = 1
      · obtain ⟨i, hi⟩ := List.length_eq_one_iff.mp hone
        have hvisit : visitMember (base, ts.map (· % Word.size 64)) (sel, stride) =
            (Word.wrappingAdd 64 base (Word.wrappingMul 64 i stride),
              ts.map (· % Word.size 64)) := by
          cases sel with
          | point index =>
              cases hi
              rfl
          | range start len step => cases hsorted _ List.mem_cons_self
          | fancy list =>
              obtain rfl : list = [i] := hi
              rfl
        obtain ⟨base', c, ts', hfold, hlt, hmod, htslen, hstill, hsum⟩ :=
          ih hsorted' hlen' (show Word.wrappingAdd 64 base (Word.wrappingMul 64 i stride) < _ from
            Word.wrappingAdd_lt)
        refine ⟨base', i * stride + c, ts', ?_, hlt, ?_, htslen, ?_, ?_⟩
        · rw [List.foldl_cons, hvisit, hfold]
        · refine hmod.trans ?_
          have := (extends_base base i stride).add_right c
          rwa [Int.add_assoc, ← Nat.cast_add] at this
        · intro hall
          exact hstill fun m hm => hall m (List.mem_cons_of_mem _ hm)
        · intro k hk
          have := hsum k hk
          simp only [List.map_cons, List.sum_cons, hi, List.map_nil, List.length_singleton, if_true,
            List.getD_cons_zero]
          omega
      · have hsame : sel.indices.length = ts.length :=
          (hlen _ List.mem_cons_self).resolve_left hone
        have hvisit : visitMember (base, ts.map (· % Word.size 64)) (sel, stride) =
            (base, addTerms stride (ts.map (· % Word.size 64)) sel.indices) := by
          cases sel with
          | point index => exact absurd rfl hone
          | range start len step => cases hsorted _ List.mem_cons_self
          | fancy list =>
              match list with
              | [] => rfl
              | [i] => exact absurd rfl hone
              | i :: j :: list => rfl
        have hzip : (List.zipWith (fun t i => t + i * stride) ts sel.indices).length = ts.length := by
          simp [hsame]
        obtain ⟨base', c, ts', hfold, hlt, hmod, htslen, -, hsum⟩ :=
          ih hsorted' (show ∀ m ∈ members, m.1.indices.length = 1 ∨ m.1.indices.length =
            (List.zipWith (fun t i => t + i * stride) ts sel.indices).length by rwa [hzip]) hbase
        refine ⟨base', c, ts', ?_, hlt, hmod, htslen.trans hzip, ?_, ?_⟩
        · rw [List.foldl_cons, hvisit, addTerms_eq hsame.symm, hfold]
        · intro hall
          exact absurd (hall _ List.mem_cons_self) hone
        · intro k hk
          have := hsum k (by rwa [hzip])
          have hk' : k < sel.indices.length := by omega
          rw [List.map_cons, List.map_cons, List.sum_cons, if_neg (by simpa using hone)]
          simp only [List.getD_eq_getElem?_getD, List.getElem?_zipWith, List.getElem?_map,
            List.getElem?_eq_getElem hk, List.getElem?_eq_getElem hk', Option.getD_some,
            Option.map_some] at this ⊢
          omega

/-- The dimension of the group, and what its members leave in the base. -/
theorem represents_group {members : List (AxisSel × Nat)}
    (hsorted : ∀ m ∈ members, Entry.Sorted m.1 true)
    (hlen : ∀ m ∈ members, m.1.indices.length = 1 ∨ m.1.indices.length = len)
    (hpos : 0 < len) (hbase : base < Word.size 64) :
    ∃ base' c offsets, members.foldl visitMember (base, List.replicate len 0) = (base', offsets) ∧
      base' < Word.size 64 ∧ (base' : Int) ≡ base + (c : Nat) [ZMOD Word.size 64] ∧
      Represents c (if 1 < len then [.list offsets] else [])
        [groupTerms (members.map fun m => m.1.indices.map (· * m.2)) len] := by
  obtain ⟨base', c, ts', hfold, hlt, hmod, htslen, hstill, hsum⟩ :=
    foldl_visitMember hsorted (show ∀ m ∈ members, m.1.indices.length = 1 ∨
      m.1.indices.length = (List.replicate len 0).length by simpa using hlen) hbase
  rw [List.length_replicate] at htslen hsum
  have hterms : groupTerms (members.map fun m => m.1.indices.map (· * m.2)) len =
      ts'.map (c + ·) := by
    apply List.ext_getElem (by simp [groupTerms, htslen])
    intro k hk hk'
    rw [List.length_map] at hk'
    have := hsum k (by omega)
    simp only [groupTerms, List.getElem_map, List.getElem_range]
    rw [List.getD_eq_getElem?_getD, List.getD_eq_getElem?_getD, List.getElem?_eq_getElem hk',
      List.getElem?_replicate, if_pos (by omega), Option.getD_some, Option.getD_some] at this
    omega
  refine ⟨base', c, ts'.map (· % Word.size 64), by simpa using hfold, hlt, hmod, ?_⟩
  rw [hterms]
  split
  · rename_i hone
    refine ⟨_, .cons (.list (by omega)) .nil, ?_⟩
    simp [List.map_map, Function.comp_def]
  · obtain rfl : len = 1 := by omega
    obtain rfl : ts' = [0] := hstill fun m hm => (hlen m hm).elim id id
    exact .one c

end Group

/-! ## The walk as a whole -/

section New

variable {shape : List Nat} {indices : List Index} {r : ResolvedSelection} {entries : List Entry}
  {s : Numpy.Selected} {g : Gathered}

/-- Whether the code puts the dimension of the group at the front. -/
def front (r : ResolvedSelection) : Bool := r.advanced.any fun group => !group.adjacent

theorem marked (h : Resolves shape indices r entries) : Marked r.advanced entries 0 := by
  intro i flag hi
  cases hadvanced : r.advanced with
  | none =>
      have hplain := flagged_eq_nil.mp (h.plain hadvanced)
      rw [List.any_eq_false] at hplain
      have := hplain flag (List.mem_of_getElem? hi)
      simpa using this
  | some group =>
      obtain ⟨haxes, -⟩ := h.group group hadvanced
      rw [Option.any_some, haxes, Bool.eq_iff_iff, List.contains_iff_mem, mem_flagged]
      simp [hi]

theorem members_sorted {dims : List Nat} (hfit : Entry.Fit entries dims) :
    ∀ m ∈ Entry.members entries dims, Entry.Sorted m.1 true := by
  induction entries generalizing dims with
  | nil => simp [Entry.members, Entry.axes]
  | cons entry entries ih =>
      cases entry with
      | new => exact ih hfit
      | axis sel flag =>
          cases dims with
          | nil => exact hfit.elim
          | cons n dims =>
              obtain ⟨-, hsorted, hfit⟩ := hfit
              cases flag with
              | false => exact ih hfit
              | true =>
                  intro m hm
                  rcases List.mem_cons.mp hm with rfl | hm
                  · exact hsorted
                  · exact ih hfit m hm

theorem length_axes {dims : List Nat} (hfit : Entry.Fit entries dims) :
    (Entry.axes entries).length = dims.length := by
  induction entries generalizing dims with
  | nil =>
      cases dims with
      | nil => rfl
      | cons n dims => exact hfit.elim
  | cons entry entries ih =>
      cases entry with
      | new => exact ih hfit
      | axis sel flag =>
          cases dims with
          | nil => exact hfit.elim
          | cons n dims => exact congrArg (· + 1) (ih hfit.2.2)

/-- The group's own axes, looked up, are its members. -/
theorem lookup_members (h : Resolves shape indices r entries) {group : Advanced}
    (hadvanced : r.advanced = some group) :
    (group.axes.map fun i => (r.axes.getD i (.point 0), (strides shape).getD i 1)) =
      Entry.members entries shape := by
  rw [(h.group group hadvanced).1, h.axes]
  exact @flagged_lookup _ [] _ [] (by rw [length_strides, length_axes h.fit]) rfl

theorem owned_split (entries : List Entry) (dims : List Nat) :
    owned entries dims = Entry.before entries dims ++ Entry.after entries dims := by
  unfold owned Entry.before Entry.after
  rw [← List.filterMap_append, List.takeWhile_append_dropWhile]

theorem insertIdx_length_append {α : Type} (xs ys : List α) (x : α) :
    (xs ++ ys).insertIdx xs.length x = xs ++ x :: ys := by
  induction xs with
  | nil => simp
  | cons y xs ih => simpa using ih

/-- A walk represents the grid that was selected. -/
theorem new_ok (h : Resolves shape indices r entries)
    (hs : Numpy.select shape indices = some s) (hne : [] ∉ s.dims (front r))
    (hnew : Gathered.new shape r = .ok g) :
    g.base < Word.size 64 ∧ ∃ c : Nat, (g.base : Int) ≡ c [ZMOD Word.size 64] ∧
      Represents c g.dims (s.dims (front r)) := by
  unfold Gathered.new at hnew
  split at hnew
  · cases hnew
  rename_i strides_ hstrides
  obtain rfl := stridesOf_eq hstrides
  obtain ⟨p, hp, hnew⟩ := Fallible.bind_eq_ok.mp hnew
  rw [h.select_eq] at hs
  cases hs
  have hown : [] ∉ owned entries shape := by
    rw [owned_split]
    intro hmem
    apply hne
    cases hadvanced : r.advanced with
    | none => simpa [Numpy.Selected.dims, hadvanced] using hmem
    | some group =>
        cases hfront : front r with
        | true => simpa [Numpy.Selected.dims, hadvanced, hfront] using Or.inr (List.mem_append.mp hmem)
        | false =>
            rcases List.mem_append.mp hmem with hmem | hmem <;> simp [Numpy.Selected.dims, hmem]
  rw [h.axes] at hp
  obtain ⟨c, d, c', d', hext, hbefore, hafter, hplace⟩ :=
    visited_split h.fit (marked h) hown (p := ⟨0, [], none⟩) (by decide) rfl hp
  have hbase : (p.base : Int) ≡ (c + c' : Nat) [ZMOD Word.size 64] := by simpa using hext.base
  have hdims : p.dims = d ++ d' := by simpa using hext.dims
  cases hadvanced : r.advanced with
  | none =>
      rw [hadvanced] at hnew
      cases hnew
      refine ⟨hext.lt, c + c', hbase, ?_⟩
      simpa [Numpy.Selected.dims, hdims] using hbefore.append hafter
  | some group =>
      obtain ⟨haxes, hmembers, -, -⟩ := h.group group hadvanced
      rw [haxes, Ne, ← members_eq_nil h.fit] at hmembers
      have hpos : 0 < group.len := by
        rw [Nat.pos_iff_ne_zero]
        intro hzero
        apply hne
        cases hfront : front r <;> simp [Numpy.Selected.dims, hadvanced, hzero, groupTerms]
      obtain ⟨base, c₀, offsets, hfold, hlt, hmod, hgroup⟩ :=
        represents_group (members_sorted h.fit) (fun m hm => by
          have := h.members_length hadvanced _ (List.mem_map_of_mem hm)
          simpa using this) hpos hext.lt
      have hvisit : group.axes.foldl (visitGroup r.axes (strides shape))
          (p.base, List.replicate group.len 0) = (base, offsets) := by
        rw [← hfold, ← lookup_members h hadvanced, List.foldl_map]
        rfl
      have hmod' : (base : Int) ≡ (c + c' + c₀ : Nat) [ZMOD Word.size 64] := by
        refine hmod.trans ?_
        push_cast at hbase ⊢
        exact hbase.add_right _
      have hplace' : p.groupAt = some d.length := by simpa using hplace hmembers
      have hwalk : g = ⟨base, if group.adjacent then
          d ++ ((if 1 < group.len then [.list offsets] else []) ++ d')
          else (if 1 < group.len then [.list offsets] else []) ++ (d ++ d')⟩ := by
        rw [hadvanced] at hnew
        dsimp only at hnew
        rw [hvisit] at hnew
        dsimp only at hnew
        rw [hplace', hdims] at hnew
        split at hnew
        · rename_i hone
          cases hnew
          rw [if_pos hone]
          cases group.adjacent with
          | true => exact congrArg (Gathered.mk base) (insertIdx_length_append d d' _)
          | false => simp
        · rename_i hone
          cases hnew
          simp [hone]
      subst hwalk
      refine ⟨hlt, _, hmod', ?_⟩
      have hgroup' : front r = !group.adjacent := by rw [front, hadvanced, Option.any_some]
      cases hadjacent : group.adjacent with
      | true =>
          have := hbefore.append (hgroup.append hafter)
          rw [show c + (c₀ + c') = c + c' + c₀ by omega] at this
          simpa [Numpy.Selected.dims, hgroup', hadjacent, Entry.memberTerms] using this
      | false =>
          have := hgroup.append (hbefore.append hafter)
          rw [show c₀ + (c + c') = c + c' + c₀ by omega] at this
          simpa [Numpy.Selected.dims, hgroup', hadjacent, Entry.memberTerms] using this

end New

end Gathered

end Aex
