import Aex.Core.Selection.Read
import Aex.Core.Selection.Walk
import Aex.Lib.Radix

/-!
# The stretches of a walk

A walk visits the elements that were selected, row by row; the stretches it hands on
name them in order.
-/

namespace Aex

open Grid (sums)
open Radix (coords)

namespace Dim

/-! ## The element of an index -/

section Element

variable {base i k : Nat} {dim : Dim} {dims : List Dim} {index next : List Nat}

/-- The source element of an index into the dimensions. -/
def element (base : Nat) (dims : List Dim) (index : List Nat) : Nat :=
  (prefixes base dims index).getLastD 0

/-- The lengths of the dimensions. -/
abbrev lens (dims : List Dim) : List Nat := dims.map len

theorem prefixes_ne_nil : prefixes base dims index ≠ [] := by
  cases dims <;> cases index <;> simp [prefixes]

@[simp] theorem element_nil : element base [] index = base := by
  cases index <;> rfl

@[simp] theorem element_cons :
    element base (dim :: dims) (k :: index) = element (Word.wrappingAdd 64 base (dim.term k)) dims index := by
  unfold element
  rw [prefixes, List.getLastD_cons]
  generalize hrest : prefixes (Word.wrappingAdd 64 base (dim.term k)) dims index = rest
  cases rest with
  | nil => exact absurd hrest prefixes_ne_nil
  | cons a rest => rfl

theorem element_concat (h : index.length = dims.length) :
    element base (dims ++ [dim]) (index ++ [k]) =
      Word.wrappingAdd 64 (element base dims index) (dim.term k) := by
  induction dims generalizing base index with
  | nil =>
      obtain rfl : index = [] := List.length_eq_zero_iff.mp h
      simp
  | cons d dims ih =>
      cases index with
      | nil => cases h
      | cons j index =>
          simp only [List.cons_append, element_cons]
          exact ih (Nat.succ.inj h)

theorem indexOf_eq (n : Nat) :
    indexOf dims n = (coords (lens dims) n, n / (lens dims).prod) := by
  induction dims with
  | nil => simp [indexOf]
  | cons d dims ih =>
      rw [indexOf, ih]
      simp only [lens, List.map_cons, coords, List.prod_cons]
      rw [Nat.div_div_eq_div_mul, Nat.mul_comm d.len]

/-- The index of the next element, and the leading part that it shares. -/
theorem advance_coords (hdims : ∀ d ∈ dims, 0 < d.len) :
    ∃ at_, advance dims (coords (lens dims) k) =
        (coords (lens dims) (k + 1), at_, decide ((lens dims).prod ∣ k + 1)) ∧
      (coords (lens dims) k).take at_ = (coords (lens dims) (k + 1)).take at_ ∧
      at_ ≤ dims.length := by
  induction dims with
  | nil => exact ⟨0, by simp [advance], rfl, le_rfl⟩
  | cons d dims ih =>
      rw [List.forall_mem_cons] at hdims
      obtain ⟨at_, hnext, hshared, hle⟩ := ih hdims.2
      have hlt := Nat.mod_lt (k / (lens dims).prod) hdims.1
      have hwhole := @Radix.prod_cons_dvd_succ_iff (lens dims) k d.len hdims.1
      simp only [lens, List.map_cons] at hnext hshared hwhole hlt ⊢
      rw [coords, advance, hnext]
      by_cases hdvd : (dims.map len).prod ∣ k + 1
      · rw [decide_eq_true hdvd]
        dsimp only
        by_cases hmore : k / (dims.map len).prod % d.len + 1 < d.len
        · rw [if_pos hmore, Radix.coords_succ_of_lt hdvd hmore,
            decide_eq_false (mt hwhole.mp (by omega))]
          exact ⟨0, rfl, rfl, Nat.zero_le _⟩
        · have hlast : k / (dims.map len).prod % d.len + 1 = d.len := by omega
          rw [if_neg hmore, Radix.coords_succ_of_last hdvd hlast,
            decide_eq_true (hwhole.mpr ⟨hdvd, hlast⟩)]
          exact ⟨0, rfl, rfl, Nat.zero_le _⟩
      · rw [decide_eq_false hdvd, Radix.coords_succ_of_not_dvd hdvd,
          decide_eq_false (mt hwhole.mp fun h => hdvd h.1)]
        refine ⟨at_ + 1, rfl, ?_, Nat.succ_le_succ hle⟩
        rw [List.take_succ_cons, List.take_succ_cons, hshared]

/-- The prefixes that have not changed are kept. -/
theorem refresh_eq (hshared : index.take i = next.take i) (hi : i ≤ dims.length)
    (hindex : index.length = dims.length) (hnext : next.length = dims.length) :
    refresh dims (prefixes base dims index) next i = prefixes base dims next := by
  induction i generalizing base dims index next with
  | zero =>
      have hhead : (prefixes base dims index).getD 0 0 = base := by
        cases dims <;> cases index <;> rfl
      rw [refresh, hhead]
      rfl
  | succ i ih =>
      cases dims with
      | nil => cases hi
      | cons d dims =>
          match index, next with
          | [], _ => cases hindex
          | _, [] => cases hnext
          | k :: index, j :: next =>
              rw [List.take_succ_cons, List.take_succ_cons, List.cons.injEq] at hshared
              obtain ⟨rfl, hshared⟩ := hshared
              rw [prefixes, prefixes, ← ih hshared (Nat.le_of_succ_le_succ hi) (Nat.succ.inj hindex)
                (Nat.succ.inj hnext)]
              rfl

end Element

/-! ## What a walk visits -/

section Visits

variable {base : Nat} {dims outer : List Dim} {inner : Dim} {els : List Nat}
  {added : List (List Int)} {grid : List (List Nat)}

/-- The elements of a walk, row by row; a stride is their step along a row. -/
structure Visits (base : Nat) (outer : List Dim) (inner : Dim) (els : List Nat) : Prop where
  outer_pos : ∀ d ∈ outer, 0 < d.len
  inner_pos : 0 < inner.len
  length : els.length = (lens outer).prod * inner.len
  cell : ∀ r k, r < (lens outer).prod → k < inner.len →
    els[r * inner.len + k]? = some (Word.wrappingAdd 64
      (element base outer (coords (lens outer) r)) (inner.term k))
  along : ∀ r k j, r < (lens outer).prod → k + j < inner.len → ∀ len step,
    inner = .stride len step → ∀ a b, els[r * inner.len + k]? = some a →
      els[r * inner.len + (k + j)]? = some b → (b : Int) = a + j * step

theorem lens_eq (h : List.Forall₂ Adds dims added) : lens dims = added.map List.length := by
  induction h with
  | nil => rfl
  | cons hadds _ ih =>
      simp only [lens, List.map_cons] at ih ⊢
      rw [hadds.one_lt.2, ih]

/-- An index leads to the sum of its terms, up to the wrap. -/
theorem element_modEq (h : List.Forall₂ Adds dims added) (base : Nat) {k : Nat} {e : Int}
    (hk : (sums added)[k]? = some e) :
    (element base dims (coords (lens dims) k) : Int) ≡ base + e [ZMOD Word.size 64] := by
  induction h generalizing base k e with
  | nil =>
      obtain ⟨hlt, rfl⟩ := List.getElem?_eq_some_iff.mp hk
      simp
  | @cons dim terms dims added hadds hrest ih =>
      have hlens : (lens dims).prod = (sums added).length := by
        rw [Grid.length_sums, lens_eq hrest]
      have hlt := (List.getElem?_eq_some_iff.mp hk).1
      rw [Grid.length_sums, List.map_cons, List.prod_cons, ← Grid.length_sums, ← hadds.one_lt.2,
        ← hlens] at hlt
      have hpos : 0 < (lens dims).prod := Nat.pos_of_ne_zero fun hzero => by simp [hzero] at hlt
      obtain ⟨q, r, hr, rfl⟩ : ∃ q r, r < (lens dims).prod ∧ k = q * (lens dims).prod + r :=
        ⟨k / (lens dims).prod, k % (lens dims).prod, Nat.mod_lt _ hpos,
          (Nat.div_add_mod' k _).symm⟩
      have hq : q < terms.length := by
        rw [← hadds.one_lt.2]
        exact Nat.lt_of_mul_lt_mul_right (Nat.lt_of_le_of_lt (Nat.le_add_right _ r) hlt)
      have hr' : r < (sums added).length := hlens ▸ hr
      have hrow := @Grid.getElem?_sums_cons _ _ terms added q r hr'
      rw [← hlens, hk, List.getElem?_eq_getElem hq, Option.map_some, Option.some.injEq] at hrow
      have hfirst : (q * (lens dims).prod + r) / (lens dims).prod % dim.len = q := by
        rw [Nat.add_comm, Nat.add_mul_div_right _ _ hpos, Nat.div_eq_of_lt hr, Nat.zero_add,
          Nat.mod_eq_of_lt (hadds.one_lt.2 ▸ hq)]
      have hmore := ih (Word.wrappingAdd 64 base (dim.term q)) (List.getElem?_eq_getElem hr')
      rw [lens, List.map_cons, coords, ← lens, hfirst, Radix.coords_add_mul, element_cons, hrow,
        ← Int.add_assoc]
      refine hmore.trans (Int.ModEq.add_right _ ?_)
      exact (wrappingAdd_modEq _ _).trans ((hadds.term hq).add_left _)

theorem forall₂_concat {dims : List Dim} (h : List.Forall₂ Adds (dims ++ [inner]) added) :
    ∃ front terms, added = front ++ [terms] ∧ List.Forall₂ Adds dims front ∧ inner.Adds terms := by
  induction dims generalizing added with
  | nil =>
      obtain ⟨terms, rest, hadds, hrest, rfl⟩ := List.forall₂_cons_left_iff.mp h
      obtain rfl := List.forall₂_nil_left_iff.mp hrest
      exact ⟨[], terms, rfl, .nil, hadds⟩
  | cons dim dims ih =>
      obtain ⟨first, rest, hfirst, hrest, rfl⟩ := List.forall₂_cons_left_iff.mp h
      obtain ⟨front, terms, rfl, hfront, hterms⟩ := ih hrest
      exact ⟨first :: front, terms, rfl, .cons hfirst hfront, hterms⟩

theorem coords_concat {r k n : Nat} {dims : List Nat} (hk : k < n) :
    coords (dims ++ [n]) (r * n + k) = coords dims r ++ [k] := by
  have hquot : (r * n + k) / n = r := by
    rw [Nat.add_comm, Nat.add_mul_div_right _ _ (by omega), Nat.div_eq_of_lt hk, Nat.zero_add]
  have hrest : (r * n + k) % n = k := by
    rw [Nat.add_comm, Nat.add_mul_mod_self_right, Nat.mod_eq_of_lt hk]
  rw [Radix.coords_append, List.prod_singleton, hquot]
  simp [coords, hrest]

/-- An index leads to the element it stands for, up to the wrap. -/
theorem element_of_represents {c k e : Nat} (hbase : (base : Int) ≡ c [ZMOD Word.size 64])
    (h : Represents c dims grid) (hk : (sums grid)[k]? = some e) :
    (element base dims (coords (lens dims) k) : Int) ≡ e [ZMOD Word.size 64] := by
  obtain ⟨added, hadds, heq⟩ := h
  have hcell : (sums added)[k]?.map ((c : Int) + ·) = some (e : Int) := by
    rw [← List.getElem?_map, heq, List.getElem?_map, hk]
    rfl
  obtain ⟨a, ha, hsum⟩ := Option.map_eq_some_iff.mp hcell
  have hmod := (element_modEq hadds base ha).trans (hbase.add_right a)
  rwa [hsum] at hmod

theorem length_of_represents {c : Nat} (h : Represents c dims grid) :
    (sums grid).length = (lens dims).prod := by
  obtain ⟨added, hadds, heq⟩ := h
  have := congrArg List.length heq
  rw [List.length_map, List.length_map, Grid.length_sums, ← lens_eq hadds] at this
  exact this.symm

/-- The index into the outer dimensions and the inner one. -/
theorem element_of_row {r k : Nat} (hk : k < inner.len) :
    element base (outer ++ [inner]) (coords (lens (outer ++ [inner])) (r * inner.len + k)) =
      Word.wrappingAdd 64 (element base outer (coords (lens outer) r)) (inner.term k) := by
  rw [lens, List.map_append, List.map_singleton, coords_concat hk, element_concat (by simp)]

/-- A walk that represents a grid of elements that words can hold visits them. -/
theorem visits_of_represents {c : Nat} (hbase : (base : Int) ≡ c [ZMOD Word.size 64])
    (h : Represents c (outer ++ [inner]) grid)
    (hgrid : ∀ e ∈ sums grid, e < Word.size 64) : Visits base outer inner (sums grid) := by
  have hlength : (sums grid).length = (lens outer).prod * inner.len := by
    rw [length_of_represents h]
    simp [lens]
  have helement := fun k e => @element_of_represents base (outer ++ [inner]) grid c k e hbase h
  obtain ⟨added, hadds, heq⟩ := h
  obtain ⟨front, terms, rfl, hfront, hterms⟩ := forall₂_concat hadds
  have hcell : ∀ k : Nat, (sums (front ++ [terms]))[k]?.map ((c : Int) + ·) =
      (sums grid)[k]?.map fun e : Nat => (e : Int) := by
    intro k
    rw [← List.getElem?_map, ← List.getElem?_map, heq]
  refine ⟨fun d hd => ?_, Nat.zero_lt_of_lt hterms.one_lt.1, hlength, ?_, ?_⟩
  · obtain ⟨i, hi, rfl⟩ := List.getElem_of_mem hd
    exact Nat.zero_lt_of_lt (hfront.get hi (hfront.length_eq ▸ hi)).one_lt.1
  · intro r k hr hk
    have hin : r * inner.len + k < (sums grid).length := by
      have := Nat.mul_le_mul_right inner.len hr
      rw [Nat.succ_mul] at this
      omega
    obtain ⟨e, he⟩ : ∃ e, (sums grid)[r * inner.len + k]? = some e :=
      ⟨_, List.getElem?_eq_getElem hin⟩
    have hmod := helement _ _ he
    rw [element_of_row hk] at hmod
    have hnat : _ % _ = _ % _ := Int.natCast_modEq_iff.mp hmod
    rw [Nat.mod_eq_of_lt Word.wrappingAdd_lt,
      Nat.mod_eq_of_lt (hgrid e (List.mem_of_getElem? he))] at hnat
    rw [he, hnat]
  · intro r k j hr hkj len step hinner a b ha hb
    subst hinner
    cases hterms with
    | stride hlen =>
        have hlen' : ((List.range len).map fun k : Nat => (k : Int) * step).length =
            (Dim.stride len step).len := by simp [Dim.len]
        have hrow : ∀ i, i < len → (sums (front ++ [(List.range len).map fun k : Nat =>
            (k : Int) * step]))[r * len + i]? = (sums front)[r]?.map (· + i * step) := by
          intro i hi
          have := @Grid.getElem?_sums_concat _ _ ((List.range len).map fun k : Nat => (k : Int) * step)
            front r i (by simpa using hi)
          simpa using this
        have hka := hcell (r * len + k)
        have hkb := hcell (r * len + (k + j))
        rw [hrow k (by simp [Dim.len] at hkj; omega)] at hka
        rw [hrow (k + j) hkj] at hkb
        simp only [Dim.len] at ha hb
        rw [ha] at hka
        rw [hb] at hkb
        cases hsum : (sums front)[r]? with
        | none =>
            rw [hsum] at hka
            cases hka
        | some o =>
            rw [hsum] at hka hkb
            simp only [Option.map_some, Option.some.injEq] at hka hkb
            rw [← hka, ← hkb]
            push_cast
            ring

end Visits

end Dim

/-! ## Stretches -/

namespace Stretch

section Elements

variable {M : Nat} {s p : Stretch} {pending : Option Stretch} {ss : List Stretch}

/-- The source elements of a stretch, in order. -/
def elements (s : Stretch) : List Nat :=
  (List.range s.count).map fun i : Nat => (s.src + i * s.step : Int).toNat

/-- Elements of `M` bytes whose ends a word can hold. -/
structure Valid (M : Nat) (s : Stretch) : Prop where
  count_pos : 0 < s.count
  moves : s.step ≠ 0
  nonneg : ∀ i < s.count, 0 ≤ (s.src + i * s.step : Int)
  fits : ∀ e ∈ s.elements, (e + 1) * M < Word.size 64

theorem length_elements : s.elements.length = s.count := by
  simp [elements]

theorem elements_one (h : s.step = 1) : s.elements = List.range' s.src s.count := by
  rw [elements, h, List.range'_eq_map_range]
  apply List.map_congr_left
  intro i _
  omega

theorem elements_single (h : s.count = 1) : s.elements = [s.src] := by
  simp [elements, h]

theorem settle_count : s.settle.count = s.count := by
  unfold settle
  split <;> rfl

theorem settle_src : s.settle.src = s.src := by
  unfold settle
  split <;> rfl

theorem elements_settle : s.settle.elements = s.elements := by
  unfold settle
  split
  · rename_i hone
    rw [elements_single hone, elements_single (s := { s with step := 1 }) hone]
  · rfl

theorem Valid.settle (h : s.Valid M) : s.settle.Valid M where
  count_pos := settle_count.symm ▸ h.count_pos
  moves := by
    unfold Stretch.settle
    split
    · exact Int.one_ne_zero
    · exact h.moves
  nonneg := by
    unfold Stretch.settle
    split
    · intro i _
      positivity
    · exact h.nonneg
  fits := by
    rw [elements_settle]
    exact h.fits

/-- The end of a run of elements. -/
theorem Valid.end_lt (h : s.Valid M) (hone : s.step = 1) : (s.src + s.count) * M < Word.size 64 := by
  have hlast : s.src + s.count - 1 ∈ s.elements := by
    rw [elements_one hone, List.mem_range'_1]
    have := h.count_pos
    omega
  have := h.fits _ hlast
  have hcount := h.count_pos
  rwa [show s.src + s.count - 1 + 1 = s.src + s.count by omega] at this

theorem hold_none : hold none s = (none, s.settle) := rfl

/-- A stretch that carries on from the one before makes one with it. -/
theorem hold_joins (hM : 0 < M) (hp : p.Valid M) (hs : s.Valid M)
    (h : p.step = 1 ∧ s.settle.step = 1 ∧ Word.wrappingAdd 64 p.src p.count = s.settle.src) :
    (hold (some p) s).1 = none ∧ (hold (some p) s).2.elements = p.elements ++ s.elements ∧
      (hold (some p) s).2.Valid M := by
  obtain ⟨hpone, hsone, hnext⟩ := h
  have hpend := hp.end_lt hpone
  have hsend := hs.settle.end_lt hsone
  have hbound : ∀ n, n * M < Word.size 64 → n < Word.size 64 := fun n hn =>
    (Nat.le_mul_of_pos_right n hM).trans_lt hn
  rw [Word.wrappingAdd_of_lt (hbound _ hpend)] at hnext
  have hcount : p.count + s.settle.count < Word.size 64 := by
    have := hbound _ hsend
    omega
  have hhold : hold (some p) s = (none, { p with count := p.count + s.settle.count }) := by
    unfold hold
    dsimp only
    rw [if_pos ⟨hpone, hsone, by rw [Word.wrappingAdd_of_lt (hbound _ hpend), hnext]⟩,
      Word.wrappingAdd_of_lt hcount]
  have helements : ({ p with count := p.count + s.settle.count } : Stretch).elements =
      p.elements ++ s.elements := by
    rw [← elements_settle (s := s), elements_one hpone, elements_one hsone, ← hnext,
      List.range'_append_1]
    exact elements_one hpone
  rw [hhold]
  refine ⟨rfl, helements, ⟨?_, hp.moves, ?_, ?_⟩⟩
  · exact Nat.add_pos_left hp.count_pos _
  · intro i _
    dsimp only
    rw [hpone]
    positivity
  · intro e he
    rw [helements, List.mem_append] at he
    exact he.elim (hp.fits e) (hs.fits e)

/-- Holding a stretch back loses no element. -/
theorem hold_ok (hM : 0 < M) (hp : ∀ p ∈ pending, p.Valid M) (hs : s.Valid M) :
    (hold pending s).1.toList.flatMap elements ++ (hold pending s).2.elements =
        pending.toList.flatMap elements ++ s.elements ∧
      (∀ p ∈ (hold pending s).1, p.Valid M) ∧ (hold pending s).2.Valid M := by
  cases pending with
  | none => exact ⟨by simp [hold_none, elements_settle], by simp [hold_none], hs.settle⟩
  | some p =>
      by_cases h : p.step = 1 ∧ s.settle.step = 1 ∧
          Word.wrappingAdd 64 p.src p.count = s.settle.src
      · obtain ⟨hnone, helements, hvalid⟩ := hold_joins hM (hp p rfl) hs h
        rw [hnone, helements]
        exact ⟨by simp, by simp, hvalid⟩
      · have hhold : hold (some p) s = (some p, s.settle) := if_neg h
        rw [hhold]
        exact ⟨by simp [elements_settle], hp, hs.settle⟩

theorem holdAll_ok (hM : 0 < M) (hp : ∀ p ∈ pending, p.Valid M) (hss : ∀ s ∈ ss, s.Valid M) :
    (holdAll pending ss).flatMap elements = pending.toList.flatMap elements ++ ss.flatMap elements ∧
      ∀ s ∈ holdAll pending ss, s.Valid M := by
  induction ss generalizing pending with
  | nil =>
      refine ⟨by simp [holdAll], fun s hs => hp s ?_⟩
      simpa [holdAll] using hs
  | cons s ss ih =>
      rw [List.forall_mem_cons] at hss
      obtain ⟨helements, hfirst, hlast⟩ := hold_ok hM hp hss.1
      obtain ⟨hrest, hvalid⟩ := @ih (some (hold pending s).2)
        (by rintro _ ⟨rfl⟩; exact hlast) hss.2
      constructor
      · rw [holdAll, List.flatMap_append, hrest, List.flatMap_cons, ← List.append_assoc,
          ← List.append_assoc, ← helements]
        simp
      · intro t ht
        rcases List.mem_append.mp ht with ht | ht
        · exact hfirst t (by simpa using ht)
        · exact hvalid t ht

end Elements

end Stretch

/-! ## Rows -/

namespace Dim

section Rows

variable {base M r k i take most fuel remaining : Nat} {outer : List Dim} {inner : Dim}
  {els : List Nat}

/-- Elements of one row that one stretch names. -/
theorem Visits.segment (hv : Visits base outer inner els) (hr : r < (lens outer).prod)
    (hk : k + take ≤ inner.len) (hone : ∀ offsets, inner = .list offsets → take ≤ 1) :
    let s : Stretch := ⟨Word.wrappingAdd 64 (element base outer (coords (lens outer) r))
      (inner.term k), inner.step, take⟩
    s.elements = Vec.slice els (r * inner.len + k) take ∧
      ∀ j < take, 0 ≤ (s.src + j * s.step : Int) := by
  intro s
  have hcell : ∀ j < take, els[r * inner.len + k + j]? = some ((s.src + j * s.step : Int).toNat) ∧
      0 ≤ (s.src + j * s.step : Int) := by
    intro j hj
    have hfirst := hv.cell r k hr (by omega)
    have hlast := hv.cell r (k + j) hr (by omega)
    rw [← Nat.add_assoc] at hlast
    suffices hsum : ((Word.wrappingAdd 64 (element base outer (coords (lens outer) r))
        (inner.term (k + j)) : Nat) : Int) = s.src + j * s.step by
      rw [hlast, ← hsum]
      exact ⟨by simp, Int.natCast_nonneg _⟩
    cases hinner : inner with
    | stride len step =>
        have hstep := hv.along r k j hr (by omega) len step hinner _ _ hfirst
          (by rw [← Nat.add_assoc]; exact hlast)
        rw [hinner] at hstep
        rw [hstep]
        simp only [s, hinner, Dim.step]
    | list offsets =>
        have hle := hone offsets hinner
        obtain rfl : j = 0 := by omega
        simp [s, hinner]
  refine ⟨?_, fun j hj => (hcell j hj).2⟩
  apply List.ext_getElem?
  intro j
  rw [Vec.getElem?_slice, Stretch.elements, List.getElem?_map]
  by_cases hj : j < take
  · rw [if_pos hj, (hcell j hj).1, List.getElem?_range hj]
    rfl
  · rw [if_neg hj, List.getElem?_eq_none (by simpa using hj)]
    rfl

/-- The stretches of the rest of a row. -/
theorem rowStretches_ok (hv : Visits base outer inner els) (hr : r < (lens outer).prod)
    (hbound : ∀ e ∈ els, (e + 1) * M < Word.size 64) (hword : k + take < Word.size 64)
    (hmost : 0 < most) (hstep : inner.step ≠ 0)
    (hlist : ∀ offsets, inner = .list offsets → most = 1)
    (hk : k + take ≤ inner.len) (hfuel : take - i ≤ fuel) :
    (rowStretches inner (element base outer (coords (lens outer) r)) k most fuel i take).flatMap
        Stretch.elements = Vec.slice els (r * inner.len + (k + i)) (take - i) ∧
      ∀ s ∈ rowStretches inner (element base outer (coords (lens outer) r)) k most fuel i take,
        s.Valid M := by
  induction fuel generalizing i with
  | zero =>
      have hdone : take - i = 0 := by omega
      rw [hdone]
      exact ⟨by simp [rowStretches, Vec.slice], by simp [rowStretches]⟩
  | succ fuel ih =>
      rw [rowStretches]
      split
      · rename_i hlt
        dsimp only
        obtain ⟨m, hm⟩ : ∃ m, min most (take - i) = m := ⟨_, rfl⟩
        obtain ⟨helements, hnonneg⟩ := @Visits.segment base r (k + i) m outer inner els hv hr (by omega)
          fun offsets hinner => by have := hlist offsets hinner; omega
        obtain ⟨hrest, hvalid⟩ := ih (i := i + m) (by omega)
        rw [hm, Word.wrappingAdd_of_lt (by omega : k + i < Word.size 64)]
        constructor
        · have hnext : r * inner.len + (k + (i + m)) = r * inner.len + (k + i) + m := by omega
          have hwhole : m + (take - (i + m)) = take - i := by omega
          rw [List.flatMap_cons, hrest, helements, hnext, Vec.slice_append_slice, hwhole]
        · intro s hs
          rcases List.mem_cons.mp hs with rfl | hs
          · refine ⟨by dsimp only; omega, hstep, hnonneg, fun e he => ?_⟩
            rw [helements] at he
            exact hbound e (List.mem_of_mem_drop (List.mem_of_mem_take he))
          · exact hvalid s hs
      · rename_i hge
        have hdone : take - i = 0 := by omega
        rw [hdone]
        exact ⟨by simp [Vec.slice], by simp⟩

/-- A stretch holds an element. -/
theorem per_pos {n : Nat} (htake : 0 < take) (h : per M take inner = some n) : 0 < n := by
  unfold per at h
  split at h
  · exact Option.some.inj h ▸ htake
  · split at h
    · split at h
      · cases h
      · have := Option.some.inj h
        omega
    · exact Option.some.inj h ▸ Nat.one_pos

/-- How many elements a stretch along a row holds. -/
theorem exists_per (hM : 0 < M) (hstep : inner.step ≠ 0) (hgap : inner.step.natAbs * M < Word.size 64)
    (htake : 0 < take) :
    ∃ n, per M take inner = some n ∧ 0 < n ∧ ∀ offsets, inner = .list offsets → n = 1 := by
  have hmatch : inner.step ≠ 1 ∨ (∃ offsets, inner = .list offsets) → per M take inner =
      if inner.gap M ≤ spanGapBytes then
        if inner.gap M = 0 then none else some (max (spanMaxBytes / inner.gap M) 1)
      else some 1 := by
    intro h
    unfold per
    split
    · obtain hne | ⟨offsets, hinner⟩ := h
      · exact absurd rfl hne
      · cases hinner
    · rfl
  cases hinner : inner with
  | list offsets =>
      rw [hinner] at hmatch
      have hfar : ¬ gap M (.list offsets) ≤ spanGapBytes := by
        show ¬ Word.size 64 - 1 ≤ spanGapBytes
        decide
      exact ⟨1, (hmatch (.inr ⟨offsets, rfl⟩)).trans (if_neg hfar), Nat.one_pos, fun _ _ => rfl⟩
  | stride len step =>
      rw [hinner] at hmatch hstep hgap
      by_cases hone : step = 1
      · subst hone
        exact ⟨take, rfl, htake, fun _ h => (by cases h)⟩
      · have hgap' : gap M (.stride len step) = step.natAbs * M := Word.wrappingMul_of_lt hgap
        have hpos : 0 < step.natAbs * M := Nat.mul_pos (Int.natAbs_pos.mpr hstep) hM
        rw [hmatch (.inl hone), hgap']
        by_cases hnear : step.natAbs * M ≤ spanGapBytes
        · rw [if_pos hnear, if_neg hpos.ne']
          exact ⟨_, rfl, Nat.one_pos.trans_le (le_max_right _ _), fun _ h => (by cases h)⟩
        · rw [if_neg hnear]
          exact ⟨1, rfl, Nat.one_pos, fun _ h => (by cases h)⟩

/-- Along a row the step is no longer than the source. -/
theorem Visits.gap_lt (hv : Visits base outer inner els) (hpos : 0 < (lens outer).prod)
    (hlen : 1 < inner.len) (hbound : ∀ e ∈ els, (e + 1) * M < Word.size 64) :
    inner.step.natAbs * M < Word.size 64 := by
  have hfirst := hv.cell 0 0 hpos hv.inner_pos
  have hnext := hv.cell 0 (0 + 1) hpos hlen
  have ha := hbound _ (List.mem_of_getElem? hfirst)
  have hb := hbound _ (List.mem_of_getElem? hnext)
  have hle : ∀ n e : Nat, n ≤ e + 1 → (e + 1) * M < Word.size 64 → n * M < Word.size 64 :=
    fun n e hn he => (Nat.mul_le_mul_right M hn).trans_lt he
  cases hinner : inner with
  | list offsets => exact hle 1 _ (by omega) ha
  | stride len step =>
      have hstep := hv.along 0 0 1 hpos hlen len step hinner _ _ hfirst hnext
      rw [Nat.cast_one, Int.one_mul] at hstep
      rcases Int.le_total 0 step with hup | hdown
      · exact hle _ _ (by simp only [Dim.step]; omega) hb
      · exact hle _ _ (by simp only [Dim.step]; omega) ha

/-- The stretches of some elements, row by row. -/
theorem rows_ok (hv : Visits base outer inner els) (hM : 0 < M) (hlen : 1 < inner.len)
    (hstep : inner.step ≠ 0) (hbound : ∀ e ∈ els, (e + 1) * M < Word.size 64)
    (hword : k + remaining < Word.size 64) (hk : k < inner.len) (hfuel : remaining ≤ fuel)
    (hrange : r * inner.len + k + remaining ≤ els.length) :
    ∃ ss, rows outer inner M fuel (coords (lens outer) r) k
        (prefixes base outer (coords (lens outer) r)) remaining = some ss ∧
      ss.flatMap Stretch.elements = Vec.slice els (r * inner.len + k) remaining ∧
      ∀ s ∈ ss, s.Valid M := by
  induction fuel generalizing r k remaining with
  | zero =>
      obtain rfl : remaining = 0 := by omega
      exact ⟨[], rfl, by simp [Vec.slice], by simp⟩
  | succ fuel ih =>
      rw [rows]
      by_cases hdone : remaining = 0
      · rw [if_pos hdone, hdone]
        exact ⟨[], rfl, by simp [Vec.slice], by simp⟩
      · have hr : r < (lens outer).prod := by
          by_contra hge
          have := Nat.mul_le_mul_right inner.len (Nat.not_lt.mp hge)
          rw [← hv.length] at this
          omega
        have hrow : (r + 1) * inner.len ≤ els.length := by
          rw [hv.length]
          exact Nat.mul_le_mul_right _ hr
        rw [Nat.succ_mul] at hrow
        obtain ⟨take, htake⟩ : ∃ take, min (inner.len - k) remaining = take := ⟨_, rfl⟩
        obtain ⟨most, hmost, hpos, hlist⟩ := @exists_per M take inner hM hstep
          (hv.gap_lt (Nat.zero_lt_of_lt hr) hlen hbound) (by omega)
        obtain ⟨at_, hnext, hshared, hat⟩ := @advance_coords r outer hv.outer_pos
        have hrefresh : refresh outer (prefixes base outer (coords (lens outer) r))
            (coords (lens outer) (r + 1)) at_ = prefixes base outer (coords (lens outer) (r + 1)) :=
          refresh_eq hshared hat (by simp) (by simp)
        obtain ⟨more, hmore, hrest, hvalid⟩ := @ih (r + 1) 0 (remaining - take)
          (by omega) hv.inner_pos (by omega) (by rw [Nat.succ_mul]; omega)
        obtain ⟨hfirst, hvalid'⟩ := @rowStretches_ok base M r k 0 take most take outer inner els hv hr
          hbound (by omega) hpos hstep hlist (by omega) (by omega)
        rw [if_neg hdone]
        simp only [htake, hmost, hnext, hrefresh, hmore, Option.bind_eq_bind, Option.bind_some]
        refine ⟨_, rfl, ?_, ?_⟩
        · have hsplit : (r + 1) * inner.len + 0 = r * inner.len + k + take ∨ remaining - take = 0 := by
            rw [Nat.succ_mul]
            omega
          have hwhole : take + (remaining - take) = remaining := by omega
          rw [List.flatMap_append, hrest]
          refine (congrArg (· ++ _) hfirst).trans ?_
          rw [Nat.add_zero, Nat.sub_zero]
          rcases hsplit with hsplit | hzero
          · rw [hsplit, Vec.slice_append_slice, hwhole]
          · rw [hzero, show take = remaining by omega]
            simp [Vec.slice]
        · intro s hs
          rcases List.mem_append.mp hs with hs | hs
          · exact hvalid' s hs
          · exact hvalid s hs

end Rows

end Dim

/-! ## The walk as a whole -/

namespace Gathered

/-- The walk lists some elements, in order. -/
def Lists (g : Gathered) (els : List Nat) : Prop :=
  g.dims = [] ∧ els = [g.base] ∨
    ∃ outer inner, g.dims = outer ++ [inner] ∧ Dim.Visits g.base outer inner els ∧ 1 < inner.len ∧
      inner.step ≠ 0

/-- The stretches of a range name its elements in order. -/
theorem stretches_ok {g : Gathered} {els : List Nat} {M first count : Nat} (hg : g.Lists els)
    (hM : 0 < M) (hbound : ∀ e ∈ els, (e + 1) * M < Word.size 64)
    (hword : first + count < Word.size 64) (hrange : first + count ≤ els.length) :
    ∃ ss, g.stretches M first count = some ss ∧
      ss.flatMap Stretch.elements = Vec.slice els first count ∧ ∀ s ∈ ss, s.Valid M := by
  unfold stretches
  by_cases hzero : count = 0
  · rw [if_pos hzero, hzero]
    exact ⟨[], rfl, by simp [Vec.slice], by simp⟩
  rw [if_neg hzero]
  rcases hg with ⟨hdims, rfl⟩ | ⟨outer, inner, hdims, hv, hlen, hstep⟩
  · rw [List.length_singleton] at hrange
    obtain ⟨rfl, rfl⟩ : first = 0 ∧ count = 1 := by omega
    rw [hdims]
    refine ⟨_, rfl, ?_, ?_⟩
    · rw [List.flatMap_singleton]
      exact Stretch.elements_single rfl
    · intro s hs
      rw [List.mem_singleton.mp hs]
      refine ⟨Nat.one_pos, Int.one_ne_zero, fun i _ => by positivity, ?_⟩
      rw [Stretch.elements_single rfl]
      exact hbound
  · have hin : first < els.length := by omega
    obtain ⟨r, k, hk, rfl⟩ : ∃ r k, k < inner.len ∧ first = r * inner.len + k :=
      ⟨first / inner.len, first % inner.len, Nat.mod_lt _ hv.inner_pos, (Nat.div_add_mod' _ _).symm⟩
    have hindex : (Dim.indexOf g.dims (r * inner.len + k)).1 = coords (Dim.lens outer) r ++ [k] := by
      rw [Dim.indexOf_eq, hdims, Dim.lens, List.map_append, List.map_singleton]
      exact Dim.coords_concat hk
    obtain ⟨ss, hss, helements, hvalid⟩ := Dim.rows_ok hv hM hlen hstep hbound
      (by have := Nat.le_add_left k (r * inner.len); omega) hk le_rfl hrange
    obtain ⟨hflat, hvalid'⟩ := @Stretch.holdAll_ok M none ss hM (by simp) hvalid
    rw [hindex, hdims, List.getLast?_concat, List.dropLast_concat]
    dsimp only
    rw [List.dropLast_concat, List.getLastD_concat, hss]
    exact ⟨_, rfl, hflat.trans (by simpa using helements), hvalid'⟩

/-- The stretch of a single element. -/
theorem stretches_one {g : Gathered} {grid : List (List Nat)} {c k e M : Nat}
    (hbase : (g.base : Int) ≡ c [ZMOD Word.size 64]) (hlt : g.base < Word.size 64)
    (h : Represents c g.dims grid) (hword : (sums grid).length < Word.size 64)
    (hk : (sums grid)[k]? = some e) :
    g.stretches M k 1 = none ∨ ∃ a < Word.size 64, (a : Int) ≡ e [ZMOD Word.size 64] ∧
      g.stretches M k 1 = some [⟨a, 1, 1⟩] := by
  have hmod := Dim.element_of_represents hbase h hk
  have hlength := Dim.length_of_represents h
  have hin := (List.getElem?_eq_some_iff.mp hk).1
  unfold stretches
  rw [if_neg Nat.one_ne_zero]
  rcases List.eq_nil_or_concat g.dims with hdims | ⟨outer, inner, hdims⟩
  · rw [hdims] at hmod ⊢
    rw [Dim.element_nil] at hmod
    exact .inr ⟨g.base, hlt, hmod, rfl⟩
  · rw [List.concat_eq_append] at hdims
    rw [hdims] at hmod hlength h
    obtain ⟨added, hadds, -⟩ := h
    obtain ⟨front, terms, -, hfront, hterms⟩ := Dim.forall₂_concat hadds
    have hpos : 0 < inner.len := Nat.zero_lt_of_lt hterms.one_lt.1
    obtain ⟨r, k, hk', rfl⟩ : ∃ r k', k' < inner.len ∧ k = r * inner.len + k' :=
      ⟨k / inner.len, k % inner.len, Nat.mod_lt _ hpos, (Nat.div_add_mod' _ _).symm⟩
    have hsmall : k < Word.size 64 := by omega
    have hindex : (Dim.indexOf g.dims (r * inner.len + k)).1 = coords (Dim.lens outer) r ++ [k] := by
      rw [Dim.indexOf_eq, hdims, Dim.lens, List.map_append, List.map_singleton]
      exact Dim.coords_concat hk'
    have htake : min (inner.len - k) 1 = 1 := by omega
    rw [hindex, hdims, List.getLast?_concat, List.dropLast_concat]
    dsimp only
    rw [List.dropLast_concat, List.getLastD_concat, Dim.rows, if_neg Nat.one_ne_zero]
    rw [Dim.element_of_row hk'] at hmod
    simp only [htake, Option.bind_eq_bind]
    cases hper : Dim.per M 1 inner with
    | none => exact .inl rfl
    | some per =>
        have hone : min per 1 = 1 := Nat.min_eq_right (Dim.per_pos Nat.one_pos hper)
        right
        refine ⟨_, Word.wrappingAdd_lt, hmod, ?_⟩
        have hrow : Dim.rowStretches inner (Dim.element g.base outer (coords (Dim.lens outer) r)) k per
            1 0 1 = [⟨Word.wrappingAdd 64 (Dim.element g.base outer (coords (Dim.lens outer) r))
              (inner.term k), inner.step, 1⟩] := by
          simp only [Dim.rowStretches, if_pos Nat.one_pos, Nat.sub_zero, hone,
            Word.wrappingAdd_of_lt (by omega : k + 0 < Word.size 64), Nat.add_zero]
        simp only [Option.bind_some, Dim.rows, Option.map_some, List.append_nil]
        refine congrArg some ?_
        change Stretch.holdAll none (Dim.rowStretches inner
          (Dim.element g.base outer (coords (Dim.lens outer) r)) k per 1 0 1) = _
        rw [hrow]
        rfl

end Gathered

end Aex
