import Aex.Core.Selection.Accept
import Aex.Core.Selection.Run
import Aex.Core.Selection.Stretches

/-!
# The elements a layout selects

Every element that is selected is one of the array's, and a walk visits them in
the order of the result.
-/

namespace Aex

open Grid (sums)

/-! ## Elements of the array -/

section Within

variable {e len : Nat} {dims : List Nat} {entries : List Entry} {members : List (List Nat)}
  {parts : List Numpy.Part} {shape : List Nat} {indices : List Index} {r : ResolvedSelection}
  {s : Numpy.Selected}

/-- Walked in step, members name cells of their grid. -/
theorem mem_sums_members (hlen : ∀ terms ∈ members, terms.length = 1 ∨ terms.length = len)
    (h : e ∈ groupTerms members len) : e ∈ sums members := by
  obtain ⟨k, hk, rfl⟩ := List.mem_map.mp h
  rw [List.mem_range] at hk
  clear h
  induction members with
  | nil => simp
  | cons terms members ih =>
      rw [List.forall_mem_cons] at hlen
      have hat : (if terms.length = 1 then 0 else k) < terms.length := by
        split <;> omega
      rw [List.map_cons, List.sum_cons, List.getD_eq_getElem?_getD, List.getElem?_eq_getElem hat,
        Option.getD_some]
      exact Grid.mem_sums_cons.mpr ⟨_, List.getElem_mem hat, _, ih hlen.2, rfl⟩

/-- The parts are those with a dimension of their own and the members. -/
theorem own_append_members : (parts.filterMap Numpy.Part.own? ++
    parts.filterMap Numpy.Part.member?).Perm (parts.map Numpy.Part.terms) := by
  induction parts with
  | nil => exact .nil
  | cons part parts ih =>
      cases part with
      | free terms => exact ih.cons terms
      | fixed term => exact ih.cons [term]
      | member terms => exact List.perm_middle.trans (ih.cons terms)

/-- Every cell of the grid of parts is an element of the array. -/
theorem sums_parts_lt (hfit : Entry.Fit entries dims)
    (h : e ∈ sums ((Entry.parts entries dims).map Numpy.Part.terms)) : e < dims.prod := by
  induction entries generalizing dims e with
  | nil =>
      cases dims with
      | nil =>
          obtain rfl := List.mem_singleton.mp h
          exact Nat.one_pos
      | cons n dims => exact hfit.elim
  | cons entry entries ih =>
      cases entry with
      | new =>
          obtain ⟨t, ht, e', he', rfl⟩ := Grid.mem_sums_cons.mp h
          obtain rfl := List.mem_singleton.mp ht
          rw [Nat.zero_add]
          exact ih hfit he'
      | axis sel flag =>
          cases dims with
          | nil => exact hfit.elim
          | cons n dims =>
              obtain ⟨hfits, hsorted, hfit⟩ := hfit
              obtain ⟨t, ht, e', he', rfl⟩ := Grid.mem_sums_cons.mp h
              have hrest := ih hfit he'
              have hterm : ∃ p ∈ sel.indices, p * dims.prod = t := by
                cases sel with
                | point index =>
                    cases flag <;> exact ⟨index, List.mem_singleton_self _, (List.mem_singleton.mp ht).symm⟩
                | range start len step => exact List.mem_map.mp ht
                | fancy list => exact List.mem_map.mp ht
              obtain ⟨p, hp, rfl⟩ := hterm
              have hlt := Nat.mul_le_mul_right dims.prod (hfits.lt p hp)
              rw [Nat.succ_mul] at hlt
              rw [List.prod_cons]
              omega

/-- Every element that is selected is one of the array's. -/
theorem Resolves.elements_lt (h : Resolves shape indices r entries)
    (hs : Numpy.select shape indices = some s) (front : Bool) (he : e ∈ s.elements front) :
    e < shape.prod := by
  apply sums_parts_lt h.fit
  rw [h.select_eq] at hs
  cases hs
  rw [← Grid.mem_sums_of_perm own_append_members, members_eq h.fit, ← Entry.memberTerms,
    ← Gathered.owned, Gathered.owned_split]
  unfold Numpy.Selected.elements Numpy.Selected.dims at he
  cases hadvanced : r.advanced with
  | none =>
      have hnone : Entry.memberTerms entries shape = [] := by
        rw [Entry.memberTerms, (members_eq_nil h.fit).mpr (h.plain hadvanced), List.map_nil]
      rw [hadvanced] at he
      rw [hnone, List.append_nil]
      exact he
  | some group =>
      rw [hadvanced] at he
      have hperm : ∀ terms : List Nat, (if front = true then
          terms :: (Entry.before entries shape ++ Entry.after entries shape)
          else Entry.before entries shape ++ terms :: Entry.after entries shape).Perm
            ([terms] ++ (Entry.before entries shape ++ Entry.after entries shape)) := by
        intro terms
        split
        · exact .refl _
        · exact List.perm_middle
      have hgroup := (Grid.mem_sums_of_perm (hperm _)).mp he
      obtain ⟨a, ha, b, hb, rfl⟩ := Grid.mem_sums_append.mp hgroup
      rw [Grid.sums_singleton] at ha
      have ha' := mem_sums_members (h.members_length hadvanced) ha
      exact Grid.mem_sums_append.mpr ⟨b, hb, a, ha', Nat.add_comm b a⟩

end Within

/-! ## The order of the elements -/

section Order

variable {shape : List Nat} {indices : List Index} {r : ResolvedSelection} {s : Numpy.Selected}

/-- Without a group its place makes no difference. -/
theorem Numpy.Selected.dims_of_none (h : s.group = none) (front front' : Bool) :
    s.dims front = s.dims front' := by
  rw [Numpy.Selected.dims, Numpy.Selected.dims, h]

/-- The code puts the group in front where its members lie apart. -/
theorem resolve_front (h : resolve shape indices = .ok r) (hsome : r.advanced.isSome = true) :
    Gathered.front r = Numpy.lieApart (Numpy.standing shape indices) := by
  obtain ⟨entries, hentries, hr⟩ := resolve_entries h
  obtain ⟨ess, hess, rfl⟩ := expand_expands hentries
  have hflags := hr.advanced_isSome
  rw [hsome] at hflags
  cases harrays : indices.any Index.isFancy with
  | false =>
      rw [harrays] at hess
      rw [plain_flags hess] at hflags
      cases hflags
  | true =>
      rw [harrays] at hess
      obtain ⟨group, hgroup⟩ := Option.isSome_iff_exists.mp hsome
      obtain ⟨-, -, -, hadjacent⟩ := hr.group group hgroup
      rw [flags_eq hess, together_memberFlags] at hadjacent
      rw [Gathered.front, hgroup, Option.any_some, hadjacent, Bool.not_not]

/-- A selection that resolves, with its elements as the code orders them. -/
theorem resolve_selected (h : resolve shape indices = .ok r) :
    ∃ s, Numpy.select shape indices = some s ∧
      Numpy.selected shape indices = some (sums (s.dims (Gathered.front r))) ∧
      (sums (s.dims (Gathered.front r))).length = r.outShape.prod := by
  obtain ⟨entries, hr⟩ := resolve_ok h
  have hs := hr.select_eq
  refine ⟨_, hs, ?_, ?_⟩
  · rw [Numpy.selected, hs, Option.map_some, Numpy.Selected.elements]
    congr 2
    cases hadvanced : r.advanced with
    | none => exact Numpy.Selected.dims_of_none rfl _ _
    | some group => rw [resolve_front h (by rw [hadvanced]; rfl)]
  · rw [Grid.length_sums]
    exact (hr.outShape_prod hs _).symm

end Order

/-! ## A walk over the elements -/

/-- A slice goes on from each position to another. -/
def AxisSel.Moves : AxisSel → Prop
  | .range _ _ step => step ≠ 0
  | .point _ | .fancy _ => True

section Walk

variable {shape dims : List Nat} {indices : List Index} {r : ResolvedSelection} {sel : AxisSel}
  {s : Numpy.Selected} {g : Gathered} {p : Gathered.Partial} {stride : Nat}

theorem resolveAxis_moves {index : Index} {n axis : Nat} (h : resolveAxis index n axis = .ok sel) :
    sel.Moves := by
  unfold resolveAxis at h
  split at h
  · cases h
  rename_i dim hdim
  cases index with
  | single i =>
      obtain ⟨p, -, rfl⟩ := Fallible.map_eq_ok.mp h
      trivial
  | fancy list =>
      obtain ⟨ps, -, rfl⟩ := Fallible.map_eq_ok.mp h
      trivial
  | slice start stop step =>
      unfold Word.checkedToSigned at hdim
      split at hdim
      · rename_i hmax
        cases hdim
        change resolveSlice start stop step n = .ok sel at h
        by_cases hstep : (step.map Int64.toInt).getD 1 = 0
        · simp [resolveSlice, hstep] at h
        · rw [resolveSlice_eq hmax rfl hstep] at h
          rw [← Except.ok.inj h]
          split
          · exact hstep
          · exact hstep
      · cases hdim
  | ellipsis | newAxis => cases h

theorem resolve_moves (h : resolve shape indices = .ok r) : ∀ sel ∈ r.axes, sel.Moves := by
  obtain ⟨entries, hentries, hr⟩ := resolve_entries h
  obtain ⟨ess, hess, rfl⟩ := expand_expands hentries
  rw [hr.axes]
  clear hentries h hr
  generalize Numpy.standing shape indices = items at hess
  induction hess with
  | nil => simp [Entry.axes]
  | cons hes _ ih =>
      rw [List.flatten_cons, Entry.axes, List.filterMap_append, List.map_append,
        List.forall_mem_append]
      refine ⟨?_, ih⟩
      cases hes with
      | newAxis => simp [Entry.axis?]
      | ellipsis => simp [Entry.axis?, AxisSel.Moves, AxisSel.whole]
      | axis hindex hsel => simpa [Entry.axis?] using resolveAxis_moves hsel

theorem strides_pos (h : 0 < dims.prod) : ∀ stride ∈ strides dims, 0 < stride := by
  induction dims with
  | nil => simp [strides]
  | cons n dims ih =>
      rw [List.prod_cons] at h
      have hrest : 0 < dims.prod := Nat.pos_of_mul_pos_left h
      exact List.forall_mem_cons.mpr ⟨hrest, ih hrest⟩

/-- A dimension that is visited moves. -/
theorem Gathered.visit_moves {p' : Partial} {group : Option Advanced} {axis : Nat} (hsel : sel.Moves)
    (hstride : 0 < stride) (hp : ∀ d ∈ p.dims, d.step ≠ 0)
    (h : visit shape group p ((sel, stride), axis) = .ok p') : ∀ d ∈ p'.dims, d.step ≠ 0 := by
  simp only [visit] at h
  split at h
  · cases h
    exact hp
  cases sel with
  | point index =>
      cases h
      exact hp
  | fancy list =>
      cases h
      exact hp
  | range start len step =>
      dsimp only at h
      split at h
      · split at h
        · cases h
        rename_i step' hstep
        cases h
        obtain ⟨signed, hsigned, hmul⟩ := Option.bind_eq_some_iff.mp hstep
        have hsigned' : signed = stride := by
          unfold Word.checkedToSigned at hsigned
          split at hsigned
          · exact (Option.some.inj hsigned).symm
          · cases hsigned
        have hstep' : signed * step = step' := by
          unfold Word.checkedMulSigned at hmul
          split at hmul
          · exact Option.some.inj hmul
          · cases hmul
        intro d hd
        rcases List.mem_append.mp hd with hd | hd
        · exact hp d hd
        · rw [List.mem_singleton.mp hd, Dim.step, ← hstep', hsigned']
          exact Int.mul_ne_zero (by omega) hsel
      · cases h
        exact hp

/-- Every dimension of a walk moves. -/
theorem Gathered.new_moves (haxes : ∀ sel ∈ r.axes, sel.Moves) (hpos : 0 < shape.prod)
    (hnew : Gathered.new shape r = .ok g) : ∀ d ∈ g.dims, d.step ≠ 0 := by
  unfold Gathered.new at hnew
  split at hnew
  · cases hnew
  rename_i strides_ hstrides
  obtain rfl := stridesOf_eq hstrides
  obtain ⟨p, hp, hnew⟩ := Fallible.bind_eq_ok.mp hnew
  have hdims : ∀ d ∈ p.dims, d.step ≠ 0 := by
    refine Fallible.foldlM_invariant (P := fun p : Partial => ∀ d ∈ p.dims, d.step ≠ 0) ?_
      (by simp) hp
    intro visited hvisited p p' hdims hvisit
    obtain ⟨⟨sel, stride⟩, axis⟩ := visited
    have hmem := List.of_mem_zip (List.fst_mem_of_mem_zipIdx hvisited)
    exact visit_moves (haxes sel hmem.1) (strides_pos hpos stride hmem.2) hdims hvisit
  cases hadvanced : r.advanced with
  | none =>
      rw [hadvanced] at hnew
      cases hnew
      exact hdims
  | some group =>
      rw [hadvanced] at hnew
      dsimp only at hnew
      split at hnew
      · cases hnew
        intro d hd
        rcases List.eq_or_mem_of_mem_insertIdx hd with rfl | hd
        · exact Int.one_ne_zero
        · exact hdims d hd
      · cases hnew
        exact hdims

/-- A walk lists the elements that were selected, where words can hold them. -/
theorem Gathered.new_lists (h : resolve shape indices = .ok r)
    (hs : Numpy.select shape indices = some s) (hne : sums (s.dims (front r)) ≠ [])
    (hfits : ∀ e ∈ sums (s.dims (front r)), e < Word.size 64)
    (hnew : Gathered.new shape r = .ok g) : g.Lists (sums (s.dims (front r))) := by
  obtain ⟨entries, hr⟩ := resolve_ok h
  obtain ⟨first, hfirst⟩ := List.exists_mem_of_ne_nil _ hne
  have hpos : 0 < shape.prod := Nat.zero_lt_of_lt (hr.elements_lt hs (front r) hfirst)
  obtain ⟨hbase, c, hmod, hrep⟩ := new_ok hr hs (mt Grid.sums_eq_nil.mpr hne) hnew
  have hmoves := new_moves (resolve_moves h) hpos hnew
  rcases List.eq_nil_or_concat g.dims with hdims | ⟨outer, inner, hdims⟩
  · rw [hdims] at hrep
    left
    refine ⟨hdims, ?_⟩
    obtain ⟨added, hadds, heq⟩ := hrep
    obtain rfl := List.forall₂_nil_left_iff.mp hadds
    rw [Grid.sums_nil, List.map_singleton, Int.add_zero] at heq
    obtain ⟨e, he, hcast⟩ := List.map_eq_singleton_iff.mp heq.symm
    have hlt := hfits e (by rw [he]; exact List.mem_singleton_self e)
    have hsame : (g.base : Int) ≡ e [ZMOD Word.size 64] := by rwa [hcast]
    have hnat : _ % _ = _ % _ := Int.natCast_modEq_iff.mp hsame
    rw [Nat.mod_eq_of_lt hbase, Nat.mod_eq_of_lt hlt] at hnat
    rw [he, hnat]
  · right
    rw [List.concat_eq_append] at hdims
    rw [hdims] at hrep hmoves
    refine ⟨outer, inner, hdims, Dim.visits_of_represents hmod hrep hfits, ?_, hmoves _ (by simp)⟩
    obtain ⟨added, hadds, -⟩ := hrep
    obtain ⟨front, terms, -, -, hterms⟩ := Dim.forall₂_concat hadds
    exact hterms.one_lt.1

end Walk

/-! ## One run of elements -/

section OneRun

variable {shape dims : List Nat} {indices : List Index} {r : ResolvedSelection} {s : Numpy.Selected}
  {entries : List Entry} {runs : List (Nat × Nat)} {sel : AxisSel} {run : Nat × Nat} {offset len : Nat}

theorem asRun_eq_zero (h : sel.asRun = some run) : run.2 = 0 ↔ sel.indices = [] := by
  rw [← List.length_eq_zero_iff, AxisSel.length_indices]
  cases sel with
  | point index =>
      cases h
      rfl
  | range start len step =>
      simp only [AxisSel.asRun] at h
      split at h
      · rename_i hzero
        cases h
        exact iff_of_true rfl hzero
      · split at h
        · rename_i hone
          cases h
          rw [AxisSel.len, hone]
        · split at h
          · cases h
            rfl
          · cases h
  | fancy list =>
      cases list with
      | nil =>
          cases h
          rfl
      | cons first rest =>
          simp only [AxisSel.asRun] at h
          split at h
          · cases h
            rfl
          · cases h

/-- The grid of the parts, when every axis takes one run. -/
theorem sums_parts_runs (hfit : Entry.Fit entries dims)
    (hruns : ((Entry.axes entries).map Prod.fst).mapM AxisSel.asRun = some runs)
    (hpos : ∀ run ∈ runs, run.2 ≠ 0) :
    sums ((Entry.parts entries dims).map Numpy.Part.terms) = sums (Runs.terms (runs.zip dims)) ∧
      (runs.zip dims).map Prod.snd = dims := by
  induction entries generalizing dims runs with
  | nil =>
      cases dims with
      | nil => simp [Entry.parts, Runs.terms]
      | cons n dims => exact hfit.elim
  | cons entry entries ih =>
      cases entry with
      | new =>
          obtain ⟨hsums, hdims⟩ := ih hfit hruns hpos
          refine ⟨?_, hdims⟩
          rw [Entry.parts, List.map_cons, Numpy.Part.terms, Grid.sums_cons, hsums]
          simp
      | axis sel flag =>
          cases dims with
          | nil => exact hfit.elim
          | cons n dims =>
              obtain ⟨-, -, hfit⟩ := hfit
              rw [Fallible.mapM_eq_some] at hruns
              obtain ⟨run, more, hrun, hmore, rfl⟩ := List.forall₂_cons_left_iff.mp hruns
              rw [List.forall_mem_cons] at hpos
              obtain ⟨hsums, hdims⟩ := ih hfit (Fallible.mapM_eq_some.mpr hmore) hpos.2
              have hindices := indices_of_asRun hrun (mt (asRun_eq_zero hrun).mpr hpos.1)
              have hterms : (Entry.part dims.prod sel flag).terms = sel.indices.map (· * dims.prod) := by
                cases sel with
                | point index => cases flag <;> rfl
                | range start len step => rfl
                | fancy list => rfl
              refine ⟨?_, ?_⟩
              · rw [Entry.parts, List.map_cons, hterms, Grid.sums_cons, hsums, hindices,
                  List.zip_cons_cons, Runs.terms, Grid.sums_cons, hdims]
              · rw [List.zip_cons_cons, List.map_cons, hdims]

/-- Nothing is selected when some axis takes nothing. -/
theorem Resolves.elements_eq_nil (h : Resolves shape indices r entries)
    (hs : Numpy.select shape indices = some s) (front : Bool) :
    sums (s.dims front) = [] ↔ [] ∈ (Entry.parts entries shape).map Numpy.Part.terms := by
  rw [Grid.sums_eq_nil, ← own_append_members.mem_iff, members_eq h.fit, ← Entry.memberTerms,
    ← Gathered.owned, Gathered.owned_split, List.mem_append]
  rw [h.select_eq] at hs
  cases hs
  unfold Numpy.Selected.dims
  cases hadvanced : r.advanced with
  | none =>
      have hnone : Entry.memberTerms entries shape = [] := by
        rw [Entry.memberTerms, (members_eq_nil h.fit).mpr (h.plain hadvanced), List.map_nil]
      simp [hnone]
  | some group =>
      have hgroup : groupTerms (Entry.memberTerms entries shape) group.len = [] ↔
          [] ∈ Entry.memberTerms entries shape := by
        have hzero : groupTerms (Entry.memberTerms entries shape) group.len = [] ↔ group.len = 0 := by
          simp [groupTerms]
        rw [hzero]
        constructor
        · intro hlen
          have hfind := h.group_len hadvanced
          rw [hlen] at hfind
          cases hlong : ((Entry.memberTerms entries shape).map List.length).find? (· ≠ 1) with
          | none =>
              rw [hlong] at hfind
              cases hfind
          | some n =>
              rw [hlong] at hfind
              obtain rfl : 0 = n := hfind
              obtain ⟨terms, hterms, hnil⟩ := List.mem_map.mp (List.mem_of_find?_eq_some hlong)
              rwa [← List.length_eq_zero_iff.mp hnil]
        · intro hnil
          exact ((h.members_length hadvanced [] hnil).resolve_left Nat.zero_ne_one).symm
      rw [← hgroup, eq_comm (b := [])]
      cases front with
      | true =>
          rw [Option.map_some]
          dsimp only
          rw [if_pos rfl, List.mem_cons, or_comm]
      | false =>
          rw [Option.map_some]
          dsimp only
          rw [if_neg Bool.false_ne_true, List.mem_append, List.mem_append, List.mem_cons]
          exact or_left_comm.trans or_comm

theorem nil_mem_parts (hfit : Entry.Fit entries dims) :
    [] ∈ (Entry.parts entries dims).map Numpy.Part.terms ↔
      ∃ sel ∈ (Entry.axes entries).map Prod.fst, sel.indices = [] := by
  induction entries generalizing dims with
  | nil => simp [Entry.parts, Entry.axes]
  | cons entry entries ih =>
      cases entry with
      | new =>
          rw [Entry.parts, List.map_cons, List.mem_cons, ih hfit]
          exact or_iff_right (List.cons_ne_nil 0 []).symm
      | axis sel flag =>
          cases dims with
          | nil => exact hfit.elim
          | cons n dims =>
              have hrest := ih hfit.2.2
              have hterms : (Entry.part dims.prod sel flag).terms = [] ↔ sel.indices = [] := by
                cases sel with
                | point index => cases flag <;> simp [Entry.part, Numpy.Part.terms, AxisSel.indices]
                | range start len step => exact List.map_eq_nil_iff
                | fancy list => exact List.map_eq_nil_iff
              rw [Entry.parts, List.map_cons, List.mem_cons, hrest, eq_comm (a := []), hterms]
              simp [Entry.axes, Entry.axis?]

/-- A selection of one run takes consecutive elements, and the offset is the first
one's as far as its words reach. -/
theorem contiguousRun_ok (h : resolve shape indices = .ok r)
    (hs : Numpy.select shape indices = some s) (hwalk : walksIndependently r = true)
    (hrun : contiguousRun shape r.axes = some (offset, len)) :
    ∃ o, sums (s.dims (Gathered.front r)) =
        List.range' o (sums (s.dims (Gathered.front r))).length ∧ offset = o % Word.size 128 ∧
      (sums (s.dims (Gathered.front r)) = [] → o = 0) := by
  obtain ⟨entries, hr⟩ := resolve_ok h
  unfold contiguousRun at hrun
  obtain ⟨runs, hruns, hrun⟩ := Option.bind_eq_some_iff.mp hrun
  rw [hr.axes] at hruns
  have hnil := (hr.elements_eq_nil hs (Gathered.front r)).trans (nil_mem_parts hr.fit)
  have hall := Fallible.mapM_eq_some.mp hruns
  split at hrun
  · rename_i hzero
    cases hrun
    obtain ⟨run, hmem, hempty⟩ := List.any_eq_true.mp hzero
    obtain ⟨i, hi, rfl⟩ := List.getElem_of_mem hmem
    have hi' : i < ((Entry.axes entries).map Prod.fst).length := hall.length_eq ▸ hi
    have hsel := (asRun_eq_zero (hall.get hi' hi)).mp (of_decide_eq_true hempty)
    rw [hnil.mpr ⟨_, List.getElem_mem hi', hsel⟩]
    exact ⟨0, rfl, rfl, fun _ => rfl⟩
  · rename_i hzero
    have hpos : ∀ run ∈ runs, run.2 ≠ 0 := by
      intro run hmem hempty
      exact hzero (List.any_eq_true.mpr ⟨run, hmem, decide_eq_true hempty⟩)
    have hne : sums (s.dims (Gathered.front r)) ≠ [] := by
      intro hempty
      obtain ⟨sel, hmem, hsel⟩ := hnil.mp hempty
      obtain ⟨i, hi, rfl⟩ := List.getElem_of_mem hmem
      have hi' : i < runs.length := hall.length_eq ▸ hi
      exact hpos _ (List.getElem_mem hi') ((asRun_eq_zero (hall.get hi hi')).mpr hsel)
    dsimp only at hrun
    split at hrun
    · cases hrun
    rename_i hwhole
    obtain ⟨hsums, hdims⟩ := sums_parts_runs hr.fit hruns hpos
    have hterms := @Runs.sums_terms (runs.zip shape)
      (fun x hx => Nat.pos_of_ne_zero (hpos _ (List.of_mem_zip hx).1)) (by
        intro x hx
        have hkept := fun hbad => hwhole (List.any_eq_true.mpr ⟨x, hx, hbad⟩)
        simpa using hkept)
    have hels : sums (s.dims (Gathered.front r)) =
        List.range' (Runs.offset (runs.zip shape)) ((runs.zip shape).map fun x => x.1.2).prod := by
      rw [sums_independent hr hs (mt Grid.sums_eq_nil.mpr hne) hwalk, hsums, hterms]
    refine ⟨Runs.offset (runs.zip shape), by rw [hels, List.length_range'], ?_,
      fun hempty => absurd hempty hne⟩
    split at hrun
    · cases hrun
      have := @Runs.foldl_offset (runs.zip shape) 0 (by decide)
      rwa [Nat.zero_mul, Nat.zero_add] at this
    · cases hrun

end OneRun

end Aex
