import Mathlib.Tactic.Ring
import Aex.Lib.Fallible
import Aex.Core.Selection.Axes

/-!
# A resolved selection is what numpy selects

Each entry is one of numpy's parts: the expansion of the ellipsis, the group and
the lengths agree with numpy's on every selection that resolves.
-/

namespace Aex

namespace Entry

/-- What an entry contributes along an axis with a stride. -/
def part (stride : Nat) : AxisSel → Bool → Numpy.Part
  | .point index, false => .fixed (index * stride)
  | .point index, true => .member [index * stride]
  | .range start len step, _ => .free ((AxisSel.range start len step).indices.map (· * stride))
  | .fancy list, _ => .member (list.map (· * stride))

/-- The parts of entries against the axes left. -/
def parts : List Entry → List Nat → List Numpy.Part
  | .new :: entries, dims => .free [0] :: parts entries dims
  | .axis sel advanced :: entries, _ :: dims => part dims.prod sel advanced :: parts entries dims
  | _, _ => []

/-- Index arrays are in the group and slices are not. -/
def Sorted : AxisSel → Bool → Prop
  | .point _, _ => True
  | .range _ _ _, advanced => advanced = false
  | .fancy _, advanced => advanced = true

/-- The entries name positions of the axes, one axis each. -/
def Fit : List Entry → List Nat → Prop
  | [], [] => True
  | .new :: entries, dims => Fit entries dims
  | .axis sel advanced :: entries, n :: dims => sel.Fits n ∧ Sorted sel advanced ∧ Fit entries dims
  | _, _ => False

end Entry

/-! ## Expanding the selection -/

section Expand

variable {arrays : Bool} {implied axis : Nat} {indices : List Index} {dims : List Nat}
  {entries : List Entry}

/-- Whole axes, as the ellipsis stands for them. -/
theorem parts_whole (himplied : implied ≤ dims.length) :
    Entry.parts ((dims.take implied).map (fun dim => Entry.axis (.whole dim) false) ++ entries) dims =
      Numpy.wholes implied dims ++ Entry.parts entries (dims.drop implied) := by
  induction implied generalizing dims with
  | zero => simp [Numpy.wholes]
  | succ implied ih =>
      cases dims with
      | nil => simp at himplied
      | cons n dims =>
          simp only [List.take_succ_cons, List.map_cons, List.cons_append, List.drop_succ_cons,
            Entry.parts, Numpy.wholes]
          rw [ih (by simpa using himplied)]
          congr 1
          exact congrArg (fun ps => Numpy.Part.free (ps.map (· * dims.prod))) AxisSel.indices_whole

theorem fit_whole (himplied : implied ≤ dims.length) (h : Entry.Fit entries (dims.drop implied)) :
    Entry.Fit ((dims.take implied).map (fun dim => Entry.axis (.whole dim) false) ++ entries)
      dims := by
  induction implied generalizing dims with
  | zero => simpa using h
  | succ implied ih =>
      cases dims with
      | nil => simp at himplied
      | cons n dims =>
          exact ⟨AxisSel.whole_fits, rfl, ih (by simpa using himplied) (by simpa using h)⟩

/-- The axes left out at the end are those of an ellipsis there. -/
theorem expandFrom_append (h : .ellipsis ∉ indices) :
    expandFrom implied false arrays indices dims axis =
      expandFrom implied true arrays (indices ++ [.ellipsis]) dims axis := by
  induction indices generalizing dims axis with
  | nil => simp [expandFrom, bind, Except.bind]
  | cons index indices ih =>
      have hrest : .ellipsis ∉ indices := fun hmem => h (List.mem_cons_of_mem _ hmem)
      cases index with
      | ellipsis => exact absurd List.mem_cons_self h
      | newAxis | single _ | slice _ _ _ | fancy _ =>
          simp only [List.cons_append, expandFrom, ih hrest]

/-- One index that consumes an axis. -/
theorem resolveAxis_ok {index : Index} {n : Nat} {sel : AxisSel}
    (h : resolveAxis index n axis = .ok sel) :
    sel.Fits n ∧
      match index with
      | .single i => ∃ p, Numpy.position n i = some p ∧ sel = .point p
      | .fancy list => ∃ ps, list.mapM (Numpy.position n) = some ps ∧ sel = .fancy ps
      | .slice start stop step => ∃ first len s, sel = .range first len s ∧
          Numpy.positions n start stop step = some sel.indices
      | _ => False := by
  unfold resolveAxis at h
  split at h
  · cases h
  rename_i dim hdim
  unfold Word.checkedToSigned at hdim
  split at hdim
  · rename_i hmax
    cases hdim
    cases index with
    | single i =>
        obtain ⟨p, hp, rfl⟩ := Fallible.map_eq_ok.mp h
        obtain ⟨hposition, hlt⟩ := normalizeIndex_ok hmax hp
        exact ⟨hlt, p, hposition, rfl⟩
    | fancy list =>
        obtain ⟨ps, hps, rfl⟩ := Fallible.map_eq_ok.mp h
        obtain ⟨hpositions, hlt⟩ := normalizeIndices_ok hmax hps
        exact ⟨hlt, ps, hpositions, rfl⟩
    | slice start stop step =>
        obtain ⟨hpositions, hfits, first, len, s, rfl⟩ := resolveSlice_ok hmax h
        exact ⟨hfits, first, len, s, rfl, hpositions⟩
    | ellipsis | newAxis => cases h
  · cases hdim

/-- An index that consumes an axis takes the first of those left. -/
theorem consumed_cons {index : Index} (h : index.consumesAxis = true)
    (hlen : (index :: indices).countP Index.consumesAxis +
      implied * (index :: indices).count .ellipsis = dims.length) :
    ∃ n rest, dims = n :: rest ∧
      indices.countP Index.consumesAxis + implied * indices.count .ellipsis = rest.length := by
  have hne : index ≠ .ellipsis := by
    rintro rfl
    cases h
  rw [List.countP_cons_of_pos h, List.count_cons_of_ne hne] at hlen
  cases dims with
  | nil =>
      rw [List.length_nil] at hlen
      omega
  | cons n rest =>
      rw [List.length_cons] at hlen
      exact ⟨n, rest, rfl, by omega⟩

/-- The entries are numpy's parts. -/
theorem expandFrom_ok (hfancy : arrays = false → ∀ list, .fancy list ∉ indices)
    (hlen : indices.countP Index.consumesAxis + implied * indices.count .ellipsis = dims.length)
    (h : expandFrom implied true arrays indices dims axis = .ok entries) :
    Numpy.parts arrays implied indices dims = some (Entry.parts entries dims) ∧
      Entry.Fit entries dims := by
  induction indices generalizing dims axis entries with
  | nil =>
      obtain rfl : dims = [] := List.length_eq_zero_iff.mp (by simpa using hlen.symm)
      cases h
      exact ⟨rfl, trivial⟩
  | cons index indices ih =>
      have hrest : arrays = false → ∀ list, .fancy list ∉ indices :=
        fun hno list hmem => hfancy hno list (List.mem_cons_of_mem _ hmem)
      cases index with
      | newAxis =>
          obtain ⟨more, hmore, heq⟩ := Fallible.bind_eq_ok.mp h
          cases heq
          obtain ⟨hparts, hfit⟩ := ih hrest (by simpa [Index.consumesAxis] using hlen) hmore
          exact ⟨by simp [Numpy.parts, Entry.parts, hparts], hfit⟩
      | ellipsis =>
          obtain ⟨more, hmore, heq⟩ := Fallible.bind_eq_ok.mp h
          cases heq
          simp only [List.countP_cons, Index.consumesAxis, List.count_cons_self, Nat.mul_succ,
            Bool.false_eq_true, if_false, Nat.add_zero] at hlen
          have himplied : implied ≤ dims.length := by omega
          obtain ⟨hparts, hfit⟩ := ih hrest (by rw [List.length_drop]; omega) hmore
          exact ⟨by rw [parts_whole himplied]; simp [Numpy.parts, hparts], fit_whole himplied hfit⟩
      | single i =>
          obtain ⟨sel, hsel, h⟩ := Fallible.bind_eq_ok.mp h
          obtain ⟨more, hmore, heq⟩ := Fallible.bind_eq_ok.mp h
          cases heq
          obtain ⟨n, rest, rfl, hlen'⟩ := consumed_cons rfl hlen
          obtain ⟨hfits, p, hposition, rfl⟩ := resolveAxis_ok (n := n) hsel
          obtain ⟨hparts, hfit⟩ := ih hrest hlen' hmore
          refine ⟨?_, hfits, trivial, hfit⟩
          cases arrays <;>
            simp [Numpy.parts, Entry.parts, Entry.part, hposition, hparts, Index.joinsGroup]
      | fancy list =>
          obtain ⟨sel, hsel, h⟩ := Fallible.bind_eq_ok.mp h
          obtain ⟨more, hmore, heq⟩ := Fallible.bind_eq_ok.mp h
          cases heq
          obtain ⟨n, rest, rfl, hlen'⟩ := consumed_cons rfl hlen
          obtain ⟨hfits, ps, hpositions, rfl⟩ := resolveAxis_ok (n := n) hsel
          obtain ⟨hparts, hfit⟩ := ih hrest hlen' hmore
          have harrays : arrays = true := by
            cases harrays : arrays with
            | true => rfl
            | false => exact absurd List.mem_cons_self (hfancy harrays list)
          refine ⟨?_, hfits, by simp [Entry.Sorted, harrays, Index.joinsGroup], hfit⟩
          simp [Numpy.parts, Entry.parts, Entry.part, hpositions, hparts]
      | slice start stop step =>
          obtain ⟨sel, hsel, h⟩ := Fallible.bind_eq_ok.mp h
          obtain ⟨more, hmore, heq⟩ := Fallible.bind_eq_ok.mp h
          cases heq
          obtain ⟨n, rest, rfl, hlen'⟩ := consumed_cons rfl hlen
          obtain ⟨hfits, first, len, s, rfl, hpositions⟩ := resolveAxis_ok (n := n) hsel
          obtain ⟨hparts, hfit⟩ := ih hrest hlen' hmore
          refine ⟨?_, hfits, by simp [Entry.Sorted, Index.joinsGroup], hfit⟩
          simp [Numpy.parts, Entry.parts, Entry.part, hpositions, hparts]

/-- The ellipsis, or the one numpy appends, stands for the axes that are left. -/
theorem complete_consumes {shape : List Nat} (hone : indices.count .ellipsis ≤ 1)
    (hconsumes : indices.countP Index.consumesAxis ≤ shape.length) :
    (Numpy.complete indices).countP Index.consumesAxis +
      (shape.length - indices.countP Index.consumesAxis) *
        (Numpy.complete indices).count .ellipsis = shape.length := by
  unfold Numpy.complete
  split
  · rename_i hmem
    have hpos := List.count_pos_iff.mpr hmem
    rw [show indices.count .ellipsis = 1 by omega]
    omega
  · rename_i hmem
    rw [List.countP_append, List.count_append, List.count_eq_zero.mpr hmem]
    simp [Index.consumesAxis]
    omega

theorem expand_eq {shape : List Nat} (hone : indices.count .ellipsis ≤ 1)
    (hconsumes : indices.countP Index.consumesAxis ≤ shape.length) :
    expand shape indices = expandFrom (shape.length - indices.countP Index.consumesAxis) true
      (indices.any Index.isFancy) (Numpy.complete indices) shape 0 := by
  unfold expand Numpy.complete
  dsimp only
  rw [if_neg (by omega), if_neg (by omega)]
  by_cases hmem : .ellipsis ∈ indices
  · rw [List.contains_iff_mem.mpr hmem, if_pos hmem]
  · rw [show indices.contains .ellipsis = false by simpa using hmem, expandFrom_append hmem,
      if_neg hmem]

theorem expand_bounds {shape : List Nat} (h : expand shape indices = .ok entries) :
    indices.countP Index.consumesAxis ≤ shape.length ∧ indices.count .ellipsis ≤ 1 := by
  unfold expand at h
  dsimp only at h
  split at h
  · cases h
  split at h
  · cases h
  · omega

/-- An index array is one before the ellipsis is appended too. -/
theorem fancy_mem_complete {list : List Int64} (h : .fancy list ∈ Numpy.complete indices) :
    indices.any Index.isFancy = true := by
  apply List.any_eq_true.mpr
  refine ⟨.fancy list, ?_, rfl⟩
  unfold Numpy.complete at h
  split at h
  · exact h
  · simpa using h

theorem expand_ok {shape : List Nat} (h : expand shape indices = .ok entries) :
    indices.countP Index.consumesAxis ≤ shape.length ∧ indices.count .ellipsis ≤ 1 ∧
      Numpy.parts (indices.any Index.isFancy) (shape.length - indices.countP Index.consumesAxis)
        (Numpy.complete indices) shape = some (Entry.parts entries shape) ∧
      Entry.Fit entries shape := by
  obtain ⟨hconsumes, hone⟩ := expand_bounds h
  rw [expand_eq hone hconsumes] at h
  refine ⟨hconsumes, hone, ?_⟩
  apply expandFrom_ok _ (complete_consumes hone hconsumes) h
  intro hno list hmem
  rw [fancy_mem_complete hmem] at hno
  cases hno

end Expand

/-! ## Broadcasting the group -/

section Group

variable {lengths : List Nat} {len : Nat} {entries : List Entry} {dims : List Nat}

theorem broadcastStep_ok {message : String} {result : Nat}
    (h : lengths.foldlM (fun result len =>
      if len = 1 then Except.ok result
      else if result ≠ 1 ∧ result ≠ len then .error (AexError.badSelection message)
      else .ok len) result = .ok len) :
    (∀ l ∈ lengths, l = 1 ∨ l = len) ∧
      len = if result = 1 then (lengths.find? (· ≠ 1)).getD 1 else result := by
  induction lengths generalizing result with
  | nil =>
      cases h
      simp
  | cons l lengths ih =>
      rw [List.foldlM_cons] at h
      obtain ⟨next, hnext, h⟩ := Fallible.bind_eq_ok.mp h
      obtain ⟨hall, hlen⟩ := ih h
      split at hnext
      · rename_i hone
        cases hnext
        refine ⟨?_, by simpa [hone] using hlen⟩
        intro k hk
        rcases List.mem_cons.mp hk with rfl | hk
        · exact Or.inl hone
        · exact hall k hk
      · rename_i hone
        split at hnext
        · cases hnext
        rename_i hagree
        cases hnext
        rw [if_neg hone] at hlen
        subst hlen
        refine ⟨?_, ?_⟩
        · intro k hk
          rcases List.mem_cons.mp hk with rfl | hk
          · exact Or.inr rfl
          · exact hall k hk
        · by_cases hresult : result = 1
          · simp [hresult, hone]
          · rw [if_neg hresult]
            omega

theorem broadcastLen_ok (h : broadcastLen lengths = .ok len) :
    (∀ l ∈ lengths, l = 1 ∨ l = len) ∧ len = (lengths.find? (· ≠ 1)).getD 1 := by
  obtain ⟨hall, hlen⟩ := broadcastStep_ok h
  exact ⟨hall, by simpa using hlen⟩

/-- The members of the group are the index arrays and the integers beside them. -/
theorem members_lengths (hfit : Entry.Fit entries dims) :
    (((Entry.parts entries dims).filterMap Numpy.Part.member?).map List.length).find? (· ≠ 1) =
        (entries.filterMap Entry.listLen?).find? (· ≠ 1) ∧
      ∀ terms ∈ (Entry.parts entries dims).filterMap Numpy.Part.member?,
        terms.length = 1 ∨ terms.length ∈ entries.filterMap Entry.listLen? := by
  induction entries generalizing dims with
  | nil => simp [Entry.parts]
  | cons entry entries ih =>
      cases entry with
      | new => simpa [Entry.parts, Numpy.Part.member?, Entry.listLen?] using ih hfit
      | axis sel advanced =>
          cases dims with
          | nil => exact hfit.elim
          | cons n dims =>
              obtain ⟨-, hsorted, hfit⟩ := hfit
              obtain ⟨hfind, hmem⟩ := ih hfit
              cases sel with
              | point index =>
                  cases advanced with
                  | false => exact ⟨hfind, hmem⟩
                  | true =>
                      refine ⟨hfind, ?_⟩
                      intro terms hterms
                      rcases List.mem_cons.mp hterms with rfl | hterms
                      · exact Or.inl rfl
                      · exact hmem terms hterms
              | range start len step =>
                  obtain rfl : advanced = false := hsorted
                  exact ⟨hfind, hmem⟩
              | fancy list =>
                  obtain rfl : advanced = true := hsorted
                  simp only [Entry.parts, Entry.part, Numpy.Part.member?, Entry.listLen?,
                    List.filterMap_cons, List.map_cons, List.find?_cons, List.length_map]
                  refine ⟨by rw [hfind], ?_⟩
                  intro terms hterms
                  rcases List.mem_cons.mp hterms with rfl | hterms
                  · exact Or.inr (by rw [List.length_map]; exact List.mem_cons_self)
                  · exact (hmem terms hterms).imp_right (List.mem_cons_of_mem _)

/-- The group numpy broadcasts is as long as the code makes it. -/
theorem broadcast_ok (hfit : Entry.Fit entries dims)
    (h : broadcastLen (entries.filterMap Entry.listLen?) = .ok len) :
    ∃ group, Numpy.broadcast ((Entry.parts entries dims).filterMap Numpy.Part.member?) = some group ∧
      group.length = len ∧
      group = (List.range len).map fun k =>
        (((Entry.parts entries dims).filterMap Numpy.Part.member?).map fun terms =>
          terms.getD (if terms.length = 1 then 0 else k) 0).sum := by
  obtain ⟨hfind, hmem⟩ := members_lengths hfit
  obtain ⟨hall, hlen⟩ := broadcastLen_ok h
  unfold Numpy.broadcast
  rw [hfind, ← hlen, if_pos]
  · exact ⟨_, rfl, by simp, rfl⟩
  · rw [List.all_eq_true]
    intro terms hterms
    rw [decide_eq_true_eq]
    rcases hmem terms hterms with hone | hin
    · exact Or.inl hone
    · exact hall _ hin

end Group

/-! ## The place of the group -/

section Place

/-- Whether the flags that are set sit next to each other. -/
def together (flags : List Bool) : Bool := !((flags.dropWhile (!·)).dropWhile id).any id

/-- Where the flags that are set are, counting from `n`. -/
def flagged (n : Nat) (flags : List Bool) : List Nat :=
  (flags.zipIdx n).filterMap fun (flag, i) => if flag then some i else none

variable {n p : Nat} {flag : Bool} {flags : List Bool}

@[simp] theorem flagged_nil : flagged n [] = [] := rfl

@[simp] theorem flagged_true : flagged n (true :: flags) = n :: flagged (n + 1) flags := rfl

@[simp] theorem flagged_false : flagged n (false :: flags) = flagged (n + 1) flags := rfl

theorem mem_flagged : p ∈ flagged n flags ↔ n ≤ p ∧ flags[p - n]? = some true := by
  induction flags generalizing n with
  | nil => simp
  | cons flag flags ih =>
      have hshift : n < p → (flag :: flags)[p - n]? = flags[p - (n + 1)]? := by
        intro h
        rw [show p - n = (p - (n + 1)) + 1 by omega, List.getElem?_cons_succ]
      cases flag with
      | false =>
          rw [flagged_false, ih]
          rcases Nat.lt_trichotomy n p with h | rfl | h
          · rw [hshift h]
            simp [h.le, Nat.succ_le_of_lt h]
          · simp
          · simp [Nat.not_le.mpr h, show ¬n + 1 ≤ p by omega]
      | true =>
          rw [flagged_true, List.mem_cons, ih]
          rcases Nat.lt_trichotomy n p with h | rfl | h
          · rw [hshift h]
            simp [h.le, Nat.succ_le_of_lt h, h.ne']
          · simp
          · simp [Nat.not_le.mpr h, show ¬n + 1 ≤ p by omega, h.ne]

theorem flagged_eq_nil : flagged n flags = [] ↔ flags.any id = false := by
  induction flags generalizing n with
  | nil => simp
  | cons flag flags ih => cases flag <;> simp [ih]

theorem chained_flagged (hnext : n = p + 1) :
    ((p :: flagged n flags).zip (flagged n flags)).all (fun (a, b) => b = a + 1) =
      !(flags.dropWhile id).any id := by
  induction flags generalizing n p with
  | nil => rfl
  | cons flag flags ih =>
      cases flag with
      | true =>
          rw [flagged_true, List.zip_cons_cons, List.all_cons, ih rfl]
          simp [hnext]
      | false =>
          rw [flagged_false]
          cases hlater : flagged (n + 1) flags with
          | nil =>
              rw [flagged_eq_nil] at hlater
              simpa using hlater
          | cons q later =>
              have hq : n + 1 ≤ q := (mem_flagged.mp (hlater ▸ List.mem_cons_self)).1
              have hany : flags.any id = true := by
                by_contra hnone
                rw [Bool.not_eq_true, ← flagged_eq_nil (n := n + 1), hlater] at hnone
                cases hnone
              have hgap : ¬q = p + 1 := by omega
              rw [List.zip_cons_cons, List.all_cons]
              simpa [hgap] using hany

/-- Consecutive positions are what sits together. -/
theorem adjacent_eq_together :
    ((flagged n flags).zip (flagged n flags).tail).all (fun (a, b) => b = a + 1) = together flags := by
  induction flags generalizing n with
  | nil => rfl
  | cons flag flags ih =>
      cases flag with
      | true => exact chained_flagged rfl
      | false => exact ih

end Place

/-! ## The shape of the result -/

section Shape

/-- The lengths an entry outside the group adds to the shape. -/
def Entry.ownShape : Entry → List Nat
  | .new => [1]
  | .axis _ true => []
  | .axis sel false => sel.outLen.toList

variable {entries : List Entry} {group : Advanced} {first : Option Nat} {n : Nat}

/-- What one entry adds to the shape of the result. -/
def shapeAt (advanced : Option Advanced) (first : Option Nat) (entry : Entry) (position : Nat) :
    List Nat :=
  match entry with
  | .new => [1]
  | .axis _ true =>
      match advanced with
      | some group => if group.adjacent ∧ some position = first then [group.len] else []
      | none => []
  | .axis sel false => sel.outLen.toList

theorem outShape_eq {advanced : Option Advanced} : outShape entries advanced first =
    (match advanced with
      | some group => if group.adjacent then [] else [group.len]
      | none => []) ++
      entries.zipIdx.flatMap fun (entry, position) => shapeAt advanced first entry position := rfl

/-- Past the group's place, and wherever it has none, only the others count. -/
theorem flatMap_shapeAt {advanced : Option Advanced}
    (h : ∀ group ∈ advanced, group.adjacent = true →
      ∀ p, some p = first → p < n ∨ ∀ entry ∈ entries, entry.isAdvanced = false) :
    ((entries.zipIdx n).flatMap fun (entry, position) => shapeAt advanced first entry position) =
      entries.flatMap Entry.ownShape := by
  induction entries generalizing n with
  | nil => rfl
  | cons entry entries ih =>
      rw [List.zipIdx_cons, List.flatMap_cons, List.flatMap_cons, ih]
      · congr 1
        cases entry with
        | new => rfl
        | axis sel flag =>
            cases flag with
            | false => rfl
            | true =>
                cases advanced with
                | none => rfl
                | some group =>
                    refine if_neg ?_
                    rintro ⟨hadjacent, hfirst⟩
                    rcases h group rfl hadjacent n hfirst with hlt | hnone
                    · exact absurd hlt (Nat.lt_irrefl n)
                    · cases hnone _ List.mem_cons_self
      · intro group hgroup hadjacent p hp
        rcases h group hgroup hadjacent p hp with hlt | hnone
        · exact Or.inl (Nat.lt_succ_of_lt hlt)
        · exact Or.inr fun entry hmem => hnone entry (List.mem_cons_of_mem _ hmem)

theorem outShape_none : outShape entries none first = entries.flatMap Entry.ownShape := by
  rw [outShape_eq, flatMap_shapeAt (by simp)]
  rfl

theorem outShape_front (h : group.adjacent = false) :
    outShape entries (some group) first = group.len :: entries.flatMap Entry.ownShape := by
  rw [outShape_eq, flatMap_shapeAt]
  · simp [h]
  · rintro _ ⟨rfl⟩ hadjacent
    rw [h] at hadjacent
    cases hadjacent

theorem outShape_place {before after : List Entry} {sel : AxisSel} (h : group.adjacent = true)
    (hbefore : ∀ entry ∈ before, entry.isAdvanced = false) :
    outShape (before ++ .axis sel true :: after) (some group) (some before.length) =
      before.flatMap Entry.ownShape ++ group.len :: after.flatMap Entry.ownShape := by
  rw [outShape_eq, List.zipIdx_append, List.zipIdx_cons, List.flatMap_append, List.flatMap_cons,
    flatMap_shapeAt, flatMap_shapeAt]
  · simp [shapeAt, h]
  · rintro _ _ _ p ⟨rfl⟩
    exact Or.inl (by omega)
  · rintro _ _ _ p _
    exact Or.inr hbefore

end Shape

/-! ## The resolved selection -/

section Resolved

variable {shape dims : List Nat} {indices : List Index} {r : ResolvedSelection}
  {entries : List Entry} {n : Nat}

/-- The axes entries take, with whether each is in the group. -/
def Entry.axes (entries : List Entry) : List (AxisSel × Bool) := entries.filterMap Entry.axis?

/-- What resolving a selection amounts to, in terms of its entries. -/
structure Resolves (shape : List Nat) (indices : List Index) (r : ResolvedSelection)
    (entries : List Entry) : Prop where
  consumes : indices.countP Index.consumesAxis ≤ shape.length
  ellipsis : indices.count .ellipsis ≤ 1
  parts : Numpy.parts (indices.any Index.isFancy)
    (shape.length - indices.countP Index.consumesAxis) (Numpy.complete indices) shape =
      some (Entry.parts entries shape)
  fit : Entry.Fit entries shape
  axes : r.axes = (Entry.axes entries).map Prod.fst
  plain : r.advanced = none → flagged 0 ((Entry.axes entries).map Prod.snd) = []
  group : ∀ g, r.advanced = some g →
    g.axes = flagged 0 ((Entry.axes entries).map Prod.snd) ∧ g.axes ≠ [] ∧
      broadcastLen (entries.filterMap Entry.listLen?) = .ok g.len ∧
      g.adjacent = together (entries.map Entry.isAdvanced)
  outShape : r.outShape =
    Aex.outShape entries r.advanced (flagged 0 (entries.map Entry.isAdvanced)).head?

theorem resolve_entries (h : resolve shape indices = .ok r) :
    ∃ entries, expand shape indices = .ok entries ∧ Resolves shape indices r entries := by
  unfold resolve at h
  obtain ⟨entries, hentries, h⟩ := Fallible.bind_eq_ok.mp h
  obtain ⟨hconsumes, hellipsis, hparts, hfit⟩ := expand_ok hentries
  have hpositions : (entries.zipIdx.filterMap fun x =>
      if x.1.isAdvanced then some x.2 else none) =
        flagged 0 (entries.map Entry.isAdvanced) := by
    rw [flagged, List.zipIdx_map, List.filterMap_map]
    rfl
  have hgroup : ((entries.filterMap Entry.axis?).zipIdx.filterMap fun x =>
      if x.1.2 then some x.2 else none) = flagged 0 ((Entry.axes entries).map Prod.snd) := by
    rw [flagged, List.zipIdx_map, List.filterMap_map]
    rfl
  dsimp only at h
  rw [hpositions, hgroup, adjacent_eq_together] at h
  split at h
  · rename_i hnil
    cases h
    refine ⟨entries, hentries, hconsumes, hellipsis, hparts, hfit, rfl, fun _ => hnil, ?_, rfl⟩
    rintro g ⟨⟩
  · rename_i hne
    obtain ⟨len, hlen, h⟩ := Fallible.bind_eq_ok.mp h
    cases h
    refine ⟨entries, hentries, hconsumes, hellipsis, hparts, hfit, rfl, ?_, ?_, rfl⟩
    · rintro ⟨⟩
    · rintro g ⟨rfl⟩
      exact ⟨rfl, hne, hlen, rfl⟩

theorem resolve_ok (h : resolve shape indices = .ok r) :
    ∃ entries, Resolves shape indices r entries := by
  obtain ⟨entries, -, h⟩ := resolve_entries h
  exact ⟨entries, h⟩

/-- Source elements per step along each axis, unbounded. -/
def strides : List Nat → List Nat
  | [] => []
  | _ :: dims => dims.prod :: strides dims

/-- The axes of the group, each with its stride. -/
def Entry.members (entries : List Entry) (dims : List Nat) : List (AxisSel × Nat) :=
  ((Entry.axes entries).zip (strides dims)).filterMap fun ((sel, advanced), stride) =>
    if advanced then some (sel, stride) else none

theorem members_eq (hfit : Entry.Fit entries dims) :
    (Entry.parts entries dims).filterMap Numpy.Part.member? =
      (Entry.members entries dims).map fun m => m.1.indices.map (· * m.2) := by
  induction entries generalizing dims with
  | nil => rfl
  | cons entry entries ih =>
      cases entry with
      | new => exact ih hfit
      | axis sel advanced =>
          cases dims with
          | nil => exact hfit.elim
          | cons n dims =>
              obtain ⟨-, hsorted, hfit⟩ := hfit
              have hrest := ih hfit
              cases sel with
              | point index =>
                  cases advanced with
                  | false => exact hrest
                  | true => exact congrArg ([index * dims.prod] :: ·) hrest
              | range start len step =>
                  obtain rfl : advanced = false := hsorted
                  exact hrest
              | fancy list =>
                  obtain rfl : advanced = true := hsorted
                  exact congrArg (list.map (· * dims.prod) :: ·) hrest

theorem members_eq_nil (hfit : Entry.Fit entries dims) :
    Entry.members entries dims = [] ↔ flagged 0 ((Entry.axes entries).map Prod.snd) = [] := by
  rw [flagged_eq_nil]
  induction entries generalizing dims with
  | nil => simp [Entry.members, Entry.axes]
  | cons entry entries ih =>
      cases entry with
      | new => exact ih hfit
      | axis sel advanced =>
          cases dims with
          | nil => exact hfit.elim
          | cons n dims =>
              cases advanced with
              | false => exact ih hfit.2.2
              | true => simp [Entry.members, Entry.axes, Entry.axis?, strides]

/-- The lengths of the dimensions outside the group. -/
theorem own_prod (hfit : Entry.Fit entries dims) :
    (((Entry.parts entries dims).filterMap Numpy.Part.own?).map List.length).prod =
      (entries.flatMap Entry.ownShape).prod := by
  induction entries generalizing dims with
  | nil => rfl
  | cons entry entries ih =>
      cases entry with
      | new =>
          have := ih hfit
          simpa [Entry.parts, Numpy.Part.own?, Entry.ownShape] using this
      | axis sel advanced =>
          cases dims with
          | nil => exact hfit.elim
          | cons n dims =>
              obtain ⟨-, hsorted, hfit⟩ := hfit
              have hrest := ih hfit
              cases sel with
              | point index =>
                  cases advanced with
                  | false =>
                      simpa [Entry.parts, Entry.part, Numpy.Part.own?, Entry.ownShape,
                        AxisSel.outLen] using hrest
                  | true => exact hrest
              | range start len step =>
                  obtain rfl : advanced = false := hsorted
                  simpa [Entry.parts, Entry.part, Numpy.Part.own?, Entry.ownShape, AxisSel.outLen,
                    AxisSel.indices] using Or.inl hrest
              | fancy list =>
                  obtain rfl : advanced = true := hsorted
                  exact hrest

/-- The entries before and after the first member of the group. -/
theorem exists_split (h : flagged n (entries.map Entry.isAdvanced) ≠ []) :
    ∃ before sel after, entries = before ++ .axis sel true :: after ∧
      (∀ entry ∈ before, entry.isAdvanced = false) ∧
      (flagged n (entries.map Entry.isAdvanced)).head? = some (n + before.length) := by
  induction entries generalizing n with
  | nil => simp at h
  | cons entry entries ih =>
      cases hflag : entry.isAdvanced with
      | true =>
          cases entry with
          | new => cases hflag
          | axis sel advanced =>
              obtain rfl : advanced = true := hflag
              exact ⟨[], sel, entries, rfl, by simp, rfl⟩
      | false =>
          rw [List.map_cons, hflag, flagged_false] at h ⊢
          obtain ⟨before, sel, after, rfl, hbefore, hhead⟩ := ih h
          refine ⟨entry :: before, sel, after, rfl, ?_, ?_⟩
          · simpa [hflag] using hbefore
          · rw [hhead, List.length_cons]
            congr 1
            omega

theorem any_axes : ((Entry.axes entries).map Prod.snd).any id = (entries.map Entry.isAdvanced).any id := by
  induction entries with
  | nil => rfl
  | cons entry entries ih =>
      cases entry with
      | new => simpa [Entry.axes, Entry.axis?, Entry.isAdvanced] using ih
      | axis sel advanced =>
          simp only [Entry.axes, List.filterMap_cons, Entry.axis?, List.map_cons, List.any_cons,
            Entry.isAdvanced, id] at ih ⊢
          rw [ih]

/-- The terms of a group of `len` positions. -/
def groupTerms (members : List (List Nat)) (len : Nat) : List Nat :=
  (List.range len).map fun k =>
    (members.map fun terms => terms.getD (if terms.length = 1 then 0 else k) 0).sum

/-- The parts that come before the first member of the group, or after it. -/
def Entry.before (entries : List Entry) (dims : List Nat) : List (List Nat) :=
  ((Entry.parts entries dims).takeWhile fun part => part.member?.isNone).filterMap Numpy.Part.own?

def Entry.after (entries : List Entry) (dims : List Nat) : List (List Nat) :=
  ((Entry.parts entries dims).dropWhile fun part => part.member?.isNone).filterMap Numpy.Part.own?

/-- The members' terms. -/
def Entry.memberTerms (entries : List Entry) (dims : List Nat) : List (List Nat) :=
  (Entry.members entries dims).map fun m => m.1.indices.map (· * m.2)

/-- Numpy accepts what resolves, and finds the same group in the same place. -/
theorem Resolves.select_eq (h : Resolves shape indices r entries) :
    Numpy.select shape indices = some ⟨Entry.before entries shape,
      r.advanced.map fun g => groupTerms (Entry.memberTerms entries shape) g.len,
      Entry.after entries shape⟩ := by
  have hconsumes := h.consumes
  have hellipsis := h.ellipsis
  unfold Numpy.select
  dsimp only
  rw [if_neg (by omega), h.parts, Option.bind_some]
  unfold Numpy.assemble
  dsimp only
  have hmembers := members_eq h.fit
  have hnil := members_eq_nil h.fit
  cases hadvanced : r.advanced with
  | none =>
      rw [hmembers, hnil.mpr (h.plain hadvanced)]
      rfl
  | some g =>
      obtain ⟨haxes, hne, hlen, -⟩ := h.group g hadvanced
      obtain ⟨group, hgroup, -, hterms⟩ := broadcast_ok h.fit hlen
      rw [if_neg, hgroup, hterms, hmembers]
      · rfl
      · rw [hmembers, List.map_eq_nil_iff, hnil, ← haxes]
        exact hne

/-- Every member of the group is as long as the group, or stands still. -/
theorem Resolves.members_length (h : Resolves shape indices r entries) {g : Advanced}
    (hg : r.advanced = some g) :
    ∀ terms ∈ Entry.memberTerms entries shape, terms.length = 1 ∨ terms.length = g.len := by
  obtain ⟨-, -, hlen, -⟩ := h.group g hg
  obtain ⟨-, hmem⟩ := members_lengths h.fit
  rw [members_eq h.fit] at hmem
  intro terms hterms
  rcases hmem terms hterms with hone | hin
  · exact Or.inl hone
  · exact (broadcastLen_ok hlen).1 _ hin

/-- The group is as long as its members that take several positions. -/
theorem Resolves.group_len (h : Resolves shape indices r entries) {g : Advanced}
    (hg : r.advanced = some g) :
    g.len = (((Entry.memberTerms entries shape).map List.length).find? (· ≠ 1)).getD 1 := by
  obtain ⟨-, -, hlen, -⟩ := h.group g hg
  rw [Entry.memberTerms, ← members_eq h.fit, (members_lengths h.fit).1]
  exact (broadcastLen_ok hlen).2

/-- The shape has one length per dimension of the grid, up to those of one term. -/
theorem Resolves.outShape_prod (h : Resolves shape indices r entries) {s : Numpy.Selected}
    (hs : Numpy.select shape indices = some s) (front : Bool) :
    r.outShape.prod = ((s.dims front).map List.length).prod := by
  rw [h.select_eq] at hs
  cases hs
  have hown := own_prod h.fit
  rw [← List.takeWhile_append_dropWhile (p := fun part => part.member?.isNone)
    (l := Entry.parts entries shape), List.filterMap_append, List.map_append, List.prod_append] at hown
  rw [h.outShape]
  cases hadvanced : r.advanced with
  | none =>
      rw [outShape_none, ← hown]
      simp [Numpy.Selected.dims, Entry.before, Entry.after]
  | some g =>
      have hlen : (groupTerms (Entry.memberTerms entries shape) g.len).length = g.len := by
        simp [groupTerms]
      have hgrid : (((Numpy.Selected.mk (Entry.before entries shape)
          (some (groupTerms (Entry.memberTerms entries shape) g.len))
          (Entry.after entries shape)).dims front).map List.length).prod =
          g.len * (entries.flatMap Entry.ownShape).prod := by
        rw [← hown]
        cases front with
        | false =>
            simp [Numpy.Selected.dims, hlen, Entry.before, Entry.after]
            ring
        | true => simp [Numpy.Selected.dims, hlen, Entry.before, Entry.after]
      refine Eq.trans ?_ hgrid.symm
      obtain ⟨haxes, hne, -, -⟩ := h.group g hadvanced
      have hflags : flagged 0 (entries.map Entry.isAdvanced) ≠ [] := by
        rwa [Ne, flagged_eq_nil, ← any_axes, ← flagged_eq_nil (n := 0), ← haxes]
      obtain ⟨before, sel, after, hentries, hbefore, hhead⟩ := exists_split hflags
      cases hadjacent : g.adjacent with
      | false => rw [outShape_front hadjacent, List.prod_cons]
      | true =>
          rw [hhead, Nat.zero_add, hentries, outShape_place hadjacent hbefore]
          simp [Entry.ownShape]
          ring

end Resolved

end Aex
