import Mathlib.Data.List.Forall2
import Aex.Core.Selection.Parts

/-!
# What resolves, and the shape it gets

The code resolves exactly the selections numpy accepts.  The indices are followed
together with the axes they stand for, and what each one expands to.
-/

namespace Aex

/-! ## One index -/

section Axis

variable {n axis : Nat} {i : Int64} {index : Index}

theorem normalizeIndex_isOk (axis : Nat) (hmax : (n : Int) ≤ Word.signedMax 64) :
    (∃ p, normalizeIndex i n axis = .ok p) ↔ -n ≤ i.toInt ∧ i.toInt < n := by
  unfold normalizeIndex
  by_cases hneg : i.toInt < 0
  · simp only [hneg, if_true, saturatingAddSigned_of_neg hneg (Int.natCast_nonneg n) hmax]
    split
    · simp
      omega
    · simp
      omega
  · simp only [hneg, if_false, false_or]
    split
    · simp
      omega
    · simp
      omega

/-- An index that consumes an axis resolves when it is in range there. -/
theorem resolveAxis_isOk (axis : Nat) (hmax : (n : Int) ≤ Word.signedMax 64)
    (hindex : index.consumesAxis = true) :
    (∃ sel, resolveAxis index n axis = .ok sel) ↔ Numpy.InRange n index := by
  unfold resolveAxis Word.checkedToSigned
  rw [if_pos hmax]
  cases index with
  | single i =>
      simp only [Fallible.map_eq_ok, Numpy.InRange, ← normalizeIndex_isOk axis hmax]
      simp
  | fancy list =>
      simp only [Fallible.map_eq_ok, Numpy.InRange, ← normalizeIndex_isOk axis hmax,
        ← Fallible.mapM_isOk]
      simp
  | slice start stop step =>
      by_cases hstep : (step.map Int64.toInt).getD 1 = 0
      · simp [resolveSlice, Numpy.InRange, hstep]
      · simp [resolveSlice_eq hmax rfl hstep, Numpy.InRange, hstep]
  | ellipsis | newAxis => cases hindex

/-- The positions of an axis selection are those numpy takes. -/
theorem resolveAxis_taken {sel : AxisSel} (h : resolveAxis index n axis = .ok sel) :
    Numpy.taken n index = some sel.indices ∧ sel.Fits n := by
  obtain ⟨hfits, h⟩ := resolveAxis_ok h
  refine ⟨?_, hfits⟩
  cases index with
  | single i =>
      obtain ⟨p, hp, rfl⟩ := h
      simp [Numpy.taken, hp, AxisSel.indices]
  | fancy list =>
      obtain ⟨ps, hps, rfl⟩ := h
      exact hps
  | slice start stop step =>
      obtain ⟨first, len, s, rfl, hpositions⟩ := h
      exact hpositions
  | ellipsis | newAxis => exact h.elim

end Axis

/-! ## What an index expands to -/

/-- The entries of an index, given the axes it stands for. -/
inductive Expands (arrays : Bool) : Index × List Nat → List Entry → Prop where
  | newAxis : Expands arrays (.newAxis, []) [.new]
  | ellipsis {dims : List Nat} :
      Expands arrays (.ellipsis, dims) (dims.map fun dim => .axis (.whole dim) false)
  | axis {index : Index} {n axis : Nat} {sel : AxisSel} (hindex : index.consumesAxis = true)
      (hsel : resolveAxis index n axis = .ok sel) :
      Expands arrays (index, [n]) [.axis sel (arrays && index.joinsGroup)]

section Expand

variable {arrays : Bool} {implied axis : Nat} {indices : List Index} {dims shape : List Nat}
  {entries : List Entry}

/-- The entries, index by index. -/
theorem expandFrom_expands
    (hlen : indices.countP Index.consumesAxis + implied * indices.count .ellipsis = dims.length)
    (h : expandFrom implied true arrays indices dims axis = .ok entries) :
    ∃ ess, List.Forall₂ (Expands arrays) (Numpy.covered implied indices dims) ess ∧
      entries = ess.flatten := by
  induction indices generalizing dims axis entries with
  | nil =>
      cases h
      exact ⟨[], .nil, rfl⟩
  | cons index indices ih =>
      cases index with
      | newAxis =>
          obtain ⟨more, hmore, heq⟩ := Fallible.bind_eq_ok.mp h
          cases heq
          obtain ⟨ess, hess, rfl⟩ := ih (by simpa [Index.consumesAxis] using hlen) hmore
          exact ⟨[.new] :: ess, .cons .newAxis hess, rfl⟩
      | ellipsis =>
          obtain ⟨more, hmore, heq⟩ := Fallible.bind_eq_ok.mp h
          cases heq
          simp only [List.countP_cons, Index.consumesAxis, List.count_cons_self, Nat.mul_succ,
            Bool.false_eq_true, if_false, Nat.add_zero] at hlen
          obtain ⟨ess, hess, rfl⟩ := ih (by rw [List.length_drop]; omega) hmore
          exact ⟨_ :: ess, .cons .ellipsis hess, rfl⟩
      | single _ | slice _ _ _ | fancy _ =>
          obtain ⟨sel, hsel, h⟩ := Fallible.bind_eq_ok.mp h
          obtain ⟨more, hmore, heq⟩ := Fallible.bind_eq_ok.mp h
          cases heq
          obtain ⟨n, rest, rfl, hlen'⟩ := consumed_cons rfl hlen
          obtain ⟨ess, hess, rfl⟩ := ih hlen' hmore
          exact ⟨_ :: ess, .cons (.axis rfl hsel) hess, rfl⟩

/-- Everything expands when every index is in range. -/
theorem expandFrom_isOk
    (hlen : indices.countP Index.consumesAxis + implied * indices.count .ellipsis = dims.length)
    (hdims : ∀ n ∈ dims, (n : Int) ≤ Word.signedMax 64)
    (h : ∀ p ∈ Numpy.byAxis (Numpy.covered implied indices dims), Numpy.InRange p.2 p.1) :
    ∃ entries, expandFrom implied true arrays indices dims axis = .ok entries := by
  induction indices generalizing dims axis with
  | nil => exact ⟨_, rfl⟩
  | cons index indices ih =>
      cases index with
      | newAxis =>
          obtain ⟨more, hmore⟩ := @ih axis dims (by simpa [Index.consumesAxis] using hlen) hdims h
          exact ⟨_, Fallible.bind_eq_ok.mpr ⟨more, hmore, rfl⟩⟩
      | ellipsis =>
          simp only [List.countP_cons, Index.consumesAxis, List.count_cons_self, Nat.mul_succ,
            Bool.false_eq_true, if_false, Nat.add_zero] at hlen
          have hrest : ∀ p ∈ Numpy.byAxis (Numpy.covered implied indices (dims.drop implied)),
              Numpy.InRange p.2 p.1 := fun p hp => h p (List.mem_append_right _ hp)
          obtain ⟨more, hmore⟩ := @ih (axis + implied) (dims.drop implied)
            (by rw [List.length_drop]; omega)
            (fun n hn => hdims n (List.mem_of_mem_drop hn)) hrest
          exact ⟨_, Fallible.bind_eq_ok.mpr ⟨more, hmore, rfl⟩⟩
      | single _ | slice _ _ _ | fancy _ =>
          obtain ⟨n, rest, rfl, hlen'⟩ := consumed_cons rfl hlen
          obtain ⟨sel, hsel⟩ := (resolveAxis_isOk axis (hdims n List.mem_cons_self) rfl).mpr
            (h _ List.mem_cons_self)
          obtain ⟨more, hmore⟩ := @ih (axis + 1) rest hlen'
            (fun m hm => hdims m (List.mem_cons_of_mem _ hm)) fun p hp => h p (List.mem_cons_of_mem _ hp)
          exact ⟨_, Fallible.bind_eq_ok.mpr ⟨sel, hsel, Fallible.bind_eq_ok.mpr ⟨more, hmore, rfl⟩⟩⟩

/-- The axes the indices stand for are those of the array. -/
theorem byAxis_covered
    (hlen : indices.countP Index.consumesAxis + implied * indices.count .ellipsis = dims.length) :
    (Numpy.byAxis (Numpy.covered implied indices dims)).map Prod.snd = dims := by
  induction indices generalizing dims with
  | nil =>
      obtain rfl : dims = [] := List.length_eq_zero_iff.mp (by simpa using hlen.symm)
      rfl
  | cons index indices ih =>
      cases index with
      | newAxis => exact ih (by simpa [Index.consumesAxis] using hlen)
      | ellipsis =>
          simp only [List.countP_cons, Index.consumesAxis, List.count_cons_self, Nat.mul_succ,
            Bool.false_eq_true, if_false, Nat.add_zero] at hlen
          have hrest := @ih (dims.drop implied) (by rw [List.length_drop]; omega)
          simp only [Numpy.byAxis] at hrest
          simp only [Numpy.covered, Numpy.byAxis, List.flatMap_cons, List.map_append, hrest]
          simp
      | single _ | slice _ _ _ | fancy _ =>
          obtain ⟨n, rest, rfl, hlen'⟩ := consumed_cons rfl hlen
          exact congrArg (n :: ·) (ih hlen')

theorem covered_fst : (Numpy.covered implied indices dims).map Prod.fst = indices := by
  induction indices generalizing dims with
  | nil => rfl
  | cons index indices ih => cases index <;> simp [Numpy.covered, ih]

/-- The entries of a selection, index by index. -/
theorem expand_expands (h : expand shape indices = .ok entries) :
    ∃ ess, List.Forall₂ (Expands (indices.any Index.isFancy)) (Numpy.standing shape indices) ess ∧
      entries = ess.flatten := by
  obtain ⟨hconsumes, hone⟩ := expand_bounds h
  rw [expand_eq hone hconsumes] at h
  exact expandFrom_expands (complete_consumes hone hconsumes) h

theorem Expands.inRange {item : Index × List Nat} {es : List Entry} (h : Expands arrays item es) :
    ∀ n ∈ item.2, (n : Int) ≤ Word.signedMax 64 → Numpy.InRange n item.1 := by
  cases h with
  | newAxis => simp
  | ellipsis => exact fun _ _ _ => trivial
  | axis hindex hsel =>
      intro n hn hmax
      obtain rfl := List.mem_singleton.mp hn
      exact (resolveAxis_isOk _ hmax hindex).mp ⟨_, hsel⟩

/-- Expanding succeeds when the counts fit and every index is in range. -/
theorem expand_isOk (hdims : ∀ n ∈ shape, (n : Int) ≤ Word.signedMax 64) :
    (∃ entries, expand shape indices = .ok entries) ↔
      indices.count .ellipsis ≤ 1 ∧ indices.countP Index.consumesAxis ≤ shape.length ∧
        ∀ p ∈ Numpy.byAxis (Numpy.standing shape indices), Numpy.InRange p.2 p.1 := by
  constructor
  · intro h
    obtain ⟨entries, h⟩ := h
    obtain ⟨hconsumes, hone⟩ := expand_bounds h
    obtain ⟨ess, hess, rfl⟩ := expand_expands h
    refine ⟨hone, hconsumes, ?_⟩
    intro p hp
    have hdim : p.2 ∈ shape := by
      rw [← byAxis_covered (complete_consumes hone hconsumes)]
      exact List.mem_map_of_mem hp
    obtain ⟨item, hitem, hp⟩ := List.mem_flatMap.mp hp
    obtain ⟨n, hn, rfl⟩ := List.mem_map.mp hp
    have hitems := (List.forall₂_and_left _ _).mp (hess.imp fun _ _ hes => ⟨hes.inRange, hes⟩)
    exact hitems.1 item hitem n hn (hdims n hdim)
  · intro h
    obtain ⟨hone, hconsumes, h⟩ := h
    obtain ⟨entries, hentries⟩ := expandFrom_isOk (complete_consumes hone hconsumes) hdims h
    exact ⟨entries, by rw [expand_eq hone hconsumes]; exact hentries⟩

end Expand

/-! ## Adding the indices up -/

section Add

variable {arrays : Bool} {item : Index × List Nat} {es : List Entry}
  {items : List (Index × List Nat)} {ess : List (List Entry)}

/-- One selection per axis, of the positions numpy takes. -/
def Takes (p : Index × Nat) (sel : AxisSel) : Prop :=
  Numpy.taken p.2 p.1 = some sel.indices ∧ sel.Fits p.2

theorem Expands.axes (h : Expands arrays item es) :
    List.Forall₂ Takes (item.2.map (item.1, ·)) ((Entry.axes es).map Prod.fst) := by
  cases h with
  | newAxis => exact .nil
  | @ellipsis dims =>
      induction dims with
      | nil => exact .nil
      | cons n dims ih =>
          exact .cons ⟨congrArg some AxisSel.indices_whole.symm, AxisSel.whole_fits⟩ ih
  | axis _ hsel => exact .cons (resolveAxis_taken hsel) .nil

theorem axes_takes (h : List.Forall₂ (Expands arrays) items ess) :
    List.Forall₂ Takes (Numpy.byAxis items) ((Entry.axes ess.flatten).map Prod.fst) := by
  induction h with
  | nil => exact .nil
  | cons hes _ ih =>
      simp only [Numpy.byAxis, Entry.axes, List.flatMap_cons, List.flatten_cons,
        List.filterMap_append, List.map_append] at ih ⊢
      exact List.rel_append hes.axes ih

/-- The members of the group, as the entries of one index show them. -/
def memberFlags : Index × List Nat → List Bool
  | (.single _, _) | (.fancy _, _) => [true]
  | (.slice _ _ _, _) | (.newAxis, _) => [false]
  | (.ellipsis, dims) => dims.map fun _ => false

theorem Expands.flags (h : Expands true item es) : es.map Entry.isAdvanced = memberFlags item := by
  cases h with
  | newAxis => rfl
  | ellipsis => exact List.map_map
  | @axis index n axis sel hindex hsel => cases index <;> rfl

theorem flags_eq (h : List.Forall₂ (Expands true) items ess) :
    ess.flatten.map Entry.isAdvanced = items.flatMap memberFlags := by
  induction h with
  | nil => rfl
  | cons hes _ ih => rw [List.flatten_cons, List.map_append, hes.flags, ih, List.flatMap_cons]

/-- What an entry outside the group adds to the shape is what its index adds. -/
theorem Expands.own (hfancy : item.1.isFancy = true → arrays = true) (h : Expands arrays item es) :
    es.flatMap Entry.ownShape = Numpy.ownDims item := by
  cases h with
  | newAxis => rfl
  | @ellipsis dims =>
      simp [Numpy.ownDims, Entry.ownShape, List.flatMap_map, AxisSel.outLen, AxisSel.whole]
  | @axis index n axis sel hindex hsel =>
      obtain ⟨-, hsel⟩ := resolveAxis_ok hsel
      cases index with
      | single i =>
          obtain ⟨p, -, rfl⟩ := hsel
          cases arrays <;> rfl
      | fancy list =>
          obtain rfl := hfancy rfl
          rfl
      | slice start stop step =>
          obtain ⟨first, len, s, rfl, hpositions⟩ := hsel
          simp [Numpy.ownDims, Entry.ownShape, hpositions, Index.joinsGroup, AxisSel.outLen,
            AxisSel.indices]
      | ellipsis | newAxis => exact hsel.elim

/-- The index arrays are the lists of the group. -/
theorem Expands.lens (hfancy : item.1.isFancy = true → arrays = true) (h : Expands arrays item es) :
    es.filterMap Entry.listLen? = Numpy.arrayLens [item.1] := by
  cases h with
  | newAxis => rfl
  | ellipsis => simp [Numpy.arrayLens, Entry.listLen?, AxisSel.whole]
  | @axis index n axis sel hindex hsel =>
      obtain ⟨-, hsel⟩ := resolveAxis_ok hsel
      cases index with
      | single i =>
          obtain ⟨p, -, rfl⟩ := hsel
          rfl
      | fancy list =>
          obtain rfl := hfancy rfl
          obtain ⟨ps, hps, rfl⟩ := hsel
          exact congrArg (fun k => [k]) (Fallible.mapM_eq_some.mp hps).length_eq.symm
      | slice start stop step =>
          obtain ⟨first, len, s, rfl, -⟩ := hsel
          rfl
      | ellipsis | newAxis => exact hsel.elim

theorem own_eq (hfancy : ∀ item ∈ items, item.1.isFancy = true → arrays = true)
    (h : List.Forall₂ (Expands arrays) items ess) :
    ess.flatten.flatMap Entry.ownShape = items.flatMap Numpy.ownDims := by
  induction h with
  | nil => rfl
  | cons hes _ ih =>
      rw [List.forall_mem_cons] at hfancy
      rw [List.flatten_cons, List.flatMap_append, hes.own hfancy.1, ih hfancy.2, List.flatMap_cons]

theorem lens_eq (hfancy : ∀ item ∈ items, item.1.isFancy = true → arrays = true)
    (h : List.Forall₂ (Expands arrays) items ess) :
    ess.flatten.filterMap Entry.listLen? = Numpy.arrayLens (items.map Prod.fst) := by
  induction h with
  | nil => rfl
  | cons hes _ ih =>
      rw [List.forall_mem_cons] at hfancy
      rw [List.flatten_cons, List.filterMap_append, hes.lens hfancy.1, ih hfancy.2]
      simp only [Numpy.arrayLens, List.map_cons]
      rw [← List.filterMap_append, List.singleton_append]

end Add

/-! ## The place of the group -/

section Place

variable {item : Index × List Nat} {items : List (Index × List Nat)} {es : List Entry}
  {ess : List (List Entry)}

theorem memberFlags_of_joins (h : item.1.joinsGroup = true) : memberFlags item = [true] := by
  obtain ⟨index, dims⟩ := item
  cases index <;> first | rfl | cases h

theorem memberFlags_of_not_joins (h : item.1.joinsGroup = false) :
    ∀ flag ∈ memberFlags item, flag = false := by
  obtain ⟨index, dims⟩ := item
  cases index with
  | single _ | fancy _ => cases h
  | slice _ _ _ | newAxis => simp [memberFlags]
  | ellipsis =>
      intro flag hflag
      obtain ⟨_, _, rfl⟩ := List.mem_map.mp hflag
      rfl

/-- What separates two members shows as an entry that is not one. -/
theorem memberFlags_separates (h : item.1.joinsGroup = false) :
    if Numpy.separates item then ∃ more, memberFlags item = false :: more
    else memberFlags item = [] := by
  obtain ⟨index, dims⟩ := item
  cases index with
  | single _ | fancy _ => cases h
  | slice _ _ _ | newAxis => exact ⟨[], rfl⟩
  | ellipsis =>
      cases dims with
      | nil => rfl
      | cons n dims => exact ⟨_, rfl⟩

theorem separates_of_joins (h : item.1.joinsGroup = true) : Numpy.separates item = false := by
  obtain ⟨index, dims⟩ := item
  cases index <;> first | rfl | cases h

theorem any_memberFlags : (items.flatMap memberFlags).any id = items.any (·.1.joinsGroup) := by
  induction items with
  | nil => rfl
  | cons item items ih =>
      rw [List.flatMap_cons, List.any_append, List.any_cons, ih]
      congr 1
      cases hjoins : item.1.joinsGroup with
      | true => rw [memberFlags_of_joins hjoins]; rfl
      | false => simpa using memberFlags_of_not_joins hjoins

/-- Past the first members, a member remains when something separates the two. -/
theorem any_past_members : ((items.flatMap memberFlags).dropWhile id).any id =
    (items.dropWhile (!Numpy.separates ·)).any (·.1.joinsGroup) := by
  induction items with
  | nil => rfl
  | cons item items ih =>
      cases hjoins : item.1.joinsGroup with
      | true =>
          rw [List.flatMap_cons, memberFlags_of_joins hjoins,
            List.dropWhile_cons_of_pos (by simp [separates_of_joins hjoins]), ← ih]
          rfl
      | false =>
          have hflags := memberFlags_separates hjoins
          cases hseparates : Numpy.separates item with
          | false =>
              rw [if_neg (by simp [hseparates])] at hflags
              rw [List.dropWhile_cons_of_pos (by simp [hseparates]), ← ih, List.flatMap_cons, hflags,
                List.nil_append]
          | true =>
              rw [if_pos hseparates] at hflags
              obtain ⟨more, hmore⟩ := hflags
              have hall := @any_memberFlags (item :: items)
              rw [List.dropWhile_cons_of_neg (by simp [hseparates]), ← hall, List.flatMap_cons, hmore]
              rfl

/-- The members sit together when nothing that separates is between two of them. -/
theorem together_memberFlags :
    together (items.flatMap memberFlags) = !Numpy.lieApart items := by
  unfold together Numpy.lieApart
  congr 1
  induction items with
  | nil => rfl
  | cons item items ih =>
      cases hjoins : item.1.joinsGroup with
      | true =>
          rw [List.dropWhile_cons_of_neg (by simp [hjoins]), ← any_past_members, List.flatMap_cons,
            memberFlags_of_joins hjoins]
          rfl
      | false =>
          rw [List.dropWhile_cons_of_pos (by simp [hjoins]), ← ih, List.flatMap_cons,
            List.dropWhile_append_of_pos]
          intro flag hflag
          simp [memberFlags_of_not_joins hjoins flag hflag]

theorem Expands.not_isAdvanced (h : Expands true item es) (hjoins : item.1.joinsGroup = false) :
    ∀ entry ∈ es, entry.isAdvanced = false := by
  intro entry hentry
  apply memberFlags_of_not_joins hjoins
  rw [← h.flags]
  exact List.mem_map_of_mem hentry

/-- The shape before the first member, and after it. -/
theorem own_sides (h : List.Forall₂ (Expands true) items ess) :
    (ess.flatten.takeWhile (!·.isAdvanced)).flatMap Entry.ownShape =
        (items.takeWhile (!·.1.joinsGroup)).flatMap Numpy.ownDims ∧
      (ess.flatten.dropWhile (!·.isAdvanced)).flatMap Entry.ownShape =
        (items.dropWhile (!·.1.joinsGroup)).flatMap Numpy.ownDims := by
  induction h with
  | nil => exact ⟨rfl, rfl⟩
  | @cons item es items ess hes hess ih =>
      cases hjoins : item.1.joinsGroup with
      | true =>
          have hflags := hes.flags
          rw [memberFlags_of_joins hjoins] at hflags
          obtain ⟨entry, rfl, hentry⟩ := List.map_eq_singleton_iff.mp hflags
          have hall := own_eq (fun _ _ _ => rfl) (.cons hes hess)
          rw [List.flatten_cons, List.singleton_append] at hall ⊢
          rw [List.takeWhile_cons_of_neg (by simp [hentry]),
            List.takeWhile_cons_of_neg (by simp [hjoins]),
            List.dropWhile_cons_of_neg (by simp [hentry]),
            List.dropWhile_cons_of_neg (by simp [hjoins]), hall]
          exact ⟨rfl, rfl⟩
      | false =>
          have hplain : ∀ entry ∈ es, (!entry.isAdvanced) = true := by
            intro entry hentry
            rw [hes.not_isAdvanced hjoins entry hentry]
            rfl
          rw [List.flatten_cons, List.takeWhile_append_of_pos hplain,
            List.dropWhile_append_of_pos hplain, List.takeWhile_cons_of_pos (by simp [hjoins]),
            List.dropWhile_cons_of_pos (by simp [hjoins]), List.flatMap_append,
            hes.own (fun _ => rfl), List.flatMap_cons, ih.1, ih.2]
          exact ⟨rfl, rfl⟩

end Place

/-! ## What resolves -/

section Accept

variable {shape : List Nat} {indices : List Index} {r : ResolvedSelection} {entries : List Entry}
  {lengths : List Nat}

theorem broadcastStep_isOk {message : String} {result : Nat}
    (h : ∀ a ∈ result :: lengths, ∀ b ∈ result :: lengths, a ≠ 1 → b ≠ 1 → a = b) :
    ∃ len, lengths.foldlM (fun result len =>
      if len = 1 then Except.ok result
      else if result ≠ 1 ∧ result ≠ len then .error (AexError.badSelection message)
      else .ok len) result = .ok len := by
  induction lengths generalizing result with
  | nil => exact ⟨result, rfl⟩
  | cons l lengths ih =>
      rw [List.foldlM_cons]
      have hresult : result ∈ result :: l :: lengths := List.mem_cons_self
      have hl : l ∈ result :: l :: lengths := List.mem_cons_of_mem _ List.mem_cons_self
      by_cases hone : l = 1
      · obtain ⟨len, hlen⟩ := @ih result fun a ha b hb =>
          h a (List.mem_cons.mpr ((List.mem_cons.mp ha).imp_right (List.mem_cons_of_mem _)))
            b (List.mem_cons.mpr ((List.mem_cons.mp hb).imp_right (List.mem_cons_of_mem _)))
        exact ⟨len, Fallible.bind_eq_ok.mpr ⟨result, if_pos hone, hlen⟩⟩
      · obtain ⟨len, hlen⟩ := @ih l fun a ha b hb =>
          h a (List.mem_cons_of_mem _ ha) b (List.mem_cons_of_mem _ hb)
        refine ⟨len, Fallible.bind_eq_ok.mpr ⟨l, ?_, hlen⟩⟩
        rw [if_neg hone, if_neg]
        intro hne
        exact hne.2 (h _ hresult _ hl hne.1 hone)

/-- The lengths of the group broadcast when those other than 1 agree. -/
theorem broadcastLen_isOk : (∃ len, broadcastLen lengths = .ok len) ↔
    ∀ a ∈ lengths, ∀ b ∈ lengths, a ≠ 1 → b ≠ 1 → a = b := by
  constructor
  · intro h a ha b hb hane hbne
    obtain ⟨len, h⟩ := h
    obtain ⟨hall, -⟩ := broadcastLen_ok h
    rw [(hall a ha).resolve_left hane, (hall b hb).resolve_left hbne]
  · intro h
    apply broadcastStep_isOk
    intro a ha b hb hane hbne
    exact h a ((List.mem_cons.mp ha).resolve_left hane) b ((List.mem_cons.mp hb).resolve_left hbne)
      hane hbne

theorem listLens_eq_nil (h : (entries.map Entry.isAdvanced).any id = false) :
    entries.filterMap Entry.listLen? = [] := by
  apply List.filterMap_eq_nil_iff.mpr
  intro entry hentry
  have hplain : entry.isAdvanced = false := by
    simpa using List.any_eq_false.mp h _ (List.mem_map_of_mem hentry)
  cases entry with
  | new => rfl
  | axis sel advanced =>
      obtain rfl : advanced = false := hplain
      cases sel <;> rfl

/-- A selection resolves when it expands and its group broadcasts. -/
theorem resolve_isOk : (∃ r, resolve shape indices = .ok r) ↔
    ∃ entries, expand shape indices = .ok entries ∧
      ∃ len, broadcastLen (entries.filterMap Entry.listLen?) = .ok len := by
  constructor
  · intro h
    obtain ⟨r, h⟩ := h
    obtain ⟨entries, hentries, h⟩ := resolve_entries h
    refine ⟨entries, hentries, ?_⟩
    cases hadvanced : r.advanced with
    | none =>
        have hplain := h.plain hadvanced
        rw [flagged_eq_nil, any_axes] at hplain
        rw [listLens_eq_nil hplain]
        exact ⟨1, rfl⟩
    | some g => exact ⟨g.len, (h.group g hadvanced).2.2.1⟩
  · intro h
    obtain ⟨entries, hentries, len, hlen⟩ := h
    by_cases hgroup : ((entries.filterMap Entry.axis?).zipIdx.filterMap fun x =>
        if x.1.2 then some x.2 else none) = []
    · exact ⟨_, Fallible.bind_eq_ok.mpr ⟨entries, hentries, (if_pos hgroup).trans rfl⟩⟩
    · exact ⟨_, Fallible.bind_eq_ok.mpr ⟨entries, hentries,
        (if_neg hgroup).trans (Fallible.bind_eq_ok.mpr ⟨len, hlen, rfl⟩)⟩⟩

/-- An index array makes the selection advanced, whether or not it has an ellipsis. -/
theorem standing_fancy : ∀ item ∈ Numpy.standing shape indices,
    item.1.isFancy = true → indices.any Index.isFancy = true := by
  intro item hitem hfancy
  have hmem : item.1 ∈ (Numpy.standing shape indices).map Prod.fst := List.mem_map_of_mem hitem
  rw [Numpy.standing, covered_fst] at hmem
  cases hindex : item.1 with
  | fancy list => exact fancy_mem_complete (hindex ▸ hmem)
  | single _ | slice _ _ _ | ellipsis | newAxis =>
      rw [hindex] at hfancy
      cases hfancy

theorem arrayLens_standing :
    Numpy.arrayLens ((Numpy.standing shape indices).map Prod.fst) = Numpy.arrayLens indices := by
  rw [Numpy.standing, covered_fst, Numpy.complete]
  split
  · rfl
  · simp [Numpy.arrayLens]

/-- The code resolves what numpy accepts. -/
theorem resolve_isOk_iff_accepts (hdims : ∀ n ∈ shape, n < 2 ^ 63) :
    (∃ r, resolve shape indices = .ok r) ↔ Numpy.Accepts shape indices := by
  have hmax : ∀ n ∈ shape, (n : Int) ≤ Word.signedMax 64 := by
    intro n hn
    have := hdims n hn
    unfold Word.signedMax
    omega
  rw [resolve_isOk]
  constructor
  · intro h
    obtain ⟨entries, hentries, hlen⟩ := h
    obtain ⟨hone, hconsumes, hrange⟩ := (expand_isOk hmax).mp ⟨entries, hentries⟩
    obtain ⟨ess, hess, rfl⟩ := expand_expands hentries
    rw [lens_eq standing_fancy hess, arrayLens_standing, broadcastLen_isOk] at hlen
    exact ⟨hone, hconsumes, hrange, hlen⟩
  · intro h
    obtain ⟨entries, hentries⟩ := (expand_isOk hmax).mpr ⟨h.ellipsis, h.consumes, h.inRange⟩
    refine ⟨entries, hentries, ?_⟩
    obtain ⟨ess, hess, rfl⟩ := expand_expands hentries
    rw [lens_eq standing_fancy hess, arrayLens_standing, broadcastLen_isOk]
    exact h.broadcast

/-- Without index arrays no entry is in the group. -/
theorem plain_flags {items : List (Index × List Nat)} {ess : List (List Entry)}
    (h : List.Forall₂ (Expands false) items ess) :
    (ess.flatten.map Entry.isAdvanced).any id = false := by
  induction h with
  | nil => rfl
  | cons hes _ ih =>
      rw [List.flatten_cons, List.map_append, List.any_append, ih, Bool.or_false]
      cases hes with
      | newAxis | axis _ _ => rfl
      | ellipsis => simp [Entry.isAdvanced]

/-- There is a group when there is an index array. -/
theorem Resolves.advanced_isSome (h : Resolves shape indices r entries) :
    r.advanced.isSome = (entries.map Entry.isAdvanced).any id := by
  cases hadvanced : r.advanced with
  | none =>
      have hplain := h.plain hadvanced
      rw [flagged_eq_nil, any_axes] at hplain
      exact hplain.symm
  | some g =>
      obtain ⟨haxes, hne, -⟩ := h.group g hadvanced
      rw [haxes, Ne, flagged_eq_nil, any_axes, Bool.not_eq_false] at hne
      exact hne.symm

theorem any_joins_standing (h : indices.any Index.isFancy = true) :
    (Numpy.standing shape indices).any (·.1.joinsGroup) = true := by
  obtain ⟨index, hindex, hfancy⟩ := List.any_eq_true.mp h
  have hmem : index ∈ (Numpy.standing shape indices).map Prod.fst := by
    rw [Numpy.standing, covered_fst, Numpy.complete]
    split
    · exact hindex
    · exact List.mem_append_left _ hindex
  obtain ⟨item, hitem, rfl⟩ := List.mem_map.mp hmem
  apply List.any_eq_true.mpr
  refine ⟨item, hitem, ?_⟩
  cases hkind : item.1 with
  | fancy list => rfl
  | single _ | slice _ _ _ | ellipsis | newAxis =>
      rw [hkind] at hfancy
      cases hfancy

/-- The shape of the result is numpy's. -/
theorem resolve_outShape (h : resolve shape indices = .ok r) :
    r.outShape = Numpy.outShape shape indices := by
  obtain ⟨entries, hentries, h⟩ := resolve_entries h
  obtain ⟨ess, hess, rfl⟩ := expand_expands hentries
  have hown := own_eq standing_fancy hess
  have hlens := lens_eq standing_fancy hess
  have hsome := h.advanced_isSome
  rw [h.outShape]
  unfold Numpy.outShape
  cases harrays : indices.any Index.isFancy with
  | false =>
      rw [harrays] at hess
      rw [plain_flags hess, Option.isSome_eq_false_iff, Option.isNone_iff_eq_none] at hsome
      rw [hsome, outShape_none, hown]
      rfl
  | true =>
      rw [harrays] at hess
      have hany : (Numpy.standing shape indices).any (·.1.joinsGroup) = true :=
        any_joins_standing harrays
      rw [flags_eq hess, any_memberFlags, hany, Option.isSome_iff_exists] at hsome
      obtain ⟨g, hg⟩ := hsome
      obtain ⟨-, -, hlen, hadjacent⟩ := h.group g hg
      rw [hlens, arrayLens_standing] at hlen
      rw [flags_eq hess, together_memberFlags] at hadjacent
      rw [hg, ← (broadcastLen_ok hlen).2]
      dsimp only
      cases hapart : Numpy.lieApart (Numpy.standing shape indices) with
      | true => rw [outShape_front (by rw [hadjacent, hapart]; rfl), hown, if_pos rfl, if_pos rfl]
      | false =>
          have hflagged : flagged 0 (ess.flatten.map Entry.isAdvanced) ≠ [] := by
            rw [Ne, flagged_eq_nil, flags_eq hess, any_memberFlags, hany]
            simp
          obtain ⟨before, sel, after, hsplit, hbefore, hhead⟩ := exists_split hflagged
          have hsides := own_sides hess
          rw [hsplit, List.takeWhile_append_of_pos (by simpa using hbefore),
            List.dropWhile_append_of_pos (by simpa using hbefore),
            List.takeWhile_cons_of_neg (by simp [Entry.isAdvanced]),
            List.dropWhile_cons_of_neg (by simp [Entry.isAdvanced]), List.append_nil] at hsides
          rw [hhead, Nat.zero_add, hsplit, outShape_place (by rw [hadjacent, hapart]; rfl) hbefore,
            if_pos rfl, if_neg (by simp), ← hsides.1, ← hsides.2]
          rfl

/-- The code accepts what numpy accepts, takes the positions numpy takes, axis by
axis, and gives the result numpy's shape. -/
theorem resolve_matches_numpy (shape : List Nat) (indices : List Index) (hdims : ∀ n ∈ shape, n < 2 ^ 63) :
    ((∃ r, resolve shape indices = .ok r) ↔ Numpy.Accepts shape indices) ∧
      ∀ r, resolve shape indices = .ok r →
        (Numpy.byAxis (Numpy.standing shape indices)).map Prod.snd = shape ∧
        List.Forall₂ Takes (Numpy.byAxis (Numpy.standing shape indices)) r.axes ∧
        r.outShape = Numpy.outShape shape indices := by
  refine ⟨resolve_isOk_iff_accepts hdims, ?_⟩
  intro r h
  obtain ⟨entries, hentries, hresolves⟩ := resolve_entries h
  obtain ⟨hconsumes, hone⟩ := expand_bounds hentries
  obtain ⟨ess, hess, rfl⟩ := expand_expands hentries
  refine ⟨byAxis_covered (complete_consumes hone hconsumes), ?_, resolve_outShape h⟩
  rw [hresolves.axes]
  exact axes_takes hess

/-- An integer and an index array on either side of an ellipsis that stands for an axis. -/
theorem resolve_matches_numpy_apart :
    Numpy.Accepts [3, 2, 4] [.single (-1), .ellipsis, .fancy [0, -4]] ∧
      Numpy.outShape [3, 2, 4] [.single (-1), .ellipsis, .fancy [0, -4]] = [2, 2] := by
  have hspec := resolve_matches_numpy [3, 2, 4] [.single (-1), .ellipsis, .fancy [0, -4]] (by decide)
  obtain ⟨r, hr⟩ : ∃ r, resolve [3, 2, 4] [.single (-1), .ellipsis, .fancy [0, -4]] = .ok r :=
    ⟨_, rfl⟩
  exact ⟨hspec.1.mp ⟨r, hr⟩, by decide⟩

end Accept

end Aex
