import Mathlib.Data.List.GetD
import Aex.Core.Selection.Casts

/-!
# Numpy keys on their way to the wire

Only the spelling of a key changes on its way to the server, boolean masks apart: a mask
becomes one index array for each axis it covers.  Which axes those are is counted here,
and counted again where the key is resolved.
-/

namespace Aex

/-- An index as Python spells it. -/
inductive PyIndex where
  | int (i : Int)
  | slice (start stop step : Option Int)
  /-- A one-dimensional array of integers. -/
  | array (list : List Int)
  | ellipsis
  | none
  deriving Repr, DecidableEq

/-- A boolean array of at least one dimension.  Numpy counts dimensions in int64. -/
structure Mask where
  shape : List Nat
  bits : List Bool
  rank : shape ≠ []
  size : bits.length = shape.prod
  dims : ∀ n ∈ shape, n < 2 ^ 63
  deriving DecidableEq

/-- One entry of a key. -/
inductive KeyEntry where
  | plain (index : PyIndex)
  | mask (mask : Mask)
  deriving DecidableEq

inductive PyError where
  | index (message : String)
  | overflow
  | type (message : String)
  deriving Repr, DecidableEq

namespace Mask

/-- Where the mask is set, in C order. -/
def marked (mask : Mask) : List (List Nat) :=
  ((List.range mask.shape.prod).filter fun n => mask.bits.getD n false).map (Radix.coords mask.shape)

/-- The coordinates along one axis of where the mask is set. -/
def coordinates (mask : Mask) (axis : Nat) : List Int :=
  mask.marked.map fun pos => (pos.getD axis 0 : Int)

/-- The coordinates of where the mask is set, axis by axis. -/
def nonzero (mask : Mask) : List (List Int) :=
  (List.range mask.shape.length).map mask.coordinates

end Mask

/-- What goes into the key on the wire: `astype(np.int64)` wraps. -/
def PyIndex.converted : PyIndex → PyIndex
  | .array list => .array (list.map fun i => (Int64.ofInt i).toInt)
  | index => index

/-- How many axes an entry consumes. -/
def KeyEntry.width : KeyEntry → Nat
  | .plain .ellipsis | .plain .none => 0
  | .plain _ => 1
  | .mask m => m.shape.length

/-- How Python prints a shape. -/
def tupleRepr : List Nat → String
  | [n] => s!"({n},)"
  | ns => "(" ++ ", ".intercalate (ns.map toString) ++ ")"

/-- The entries left, from an axis on. -/
def toWireFrom (shape : List Nat) (implied : Nat) : List KeyEntry → Nat → Except PyError (List PyIndex)
  | [], _ => .ok []
  | .plain index :: rest, axis => do
      let axis := if index = .ellipsis then axis + implied else axis
      let wire ← toWireFrom shape implied rest (axis + (KeyEntry.plain index).width)
      .ok (index.converted :: wire)
  | .mask mask :: rest, axis =>
      let covered := (shape.drop axis).take mask.shape.length
      if mask.shape ≠ covered then
        .error (.index <| s!"boolean index of shape {tupleRepr mask.shape} does not match " ++
          s!"the indexed axes of shape {tupleRepr covered}")
      else do
        let wire ← toWireFrom shape implied rest (axis + mask.shape.length)
        .ok (mask.nonzero.map (fun i => (PyIndex.array i).converted) ++ wire)

/-- Turn a numpy key into what the server takes. -/
def toWire (key : List KeyEntry) (shape : List Nat) : Except PyError (List PyIndex) :=
  toWireFrom shape (shape.length - (key.map KeyEntry.width).sum) key 0

/-- A bound of a slice, as far as it fits an int64. -/
def boundFromPy (i : Int) : Except PyError Int64 :=
  if Word.signedMin 64 ≤ i ∧ i ≤ Word.signedMax 64 then .ok (Int64.ofInt i) else .error .overflow

def optBoundFromPy : Option Int → Except PyError (Option Int64)
  | .none => .ok .none
  | some i => (boundFromPy i).map some

def indexFromPy : PyIndex → Except PyError Index
  | .none => .ok .newAxis
  | .ellipsis => .ok .ellipsis
  | .slice start stop step => do
      let start ← optBoundFromPy start
      let stop ← optBoundFromPy stop
      let step ← optBoundFromPy step
      .ok (.slice start stop step)
  | .array list => .ok (.fancy (list.map Int64.ofInt))
  | .int i =>
      match boundFromPy i with
      | .ok i => .ok (.single i)
      | .error _ => .error (.type "cannot send int as an index")

def indicesFromPy (key : List PyIndex) : Except PyError (List Index) := key.mapM indexFromPy

/-! ## What a key means -/

/-- A key with each mask replaced by the coordinates of where it is set. -/
def KeyEntry.replaced : KeyEntry → List PyIndex
  | .plain index => [index.converted]
  | .mask m => m.nonzero.map fun i => (PyIndex.array i).converted

/-- The axis at which entry `k` of a key starts: an ellipsis stands for the axes that the
other entries leave over. -/
def axisOf (key : List KeyEntry) (ndim k : Nat) : Nat :=
  ((key.take k).map KeyEntry.width).sum +
    (key.take k).count (.plain .ellipsis) * (ndim - (key.map KeyEntry.width).sum)

/-- Every mask has the shape of the axes it covers. -/
def MasksFit (shape : List Nat) (key : List KeyEntry) : Prop :=
  ∀ k m, key[k]? = some (.mask m) →
    m.shape = (shape.drop (axisOf key shape.length k)).take m.shape.length

section ToWire

variable {shape : List Nat} {implied axis : Nat} {key : List KeyEntry} {wire : List PyIndex}

/-- How far an entry moves along the axes. -/
def KeyEntry.advance (implied : Nat) (entry : KeyEntry) : Nat :=
  entry.width + if entry = .plain .ellipsis then implied else 0

/-- The axes before entry `k`, counted from `axis` on. -/
def axisFrom (implied axis : Nat) (key : List KeyEntry) (k : Nat) : Nat :=
  axis + ((key.take k).map KeyEntry.width).sum + (key.take k).count (.plain .ellipsis) * implied

theorem axisFrom_zero : axisFrom implied axis key 0 = axis := by
  simp [axisFrom]

theorem axisFrom_cons {entry : KeyEntry} {k : Nat} :
    axisFrom implied axis (entry :: key) (k + 1) =
      axisFrom implied (axis + entry.advance implied) key k := by
  unfold axisFrom KeyEntry.advance
  rw [List.take_succ_cons, List.map_cons, List.sum_cons, List.count_cons]
  by_cases h : entry = .plain .ellipsis
  · simp only [h, beq_self_eq_true, if_true, Nat.add_mul]
    omega
  · have hne : (entry == .plain .ellipsis) = false := by simpa using h
    simp only [hne, if_neg h, Bool.false_eq_true, if_false, Nat.add_zero]
    omega

theorem axisFrom_add {k : Nat} : axisFrom implied axis key k = axis + axisFrom implied 0 key k := by
  unfold axisFrom
  omega

/-- What holds of the masks of a key holds of the first entry and of the others. -/
theorem forall_masks_cons {entry : KeyEntry} {P : Nat → Mask → Prop} :
    (∀ k m, (entry :: key)[k]? = some (.mask m) → P k m) ↔
      (∀ m, entry = .mask m → P 0 m) ∧ ∀ k m, key[k]? = some (.mask m) → P (k + 1) m := by
  constructor
  · intro h
    exact ⟨fun m hm => h 0 m (congrArg some hm), fun k m hk => h (k + 1) m hk⟩
  · intro h k m hk
    cases k with
    | zero => exact h.1 m (Option.some.inj hk)
    | succ k => exact h.2 k m hk

/-- A key goes on the wire exactly when its masks fit, each replaced by its coordinates. -/
theorem toWireFrom_eq_ok : toWireFrom shape implied key axis = .ok wire ↔
    (∀ k m, key[k]? = some (.mask m) →
      m.shape = (shape.drop (axisFrom implied axis key k)).take m.shape.length) ∧
    wire = key.flatMap KeyEntry.replaced := by
  induction key generalizing axis wire with
  | nil =>
      rw [toWireFrom]
      constructor
      · intro h
        cases h
        refine ⟨?_, rfl⟩
        intro k m hk
        cases k <;> cases hk
      · intro h
        rw [h.2]
        rfl
  | cons entry key ih =>
      rw [forall_masks_cons]
      cases entry with
      | plain index =>
          have hadvance : (if index = .ellipsis then axis + implied else axis) +
              (KeyEntry.plain index).width = axis + (KeyEntry.plain index).advance implied := by
            simp only [KeyEntry.advance, KeyEntry.plain.injEq]
            split <;> omega
          simp only [toWireFrom, Fallible.bind_eq_ok, ih, axisFrom_cons, hadvance]
          constructor
          · intro h
            obtain ⟨more, ⟨hfit, rfl⟩, h⟩ := h
            cases h
            refine ⟨⟨?_, hfit⟩, rfl⟩
            intro m hm
            cases hm
          · intro h
            obtain ⟨⟨-, hfit⟩, rfl⟩ := h
            exact ⟨_, ⟨hfit, rfl⟩, rfl⟩
      | mask m =>
          have hadvance : axis + (KeyEntry.mask m).advance implied = axis + m.shape.length := rfl
          simp only [toWireFrom, axisFrom_cons, axisFrom_zero, hadvance]
          constructor
          · intro h
            split at h
            · cases h
            rename_i hshape
            rw [not_not] at hshape
            obtain ⟨more, hmore, h⟩ := Fallible.bind_eq_ok.mp h
            cases h
            obtain ⟨hfit, rfl⟩ := ih.mp hmore
            refine ⟨⟨?_, hfit⟩, rfl⟩
            intro m' hm
            cases hm
            exact hshape
          · intro h
            obtain ⟨⟨hshape, hfit⟩, rfl⟩ := h
            rw [if_neg (not_not.mpr (hshape m rfl)), ih.mpr ⟨hfit, rfl⟩]
            rfl

theorem toWire_eq_ok : toWire key shape = .ok wire ↔
    MasksFit shape key ∧ wire = key.flatMap KeyEntry.replaced := by
  have haxis : ∀ k, axisFrom (shape.length - (key.map KeyEntry.width).sum) 0 key k =
      axisOf key shape.length k := by
    intro k
    rw [axisFrom, axisOf, Nat.zero_add]
  unfold MasksFit
  rw [toWire, toWireFrom_eq_ok]
  simp only [haxis]

end ToWire

/-! ## The key that is resolved -/

section Indices

variable {shape dims : List Nat} {implied axis a k : Nat} {indices more : List Index} {index : Index}
  {spelled : PyIndex} {wire : List PyIndex} {entry : KeyEntry} {key : List KeyEntry}

theorem indexFromPy_converted : indexFromPy spelled.converted = indexFromPy spelled := by
  cases spelled with
  | array list =>
      show Except.ok (Index.fancy _) = Except.ok (Index.fancy _)
      rw [List.map_map]
      congr 2
      exact List.map_congr_left fun i _ => Int64.ofInt_toInt _
  | int _ | slice _ _ _ | ellipsis | none => rfl

/-- An ellipsis and a new axis stay what they are, everything else consumes an axis. -/
theorem indexFromPy_cases (h : indexFromPy spelled = .ok index) :
    (spelled = .ellipsis ∧ index = .ellipsis) ∨ (spelled = .none ∧ index = .newAxis) ∨
      (spelled ≠ .ellipsis ∧ (KeyEntry.plain spelled).width = 1 ∧ index.consumesAxis = true) := by
  cases spelled with
  | ellipsis =>
      cases h
      exact .inl ⟨rfl, rfl⟩
  | none =>
      cases h
      exact .inr (.inl ⟨rfl, rfl⟩)
  | array list =>
      cases h
      exact .inr (.inr ⟨by simp, rfl, rfl⟩)
  | slice start stop step =>
      obtain ⟨start, -, h⟩ := Fallible.bind_eq_ok.mp h
      obtain ⟨stop, -, h⟩ := Fallible.bind_eq_ok.mp h
      obtain ⟨step, -, h⟩ := Fallible.bind_eq_ok.mp h
      cases h
      exact .inr (.inr ⟨by simp, rfl, rfl⟩)
  | int i =>
      unfold indexFromPy at h
      dsimp only at h
      split at h
      · cases h
        exact .inr (.inr ⟨by simp, rfl, rfl⟩)
      · cases h

theorem indicesFromPy_cons (h : indicesFromPy (spelled :: wire) = .ok indices) :
    ∃ index rest, indices = index :: rest ∧ indexFromPy spelled = .ok index ∧
      indicesFromPy wire = .ok rest := by
  rw [indicesFromPy, List.mapM_cons] at h
  obtain ⟨index, hindex, h⟩ := Fallible.bind_eq_ok.mp h
  obtain ⟨rest, hrest, h⟩ := Fallible.bind_eq_ok.mp h
  cases h
  exact ⟨index, rest, rfl, hindex, hrest⟩

theorem indicesFromPy_append {front back : List PyIndex}
    (h : indicesFromPy (front ++ back) = .ok indices) :
    ∃ first second, indices = first ++ second ∧ indicesFromPy front = .ok first ∧
      indicesFromPy back = .ok second := by
  induction front generalizing indices with
  | nil => exact ⟨[], indices, rfl, rfl, h⟩
  | cons spelled front ih =>
      obtain ⟨index, rest, rfl, hindex, hrest⟩ := indicesFromPy_cons h
      obtain ⟨first, second, rfl, hfirst, hsecond⟩ := ih hrest
      refine ⟨index :: first, second, rfl, ?_, hsecond⟩
      rw [indicesFromPy, List.mapM_cons, hindex]
      show (indicesFromPy front >>= _) = _
      rw [hfirst]
      rfl

theorem indicesFromPy_arrays {lists : List (List Int)}
    (h : indicesFromPy (lists.map fun i => (PyIndex.array i).converted) = .ok indices) :
    indices = lists.map fun i => .fancy (i.map Int64.ofInt) := by
  induction lists generalizing indices with
  | nil =>
      cases h
      rfl
  | cons list lists ih =>
      obtain ⟨index, rest, rfl, hindex, hrest⟩ := indicesFromPy_cons h
      rw [indexFromPy_converted] at hindex
      cases hindex
      rw [ih hrest]
      rfl

/-- What an entry says about the `a`-th axis that it consumes. -/
def KeyEntry.Names (a : Nat) (index : Index) : KeyEntry → Prop
  | .plain spelled => indexFromPy spelled = .ok index
  | .mask m => index = .fancy ((m.coordinates a).map Int64.ofInt)

/-- An entry of a key and the indices it turned into. -/
inductive TurnsInto : KeyEntry → List Index → Prop where
  | ellipsis : TurnsInto (.plain .ellipsis) [.ellipsis]
  | newAxis : TurnsInto (.plain .none) [.newAxis]
  | consumed {entry : KeyEntry} {indices : List Index} (hne : entry ≠ .plain .ellipsis)
      (hwidth : indices.length = entry.width) (hall : ∀ index ∈ indices, index.consumesAxis = true)
      (hnames : ∀ a index, indices[a]? = some index → entry.Names a index) : TurnsInto entry indices

theorem turnsInto_replaced (h : indicesFromPy entry.replaced = .ok indices) :
    TurnsInto entry indices := by
  cases entry with
  | mask m =>
      obtain rfl := indicesFromPy_arrays h
      refine .consumed (by simp) (by simp [Mask.nonzero, KeyEntry.width])
        (by simp [Index.consumesAxis]) ?_
      intro a index hindex
      rw [Mask.nonzero, List.map_map, List.getElem?_map, Option.map_eq_some_iff] at hindex
      obtain ⟨axis, haxis, rfl⟩ := hindex
      obtain ⟨hlt, rfl⟩ := List.getElem?_eq_some_iff.mp haxis
      rw [List.getElem_range]
      rfl
  | plain spelled =>
      obtain ⟨index, rest, rfl, hindex, hrest⟩ := indicesFromPy_cons h
      cases hrest
      rw [indexFromPy_converted] at hindex
      obtain ⟨rfl, rfl⟩ | ⟨rfl, rfl⟩ | ⟨hne, hwidth, hconsumes⟩ := indexFromPy_cases hindex
      · exact .ellipsis
      · exact .newAxis
      · refine .consumed (by simpa using hne) hwidth.symm (by simpa using hconsumes) ?_
        intro a index' ha
        obtain rfl := List.mem_singleton.mp (List.mem_of_getElem? ha)
        exact hindex

theorem TurnsInto.counts (h : TurnsInto entry indices) :
    indices.countP Index.consumesAxis = entry.width ∧
      indices.count .ellipsis = if entry = .plain .ellipsis then 1 else 0 := by
  cases h with
  | ellipsis => exact ⟨rfl, rfl⟩
  | newAxis => exact ⟨rfl, rfl⟩
  | consumed hne hwidth hall hnames =>
      rw [if_neg hne, List.countP_eq_length.mpr hall, List.count_eq_zero]
      refine ⟨hwidth, fun hmem => ?_⟩
      cases hall _ hmem

/-- Indices that consume axes stand for one each. -/
theorem byAxis_consumed (hall : ∀ index ∈ indices, index.consumesAxis = true) :
    Numpy.byAxis (Numpy.covered implied (indices ++ more) dims) =
      indices.zip dims ++ Numpy.byAxis (Numpy.covered implied more (dims.drop indices.length)) := by
  induction indices generalizing dims with
  | nil => rfl
  | cons index indices ih =>
      rw [List.forall_mem_cons] at hall
      have hfirst : Numpy.covered implied (index :: (indices ++ more)) dims =
          (index, dims.take 1) :: Numpy.covered implied (indices ++ more) (dims.drop 1) := by
        cases index with
        | single _ | slice _ _ _ | fancy _ => rfl
        | ellipsis | newAxis => cases hall.1
      rw [List.cons_append, hfirst, Numpy.byAxis, List.flatMap_cons]
      show _ ++ Numpy.byAxis _ = _
      rw [ih hall.2, List.drop_drop, List.length_cons, Nat.add_comm 1]
      cases dims with
      | nil => simp
      | cons n dims => rfl

/-- The axes of an entry come before those of the entries after it. -/
theorem TurnsInto.byAxis (h : TurnsInto entry indices) :
    ∃ own, own.length = min (entry.advance implied) dims.length ∧
      Numpy.byAxis (Numpy.covered implied (indices ++ more) dims) =
        own ++ Numpy.byAxis (Numpy.covered implied more (dims.drop (entry.advance implied))) ∧
      ∀ a < entry.width, a < dims.length → ∃ index, entry.Names a index ∧
        own[a]? = some (index, dims.getD a 0) := by
  cases h with
  | ellipsis =>
      refine ⟨(dims.take implied).map (Index.ellipsis, ·), ?_, ?_, ?_⟩
      · simp [KeyEntry.advance, KeyEntry.width]
      · simp [KeyEntry.advance, KeyEntry.width, Numpy.covered, Numpy.byAxis]
      · intro a ha
        cases ha
  | newAxis =>
      refine ⟨[], ?_, ?_, ?_⟩
      · simp [KeyEntry.advance, KeyEntry.width]
      · simp [KeyEntry.advance, KeyEntry.width, Numpy.covered, Numpy.byAxis]
      · intro a ha
        cases ha
  | consumed hne hwidth hall hnames =>
      have hadvance : entry.advance implied = indices.length := by
        rw [KeyEntry.advance, if_neg hne, hwidth, Nat.add_zero]
      refine ⟨indices.zip dims, ?_, ?_, ?_⟩
      · rw [hadvance, List.length_zip]
      · rw [hadvance, byAxis_consumed hall]
      · intro a ha hdims
        rw [← hwidth] at ha
        have hindex : indices[a]? = some indices[a] := List.getElem?_eq_getElem ha
        refine ⟨indices[a], hnames a _ hindex, ?_⟩
        rw [List.getElem?_zip_eq_some]
        refine ⟨hindex, ?_⟩
        rw [List.getD_eq_getElem?_getD, List.getElem?_eq_getElem hdims]
        rfl

/-- The indices of a key consume its axes and hold its ellipses. -/
theorem replaced_counts (h : indicesFromPy (key.flatMap KeyEntry.replaced) = .ok indices) :
    indices.countP Index.consumesAxis = (key.map KeyEntry.width).sum ∧
      indices.count .ellipsis = key.count (.plain .ellipsis) := by
  induction key generalizing indices with
  | nil =>
      cases h
      exact ⟨rfl, rfl⟩
  | cons entry key ih =>
      obtain ⟨first, rest, rfl, hfirst, hrest⟩ := indicesFromPy_append h
      obtain ⟨hconsumes, hellipsis⟩ := (turnsInto_replaced hfirst).counts
      obtain ⟨ihconsumes, ihellipsis⟩ := ih hrest
      rw [List.countP_append, List.count_append, hconsumes, hellipsis, ihconsumes, ihellipsis,
        List.map_cons, List.sum_cons, List.count_cons, Nat.add_comm (key.count _)]
      refine ⟨rfl, ?_⟩
      simp only [beq_iff_eq]

/-- Each entry of a key names the axes it consumes, wherever it stands. -/
theorem byAxis_entry (h : indicesFromPy (key.flatMap KeyEntry.replaced) = .ok indices)
    (hk : key[k]? = some entry) (ha : a < entry.width)
    (hlt : axisFrom implied 0 key k + a < dims.length) :
    ∃ index, entry.Names a index ∧
      (Numpy.byAxis (Numpy.covered implied (indices ++ more) dims))[axisFrom implied 0 key k + a]? =
        some (index, dims.getD (axisFrom implied 0 key k + a) 0) := by
  induction key generalizing k dims indices with
  | nil => simp at hk
  | cons first key ih =>
      obtain ⟨is, rest, rfl, his, hrest⟩ := indicesFromPy_append h
      obtain ⟨own, hown, hbyAxis, hnames⟩ :=
        @TurnsInto.byAxis dims implied is (rest ++ more) first (turnsInto_replaced his)
      rw [List.append_assoc, hbyAxis]
      cases k with
      | zero =>
          cases hk
          rw [axisFrom_zero, Nat.zero_add] at hlt ⊢
          obtain ⟨index, hindex, hget⟩ := hnames a ha hlt
          refine ⟨index, hindex, ?_⟩
          rw [List.getElem?_append_left (List.getElem?_eq_some_iff.mp hget).1, hget]
      | succ k =>
          rw [axisFrom_cons, axisFrom_add, Nat.zero_add] at hlt ⊢
          have hfull : own.length = first.advance implied := by omega
          obtain ⟨index, hindex, hget⟩ := @ih (dims.drop (first.advance implied)) k rest hrest hk
            (by rw [List.length_drop]; omega)
          refine ⟨index, hindex, ?_⟩
          rw [Nat.add_assoc, List.getElem?_append_right (by omega), hfull, Nat.add_sub_cancel_left, hget]
          simp [List.getD_eq_getElem?_getD]

/-- An entry's axes are among those of the array. -/
theorem axisOf_lt {ndim : Nat} (hk : key[k]? = some entry) (ha : a < entry.width)
    (hwidths : (key.map KeyEntry.width).sum ≤ ndim) (hone : key.count (.plain .ellipsis) ≤ 1) :
    axisOf key ndim k + a < ndim := by
  obtain ⟨hlt, rfl⟩ := List.getElem?_eq_some_iff.mp hk
  have hsum : ((key.take k).map KeyEntry.width).sum + key[k].width ≤ (key.map KeyEntry.width).sum := by
    conv_rhs => rw [← List.take_append_drop k key, List.drop_eq_getElem_cons hlt]
    rw [List.map_append, List.sum_append, List.map_cons, List.sum_cons]
    omega
  have hcount : (key.take k).count (.plain .ellipsis) ≤ 1 :=
    ((List.take_sublist k key).count_le _).trans hone
  have hleft := Nat.mul_le_mul_right (ndim - (key.map KeyEntry.width).sum) hcount
  unfold axisOf
  omega

end Indices

/-! ## What is selected -/

namespace Mask

/-- Where a mask is set lies inside it. -/
theorem marked_lt {m : Mask} {pos : List Nat} {a : Nat} (hpos : pos ∈ m.marked)
    (ha : a < m.shape.length) : pos.getD a 0 < m.shape.getD a 0 := by
  obtain ⟨n, hn, rfl⟩ := List.mem_map.mp hpos
  have hprod : n < m.shape.prod := List.mem_range.mp (List.mem_of_mem_filter hn)
  have hdims : ∀ d ∈ m.shape, 0 < d := by
    intro d hd
    by_contra hzero
    obtain rfl : d = 0 := by omega
    rw [List.prod_eq_zero hd] at hprod
    omega
  have hlen : a < (Radix.coords m.shape n).length := by rwa [Radix.length_coords]
  rw [List.getD_eq_getElem _ _ hlen, List.getD_eq_getElem _ _ ha]
  exact (Radix.coords_within hdims).get hlen ha

/-- The coordinates along an axis are taken there as positions. -/
theorem coordinates_taken (m : Mask) {a : Nat} (ha : a < m.shape.length) :
    Numpy.taken (m.shape.getD a 0) (.fancy ((m.coordinates a).map Int64.ofInt)) =
      some (m.marked.map fun pos => pos.getD a 0) := by
  unfold Numpy.taken Mask.coordinates
  rw [List.map_map, Fallible.mapM_eq_some, List.forall₂_map_left_iff, List.forall₂_map_right_iff,
    List.forall₂_same]
  intro pos hpos
  have hlt := marked_lt hpos ha
  have hdim : m.shape.getD a 0 < 2 ^ 63 := by
    rw [List.getD_eq_getElem _ _ ha]
    exact m.dims _ (List.getElem_mem ha)
  have htoInt : (Int64.ofInt (pos.getD a 0 : Int)).toInt = (pos.getD a 0 : Int) :=
    Int64.toInt_ofInt_of_le (by omega) (by omega)
  unfold Numpy.position
  simp only [Function.comp_apply, htoInt, if_neg (Int.not_lt.mpr (Int.natCast_nonneg _))]
  rw [if_pos ⟨by omega, by omega⟩, Int.toNat_natCast]

end Mask

/-- What a resolved key selects: every entry on its own axes, a mask as the positions
where it is set. -/
structure Selects (shape : List Nat) (key : List KeyEntry) (indices : List Index)
    (r : ResolvedSelection) : Prop where
  entries : ∀ k entry a, key[k]? = some entry → a < entry.width → ∃ index, entry.Names a index ∧
    (Numpy.byAxis (Numpy.standing shape indices))[axisOf key shape.length k + a]? =
      some (index, shape.getD (axisOf key shape.length k + a) 0)
  masks : ∀ k m a, key[k]? = some (.mask m) → a < m.shape.length →
    shape.getD (axisOf key shape.length k + a) 0 = m.shape.getD a 0 ∧
      Numpy.taken (m.shape.getD a 0) (.fancy ((m.coordinates a).map Int64.ofInt)) =
        some (m.marked.map fun pos => pos.getD a 0)
  axes : List.Forall₂ Takes (Numpy.byAxis (Numpy.standing shape indices)) r.axes
  outShape : r.outShape = Numpy.outShape shape indices
  elements : ∃ els, Numpy.selected shape indices = some els ∧ els.length = r.outShape.prod ∧
    ∀ build dtype quality L, SelectionLayout.resolve build shape dtype indices quality = .ok L →
      L.outShape = r.outShape ∧ L.Serves shape els

section Masks

variable {shape : List Nat} {key : List KeyEntry} {indices : List Index} {wire : List PyIndex}
  {r : ResolvedSelection}

theorem MasksFit.getD (h : MasksFit shape key) {k a : Nat} {m : Mask}
    (hk : key[k]? = some (.mask m)) (ha : a < m.shape.length) :
    shape.getD (axisOf key shape.length k + a) 0 = m.shape.getD a 0 := by
  have hfit := h k m hk
  rw [hfit] at ha
  conv_rhs => rw [hfit]
  rw [List.getD_eq_getElem _ _ ha]
  rw [List.length_take, List.length_drop] at ha
  rw [List.getD_eq_getElem _ _ (by omega)]
  simp

theorem selects_of_wire (hfit : MasksFit shape key)
    (h : indicesFromPy (key.flatMap KeyEntry.replaced) = .ok indices)
    (hr : resolve shape indices = .ok r) : Selects shape key indices r := by
  obtain ⟨entries, hentries, hresolves⟩ := resolve_entries hr
  obtain ⟨hconsumes, hone⟩ := expand_bounds hentries
  obtain ⟨ess, hess, rfl⟩ := expand_expands hentries
  obtain ⟨hcountP, hcount⟩ := replaced_counts h
  rw [hcountP] at hconsumes
  rw [hcount] at hone
  obtain ⟨more, hmore⟩ : ∃ more, Numpy.complete indices = indices ++ more := by
    unfold Numpy.complete
    split
    · exact ⟨[], (List.append_nil _).symm⟩
    · exact ⟨_, rfl⟩
  refine ⟨?_, fun k m a hk ha => ⟨hfit.getD hk ha, m.coordinates_taken ha⟩, ?_, resolve_outShape hr, ?_⟩
  · intro k entry a hk ha
    have haxis : axisFrom (shape.length - (key.map KeyEntry.width).sum) 0 key k =
        axisOf key shape.length k := by
      rw [axisFrom, axisOf, Nat.zero_add]
    have hlt := axisOf_lt hk ha hconsumes hone
    rw [← haxis] at hlt ⊢
    rw [Numpy.standing, hmore, hcountP]
    exact byAxis_entry h hk ha hlt
  · rw [hresolves.axes]
    exact axes_takes hess
  · obtain ⟨s, -, hselected, hlength⟩ := resolve_selected hr
    refine ⟨_, hselected, hlength, ?_⟩
    intro build dtype quality L hL
    obtain ⟨els, hels, hserves⟩ := SelectionLayout.resolve_serves hL
    obtain ⟨r', kind, hr', -, hkind, -⟩ := SelectionLayout.resolve_spec hL
    rw [hr] at hr'
    cases hr'
    rw [hselected] at hels
    cases hels
    exact ⟨by rw [hkind], hserves⟩

/-- Nothing but a mask is refused on the way to the wire. -/
theorem toWireFrom_error {implied axis : Nat} {e : PyError}
    (h : toWireFrom shape implied key axis = .error e) : ∃ message, e = .index message := by
  induction key generalizing axis with
  | nil => cases h
  | cons entry key ih =>
      cases entry with
      | plain index =>
          rw [toWireFrom] at h
          cases hrest : toWireFrom shape implied key
              ((if index = .ellipsis then axis + implied else axis) + (KeyEntry.plain index).width) with
          | error e' =>
              rw [hrest] at h
              cases h
              exact ih hrest
          | ok wire =>
              rw [hrest] at h
              cases h
      | mask m =>
          rw [toWireFrom] at h
          split at h
          · cases h
            exact ⟨_, rfl⟩
          cases hrest : toWireFrom shape implied key (axis + m.shape.length) with
          | error e' =>
              rw [hrest] at h
              cases h
              exact ih hrest
          | ok wire =>
              rw [hrest] at h
              cases h

/-- A key goes on the wire when its masks have the shape of the axes they cover, and
what resolves there is the key with each mask replaced by the coordinates of where it is set. -/
theorem toWire_masks (shape : List Nat) (key : List KeyEntry) :
    ((∃ message, toWire key shape = .error (.index message)) ↔ ¬ MasksFit shape key) ∧
      ∀ wire, toWire key shape = .ok wire → wire = key.flatMap KeyEntry.replaced ∧
        ∀ indices r, indicesFromPy wire = .ok indices → resolve shape indices = .ok r →
          Selects shape key indices r := by
  constructor
  · constructor
    · intro h hfit
      obtain ⟨message, h⟩ := h
      rw [toWire_eq_ok.mpr ⟨hfit, rfl⟩] at h
      cases h
    · intro hfit
      cases h : toWire key shape with
      | error e =>
          obtain ⟨message, rfl⟩ := toWireFrom_error h
          exact ⟨message, rfl⟩
      | ok wire => exact absurd (toWire_eq_ok.mp h).1 hfit
  · intro wire h
    obtain ⟨hfit, rfl⟩ := toWire_eq_ok.mp h
    exact ⟨rfl, fun indices r hindices hr => selects_of_wire hfit hindices hr⟩

/-- A mask over the last two axes, set in two places. -/
theorem toWire_masks_corners :
    ∃ r, resolve [2, 3, 2] [.ellipsis, .fancy [0, 2], .fancy [1, 0]] = .ok r ∧ r.outShape = [2, 2] ∧
      Selects [2, 3, 2] [.plain .ellipsis, .mask ⟨[3, 2], [false, true, false, false, true, false],
        by decide, by decide, by decide⟩] [.ellipsis, .fancy [0, 2], .fancy [1, 0]] r :=
  ⟨_, rfl, rfl, ((toWire_masks _ _).2 _ rfl).2 _ _ rfl rfl⟩

end Masks

end Aex
