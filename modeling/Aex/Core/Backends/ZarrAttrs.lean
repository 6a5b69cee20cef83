import Mathlib.Algebra.BigOperators.Ring.List
import Aex.Core.Backends.ZarrMeta
import Aex.Lib.Endian
import Aex.Lib.Radix
import Aex.Lib.Vec

/-!
# The attributes of a Zarr node

JSON says nothing about element types and nothing about shapes.  An attribute is an
array if its lists nest like one: the shape is found on the way to the first leaf, and
every later list and leaf is held against it.
-/

namespace Aex

/-- The most one attribute may carry. -/
def maxAttrBytes : Nat := 64 * 2 ^ 10

/-- The value of an attribute: text, or numbers as the wire carries them. -/
inductive AttrValue where
  | text (text : String)
  /-- The data is little-endian, in C order; the shape of a scalar is empty. -/
  | array (dtype : DType) (shape : List Nat) (data : List UInt8)
  deriving Repr, DecidableEq

namespace Value

def isBoolean : Value → Bool
  | .bool _ => true
  | _ => false

def isNumber : Value → Bool
  | .number _ => true
  | _ => false

/-- The integer of a number, if a signed one of 64 bits holds it. -/
def asI64 : Value → Option Int
  | .number (.posInt n) => if n.toNat ≤ Word.signedMax 64 then some n.toNat else none
  | .number (.negInt i) => some i.toInt
  | _ => none

def asBool : Value → Option Bool
  | .bool b => some b
  | _ => none

def asF64 (f : Doubles) : Value → Option UInt64
  | .number n => f.asF64 n
  | _ => none

/-- A value of one element. -/
def isLeaf (value : Value) : Bool := value.isBoolean || value.isNumber

end Value

/-! ## Taking a value apart -/

/-- What has been found of the shape and the leaves of an array. -/
structure Flattened where
  shape : List Nat
  leaves : List Value
  leafDepth : Option Nat

/-- One leaf more, if it is as deep as those before it. -/
def Flattened.leaf (s : Flattened) (value : Value) (depth : Nat) : Option Flattened :=
  if s.leafDepth.getD depth ≠ depth then none
  else some { s with leaves := s.leaves ++ [value], leafDepth := some depth }

/-- The length of a list at `depth`, if it is that of the lists beside it.  A list further
down than the shape goes does not occur. -/
def Flattened.axis (s : Flattened) (depth len : Nat) : Option Flattened :=
  if depth = s.shape.length then some { s with shape := s.shape ++ [len] }
  else if s.shape[depth]? = some len then some s
  else none

mutual

/-- The shape and leaves of a rectangular JSON array, if it is one. -/
def flatten : Value → Nat → Flattened → Option Flattened
  | .array items, depth, s => (s.axis depth items.length).bind (flattenAll items (depth + 1))
  | .bool b, depth, s => s.leaf (.bool b) depth
  | .number n, depth, s => s.leaf (.number n) depth
  | _, _, _ => none

def flattenAll : List Value → Nat → Flattened → Option Flattened
  | [], _, s => some s
  | item :: items, depth, s => (flatten item depth s).bind (flattenAll items depth)

end

/-- The element type numpy would give the leaves. -/
def leafDType (leaves : List Value) : Option DType :=
  if leaves.all Value.isBoolean ∧ leaves ≠ [] then some .bool
  else if (leaves.all fun leaf => leaf.asI64.isSome) ∧ leaves ≠ [] then some .int64
  -- An empty array is one of doubles, as in numpy.
  else if leaves.all Value.isNumber then some .float64
  else none

def leafBytes (f : Doubles) (dtype : DType) (leaf : Value) : Option (List UInt8) :=
  match dtype with
  | .bool => leaf.asBool.map fun b => [if b then 1 else 0]
  | .int64 => leaf.asI64.map fun n => Endian.toLE 8 (Word.ofSigned 64 n)
  | _ => (leaf.asF64 f).map fun bits => Endian.toLE 8 bits.toNat

/-- Numbers or booleans as the wire carries them. -/
def attrArray (f : Doubles) (value : Value) : Option AttrValue := do
  let s ← flatten value 0 ⟨[], [], none⟩
  -- A leaf above or below the deepest axis means the array was ragged.
  if s.leafDepth.any (· ≠ s.shape.length) then none
  else do
    let dtype ← leafDType s.leaves
    if maxAttrBytes < s.leaves.length * dtype.itemsize then none
    else do
      let data ← s.leaves.mapM (leafBytes f dtype)
      some (.array dtype s.shape data.flatten)

/-- One attribute as the wire carries it, or `none` if it has no wire form. -/
def attrValue (f : Doubles) : Value → Option AttrValue
  | .string text => if text.utf8ByteSize ≤ maxAttrBytes then some (.text text) else none
  | value => attrArray f value

/-! ## Rectangular nestings -/

namespace Value

/-- Lists nested like an array of a shape.  An axis of length 0 has nothing below it. -/
def Nests : List Nat → Value → Prop
  | [], value => value.isLeaf = true
  | n :: shape, .array items =>
      items.length = n ∧ (n = 0 → shape = []) ∧ ∀ item ∈ items, Nests shape item
  | _ :: _, _ => False

/-- The element at a position. -/
def elementAt : Value → List Nat → Option Value
  | value, [] => some value
  | .array items, i :: pos => items[i]?.bind fun item => item.elementAt pos
  | _, _ :: _ => none

/-- The elements of a nesting in C order. -/
def elements : List Nat → Value → List Value
  | [], value => [value]
  | _ :: shape, .array items => items.flatMap (elements shape)
  | _ :: _, _ => []

/-- Every element of a nesting is of one kind. -/
def AllElements (p : Value → Bool) (shape : List Nat) (value : Value) : Prop :=
  ∀ pos, Radix.Within pos shape → ∃ leaf, value.elementAt pos = some leaf ∧ p leaf = true

variable {shape pos : List Nat} {value : Value} {p : Value → Bool} {n : Nat}

theorem length_elements (h : value.Nests shape) : (elements shape value).length = shape.prod := by
  induction shape generalizing value with
  | nil => rfl
  | cons n shape ih =>
      cases value with
      | array items =>
          obtain ⟨rfl, -, hitems⟩ := h
          exact Vec.length_flatMap_const fun item hitem => ih (hitems item hitem)
      | _ => exact h.elim

/-- The elements stand in C order. -/
theorem elements_getElem? (h : value.Nests shape) (hn : n < shape.prod) :
    (elements shape value)[n]? = value.elementAt (Radix.coords shape n) := by
  induction shape generalizing value n with
  | nil =>
      obtain rfl : n = 0 := Nat.lt_one_iff.mp hn
      rfl
  | cons m shape ih =>
      cases value with
      | array items =>
          obtain ⟨rfl, -, hitems⟩ := h
          rw [List.prod_cons] at hn
          have hpos : 0 < shape.prod := Nat.pos_of_mul_pos_left (Nat.lt_of_le_of_lt (Nat.zero_le n) hn)
          have hrow : n / shape.prod < items.length :=
            Nat.div_lt_of_lt_mul (by rwa [Nat.mul_comm] at hn)
          have hmod : n % shape.prod < shape.prod := Nat.mod_lt n hpos
          have hitem := hitems _ (List.getElem_mem hrow)
          have hcoords : Radix.coords shape n = Radix.coords shape (n % shape.prod) := by
            conv_lhs => rw [← Nat.div_add_mod' n shape.prod, Radix.coords_add_mul]
          rw [elements, ← Nat.div_add_mod' n shape.prod, Vec.getElem?_flatMap
            (fun item hitem => length_elements (hitems item hitem)) hrow hmod, ih hitem hmod,
            Nat.div_add_mod', Radix.coords, elementAt, Nat.mod_eq_of_lt hrow,
            List.getElem?_eq_getElem hrow, Option.bind_some, hcoords]
      | _ => exact h.elim

theorem allElements_iff (h : value.Nests shape) :
    value.AllElements p shape ↔ (elements shape value).all p = true := by
  rw [List.all_eq_true]
  constructor
  · intro hall leaf hleaf
    obtain ⟨n, hn, rfl⟩ := List.mem_iff_getElem.mp hleaf
    have hprod : n < shape.prod := by rwa [length_elements h] at hn
    have hdims : ∀ d ∈ shape, 0 < d := by
      intro d hd
      apply Nat.pos_of_ne_zero
      intro hzero
      rw [List.prod_eq_zero (hzero ▸ hd)] at hprod
      cases hprod
    obtain ⟨leaf, hleaf, hp⟩ := hall _ (Radix.coords_within hdims)
    rw [← elements_getElem? h hprod, List.getElem?_eq_getElem hn] at hleaf
    rwa [Option.some.inj hleaf]
  · intro hall pos hpos
    have hn := Radix.flat_lt hpos
    have helement := elements_getElem? h hn
    rw [Radix.coords_flat hpos, List.getElem?_eq_getElem (by rwa [length_elements h])] at helement
    exact ⟨_, helement.symm, hall _ (List.getElem_mem _)⟩

/-- A value is put together from the values in its lists. -/
theorem listInduction {P : Value → Prop} (array : ∀ items, (∀ item ∈ items, P item) → P (.array items))
    (other : ∀ value, (∀ items, value ≠ .array items) → P value) (value : Value) : P value := by
  refine @Value.rec P (fun items => ∀ item ∈ items, P item) (fun _ => True) (fun _ => True)
    ?_ ?_ ?_ ?_ ?_ ?_ ?_ ?_ ?_ ?_ ?_ value
  · exact other _ fun _ h => by cases h
  · exact fun b => other _ fun _ h => by cases h
  · exact fun n => other _ fun _ h => by cases h
  · exact fun s => other _ fun _ h => by cases h
  · exact array
  · exact fun fields _ => other _ fun _ h => by cases h
  · exact fun _ h => by cases h
  · exact fun item items hitem hitems => List.forall_mem_cons.mpr ⟨hitem, hitems⟩
  · exact trivial
  · exact fun _ _ _ _ => trivial
  · exact fun _ _ _ => trivial

end Value

/-! ## What is taken apart is a nesting -/

section Flatten

variable {f : Doubles} {value : Value} {items : List Value} {shape pre : List Nat}
  {s s' : Flattened} {depth len : Nat}

/-- What has been found so far goes into an array of a shape. -/
structure Flattened.Fits (s : Flattened) (shape : List Nat) : Prop where
  axes : s.shape <+: shape
  leafDepth : ∀ d, s.leafDepth = some d → d = shape.length

/-- All axes found so far but the last have something below them. -/
def Flattened.Deep (s : Flattened) : Prop := ∀ n ∈ s.shape.dropLast, 0 < n

/-- What goes on from a state to a later one. -/
structure Flattened.Leads (s s' : Flattened) : Prop where
  axes : s.shape <+: s'.shape
  leafDepth : ∀ d, s.leafDepth = some d → s'.leafDepth = some d

theorem Flattened.Leads.refl : s.Leads s := ⟨List.prefix_rfl, fun _ h => h⟩

theorem Flattened.Leads.trans {s'' : Flattened} (h : s.Leads s') (h' : s'.Leads s'') :
    s.Leads s'' :=
  ⟨h.axes.trans h'.axes, fun d hd => h'.leafDepth d (h.leafDepth d hd)⟩

theorem Flattened.Leads.fits (h : s.Leads s') (hfits : s'.Fits shape) : s.Fits shape :=
  ⟨h.axes.trans hfits.axes, fun d hd => hfits.leafDepth d (h.leafDepth d hd)⟩

theorem leaf_eq_some (h : s.leaf value depth = some s') : s.Leads s' ∧
    s'.leafDepth = some depth ∧ s'.shape = s.shape := by
  unfold Flattened.leaf at h
  split at h
  · cases h
  · rename_i hdepth
    cases h
    refine ⟨⟨List.prefix_rfl, ?_⟩, rfl, rfl⟩
    intro d hd
    rw [hd, Option.getD_some, not_not] at hdepth
    exact congrArg some hdepth.symm

theorem axis_eq_some (hle : depth ≤ s.shape.length) (h : s.axis depth len = some s') :
    s.Leads s' ∧ s'.shape[depth]? = some len ∧ s'.leafDepth = s.leafDepth ∧
      (s.Deep → (∀ n ∈ s.shape.take depth, 0 < n) → s'.Deep) := by
  unfold Flattened.axis at h
  split at h
  · rename_i hdepth
    subst hdepth
    cases h
    refine ⟨⟨List.prefix_append _ _, fun _ h => h⟩, List.getElem?_concat_length, rfl, ?_⟩
    intro _ habove n hn
    rw [List.take_length] at habove
    rw [List.dropLast_concat] at hn
    exact habove n hn
  split at h
  · rename_i hlen
    cases h
    exact ⟨.refl, hlen, rfl, fun hdeep _ => hdeep⟩
  · cases h

theorem take_eq_of_leading {xs ys : List Nat} (h : xs <+: ys) (hle : depth ≤ xs.length) :
    ys.take depth = xs.take depth := by
  obtain ⟨more, rfl⟩ := h
  rw [List.take_append_of_le_length hle]

/-- What taking a value apart says of it: whatever shape the array turns out to have, the
value nests like what is left of the shape below it. -/
def TakenApart (value : Value) : Prop :=
  ∀ depth s s', flatten value depth s = some s' → depth ≤ s.shape.length →
    (∀ n ∈ s.shape.take depth, 0 < n) → s.Leads s' ∧ (s.Deep → s'.Deep) ∧
      ∀ shape, s'.Fits shape → (∀ n ∈ shape.dropLast, 0 < n) → value.Nests (shape.drop depth)

theorem leaf_takenApart (hleaf : value.isLeaf = true)
    (hflatten : ∀ depth s, flatten value depth s = s.leaf value depth) : TakenApart value := by
  intro depth s s' h hle habove
  rw [hflatten] at h
  obtain ⟨hleads, hdepth, hshape⟩ := leaf_eq_some h
  refine ⟨hleads, ?_, ?_⟩
  · intro hdeep
    rwa [Flattened.Deep, hshape]
  · intro shape hfits _
    rw [List.drop_eq_nil_of_le (Nat.le_of_eq (hfits.leafDepth depth hdepth).symm)]
    exact hleaf

theorem flattenAll_sound (hitems : ∀ item ∈ items, TakenApart item)
    (h : flattenAll items depth s = some s') (hle : depth ≤ s.shape.length)
    (habove : items ≠ [] → ∀ n ∈ s.shape.take depth, 0 < n) :
    s.Leads s' ∧ (s.Deep → s'.Deep) ∧ ∀ shape, s'.Fits shape → (∀ n ∈ shape.dropLast, 0 < n) →
      ∀ item ∈ items, item.Nests (shape.drop depth) := by
  induction items generalizing s with
  | nil =>
      cases h
      exact ⟨.refl, id, fun _ _ _ item hitem => by cases hitem⟩
  | cons item items ih =>
      rw [List.forall_mem_cons] at hitems
      obtain ⟨between, hfirst, hrest⟩ := Option.bind_eq_some_iff.mp h
      have hpos := habove (List.cons_ne_nil item items)
      obtain ⟨hleads, hdeep, hnests⟩ := hitems.1 depth s between hfirst hle hpos
      have hlen := hleads.axes.length_le
      obtain ⟨hmore, hdeeper, hothers⟩ := ih hitems.2 hrest (by omega) (by
        intro _
        rwa [take_eq_of_leading hleads.axes hle])
      refine ⟨hleads.trans hmore, hdeeper ∘ hdeep, ?_⟩
      intro shape hfits hshape
      exact List.forall_mem_cons.mpr
        ⟨hnests shape (hmore.fits hfits) hshape, hothers shape hfits hshape⟩

theorem array_takenApart (hitems : ∀ item ∈ items, TakenApart item) :
    TakenApart (.array items) := by
  intro depth s s' h hle habove
  obtain ⟨between, haxis, hrest⟩ := Option.bind_eq_some_iff.mp h
  obtain ⟨hleads, hlen, -, hdeep⟩ := axis_eq_some hle haxis
  obtain ⟨hdepth, hget⟩ := List.getElem?_eq_some_iff.mp hlen
  obtain ⟨hmore, hdeeper, hothers⟩ := flattenAll_sound hitems hrest hdepth (by
    intro hne
    rw [List.take_add_one, hlen, take_eq_of_leading hleads.axes hle]
    intro n hn
    rcases List.mem_append.mp hn with hn | hn
    · exact habove n hn
    · rw [Option.toList_some, List.mem_singleton] at hn
      rw [hn]
      exact List.length_pos_iff.mpr hne)
  refine ⟨hleads.trans hmore, fun h => hdeeper (hdeep h habove), ?_⟩
  intro shape hfits hshape
  have haxes := hmore.axes.trans hfits.axes
  have hinside : depth < shape.length := Nat.lt_of_lt_of_le hdepth haxes.length_le
  have hhere : shape[depth] = items.length := by
    rw [← hget]
    exact (haxes.getElem hdepth).symm
  rw [List.drop_eq_getElem_cons hinside, hhere]
  refine ⟨rfl, ?_, hothers shape hfits hshape⟩
  -- An axis with others below it has something in it.
  intro hzero
  by_contra hne
  have hbelow : depth < shape.dropLast.length := by
    rw [List.length_dropLast]
    have : depth + 1 < shape.length := by
      by_contra hlast
      exact hne (List.drop_eq_nil_of_le (by omega))
    omega
  have hmem := List.getElem_mem hbelow
  rw [List.getElem_dropLast, hhere, hzero] at hmem
  exact Nat.lt_irrefl 0 (hshape 0 hmem)

theorem takenApart (value : Value) : TakenApart value := by
  induction value using Value.listInduction with
  | array items hitems => exact array_takenApart hitems
  | other value hvalue =>
      cases value with
      | bool b => exact leaf_takenApart rfl fun _ _ => rfl
      | number n => exact leaf_takenApart rfl fun _ _ => rfl
      | array items => exact (hvalue items rfl).elim
      | _ =>
          intro depth s s' h
          cases h

/-! ## A nesting is taken apart -/

/-- A value goes into an array whose axes from `depth` on have been found, or are its own
to find. -/
def GoesIn (shape : List Nat) (value : Value) : Prop :=
  ∀ pre s, s.shape = pre ∨ s.shape = pre ++ shape →
    (∀ d, s.leafDepth = some d → d = pre.length + shape.length) →
    ∃ s', flatten value pre.length s = some s' ∧ s'.shape = pre ++ shape ∧
      s'.leaves = s.leaves ++ value.elements shape ∧
      ∀ d, s'.leafDepth = some d → d = pre.length + shape.length

theorem leaf_goesIn (hflatten : ∀ depth s, flatten value depth s = s.leaf value depth) :
    GoesIn [] value := by
  intro pre s hshape hdepth
  have hsame : s.shape = pre := by
    rcases hshape with h | h
    · exact h
    · rwa [List.append_nil] at h
  have hleaf : s.leafDepth.getD pre.length = pre.length := by
    cases hd : s.leafDepth with
    | none => rfl
    | some d => exact hdepth d hd
  refine ⟨_, by rw [hflatten, Flattened.leaf, if_neg (not_not.mpr hleaf)], ?_, rfl, ?_⟩
  · rw [hsame, List.append_nil]
  · intro d hd
    exact (Option.some.inj hd).symm

theorem flattenAll_complete (hitems : ∀ item ∈ items, GoesIn shape item)
    (hshape : (s.shape = pre ∧ (items = [] → shape = [])) ∨ s.shape = pre ++ shape)
    (hdepth : ∀ d, s.leafDepth = some d → d = pre.length + shape.length) :
    ∃ s', flattenAll items pre.length s = some s' ∧ s'.shape = pre ++ shape ∧
      s'.leaves = s.leaves ++ items.flatMap (Value.elements shape) ∧
      ∀ d, s'.leafDepth = some d → d = pre.length + shape.length := by
  induction items generalizing s with
  | nil =>
      refine ⟨s, rfl, ?_, (List.append_nil _).symm, hdepth⟩
      rcases hshape with ⟨h, hnil⟩ | h
      · rw [h, hnil rfl, List.append_nil]
      · exact h
  | cons item items ih =>
      rw [List.forall_mem_cons] at hitems
      obtain ⟨between, hfirst, haxes, hleaves, hlater⟩ :=
        hitems.1 pre s (hshape.imp_left fun h => h.1) hdepth
      obtain ⟨s', hrest, hshape', hleaves', hdepth'⟩ := ih hitems.2 (.inr haxes) hlater
      refine ⟨s', ?_, hshape', ?_, hdepth'⟩
      · rw [flattenAll, hfirst, Option.bind_some, hrest]
      · rw [hleaves', hleaves, List.flatMap_cons, List.append_assoc]

theorem goesIn (h : value.Nests shape) : GoesIn shape value := by
  induction shape generalizing value with
  | nil =>
      cases value with
      | bool b => exact leaf_goesIn fun _ _ => rfl
      | number n => exact leaf_goesIn fun _ _ => rfl
      | _ => cases h
  | cons n shape ih =>
      cases value with
      | array items =>
          obtain ⟨rfl, hempty, hitems⟩ := h
          intro pre s hshape hdepth
          have haxis : ∃ between, s.axis pre.length items.length = some between ∧
              between.leaves = s.leaves ∧ between.leafDepth = s.leafDepth ∧
              ((between.shape = pre ++ [items.length] ∧ (items = [] → shape = [])) ∨
                between.shape = pre ++ [items.length] ++ shape) := by
            rcases hshape with rfl | hfound
            · exact ⟨_, if_pos rfl, rfl, rfl,
                .inl ⟨rfl, fun hnil => hempty (congrArg List.length hnil)⟩⟩
            · have hne : pre.length ≠ s.shape.length := by
                rw [hfound, List.length_append, List.length_cons]
                omega
              have hget : s.shape[pre.length]? = some items.length := by
                rw [hfound, List.getElem?_append_right (Nat.le_refl _), Nat.sub_self]
                rfl
              refine ⟨s, by rw [Flattened.axis, if_neg hne, if_pos hget], rfl, rfl, .inr ?_⟩
              rw [hfound, List.append_assoc, List.singleton_append]
          obtain ⟨between, haxis, hleaves, hsame, hbetween⟩ := haxis
          have hlength : (pre ++ [items.length]).length = pre.length + 1 := by simp
          obtain ⟨s', hall, hshape', hleaves', hdepth'⟩ := @flattenAll_complete items shape
            (pre ++ [items.length]) between (fun item hitem => ih (hitems item hitem)) hbetween (by
              intro d hd
              have := hdepth d (hsame ▸ hd)
              rw [List.length_cons] at this
              omega)
          refine ⟨s', ?_, ?_, ?_, ?_⟩
          · rw [flatten, haxis, Option.bind_some, ← hlength, hall]
          · rw [hshape', List.append_assoc, List.singleton_append]
          · rw [hleaves', hleaves]
            rfl
          · intro d hd
            have := hdepth' d hd
            rw [List.length_cons]
            omega
      | _ => exact h.elim

/-- The shape and the leaves that are found. -/
theorem flatten_eq_some (h : flatten value 0 ⟨[], [], none⟩ = some s)
    (hdepth : ∀ d, s.leafDepth = some d → d = s.shape.length) :
    value.Nests s.shape ∧ s.leaves = value.elements s.shape := by
  obtain ⟨hleads, hdeep, hnests⟩ := takenApart value 0 _ s h (Nat.le_refl 0) (by simp)
  have hnests := hnests s.shape ⟨List.prefix_rfl, hdepth⟩ (hdeep (by simp [Flattened.Deep]))
  obtain ⟨s', hs', -, hleaves, -⟩ := goesIn hnests [] ⟨[], [], none⟩ (.inl rfl)
    fun d hd => by cases hd
  obtain rfl := Option.some.inj (h.symm.trans hs')
  exact ⟨hnests, hleaves⟩

/-- A nesting is found to be one. -/
theorem flatten_of_nests (h : value.Nests shape) : ∃ s, flatten value 0 ⟨[], [], none⟩ = some s ∧
    (∀ d, s.leafDepth = some d → d = s.shape.length) ∧ s.shape = shape ∧
    s.leaves = value.elements shape := by
  obtain ⟨s, hs, hshape, hleaves, hdepth⟩ := goesIn h [] ⟨[], [], none⟩ (.inl rfl)
    fun d hd => by cases hd
  rw [List.nil_append] at hshape
  refine ⟨s, hs, ?_, hshape, hleaves⟩
  intro d hd
  rw [hshape]
  simpa using hdepth d hd

end Flatten

/-! ## Element types -/

section Leaves

variable {f : Doubles} {value leaf : Value} {leaves : List Value} {shape : List Nat} {dtype : DType}
  {data : List UInt8}

theorem isNumber_of_asI64 (h : leaf.asI64.isSome = true) : leaf.isNumber = true := by
  cases leaf with
  | number n => rfl
  | _ => cases h

theorem leafDType_bool (hall : leaves.all Value.isBoolean = true) (hne : leaves ≠ []) :
    leafDType leaves = some .bool :=
  if_pos ⟨hall, hne⟩

/-- The elements of a type that is found are of its kind, and their bytes are its own. -/
theorem leafDType_spec (hf : ∀ n, (f.asF64 n).isSome = true) (h : leafDType leaves = some dtype) :
    (dtype = .bool ∧ leaves.all Value.isBoolean = true ∨
      dtype.itemsize = 8 ∧ leaves.all Value.isNumber = true) ∧
    ∀ leaf ∈ leaves, ∃ bytes, leafBytes f dtype leaf = some bytes := by
  unfold leafDType at h
  split at h
  · rename_i hbool
    cases h
    refine ⟨.inl ⟨rfl, hbool.1⟩, ?_⟩
    intro leaf hleaf
    have hkind := List.all_eq_true.mp hbool.1 leaf hleaf
    cases leaf with
    | bool b => exact ⟨_, rfl⟩
    | _ => cases hkind
  split at h
  · rename_i hint
    cases h
    refine ⟨.inr ⟨rfl, ?_⟩, ?_⟩
    · exact List.all_eq_true.mpr fun leaf hleaf =>
        isNumber_of_asI64 (List.all_eq_true.mp hint.1 leaf hleaf)
    · intro leaf hleaf
      obtain ⟨n, hn⟩ := Option.isSome_iff_exists.mp (List.all_eq_true.mp hint.1 leaf hleaf)
      exact ⟨_, by rw [leafBytes, hn, Option.map_some]⟩
  split at h
  · rename_i hnumber
    cases h
    refine ⟨.inr ⟨rfl, hnumber⟩, ?_⟩
    intro leaf hleaf
    have hkind := List.all_eq_true.mp hnumber leaf hleaf
    cases leaf with
    | number n =>
        obtain ⟨bits, hbits⟩ := Option.isSome_iff_exists.mp (hf n)
        exact ⟨_, congrArg (Option.map fun bits => Endian.toLE 8 (UInt64.toNat bits)) hbits⟩
    | _ => cases hkind
  · cases h

/-- Leaves of one kind have a type, and one of 8 bytes if they are numbers. -/
theorem leafDType_isSome (h : leaves.all Value.isBoolean = true ∨ leaves.all Value.isNumber = true) :
    ∃ dtype, leafDType leaves = some dtype := by
  unfold leafDType
  split
  · exact ⟨_, rfl⟩
  split
  · exact ⟨_, rfl⟩
  split
  · exact ⟨_, rfl⟩
  · rename_i hbool _ hnumber
    rcases h with h | h
    · -- Without leaves, they are all numbers.
      have hnil : leaves = [] := by
        by_contra hne
        exact hbool ⟨h, hne⟩
      rw [hnil] at hnumber
      exact (hnumber rfl).elim
    · exact (hnumber h).elim

/-- The bytes of the leaves are within the cap. -/
theorem leafDType_cap (hf : ∀ n, (f.asF64 n).isSome = true) :
    (∃ dtype, leafDType leaves = some dtype ∧ leaves.length * dtype.itemsize ≤ maxAttrBytes) ↔
      leaves.all Value.isBoolean = true ∧ leaves.length ≤ maxAttrBytes ∨
      leaves.all Value.isNumber = true ∧ leaves.length * 8 ≤ maxAttrBytes := by
  constructor
  · intro h
    obtain ⟨dtype, hdtype, hcap⟩ := h
    rcases (leafDType_spec hf hdtype).1 with ⟨rfl, hall⟩ | ⟨hsize, hall⟩
    · exact .inl ⟨hall, by rwa [show DType.itemsize .bool = 1 from rfl, Nat.mul_one] at hcap⟩
    · exact .inr ⟨hall, by rwa [hsize] at hcap⟩
  · intro h
    obtain ⟨dtype, hdtype⟩ := leafDType_isSome (h.imp And.left And.left)
    refine ⟨dtype, hdtype, ?_⟩
    by_cases hne : leaves = []
    · rw [hne, List.length_nil, Nat.zero_mul]
      exact Nat.zero_le _
    rcases h with ⟨hall, hcap⟩ | ⟨hall, hcap⟩
    · obtain rfl := Option.some.inj ((leafDType_bool hall hne).symm.trans hdtype)
      rwa [show DType.itemsize .bool = 1 from rfl, Nat.mul_one]
    · rcases (leafDType_spec hf hdtype).1 with ⟨rfl, -⟩ | ⟨hsize, -⟩
      · rw [show DType.itemsize .bool = 1 from rfl]
        omega
      · rwa [hsize]

theorem length_leafBytes {bytes : List UInt8} (hsize : dtype = .bool ∨ dtype.itemsize = 8)
    (h : leafBytes f dtype leaf = some bytes) : bytes.length = dtype.itemsize := by
  unfold leafBytes at h
  split at h
  · obtain ⟨b, -, rfl⟩ := Option.map_eq_some_iff.mp h
    rfl
  · obtain ⟨n, -, rfl⟩ := Option.map_eq_some_iff.mp h
    exact Endian.length_toLE
  · rename_i hbool _
    obtain ⟨bits, -, rfl⟩ := Option.map_eq_some_iff.mp h
    rw [hsize.resolve_left hbool]
    exact Endian.length_toLE

/-- When an attribute is an array, and of what. -/
theorem attrArray_iff : attrArray f value = some (.array dtype shape data) ↔
    value.Nests shape ∧ leafDType (value.elements shape) = some dtype ∧
      (value.elements shape).length * dtype.itemsize ≤ maxAttrBytes ∧
      ∃ pieces, (value.elements shape).mapM (leafBytes f dtype) = some pieces ∧
        data = pieces.flatten := by
  constructor
  · intro h
    obtain ⟨s, hs, h⟩ := Option.bind_eq_some_iff.mp h
    split at h
    · cases h
    rename_i hragged
    obtain ⟨hnests, hleaves⟩ := flatten_eq_some hs (by
      intro d hd
      by_contra hne
      exact hragged (by rw [hd, Option.any_some, decide_eq_true hne]))
    obtain ⟨chosen, hdtype, h⟩ := Option.bind_eq_some_iff.mp h
    split at h
    · cases h
    rename_i hcap
    obtain ⟨pieces, hpieces, h⟩ := Option.bind_eq_some_iff.mp h
    cases h
    rw [← hleaves]
    exact ⟨hnests, hdtype, Nat.not_lt.mp hcap, pieces, hpieces, rfl⟩
  · intro h
    obtain ⟨hnests, hdtype, hcap, pieces, hpieces, rfl⟩ := h
    obtain ⟨s, hs, hdepth, rfl, hleaves⟩ := flatten_of_nests hnests
    rw [← hleaves] at hdtype hcap hpieces
    have hwhole : ¬ s.leafDepth.any (· ≠ s.shape.length) = true := by
      intro hragged
      cases hd : s.leafDepth with
      | none =>
          rw [hd] at hragged
          cases hragged
      | some d =>
          rw [hd, Option.any_some] at hragged
          exact of_decide_eq_true hragged (hdepth d hd)
    rw [attrArray, hs, Option.bind_eq_bind, Option.bind_some, if_neg hwhole, hdtype,
      Option.bind_eq_bind, Option.bind_some, if_neg (Nat.not_lt.mpr hcap), hpieces]
    rfl

theorem attrValue_eq (hvalue : ∀ text, value ≠ .string text) :
    attrValue f value = attrArray f value := by
  cases value with
  | string text => exact (hvalue text rfl).elim
  | _ => rfl

/-- An attribute is an array exactly when it nests like one, its elements are all booleans
or all numbers, and their bytes are within the cap. -/
theorem attrArray_isArray (hf : ∀ n, (f.asF64 n).isSome = true) :
    (∃ dtype shape data, attrArray f value = some (.array dtype shape data)) ↔
      ∃ shape, value.Nests shape ∧
        (value.AllElements Value.isBoolean shape ∧ shape.prod ≤ maxAttrBytes ∨
          value.AllElements Value.isNumber shape ∧ shape.prod * 8 ≤ maxAttrBytes) := by
  constructor
  · intro h
    obtain ⟨dtype, shape, data, h⟩ := h
    obtain ⟨hnests, hdtype, hcap, -⟩ := attrArray_iff.mp h
    have hkind := (leafDType_cap hf).mp ⟨dtype, hdtype, hcap⟩
    rw [Value.length_elements hnests, ← Value.allElements_iff hnests,
      ← Value.allElements_iff hnests] at hkind
    exact ⟨shape, hnests, hkind⟩
  · intro h
    obtain ⟨shape, hnests, hkind⟩ := h
    rw [Value.allElements_iff hnests, Value.allElements_iff hnests,
      ← Value.length_elements hnests] at hkind
    obtain ⟨dtype, hdtype, hcap⟩ := (leafDType_cap hf).mpr hkind
    obtain ⟨pieces, hpieces⟩ := Fallible.mapM_isSome (leafDType_spec hf hdtype).2
    exact ⟨dtype, shape, _, attrArray_iff.mpr ⟨hnests, hdtype, hcap, pieces, hpieces, rfl⟩⟩

/-- The data of an array is as long as its shape says, with the elements in C order. -/
theorem attrArray_data (hf : ∀ n, (f.asF64 n).isSome = true)
    (h : attrArray f value = some (.array dtype shape data)) :
    value.Nests shape ∧ data.length = shape.prod * dtype.itemsize ∧
    ∀ n < shape.prod, ∃ leaf, value.elementAt (Radix.coords shape n) = some leaf ∧
      leafBytes f dtype leaf = some (Vec.slice data (n * dtype.itemsize) dtype.itemsize) := by
  obtain ⟨hnests, hdtype, -, pieces, hpieces, rfl⟩ := attrArray_iff.mp h
  have hpaired := Fallible.mapM_eq_some.mp hpieces
  have hsize : dtype = .bool ∨ dtype.itemsize = 8 :=
    (leafDType_spec hf hdtype).1.imp And.left And.left
  have hlen : ∀ piece ∈ pieces, piece.length = dtype.itemsize := by
    intro piece hpiece
    obtain ⟨i, hi, rfl⟩ := List.mem_iff_getElem.mp hpiece
    exact length_leafBytes hsize (hpaired.get (by rwa [hpaired.length_eq]) hi)
  have hcount : pieces.length = shape.prod := by
    rw [← hpaired.length_eq, Value.length_elements hnests]
  rw [← List.flatMap_id']
  refine ⟨hnests, ?_, ?_⟩
  · rw [Vec.length_flatMap_const hlen, hcount]
  · intro n hn
    have hin : n < (value.elements shape).length := by rwa [Value.length_elements hnests]
    have hpiece : n < pieces.length := by rwa [hcount]
    refine ⟨(value.elements shape)[n], ?_, ?_⟩
    · rw [← Value.elements_getElem? hnests hn, List.getElem?_eq_getElem hin]
    · rw [Vec.slice_flatMap_one hlen hpiece]
      exact hpaired.get hin hpiece

theorem attrArray_le_cap (hf : ∀ n, (f.asF64 n).isSome = true)
    (h : attrArray f value = some (.array dtype shape data)) : data.length ≤ maxAttrBytes := by
  obtain ⟨hnests, -, hcap, -⟩ := attrArray_iff.mp h
  rwa [(attrArray_data hf h).2.1, ← Value.length_elements hnests]

end Leaves

end Aex
