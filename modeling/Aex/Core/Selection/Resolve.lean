import Aex.Lib.Word
import Aex.Core.Error

/-!
# Selections resolved against a shape

Expanding the ellipsis, folding negative indices and filling in the axes that
were not mentioned gives one entry per position.  An index array makes the whole
selection advanced: it and every plain integer beside it form one group, walked
in step, which contributes one dimension to the result.
-/

namespace Aex

/-- One element of a selection, as numpy spells it. -/
inductive Index where
  | single (i : Int64)
  | slice (start stop step : Option Int64)
  | fancy (list : List Int64)
  | ellipsis
  | newAxis
  deriving Repr, DecidableEq

/-- Whether this consumes a source axis. -/
def Index.consumesAxis : Index → Bool
  | .ellipsis | .newAxis => false
  | _ => true

def Index.isFancy : Index → Bool
  | .fancy _ => true
  | _ => false

/-- Whether this joins the group once there is an index array. -/
def Index.joinsGroup : Index → Bool
  | .single _ | .fancy _ => true
  | _ => false

/-- What one source axis contributes. -/
inductive AxisSel where
  | point (index : Nat)
  | range (start len : Nat) (step : Int)
  | fancy (indices : List Nat)
  deriving Repr, DecidableEq

namespace AxisSel

/-- A whole axis of `dim` elements. -/
def whole (dim : Nat) : AxisSel := .range 0 dim 1

/-- How many indices it selects. -/
def len : AxisSel → Nat
  | .point _ => 1
  | .range _ len _ => len
  | .fancy indices => indices.length

/-- The length this axis contributes to the output shape, if it survives. -/
def outLen : AxisSel → Option Nat
  | .point _ => none
  | .range _ len _ => some len
  | .fancy indices => some indices.length

/-- The one run of consecutive ascending indices this selects, if it is one. -/
def asRun : AxisSel → Option (Nat × Nat)
  | .point index => some (index, 1)
  | .range start len step =>
      if len = 0 then some (0, 0)
      else if len = 1 then some (start, 1)
      else if step = 1 then some (start, len)
      else none
  | .fancy [] => some (0, 0)
  | .fancy (first :: rest) =>
      if rest.zipIdx.all fun (index, i) => Word.checkedAdd 64 first (i + 1) = some index then
        some (first, rest.length + 1)
      else none

end AxisSel

/-- The axes walked in step rather than independently. -/
structure Advanced where
  axes : List Nat
  len : Nat
  /-- Whether they sit next to each other in the selection. -/
  adjacent : Bool
  deriving Repr, DecidableEq

/-- A selection normalised against a shape. -/
structure ResolvedSelection where
  axes : List AxisSel
  outShape : List Nat
  advanced : Option Advanced
  deriving Repr, DecidableEq

/-- Number of elements selected, as 64-bit arithmetic has it. -/
def ResolvedSelection.numElements (r : ResolvedSelection) : Nat :=
  r.outShape.foldl (Word.wrappingMul 64) 1

theorem ResolvedSelection.numElements_eq {r : ResolvedSelection} :
    r.numElements = r.outShape.prod % Word.size 64 := by
  unfold ResolvedSelection.numElements
  rw [Word.foldl_wrappingMul (by decide), Nat.one_mul]

/-- One position in a selection, after the ellipsis has been expanded. -/
inductive Entry where
  | axis (sel : AxisSel) (advanced : Bool)
  | new
  deriving Repr, DecidableEq

/-- Fold a possibly negative index and check it against the axis. -/
def normalizeIndex (i : Int64) (dim : Int) (axis : Nat) : Except AexError Nat :=
  let folded := if i.toInt < 0 then Word.saturatingAddSigned 64 i.toInt dim else i.toInt
  if folded < 0 ∨ dim ≤ folded then
    .error (.badSelection s!"index {i} is out of bounds for axis {axis} with {dim} elements")
  else .ok folded.toNat

/-- Fold a slice bound and clamp it to the range of the direction of travel. -/
def clampBound (lower upper dim : Int) (bound : Int64) : Int :=
  let folded :=
    if bound.toInt < 0 then Word.saturatingAddSigned 64 bound.toInt dim else bound.toInt
  max lower (min folded upper)

/-- Resolve a slice the way Python's `slice.indices` does. -/
def resolveSlice (start stop step : Option Int64) (dim : Int) : Except AexError AxisSel :=
  let step := (step.map Int64.toInt).getD 1
  if step = 0 then .error (.badSelection "slice step cannot be 0")
  else
    -- Walking backwards can end at -1, one before the first element.
    let lower : Int := if 0 < step then 0 else -1
    let upper : Int := if 0 < step then dim else dim - 1
    let start : Int := match start with
      | some bound => clampBound lower upper dim bound
      | none => if 0 < step then 0 else dim - 1
    let stop : Int := match stop with
      | some bound => clampBound lower upper dim bound
      | none => if 0 < step then dim else -1
    let distance : Int := if 0 < step then stop - start else start - stop
    let len : Int := if 0 < distance then 1 + (distance - 1) / step.natAbs else 0
    if len = 0 then .ok (.range 0 0 step)
    else .ok (.range start.toNat len.toNat step)

/-- Normalise one index against one axis. -/
def resolveAxis (index : Index) (dim axis : Nat) : Except AexError AxisSel :=
  match Word.checkedToSigned 64 dim with
  | none =>
      .error (.badSelection s!"axis {axis} has {dim} elements, more than an index can address")
  | some dim =>
      match index with
      | .single i => (normalizeIndex i dim axis).map .point
      | .fancy list => (list.mapM fun i => normalizeIndex i dim axis).map .fancy
      | .slice start stop step => resolveSlice start stop step dim
      -- Handled by the caller: neither consumes an axis.
      | .ellipsis | .newAxis => .error (.badSelection "an index that does not consume an axis")

/-- The entries of the indices left, against the dimensions left. -/
def expandFrom (implied : Nat) (hasEllipsis hasArray : Bool) :
    List Index → List Nat → Nat → Except AexError (List Entry)
  | [], dims, _ =>
      .ok (if hasEllipsis then [] else (dims.take implied).map fun dim => .axis (.whole dim) false)
  | .newAxis :: rest, dims, axis => do
      let entries ← expandFrom implied hasEllipsis hasArray rest dims axis
      .ok (.new :: entries)
  | .ellipsis :: rest, dims, axis => do
      let entries ← expandFrom implied hasEllipsis hasArray rest (dims.drop implied) (axis + implied)
      .ok (((dims.take implied).map fun dim => .axis (.whole dim) false) ++ entries)
  | index :: rest, dims, axis => do
      let sel ← resolveAxis index (dims.headD 0) axis
      let entries ← expandFrom implied hasEllipsis hasArray rest dims.tail (axis + 1)
      .ok (.axis sel (hasArray && index.joinsGroup) :: entries)

/-- Expand the ellipsis and the axes the selection leaves out. -/
def expand (shape : List Nat) (indices : List Index) : Except AexError (List Entry) :=
  let consuming := indices.countP Index.consumesAxis
  if 1 < indices.count .ellipsis then
    .error (.badSelection "a selection may contain at most one ellipsis")
  else if shape.length < consuming then
    .error (.badSelection s!"too many indices for a {shape.length}-dimensional array: the selection names {consuming}")
  else
    expandFrom (shape.length - consuming) (indices.contains .ellipsis)
      (indices.any Index.isFancy) indices shape 0

/-- Broadcast the index arrays of an advanced group against each other: a
length of 1 meets anything, and everything else has to agree. -/
def broadcastLen (lengths : List Nat) : Except AexError Nat :=
  lengths.foldlM (fun result len =>
    if len = 1 then .ok result
    else if result ≠ 1 ∧ result ≠ len then
      .error (.badSelection s!"index arrays of lengths {lengths} cannot be broadcast together")
    else .ok len) 1

/-- The shape of the result.  The group contributes its one dimension where its
first axis was, or at the front when something came between its members. -/
def outShape (entries : List Entry) (advanced : Option Advanced) (first : Option Nat) : List Nat :=
  let front := match advanced with
    | some group => if group.adjacent then [] else [group.len]
    | none => []
  front ++ entries.zipIdx.flatMap fun (entry, position) =>
    match entry with
    | .new => [1]
    | .axis _ true =>
        match advanced with
        | some group => if group.adjacent ∧ some position = first then [group.len] else []
        | none => []
    | .axis sel false => sel.outLen.toList

namespace Entry

/-- What an entry says about its axis, if it consumes one. -/
def axis? : Entry → Option (AxisSel × Bool)
  | .axis sel advanced => some (sel, advanced)
  | .new => none

def isAdvanced : Entry → Bool
  | .axis _ advanced => advanced
  | .new => false

/-- The length of an index array of the group.  A plain integer broadcasts
against anything. -/
def listLen? : Entry → Option Nat
  | .axis (.fancy list) true => some list.length
  | _ => none

end Entry

/-- Normalise `indices` against `shape`. -/
def resolve (shape : List Nat) (indices : List Index) : Except AexError ResolvedSelection := do
  let entries ← expand shape indices
  let axes := entries.filterMap Entry.axis?
  let group := axes.zipIdx.filterMap fun ((_, advanced), axis) => if advanced then some axis else none
  let positions :=
    entries.zipIdx.filterMap fun (entry, position) => if entry.isAdvanced then some position else none
  let lengths := entries.filterMap Entry.listLen?
  let advanced ← if group = [] then .ok none else do
    let len ← broadcastLen lengths
    .ok (some ⟨group, len, (positions.zip positions.tail).all fun (a, b) => b = a + 1⟩)
  .ok ⟨axes.map Prod.fst, outShape entries advanced positions.head?, advanced⟩

end Aex
