import Aex.Lib.Grid
import Aex.Core.Selection.Resolve

/-!
# What numpy selects

Basic and advanced indexing over unbounded integers, stated from numpy's own
rules rather than from the code: slices are Python's, an index array draws the
plain integers into one group that is broadcast together, and the dimension of
the group goes first when its members are separated by a slice, an ellipsis or a
new axis.  An ellipsis separates even when it stands for no axis.
-/

namespace Aex.Numpy

/-- The position an integer names along an axis of `n` elements. -/
def position (n : Nat) (i : Int64) : Option Nat :=
  let folded : Int := if i.toInt < 0 then i.toInt + n else i.toInt
  if 0 ≤ folded ∧ folded < n then some folded.toNat else none

/-- A slice bound, folded and clipped to an axis of `n` elements. -/
def clip (step : Int) (n : Nat) (bound : Int64) : Int :=
  let folded : Int := if bound.toInt < 0 then bound.toInt + n else bound.toInt
  if folded < 0 then (if step < 0 then -1 else 0)
  else if n ≤ folded then (if step < 0 then n - 1 else n)
  else folded

/-- Where a slice starts on an axis of `n` elements. -/
def sliceStart (step : Int) (n : Nat) : Option Int64 → Int
  | some bound => clip step n bound
  | none => if step < 0 then n - 1 else 0

/-- Where a slice stops, exclusively, in its direction. -/
def sliceStop (step : Int) (n : Nat) : Option Int64 → Int
  | some bound => clip step n bound
  | none => if step < 0 then -1 else n

/-- The positions of a slice: `start + k * step` for as long as that has not
reached `stop`. -/
def positions (n : Nat) (start stop step : Option Int64) : Option (List Nat) :=
  let step := (step.map Int64.toInt).getD 1
  if step = 0 then none
  else
    let walk := (List.range n).map fun k : Nat => sliceStart step n start + k * step
    let stop := sliceStop step n stop
    some ((walk.takeWhile fun i => if step < 0 then stop < i else i < stop).map Int.toNat)

/-- What one index, or one axis of an ellipsis, contributes to the source element. -/
inductive Part where
  /-- A dimension of its own. -/
  | free (terms : List Nat)
  /-- An integer in a selection without index arrays. -/
  | fixed (term : Nat)
  /-- A member of the group. -/
  | member (terms : List Nat)
  deriving Repr, DecidableEq

namespace Part

/-- The terms along the dimension of its own, where an integer has one. -/
def own? : Part → Option (List Nat)
  | .free terms => some terms
  | .fixed term => some [term]
  | .member _ => none

def member? : Part → Option (List Nat)
  | .member terms => some terms
  | _ => none

end Part

/-- The first `k` axes whole.  An axis strides over the axes after it. -/
def wholes : Nat → List Nat → List Part
  | k + 1, n :: dims => .free ((List.range n).map (· * dims.prod)) :: wholes k dims
  | _, _ => []

/-- The parts of the indices against the axes left, where the ellipsis stands
for `implied` axes. -/
def parts (arrays : Bool) (implied : Nat) : List Index → List Nat → Option (List Part)
  | [], [] => some []
  | .newAxis :: rest, dims => (parts arrays implied rest dims).map (.free [0] :: ·)
  | .ellipsis :: rest, dims =>
      (parts arrays implied rest (dims.drop implied)).map (wholes implied dims ++ ·)
  | .single i :: rest, n :: dims => do
      let p ← position n i
      let more ← parts arrays implied rest dims
      some ((if arrays then .member [p * dims.prod] else .fixed (p * dims.prod)) :: more)
  | .slice start stop step :: rest, n :: dims => do
      let ps ← positions n start stop step
      let more ← parts arrays implied rest dims
      some (.free (ps.map (· * dims.prod)) :: more)
  | .fancy list :: rest, n :: dims => do
      let ps ← list.mapM (position n)
      let more ← parts arrays implied rest dims
      some (.member (ps.map (· * dims.prod)) :: more)
  | _, _ => none

/-- The terms of the group: its members walked in step, those of length 1
standing still. -/
def broadcast (members : List (List Nat)) : Option (List Nat) :=
  let len := ((members.map List.length).find? (· ≠ 1)).getD 1
  if members.all fun terms => terms.length = 1 ∨ terms.length = len then
    some ((List.range len).map fun k =>
      (members.map fun terms => terms.getD (if terms.length = 1 then 0 else k) 0).sum)
  else none

/-- The dimensions of a result, and where the first member of the group is. -/
structure Selected where
  before : List (List Nat)
  group : Option (List Nat)
  after : List (List Nat)
  deriving Repr, DecidableEq

/-- The parts put together, with the group's dimension where its first member is. -/
def assemble (parts : List Part) : Option Selected :=
  let members := parts.filterMap Part.member?
  let before := (parts.takeWhile fun part => part.member?.isNone).filterMap Part.own?
  let after := (parts.dropWhile fun part => part.member?.isNone).filterMap Part.own?
  if members = [] then some ⟨before, none, after⟩
  else (broadcast members).map fun group => ⟨before, some group, after⟩

/-- Numpy appends an ellipsis when there is none. -/
def complete (indices : List Index) : List Index :=
  if .ellipsis ∈ indices then indices else indices ++ [.ellipsis]

/-- What `arr[indices]` selects from an array of `shape`, or `none` where numpy
raises. -/
def select (shape : List Nat) (indices : List Index) : Option Selected :=
  let consuming := indices.countP Index.consumesAxis
  if shape.length < consuming ∨ 1 < indices.count .ellipsis then none
  else
    (parts (indices.any Index.isFancy) (shape.length - consuming) (complete indices) shape).bind
      assemble

/-- Whether the members of the group have something between them. -/
def separated (indices : List Index) : Bool :=
  ((indices.dropWhile (!·.joinsGroup)).dropWhile Index.joinsGroup).any Index.joinsGroup

namespace Selected

/-- The dimensions in order, the group's at the front or in its place. -/
def dims (front : Bool) (s : Selected) : List (List Nat) :=
  match s.group with
  | none => s.before ++ s.after
  | some group => if front then group :: (s.before ++ s.after) else s.before ++ group :: s.after

/-- The source element behind every element of the result, in C order. -/
def elements (front : Bool) (s : Selected) : List Nat := Grid.sums (s.dims front)

end Selected

/-- The source elements of `arr[indices]` in C order. -/
def elements (shape : List Nat) (indices : List Index) : Option (List Nat) :=
  (select shape indices).map (·.elements (separated indices))

/-- Two index arrays with an ellipsis that stands for nothing between them. -/
example : elements [2, 2, 2] [.slice none none none, .fancy [0, 1], .ellipsis, .fancy [0, 1]] =
    some [0, 4, 3, 7] := by decide

/-! ## What is accepted, and the shape of the result

Here the ellipsis separates the members of the group only where it stands for an
axis. -/

/-- The indices, each with the dimensions of the axes it stands for. -/
def covered (implied : Nat) : List Index → List Nat → List (Index × List Nat)
  | [], _ => []
  | .newAxis :: rest, dims => (.newAxis, []) :: covered implied rest dims
  | .ellipsis :: rest, dims =>
      (.ellipsis, dims.take implied) :: covered implied rest (dims.drop implied)
  | index :: rest, dims => (index, dims.take 1) :: covered implied rest (dims.drop 1)

/-- The indices of a selection with the axes they stand for. -/
def standing (shape : List Nat) (indices : List Index) : List (Index × List Nat) :=
  covered (shape.length - indices.countP Index.consumesAxis) (complete indices) shape

/-- For every source axis, the index that stands for it and its dimension. -/
def byAxis (items : List (Index × List Nat)) : List (Index × Nat) :=
  items.flatMap fun (index, dims) => dims.map (index, ·)

/-- An index is in range on an axis of `n` elements. -/
def InRange (n : Nat) : Index → Prop
  | .single i => -n ≤ i.toInt ∧ i.toInt < n
  | .fancy list => ∀ i ∈ list, -n ≤ i.toInt ∧ i.toInt < n
  | .slice _ _ step => (step.map Int64.toInt).getD 1 ≠ 0
  | .ellipsis | .newAxis => True

/-- The positions an index takes on an axis of `n` elements. -/
def taken (n : Nat) : Index → Option (List Nat)
  | .single i => (position n i).map fun p => [p]
  | .fancy list => list.mapM (position n)
  | .slice start stop step => positions n start stop step
  | .ellipsis | .newAxis => some (List.range n)

/-- The lengths of the index arrays. -/
def arrayLens (indices : List Index) : List Nat :=
  indices.filterMap fun | .fancy list => some list.length | _ => none

/-- The selections numpy accepts. -/
structure Accepts (shape : List Nat) (indices : List Index) : Prop where
  ellipsis : indices.count .ellipsis ≤ 1
  consumes : indices.countP Index.consumesAxis ≤ shape.length
  inRange : ∀ p ∈ byAxis (standing shape indices), InRange p.2 p.1
  broadcast : ∀ a ∈ arrayLens indices, ∀ b ∈ arrayLens indices, a ≠ 1 → b ≠ 1 → a = b

/-- The dimensions an index adds to the result by itself. -/
def ownDims : Index × List Nat → List Nat
  | (.newAxis, _) => [1]
  | (.slice start stop step, dims) => dims.map fun n => ((positions n start stop step).getD []).length
  | (.ellipsis, dims) => dims
  | (.single _, _) | (.fancy _, _) => []

/-- A slice, a new axis, or an ellipsis standing for axes. -/
def separates : Index × List Nat → Bool
  | (.slice _ _ _, _) | (.newAxis, _) => true
  | (.ellipsis, dims) => !dims.isEmpty
  | (.single _, _) | (.fancy _, _) => false

/-- Something separates two members of the group. -/
def lieApart (items : List (Index × List Nat)) : Bool :=
  ((items.dropWhile (!·.1.joinsGroup)).dropWhile (!separates ·)).any (·.1.joinsGroup)

/-- The shape of the result: the group's one dimension is where its first member is,
or at the front when its members lie apart. -/
def outShape (shape : List Nat) (indices : List Index) : List Nat :=
  let items := standing shape indices
  if indices.any Index.isFancy then
    let len := ((arrayLens indices).find? (· ≠ 1)).getD 1
    if lieApart items then len :: items.flatMap ownDims
    else (items.takeWhile (!·.1.joinsGroup)).flatMap ownDims ++
      len :: (items.dropWhile (!·.1.joinsGroup)).flatMap ownDims
  else items.flatMap ownDims

/-- The source elements behind the result, in the order that this shape gives them. -/
def selected (shape : List Nat) (indices : List Index) : Option (List Nat) :=
  (select shape indices).map (·.elements (lieApart (standing shape indices)))

end Aex.Numpy
