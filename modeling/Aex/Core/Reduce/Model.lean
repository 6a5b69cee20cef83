import Aex.Core.Backends.Chunks
import Aex.Core.Selection.Layout
import Aex.Lib.Endian
import Aex.Lib.Ieee
import Aex.Lib.Vec

/-!
# numpy reductions over a selection

The selection is read in blocks and folded into one accumulator per output element.
Floating-point numbers are compared as their bits say; their arithmetic is a parameter.
Whether the program was built to check its integer arithmetic is another.
-/

namespace Aex

namespace Reduce

inductive Function where
  | sum
  | prod
  | mean
  | max
  | min
  | std
  | var
  | all
  | any
  | argmax
  | argmin
  | nanSum
  | nanMean
  | nanMax
  | nanMin
  deriving Repr, DecidableEq

namespace Function

/-- The numpy name, such as `nanmax`. -/
def fromName : String → Option Function
  | "sum" => some .sum
  | "prod" => some .prod
  | "mean" => some .mean
  | "max" | "amax" => some .max
  | "min" | "amin" => some .min
  | "std" => some .std
  | "var" => some .var
  | "all" => some .all
  | "any" => some .any
  | "argmax" => some .argmax
  | "argmin" => some .argmin
  | "nansum" => some .nanSum
  | "nanmean" => some .nanMean
  | "nanmax" => some .nanMax
  | "nanmin" => some .nanMin
  | _ => none

def debug : Function → String
  | .sum => "Sum"
  | .prod => "Prod"
  | .mean => "Mean"
  | .max => "Max"
  | .min => "Min"
  | .std => "Std"
  | .var => "Var"
  | .all => "All"
  | .any => "Any"
  | .argmax => "Argmax"
  | .argmin => "Argmin"
  | .nanSum => "NanSum"
  | .nanMean => "NanMean"
  | .nanMax => "NanMax"
  | .nanMin => "NanMin"

/-- A bool or an integer type. -/
def integral : DType → Bool
  | .bool | .int8 | .int16 | .int32 | .int64 | .uint8 | .uint16 | .uint32 | .uint64 => true
  | _ => false

/-- The type numpy gives the result. -/
def resultDtype (function : Function) (input : DType) : DType :=
  match function with
  | .sum | .prod | .nanSum =>
      match input with
      | .bool | .int8 | .int16 | .int32 | .int64 => .int64
      | .uint8 | .uint16 | .uint32 | .uint64 => .uint64
      | other => other
  | .mean | .nanMean => if integral input then .float64 else input
  | .std | .var =>
      match input with
      | .float16 | .float32 | .float64 => input
      | .complex64 => .float32
      | _ => .float64
  | .max | .min | .nanMax | .nanMin => input
  | .all | .any => .bool
  | .argmax | .argmin => .int64

/-- Whether an empty reduction has no answer. -/
def needsAnElement : Function → Bool
  | .max | .min | .nanMax | .nanMin | .argmax | .argmin => true
  | _ => false

end Function

/-- numpy's `axis` argument: `None`, one axis or a tuple. -/
inductive Axis where
  | all
  | one (axis : Int64)
  | many (axes : List Int64)
  deriving DecidableEq

structure ReduceArgs where
  axis : Axis
  keepdims : Bool
  /-- For `std` and `var`. -/
  ddof : Int64
  deriving DecidableEq

/-- A result, as C-order little-endian bytes. -/
structure Reduced where
  dtype : DType
  shape : List Nat
  data : List UInt8
  deriving Repr, DecidableEq

/-! ## Axes -/

/-- Mark one axis, which may count from the end. -/
def reduceAxis (ndim : Nat) (reduced : List Bool) (a : Int64) : Except AexError (List Bool) :=
  let d := if a < 0 then a.toInt + ndim else a.toInt
  if d < 0 ∨ (ndim : Int) ≤ d then
    .error (.badFunction s!"axis {a} is out of bounds for array of dimension {ndim}")
  else if reduced.getD d.toNat false then .error (.badFunction s!"repeated axis {a}")
  else .ok (reduced.set d.toNat true)

/-- Which axes `axis` reduces, checked as numpy checks them. -/
def reducedAxes (ndim : Nat) (axis : Axis) (function : Function) : Except AexError (List Bool) :=
  match axis with
  | .all => .ok (List.replicate ndim true)
  | .one a => reduceAxis ndim (List.replicate ndim false) a
  | .many axes =>
      if function = .argmax ∨ function = .argmin then
        .error (.badFunction "argmax and argmin take a single axis, not a tuple")
      else axes.foldlM (reduceAxis ndim) (List.replicate ndim false)

/-- Per axis, how far a step moves the output cell, and how many cells there are. -/
def strides (checks : Bool) : List Nat → List Bool → Option (List Nat × Nat)
  | len :: shape, reduced :: mask => do
      let (stride, cells) ← strides checks shape mask
      if reduced then some (0 :: stride, cells)
      else do
        let more ← Word.mul checks 64 cells len
        some (cells :: stride, more)
  | _, _ => some ([], 1)

/-- The shape of the result. -/
def outShape (keepdims : Bool) : List Nat → List Bool → List Nat
  | len :: shape, reduced :: mask =>
      if reduced then if keepdims then 1 :: outShape keepdims shape mask else outShape keepdims shape mask
      else len :: outShape keepdims shape mask
  | _, _ => []

/-- The elements behind one cell. -/
def perCell (checks : Bool) (shape : List Nat) (reduced : List Bool) : Option Nat :=
  ((shape.zip reduced).filter Prod.snd).foldlM (fun n (len, _) => Word.mul checks 64 n len) 1

/-! ## Elements -/

/-- The arithmetic of double-precision numbers, and what they are in other formats. -/
structure Arith (ν : Type) where
  ofNat : Nat → ν
  ofInt : Int → ν
  /-- The number some bits of a format are. -/
  ofBits : Ieee.Format → Nat → ν
  add : ν → ν → ν
  sub : ν → ν → ν
  mul : ν → ν → ν
  div : ν → ν → ν
  sqrt : ν → ν
  half : ν → Vector UInt8 2
  single : ν → Vector UInt8 4
  double : ν → Vector UInt8 8

/-- An element as the reductions see it. -/
structure Elem (ν α : Type) where
  size : Nat
  read : List UInt8 → α
  write : α → List UInt8
  /-- Real and imaginary parts. -/
  parts : α → ν × ν
  /-- Sign-extended bits; none for the floating types. -/
  intBits : Option (α → Nat)
  isNan : α → Bool
  truthy : α → Bool
  ge : α → α → Bool
  le : α → α → Bool
  /-- Whether argmax moves to the first from the second. -/
  argGt : α → α → Bool
  argLt : α → α → Bool

section Elements

variable {ν : Type} (F : Arith ν)

/-- The integers of `size` bytes. -/
def intElem (size : Nat) (signed : Bool) : Elem ν Int where
  size := size
  read bytes :=
    if signed then Word.toSigned (8 * size) (Endian.ofLE bytes) else (Endian.ofLE bytes : Int)
  write x := Endian.toLE size (Word.ofSigned (8 * size) x)
  parts x := (F.ofInt x, F.ofNat 0)
  intBits := some (Word.ofSigned 64)
  isNan _ := false
  truthy x := x ≠ 0
  ge x y := y ≤ x
  le x y := x ≤ y
  argGt x best := best < x
  argLt x best := x < best

def i8Elem : Elem ν Int := intElem F 1 true
def i16Elem : Elem ν Int := intElem F 2 true
def i32Elem : Elem ν Int := intElem F 4 true
def i64Elem : Elem ν Int := intElem F 8 true
def u8Elem : Elem ν Int := intElem F 1 false
def u16Elem : Elem ν Int := intElem F 2 false
def u32Elem : Elem ν Int := intElem F 4 false
def u64Elem : Elem ν Int := intElem F 8 false

def boolElem : Elem ν Bool where
  size := 1
  read bytes := bytes.headD 0 ≠ 0
  write x := [UInt8.ofNat x.toNat]
  parts x := (F.ofNat x.toNat, F.ofNat 0)
  intBits := some Bool.toNat
  isNan _ := false
  truthy x := x
  ge x y := x || !y
  le x y := !x || y
  argGt x best := x && !best
  argLt x best := !x && best

/-- The floating-point numbers of a format, as their bits. -/
def floatElem (f : Ieee.Format) : Elem ν Nat where
  size := f.bytes
  read := Endian.ofLE
  write := Endian.toLE f.bytes
  parts x := (F.ofBits f x, F.ofNat 0)
  intBits := none
  isNan := f.isNan
  truthy x := !f.eq x 0
  ge x y := f.le y x
  le x y := f.le x y
  -- Written as numpy writes them, so that NaN counts as an extreme.
  argGt x best := !f.le x best
  argLt x best := !f.le best x

def f16Elem : Elem ν Nat := floatElem F .half
def f32Elem : Elem ν Nat := floatElem F .single
def f64Elem : Elem ν Nat := floatElem F .double

/-- Two of them, the real part first. -/
def complexElem (f : Ieee.Format) : Elem ν (Nat × Nat) where
  size := 2 * f.bytes
  read bytes :=
    (Endian.ofLE (bytes.take (bytes.length / 2)), Endian.ofLE (bytes.drop (bytes.length / 2)))
  write x := Endian.toLE f.bytes x.1 ++ Endian.toLE f.bytes x.2
  parts x := (F.ofBits f x.1, F.ofBits f x.2)
  intBits := none
  isNan x := f.isNan x.1 || f.isNan x.2
  truthy x := !f.eq x.1 0 || !f.eq x.2 0
  ge x o := (f.lt o.1 x.1 && !f.isNan x.2 && !f.isNan o.2) || (f.eq x.1 o.1 && f.le o.2 x.2)
  le x o := (f.lt x.1 o.1 && !f.isNan x.2 && !f.isNan o.2) || (f.eq x.1 o.1 && f.le x.2 o.2)
  argGt x b := f.lt b.1 x.1 || (f.eq x.1 b.1 && f.lt b.2 x.2) || (f.isNan x.1 || f.isNan x.2)
  argLt x b := f.lt x.1 b.1 || (f.eq x.1 b.1 && f.lt x.2 b.2) || (f.isNan x.1 || f.isNan x.2)

def c32Elem : Elem ν (Nat × Nat) := complexElem F .single
def c64Elem : Elem ν (Nat × Nat) := complexElem F .double

end Elements

/-! ## The stream -/

/-- How elements map to output cells. -/
structure Walk where
  shape : List Nat
  /-- Per axis, how far a step moves the output cell; 0 on a reduced axis. -/
  stride : List Nat
  posAxis : Option Nat
  cells : Nat
  ddof : Int64
  out : DType
  deriving DecidableEq

/-- How far a walk has come.  No count here passes the elements of the selection. -/
structure Cursor (β : Type) where
  idx : List Nat
  cell : Nat
  flat : Nat
  acc : List β

/-- Advance an index like an odometer, carrying the cell with it; and whether it started
over. -/
def advance (checks : Bool) : List Nat → List Nat → List Nat → Nat →
    Option (List Nat × Nat × Bool)
  | len :: shape, stride :: strides, i :: idx, cell => do
      match ← advance checks shape strides idx cell with
      | (idx, cell, false) => some (i :: idx, cell, false)
      | (idx, cell, true) =>
          let cell ← Word.add checks 64 cell stride
          if i + 1 < len then some ((i + 1) :: idx, cell, false)
          else do
            let turn ← Word.mul checks 64 stride len
            let cell ← Word.sub checks 64 cell turn
            some (0 :: idx, cell, true)
  | _, _, _, cell => some ([], cell, true)

/-- The whole elements of some bytes. -/
def chunksExact (size : Nat) (bytes : List UInt8) : List (List UInt8) :=
  (List.range (bytes.length / size)).map fun i => Vec.slice bytes (i * size) size

/-- Reads a range of the selection's bytes. -/
abbrev ReadRange := Nat → (len : Nat) → Except AexError (Vector UInt8 len)

section Fold

variable {ν α β : Type} (checks : Bool)

/-- Accumulators: each element is pushed to one cell, with its position. -/
abbrev Push (β α : Type) := List β → Nat → Nat → α → Option (List β)

/-- Change one cell; there has to be one. -/
def pushAt (step : β → Nat → α → β) : Push β α := fun acc cell pos x =>
  if cell < acc.length then some (acc.modify cell fun b => step b pos x) else none

/-- Push one element to its cell, and advance. -/
def Walk.visit (walk : Walk) (push : Push β α) (c : Cursor β) (x : α) : Option (Cursor β) := do
  let pos := walk.posAxis.elim c.flat fun a => c.idx.getD a 0
  let acc ← push c.acc c.cell pos x
  let (idx, cell, _) ← advance checks walk.shape walk.stride c.idx c.cell
  some ⟨idx, cell, c.flat + 1, acc⟩

/-- Push the elements of one block. -/
def Walk.visitAll (walk : Walk) (e : Elem ν α) (push : Push β α) (c : Cursor β)
    (bytes : List UInt8) : Option (Cursor β) :=
  (chunksExact e.size bytes).foldlM (fun c element => walk.visit checks push c (e.read element)) c

/-- The rest of the stream, block by block. -/
def Walk.foldFrom (walk : Walk) (read : ReadRange) (total block : Nat) (e : Elem ν α)
    (push : Push β α) : Nat → Nat → Cursor β → Except Halt (Cursor β)
  | 0, _, _ => .error .running
  | fuel + 1, offset, c =>
      if offset < total then
        let len := min (total - offset) block
        match read offset len with
        | .error e => .error (.error e)
        | .ok bytes =>
            match walk.visitAll checks e push c bytes.toList with
            | none => .error .panic
            | some c => foldFrom walk read total block e push fuel (offset + len) c
      else .ok c

/-- Feed every element of the selection to the accumulators. -/
def Walk.fold (walk : Walk) (read : ReadRange) (total blockBytes : Nat) (e : Elem ν α)
    (push : Push β α) (init : β) : Except Halt (List β) :=
  let block := blockBytes / e.size * e.size
  (walk.foldFrom checks read total block e push (total + 1) 0
    ⟨List.replicate walk.shape.length 0, 0, 0, List.replicate walk.cells init⟩).map Cursor.acc

end Fold

/-! ## Accumulators -/

/-- What a panic is not. -/
def orPanic {β : Type} : Option β → Except Halt β
  | none => .error .panic
  | some b => .ok b

section Accumulators

variable {ν α : Type} (F : Arith ν) (e : Elem ν α)

/-- Integer sums wrap, and two's complement makes signed and unsigned the same bits. -/
def sumPush (bits : α → Nat) (prod : Bool) (acc : Nat) (_pos : Nat) (x : α) : Nat :=
  if prod then Word.wrappingMul 64 acc (bits x) else Word.wrappingAdd 64 acc (bits x)

/-- A sum or a product, and of how many. -/
structure FloatSum (ν : Type) where
  re : ν
  im : ν
  count : Nat

def FloatSum.new (prod : Bool) : FloatSum ν := ⟨F.ofNat prod.toNat, F.ofNat 0, 0⟩

def floatSumPush (prod : Bool) (acc : FloatSum ν) (_pos : Nat) (x : α) : FloatSum ν :=
  let (re, im) := e.parts x
  if prod then
    ⟨F.sub (F.mul acc.re re) (F.mul acc.im im), F.add (F.mul acc.re im) (F.mul acc.im re),
      acc.count + 1⟩
  else ⟨F.add acc.re re, F.add acc.im im, acc.count + 1⟩

/-- A NaN that is skipped is pushed nowhere. -/
def skipping {β : Type} (skipNan : Bool) (push : Push β α) : Push β α := fun acc cell pos x =>
  if skipNan && e.isNan x then some acc else push acc cell pos x

/-- The bytes of a floating result; for no other type is there one. -/
def writeFloat (dtype : DType) (re im : ν) : Option (List UInt8) :=
  match dtype with
  | .float16 => some (F.half re).toList
  | .float32 => some (F.single re).toList
  | .float64 => some (F.double re).toList
  | .complex64 => some ((F.single re).toList ++ (F.single im).toList)
  | .complex128 => some ((F.double re).toList ++ (F.double im).toList)
  | _ => none

def FloatSum.finish (out : DType) (sum : FloatSum ν) : Option (List UInt8) :=
  writeFloat F out sum.re sum.im

def FloatSum.finishMean (out : DType) (sum : FloatSum ν) : Option (List UInt8) :=
  writeFloat F out (F.div sum.re (F.ofNat sum.count)) (F.div sum.im (F.ofNat sum.count))

/-- The variance so far, by Welford's update. -/
structure Moments (ν : Type) where
  count : Nat
  meanRe : ν
  meanIm : ν
  m2 : ν

def Moments.new : Moments ν := ⟨0, F.ofNat 0, F.ofNat 0, F.ofNat 0⟩

def momentsPush (acc : Moments ν) (_pos : Nat) (x : α) : Moments ν :=
  let (re, im) := e.parts x
  let n := acc.count + 1
  let dr := F.sub re acc.meanRe
  let di := F.sub im acc.meanIm
  let meanRe := F.add acc.meanRe (F.div dr (F.ofNat n))
  let meanIm := F.add acc.meanIm (F.div di (F.ofNat n))
  ⟨n, meanRe, meanIm,
    F.add acc.m2 (F.add (F.mul dr (F.sub re meanRe)) (F.mul di (F.sub im meanIm)))⟩

/-- The degrees of freedom of `n` elements, as signed words. -/
def dofOf (checks : Bool) (n : Nat) (ddof : Int64) : Option Int :=
  Word.subSigned checks 64 (Word.toSigned 64 n) ddof.toInt

def Moments.finish (checks : Bool) (walk : Walk) (sqrt : Bool) (acc : Moments ν) :
    Option (List UInt8) := do
  let dof ← dofOf checks acc.count walk.ddof
  let var := F.div acc.m2 (F.ofInt (max dof 0))
  writeFloat F walk.out (if sqrt then F.sqrt var else var) (F.ofNat 0)

def extremePush (max skipNan : Bool) (slot : Option α) (_pos : Nat) (x : α) : Option α :=
  match slot with
  | none => some x
  | some acc =>
      let keep := if max then e.ge acc x else e.le acc x
      let keep := if skipNan then e.isNan x || keep else e.isNan acc || keep
      if keep then some acc else some x

/-- The first extreme, or the first NaN. -/
def argPush (max : Bool) (slot : Option (α × Nat × Bool)) (pos : Nat) (x : α) :
    Option (α × Nat × Bool) :=
  match slot with
  | none => some (x, pos, e.isNan x)
  | some (best, at_, true) => some (best, at_, true)
  | some (best, at_, false) =>
      if if max then e.argGt x best else e.argLt x best then some (x, pos, e.isNan x)
      else some (best, at_, false)

def logicPush (all : Bool) (acc : Bool) (_pos : Nat) (x : α) : Bool :=
  if all then acc && e.truthy x else acc || e.truthy x

end Accumulators

section Run

variable {ν α : Type} (checks : Bool) (F : Arith ν) (read : ReadRange) (total blockBytes : Nat)

/-- The results of the cells, written one after the other. -/
def finish {β : Type} (write : β → Option (List UInt8)) (cells : List β) :
    Except Halt (List UInt8) :=
  orPanic ((cells.mapM write).map List.flatten)

variable (e : Elem ν α) (function : Function) (walk : Walk)

def runSum : Except Halt (List UInt8) :=
  let prod : Bool := function = .prod
  match e.intBits with
  | some bits =>
      walk.fold checks read total blockBytes e (pushAt (sumPush bits prod)) prod.toNat >>=
        finish fun v => some (Endian.toLE 8 v)
  | none =>
      walk.fold checks read total blockBytes e
          (skipping e (function = .nanSum) (pushAt (floatSumPush F e prod))) (FloatSum.new F prod) >>=
        finish (FloatSum.finish F walk.out)

def runMean : Except Halt (List UInt8) :=
  walk.fold checks read total blockBytes e
      (skipping e (function = .nanMean) (pushAt (floatSumPush F e false))) (FloatSum.new F false) >>=
    finish (FloatSum.finishMean F walk.out)

def runVar : Except Halt (List UInt8) :=
  walk.fold checks read total blockBytes e (pushAt (momentsPush F e)) (Moments.new F) >>=
    finish (Moments.finish F checks walk (function = .std))

/-- Every cell has to have an element. -/
def runExtreme : Except Halt (List UInt8) :=
  let max : Bool := function = .max ∨ function = .nanMax
  let skipNan : Bool := function = .nanMax ∨ function = .nanMin
  walk.fold checks read total blockBytes e (pushAt (extremePush e max skipNan)) none >>=
    finish fun slot => slot.map e.write

def runArg : Except Halt (List UInt8) :=
  walk.fold checks read total blockBytes e (pushAt (argPush e (function = .argmax))) none >>=
    finish fun slot => slot.map fun (_, pos, _) => Endian.toLE 8 pos

def runLogic : Except Halt (List UInt8) :=
  let all : Bool := function = .all
  walk.fold checks read total blockBytes e (pushAt (logicPush e all)) all >>=
    finish fun b => some [UInt8.ofNat b.toNat]

def run : Except Halt (List UInt8) :=
  match function with
  | .sum | .prod | .nanSum => runSum checks F read total blockBytes e function walk
  | .mean | .nanMean => runMean checks F read total blockBytes e function walk
  | .var | .std => runVar checks F read total blockBytes e function walk
  | .max | .min | .nanMax | .nanMin => runExtreme checks read total blockBytes e function walk
  | .argmax | .argmin => runArg checks read total blockBytes e function walk
  | .all | .any => runLogic checks read total blockBytes e function walk

end Run

/-- Each type has its own elements. -/
def runDtype {ν : Type} (checks : Bool) (F : Arith ν) (read : ReadRange) (total blockBytes : Nat)
    (dtype : DType) (function : Function) (walk : Walk) : Except Halt (List UInt8) :=
  match dtype with
  | .bool => run checks F read total blockBytes (boolElem F) function walk
  | .int8 => run checks F read total blockBytes (i8Elem F) function walk
  | .int16 => run checks F read total blockBytes (i16Elem F) function walk
  | .int32 => run checks F read total blockBytes (i32Elem F) function walk
  | .int64 => run checks F read total blockBytes (i64Elem F) function walk
  | .uint8 => run checks F read total blockBytes (u8Elem F) function walk
  | .uint16 => run checks F read total blockBytes (u16Elem F) function walk
  | .uint32 => run checks F read total blockBytes (u32Elem F) function walk
  | .uint64 => run checks F read total blockBytes (u64Elem F) function walk
  | .float16 => run checks F read total blockBytes (f16Elem F) function walk
  | .float32 => run checks F read total blockBytes (f32Elem F) function walk
  | .float64 => run checks F read total blockBytes (f64Elem F) function walk
  | .complex64 => run checks F read total blockBytes (c32Elem F) function walk
  | .complex128 => run checks F read total blockBytes (c64Elem F) function walk

/-- How much of the selection is read at once. -/
def blockBytes : Nat := 4 * 2 ^ 20

/-- Reduce a selection read in blocks of a given size, refusing a result over `maxBytes`. -/
def reduceBy {ν : Type} (blockBytes : Nat) (checks : Bool) (F : Arith ν) (read : ReadRange)
    (L : SelectionLayout) (function : Function) (args : ReduceArgs) (maxBytes : Nat) :
    Except Halt Reduced := do
  let reduced ← (reducedAxes L.outShape.length args.axis function).mapError Halt.error
  let (stride, cells) ← orPanic (strides checks L.outShape reduced)
  let perCell ← orPanic (perCell checks L.outShape reduced)
  let dtype := function.resultDtype L.dtype
  let bytes := Word.saturatingMul 64 cells dtype.itemsize
  if maxBytes < bytes then
    .error (.error (.badFunction
      s!"the result would be {bytes} bytes, over this server's limit of {maxBytes}"))
  else if perCell = 0 ∧ 0 < cells ∧ function.needsAnElement then
    .error (.error (.badFunction
      s!"zero-size array to reduction operation {function.debug} which has no identity"))
  else do
    let posAxis := match args.axis with
      | .one _ => reduced.findIdx? id
      | _ => none
    let data ← runDtype checks F read L.totalBytes blockBytes L.dtype function
      ⟨L.outShape, stride, posAxis, cells, args.ddof, dtype⟩
    .ok ⟨dtype, outShape args.keepdims L.outShape reduced, data⟩

def reduce {ν : Type} (checks : Bool) (F : Arith ν) (read : ReadRange) (L : SelectionLayout)
    (function : Function) (args : ReduceArgs) (maxBytes : Nat) : Except Halt Reduced :=
  reduceBy blockBytes checks F read L function args maxBytes

end Reduce

end Aex
