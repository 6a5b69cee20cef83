import Aex.Core.Reduce.Bookkeeping
import Aex.Server.Error

/-!
# Reduction requests

numpy's keyword arguments off the wire, and the bookkeeping of what they ask for.
-/

namespace Aex

/-- The value of a keyword argument. -/
inductive FunctionArgument where
  | intValue (value : Int64)
  /-- A double, as its bits. -/
  | floatValue (bits : Nat)
  | boolValue (value : Bool)
  | noneValue (value : Bool)
  | tupleInt (values : List Int64)
  deriving DecidableEq

namespace Reduce

/-- An integer as a signed word, or the nearest one there is. -/
def saturateI64 (n : Int) : Int64 :=
  Int64.ofInt (max (Word.signedMin 64) (min (Word.signedMax 64) n))

/-- Reduce every axis, and keep none. -/
def ReduceArgs.default : ReduceArgs := ⟨.all, false, 0⟩

section Wire

-- How an argument is quoted to the client.
variable (debug : Option FunctionArgument → String)

/-- Take one keyword argument. -/
def reduceArg (args : ReduceArgs) (kwarg : String × Option FunctionArgument) :
    Except ServerError ReduceArgs :=
  let bad := .error (.badRequest s!"{kwarg.1}={debug kwarg.2} is not supported")
  match kwarg with
  | ("axis", some (.noneValue _)) => .ok { args with axis := .all }
  | ("axis", some (.intValue a)) => .ok { args with axis := .one a }
  | ("axis", some (.tupleInt values)) => .ok { args with axis := .many values }
  | ("keepdims", some (.boolValue k)) => .ok { args with keepdims := k }
  | ("ddof", some (.intValue d)) => .ok { args with ddof := d }
  | ("ddof", some (.floatValue bits)) =>
      match Ieee.Format.double.integer bits with
      | some d => .ok { args with ddof := saturateI64 d }
      | none => bad
  | _ => bad

/-- numpy's keyword arguments to a reduction, in the order they come. -/
def reduceArgs (kwargs : List (String × Option FunctionArgument)) : Except ServerError ReduceArgs :=
  kwargs.foldlM (reduceArg debug) .default

/-- Every argument can arrive. -/
theorem exists_reduceArgs (args : ReduceArgs) : ∃ kwargs, reduceArgs debug kwargs = .ok args := by
  suffices haxis : ∃ axis, reduceArgs debug [("axis", some axis),
      ("keepdims", some (.boolValue args.keepdims)), ("ddof", some (.intValue args.ddof))] =
        .ok args by
    obtain ⟨axis, haxis⟩ := haxis
    exact ⟨_, haxis⟩
  obtain ⟨axis, keepdims, ddof⟩ := args
  cases axis with
  | all => exact ⟨.noneValue true, rfl⟩
  | one a => exact ⟨.intValue a, rfl⟩
  | many values => exact ⟨.tupleInt values, rfl⟩

end Wire

/-- The whole of an array of doubles. -/
def wholeDoubles (n : Nat) : SelectionLayout :=
  ⟨[n], .float64, .float64, n * 8, .exact, .contiguous 0 (n * 8)⟩

/-- A request is answered with exact counts and lengths, or refused, just where what it
counts fits. -/
theorem bookkept_iff_fits {build : Build} {shape : List Nat} {dtype : DType} {indices : List Index}
    {quality : QualitySpec} {L : SelectionLayout}
    (h : SelectionLayout.resolve build shape dtype indices quality = .ok L) (function : Function)
    (args : ReduceArgs) (maxBytes : Nat) :
    Bookkept L function args maxBytes ↔ Fits L function args maxBytes :=
  ⟨fits_of_bookkept (streams_of_resolve h), bookkept_of_fits (streams_of_resolve h)⟩

theorem bookkept_iff_fits_three : Bookkept (wholeDoubles 3) .var ⟨.all, false, 1⟩ 1024 := by
  have hresolve : SelectionLayout.resolve ⟨false, false⟩ [3] .float64 [] .exact =
      .ok (wholeDoubles 3) := by decide +kernel
  apply (bookkept_iff_fits hresolve .var ⟨.all, false, 1⟩ 1024).mpr
  intro mask hmask
  cases hmask
  refine ⟨fun k => ?_, fun k => ?_, fun _ => ⟨by decide, fun h => (by cases h), fun _ => by decide⟩⟩
  · cases k with
    | zero => decide
    | succ k => simp [wholeDoubles]
  · cases k with
    | zero => decide
    | succ k => simp [wholeDoubles, reducedLens, Radix.keep, Word.size]

/-- The count of one number and the least `ddof` have no difference in signed words. -/
theorem least_ddof_not_bookkept :
    ¬ ∀ (debug : Option FunctionArgument → String) (build : Build) (shape : List Nat) (dtype : DType) (indices : List Index)
      (quality : QualitySpec) (L : SelectionLayout) (function : Function)
      (kwargs : List (String × Option FunctionArgument)) (args : ReduceArgs) (maxBytes : Nat),
      SelectionLayout.resolve build shape dtype indices quality = .ok L →
        reduceArgs debug kwargs = .ok args → Bookkept L function args maxBytes := by
  intro h
  have hresolve : SelectionLayout.resolve ⟨false, false⟩ [1] .float64 [] .exact =
      .ok (wholeDoubles 1) := by decide +kernel
  have hargs : reduceArgs (fun _ => "") [("ddof", some (.intValue Int64.minValue))] =
      .ok ⟨.all, false, Int64.minValue⟩ := rfl
  have hrefused : ¬ Refused (wholeDoubles 1) .var [true] 1024 := by
    unfold Refused
    decide
  have hdof := (h _ _ _ _ _ _ _ .var _ _ 1024 hresolve hargs).2 [true] rfl hrefused (.inl rfl) 0
    (by decide) true
  exact absurd hdof (by decide +kernel)

end Reduce

end Aex
