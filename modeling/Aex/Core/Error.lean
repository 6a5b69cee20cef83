import Mathlib.Algebra.Group.Nat.Defs
import Mathlib.Tactic.Basic

/-!
# Errors and their classification

Client recovery is decided by the class alone; the cause lives in the message.
-/

namespace Aex

/-- Error classification. One byte on the wire. -/
inductive ErrorClass where
  | ok
  | protocol
  | auth
  | plan
  | request
  | transient
  | permanent
  deriving Repr, DecidableEq

def ErrorClass.asU8 : ErrorClass → Nat
  | .ok => 0
  | .protocol => 1
  | .auth => 2
  | .plan => 3
  | .request => 4
  | .transient => 5
  | .permanent => 6

/-- Unknown values become `permanent`, so that nothing fatal is ever retried. -/
def ErrorClass.fromU8 : Nat → ErrorClass
  | 0 => .ok
  | 1 => .protocol
  | 2 => .auth
  | 3 => .plan
  | 4 => .request
  | 5 => .transient
  | _ => .permanent

@[simp] theorem ErrorClass.fromU8_asU8 (c : ErrorClass) : fromU8 c.asU8 = c := by
  cases c <;> rfl

/-- The kinds of I/O failure that the classification tells apart. -/
inductive IoKind where
  | notFound
  | permissionDenied
  | invalidData
  | unexpectedEof
  | other
  deriving Repr, DecidableEq

/-- Errors raised by the core layer. -/
inductive AexError where
  | unsupportedDType (message : String)
  | unsupportedNpy (message : String)
  | malformedNpy (message : String)
  | unsupportedHdf5 (message : String)
  | malformedHdf5 (message : String)
  | unsupportedZarr (message : String)
  | malformedZarr (message : String)
  | badSelection (message : String)
  | unsupportedSelection (message : String)
  | badFunction (message : String)
  | notFound (message : String)
  | notAGroup (message : String)
  | outOfRange (offset len total : Nat)
  | badBlock (message : String)
  | io (kind : IoKind) (text : String)
  deriving Repr, DecidableEq

def AexError.errorClass : AexError → ErrorClass
  | .unsupportedDType _ | .unsupportedNpy _ | .unsupportedHdf5 _ | .unsupportedZarr _
  | .badSelection _ | .unsupportedSelection _ | .badFunction _ | .notFound _ | .notAGroup _
  | .outOfRange _ _ _ => .request
  | .malformedNpy _ | .malformedHdf5 _ | .malformedZarr _ => .permanent
  | .badBlock _ => .protocol
  | .io .notFound _ | .io .permissionDenied _ => .request
  | .io .invalidData _ | .io .unexpectedEof _ => .permanent
  | .io .other _ => .transient

/-- The end of a range in a message, which saturates. -/
def rangeEnd (offset len : Nat) : Nat := min (offset + len) (2 ^ 64 - 1)

/-- The diagnostic. -/
def AexError.message : AexError → String
  | .unsupportedDType m => s!"unsupported dtype: {m}"
  | .unsupportedNpy m => s!"unsupported npy file: {m}"
  | .malformedNpy m => s!"malformed npy file: {m}"
  | .unsupportedHdf5 m => s!"unsupported HDF5 file: {m}"
  | .malformedHdf5 m => s!"malformed HDF5 file: {m}"
  | .unsupportedZarr m => s!"unsupported Zarr store: {m}"
  | .malformedZarr m => s!"malformed Zarr store: {m}"
  | .badSelection m => s!"invalid selection: {m}"
  | .unsupportedSelection m => s!"unsupported selection: {m}"
  | .badFunction m => m
  | .notFound m => s!"no such item: {m}"
  | .notAGroup m => s!"{m.quote} is a dataset, not a group"
  | .outOfRange offset len total =>
      s!"range [{offset}, {rangeEnd offset len}) is out of bounds for a {total} byte logical stream"
  | .badBlock m => s!"compressed block: {m}"
  | .io _ text => s!"i/o error: {text}"

end Aex
