import Aex.Core.Error

/-!
# Errors from the wire format

Each carries the class it would travel as in an `ERROR` frame.
-/

namespace Aex

inductive WireError where
  | protocol (message : String)
  | outOfRange (offset len capacity : Nat)
  | overlap (offset len : Nat)
  | io (kind : IoKind) (text : String)
  deriving Repr, DecidableEq

def WireError.errorClass : WireError → ErrorClass
  | .protocol _ => .protocol
  | .outOfRange _ _ _ | .overlap _ _ => .request
  | .io _ _ => .transient

/-- The diagnostic. -/
def WireError.message : WireError → String
  | .protocol m => s!"protocol error: {m}"
  | .outOfRange offset len capacity =>
      s!"range [{offset}, {rangeEnd offset len}) does not fit a {capacity} byte buffer"
  | .overlap offset len =>
      s!"range [{offset}, {rangeEnd offset len}) overlaps one already being written"
  | .io _ text => s!"i/o error: {text}"

end Aex
