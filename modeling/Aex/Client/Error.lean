import Aex.Wire.Error

/-!
# Client errors

Recovery is decided by the class of a server's error and by nothing finer.  A
local failure has no class; an i/o failure keeps its kind, so that the pool can
tell that the connection rather than the request is what went wrong.
-/

namespace Aex

inductive ClientError where
  | server (errorClass : ErrorClass) (message : String)
  | data (errorClass : ErrorClass) (message : String)
  | transport (text : String)
  | protocol (message : String)
  | badRequest (message : String)
  | io (kind : IoKind) (text : String)
  deriving Repr, DecidableEq

namespace ClientError

/-- The class of a server error; `none` for a local failure. -/
def errorClass : ClientError → Option ErrorClass
  | .server c _ | .data c _ => some c
  | _ => none

/-- Whether trying again could succeed. -/
def isRetryable (e : ClientError) : Bool := e.errorClass = some .transient

def isIo : ClientError → Bool
  | .io _ _ => true
  | _ => false

def ofWire : WireError → ClientError
  | .io kind text => .io kind text
  | e => .data e.errorClass e.message

end ClientError

end Aex
