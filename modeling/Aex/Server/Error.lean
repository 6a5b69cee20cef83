import Aex.Core.Error

/-!
# Server errors

Every error a client can see maps onto one class.
-/

namespace Aex

inductive ServerError where
  | config (message : String)
  | protocol (message : String)
  | auth (message : String)
  | badRequest (message : String)
  | noSuchPlan (message : String)
  | pathNotAllowed (message : String)
  | exhausted (message : String)
  | random (text : String)
  | core (error : AexError)
  | io (kind : IoKind) (text : String)
  | transport (message : String)
  deriving Repr, DecidableEq

def ServerError.errorClass : ServerError → ErrorClass
  | .protocol _ => .protocol
  | .auth _ => .auth
  | .noSuchPlan _ => .plan
  | .badRequest _ | .pathNotAllowed _ => .request
  | .exhausted _ => .transient
  | .core e => e.errorClass
  | .io kind text => (AexError.io kind text).errorClass
  | .config _ | .random _ | .transport _ => .permanent

/-- The diagnostic. -/
def ServerError.message : ServerError → String
  | .config m => s!"configuration error: {m}"
  | .protocol m | .auth m | .badRequest m | .noSuchPlan m | .pathNotAllowed m | .exhausted m => m
  | .random text => s!"cannot generate random bytes: {text}"
  | .core e => e.message
  | .io _ text => s!"i/o error: {text}"
  | .transport m => s!"transport error: {m}"

end Aex
