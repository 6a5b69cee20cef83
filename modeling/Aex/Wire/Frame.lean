import Aex.Core.Quality
import Aex.Lib.Utf8
import Aex.Wire.Error

/-!
# Frames

The header of a frame, and the frames built on it.  The payload follows the
header; under a raw codec it is the bytes of the range themselves.
-/

namespace Aex

/-- Size of the ticket a `FETCH` carries as its payload. -/
def ticketLen : Nat := 16

/-- The capability that authorises one transfer. -/
abbrev Ticket := Vector UInt8 16

inductive FrameType where
  | fetch
  | data
  | error
  | ping
  | pong
  deriving Repr, DecidableEq

/-- The name a frame type is printed under. -/
def FrameType.debug : FrameType → String
  | .fetch => "Fetch"
  | .data => "Data"
  | .error => "Error"
  | .ping => "Ping"
  | .pong => "Pong"

structure FrameHeader where
  frameType : FrameType
  codec : Codec := .raw
  encoding : Encoding := .exact
  flags : Nat := 0
  /-- Which transfer; 0 is about the connection itself. -/
  requestId : Nat := 0
  /-- Where in the transfer's logical byte stream. -/
  offset : Nat := 0
  wireLen : Nat := 0
  logicalLen : Nat := 0
  deriving Repr, DecidableEq

namespace FrameHeader

/-- A request for `logicalLen` bytes from `offset`. -/
def fetch (requestId offset logicalLen : Nat) : FrameHeader :=
  { frameType := .fetch, requestId, offset, wireLen := ticketLen, logicalLen }

/-- A reply carrying `len` uncompressed bytes from `offset`. -/
def data (requestId offset len : Nat) : FrameHeader :=
  { frameType := .data, requestId, offset, wireLen := len, logicalLen := len }

/-- A reply carrying one encoded block. -/
def dataEncoded (requestId offset : Nat) (codec : Codec) (encoding : Encoding)
    (wireLen logicalLen : Nat) : FrameHeader :=
  { frameType := .data, codec, encoding, requestId, offset, wireLen, logicalLen }

/-- A reply saying that a fetch failed. -/
def error (requestId offset logicalLen payloadLen : Nat) : FrameHeader :=
  { frameType := .error, requestId, offset, wireLen := payloadLen, logicalLen }

end FrameHeader

/-- The payload of an `ERROR` frame: a class byte and a diagnostic. -/
structure ErrorPayload where
  errorClass : ErrorClass
  message : String
  deriving Repr, DecidableEq

def ErrorPayload.encode (p : ErrorPayload) : List UInt8 :=
  UInt8.ofNat p.errorClass.asU8 :: p.message.toUTF8.toList

/-- A message that is not UTF-8 is replaced rather than refused, so that the class
it explains is not lost with it. -/
def ErrorPayload.decode : List UInt8 → Except WireError ErrorPayload
  | [] => .error (.protocol "an error frame carries no class")
  | errorClass :: message => .ok ⟨.fromU8 errorClass.toNat, Utf8.lossy message⟩

/-- A frame as it goes out: a header and the payload it describes. -/
structure Frame where
  header : FrameHeader
  payload : List UInt8
  deriving Repr, DecidableEq

end Aex
