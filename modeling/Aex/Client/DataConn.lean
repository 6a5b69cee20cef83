import Aex.Client.Error
import Aex.Lib.Vec
import Aex.Lib.Word
import Aex.Wire.Frame

/-!
# Data connections

What one frame does to the slice it is received into.  A frame is checked
against the oldest fetch outstanding before a byte of it is written; a payload
that breaks off may have been written in part.
-/

namespace Aex

structure IoFailure where
  kind : IoKind
  text : String
  deriving Repr, DecidableEq

def IoFailure.toError (f : IoFailure) : ClientError := .io f.kind f.text

/-- Expanding one block into place: whether it worked, and what the slice holds
then, which is of no use unless it did. -/
structure Expander where
  decompressInto : Codec → List UInt8 → List UInt8 → Except AexError Unit × List UInt8
  length_eq : ∀ codec src dst, (decompressInto codec src dst).2.length = dst.length

/-- One fetch as the far end of a connection sees it. -/
structure Asked where
  requestId : Nat
  ticket : Ticket
  offset : Nat
  len : Nat
  answered : Nat
  deriving Repr, DecidableEq

/-- A connection past its handshake: what a peer answering in order has still to
answer on it. -/
structure DataConn where
  asked : List Asked
  deriving Repr, DecidableEq

/-- What the next read on a connection yields. -/
inductive Incoming where
  /-- No header could be read, or it could not be parsed. -/
  | noHeader (error : WireError)
  /-- The connection broke off after part of the payload, or while answering a ping. -/
  | cut (header : FrameHeader) (part : List UInt8) (failure : IoFailure)
  | frame (header : FrameHeader) (payload : List UInt8)
  deriving Repr, DecidableEq

namespace Incoming

/-- Whether the payload of a frame of this type is read at all. -/
def hasPayload (header : FrameHeader) : Bool :=
  header.frameType = .data || header.frameType = .error

/-- A payload is as long as its header says; only a ping is answered, so that is
all that can fail where no payload is read. -/
def WellFormed : Incoming → Prop
  | .noHeader _ => True
  | .cut header part _ =>
      if hasPayload header then part.length < header.wireLen
      else part = [] ∧ header.frameType = .ping
  | .frame header payload => payload.length = if hasPayload header then header.wireLen else 0

instance : (incoming : Incoming) → Decidable incoming.WellFormed
  | .noHeader _ => .isTrue trivial
  | .cut header part _ => inferInstanceAs (Decidable (if hasPayload header = true then
      part.length < header.wireLen else part = [] ∧ header.frameType = .ping))
  | .frame header payload => inferInstanceAs (Decidable (payload.length =
      if hasPayload header = true then header.wireLen else 0))

end Incoming

namespace DataConn

def sendFetch (conn : DataConn) (requestId : Nat) (ticket : Ticket) (offset len : Nat) : DataConn :=
  ⟨conn.asked ++ [⟨requestId, ticket, offset, len, 0⟩]⟩

/-- What is left to answer once the peer has sent a frame. -/
def answered (conn : DataConn) (header : FrameHeader) : DataConn :=
  match conn.asked with
  | [] => conn
  | oldest :: rest =>
      match header.frameType with
      | .data =>
          if oldest.answered + header.logicalLen < oldest.len then
            ⟨{ oldest with answered := oldest.answered + header.logicalLen } :: rest⟩
          else ⟨rest⟩
      | .error => if header.requestId = 0 then conn else ⟨rest⟩
      | _ => conn

/-- Raw is raw, and a block is only sent when it came out smaller. -/
def sane (header : FrameHeader) : Bool :=
  if header.codec = .raw then header.wireLen == header.logicalLen
  else header.wireLen < header.logicalLen

/-- Where in the chunk at `offset` a data frame goes. -/
def place (build : Build) (header : FrameHeader) (requestId offset capacity : Nat) :
    Except ClientError Nat :=
  if header.requestId ≠ requestId then
    .error (.protocol <| s!"a data frame for transfer {header.requestId} arrived on a fetch of " ++
      s!"transfer {requestId}")
  else if !header.codec.isSupported build then
    .error (.protocol <| s!"a data frame arrived {header.codec.debug} encoded, which this build " ++
      "cannot expand")
  else if !sane header then
    .error (.protocol <| s!"a {header.codec.debug} data frame carries {header.wireLen} bytes for " ++
      s!"{header.logicalLen} bytes of the stream")
  else match (Word.checkedSub header.offset offset).filter (fun start =>
      (Word.checkedAdd 64 start header.logicalLen).any (· ≤ capacity)) with
    | none => .error (.protocol <| s!"a data frame covering [{header.offset}, " ++
        s!"{rangeEnd header.offset header.logicalLen}) does not fall inside the fetch of [{offset}, " ++
        s!"{offset + capacity})")
    | some start => .ok start

/-- Read one data frame into its place in the slice of the chunk at `offset`. -/
def receiveData (build : Build) (expander : Expander) (header : FrameHeader)
    (requestId offset : Nat) (dst payload : List UInt8) (failure : Option IoFailure) :
    Except ClientError Unit × List UInt8 :=
  match place build header requestId offset dst.length with
  | .error e => (.error e, dst)
  | .ok start =>
      if header.codec = .raw then
        (match failure with | some f => .error f.toError | none => .ok (), Vec.write dst start payload)
      else match failure with
        | some f => (.error f.toError, dst)
        | none =>
            let (result, block) := expander.decompressInto header.codec payload
              (Vec.slice dst start header.logicalLen)
            (result.mapError fun e => .protocol e.message, Vec.write dst start block)

/-- What an error frame says, as an error of the client. -/
def receiveError (payload : List UInt8) : Except ClientError ClientError :=
  match ErrorPayload.decode payload with
  | .ok p => .ok (.data p.errorClass p.message)
  | .error e => .error (.ofWire e)

variable {build : Build} {header : FrameHeader} {requestId offset capacity start : Nat}

theorem place_spec (h : place build header requestId offset capacity = .ok start) :
    header.requestId = requestId ∧ (header.codec = .raw → header.wireLen = header.logicalLen) ∧
      header.offset = offset + start ∧ start + header.logicalLen ≤ capacity := by
  unfold place at h
  split at h
  · cases h
  rename_i hid
  split at h
  · cases h
  split at h
  · cases h
  rename_i hsane
  split at h
  · cases h
  rename_i found hat
  obtain rfl : found = start := by simpa using h
  rw [Option.filter_eq_some_iff, Word.checkedSub_eq_some] at hat
  obtain ⟨⟨hle, hsub⟩, hfits⟩ := hat
  rw [Option.any_eq_true] at hfits
  obtain ⟨stop, hstop, hfits⟩ := hfits
  rw [Word.checkedAdd_eq_some] at hstop
  refine ⟨not_not.mp hid, fun hraw => ?_, by omega, ?_⟩
  · simpa [sane, hraw] using hsane
  · have := of_decide_eq_true hfits
    omega

/-- A frame of the transfer asked for, that this build can expand, is placed. -/
theorem place_eq_ok (hid : header.requestId = requestId)
    (hcodec : header.codec.isSupported build = true) (hsane : sane header = true)
    (hoffset : header.offset = offset + start) (hfits : start + header.logicalLen ≤ capacity)
    (hcapacity : capacity < Word.size 64) :
    place build header requestId offset capacity = .ok start := by
  have hsub : Word.checkedSub header.offset offset = some start := by
    rw [Word.checkedSub_eq_some]
    omega
  have hadd : Word.checkedAdd 64 start header.logicalLen = some (start + header.logicalLen) := by
    rw [Word.checkedAdd_eq_some]
    exact ⟨by omega, rfl⟩
  have hinside : (Word.checkedSub header.offset offset).filter (fun start =>
      (Word.checkedAdd 64 start header.logicalLen).any (· ≤ capacity)) = some start := by
    rw [Option.filter_eq_some_iff, hadd]
    exact ⟨hsub, by simpa using hfits⟩
  rw [place, if_neg (not_not.mpr hid), hcodec, hsane, hinside]
  rfl

/-- Whatever becomes of a frame, it touches no byte outside its range. -/
theorem receiveData_unchanged {expander : Expander} {dst payload bytes : List UInt8}
    {failure : Option IoFailure} {result : Except ClientError Unit}
    (h : receiveData build expander header requestId offset dst payload failure = (result, bytes))
    (hpayload : payload.length ≤ header.wireLen) :
    bytes.length = dst.length ∧
      ∀ p, p + offset < header.offset ∨ header.offset + header.logicalLen ≤ p + offset →
        bytes[p]? = dst[p]? := by
  unfold receiveData at h
  split at h
  · cases h
    exact ⟨rfl, fun _ _ => rfl⟩
  rename_i start hplace
  obtain ⟨-, hwire, hoffset, hfits⟩ := place_spec hplace
  have hwrite : ∀ block : List UInt8, block.length ≤ header.logicalLen →
      (Vec.write dst start block).length = dst.length ∧
      ∀ p, p + offset < header.offset ∨ header.offset + header.logicalLen ≤ p + offset →
        (Vec.write dst start block)[p]? = dst[p]? := by
    intro block hblock
    refine ⟨Vec.length_write (by omega), fun p hp => ?_⟩
    rw [Vec.getElem?_write (by omega), if_neg (by omega)]
  split at h
  · rename_i hraw
    cases h
    exact hwrite payload (by rwa [← hwire hraw])
  · split at h
    · cases h
      exact ⟨rfl, fun _ _ => rfl⟩
    · dsimp only at h
      cases h
      refine hwrite _ (Nat.le_of_eq ?_)
      rw [expander.length_eq, Vec.length_slice hfits]

/-- What the payload of a data frame stands for. -/
def Carries (expander : Expander) (header : FrameHeader) (payload content : List UInt8) : Prop :=
  if header.codec = .raw then payload = content
  else ∀ dst : List UInt8, dst.length = content.length →
    expander.decompressInto header.codec payload dst = (.ok (), content)

/-- A frame that is received is in its place. -/
theorem receiveData_carries {expander : Expander} {dst payload bytes content : List UInt8}
    (h : receiveData build expander header requestId offset dst payload none = (.ok (), bytes))
    (hcontent : content.length = header.logicalLen) (hcarries : Carries expander header payload content)
    {p : Nat} (hp : header.offset ≤ p + offset) (hp' : p + offset < header.offset + header.logicalLen) :
    bytes[p]? = content[p + offset - header.offset]? := by
  unfold receiveData at h
  split at h
  · cases h
  rename_i start hplace
  obtain ⟨-, hwire, hoffset, hfits⟩ := place_spec hplace
  have hwrite : (Vec.write dst start content)[p]? = content[p + offset - header.offset]? := by
    rw [Vec.getElem?_write (by omega), if_pos (by omega)]
    congr 1
    omega
  unfold Carries at hcarries
  split at h
  · rename_i hraw
    rw [if_pos hraw] at hcarries
    cases h
    rwa [hcarries]
  · rename_i hraw
    rw [if_neg hraw] at hcarries
    rw [hcarries _ ((Vec.length_slice hfits).trans hcontent.symm)] at h
    cases h
    exact hwrite

end DataConn

end Aex
