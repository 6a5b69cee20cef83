import Aex.Server.Reader
import Aex.Server.Transfer
import Aex.Wire.Frame

/-!
# Answering a fetch

One `FETCH` on a data connection: the checks made before anything is read, the
pieces sent, and the error that ends a fetch.  The socket itself always works
here, so whatever ends the connection was caused by the request.
-/

namespace Aex

/-- What a plan serves: the layout of a selection, and the reads of its array. -/
structure ServedPlan where
  layout : SelectionLayout
  readRange : ReadRange

/-- What the connections of a server share. -/
structure Context where
  build : Build
  compressors : Compressors
  config : ValidConfig

/-- The frames sent on a connection so far, and the registry. -/
structure Wired where
  sent : List Frame
  registry : TransferRegistry ServedPlan

inductive Disposition where
  | carryOn
  | close
  deriving Repr, DecidableEq

/-- The `ERROR` frame that reports a failure against the fetch that caused it. -/
def errorFrame (header : FrameHeader) (errorClass : ErrorClass) (message : String) : Frame :=
  let payload := (ErrorPayload.mk errorClass message).encode
  ⟨.error header.requestId header.offset header.logicalLen payload.length, payload⟩

namespace Wired

def write (s : Wired) (frame : Frame) : Wired := { s with sent := s.sent ++ [frame] }

def sendError (s : Wired) (header : FrameHeader) (errorClass : ErrorClass) (message : String) :
    Wired := s.write (errorFrame header errorClass message)

end Wired

/-- The frame of one piece, compressed if the transfer asked for that.  A block
that does not shrink goes raw. -/
def pieceFrame (ctx : Context) (requestId : Nat) (L : SelectionLayout) (offset : Nat)
    (bytes : List UInt8) : Except AexError Frame := do
  match ← L.block ctx.build offset bytes.length with
  | none => .ok ⟨.data requestId offset bytes.length, bytes⟩
  | some spec =>
      let codec := L.quality.codecFor ctx.build
      match ← compress ctx.build ctx.compressors codec spec bytes with
      | some packed =>
          .ok ⟨.dataEncoded requestId offset codec L.quality.encoding packed.length bytes.length,
            packed⟩
      | none => .ok ⟨.data requestId offset bytes.length, bytes⟩

/-- Write one piece out, and touch the plan so that it does not expire under the
reply it is still sending. -/
def sendPiece (ctx : Context) (requestId : Nat) (entry : TransferEntry ServedPlan)
    (touchAt : Nat → Nat) (offset : Nat) (bytes : List UInt8) (s : Wired) :
    Except ServerError Unit × Wired :=
  match pieceFrame ctx requestId entry.plan.layout offset bytes with
  | .error e => (.error (.core e), s)
  | .ok frame =>
      (.ok (), { s.write frame with registry := s.registry.touch entry (touchAt offset) })

/-- An error-bounded transfer is cut into blocks of whole elements. -/
def misaligned (L : SelectionLayout) (offset len : Nat) : Bool :=
  L.quality.eps.isSome && (offset % L.dtype.itemsize != 0 || len % L.dtype.itemsize != 0)

/-- Serve the range of a fetch that passed its checks. -/
def serveFetch (ctx : Context) (header : FrameHeader) (entry : TransferEntry ServedPlan)
    (touchAt : Nat → Nat) (s : Wired) : Except ServerError Disposition × Wired :=
  match serve entry.plan.layout ctx.config.transfer.readBufferBytes entry.plan.readRange
      (sendPiece ctx header.requestId entry touchAt) header.logicalLen header.offset header.logicalLen s with
  | (.error e, s) => (.error e, s)
  | (.ok (.error e), s) =>
      (.ok .carryOn, s.sendError header (ServerError.core e).errorClass e.message)
  | (.ok (.ok ()), s) => (.ok .carryOn, s)

/-- Answer one `FETCH`; `ticket` is its payload, if it arrived. -/
def handleFetch (ctx : Context) (session : SessionId) (header : FrameHeader)
    (ticket : Option Ticket) (nowMs : Nat) (touchAt : Nat → Nat) (s : Wired) :
    Except ServerError Disposition × Wired :=
  if header.wireLen ≠ ticketLen then
    (.ok .close, s.sendError header .protocol
      s!"a fetch carries a {ticketLen} byte ticket, not {header.wireLen} bytes")
  else
    match ticket with
    | none => (.error (.protocol "a fetch header arrived without its ticket"), s)
    | some ticket =>
        if ctx.config.transfer.maxFetchBytes < header.logicalLen then
          (.ok .carryOn, s.sendError header .request
            s!"a fetch of {header.logicalLen} bytes is over this server's limit of {ctx.config.transfer.maxFetchBytes}")
        else
          match s.registry.fetch ctx.config.limits nowMs header.requestId ticket session with
          | (.error e, registry) =>
              (.ok (if e.errorClass = .auth then .close else .carryOn),
                { s with registry := registry }.sendError header e.errorClass e.message)
          | (.ok entry, registry) =>
              let s := { s with registry := registry }
              match entry.plan.layout.checkRange header.offset header.logicalLen with
              | .error e => (.ok .carryOn, s.sendError header e.errorClass e.message)
              | .ok () =>
                  if misaligned entry.plan.layout header.offset header.logicalLen then
                    (.ok .carryOn, s.sendError header .request
                      s!"an error-bounded transfer is fetched in whole {entry.plan.layout.dtype} elements, and [{header.offset}, {rangeEnd header.offset header.logicalLen}) is not")
                  else serveFetch ctx header entry touchAt s

/-! ## Pieces -/

variable {ctx : Context} {L : SelectionLayout} {offset : Nat} {bytes : List UInt8}

/-- What it takes to send a piece of a compressed transfer: whole elements, axes
that fit the block header, and a compressor that takes the block. -/
structure Packable (ctx : Context) (L : SelectionLayout) (offset : Nat) (bytes : List UInt8) :
    Prop where
  whole : L.dtype.itemsize ∣ bytes.length
  short : ∀ axis ∈ BlockSpec.axesFor L.outShape L.dtype offset bytes.length, axis < Word.size 32
  taken : ∃ stream, compressStream ctx.build ctx.compressors (L.quality.codecFor ctx.build)
    ⟨L.dtype, BlockSpec.axesFor L.outShape L.dtype offset bytes.length, L.quality.eps.getD 0⟩
    bytes = .ok stream

theorem block_of_raw {len : Nat} (h : L.quality.codecFor ctx.build = .raw) :
    L.block ctx.build offset len = .ok none := if_pos h

/-- The frame of a piece is a `DATA` frame for exactly its range. -/
theorem pieceFrame_header {requestId : Nat} {frame : Frame}
    (h : pieceFrame ctx requestId L offset bytes = .ok frame) :
    frame.header.frameType = .data ∧ frame.header.requestId = requestId ∧
      frame.header.offset = offset ∧ frame.header.logicalLen = bytes.length := by
  simp only [pieceFrame, Bind.bind, Except.bind] at h
  split at h
  · cases h
  split at h
  · cases h
    exact ⟨rfl, rfl, rfl, rfl⟩
  split at h
  · cases h
  split at h <;>
  · cases h
    exact ⟨rfl, rfl, rfl, rfl⟩

/-- A piece can be sent when it goes raw or can be packed. -/
theorem pieceFrame_isOk_iff {requestId : Nat} (hpos : 0 < bytes.length)
    (hlen : bytes.length < Word.size 64) :
    (∃ frame, pieceFrame ctx requestId L offset bytes = .ok frame) ↔
      L.quality.codecFor ctx.build = .raw ∨ Packable ctx L offset bytes := by
  by_cases hraw : L.quality.codecFor ctx.build = .raw
  · simp [pieceFrame, block_of_raw hraw, hraw, Bind.bind, Except.bind]
  simp only [hraw, false_or]
  have hblock : L.block ctx.build offset bytes.length =
      (BlockSpec.forRange L.outShape L.dtype (L.quality.eps.getD 0) offset bytes.length).map some :=
    if_neg hraw
  cases hrange : BlockSpec.forRange L.outShape L.dtype (L.quality.eps.getD 0) offset bytes.length with
  | error e =>
      have hfail : ¬ Packable ctx L offset bytes := by
        rintro ⟨hwhole, hshort, -⟩
        obtain ⟨spec, hspec⟩ := (BlockSpec.forRange_isOk_iff _ _ _ _ _).mpr ⟨hpos, hwhole, hshort⟩
        rw [hrange] at hspec
        cases hspec
      rw [hrange] at hblock
      simp [pieceFrame, hblock, hfail, Bind.bind, Except.bind, Except.map]
  | ok spec =>
      have hbytes := BlockSpec.forRange_bytes hlen hrange
      obtain ⟨-, hwhole, hshort⟩ := (BlockSpec.forRange_isOk_iff _ _ _ _ _).mp ⟨spec, hrange⟩
      obtain rfl := BlockSpec.forRange_spec hrange
      rw [hrange] at hblock
      simp only [pieceFrame, hblock, Bind.bind, Except.bind, Except.map, compress, hbytes,
        ne_eq, not_true_eq_false, if_false]
      constructor
      · rintro ⟨frame, h⟩
        refine ⟨hwhole, hshort, ?_⟩
        split at h
        · cases h
        · rename_i hpacked
          split at hpacked
          · cases hpacked
          · rename_i stream hstream
            exact ⟨stream, hstream⟩
      · rintro ⟨-, -, stream, hstream⟩
        rw [hstream]
        dsimp only
        split
        · exact ⟨_, rfl⟩
        · exact ⟨_, rfl⟩

end Aex
