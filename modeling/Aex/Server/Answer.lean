import Aex.Lib.Tiling
import Aex.Server.Dataplane

/-!
# The answer law

What a fetch with a valid ticket is answered with: `DATA` frames that tile the
range, or a prefix of them and one `ERROR`, on a connection that stays open.  A
piece that cannot be described as a block breaks the law: its error is not sent
but ends the connection.
-/

namespace Aex

open Tiling (Tiles)

/-- The range of the logical stream a frame carries. -/
def Frame.range (frame : Frame) : Nat × Nat := (frame.header.offset, frame.header.logicalLen)

/-- `DATA` frames of one request whose ranges tile `[start, stop)` in order. -/
structure DataTiles (requestId start : Nat) (frames : List Frame) (stop : Nat) : Prop where
  data : ∀ frame ∈ frames, frame.header.frameType = .data ∧ frame.header.requestId = requestId
  tiles : Tiles start (frames.map Frame.range) stop

/-- The fetch was answered, and the connection carries on. -/
def Answered (header : FrameHeader) (s : Wired) (result : Except ServerError Disposition × Wired) :
    Prop :=
  result.1 = .ok .carryOn ∧ ∃ frames stop, DataTiles header.requestId header.offset frames stop ∧
    ((result.2.sent = s.sent ++ frames ∧ stop = header.offset + header.logicalLen) ∨
      ∃ error, result.2.sent = s.sent ++ frames ++ [error] ∧ error.header.frameType = .error ∧
        error.header.requestId = header.requestId ∧ error.header.offset = header.offset ∧
        stop ≤ header.offset + header.logicalLen)

/-- The pieces of a range that are read, up to the first failing read. -/
def reached (L : SelectionLayout) (bufferLen : Nat) (readRange : ReadRange) (fuel offset len : Nat) :
    List (Nat × Nat) :=
  (cuts L bufferLen fuel offset len).takeWhile fun (at_, n) => (readRange at_ n).isOk

/-- A fetch that is refused before anything is read, that goes raw, or whose
pieces can all be packed. -/
def Answerable (ctx : Context) (plan : ServedPlan) (header : FrameHeader) : Prop :=
  ctx.config.transfer.maxFetchBytes < header.logicalLen ∨
  plan.layout.totalBytes < header.offset + header.logicalLen ∨
  misaligned plan.layout header.offset header.logicalLen = true ∨
  plan.layout.quality.codecFor ctx.build = .raw ∨
  ∀ piece ∈ reached plan.layout ctx.config.transfer.readBufferBytes plan.readRange
      header.logicalLen header.offset header.logicalLen,
    ∀ bytes, plan.readRange piece.1 piece.2 = .ok bytes →
      Packable ctx plan.layout piece.1 bytes.toList

/-- The layouts the control plane hands out: those of an applied quality. -/
def HandedOut (build : Build) (L : SelectionLayout) : Prop :=
  ∃ shape dtype indices, ∃ requested : QualitySpec,
    SelectionLayout.resolve build shape dtype indices (requested.applied build dtype) = .ok L

/-! ## Serving -/

variable (ctx : Context) (requestId : Nat) (entry : TransferEntry ServedPlan) (touchAt : Nat → Nat)
  {header : FrameHeader} {s : Wired}

theorem DataTiles.nil (start : Nat) : DataTiles requestId start [] start :=
  ⟨by simp, rfl⟩

variable {requestId} in
theorem DataTiles.cons {frame : Frame} {frames : List Frame} {start stop len : Nat}
    (h : frame.header.frameType = .data ∧ frame.header.requestId = requestId ∧
      frame.header.offset = start ∧ frame.header.logicalLen = len) (hlen : 0 < len)
    (hrest : DataTiles requestId (start + len) frames stop) :
    DataTiles requestId start (frame :: frames) stop := by
  obtain ⟨hdata, hid, rfl, rfl⟩ := h
  exact ⟨List.forall_mem_cons.mpr ⟨⟨hdata, hid⟩, hrest.data⟩, rfl, hlen, hrest.tiles⟩

/-- The pieces reached, for the piece at the front. -/
theorem reached_succ {L : SelectionLayout} {bufferLen fuel offset len : Nat} {readRange : ReadRange}
    (hlen : len ≠ 0) :
    reached L bufferLen readRange (fuel + 1) offset len =
      if (readRange offset (rowAligned L offset (min len bufferLen))).isOk then
        (offset, rowAligned L offset (min len bufferLen)) ::
          reached L bufferLen readRange fuel (offset + rowAligned L offset (min len bufferLen))
            (len - rowAligned L offset (min len bufferLen))
      else [] := by
  rw [reached, cuts, if_neg hlen]
  dsimp only
  rw [List.takeWhile_cons]
  rfl

/-- One round of `serve`: a piece read and sent leaves the rest of the range. -/
theorem serve_spec (bufferLen : Nat) (hbuffer : 0 < bufferLen) (fuel offset len : Nat)
    (hfuel : len ≤ fuel) (hend : offset + len < Word.size 64) (s : Wired) :
    (∀ piece ∈ reached entry.plan.layout bufferLen entry.plan.readRange fuel offset len,
      ∀ bytes, entry.plan.readRange piece.1 piece.2 = .ok bytes →
        ∃ frame, pieceFrame ctx requestId entry.plan.layout piece.1 bytes.toList = .ok frame) →
    ∃ frames stop, DataTiles requestId offset frames stop ∧
      (serve entry.plan.layout bufferLen entry.plan.readRange (sendPiece ctx requestId entry touchAt)
        fuel offset len s).2.sent = s.sent ++ frames ∧
      ((serve entry.plan.layout bufferLen entry.plan.readRange
          (sendPiece ctx requestId entry touchAt) fuel offset len s).1 = .ok (.ok ()) ∧
          stop = offset + len ∨
        ∃ e, (serve entry.plan.layout bufferLen entry.plan.readRange
          (sendPiece ctx requestId entry touchAt) fuel offset len s).1 = .ok (.error e) ∧
          stop ≤ offset + len) := by
  induction fuel generalizing offset len s with
  | zero =>
      intro _
      exact ⟨[], offset, .nil requestId offset, by simp [serve], .inl ⟨rfl, by omega⟩⟩
  | succ fuel ih =>
      intro hsend
      rw [serve]
      by_cases hlen : len = 0
      · rw [if_pos hlen]
        exact ⟨[], offset, .nil requestId offset, by simp, .inl ⟨rfl, by omega⟩⟩
      rw [reached_succ hlen] at hsend
      rw [if_neg hlen]
      dsimp only
      generalize hpiece : rowAligned entry.plan.layout offset (min len bufferLen) = piece at hsend
      have hpos : 0 < piece := hpiece ▸ rowAligned_pos (by omega)
      have hle : piece ≤ len := by
        have := rowAligned_le entry.plan.layout offset (min len bufferLen)
        omega
      cases hread : entry.plan.readRange offset piece with
      | error e =>
          simp only
          exact ⟨[], offset, .nil requestId offset, by simp, .inr ⟨e, rfl, by omega⟩⟩
      | ok bytes =>
          rw [hread] at hsend
          simp only [Except.isOk, Except.toBool, if_true, List.mem_cons, forall_eq_or_imp] at hsend
          obtain ⟨frame, hframe⟩ := hsend.1 bytes hread
          obtain ⟨frames, stop, htiles, hsent, hresult⟩ := ih (offset + piece) (len - piece)
            (by omega) (by omega)
            { s.write frame with registry := s.registry.touch entry (touchAt offset) } hsend.2
          have hheader := pieceFrame_header hframe
          rw [Vector.length_toList] at hheader
          simp only [sendPiece, hframe]
          refine ⟨frame :: frames, stop, .cons hheader hpos htiles, ?_, ?_⟩
          · rw [hsent, Wired.write, List.append_assoc, List.singleton_append]
          · rcases hresult with ⟨h, hstop⟩ | ⟨e, h, hstop⟩
            · exact .inl ⟨h, by omega⟩
            · exact .inr ⟨e, h, by omega⟩

/-- A piece that cannot be sent ends the connection. -/
theorem serve_error (bufferLen fuel offset len : Nat) (s : Wired) :
    (∃ piece ∈ reached entry.plan.layout bufferLen entry.plan.readRange fuel offset len,
      ∃ bytes, entry.plan.readRange piece.1 piece.2 = .ok bytes ∧
        ¬ ∃ frame, pieceFrame ctx requestId entry.plan.layout piece.1 bytes.toList = .ok frame) →
    ∃ e, (serve entry.plan.layout bufferLen entry.plan.readRange
      (sendPiece ctx requestId entry touchAt) fuel offset len s).1 = .error e := by
  induction fuel generalizing offset len s with
  | zero =>
      rintro ⟨piece, hpiece, -⟩
      simp [reached, cuts] at hpiece
  | succ fuel ih =>
      rintro ⟨piece, hmem, bytes, hread, hfail⟩
      rw [serve]
      by_cases hlen : len = 0
      · simp [reached, cuts, hlen] at hmem
      rw [reached_succ hlen] at hmem
      rw [if_neg hlen]
      dsimp only
      split at hmem
      · rename_i hok
        cases hfirst : entry.plan.readRange offset
            (rowAligned entry.plan.layout offset (min len bufferLen)) with
        | error e =>
            rw [hfirst] at hok
            cases hok
        | ok first =>
            cases hframe : pieceFrame ctx requestId entry.plan.layout offset first.toList with
            | error e =>
                simp only [sendPiece, hframe]
                exact ⟨.core e, rfl⟩
            | ok frame =>
                simp only [sendPiece, hframe]
                refine ih _ _ _ ⟨piece, (List.mem_cons.mp hmem).resolve_left ?_, bytes, hread, hfail⟩
                rintro rfl
                rw [hfirst] at hread
                cases hread
                exact hfail ⟨frame, hframe⟩
      · cases hmem

/-! ## The law -/

/-- A refusal is an answer: one `ERROR` naming the fetch. -/
theorem answered_sendError (t : Wired) (hsent : t.sent = s.sent) (errorClass : ErrorClass)
    (message : String) :
    Answered header s (.ok .carryOn, t.sendError header errorClass message) := by
  refine ⟨rfl, [], header.offset, .nil header.requestId header.offset,
    .inr ⟨errorFrame header errorClass message, ?_, rfl, rfl, rfl, by omega⟩⟩
  simp only [Wired.sendError, Wired.write, hsent, List.append_nil]

/-- Every piece that is read moves the range on and stays inside it. -/
theorem reached_bounds {L : SelectionLayout} {bufferLen : Nat} (hbuffer : 0 < bufferLen)
    {readRange : ReadRange} {fuel offset len : Nat} {piece : Nat × Nat}
    (h : piece ∈ reached L bufferLen readRange fuel offset len) :
    0 < piece.2 ∧ piece.1 + piece.2 ≤ offset + len := by
  induction fuel generalizing offset len with
  | zero => simp [reached, cuts] at h
  | succ fuel ih =>
      by_cases hlen : len = 0
      · simp [reached, cuts, hlen] at h
      have hpos : 0 < rowAligned L offset (min len bufferLen) := rowAligned_pos (by omega)
      have hle := rowAligned_le L offset (min len bufferLen)
      rw [reached_succ hlen] at h
      split at h
      · rcases List.mem_cons.mp h with rfl | h
        · exact ⟨hpos, by dsimp only; omega⟩
        · have := ih h
          omega
      · cases h

theorem serveFetch_answered_iff
    (hend : header.offset + header.logicalLen < Word.size 64) (t : Wired) (hsent : t.sent = s.sent) :
    Answered header s (serveFetch ctx header entry touchAt t) ↔
      entry.plan.layout.quality.codecFor ctx.build = .raw ∨
      ∀ piece ∈ reached entry.plan.layout ctx.config.transfer.readBufferBytes entry.plan.readRange
          header.logicalLen header.offset header.logicalLen,
        ∀ bytes, entry.plan.readRange piece.1 piece.2 = .ok bytes →
          Packable ctx entry.plan.layout piece.1 bytes.toList := by
  have hsend : ∀ piece ∈ reached entry.plan.layout ctx.config.transfer.readBufferBytes
      entry.plan.readRange header.logicalLen header.offset header.logicalLen,
      ∀ bytes : Vector UInt8 piece.2,
      (∃ frame, pieceFrame ctx header.requestId entry.plan.layout piece.1 bytes.toList = .ok frame) ↔
        entry.plan.layout.quality.codecFor ctx.build = .raw ∨
          Packable ctx entry.plan.layout piece.1 bytes.toList := by
    intro piece hpiece bytes
    have hbounds := reached_bounds ctx.config.readBuffer_pos hpiece
    exact pieceFrame_isOk_iff (by rw [Vector.length_toList]; exact hbounds.1)
      (by rw [Vector.length_toList]; omega)
  constructor
  · rintro ⟨hopen, -⟩
    by_contra hlost
    push Not at hlost
    obtain ⟨hraw, piece, hpiece, bytes, hread, hpack⟩ := hlost
    obtain ⟨e, he⟩ := serve_error ctx header.requestId entry touchAt
      ctx.config.transfer.readBufferBytes header.logicalLen header.offset header.logicalLen t
      ⟨piece, hpiece, bytes, hread, fun hframe =>
        ((hsend piece hpiece bytes).mp hframe).elim hraw hpack⟩
    rw [serveFetch] at hopen
    split at hopen
    · cases hopen
    · rename_i heq
      rw [heq] at he
      cases he
    · rename_i heq
      rw [heq] at he
      cases he
  · intro hok
    obtain ⟨frames, stop, htiles, hframes, hresult⟩ := serve_spec ctx header.requestId entry touchAt
      ctx.config.transfer.readBufferBytes ctx.config.readBuffer_pos header.logicalLen header.offset
      header.logicalLen (Nat.le_refl _) hend t fun piece hpiece bytes hread =>
        (hsend piece hpiece bytes).mpr (hok.imp id fun h => h piece hpiece bytes hread)
    rw [hsent] at hframes
    rw [serveFetch]
    rcases hresult with ⟨hdone, hstop⟩ | ⟨e, hfailed, hstop⟩
    · split
      · rename_i heq
        rw [heq] at hdone
        cases hdone
      · rename_i heq
        rw [heq] at hdone
        cases hdone
      · rename_i heq
        rw [heq] at hframes
        exact ⟨rfl, frames, stop, htiles, .inl ⟨hframes, hstop⟩⟩
    · split
      · rename_i heq
        rw [heq] at hfailed
        cases hfailed
      · rename_i e' t' heq
        rw [heq] at hframes
        refine ⟨rfl, frames, stop, htiles,
          .inr ⟨errorFrame header (ServerError.core e').errorClass e'.message, ?_, rfl, rfl, rfl, hstop⟩⟩
        dsimp only at hframes
        simp only [Wired.sendError, Wired.write, hframes]
      · rename_i heq
        rw [heq] at hfailed
        cases hfailed

/-- A fetch with a valid ticket is answered by tiling `DATA` frames, or a prefix of
them and one `ERROR`, on a connection that stays open, exactly when it is
refused up front, its plan travels raw, or every piece that is read can be
described as a block and is taken by the compressor. -/
theorem handleFetch_answered_iff (ctx : Context) (session : SessionId) (header : FrameHeader)
    (ticket : Ticket) (nowMs : Nat) (touchAt : Nat → Nat) (s : Wired)
    (entry : TransferEntry ServedPlan) (registry : TransferRegistry ServedPlan)
    (hframe : header.wireLen = ticketLen)
    (hvalid : s.registry.fetch ctx.config.limits nowMs header.requestId ticket session =
      (.ok entry, registry))
    (hplan : HandedOut ctx.build entry.plan.layout) :
    Answered header s (handleFetch ctx session header (some ticket) nowMs touchAt s) ↔
      Answerable ctx entry.plan header := by
  obtain ⟨shape, dtype, indices, requested, hresolve⟩ := hplan
  have htotal := SelectionLayout.totalBytes_lt hresolve
  unfold handleFetch Answerable
  rw [if_neg (not_not.mpr hframe)]
  dsimp only
  split
  · rename_i hover
    simp only [hover, true_or, iff_true]
    exact answered_sendError s rfl _ _
  rename_i hover
  rw [hvalid]
  simp only [hover, false_or]
  cases hrange : entry.plan.layout.checkRange header.offset header.logicalLen with
  | error e =>
      have hout : entry.plan.layout.totalBytes < header.offset + header.logicalLen := by
        by_contra hin
        have hok : entry.plan.layout.checkRange header.offset header.logicalLen = .ok () :=
          SelectionLayout.checkRange_eq_ok.mpr ⟨by omega, by omega⟩
        rw [hrange] at hok
        cases hok
      simp only [hout, true_or, iff_true]
      exact answered_sendError { s with registry := registry } rfl _ _
  | ok _ =>
      obtain ⟨hend, hin⟩ := SelectionLayout.checkRange_eq_ok.mp hrange
      simp only [Nat.not_lt.mpr hin, false_or]
      cases hmis : misaligned entry.plan.layout header.offset header.logicalLen with
      | true =>
          simp only [if_true, true_or, iff_true]
          exact answered_sendError { s with registry := registry } rfl _ _
      | false =>
          simp only [Bool.false_eq_true, if_false, false_or]
          exact serveFetch_answered_iff ctx entry touchAt hend { s with registry := registry } rfl

/-! ## A plan of four floats -/

/-- A server built without the optional codecs.  Its deflate keeps the bytes as
one stored block, which no piece below is long enough to gain from. -/
def plainContext : Context where
  build := ⟨false, false⟩
  compressors := ⟨fun src => .ok (1 :: src), fun _ _ => .error (.badBlock "no SZ3"),
    fun _ _ => .error (.badBlock "no zfp")⟩
  config := .builtIn

/-- Four `float32` elements under a lossless quality, sent in `codec`. -/
def fourFloats (codec : Codec) : SelectionLayout where
  outShape := [4]
  dtype := .float32
  srcDtype := .float32
  totalBytes := 16
  quality := { codec := some codec }
  kind := .contiguous 0 16

theorem fourFloats_handedOut (codec : Codec) : HandedOut plainContext.build (fourFloats codec) :=
  ⟨[4], .float32, [], { codec := some codec }, by cases codec <;> decide⟩

/-- A connection whose registry holds that plan, under request 1. -/
def fourFloatsWired (codec : Codec) : Wired where
  sent := []
  registry := (TransferRegistry.new.insertAt ValidConfig.builtIn.limits (Vector.replicate 16 0)
    (some (Vector.replicate 16 7)) ⟨fourFloats codec, fun _ len => .ok (Vector.replicate len 0)⟩ 0).2

def fourFloatsEntry (codec : Codec) : TransferEntry ServedPlan :=
  ⟨1, Vector.replicate 16 0, Vector.replicate 16 7,
    ⟨fourFloats codec, fun _ len => .ok (Vector.replicate len 0)⟩, 0⟩

theorem fourFloats_fetch (codec : Codec) :
    ∃ registry, (fourFloatsWired codec).registry.fetch ValidConfig.builtIn.limits 0 1
      (Vector.replicate 16 7) (Vector.replicate 16 0) = (.ok (fourFloatsEntry codec), registry) := by
  have hstored : (fourFloatsWired codec).registry.entries.lookup 1 = some (fourFloatsEntry codec) := rfl
  have hfresh : TransferRegistry.isExpired ValidConfig.builtIn.limits
      (fourFloatsWired codec).registry (fourFloatsEntry codec) 0 = false := by
    simp [TransferRegistry.isExpired]
  have hticket : (!constantTimeEq (fourFloatsEntry codec).ticket (Vector.replicate 16 7) ||
      (fourFloatsEntry codec).session != Vector.replicate 16 0) = false := by
    cases codec <;> rfl
  rw [TransferRegistry.fetch, hstored]
  dsimp only
  rw [hfresh, if_neg Bool.false_ne_true, hticket, if_neg Bool.false_ne_true]
  exact ⟨_, rfl⟩

/-- Any bytes of a raw plan can be fetched. -/
theorem handleFetch_answered_iff_raw : Answered (.fetch 1 0 3) (fourFloatsWired .raw)
    (handleFetch plainContext (Vector.replicate 16 0) (.fetch 1 0 3) (some (Vector.replicate 16 7)) 0
      (fun _ => 0) (fourFloatsWired .raw)) := by
  obtain ⟨registry, hfetch⟩ := fourFloats_fetch .raw
  exact (handleFetch_answered_iff plainContext _ (.fetch 1 0 3) _ 0 _ (fourFloatsWired .raw)
    (fourFloatsEntry .raw) registry rfl hfetch (fourFloats_handedOut .raw)).mpr
    (.inr (.inr (.inr (.inl (by decide)))))

/-- Three bytes of a deflated plan of four-byte elements cannot be described as a
block, and asking for them ends the connection without an `ERROR`. -/
theorem gzip_fetch_unanswered : ¬ ∀ (ctx : Context) (session : SessionId) (header : FrameHeader)
    (ticket : Ticket) (nowMs : Nat) (touchAt : Nat → Nat) (s : Wired)
    (entry : TransferEntry ServedPlan) (registry : TransferRegistry ServedPlan),
    header.wireLen = ticketLen →
    s.registry.fetch ctx.config.limits nowMs header.requestId ticket session =
      (.ok entry, registry) →
    HandedOut ctx.build entry.plan.layout →
    Answered header s (handleFetch ctx session header (some ticket) nowMs touchAt s) := by
  intro h
  obtain ⟨registry, hfetch⟩ := fourFloats_fetch .gzip
  have hopen := (h plainContext _ (.fetch 1 0 3) _ 0 (fun _ => 0) (fourFloatsWired .gzip)
    (fourFloatsEntry .gzip) registry rfl hfetch (fourFloats_handedOut .gzip)).1
  have hclosed : ∃ t, handleFetch plainContext (Vector.replicate 16 0) (.fetch 1 0 3)
      (some (Vector.replicate 16 7)) 0 (fun _ => 0) (fourFloatsWired .gzip) =
      (.error (.core (.badBlock "a block of 3 bytes does not hold whole <f4 elements")), t) := by
    rw [handleFetch, if_neg (by decide)]
    dsimp only
    rw [if_neg (by decide), show plainContext.config.limits = ValidConfig.builtIn.limits from rfl]
    erw [hfetch]
    exact ⟨_, rfl⟩
  obtain ⟨t, ht⟩ := hclosed
  rw [ht] at hopen
  cases hopen

end Aex
