import Aex.Client.PieceFrames
import Aex.Client.PoolDelivery
import Aex.Server.Answer
import Aex.Server.Connection
import Aex.Server.FetchLookup

/-!
# What a client hears of a server

The assumption a transfer makes of its peer, that the oldest fetch of a connection
is the one being answered and is answered in order with the bytes of its plan, is
kept by the server: it is what its loop sends for the frames of a client, whatever
the rest of the server does to the registry in between.
-/

namespace Aex

open Tiling (Tiles)

/-! ## Plans and their streams -/

/-- A plan whose reads give the bytes of one stream, and whose pieces travel without
loss. -/
structure ServedPlan.Streams (build : Build) (plan : ServedPlan) (content : List UInt8) : Prop where
  length : content.length = plan.layout.totalBytes
  lt : plan.layout.totalBytes < Word.size 64
  reads : ∀ offset len (bytes : Vector UInt8 len), offset + len ≤ plan.layout.totalBytes →
    plan.readRange offset len = .ok bytes → bytes.toList = Vec.slice content offset len
  lossless : (plan.layout.quality.codecFor build).isErrorBounded = false

/-- The plans a registry holds under some ids give the bytes those ids stand for. -/
def Moment.Streams (build : Build) (stream : Nat → List UInt8) (ids : Nat → Prop) (moment : Moment) :
    Prop :=
  ∀ requestId entry, ids requestId → moment.registry.entries.lookup requestId = some entry →
    entry.plan.Streams build (stream requestId)

/-- A lossless codec goes without a bound. -/
theorem QualitySpec.eps_of_lossless {build : Build} {q : QualitySpec}
    (h : (q.codecFor build).isErrorBounded = false) : q.eps = none := by
  unfold QualitySpec.eps
  rw [if_neg]
  intro he
  rw [QualitySpec.codecFor_isErrorBounded he] at h
  cases h

section Frames

variable {ctx : Context} {L : SelectionLayout} {requestId offset : Nat} {bytes : List UInt8}
  {frame : Frame} {expanders : Expanders} {client : Build} {display : F64 → String}

/-- The frame of a piece stands for the bytes of the piece. -/
theorem pieceFrame_carries (h : pieceFrame ctx requestId L offset bytes = .ok frame)
    (hlossless : (L.quality.codecFor ctx.build).isErrorBounded = false)
    (hlen : bytes.length < Word.size 64) (hinverse : Inverse ctx.compressors expanders) :
    DataConn.Carries (expanders.toExpander client display) frame.header frame.payload bytes := by
  rcases pieceFrame_cases h with rfl | ⟨spec, stream, hblock, hstream, -, rfl⟩
  · rfl
  · obtain ⟨hraw, hrange⟩ := block_eq_some hblock
    have hdescribable : spec.Describable := by
      rw [QualitySpec.eps_of_lossless hlossless] at hrange
      exact BlockSpec.forRange_describable hrange (by decide)
    have hbytes := BlockSpec.forRange_bytes hlen hrange
    generalize L.quality.codecFor ctx.build = codec at *
    have hgzip : codec = .gzip := by
      cases codec with
      | raw => exact absurd rfl hraw
      | gzip => rfl
      | sz | zfp => cases hlossless
    subst hgzip
    refine (if_neg hraw).mpr fun dst hdst => ?_
    have hdrop : (spec.encode ++ stream).drop blockHeaderLen = stream := by
      rw [← BlockSpec.length_encode, List.drop_left]
    show decompressInto client display expanders .gzip (spec.encode ++ stream) dst = _
    rw [decompressInto, BlockSpec.decode_encode hdescribable]
    dsimp only
    rw [if_neg (not_not.mpr (hbytes.trans hdst.symm)), hdrop]
    show gzipDecompressInto expanders stream dst = _
    rw [gzipDecompressInto, hdst, hinverse bytes stream hstream]
    dsimp only
    rw [if_neg (Nat.lt_irrefl _), Vec.write_whole hdst.symm]

end Frames

/-! ## The frames of one fetch -/

/-- `DATA` frames of one request that tile `[start, stop)` in order, each standing for
its range of the stream. -/
structure Delivers (expander : Expander) (content : List UInt8) (requestId start : Nat)
    (frames : List Frame) (stop : Nat) : Prop extends DataTiles requestId start frames stop where
  carries : ∀ frame ∈ frames, DataConn.Carries expander frame.header frame.payload
    (Vec.slice content frame.header.offset frame.header.logicalLen)

section Fetch

variable {ctx : Context} {expanders : Expanders} {client : Build} {display : F64 → String}
  {entry : TransferEntry ServedPlan} {content : List UInt8} {touchAt : Nat → Nat}

theorem Delivers.nil (expander : Expander) (requestId start : Nat) :
    Delivers expander content requestId start [] start :=
  { DataTiles.nil requestId start with carries := by simp }

theorem Delivers.cons {expander : Expander} {requestId start stop len : Nat} {frame : Frame}
    {frames : List Frame} (h : frame.header.frameType = .data ∧ frame.header.requestId = requestId ∧
      frame.header.offset = start ∧ frame.header.logicalLen = len) (hlen : 0 < len)
    (hcarries : DataConn.Carries expander frame.header frame.payload (Vec.slice content start len))
    (hrest : Delivers expander content requestId (start + len) frames stop) :
    Delivers expander content requestId start (frame :: frames) stop := by
  refine { DataTiles.cons h hlen hrest.toDataTiles with carries := ?_ }
  rw [List.forall_mem_cons, h.2.2.1, h.2.2.2]
  exact ⟨hcarries, hrest.carries⟩

/-- Whatever ends it, serving a range sends the bytes of the stream from where the
range starts, and all of them exactly when no read failed. -/
theorem serve_delivers (hplan : entry.plan.Streams ctx.build content)
    (hinverse : Inverse ctx.compressors expanders) {bufferLen : Nat} (hbuffer : 0 < bufferLen)
    {requestId fuel offset len : Nat} (hfuel : len ≤ fuel)
    (hin : offset + len ≤ entry.plan.layout.totalBytes) (s : Wired) :
    ∃ frames stop, Delivers (expanders.toExpander client display) content requestId offset frames stop ∧
      (serve entry.plan.layout bufferLen entry.plan.readRange (sendPiece ctx requestId entry touchAt)
        fuel offset len s).2.sent = s.sent ++ frames ∧ stop ≤ offset + len ∧
      ∀ served, (serve entry.plan.layout bufferLen entry.plan.readRange
        (sendPiece ctx requestId entry touchAt) fuel offset len s).1 = .ok served →
          (served = .ok () ↔ stop = offset + len) := by
  induction fuel generalizing offset len s with
  | zero =>
      obtain rfl : len = 0 := Nat.le_zero.mp hfuel
      exact ⟨[], offset, .nil _ requestId offset, by simp [serve], Nat.le_refl _, by simp [serve]⟩
  | succ fuel ih =>
      rw [serve]
      by_cases hlen : len = 0
      · rw [if_pos hlen, hlen]
        exact ⟨[], offset, .nil _ requestId offset, by simp, Nat.le_refl _, by simp⟩
      rw [if_neg hlen]
      dsimp only
      generalize hpiece : rowAligned entry.plan.layout offset (min len bufferLen) = piece
      have hpos : 0 < piece := hpiece ▸ rowAligned_pos (by omega)
      have hle : piece ≤ len := by
        have := rowAligned_le entry.plan.layout offset (min len bufferLen)
        omega
      have hnothing := @Delivers.nil content (expanders.toExpander client display) requestId offset
      cases hread : entry.plan.readRange offset piece with
      | error e => exact ⟨[], offset, hnothing, by simp, Nat.le_add_right _ _, by simp [hlen]⟩
      | ok bytes =>
          dsimp only
          have hcontent := hplan.reads offset piece bytes (by omega) hread
          cases hframe : pieceFrame ctx requestId entry.plan.layout offset bytes.toList with
          | error e =>
              exact ⟨[], offset, hnothing, by simp [sendPiece, hframe], Nat.le_add_right _ _,
                by simp [sendPiece, hframe]⟩
          | ok frame =>
              have hlt := hplan.lt
              have hcarries := @pieceFrame_carries ctx _ _ _ _ _ expanders client display hframe
                hplan.lossless (by rw [Vector.length_toList]; omega) hinverse
              rw [hcontent] at hcarries
              have hheader := pieceFrame_header hframe
              rw [Vector.length_toList] at hheader
              have hrest := @ih (offset + piece) (len - piece) (by omega) (by omega)
                { s.write frame with registry := s.registry.touch entry (touchAt offset) }
              obtain ⟨frames, stop, htiles, hsent, hstop, hdone⟩ := hrest
              simp only [sendPiece, hframe]
              refine ⟨frame :: frames, stop, .cons hheader hpos hcarries htiles, ?_, by omega, ?_⟩
              · rw [hsent, Wired.write, List.append_assoc, List.singleton_append]
              · intro served hserved
                rw [hdone served hserved]
                omega

/-- What a fetch is answered with: bytes of the stream from where the range starts,
and then nothing or an `ERROR` that names the fetch.  The connection carries on past
it only when the range was sent whole or the `ERROR` was. -/
def Told (expander : Expander) (content : List UInt8) (requestId offset len : Nat) (s : Wired)
    (result : Except ServerError Disposition × Wired) : Prop :=
  ∃ frames stop, Delivers expander content requestId offset frames stop ∧
    stop ≤ offset + len ∧
    ((result.2.sent = s.sent ++ frames ∧ (∀ d, result.1 = .ok d → stop = offset + len)) ∨
      ∃ error, result.2.sent = s.sent ++ frames ++ [error] ∧ error.header.frameType = .error ∧
        error.header.requestId = requestId ∧ error.header.offset = offset ∧
        (0 < len → stop < offset + len))

theorem told_sendError {expander : Expander} {header : FrameHeader} (t : Wired) (s : Wired)
    (hsent : t.sent = s.sent) (result : Except ServerError Disposition) (errorClass : ErrorClass)
    (message : String) :
    Told expander content header.requestId header.offset header.logicalLen s
      (result, t.sendError header errorClass message) := by
  refine ⟨[], header.offset, .nil _ _ _, Nat.le_add_right _ _,
    .inr ⟨errorFrame header errorClass message, ?_, rfl, rfl, rfl, Nat.lt_add_of_pos_right⟩⟩
  simp only [Wired.sendError, Wired.write, hsent, List.append_nil]

theorem handleFetch_told {session : SessionId} {moment : Moment} {stream : Nat → List UInt8}
    {ids : Nat → Prop} (hmoment : moment.Streams ctx.build stream ids)
    (hinverse : Inverse ctx.compressors expanders) {requestId : Nat} (hid : ids requestId) (ticket : Ticket) (offset len : Nat) (s : Wired) :
    Told (expanders.toExpander client display) (stream requestId) requestId offset len s
      ((ClientFrame.fetch requestId ticket offset len).answer ctx session moment s) := by
  have herror := @told_sendError (stream requestId) (expanders.toExpander client display)
    (.fetch requestId offset len)
  unfold ClientFrame.answer handleFetch
  dsimp only
  rw [if_neg (by simp [FrameHeader.fetch])]
  split
  · exact herror ⟨s.sent, _⟩ s rfl _ _ _
  split
  · exact herror ⟨s.sent, _⟩ s rfl _ _ _
  rename_i entry registry hfetch
  have hplan : entry.plan.Streams ctx.build (stream requestId) :=
    hmoment requestId entry hid (TransferRegistry.fetch_ok hfetch).1
  split
  · exact herror ⟨s.sent, _⟩ s rfl _ _ _
  rename_i hrange
  have hin : offset + len ≤ entry.plan.layout.totalBytes :=
    (SelectionLayout.checkRange_eq_ok.mp hrange).2
  split
  · exact herror ⟨s.sent, _⟩ s rfl _ _ _
  obtain ⟨frames, stop, hdelivers, hsent, hstop, hdone⟩ := @serve_delivers ctx expanders client display
    entry (stream requestId) moment.touchAt hplan hinverse _ ctx.config.readBuffer_pos requestId len
    offset len (Nat.le_refl _) hin ⟨s.sent, registry⟩
  dsimp only [serveFetch, FrameHeader.fetch]
  cases hserve : serve entry.plan.layout ctx.config.transfer.readBufferBytes entry.plan.readRange
      (sendPiece ctx requestId entry moment.touchAt) len offset len ⟨s.sent, registry⟩ with
  | mk result t =>
      rw [hserve] at hsent hdone
      cases result with
      | error e => exact ⟨frames, stop, hdelivers, hstop, .inl ⟨hsent, by simp⟩⟩
      | ok served =>
          cases served with
          | ok _ =>
              exact ⟨frames, stop, hdelivers, hstop, .inl ⟨hsent, fun _ _ => (hdone _ rfl).mp rfl⟩⟩
          | error e =>
              refine ⟨frames, stop, hdelivers, hstop, .inr ⟨errorFrame (.fetch requestId offset len)
                (ServerError.core e).errorClass e.message, ?_, rfl, rfl, rfl, fun _ => ?_⟩⟩
              · dsimp only at hsent
                simp only [Wired.sendError, Wired.write, hsent]
                rfl
              · have hfailed := (not_congr (hdone _ rfl)).mp (by simp)
                omega

end Fetch

/-! ## The frames of a connection -/

section Replies

variable (settings : Settings) (stream : Nat → List UInt8)

/-- The frames answer in order what is outstanding on a connection, and leave `rest`. -/
def Replies : DataConn → List Frame → DataConn → Prop
  | conn, [], rest => conn = rest
  | conn, frame :: frames, rest =>
      (frame.header.frameType = .pong ∨ ∃ oldest ∈ conn.asked.head?,
        Answers settings stream oldest frame.header frame.payload) ∧
      Replies (conn.answered frame.header) frames rest

variable {settings stream} {client : Build} {display : F64 → String} {conn mid rest : DataConn} {frames more : List Frame} {oldest : Asked}
  {later : List Asked} {start stop : Nat}

theorem Replies.append (h : Replies settings stream conn frames mid)
    (hmore : Replies settings stream mid more rest) :
    Replies settings stream conn (frames ++ more) rest := by
  induction frames generalizing conn with
  | nil =>
      rw [show conn = mid from h]
      exact hmore
  | cons frame frames ih => exact ⟨h.1, ih h.2⟩

theorem answered_pong {header : FrameHeader} (h : header.frameType = .pong) :
    conn.answered header = conn := by
  unfold DataConn.answered
  cases conn.asked with
  | nil => rfl
  | cons oldest later => simp only [h]

/-- What is asked for later waits its turn. -/
theorem answered_sendFetch {header : FrameHeader} {requestId offset len : Nat} {ticket : Ticket}
    (h : header.frameType = .pong ∨ conn.asked.head? ≠ none) :
    (conn.sendFetch requestId ticket offset len).answered header =
      (conn.answered header).sendFetch requestId ticket offset len := by
  obtain ⟨asked⟩ := conn
  cases asked with
  | nil =>
      have hpong : header.frameType = .pong := h.resolve_right (by simp)
      simp only [DataConn.answered, DataConn.sendFetch, List.nil_append, hpong]
  | cons oldest later =>
      simp only [DataConn.answered, DataConn.sendFetch, List.cons_append]
      cases header.frameType with
      | data => dsimp only; split <;> rfl
      | error => dsimp only; split <;> rfl
      | fetch | ping | pong => rfl

theorem Replies.sendFetch (h : Replies settings stream conn frames rest) (requestId : Nat)
    (ticket : Ticket) (offset len : Nat) :
    Replies settings stream (conn.sendFetch requestId ticket offset len) frames
      (rest.sendFetch requestId ticket offset len) := by
  induction frames generalizing conn with
  | nil =>
      rw [show conn = rest from h]
      rfl
  | cons frame frames ih =>
      have hnext := ih h.2
      rw [← answered_sendFetch] at hnext
      · refine ⟨h.1.imp_right fun hanswers => ?_, hnext⟩
        obtain ⟨oldest, holdest, hanswers⟩ := hanswers
        refine ⟨oldest, ?_, hanswers⟩
        rw [DataConn.sendFetch, List.head?_append, Option.mem_def.mp holdest]
        rfl
      · refine h.1.imp_right fun hanswers => ?_
        obtain ⟨oldest, holdest, -⟩ := hanswers
        rw [Option.mem_def.mp holdest]
        exact Option.some_ne_none _

/-- What is left of the oldest fetch once its answer has reached `stop`. -/
def leftOf (oldest : Asked) (later : List Asked) (stop : Nat) : DataConn :=
  if stop < oldest.offset + oldest.len then
    ⟨{ oldest with answered := stop - oldest.offset } :: later⟩
  else ⟨later⟩

/-- Bytes of the stream in order answer the oldest fetch from where it has got to. -/
theorem Delivers.replies
    (h : Delivers settings.expander (stream oldest.requestId) oldest.requestId start frames stop)
    (hstart : start = oldest.offset + oldest.answered) (hmore : oldest.answered < oldest.len)
    (hstop : stop ≤ oldest.offset + oldest.len) :
    Replies settings stream ⟨oldest :: later⟩ frames (leftOf oldest later stop) := by
  induction frames generalizing oldest start with
  | nil =>
      have htiles : start = stop := h.tiles
      subst htiles
      unfold leftOf
      rw [if_pos (by omega), hstart, Nat.add_sub_cancel_left]
      rfl
  | cons frame frames ih =>
      have hall := h.data
      rw [List.forall_mem_cons] at hall
      have htiles := h.tiles
      rw [List.map_cons] at htiles
      obtain ⟨hoffset, hpos, htiles⟩ := htiles
      have hle := htiles.le
      have hcarries := h.carries
      rw [List.forall_mem_cons] at hcarries
      change frame.header.offset = start at hoffset
      change 0 < frame.header.logicalLen at hpos
      change start + frame.header.logicalLen ≤ stop at hle
      have hanswers : Answers settings stream oldest frame.header frame.payload := by
        simp only [Answers, hall.1.1]
        exact ⟨hall.1.2, hoffset.trans hstart, hpos, by omega, hcarries.1⟩
      refine ⟨.inr ⟨oldest, rfl, hanswers⟩, ?_⟩
      simp only [DataConn.answered, hall.1.1]
      have hrest : Delivers settings.expander (stream oldest.requestId) oldest.requestId
          (start + frame.header.logicalLen) frames stop := ⟨⟨hall.2, htiles⟩, hcarries.2⟩
      by_cases hlast : oldest.answered + frame.header.logicalLen < oldest.len
      · rw [if_pos hlast]
        exact @ih { oldest with answered := oldest.answered + frame.header.logicalLen } _ hrest
          (by dsimp only; omega) hlast hstop
      · -- Nothing is left of the range, so nothing more was sent for it.
        rw [if_neg hlast]
        have hnil : frames = [] := by
          cases frames with
          | nil => rfl
          | cons frame' frames =>
              have hnext := htiles
              rw [List.map_cons] at hnext
              have := hnext.2.2.le
              have := hnext.2.1
              omega
        subst hnil
        unfold leftOf
        rw [if_neg (by omega)]
        rfl

/-- A fetch that can be answered: the id of a plan, and something to send. -/
def ClientFrame.Proper (ids : Nat → Prop) : ClientFrame → Prop
  | .fetch requestId _ _ len => ids requestId ∧ requestId ≠ 0 ∧ 0 < len
  | .ping | .pong => True

/-- The fetch a frame asks for, as it is outstanding. -/
def ClientFrame.asked : ClientFrame → Option Asked
  | .fetch requestId ticket offset len => some ⟨requestId, ticket, offset, len, 0⟩
  | .ping | .pong => none

section Server

variable {ctx : Context} {session : SessionId} {expanders : Expanders} {frame : ClientFrame}
  {moment : Moment} {ids : Nat → Prop}

/-- What a server sends for a frame of the client answers what it asked for, after
which it goes on to what was asked next. -/
theorem answer_replies (hexpander : settings.expander = expanders.toExpander client display)
    (hinverse : Inverse ctx.compressors expanders) (hmoment : moment.Streams ctx.build stream ids)
    (hproper : frame.Proper ids) (s : Wired) (later : List Asked) :
    ∃ frames rest, (frame.answer ctx session moment s).2.sent = s.sent ++ frames ∧
      Replies settings stream ⟨frame.asked.toList ++ later⟩ frames rest ∧
      ∀ d, (frame.answer ctx session moment s).1 = .ok d → rest = ⟨later⟩ := by
  cases frame with
  | ping =>
      exact ⟨[⟨{ frameType := .pong }, []⟩], ⟨later⟩, rfl, ⟨.inl rfl, answered_pong rfl⟩, fun _ _ => rfl⟩
  | pong => exact ⟨[], ⟨later⟩, (List.append_nil _).symm, rfl, fun _ _ => rfl⟩
  | fetch requestId ticket offset len =>
      have htold := @handleFetch_told ctx expanders client display session moment stream ids hmoment
        hinverse requestId hproper.1 ticket offset len s
      rw [← hexpander] at htold
      obtain ⟨frames, stop, hdelivers, hstop, hsent⟩ := htold
      have hreplies := @Delivers.replies settings stream frames ⟨requestId, ticket, offset, len, 0⟩ later
        offset stop hdelivers rfl hproper.2.2 hstop
      rcases hsent with ⟨hsent, hdone⟩ | ⟨error, hsent, htype, hid, hoffset, hcut⟩
      · refine ⟨frames, _, hsent, hreplies, fun d hd => ?_⟩
        unfold leftOf
        rw [if_neg (by rw [hdone d hd]; exact Nat.lt_irrefl _)]
      · have hcut := hcut hproper.2.2
        unfold leftOf at hreplies
        rw [if_pos hcut] at hreplies
        refine ⟨frames ++ [error], ⟨later⟩, by rw [hsent, List.append_assoc], hreplies.append ?_,
          fun _ _ => rfl⟩
        refine ⟨.inr ⟨_, rfl, ?_⟩, ?_⟩
        · simp only [Answers, htype]
          exact ⟨hid, hoffset⟩
        · simp only [DataConn.answered, htype, hid]
          rw [if_neg hproper.2.1]
          rfl

/-- The frames a server sends for those of a client answer them in order, byte for
byte, up to wherever the connection ends; when it does not end, all of them. -/
theorem answerAll_replies (hexpander : settings.expander = expanders.toExpander client display)
    (hinverse : Inverse ctx.compressors expanders) {asks : List ClientFrame} {moments : List Moment}
    (hmoments : ∀ moment ∈ moments, moment.Streams ctx.build stream ids)
    (hproper : ∀ frame ∈ asks, frame.Proper ids) (s : Wired) :
    ∃ frames rest, (answerAll ctx session asks moments s).2.sent = s.sent ++ frames ∧
      Replies settings stream ⟨asks.filterMap ClientFrame.asked⟩ frames rest ∧
      ((answerAll ctx session asks moments s).1 = some (.ok .carryOn) → rest.asked = []) := by
  induction asks generalizing moments s with
  | nil => exact ⟨[], ⟨[]⟩, (List.append_nil _).symm, rfl, fun _ => rfl⟩
  | cons ask asks ih =>
      cases moments with
      | nil => exact ⟨[], _, (List.append_nil _).symm, rfl, by simp [answerAll]⟩
      | cons moment moments =>
          rw [List.forall_mem_cons] at hmoments hproper
          have hfirst := @answer_replies settings stream client display ctx session expanders ask moment
            ids hexpander hinverse hmoments.1 hproper.1 s (asks.filterMap ClientFrame.asked)
          obtain ⟨frames, rest, hsent, hreplies, hnext⟩ := hfirst
          have hasked : (ask :: asks).filterMap ClientFrame.asked =
              ask.asked.toList ++ asks.filterMap ClientFrame.asked := by
            cases hask : ask.asked <;> simp [hask]
          rw [hasked, answerAll]
          cases hanswer : ask.answer ctx session moment s with
          | mk result t =>
              rw [hanswer] at hsent hnext
              cases result with
              | error e => exact ⟨frames, rest, hsent, hreplies, by simp⟩
              | ok disposition =>
                  obtain rfl := hnext disposition rfl
                  cases disposition with
                  | close => exact ⟨frames, _, hsent, hreplies, by simp⟩
                  | carryOn =>
                      obtain ⟨more, left, hmore, hrest, hdone⟩ := ih hmoments.2 hproper.2 t
                      refine ⟨frames ++ more, left, ?_, hreplies.append hrest, hdone⟩
                      dsimp only at hsent hmore ⊢
                      rw [hmore, hsent, List.append_assoc]

end Server

end Replies

end Aex
