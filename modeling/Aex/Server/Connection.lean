import Aex.Server.Dataplane
import Aex.Wire.FrameCodec

/-!
# A data connection past its handshake

The loop that takes frames off a connection and handles them.  Bytes arrive in
whatever pieces the network makes of them; the server may be told to stop between
any two reads, and the registry is shared, so that each frame finds it as the
rest of the server left it.
-/

namespace Aex

/-! ## Filling a buffer -/

/-- One turn of the loop that fills a buffer. -/
inductive Poll where
  /-- The server is stopping. -/
  | stopping
  /-- A read that takes at most `more + 1` of the bytes that have arrived; none
  when the peer has hung up. -/
  | gives (more : Nat)
  /-- The read timed out, so long after the last byte. -/
  | quiet (elapsedMs : Nat)
  | interrupted
  | fails (kind : IoKind) (text : String)
  deriving Repr, DecidableEq

/-- What became of a buffer. -/
inductive Filled where
  | full (bytes : List UInt8)
  /-- The peer hung up before any byte of it. -/
  | ended
  /-- Nothing has been heard of the read since. -/
  | waiting
  | failed (kind : IoKind) (text : String)
  deriving Repr, DecidableEq

/-- A buffer, the turns left over and the bytes left over. -/
structure ReadFull where
  filled : Filled
  polls : List Poll
  stream : List UInt8

/-- Fill a buffer of `n` bytes, `filled` of which are there.  `stream` is what the
peer still sends before it hangs up. -/
def readFull (idleSec n : Nat) (polls : List Poll) (filled stream : List UInt8) : ReadFull :=
  if n ≤ filled.length then ⟨.full filled, polls, stream⟩
  else
    match polls with
    | [] => ⟨.waiting, [], stream⟩
    | .stopping :: polls => ⟨.failed .other "the server is shutting down", polls, stream⟩
    | .gives more :: polls =>
        let taken := min (more + 1) (n - filled.length)
        if stream = [] then
          ⟨if filled = [] then .ended
            else .failed .unexpectedEof
              s!"the peer hung up {filled.length} bytes into a {n} byte read", polls, stream⟩
        else readFull idleSec n polls (filled ++ stream.take taken) (stream.drop taken)
    | .quiet elapsedMs :: polls =>
        if idleSec * 1000 ≤ elapsedMs then
          ⟨.failed .other s!"nothing arrived for {idleSec}s", polls, stream⟩
        else readFull idleSec n polls filled stream
    | .interrupted :: polls => readFull idleSec n polls filled stream
    | .fails kind text :: polls => ⟨.failed kind text, polls, stream⟩

/-- A turn that neither ends the connection nor finds it idle for too long. -/
def Poll.Progresses (idleSec : Nat) : Poll → Prop
  | .gives _ | .interrupted => True
  | .quiet elapsedMs => elapsedMs < idleSec * 1000
  | .stopping | .fails _ _ => False

instance (idleSec : Nat) : (poll : Poll) → Decidable (poll.Progresses idleSec)
  | .gives _ | .interrupted => .isTrue trivial
  | .quiet elapsedMs => inferInstanceAs (Decidable (elapsedMs < idleSec * 1000))
  | .stopping | .fails _ _ => .isFalse id

def Poll.isGives : Poll → Bool
  | .gives _ => true
  | _ => false

/-! ## Frames from a client -/

/-- What one frame finds: the registry, the time, and the times its plan is
touched at while it is being answered. -/
structure Moment where
  registry : TransferRegistry ServedPlan
  nowMs : Nat
  touchAt : Nat → Nat

/-- Report a failure against the connection. -/
def Wired.sendConnError (s : Wired) (errorClass : ErrorClass) (message : String) : Wired :=
  s.sendError { frameType := .error } errorClass message

theorem size_toArray_of_length {bytes : List UInt8} (h : bytes.length = 16) :
    bytes.toArray.size = 16 := by
  rw [List.size_toArray, h]

/-- The ticket of a fetch, from the bytes of its payload. -/
def ticketOf (bytes : List UInt8) : Option Ticket :=
  if h : bytes.length = 16 then some ⟨bytes.toArray, size_toArray_of_length h⟩ else none

/-- A connection being served: the frames sent on it, and the turns and the bytes
still to come. -/
structure Connection where
  wired : Wired
  polls : List Poll
  stream : List UInt8

namespace Connection

/-- Handle one frame whose header has been read; `none` while its ticket is waited
for.  A ticket is read only where the header announces one. -/
def handleFrame (ctx : Context) (session : SessionId) (idleSec : Nat) (moment : Moment)
    (header : FrameHeader) (c : Connection) :
    Option (Except ServerError Disposition) × Connection :=
  let s : Wired := { c.wired with registry := moment.registry }
  match header.frameType with
  | .fetch =>
      let read := if header.wireLen ≠ ticketLen then ⟨.ended, c.polls, c.stream⟩
        else readFull idleSec ticketLen c.polls [] c.stream
      let fetched := fun ticket =>
        let (result, wired) := handleFetch ctx session header ticket moment.nowMs moment.touchAt s
        (some result, ⟨wired, read.polls, read.stream⟩)
      match read.filled with
      | .full bytes => fetched (ticketOf bytes)
      | .ended => fetched none
      | .waiting => (none, ⟨s, read.polls, read.stream⟩)
      | .failed kind text => (some (.error (.io kind text)), ⟨s, read.polls, read.stream⟩)
  | .ping => (some (.ok .carryOn), { c with wired := s.write ⟨{ frameType := .pong }, []⟩ })
  | .pong => (some (.ok .carryOn), { c with wired := s })
  | other => (some (.ok .close), { c with
      wired := s.sendConnError .protocol s!"{other.debug} is not a frame a client may send" })

/-- Serve fetches until the peer hangs up, goes quiet or breaks the protocol; `none`
while the loop goes on.  Each frame has a moment of its own. -/
def serveFrames (ctx : Context) (session : SessionId) (idleSec : Nat) (moments : List Moment)
    (c : Connection) : Option (Except ServerError Unit) × Connection :=
  let read := readFull idleSec headerLen c.polls [] c.stream
  let c : Connection := ⟨c.wired, read.polls, read.stream⟩
  match read.filled with
  | .ended => (some (.ok ()), c)
  | .waiting => (none, c)
  | .failed kind text => (some (.error (.io kind text)), c)
  | .full bytes =>
      match FrameHeader.decode bytes with
      | .error e => (some (.error (.protocol e.message)),
          { c with wired := c.wired.sendConnError e.errorClass e.message })
      | .ok header =>
          match moments with
          | [] => (none, c)
          | moment :: moments =>
              match handleFrame ctx session idleSec moment header c with
              | (none, c) => (none, c)
              | (some (.error e), c) => (some (.error e), c)
              | (some (.ok .close), c) => (some (.ok ()), c)
              | (some (.ok .carryOn), c) => serveFrames ctx session idleSec moments c

end Connection

/-! ## What a client sends -/

/-- A frame a client may send. -/
inductive ClientFrame where
  | fetch (requestId : Nat) (ticket : Ticket) (offset len : Nat)
  | ping
  | pong
  deriving Repr, DecidableEq

def ClientFrame.frame : ClientFrame → Frame
  | .fetch requestId ticket offset len => ⟨.fetch requestId offset len, ticket.toList⟩
  | .ping => ⟨{ frameType := .ping }, []⟩
  | .pong => ⟨{ frameType := .pong }, []⟩

/-- The numbers of a fetch fit their fields. -/
def ClientFrame.Fits : ClientFrame → Prop
  | .fetch requestId _ offset len =>
      requestId < Word.size 32 ∧ offset < Word.size 64 ∧ len < Word.size 64
  | .ping | .pong => True

/-- What the client writes on the connection. -/
def wireBytes (frames : List ClientFrame) : List UInt8 := frames.flatMap fun f => f.frame.bytes

/-- What a frame of the client is answered with. -/
def ClientFrame.answer (ctx : Context) (session : SessionId) (moment : Moment) (s : Wired)
    (frame : ClientFrame) : Except ServerError Disposition × Wired :=
  let s : Wired := { s with registry := moment.registry }
  match frame with
  | .fetch requestId ticket offset len =>
      handleFetch ctx session (.fetch requestId offset len) (some ticket) moment.nowMs moment.touchAt s
  | .ping => (.ok .carryOn, s.write ⟨{ frameType := .pong }, []⟩)
  | .pong => (.ok .carryOn, s)

/-- The frames of a client answered one after another, up to the one that ends the
connection. -/
def answerAll (ctx : Context) (session : SessionId) :
    List ClientFrame → List Moment → Wired → Option (Except ServerError Disposition) × Wired
  | [], _, s => (some (.ok .carryOn), s)
  | _ :: _, [], s => (none, s)
  | frame :: frames, moment :: moments, s =>
      match frame.answer ctx session moment s with
      | (.error e, s) => (some (.error e), s)
      | (.ok .close, s) => (some (.ok .close), s)
      | (.ok .carryOn, s) => answerAll ctx session frames moments s

/-! ## Bytes and frames -/

section Bytes

variable {idleSec n : Nat} {polls : List Poll}

/-- How many turns take something. -/
def givesCount (polls : List Poll) : Nat := polls.countP Poll.isGives

/-- A buffer is filled with the next bytes there are, however they arrive. -/
theorem readFull_spec {filled bytes rest : List UInt8}
    (hprogress : ∀ p ∈ polls, p.Progresses idleSec) (hlen : filled.length + bytes.length = n)
    (henough : bytes.length ≤ givesCount polls) :
    ∃ more, readFull idleSec n polls filled (bytes ++ rest) = ⟨.full (filled ++ bytes), more, rest⟩ ∧
      (∀ p ∈ more, p.Progresses idleSec) ∧ givesCount polls ≤ givesCount more + bytes.length := by
  induction polls generalizing filled bytes with
  | nil =>
      have hnil : bytes = [] := List.length_eq_zero_iff.mp (Nat.le_zero.mp henough)
      subst hnil
      rw [List.length_nil] at hlen
      rw [readFull.eq_def, if_pos (by omega)]
      exact ⟨[], by simp, hprogress, by simp⟩
  | cons poll polls ih =>
      rw [readFull.eq_def]
      by_cases hfull : n ≤ filled.length
      · have hnil : bytes = [] := List.length_eq_zero_iff.mp (by omega)
        subst hnil
        rw [if_pos hfull]
        exact ⟨_, by simp, hprogress, by simp⟩
      rw [if_neg hfull]
      rw [List.forall_mem_cons] at hprogress
      cases poll with
      | stopping => exact hprogress.1.elim
      | fails kind text => exact hprogress.1.elim
      | interrupted => exact ih hprogress.2 hlen henough
      | quiet elapsedMs =>
          have helapsed : elapsedMs < idleSec * 1000 := hprogress.1
          dsimp only
          rw [if_neg (by omega)]
          exact ih hprogress.2 hlen henough
      | gives more =>
          have hcount : givesCount (.gives more :: polls) = givesCount polls + 1 :=
            List.countP_cons_of_pos rfl
          have hne : bytes ++ rest ≠ [] := by
            intro hnil
            rw [List.append_eq_nil_iff] at hnil
            rw [hnil.1, List.length_nil] at hlen
            omega
          dsimp only
          rw [if_neg hne]
          generalize htaken : min (more + 1) (n - filled.length) = taken
          have hle : taken ≤ bytes.length := by omega
          have hpos : 0 < taken := by omega
          rw [List.take_append_of_le_length hle, List.drop_append_of_le_length hle]
          have hrest := @ih (filled ++ bytes.take taken) (bytes.drop taken) hprogress.2
            (by simp only [List.length_append, List.length_take, List.length_drop]; omega)
            (by rw [List.length_drop]; omega)
          obtain ⟨left, hread, hleft, hgives⟩ := hrest
          rw [List.length_drop] at hgives
          rw [List.append_assoc, List.take_append_drop] at hread
          exact ⟨left, hread, hleft, by omega⟩

/-- A peer that has hung up is heard of before any byte. -/
theorem readFull_ended (hn : 0 < n) (hprogress : ∀ p ∈ polls, p.Progresses idleSec)
    (henough : 0 < givesCount polls) :
    ∃ more, readFull idleSec n polls [] [] = ⟨.ended, more, []⟩ := by
  have hfull : ¬ n ≤ ([] : List UInt8).length := by
    rw [List.length_nil]
    omega
  induction polls with
  | nil => exact absurd henough (by simp [givesCount])
  | cons poll polls ih =>
      rw [readFull.eq_def, if_neg hfull]
      rw [List.forall_mem_cons] at hprogress
      cases poll with
      | stopping => exact hprogress.1.elim
      | fails kind text => exact hprogress.1.elim
      | interrupted => exact ih hprogress.2 henough
      | quiet elapsedMs =>
          have helapsed : elapsedMs < idleSec * 1000 := hprogress.1
          dsimp only
          rw [if_neg (by omega)]
          exact ih hprogress.2 henough
      | gives more => exact ⟨polls, by simp⟩

end Bytes

section Frames

variable {ctx : Context} {session : SessionId} {idleSec : Nat} {polls : List Poll} {s : Wired}
  {frame : ClientFrame}

theorem ClientFrame.Fits.wellFormed (h : frame.Fits) : frame.frame.WellFormed := by
  cases frame with
  | fetch requestId ticket offset len =>
      constructor
      · constructor
        · show 0 < Word.size 8
          decide
        · exact h.1
        · exact h.2.1
        · show ticketLen < Word.size 64
          decide
        · exact h.2.2
      · show ticketLen = ticket.toList.length
        rw [Vector.length_toList]
        rfl
  | ping | pong =>
      constructor
      · constructor <;> decide
      · rfl

theorem ticketOf_toList (ticket : Ticket) : ticketOf ticket.toList = some ticket := by
  rw [ticketOf, dif_pos (Vector.length_toList ..)]
  rfl

theorem length_frame_bytes (h : frame.Fits) :
    frame.frame.bytes.length = headerLen + frame.frame.header.wireLen := by
  rw [Frame.bytes, List.length_append, FrameHeader.length_encode, h.wellFormed.wireLen]

/-- A frame whose header has been read is answered once the rest of it has arrived. -/
theorem handleFrame_spec {moment : Moment} {rest : List UInt8}
    (hprogress : ∀ p ∈ polls, p.Progresses idleSec)
    (henough : frame.frame.header.wireLen ≤ givesCount polls) :
    ∃ more, Connection.handleFrame ctx session idleSec moment frame.frame.header
          ⟨s, polls, frame.frame.payload ++ rest⟩ =
        (some (frame.answer ctx session moment s).1, ⟨(frame.answer ctx session moment s).2, more, rest⟩) ∧
      (∀ p ∈ more, p.Progresses idleSec) ∧
      givesCount polls ≤ givesCount more + frame.frame.header.wireLen := by
  cases frame with
  | fetch requestId ticket offset len =>
      have hlen : ([] : List UInt8).length + ticket.toList.length = ticketLen := by
        rw [Vector.length_toList]
        rfl
      have hcount : ticket.toList.length ≤ givesCount polls := by
        rw [Vector.length_toList]
        exact henough
      obtain ⟨more, hread, hmore, hgives⟩ := @readFull_spec idleSec ticketLen polls [] ticket.toList rest
        hprogress hlen hcount
      rw [Vector.length_toList] at hgives
      refine ⟨more, ?_, hmore, hgives⟩
      simp only [ClientFrame.frame, Connection.handleFrame, FrameHeader.fetch, ne_eq, not_true_eq_false,
        if_false, hread, List.nil_append, ticketOf_toList]
      rfl
  | ping | pong => exact ⟨polls, rfl, hprogress, Nat.le_add_right _ _⟩

/-- However the bytes of a client's frames arrive, the frames are answered one after
another, each as it stands. -/
theorem serveFrames_eq {frames : List ClientFrame} {moments : List Moment}
    (hfits : ∀ f ∈ frames, f.Fits) (hprogress : ∀ p ∈ polls, p.Progresses idleSec)
    (henough : (wireBytes frames).length < givesCount polls) :
    (Connection.serveFrames ctx session idleSec moments ⟨s, polls, wireBytes frames⟩).1 =
        (answerAll ctx session frames moments s).1.map (Except.map fun _ => ()) ∧
      (Connection.serveFrames ctx session idleSec moments ⟨s, polls, wireBytes frames⟩).2.wired =
        (answerAll ctx session frames moments s).2 := by
  induction frames generalizing polls moments s with
  | nil =>
      have hended : ∃ more, readFull idleSec headerLen polls [] [] = ⟨.ended, more, []⟩ :=
        readFull_ended (by decide) hprogress (by omega)
      obtain ⟨more, hended⟩ := hended
      rw [wireBytes, List.flatMap_nil, Connection.serveFrames.eq_def]
      dsimp only
      rw [hended]
      exact ⟨rfl, rfl⟩
  | cons frame frames ih =>
      rw [List.forall_mem_cons] at hfits
      have hlen := length_frame_bytes hfits.1
      have hbytes : wireBytes (frame :: frames) =
          frame.frame.header.encode ++ (frame.frame.payload ++ wireBytes frames) := by
        rw [wireBytes, List.flatMap_cons, Frame.bytes, List.append_assoc]
        rfl
      have htotal : (wireBytes (frame :: frames)).length =
          frame.frame.bytes.length + (wireBytes frames).length := by
        rw [wireBytes, List.flatMap_cons, List.length_append]
        rfl
      have hheader := @readFull_spec idleSec headerLen polls [] frame.frame.header.encode
        (frame.frame.payload ++ wireBytes frames) hprogress
        (by rw [FrameHeader.length_encode, List.length_nil, Nat.zero_add])
        (by rw [FrameHeader.length_encode]; omega)
      obtain ⟨more, hread, hmore, hgives⟩ := hheader
      rw [FrameHeader.length_encode] at hgives
      have hdecode : FrameHeader.decode frame.frame.header.encode = .ok frame.frame.header :=
        (FrameHeader.decode_eq_ok FrameHeader.length_encode).mpr ⟨hfits.1.wellFormed.fits, rfl⟩
      rw [hbytes, Connection.serveFrames.eq_def]
      dsimp only
      rw [hread]
      dsimp only
      rw [List.nil_append, hdecode]
      dsimp only
      cases moments with
      | nil => exact ⟨rfl, rfl⟩
      | cons moment moments =>
          have hhandle := @handleFrame_spec ctx session idleSec more s frame moment (wireBytes frames)
            hmore (by omega)
          obtain ⟨left, hhandle, hleft, hcount⟩ := hhandle
          dsimp only
          rw [hhandle, answerAll]
          cases hanswer : frame.answer ctx session moment s with
          | mk result t =>
              cases result with
              | error e => exact ⟨rfl, rfl⟩
              | ok disposition =>
                  cases disposition with
                  | close => exact ⟨rfl, rfl⟩
                  | carryOn => exact ih hfits.2 hleft (by omega)

end Frames

end Aex
