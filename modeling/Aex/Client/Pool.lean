import Aex.Client.DataConn
import Aex.Lib.System
import Aex.Wire.Scatter

/-!
# The data connections of a session

A transfer puts the chunks of its parts on one queue and runs a thread for each
connection it needs.  A thread takes chunks off the queue up to its credit, asks
for them on its connection and handles one frame; a chunk lost with a connection
goes back on the queue.  A step of the model is one lock acquisition, with what
the thread does on its own around it, or one call on its connection.
-/

namespace Aex

open Lts

structure FetchSpec where
  /-- Fetches one connection may have outstanding. -/
  credit : Nat
  /-- Times one chunk may be fetched again before the transfer fails. -/
  maxRetries : Nat
  deriving Repr, DecidableEq

/-- One plan's share of a batch: its chunks, and where they go. -/
structure FetchPart where
  requestId : Nat
  ticket : Ticket
  chunks : List (Nat × Nat)
  dst : List UInt8
  deriving Repr, DecidableEq

/-- A part once its buffer is split up for the connections. -/
structure Part where
  requestId : Nat
  ticket : Ticket
  scatter : ScatterBuffer
  dst : List UInt8
  deriving Repr, DecidableEq

def FetchPart.split (p : FetchPart) : Part := ⟨p.requestId, p.ticket, .new p.dst.length, p.dst⟩

structure Fetched where
  streams : Nat
  retries : Nat
  wireBytes : Nat
  deriving Repr, DecidableEq

structure DataPool where
  /-- `none` once a connection has broken, until a transfer rebuilds it. -/
  conns : List (Option DataConn)
  nonempty : conns ≠ []

/-- A range of the logical byte stream of one of `n` parts, still to be fetched. -/
structure Chunk (n : Nat) where
  part : Fin n
  offset : Nat
  len : Nat
  /-- Fetches of it that failed. -/
  attempts : Nat
  deriving Repr, DecidableEq

/-- What stays the same when a chunk is tried again. -/
def Chunk.key {n : Nat} (c : Chunk n) : Fin n × Nat × Nat := (c.part, c.offset, c.len)

/-- A chunk that has been asked for.  No code reads `accepted`, the ranges of the
data frames received for it so far. -/
structure InFlight (n : Nat) where
  chunk : Chunk n
  slice : ScatterSlice
  received : Nat
  accepted : List (Nat × Nat)
  deriving Repr, DecidableEq

/-- What the threads of one transfer share. -/
structure State (n : Nat) where
  queue : List (Chunk n)
  /-- Chunks not yet complete, whether queued or in flight. -/
  remaining : Nat
  /-- Threads still working. -/
  live : Nat
  retries : Nat
  /-- Ends the transfer: no more fetches go out, and what is in flight drains. -/
  error : Option ClientError
  lastConnError : Option ClientError
  deriving Repr, DecidableEq

/-- The state, and with it what the threads reach without its lock.  No code reads
the last three: the chunks completed, each with the frames that did, those given
up with an error recorded, and whether a thread panicked. -/
structure Shared (n : Nat) where
  parts : Vector Part n
  state : State n
  wireBytes : Nat
  completed : List (InFlight n)
  failed : List (Chunk n)
  panicked : Bool
  deriving Repr, DecidableEq

/-- Where a thread is. -/
inductive Pc (n : Nat) where
  | start
  /-- At the top of its loop. -/
  | head
  | waiting
  | reconnecting
  /-- Claiming and asking for what it took off the queue. -/
  | asking (fresh : List (Chunk n))
  | givingBack (fresh : List (Chunk n)) (error : ClientError)
  | reading
  | completing (done : InFlight n)
  /-- Queueing a chunk again, after an error frame or while draining. -/
  | requeuing (chunk : Chunk n) (after : Option (ClientError × Bool))
  | draining (error : ClientError) (exhausted : Bool)
  | clearing (error : ClientError) (panicked : Bool)
  | failing (error : ClientError) (panicked : Bool)
  | leaving (connError : Option ClientError)
  | gone
  deriving Repr, DecidableEq

/-- One thread and its connection.  `owes` is a `notify_all` still to be made;
no code reads `lost`, the chunks dropped whose error is not recorded yet. -/
structure Worker (n : Nat) where
  pc : Pc n
  held : Option DataConn
  flight : List (InFlight n)
  owes : Bool
  lost : List (Chunk n)
  deriving Repr, DecidableEq

/-- What is not the thread's own doing: how a call ends, what a peer sends, and
waking up without having been notified. -/
inductive Event where
  | proceed
  | spawnFailed (failure : IoFailure)
  | connected (outcome : Except ClientError Unit)
  | sent (outcome : Except IoFailure Unit)
  | received (incoming : Incoming)
  | woken
  deriving Repr, DecidableEq

/-- What a transfer is run with. -/
structure Settings where
  build : Build
  expander : Expander
  spec : FetchSpec

variable {n : Nat}

def Shared.modifyPart (sh : Shared n) (k : Fin n) (f : Part → Part) : Shared n :=
  { sh with parts := sh.parts.set k (f (sh.parts.get k)) }

/-- Drop the slice of a fetch. -/
def Shared.release (sh : Shared n) (x : InFlight n) : Shared n :=
  sh.modifyPart x.chunk.part fun part => { part with scatter := part.scatter.release x.slice }

/-- Fill the slice of a fetch. -/
def Shared.write (sh : Shared n) (x : InFlight n) (bytes : List UInt8) : Shared n :=
  sh.modifyPart x.chunk.part fun part =>
    { part with dst := Vec.write part.dst x.slice.offset bytes }

/-- The chunk to be queued again, counted against its retries if `charge`; `none`
once it has used them up. -/
def Chunk.retried (spec : FetchSpec) (c : Chunk n) (charge : Bool) : Option (Chunk n) :=
  let attempts := Word.wrappingAdd 32 c.attempts charge.toNat
  if spec.maxRetries < attempts then none else some { c with attempts }

/-- What a thread takes off the queue. -/
def State.fresh (state : State n) (spec : FetchSpec) (flight : List (InFlight n)) : List (Chunk n) :=
  if state.error.isNone then state.queue.take (max spec.credit 1 - flight.length) else []

/-- What it leaves there. -/
def State.rest (state : State n) (spec : FetchSpec) (flight : List (InFlight n)) : List (Chunk n) :=
  if state.error.isNone then state.queue.drop (max spec.credit 1 - flight.length) else state.queue

namespace Worker

variable (settings : Settings) (sh : Shared n) (w : Worker n)

/-- `step` failed: the connection is not used again.  After an i/o error its
chunks go back on the queue, after any other the transfer ends. -/
def broke (e : ClientError) : Worker n :=
  { w with held := none, pc := if e.isIo then .draining e false else .clearing e false }

/-- The thread unwinds; `Leave` makes it fail the transfer and leave. -/
def panic : Shared n × Worker n :=
  ({ sh with panicked := true },
    { w with pc := .clearing (.protocol "a data connection thread panicked") true })

/-- Top up this connection's fetches, or find nothing left for it. -/
def topUp : Shared n × Worker n :=
  let fresh := sh.state.fresh settings.spec w.flight
  let sh' := { sh with state := { sh.state with queue := sh.state.rest settings.spec w.flight } }
  if w.flight ≠ [] ∨ fresh ≠ [] then (sh', { w with pc := .asking fresh })
  else if sh.state.error.isSome ∨ sh.state.remaining = 0 then (sh', { w with pc := .leaving none })
  else if sh.state.live = 1 then
    (sh', w.broke (.protocol s!"{sh.state.remaining} chunks of the transfer are unaccounted for"))
  else (sh', { w with pc := .waiting })

/-- Claim the range of the next chunk and ask for it. -/
def ask (conn : DataConn) (chunk : Chunk n) (fresh : List (Chunk n))
    (outcome : Except IoFailure Unit) : Shared n × Worker n :=
  let part := sh.parts.get chunk.part
  match part.scatter.claim chunk.offset chunk.len with
  | .error e =>
      (sh, { w with pc := .givingBack fresh (.ofWire e), lost := chunk :: w.lost })
  | .ok (slice, scatter) =>
      let sh := sh.modifyPart chunk.part fun part => { part with scatter }
      let flight := w.flight ++ [⟨chunk, slice, 0, []⟩]
      match outcome with
      | .ok () => (sh, { w with
          held := some (conn.sendFetch part.requestId part.ticket chunk.offset chunk.len)
          flight, pc := .asking fresh })
      | .error f => (sh, { w with flight, pc := .givingBack fresh f.toError })

/-- Put chunks that were taken off the queue but never asked for back on it. -/
def giveBack (fresh : List (Chunk n)) (e : ClientError) : Shared n × Worker n :=
  if fresh = [] then (sh, w.broke e)
  else ({ sh with state := { sh.state with queue := fresh ++ sh.state.queue } },
    { w.broke e with owes := true })

/-- A data frame is for the oldest fetch outstanding. -/
def dataFrame (conn : DataConn) (front : InFlight n) (rest : List (InFlight n))
    (header : FrameHeader) (payload : List UInt8) (failure : Option IoFailure) :
    Shared n × Worker n :=
  let part := sh.parts.get front.chunk.part
  let (result, bytes) := DataConn.receiveData settings.build settings.expander header
    part.requestId front.chunk.offset (Vec.slice part.dst front.slice.offset front.slice.len)
    payload failure
  let sh := sh.write front bytes
  match result with
  | .error e => (sh, w.broke e)
  | .ok () =>
      let sh := { sh with wireBytes := Word.wrappingAdd 64 sh.wireBytes header.wireLen }
      -- A buffer is at most half the words long, so that this sum does not wrap.
      let front := { front with
        received := front.received + header.logicalLen
        accepted := front.accepted ++ [(header.offset, header.logicalLen)] }
      let w := { w with held := some (conn.answered header) }
      if front.chunk.len ≤ front.received then
        (sh.release front, { w with flight := rest, pc := .completing front })
      else (sh, { w with flight := front :: rest, pc := .head })

/-- An error frame is about the oldest fetch outstanding, or about the connection. -/
def errorFrame (conn : DataConn) (front : InFlight n) (rest : List (InFlight n))
    (header : FrameHeader) (payload : List UInt8) : Shared n × Worker n :=
  match DataConn.receiveError payload with
  | .error e => (sh, w.broke e)
  | .ok error =>
      if header.requestId = 0 then (sh, w.broke error)
      else
        let requestId := (sh.parts.get front.chunk.part).requestId
        let sh := sh.release front
        let w := { w with held := some (conn.answered header), flight := rest }
        let dropped := { w with lost := front.chunk :: w.lost }
        if header.requestId ≠ requestId ∨ header.offset ≠ front.chunk.offset then
          (sh, dropped.broke (.protocol <|
            s!"an error for [{header.offset}, ..) of transfer {header.requestId} arrived while " ++
            s!"[{front.chunk.offset}, ..) of {requestId} was outstanding"))
        else match if error.isRetryable then front.chunk.retried settings.spec true else none with
          | some chunk => (sh, { w with pc := .requeuing chunk none })
          | none => (sh, { dropped with pc := .failing error false })

/-- Longer than any allocation may be. -/
def oversized (header : FrameHeader) : Bool := 2 ^ 63 ≤ header.wireLen

/-- Handle one frame. -/
def receive (conn : DataConn) (front : InFlight n) (rest : List (InFlight n)) :
    Incoming → Shared n × Worker n
  | .noHeader e => (sh, w.broke (.ofWire e))
  | .cut header part failure =>
      match header.frameType with
      | .data => w.dataFrame settings sh conn front rest header part (some failure)
      | .error => if oversized header then w.panic sh else (sh, w.broke failure.toError)
      | _ => (sh, w.broke failure.toError)
  | .frame header payload =>
      match header.frameType with
      | .data => w.dataFrame settings sh conn front rest header payload none
      | .error =>
          if oversized header then w.panic sh
          else w.errorFrame settings sh conn front rest header payload
      | .ping | .pong => (sh, { w with pc := .head })
      | .fetch => (sh, w.broke (.protocol
          s!"{header.frameType.debug} is not a frame a server may send"))

def complete (done : InFlight n) : Shared n × Worker n :=
  let remaining := sh.state.remaining - 1
  ({ sh with state := { sh.state with remaining }, completed := done :: sh.completed },
    { w with pc := .head, owes := remaining = 0 })

/-- Where a thread goes on once it has queued a chunk again. -/
def resumed : Option (ClientError × Bool) → Pc n
  | none => .head
  | some (e, exhausted) => .draining e exhausted

/-- Put a chunk back at the front of the queue. -/
def requeue (chunk : Chunk n) (after : Option (ClientError × Bool)) : Shared n × Worker n :=
  ({ sh with state := { sh.state with
      queue := chunk :: sh.state.queue
      retries := Word.wrappingAdd 32 sh.state.retries 1 } },
    { w with owes := true, pc := resumed after })

/-- Newest first, so that each lands in front of the last.  Only the oldest was
being answered, so only it is charged for the break. -/
def drain (e : ClientError) (exhausted : Bool) : Shared n × Worker n :=
  match w.flight.getLast? with
  | none => (sh, { w with pc := if exhausted then .failing e false else .head })
  | some newest =>
      let sh := sh.release newest
      let w := { w with flight := w.flight.dropLast }
      match newest.chunk.retried settings.spec (w.flight = []) with
      | some chunk => (sh, { w with pc := .requeuing chunk (some (e, exhausted)) })
      | none => (sh, { w with pc := .draining e true, lost := newest.chunk :: w.lost })

def clear (e : ClientError) (panicked : Bool) : Shared n × Worker n :=
  match w.flight with
  | [] => (sh, { w with pc := .failing e panicked })
  | oldest :: rest => (sh.release oldest, { w with flight := rest, lost := oldest.chunk :: w.lost })

/-- End the transfer.  The first error is the one reported. -/
def fail (e : ClientError) (panicked : Bool) : Shared n × Worker n :=
  ({ sh with
      state := { sh.state with error := sh.state.error.or (some e) }
      failed := w.lost ++ sh.failed },
    { w with lost := [], owes := true, pc := if panicked then .leaving none else .head })

/-- Take a thread out of the transfer. -/
def leave (connError : Option ClientError) : Shared n × Worker n :=
  ({ sh with state := { sh.state with
      live := sh.state.live - 1
      lastConnError := connError.or sh.state.lastConnError } },
    { w with owes := true, pc := .gone })

/-- One step of a thread that owes no notification. -/
def act : Event → Option (Shared n × Worker n)
  | .proceed =>
      match w.pc with
      | .start => some (sh, { w with pc := .head })
      | .head =>
          match w.held with
          | some _ => some (w.topUp settings sh)
          | none => some (sh, { w with
              pc := if sh.state.error.isSome then .leaving none else .reconnecting })
      | .asking [] => some (sh, { w with pc := .reading })
      | .givingBack fresh e => some (w.giveBack sh fresh e)
      | .completing done => some (w.complete sh done)
      | .requeuing chunk after => some (w.requeue sh chunk after)
      | .draining e exhausted => some (w.drain settings sh e exhausted)
      | .clearing e panicked => some (w.clear sh e panicked)
      | .failing e panicked => some (w.fail sh e panicked)
      | .leaving connError => some (w.leave sh connError)
      | _ => none
  | .spawnFailed failure =>
      match w.pc with
      | .start => some (sh, { w with pc := .leaving (some failure.toError) })
      | _ => none
  | .connected outcome =>
      match w.pc, outcome with
      | .reconnecting, .ok () => some (sh, { w with held := some ⟨[]⟩, pc := .head })
      | .reconnecting, .error e => some (sh, { w with pc := .leaving (some e) })
      | _, _ => none
  | .sent outcome =>
      match w.pc, w.held with
      | .asking (chunk :: fresh), some conn => some (w.ask sh conn chunk fresh outcome)
      | _, _ => none
  | .received incoming =>
      match w.pc, w.held, w.flight with
      | .reading, some conn, front :: rest =>
          if incoming.WellFormed then some (w.receive settings sh conn front rest incoming) else none
      | _, _, _ => none
  | .woken =>
      match w.pc with
      | .waiting => some (sh, { w with pc := .head })
      | _ => none

/-- What `notify_all` does to a thread. -/
def notified : Worker n :=
  match w.pc with
  | .waiting => { w with pc := .head }
  | _ => w

def isLive : Bool := w.pc != .gone

end Worker

/-- One transfer of `n` parts. -/
structure Transfer (n : Nat) where
  shared : Shared n
  workers : List (Worker n)
  deriving Repr, DecidableEq

inductive Outcome where
  | ok (fetched : Fetched)
  | err (e : ClientError)
  | panic
  deriving Repr, DecidableEq

namespace Transfer

def step (settings : Settings) (t : Transfer n) : Nat × Event → Option (Transfer n)
  | (i, event) =>
      match t.workers[i]? with
      | none => none
      | some w =>
          if w.owes then
            if event = .proceed then
              some { t with workers := (t.workers.map Worker.notified).set i { w with owes := false } }
            else none
          else (w.act settings t.shared event).map fun (sh, w) => ⟨sh, t.workers.set i w⟩

/-- The chunks of a batch, in the order they are queued. -/
def chunksOf (parts : Vector FetchPart n) : List (Chunk n) :=
  (List.finRange n).flatMap fun k => (parts.get k).chunks.map fun (offset, len) => ⟨k, offset, len, 0⟩

/-- The state of a transfer when its threads are started, one for each connection
that has a chunk to fetch. -/
def start (pool : DataPool) (parts : Vector FetchPart n) : Transfer n :=
  let queue := chunksOf parts
  let used := min queue.length pool.conns.length
  ⟨⟨parts.map FetchPart.split, ⟨queue, queue.length, used, 0, none, none⟩, 0, [], [], false⟩,
    (pool.conns.take used).map fun held => ⟨.start, held, [], false, []⟩⟩

def system (settings : Settings) (pool : DataPool) (parts : Vector FetchPart n) :
    System (Transfer n) (Nat × Event) :=
  .ofFn (start pool parts) (step settings)

/-- Every thread has been joined. -/
def Joined (t : Transfer n) : Prop := ∀ w ∈ t.workers, w.pc = .gone ∧ w.owes = false

instance (t : Transfer n) : Decidable t.Joined := by
  unfold Joined
  infer_instance

/-- What the call comes back with, once its threads have been joined. -/
def outcome (t : Transfer n) : Option Outcome :=
  if t.Joined then
    some (if t.shared.panicked then .panic
      else match t.shared.state.error with
        | some e => .err e
        | none =>
            if 0 < t.shared.state.remaining then
              .err (t.shared.state.lastConnError.getD
                (.data .transient "every data connection was lost"))
            else .ok ⟨t.workers.length, t.shared.state.retries, t.shared.wireBytes⟩)
  else none

end Transfer

end Aex
