import Aex.Server.Session
import Aex.Server.TransferRuns

/-!
# Calls in progress

The server as a transition system: any number of control plane calls, data
connections and sweeps, each between two of its lock acquisitions, over the
session table and the transfer registry.  An event is one acquisition of a lock
of either, one atomic operation on a session's counters, or one answer of a
socket; the steps of different threads come in any order.

A sweep of the plans holds their lock while it asks about sessions, so that
every other use of the plans waits for its end.
-/

namespace Aex

open Lts TransferRegistry

/-- What a thread has yet to do. -/
inductive Server.Call where
  /-- `create_at` found room. -/
  | create (clientName : String) (desiredStreams : UInt32) (nowMs : Nat)
  /-- `get_at` found the session expired. -/
  | takeOut (id : SessionId)
  /-- `prepare` has its session. -/
  | prepare (session : ServerSession)
  /-- `disconnect` has its session. -/
  | disconnect (session : ServerSession)
  /-- `disconnect` took the session out. -/
  | dropPlans (id : SessionId)
  /-- `TransferRegistry::fetch` found the plan expired. -/
  | dropPlan (requestId : Nat)
  /-- The sessions are swept, the plans are not. -/
  | sweepPlans
  /-- A sweep holds the lock of the plans. -/
  | holdPlans
  /-- `check_hello` has its session, and the token presented for it. -/
  | hello (session : ServerSession) (token : SessionToken)
  /-- The connection is counted, and `READY` has yet to be written. -/
  | greet (session : ServerSession)
  /-- Serving frames. -/
  | serve (session : ServerSession)
  deriving DecidableEq

/-- Why `SessionRegistry::get` is called. -/
inductive Server.Purpose where
  | prepare
  | disconnect
  | hello (token : SessionToken)
  | other

/-- A sweep of the plans: when it began, and the answers it was given, for each
plan and for each session that lists one. -/
structure Server.Sweep where
  nowMs : Nat
  ofPlan : Table.Map Nat Bool
  ofSession : Table.Map SessionId Bool

def Server.Sweep.isLive (sweep : Server.Sweep) : Liveness :=
  ⟨fun id => (sweep.ofPlan.lookup id).getD false,
    fun session => (sweep.ofSession.lookup session).getD false⟩

/-- The registries and the threads.  The sessions ever created and those whose
disconnect has returned are kept for the record. -/
structure Server (π : Type) where
  sessions : SessionRegistry
  transfers : TransferRegistry π
  sweeping : Option Server.Sweep
  calls : List Server.Call
  created : List ServerSession
  ended : List SessionId

/-- What the moving thread gets from outside. -/
inductive Server.Move (π : Type) where
  /-- Take the next step. -/
  | go
  /-- `prepare` fails on its file or its selection, or answers inline. -/
  | giveUp
  /-- The source of entropy gave `create_at` an id and a token, or failed. -/
  | enlist (random : Option (SessionId × SessionToken))
  /-- `prepare` made a plan, and the source of entropy a ticket for it. -/
  | insert (random : Option Ticket) (plan : π) (nowMs : Nat)
  /-- A sweep gets the lock of the plans. -/
  | lock (nowMs : Nat)
  /-- `READY` was written, or the socket failed. -/
  | wrote (ok : Bool)

inductive Server.Event (π : Type) where
  | create (clientName : String) (desiredStreams : UInt32) (nowMs : Nat)
  | get (purpose : Server.Purpose) (id : List UInt8) (nowMs : Nat)
  | touchSession (id : SessionId) (nowMs : Nat)
  | fetch (nowMs requestId : Nat) (ticket : Ticket) (session : SessionId)
  | touchPlan (entry : TransferEntry π) (nowMs : Nat)
  | sweep (nowMs : Nat)
  /-- A sweep asks about the session of a plan. -/
  | askPlan (requestId : Nat)
  /-- A sweep asks about a session that lists a plan it kept. -/
  | askSession (id : SessionId)
  | move (i : Nat) (m : Server.Move π)

namespace Server

variable {π : Type}

def new : Server π := ⟨.new, .new, none, [], [], []⟩

/-- A new thread. -/
def spawn (s : Server π) (call : Call) : Server π := { s with calls := s.calls ++ [call] }

/-- Thread `i` goes on to another step. -/
def become (s : Server π) (i : Nat) (call : Call) : Server π :=
  { s with calls := s.calls.set i call }

/-- Thread `i` returns. -/
def finish (s : Server π) (i : Nat) : Server π := { s with calls := s.calls.eraseIdx i }

/-- `SessionRegistry::get`, up to the step it leaves to its caller. -/
def get (limits : Limits) (s : Server π) (purpose : Purpose) (id : List UInt8) (nowMs : Nat) :
    Server π :=
  match s.sessions.look limits id nowMs with
  | .error _ => s
  | .ok (session, true) => s.spawn (.takeOut session.id)
  | .ok (session, false) =>
      let s := { s with sessions := s.sessions.seen session nowMs }
      match purpose with
      | .prepare => s.spawn (.prepare session)
      | .disconnect => s.spawn (.disconnect session)
      | .hello token => s.spawn (.hello session token)
      | .other => s

/-- `TransferRegistry::fetch`, up to the removal of an expired plan. -/
def fetch (limits : Limits) (s : Server π) (nowMs requestId : Nat) (ticket : Ticket)
    (session : SessionId) : Server π :=
  match s.transfers.entries.lookup requestId with
  | none => s
  | some entry =>
      if s.transfers.isExpired limits entry nowMs then s.spawn (.dropPlan requestId)
      else { s with transfers := (s.transfers.fetch limits nowMs requestId ticket session).2 }

/-- The unexpired plans have all been asked about. -/
def firstPassDone (limits : Limits) (s : Server π) (sweep : Sweep) : Bool :=
  s.transfers.entries.entries.all fun p =>
    s.transfers.isExpired limits p.2 sweep.nowMs || (sweep.ofPlan.lookup p.1).isSome

/-- A session lists a plan that the first pass of the sweep kept. -/
def listsKept (limits : Limits) (s : Server π) (sweep : Sweep) (id : SessionId) : Bool :=
  (s.transfers.idsOf id).any fun requestId =>
    (s.transfers.entries.lookup requestId).any
      (s.transfers.keptBy limits sweep.nowMs sweep.isLive requestId)

/-- The sessions that list a kept plan have all been asked about. -/
def secondPassDone (limits : Limits) (s : Server π) (sweep : Sweep) : Bool :=
  s.transfers.bySession.keys.all fun id =>
    !s.listsKept limits sweep id || (sweep.ofSession.lookup id).isSome

def askPlan (limits : Limits) (s : Server π) (requestId : Nat) : Option (Server π) :=
  match s.sweeping, s.transfers.entries.lookup requestId with
  | some sweep, some entry =>
      if s.transfers.isExpired limits entry sweep.nowMs ||
          (sweep.ofPlan.lookup requestId).isSome then none
      else
        some { s with
          sweeping := some { sweep with
            ofPlan := sweep.ofPlan.insert requestId (s.sessions.contains entry.session) } }
  | _, _ => none

def askSession (limits : Limits) (s : Server π) (id : SessionId) : Option (Server π) :=
  match s.sweeping with
  | some sweep =>
      if s.firstPassDone limits sweep && s.listsKept limits sweep id &&
          !(sweep.ofSession.lookup id).isSome then
        some { s with
          sweeping := some { sweep with
            ofSession := sweep.ofSession.insert id (s.sessions.contains id) } }
      else none
  | none => none

/-- The next step of a thread.  A step on the plans waits while a sweep holds
their lock. -/
def move (limits : Limits) (s : Server π) (i : Nat) (call : Call) (m : Move π) :
    Option (Server π) :=
  match call, m with
  | .create clientName desiredStreams nowMs, .enlist random =>
      match s.sessions.enlist limits clientName desiredStreams random nowMs with
      | (.error _, sessions) => some ({ s with sessions := sessions }.finish i)
      | (.ok session, sessions) =>
          some ({ s with sessions := sessions, created := session :: s.created }.finish i)
  | .takeOut id, .go => some ({ s with sessions := s.sessions.erase id }.finish i)
  | .prepare _, .giveUp => some (s.finish i)
  | .prepare session, .insert random plan nowMs =>
      if s.sweeping.isSome then none
      else some ({ s with
        transfers := (s.transfers.insertAt limits session.id random plan nowMs).2 }.finish i)
  | .disconnect session, .go =>
      some ({ s with sessions := s.sessions.erase session.id }.become i (.dropPlans session.id))
  | .dropPlans id, .go =>
      if s.sweeping.isSome then none
      else some ({ s with
        transfers := (s.transfers.removeSession id).2, ended := id :: s.ended }.finish i)
  | .dropPlan requestId, .go =>
      if s.sweeping.isSome then none
      else some ({ s with transfers := s.transfers.remove requestId }.finish i)
  | .sweepPlans, .lock nowMs =>
      if s.sweeping.isSome then none
      else some ({ s with sweeping := some ⟨nowMs, ∅, ∅⟩ }.become i .holdPlans)
  | .holdPlans, .go =>
      match s.sweeping with
      | none => none
      | some sweep =>
          if s.firstPassDone limits sweep && s.secondPassDone limits sweep then
            some ({ s with
              transfers := (s.transfers.sweepAt limits sweep.nowMs sweep.isLive).2
              sweeping := none }.finish i)
          else none
  | .hello session token, .go =>
      if !constantTimeEq session.token token then some (s.finish i)
      else
        match s.sessions.openDataConn session with
        | (.error _, _) => some (s.finish i)
        | (.ok (), sessions) => some ({ s with sessions := sessions }.become i (.greet session))
  | .greet session, .wrote ok => some (if ok then s.become i (.serve session) else s.finish i)
  | .serve session, .go =>
      some ({ s with sessions := s.sessions.closeDataConn session }.finish i)
  | _, _ => none

def step (limits : Limits) (s : Server π) : Event π → Option (Server π)
  | .create clientName desiredStreams nowMs =>
      match s.sessions.checkRoom limits with
      | .error _ => some s
      | .ok () => some (s.spawn (.create clientName desiredStreams nowMs))
  | .get purpose id nowMs => some (s.get limits purpose id nowMs)
  | .touchSession id nowMs => some { s with sessions := s.sessions.touch id nowMs }
  | .fetch nowMs requestId ticket session =>
      if s.sweeping.isSome then none else some (s.fetch limits nowMs requestId ticket session)
  | .touchPlan entry nowMs => some { s with transfers := s.transfers.touch entry nowMs }
  | .sweep nowMs =>
      some ({ s with sessions := s.sessions.sweepExpiredAt limits nowMs }.spawn .sweepPlans)
  | .askPlan requestId => s.askPlan limits requestId
  | .askSession id => s.askSession limits id
  | .move i m => do s.move limits i (← s.calls[i]?) m

/-- Any calls, connections and sweeps, their steps in any order, at any times. -/
def system (π : Type) (limits : Limits) : System (Server π) (Event π) := .ofFn new (step limits)

end Server

end Aex
