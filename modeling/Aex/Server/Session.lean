import Aex.Server.Transfer

/-!
# Sessions

The registry keeps every live session under its id.  The two counters of a
session are shared with the threads that took it out of the table, so they
stand in cells of their own.

`create_at` and `get_at` take the lock more than once, and each is given here as
the pieces between: `checkRoom` and `enlist`, `look` and the removal of a session
found expired.
-/

namespace Aex

abbrev SessionToken := Vector UInt8 16

/-- The server's side of a session: what a client authenticates with. -/
structure ServerSession where
  id : SessionId
  token : SessionToken
  grantedStreams : Nat
  clientName : String
  /-- Which cells hold `data_conns` and `last_seen_ms`. -/
  cell : Nat
  deriving DecidableEq

/-- The sessions, and the counters of every session ever created. -/
structure SessionRegistry where
  sessions : Table.Map SessionId ServerSession
  dataConns : Nat → Nat
  lastSeenMs : Nat → Nat
  cells : Nat

namespace SessionRegistry

def new : SessionRegistry := ⟨∅, fun _ => 0, fun _ => 0, 0⟩

def idleTimeoutMs (limits : Limits) : Nat := Word.saturatingMul 64 limits.sessionIdleTimeoutSec 1000

def isExpired (limits : Limits) (r : SessionRegistry) (session : ServerSession) (nowMs : Nat) : Bool :=
  nowMs - r.lastSeenMs session.cell > idleTimeoutMs limits

def len (r : SessionRegistry) : Nat := r.sessions.keys.length

/-- `create_at` up to its first unlock. -/
def checkRoom (limits : Limits) (r : SessionRegistry) : Except ServerError Unit :=
  if limits.maxSessions ≤ r.len then
    .error (.exhausted s!"server is at its limit of {limits.maxSessions} sessions")
  else .ok ()

/-- `desired_streams` of 0 means the client has no preference. -/
def grantStreams (limits : Limits) (desiredStreams : UInt32) : Nat :=
  min (if desiredStreams = 0 then defaultStreams else desiredStreams.toNat) limits.maxStreamsPerSession

/-- The rest of `create_at`; `random` is the id and the token, if the source of
entropy gave both. -/
def enlist (limits : Limits) (r : SessionRegistry) (clientName : String) (desiredStreams : UInt32)
    (random : Option (SessionId × SessionToken)) (nowMs : Nat) :
    Except ServerError ServerSession × SessionRegistry :=
  match random with
  | none => (.error (.random "the entropy source failed"), r)
  | some (id, token) =>
      let session : ServerSession := ⟨id, token, grantStreams limits desiredStreams, clientName, r.cells⟩
      (.ok session,
        { sessions := r.sessions.insert id session
          dataConns := Function.update r.dataConns r.cells 0
          lastSeenMs := Function.update r.lastSeenMs r.cells nowMs
          cells := r.cells + 1 })

def createAt (limits : Limits) (r : SessionRegistry) (clientName : String) (desiredStreams : UInt32)
    (random : Option (SessionId × SessionToken)) (nowMs : Nat) :
    Except ServerError ServerSession × SessionRegistry :=
  match r.checkRoom limits with
  | .error e => (.error e, r)
  | .ok () => r.enlist limits clientName desiredStreams random nowMs

/-- The session id a request carries, if it is as long as one. -/
def idOf (id : List UInt8) : Option SessionId :=
  if h : id.length = 16 then some ⟨id.toArray, by simpa using h⟩ else none

/-- `get_at` up to its first unlock: the session, and whether it has expired. -/
def look (limits : Limits) (r : SessionRegistry) (id : List UInt8) (nowMs : Nat) :
    Except ServerError (ServerSession × Bool) :=
  match idOf id with
  | none => .error (.auth s!"session id is {id.length} bytes, expected 16")
  | some key =>
      match r.sessions.lookup key with
      | none => .error (.auth "no such session")
      | some session => .ok (session, r.isExpired limits session nowMs)

def expiredError (limits : Limits) : ServerError :=
  .auth s!"session expired after {limits.sessionIdleTimeoutSec} seconds of inactivity"

def erase (r : SessionRegistry) (id : SessionId) : SessionRegistry :=
  { r with sessions := r.sessions.erase id }

/-- Mark a session as used. -/
def seen (r : SessionRegistry) (session : ServerSession) (nowMs : Nat) : SessionRegistry :=
  { r with lastSeenMs := Function.update r.lastSeenMs session.cell nowMs }

/-- Look up a session and mark it as used. -/
def getAt (limits : Limits) (r : SessionRegistry) (id : List UInt8) (nowMs : Nat) :
    Except ServerError ServerSession × SessionRegistry :=
  match r.look limits id nowMs with
  | .error e => (.error e, r)
  | .ok (session, true) => (.error (expiredError limits), r.erase session.id)
  | .ok (session, false) => (.ok session, r.seen session nowMs)

/-- Mark a session as used, without needing to look up what it holds. -/
def touch (r : SessionRegistry) (id : SessionId) (nowMs : Nat) : SessionRegistry :=
  match r.sessions.lookup id with
  | none => r
  | some session => r.seen session nowMs

/-- Whether a session is still live, without counting as activity. -/
def contains (r : SessionRegistry) (id : SessionId) : Bool := (r.sessions.lookup id).isSome

/-- Drop every session nobody has touched within the idle timeout. -/
def sweepExpiredAt (limits : Limits) (r : SessionRegistry) (nowMs : Nat) : SessionRegistry :=
  { r with
    sessions := Table.retain
      (fun _ session => if r.isExpired limits session nowMs then none else some session)
      r.sessions }

/-- Count a data connection in, refusing one past what was granted. -/
def openDataConn (r : SessionRegistry) (session : ServerSession) :
    Except ServerError Unit × SessionRegistry :=
  if session.grantedStreams ≤ r.dataConns session.cell then
    (.error (.exhausted s!"this session was granted {session.grantedStreams} data connections and already has {r.dataConns session.cell}"),
      r)
  else
    (.ok (),
      { r with
        dataConns := Function.update r.dataConns session.cell (r.dataConns session.cell + 1) })

/-- Count a data connection out. -/
def closeDataConn (r : SessionRegistry) (session : ServerSession) : SessionRegistry :=
  { r with
    dataConns := Function.update r.dataConns session.cell
      (Word.wrappingSub 32 (r.dataConns session.cell) 1) }

theorem look_ok {limits : Limits} {r : SessionRegistry} {id : List UInt8} {nowMs : Nat}
    {session : ServerSession} {expired : Bool}
    (h : r.look limits id nowMs = .ok (session, expired)) :
    ∃ key, idOf id = some key ∧ r.sessions.lookup key = some session := by
  unfold look at h
  split at h
  · cases h
  rename_i key hkey
  split at h
  · cases h
  · rename_i hlookup
    cases h
    exact ⟨key, hkey, hlookup⟩

end SessionRegistry

end Aex
