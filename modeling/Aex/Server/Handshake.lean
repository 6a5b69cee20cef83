import Aex.Server.Connection
import Aex.Server.Session
import Aex.Wire.Handshake

/-!
# Checking a client in

The first exchange of a data connection, at the server.  The session a client names is
looked up and counts as used before its token is compared; the connection is counted in
last, and `READY` is written after that.
-/

namespace Aex

/-- How long a connection may say nothing before its `HELLO`. -/
def handshakeTimeoutSec : Nat := 10

/-- The rest of `check_hello`, once it has its session. -/
def checkToken (r : SessionRegistry) (session : ServerSession) (token : SessionToken) :
    Except ServerError ServerSession × SessionRegistry :=
  if !constantTimeEq session.token token then
    (.error (.auth "the token presented is not the one this session was issued"), r)
  else
    match r.openDataConn session with
    | (.error e, r) => (.error e, r)
    | (.ok (), r) => (.ok session, r)

/-- Check a client in: the session it belongs to, with this connection counted. -/
def checkHello (debug : String → String) (limits : Limits) (r : SessionRegistry) (bytes : List UInt8)
    (nowMs : Nat) : Except ServerError ServerSession × SessionRegistry :=
  match Hello.decode debug bytes with
  | .error e => (.error (.protocol e.message), r)
  | .ok hello =>
      if hello.version ≠ protocolVersion then
        (.error (.protocol <| s!"client speaks data plane version {hello.version}, this server " ++
          s!"speaks {protocolVersion}"), r)
      else
        match r.getAt limits hello.sessionId.toList nowMs with
        | (.error e, r) => (.error e, r)
        | (.ok session, r) => checkToken r session hello.sessionToken

/-- What `handshake` tells the client. -/
def readyOf {α : Type} : Except ServerError α → Ready
  | .ok _ => .accepted
  | .error e => .refused e.errorClass

/-- How far a handshake has got: its result, `none` while the peer is waited for, the
registry and the bytes sent, and what is left of the connection. -/
structure CheckedIn where
  result : Option (Except ServerError ServerSession)
  registry : SessionRegistry
  sent : List UInt8
  polls : List Poll
  stream : List UInt8

/-- Check the client in, or refuse it and say which class of thing was wrong. -/
def handshake (debug : String → String) (limits : Limits) (r : SessionRegistry) (nowMs : Nat)
    (polls : List Poll) (attempts : Attempts) (stream : List UInt8) : CheckedIn :=
  let read := readFull handshakeTimeoutSec helloLen polls [] stream
  let waits := fun result => CheckedIn.mk result r [] read.polls read.stream
  match read.filled with
  | .waiting => waits none
  | .failed kind text => waits (some (.error (.io kind text)))
  -- A port scan or a health check, and not something to answer.
  | .ended => waits (some (.error (.badRequest "no handshake was sent")))
  | .full bytes =>
      let (result, r) := checkHello debug limits r bytes nowMs
      let ready := writeSlices attempts [(readyOf result).encode]
      let answers := fun result => CheckedIn.mk result r ready.bytes read.polls read.stream
      match ready.written with
      | .pending => answers none
      -- A connection counted in by `check_hello` stays so.
      | .failed kind text => answers (some (.error (.io kind text)))
      | .done => answers (some result)

/-! ## Who is checked in -/

/-- A session that a `HELLO` is let into: it is live, was issued the token, and has room
for one more connection. -/
structure SessionRegistry.Admits (limits : Limits) (r : SessionRegistry) (id : SessionId)
    (token : SessionToken) (nowMs : Nat) (session : ServerSession) : Prop where
  lookup : r.sessions.lookup id = some session
  live : r.isExpired limits session nowMs = false
  token_eq : session.token = token
  room : r.dataConns session.cell < session.grantedStreams

section CheckHello

variable {debug : String → String} {limits : Limits} {r : SessionRegistry} {bytes : List UInt8}
  {nowMs : Nat} {session : ServerSession}

theorem idOf_toList (id : SessionId) : SessionRegistry.idOf id.toList = some id := by
  rw [SessionRegistry.idOf, dif_pos (Vector.length_toList ..)]
  rfl

/-- A refusal is never mistaken for an acceptance. -/
theorem ServerError.errorClass_ne_ok (e : ServerError) : e.errorClass ≠ .ok := by
  cases e with
  | core e =>
      cases e with
      | io kind text => cases kind <;> simp [errorClass, AexError.errorClass]
      | _ => simp [errorClass, AexError.errorClass]
  | io kind text => cases kind <;> simp [errorClass, AexError.errorClass]
  | _ => simp [errorClass]

theorem SessionRegistry.getAt_eq_ok {id : SessionId} {r' : SessionRegistry} :
    r.getAt limits id.toList nowMs = (.ok session, r') ↔
      r.sessions.lookup id = some session ∧ r.isExpired limits session nowMs = false ∧
        r' = r.seen session nowMs := by
  unfold SessionRegistry.getAt SessionRegistry.look
  rw [idOf_toList]
  dsimp only
  cases hlookup : r.sessions.lookup id with
  | none => simp
  | some found =>
      dsimp only
      cases hexpired : r.isExpired limits found nowMs with
      | true =>
          constructor
          · simp
          · rintro ⟨hfound, hlive, -⟩
            cases hfound
            rw [hexpired] at hlive
            cases hlive
      | false =>
          constructor
          · intro h
            cases h
            exact ⟨rfl, hexpired, rfl⟩
          · rintro ⟨hfound, -, rfl⟩
            cases hfound
            rfl

/-- Looking a session up counts no connection. -/
theorem SessionRegistry.dataConns_getAt (id : List UInt8) :
    (r.getAt limits id nowMs).2.dataConns = r.dataConns := by
  unfold SessionRegistry.getAt
  split <;> rfl

theorem SessionRegistry.openDataConn_error {e : ServerError} {r' : SessionRegistry}
    (h : r.openDataConn session = (.error e, r')) : r' = r := by
  unfold SessionRegistry.openDataConn at h
  split at h <;> cases h
  rfl

theorem checkToken_eq_ok {token : SessionToken} {r' : SessionRegistry} {found : ServerSession} :
    checkToken r found token = (.ok session, r') ↔
      session = found ∧ found.token = token ∧ r.dataConns found.cell < found.grantedStreams ∧
        r' = (r.openDataConn found).2 := by
  unfold checkToken
  by_cases htoken : found.token = token
  · rw [TransferRegistry.constantTimeEq_iff.mpr htoken, Bool.not_true, if_neg Bool.false_ne_true]
    unfold SessionRegistry.openDataConn
    by_cases hfull : found.grantedStreams ≤ r.dataConns found.cell
    · rw [if_pos hfull]
      exact iff_of_false (by simp) (fun h => absurd h.2.2.1 (Nat.not_lt.mpr hfull))
    · rw [if_neg hfull]
      simp only [Prod.mk.injEq, Except.ok.injEq, htoken, Nat.lt_of_not_le hfull, true_and]
      exact and_congr eq_comm eq_comm
  · rw [if_pos]
    · exact iff_of_false (by simp) (fun h => htoken h.2.1)
    · rwa [Bool.not_eq_true', ← Bool.not_eq_true, TransferRegistry.constantTimeEq_iff]

theorem checkToken_error {token : SessionToken} {e : ServerError}
    (h : (checkToken r session token).1 = .error e) : (checkToken r session token).2 = r := by
  unfold checkToken at h ⊢
  split
  · rfl
  rename_i htoken
  rw [if_neg htoken] at h
  cases hopen : r.openDataConn session with
  | mk opened counted =>
      rw [hopen] at h
      cases opened with
      | error e => exact SessionRegistry.openDataConn_error hopen
      | ok _ => cases h

/-- Whom `check_hello` lets in, and what it does to the registry. -/
theorem checkHello_eq_ok {r' : SessionRegistry} :
    checkHello debug limits r bytes nowMs = (.ok session, r') ↔
      ∃ hello, Hello.decode debug bytes = .ok hello ∧ hello.version = protocolVersion ∧
        r.Admits limits hello.sessionId hello.sessionToken nowMs session ∧
        r' = ((r.seen session nowMs).openDataConn session).2 := by
  constructor
  · intro h
    unfold checkHello at h
    split at h
    · cases h
    rename_i hello hdecode
    split at h
    · cases h
    rename_i hversion
    split at h
    · cases h
    rename_i found seen hget
    obtain ⟨hlookup, hlive, rfl⟩ := SessionRegistry.getAt_eq_ok.mp hget
    obtain ⟨rfl, htoken, hroom, hcounted⟩ := checkToken_eq_ok.mp h
    exact ⟨hello, hdecode, not_not.mp hversion, ⟨hlookup, hlive, htoken, hroom⟩, hcounted⟩
  · rintro ⟨hello, hdecode, hversion, hadmits, rfl⟩
    have hget := SessionRegistry.getAt_eq_ok.mpr ⟨hadmits.lookup, hadmits.live, rfl⟩
    unfold checkHello
    rw [hdecode]
    dsimp only
    rw [if_neg (not_not.mpr hversion), hget]
    exact checkToken_eq_ok.mpr ⟨rfl, hadmits.token_eq, hadmits.room, rfl⟩

/-- A connection that is refused is not counted. -/
theorem dataConns_checkHello {e : ServerError} (h : (checkHello debug limits r bytes nowMs).1 = .error e) :
    (checkHello debug limits r bytes nowMs).2.dataConns = r.dataConns := by
  unfold checkHello at h ⊢
  split
  · rfl
  rename_i hello hdecode
  rw [hdecode] at h
  dsimp only at h
  split
  · rfl
  rename_i hversion
  rw [if_neg hversion] at h
  have hseen := @SessionRegistry.dataConns_getAt limits r nowMs hello.sessionId.toList
  cases hget : r.getAt limits hello.sessionId.toList nowMs with
  | mk found seen =>
      rw [hget] at hseen h
      cases found with
      | error e => exact hseen
      | ok found =>
          dsimp only at h ⊢
          rw [checkToken_error h]
          exact hseen

end CheckHello

end Aex
