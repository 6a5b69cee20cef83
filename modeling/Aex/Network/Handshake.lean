import Aex.Client.Error
import Aex.Server.Handshake
import Aex.Server.TransferSessions

/-!
# Two ends of a handshake

The client's end, and what both ends make of the exchange: the client is told it was
accepted exactly when the server counted its connection in, and is told the class of
what was wrong otherwise.
-/

namespace Aex

open Transfers

/-- A class as Rust prints it for debugging. -/
def ErrorClass.debug : ErrorClass → String
  | .ok => "Ok"
  | .protocol => "Protocol"
  | .auth => "Auth"
  | .plan => "Plan"
  | .request => "Request"
  | .transient => "Transient"
  | .permanent => "Permanent"

/-- Take `READY` off a stream, and leave what follows it. -/
def readReady (debug : String → String) (stream : List UInt8) : Except ClientError (List UInt8) := do
  let (bytes, rest) ← (readExact readyLen stream).mapError .ofWire
  let ready ← (Ready.decode debug bytes).mapError .ofWire
  if ready.isAccepted then .ok rest
  else .error (.data ready.status s!"the server refused the data connection: {ready.status.debug}")

/-- How far the client's end of a handshake has got: its result, `none` while the socket
is waited for, and the bytes sent.  A connection accepted is left with the bytes after
`READY`. -/
structure Entered where
  result : Option (Except ClientError (List UInt8))
  sent : List UInt8

/-- The client's end of a handshake.  `stream` is what the server sends before it hangs
up. -/
def DataConn.handshake (debug : String → String) (sessionId : SessionId) (sessionToken : SessionToken)
    (attempts : Attempts) (stream : List UInt8) : Entered :=
  let hello := writeSlices attempts [(Hello.new sessionId sessionToken).encode]
  match hello.written with
  | .pending => ⟨none, hello.bytes⟩
  | .failed kind text => ⟨some (.error (.io kind text)), hello.bytes⟩
  | .done => ⟨some (readReady debug stream), hello.bytes⟩

variable {debug : String → String} {limits : Limits} {attempts : Attempts} {bytes : List UInt8}

/-- A writer that keeps taking something takes one message whole. -/
theorem writeSlices_one (hpos : 0 < bytes.length) (hprogress : ∀ a ∈ attempts, a.Progresses)
    (henough : bytes.length ≤ takesCount attempts) :
    (writeSlices attempts [bytes]).written = .done ∧ (writeSlices attempts [bytes]).bytes = bytes := by
  have hflatten : [bytes].flatten = bytes := List.flatten_singleton
  have hready : Vectored.Ready [bytes] := by
    intro buf hbuf
    cases hbuf
    exact List.ne_nil_of_length_pos hpos
  have hspec := writeSlices_spec hready hprogress (by rw [hflatten]; exact henough)
  rw [hflatten] at hspec
  exact ⟨hspec.1, hspec.2.1⟩

theorem Hello.new_fits (sessionId : SessionId) (sessionToken : SessionToken) :
    (Hello.new sessionId sessionToken).Fits where
  version := show protocolVersion < Word.size 16 by decide
  flags := show 0 < Word.size 32 by decide

theorem Hello.decode_new (sessionId : SessionId) (sessionToken : SessionToken) :
    Hello.decode debug (Hello.new sessionId sessionToken).encode =
      .ok (Hello.new sessionId sessionToken) :=
  (Hello.decode_eq_ok (Hello.length_bytes rfl)).mpr ⟨new_fits _ _, [0, 0], rfl, rfl⟩

/-- What a client is told of a refusal: its class, and not the reason. -/
def ServerError.refusal (e : ServerError) : ClientError :=
  .data e.errorClass s!"the server refused the data connection: {e.errorClass.debug}"

/-- What the client makes of the server's `READY`. -/
theorem readReady_readyOf {α : Type} (result : Except ServerError α) (replies : List UInt8) :
    readReady debug ((readyOf result).encode ++ replies) =
      (result.map fun _ => replies).mapError ServerError.refusal := by
  have hversion : protocolVersion < Word.size 16 := by decide
  have hflags : 0 < Word.size 32 := by decide
  unfold readReady
  rw [readExact_append (Ready.length_encode _)]
  cases result with
  | ok _ =>
      dsimp only [Except.mapError, Bind.bind, Except.bind]
      rw [Ready.decode_encode hversion hflags]
      rfl
  | error e =>
      have hrefused : (Ready.refused e.errorClass).isAccepted = false :=
        decide_eq_false e.errorClass_ne_ok
      dsimp only [Except.mapError, Bind.bind, Except.bind]
      rw [Ready.decode_encode hversion hflags]
      dsimp only [readyOf]
      rw [hrefused]
      rfl

/-- A client that names a session gets in if and only if it is admitted, and then both
ends know; otherwise nothing is counted and the client is told the class of what was
wrong.  What follows on the connection is left to the frames on either side. -/
theorem handshake_agrees {r : SessionRegistry} {nowMs : Nat} {sessionId : SessionId}
    {sessionToken : SessionToken} {polls : List Poll} {written : Attempts} {client : Entered}
    {server : CheckedIn} (frames replies : List UInt8)
    (hclient : client = DataConn.handshake debug sessionId sessionToken attempts (server.sent ++ replies))
    (hserver : server = handshake debug limits r nowMs polls written (client.sent ++ frames))
    (hattempts : ∀ a ∈ attempts, a.Progresses) (htakes : helloLen ≤ takesCount attempts)
    (hwritten : ∀ a ∈ written, a.Progresses) (hroom : readyLen ≤ takesCount written)
    (hpolls : ∀ p ∈ polls, p.Progresses handshakeTimeoutSec) (hgives : helloLen ≤ givesCount polls) :
    server.stream = frames ∧
      ((∃ session, r.Admits limits sessionId sessionToken nowMs session ∧
          server.result = some (.ok session) ∧
          server.registry = ((r.seen session nowMs).openDataConn session).2 ∧
          client.result = some (.ok replies)) ∨
        (¬ ∃ session, r.Admits limits sessionId sessionToken nowMs session) ∧
          server.registry.dataConns = r.dataConns ∧
          ∃ e : ServerError, server.result = some (.error e) ∧ client.result = some (.error e.refusal)) := by
  have hlen : (Hello.new sessionId sessionToken).encode.length = helloLen := Hello.length_bytes rfl
  obtain ⟨hdone, hsent⟩ := writeSlices_one (hlen ▸ Nat.succ_pos _) hattempts (hlen.trans_le htakes)
  have hclientSent : client.sent = (Hello.new sessionId sessionToken).encode := by
    rw [hclient, DataConn.handshake, hdone]
    exact hsent
  obtain ⟨more, hread, -, -⟩ := @readFull_spec handshakeTimeoutSec helloLen polls [] _ frames hpolls
    ((Nat.zero_add _).trans hlen) (hlen.trans_le hgives)
  rw [List.nil_append] at hread
  rw [hclientSent, handshake, hread] at hserver
  dsimp only at hserver
  have hdecode := @Hello.decode_new debug sessionId sessionToken
  cases hcheck : checkHello debug limits r (Hello.new sessionId sessionToken).encode nowMs with
  | mk result r' =>
      rw [hcheck] at hserver
      have hreadyLen := Ready.length_encode (readyOf result)
      obtain ⟨hready, hanswer⟩ := writeSlices_one (hreadyLen ▸ Nat.succ_pos _) hwritten
        (hreadyLen.trans_le hroom)
      dsimp only at hserver
      rw [hready, hanswer] at hserver
      subst hserver
      rw [DataConn.handshake, hdone, readReady_readyOf] at hclient
      subst hclient
      refine ⟨rfl, ?_⟩
      cases result with
      | ok session =>
          obtain ⟨hello, hhello, -, hadmits, hcounted⟩ := checkHello_eq_ok.mp hcheck
          rw [hdecode] at hhello
          cases hhello
          exact .inl ⟨session, hadmits, rfl, hcounted, rfl⟩
      | error e =>
          refine .inr ⟨?_, ?_, e, rfl, rfl⟩
          · rintro ⟨session, hadmits⟩
            have hlet := (@checkHello_eq_ok debug limits r _ nowMs session _).mpr
              ⟨_, hdecode, rfl, hadmits, rfl⟩
            rw [hcheck] at hlet
            cases hlet
          · have hcounts := @dataConns_checkHello debug limits r
              (Hello.new sessionId sessionToken).encode nowMs e (by rw [hcheck])
            rw [hcheck] at hcounts
            exact hcounts

/-- A session with one connection granted, and the client it was opened for. -/
theorem handshake_agrees_alone :
    let r := (SessionRegistry.new.createAt ValidConfig.builtIn.limits "a" 1 (some (sessionA, sessionB)) 0).2
    let client := DataConn.handshake id sessionA sessionB (List.replicate 48 (.takes 1)) Ready.accepted.encode
    let server := handshake id ValidConfig.builtIn.limits r 5 (List.replicate 48 (.gives 0))
      (List.replicate 16 (.takes 1)) (Hello.new sessionA sessionB).encode
    server.stream = [] ∧
      ((∃ session, r.Admits ValidConfig.builtIn.limits sessionA sessionB 5 session ∧
          server.result = some (.ok session) ∧
          server.registry = ((r.seen session 5).openDataConn session).2 ∧
          client.result = some (.ok [])) ∨
        (¬ ∃ session, r.Admits ValidConfig.builtIn.limits sessionA sessionB 5 session) ∧
          server.registry.dataConns = r.dataConns ∧
          ∃ e : ServerError, server.result = some (.error e) ∧ client.result = some (.error e.refusal)) := by
  intro r client server
  have hclient : client.sent = (Hello.new sessionA sessionB).encode := by decide +kernel
  have hserver : server.sent = Ready.accepted.encode := by decide +kernel
  exact handshake_agrees [] [] (by rw [List.append_nil, hserver]) (by rw [List.append_nil, hclient])
    (by decide) (by decide) (by decide) (by decide) (by decide) (by decide)

end Aex
