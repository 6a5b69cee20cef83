import Aex.Server.Calls

/-!
# What one step of the server can do

The invariants of calls in progress are proved from the list of outcomes below,
and not from the functions of the threads themselves.
-/

namespace Aex

open Lts TransferRegistry

/-- The same sessions and counts of connections; some session may have been used. -/
structure SessionRegistry.Reseen (r t : SessionRegistry) : Prop where
  sessions : t.sessions = r.sessions
  dataConns : t.dataConns = r.dataConns
  cells : t.cells = r.cells

theorem SessionRegistry.Reseen.seen (r : SessionRegistry) (session : ServerSession) (nowMs : Nat) :
    r.Reseen (r.seen session nowMs) := ⟨rfl, rfl, rfl⟩

theorem SessionRegistry.Reseen.touch (r : SessionRegistry) (id : SessionId) (nowMs : Nat) :
    r.Reseen (r.touch id nowMs) := by
  unfold SessionRegistry.touch
  split
  · exact ⟨rfl, rfl, rfl⟩
  · exact .seen _ _ _

namespace Server

variable {π : Type} {limits : Limits} {s t : Server π}

/-- The outcomes of one event. -/
inductive Acts (limits : Limits) (s : Server π) : Event π → Server π → Prop
  | refused (a : Event π) : Acts limits s a s
  | reseen (a : Event π) {r : SessionRegistry} (h : s.sessions.Reseen r) :
      Acts limits s a { s with sessions := r }
  | room (clientName : String) (desiredStreams : UInt32) (nowMs : Nat)
      (hroom : s.sessions.len < limits.maxSessions) :
      Acts limits s (.create clientName desiredStreams nowMs)
        (s.spawn (.create clientName desiredStreams nowMs))
  | expired (purpose : Purpose) (id : List UInt8) (nowMs : Nat) (found : SessionId) :
      Acts limits s (.get purpose id nowMs) (s.spawn (.takeOut found))
  | got (purpose : Purpose) (id : List UInt8) (nowMs : Nat) {key : SessionId}
      {session : ServerSession} (hlookup : s.sessions.sessions.lookup key = some session)
      {r : SessionRegistry} (h : s.sessions.Reseen r) {call : Call}
      (hcall : call = .prepare session ∨ call = .disconnect session ∨
        ∃ token, call = .hello session token) :
      Acts limits s (.get purpose id nowMs) ({ s with sessions := r }.spawn call)
  | expiredPlan (a : Event π) (requestId : Nat) : Acts limits s a (s.spawn (.dropPlan requestId))
  | plansTouched (a : Event π) {r : TransferRegistry π}
      (hentries : r.entries = s.transfers.entries)
      (hsession : r.bySession = s.transfers.bySession) :
      Acts limits s a { s with transfers := r }
  | swept (nowMs : Nat) : Acts limits s (.sweep nowMs)
      ({ s with sessions := s.sessions.sweepExpiredAt limits nowMs }.spawn .sweepPlans)
  | asked (a : Event π) (sweep : Sweep) : Acts limits s a { s with sweeping := some sweep }
  | notAdmitted {i : Nat} (m : Move π) {clientName : String} {desiredStreams : UInt32} {at_ : Nat}
      (hcall : s.calls[i]? = some (.create clientName desiredStreams at_)) :
      Acts limits s (.move i m) (s.finish i)
  | admitted {i : Nat} {clientName : String} {desiredStreams : UInt32} {at_ : Nat}
      (hcall : s.calls[i]? = some (.create clientName desiredStreams at_)) (id : SessionId)
      (token : SessionToken) {r : SessionRegistry} {session : ServerSession}
      (hsession : session = ⟨id, token, SessionRegistry.grantStreams limits desiredStreams,
        clientName, s.sessions.cells⟩)
      (hsessions : r.sessions = s.sessions.sessions.insert id session)
      (hconns : r.dataConns = Function.update s.sessions.dataConns s.sessions.cells 0)
      (hcells : r.cells = s.sessions.cells + 1) :
      Acts limits s (.move i (.enlist (some (id, token))))
        ({ s with sessions := r, created := session :: s.created }.finish i)
  | tookOut {i : Nat} {id : SessionId} (hcall : s.calls[i]? = some (.takeOut id)) :
      Acts limits s (.move i .go) ({ s with sessions := s.sessions.erase id }.finish i)
  | gaveUp {i : Nat} {session : ServerSession} (hcall : s.calls[i]? = some (.prepare session)) :
      Acts limits s (.move i .giveUp) (s.finish i)
  | inserted {i : Nat} {session : ServerSession} (hcall : s.calls[i]? = some (.prepare session))
      (hfree : s.sweeping = none) (random : Option Ticket) (plan : π) (nowMs : Nat) :
      Acts limits s (.move i (.insert random plan nowMs)) ({ s with
        transfers := (s.transfers.insertAt limits session.id random plan nowMs).2 }.finish i)
  | disconnected {i : Nat} {session : ServerSession}
      (hcall : s.calls[i]? = some (.disconnect session)) :
      Acts limits s (.move i .go)
        ({ s with sessions := s.sessions.erase session.id }.become i (.dropPlans session.id))
  | plansDropped {i : Nat} {id : SessionId} (hcall : s.calls[i]? = some (.dropPlans id))
      (hfree : s.sweeping = none) :
      Acts limits s (.move i .go) ({ s with
        transfers := (s.transfers.removeSession id).2, ended := id :: s.ended }.finish i)
  | planDropped {i requestId : Nat} (hcall : s.calls[i]? = some (.dropPlan requestId))
      (hfree : s.sweeping = none) :
      Acts limits s (.move i .go)
        ({ s with transfers := s.transfers.remove requestId }.finish i)
  | locked {i : Nat} (hcall : s.calls[i]? = some .sweepPlans) (hfree : s.sweeping = none)
      (nowMs : Nat) :
      Acts limits s (.move i (.lock nowMs))
        ({ s with sweeping := some ⟨nowMs, ∅, ∅⟩ }.become i .holdPlans)
  | sweptPlans {i : Nat} (hcall : s.calls[i]? = some .holdPlans) {sweep : Sweep}
      (hsweep : s.sweeping = some sweep) :
      Acts limits s (.move i .go) ({ s with
        transfers := (s.transfers.sweepAt limits sweep.nowMs sweep.isLive).2
        sweeping := none }.finish i)
  | notHeard {i : Nat} {session : ServerSession} {token : SessionToken}
      (hcall : s.calls[i]? = some (.hello session token)) :
      Acts limits s (.move i .go) (s.finish i)
  | heard {i : Nat} {session : ServerSession}
      (hcall : s.calls[i]? = some (.hello session session.token))
      (hroom : s.sessions.dataConns session.cell < session.grantedStreams) {r : SessionRegistry}
      (hsessions : r.sessions = s.sessions.sessions)
      (hconns : r.dataConns = Function.update s.sessions.dataConns session.cell
        (s.sessions.dataConns session.cell + 1))
      (hcells : r.cells = s.sessions.cells) :
      Acts limits s (.move i .go) ({ s with sessions := r }.become i (.greet session))
  | greeted {i : Nat} {session : ServerSession} (hcall : s.calls[i]? = some (.greet session)) :
      Acts limits s (.move i (.wrote true)) (s.become i (.serve session))
  | notGreeted {i : Nat} {session : ServerSession} (hcall : s.calls[i]? = some (.greet session)) :
      Acts limits s (.move i (.wrote false)) (s.finish i)
  | served {i : Nat} {session : ServerSession} (hcall : s.calls[i]? = some (.serve session)) :
      Acts limits s (.move i .go)
        ({ s with sessions := s.sessions.closeDataConn session }.finish i)

theorem acts_get (purpose : Purpose) (id : List UInt8) (nowMs : Nat) :
    Acts limits s (.get purpose id nowMs) (s.get limits purpose id nowMs) := by
  unfold Server.get
  split
  · exact .refused _
  · exact .expired purpose id nowMs _
  · rename_i session hlook
    obtain ⟨key, -, hkey⟩ := SessionRegistry.look_ok hlook
    have hseen := SessionRegistry.Reseen.seen s.sessions session nowMs
    cases purpose with
    | prepare => exact .got _ id nowMs hkey hseen (.inl rfl)
    | disconnect => exact .got _ id nowMs hkey hseen (.inr (.inl rfl))
    | hello token => exact .got _ id nowMs hkey hseen (.inr (.inr ⟨token, rfl⟩))
    | other => exact .reseen _ hseen

theorem acts_fetch (nowMs requestId : Nat) (ticket : Ticket) (session : SessionId) :
    Acts limits s (.fetch nowMs requestId ticket session)
      (s.fetch limits nowMs requestId ticket session) := by
  unfold Server.fetch
  split
  · exact .refused _
  · rename_i entry hentry
    split
    · exact .expiredPlan _ requestId
    · rename_i hlive
      rcases fetch_cases limits s.transfers nowMs requestId ticket session with
        ⟨error, heq⟩ | ⟨e, error, he, hexpired, heq⟩ | ⟨e, -, -, -, -, heq⟩
      · rw [heq]
        exact .refused _
      · rw [hentry] at he
        cases he
        exact absurd hexpired hlive
      · rw [heq]
        exact .plansTouched _ rfl rfl

theorem acts_askPlan {requestId : Nat} (h : s.askPlan limits requestId = some t) :
    Acts limits s (.askPlan requestId) t := by
  unfold Server.askPlan at h
  split at h
  · split at h
    · cases h
    · cases h
      exact .asked _ _
  · cases h

theorem acts_askSession {id : SessionId} (h : s.askSession limits id = some t) :
    Acts limits s (.askSession id) t := by
  unfold Server.askSession at h
  split at h
  · split at h
    · cases h
      exact .asked _ _
    · cases h
  · cases h

theorem acts_hello {i : Nat} {session : ServerSession} {token : SessionToken}
    (hcall : s.calls[i]? = some (.hello session token))
    (h : s.move limits i (.hello session token) .go = some t) :
    Acts limits s (.move i .go) t := by
  simp only [Server.move, SessionRegistry.openDataConn] at h
  split at h
  · cases h
    exact .notHeard hcall
  rename_i htoken
  split at h
  · cases h
    exact .notHeard hcall
  · rename_i hopen
    split at hopen
    · cases hopen
    rename_i hroom
    cases hopen
    cases h
    rw [Bool.not_eq_true', Bool.not_eq_false, constantTimeEq_iff] at htoken
    exact .heard (htoken ▸ hcall) (Nat.lt_of_not_le hroom) rfl rfl rfl

theorem acts_move {i : Nat} {call : Call} (hcall : s.calls[i]? = some call) {m : Move π}
    (h : s.move limits i call m = some t) : Acts limits s (.move i m) t := by
  cases call with
  | create clientName desiredStreams nowMs =>
      cases m with
      | enlist random =>
          cases random with
          | none =>
              cases h
              exact .notAdmitted _ hcall
          | some drawn =>
              cases h
              exact .admitted hcall drawn.1 drawn.2 rfl rfl rfl rfl
      | _ => cases h
  | takeOut id =>
      cases m with
      | go =>
          cases h
          exact .tookOut hcall
      | _ => cases h
  | prepare session =>
      cases m with
      | giveUp =>
          cases h
          exact .gaveUp hcall
      | insert random plan nowMs =>
          simp only [Server.move, Option.isSome_iff_ne_none, ite_not] at h
          split at h
          · rename_i hfree
            cases h
            exact .inserted hcall hfree random plan nowMs
          · cases h
      | _ => cases h
  | disconnect session =>
      cases m with
      | go =>
          cases h
          exact .disconnected hcall
      | _ => cases h
  | dropPlans id =>
      cases m with
      | go =>
          simp only [Server.move, Option.isSome_iff_ne_none, ite_not] at h
          split at h
          · rename_i hfree
            cases h
            exact .plansDropped hcall hfree
          · cases h
      | _ => cases h
  | dropPlan requestId =>
      cases m with
      | go =>
          simp only [Server.move, Option.isSome_iff_ne_none, ite_not] at h
          split at h
          · rename_i hfree
            cases h
            exact .planDropped hcall hfree
          · cases h
      | _ => cases h
  | sweepPlans =>
      cases m with
      | lock nowMs =>
          simp only [Server.move, Option.isSome_iff_ne_none, ite_not] at h
          split at h
          · rename_i hfree
            cases h
            exact .locked hcall hfree nowMs
          · cases h
      | _ => cases h
  | holdPlans =>
      cases m with
      | go =>
          simp only [Server.move] at h
          split at h
          · cases h
          rename_i sweep hsweep
          split at h
          · cases h
            exact .sweptPlans hcall hsweep
          · cases h
      | _ => cases h
  | hello session token =>
      cases m with
      | go => exact acts_hello hcall h
      | _ => cases h
  | greet session =>
      cases m with
      | wrote ok =>
          cases ok with
          | true =>
              cases h
              exact .greeted hcall
          | false =>
              cases h
              exact .notGreeted hcall
      | _ => cases h
  | serve session =>
      cases m with
      | go =>
          cases h
          exact .served hcall
      | _ => cases h

/-- Every step is one of the outcomes. -/
theorem acts_step {a : Event π} (h : s.step limits a = some t) : Acts limits s a t := by
  cases a with
  | create clientName desiredStreams nowMs =>
      simp only [Server.step, SessionRegistry.checkRoom] at h
      split at h
      · cases h
        exact .refused _
      · rename_i hcheck
        cases h
        split at hcheck
        · cases hcheck
        · exact .room _ _ _ (Nat.lt_of_not_le ‹_›)
  | get purpose id nowMs =>
      cases h
      exact acts_get purpose id nowMs
  | touchSession id nowMs =>
      cases h
      exact .reseen _ (.touch _ _ _)
  | fetch nowMs requestId ticket session =>
      simp only [Server.step] at h
      split at h
      · cases h
      · cases h
        exact acts_fetch nowMs requestId ticket session
  | touchPlan entry nowMs =>
      cases h
      exact .plansTouched _ rfl rfl
  | sweep nowMs =>
      cases h
      exact .swept nowMs
  | askPlan requestId => exact acts_askPlan h
  | askSession id => exact acts_askSession h
  | move i m =>
      obtain ⟨call, hcall, h⟩ := Option.bind_eq_some_iff.mp h
      exact acts_move hcall h

end Server

end Aex
