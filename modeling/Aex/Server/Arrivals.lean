import Aex.Server.CallRuns
import Aex.Server.Handshake

/-!
# Connections let in

A data connection is known to the server by the 48 bytes it begins with.  What those
bytes set off among the calls in progress, and what they must be for the connection to
be served.
-/

namespace Aex

open Lts TransferRegistry Transfers Endian

namespace Server

variable {π : Type} {debug : String → String} {limits : Limits} {s t : Server π}
  {session : ServerSession} {bytes : List UInt8}

/-- The call that a `HELLO` sets off, unless it is refused before the session is looked
up. -/
def helloEvent (debug : String → String) (bytes : List UInt8) (nowMs : Nat) : Option (Event π) :=
  match Hello.decode debug bytes with
  | .error _ => none
  | .ok hello =>
      if hello.version ≠ protocolVersion then none
      else some (.get (.hello hello.sessionToken) hello.sessionId.toList nowMs)

def Event.isHello : Event π → Bool
  | .get (.hello _) _ _ => true
  | _ => false

/-- What reaches the server: the first bytes of a connection, or anything else that
moves a thread. -/
inductive Arrival (π : Type) where
  | hello (bytes : List UInt8) (nowMs : Nat)
  | other (a : Event π)

/-- A `HELLO` is taken up once all of it has arrived, and in no other way. -/
def arrive (debug : String → String) (limits : Limits) (s : Server π) : Arrival π → Option (Server π)
  | .hello bytes nowMs =>
      if bytes.length ≠ helloLen then none
      else (helloEvent debug bytes nowMs).elim (some s) (s.step limits)
  | .other a => if a.isHello then none else s.step limits a

/-! ## The check as a call -/

/-- The threads a check leaves behind. -/
def greeting : Except ServerError ServerSession → List Call
  | .error _ => []
  | .ok session => [.greet session]

theorem getElem?_spawned (calls : List Call) (call : Call) : (calls ++ [call])[calls.length]? = some call := by
  rw [List.getElem?_append_right (Nat.le_refl _), Nat.sub_self]
  rfl

/-- The thread spawned last takes its step. -/
theorem move_spawned (s : Server π) (call : Call) (m : Move π) :
    (s.spawn call).step limits (.move s.calls.length m) =
      (s.spawn call).move limits s.calls.length call m := by
  have hcall : (s.spawn call).calls[s.calls.length]? = some call := getElem?_spawned _ _
  rw [step, hcall]
  rfl

theorem finish_spawned (calls : List Call) (call : Call) :
    (calls ++ [call]).eraseIdx calls.length = calls ++ greeting (.error e) := by
  rw [List.eraseIdx_append_of_length_le (Nat.le_refl _), Nat.sub_self]
  rfl

theorem become_spawned (calls : List Call) (call next : Call) :
    (calls ++ [call]).set calls.length next = calls ++ [next] := by
  rw [List.set_append_right _ _ (Nat.le_refl _), Nat.sub_self]
  rfl

theorem move_takeOut (s : Server π) (id : SessionId) (e : ServerError) :
    (s.spawn (.takeOut id)).step limits (.move s.calls.length .go) =
      some { s with sessions := s.sessions.erase id, calls := s.calls ++ greeting (.error e) } := by
  rw [move_spawned, ← finish_spawned s.calls (.takeOut id)]
  rfl

theorem move_hello (s : Server π) (session : ServerSession) (token : SessionToken) :
    (s.spawn (.hello session token)).step limits (.move s.calls.length .go) =
      some { s with
        sessions := (checkToken s.sessions session token).2
        calls := s.calls ++ greeting (checkToken s.sessions session token).1 } := by
  have hsessions : (s.spawn (.hello session token)).sessions = s.sessions := rfl
  rw [move_spawned, move, checkToken, hsessions]
  split
  · rw [← finish_spawned s.calls (.hello session token)]
    rfl
  cases hopen : s.sessions.openDataConn session with
  | mk opened counted =>
      cases opened with
      | error e =>
          rw [← finish_spawned s.calls (.hello session token), SessionRegistry.openDataConn_error hopen]
          rfl
      | ok _ =>
          dsimp only [greeting]
          rw [← become_spawned s.calls (.hello session token)]
          rfl

/-- Left alone, the calls a `HELLO` sets off do what `check_hello` does. -/
theorem checkHello_runs (nowMs : Nat) :
    ∃ events : List (Event π), (((helloEvent debug bytes nowMs).toList ++ events).foldlM (step limits) s =
      some { s with
        sessions := (checkHello debug limits s.sessions bytes nowMs).2
        calls := s.calls ++ greeting (checkHello debug limits s.sessions bytes nowMs).1 }) := by
  have hsame : s = { s with calls := s.calls ++ [] } := by rw [List.append_nil]
  unfold helloEvent checkHello
  cases hdecode : Hello.decode debug bytes with
  | error e => exact ⟨[], congrArg some hsame⟩
  | ok hello =>
      dsimp only
      by_cases hversion : hello.version ≠ protocolVersion
      · rw [if_pos hversion, if_pos hversion]
        exact ⟨[], congrArg some hsame⟩
      rw [if_neg hversion, if_neg hversion, SessionRegistry.getAt]
      have hrun : ∀ {t u : Server π} {a b : Event π}, s.step limits a = some t →
          t.step limits b = some u → ((some a).toList ++ [b]).foldlM (step limits) s = some u := by
        intro t u a b ha hb
        rw [Option.toList_some, List.singleton_append, List.foldlM_cons, ha, Option.bind_eq_bind,
          Option.bind_some, List.foldlM_cons, hb]
        rfl
      have hget : s.step limits (.get (.hello hello.sessionToken) hello.sessionId.toList nowMs) =
        some (s.get limits (.hello hello.sessionToken) hello.sessionId.toList nowMs) := rfl
      rw [Server.get] at hget
      cases hlook : s.sessions.look limits hello.sessionId.toList nowMs with
      | error e =>
          rw [hlook] at hget
          refine ⟨[], ?_⟩
          exact (congrArg (· >>= pure) hget).trans (congrArg some hsame)
      | ok found =>
          obtain ⟨session, expired⟩ := found
          rw [hlook] at hget
          cases expired with
          | true =>
              exact ⟨[.move s.calls.length .go], hrun hget (move_takeOut s session.id _)⟩
          | false =>
              exact ⟨[.move s.calls.length .go], hrun hget
                (move_hello { s with sessions := s.sessions.seen session nowMs } session _)⟩

/-! ## What a connection presented -/

/-- The bytes of a `HELLO` that names the session and carries its token. -/
def presents (session : ServerSession) (bytes : List UInt8) : Bool :=
  Vec.slice bytes 0 8 = magic && Vec.slice bytes 8 2 = toLE 2 protocolVersion &&
    Vec.slice bytes 16 16 = session.id.toList && Vec.slice bytes 32 16 = session.token.toList

def Arrival.presents (session : ServerSession) : Arrival π → Bool
  | .hello bytes _ => Server.presents session bytes
  | .other _ => false

theorem presents_of_decode {hello : Hello} (hlen : bytes.length = helloLen)
    (h : Hello.decode debug bytes = .ok hello) (hversion : hello.version = protocolVersion)
    (hid : hello.sessionId = session.id) (htoken : hello.sessionToken = session.token) :
    presents session bytes = true := by
  have hslice : ∀ i n, i + n ≤ 48 → (Vec.slice bytes i n).length = n := fun i n h =>
    Vec.length_slice (by rw [hlen]; exact h)
  obtain ⟨⟨⟩, hmagic, hfields⟩ := Fallible.bind_eq_ok.mp h
  cases hfields
  rw [checkMagic_eq_ok] at hmagic
  dsimp only at hversion hid htoken
  unfold presents
  rw [hmagic, ← hversion, toLE_ofLE (hslice 8 2 (by decide)), ← hid, toList_sixteen (hslice 16 16 (by decide)),
    ← htoken, toList_sixteen (hslice 32 16 (by decide))]
  simp

/-- The table holds every session under its own id. -/
def Keyed (s : Server π) : Prop := ∀ key x, s.sessions.sessions.lookup key = some x → x.id = key

theorem Keyed.mono (h : s.Keyed) (htable : ∀ key x, t.sessions.sessions.lookup key = some x →
    s.sessions.sessions.lookup key = some x) : t.Keyed := fun key x hx => h key x (htable key x hx)

theorem keyed_act {a : Event π} (h : Acts limits s a t) (hs : s.Keyed) : t.Keyed := by
  cases h with
  | reseen a h => exact hs.mono fun _ _ => by simp only [h.sessions, imp_self]
  | got purpose id nowMs hlookup h hcall => exact hs.mono fun _ _ => by simp only [spawn, h.sessions, imp_self]
  | swept nowMs => exact hs.mono fun _ _ => lookup_sweepExpiredAt_of
  | @admitted i _ _ _ hcall id token r session hsession hsessions =>
      intro key x hx
      have hx : r.sessions.lookup key = some x := hx
      rw [hsessions] at hx
      by_cases hkey : key = id
      · rw [hkey, AList.lookup_insert] at hx
        cases hx
        rw [hkey, hsession]
      · rw [AList.lookup_insert_ne hkey] at hx
        exact hs key x hx
  | tookOut hcall => exact hs.mono fun _ _ => lookup_erase_of
  | disconnected hcall => exact hs.mono fun _ _ => lookup_erase_of
  | heard hcall hroom hsessions => exact hs.mono fun _ _ => by simp only [become, hsessions, imp_self]
  | _ => exact hs.mono fun _ _ => id

/-- The thread is a connection of the session that was accepted, or will be if there is
room. -/
def Call.claims (session : ServerSession) (call : Call) : Bool :=
  call = .hello session session.token ∨ call.attaches session = true

def claimants (s : Server π) (session : ServerSession) : Nat := s.calls.countP (Call.claims session)

theorem claimants_spawn (s : Server π) (call : Call) :
    (s.spawn call).claimants session = s.claimants session + (call.claims session).toNat :=
  Threads.countP_concat _ _

theorem claimants_finish_le {i : Nat} {call : Call} (h : s.calls[i]? = some call) :
    (s.finish i).claimants session ≤ s.claimants session :=
  Nat.le.intro (Threads.countP_eraseIdx h (Call.claims session))

theorem claimants_become_le {i : Nat} {call next : Call} (h : s.calls[i]? = some call)
    (hnext : next.claims session = true → call.claims session = true) :
    (s.become i next).claimants session ≤ s.claimants session := by
  have hsum : (s.become i next).claimants session + (call.claims session).toNat =
      s.claimants session + (next.claims session).toNat := Threads.countP_set h _ _
  have hle := Bool.toNat_le_toNat (Bool.le_iff_imp.mpr hnext)
  omega

theorem toList_idOf {id : List UInt8} {key : SessionId} (h : SessionRegistry.idOf id = some key) :
    key.toList = id := by
  unfold SessionRegistry.idOf at h
  split at h
  · cases h
    rfl
  · cases h

/-- A lookup makes a claim only for a `HELLO` that presents the session's id and token. -/
theorem claimants_get (hs : s.Keyed) (purpose : Purpose) (id : List UInt8) (nowMs : Nat)
    (h : ∀ token, purpose = .hello token → ¬ (id = session.id.toList ∧ token = session.token)) :
    (s.get limits purpose id nowMs).claimants session ≤ s.claimants session := by
  unfold Server.get
  split
  · exact Nat.le_refl _
  · exact (claimants_spawn s _).le
  rename_i found hlook
  obtain ⟨key, hkey, hlookup⟩ := SessionRegistry.look_ok hlook
  cases purpose with
  | prepare | disconnect => exact (claimants_spawn { s with sessions := _ } _).le
  | other => exact Nat.le_refl _
  | hello token =>
      have hnot : Call.claims session (.hello found token) = false := by
        rw [Call.claims, decide_eq_false_iff_not]
        rintro (heq | hattaches)
        · cases heq
          refine h _ rfl ⟨?_, rfl⟩
          rw [hs key _ hlookup]
          exact (toList_idOf hkey).symm
        · cases of_decide_eq_true hattaches <;> contradiction
      refine (claimants_spawn { s with sessions := _ } _).trans_le ?_
      rw [hnot]
      exact Nat.le_refl _

/-- A lookup starts one thread at most. -/
theorem claimants_get_le (purpose : Purpose) (id : List UInt8) (nowMs : Nat) :
    (s.get limits purpose id nowMs).claimants session ≤ s.claimants session + 1 := by
  have hspawn : ∀ (u : Server π) (call : Call),
      (u.spawn call).claimants session ≤ u.claimants session + 1 := by
    intro u call
    rw [claimants_spawn]
    exact Nat.add_le_add_left (Bool.toNat_le _) _
  unfold Server.get
  split
  · exact Nat.le_succ _
  · exact hspawn s _
  · cases purpose with
    | prepare | disconnect | hello => exact hspawn { s with sessions := _ } _
    | other => exact Nat.le_succ _

/-- No other step makes a claim. -/
theorem claimants_act {a : Event π} (h : Acts limits s a t)
    (hget : ∀ purpose id nowMs, a ≠ .get purpose id nowMs) :
    t.claimants session ≤ s.claimants session := by
  cases h with
  | refused | reseen | plansTouched | asked => exact Nat.le_refl _
  | room => exact (claimants_spawn s _).le
  | expired purpose id nowMs => exact absurd rfl (hget purpose id nowMs)
  | got purpose id nowMs => exact absurd rfl (hget purpose id nowMs)
  | expiredPlan => exact (claimants_spawn s _).le
  | swept nowMs => exact (claimants_spawn { s with sessions := _ } _).le
  | notAdmitted m hcall => exact claimants_finish_le hcall
  | admitted hcall => exact claimants_finish_le hcall
  | tookOut hcall => exact claimants_finish_le hcall
  | gaveUp hcall => exact claimants_finish_le hcall
  | inserted hcall => exact claimants_finish_le hcall
  | disconnected hcall => exact claimants_become_le hcall (by simp [Call.claims, Call.attaches])
  | plansDropped hcall => exact claimants_finish_le hcall
  | planDropped hcall => exact claimants_finish_le hcall
  | locked hcall => exact claimants_become_le hcall (by simp [Call.claims, Call.attaches])
  | sweptPlans hcall => exact claimants_finish_le hcall
  | notHeard hcall => exact claimants_finish_le hcall
  | heard hcall =>
      refine claimants_become_le hcall fun hnext => ?_
      simp only [Call.claims, Call.attaches, reduceCtorEq, Call.greet.injEq, or_false, false_or,
        decide_eq_true_eq] at hnext
      rw [hnext]
      simp [Call.claims]
  | greeted hcall =>
      refine claimants_become_le hcall fun hnext => ?_
      simp only [Call.claims, Call.attaches, reduceCtorEq, Call.serve.injEq, false_or,
        decide_eq_true_eq] at hnext
      rw [hnext]
      simp [Call.claims, Call.attaches]
  | notGreeted hcall => exact claimants_finish_le hcall
  | served hcall => exact claimants_finish_le hcall

theorem helloEvent_eq_some {nowMs : Nat} {a : Event π} (h : helloEvent debug bytes nowMs = some a) :
    ∃ hello, Hello.decode debug bytes = .ok hello ∧ hello.version = protocolVersion ∧
      a = .get (.hello hello.sessionToken) hello.sessionId.toList nowMs := by
  unfold helloEvent at h
  split at h
  · cases h
  rename_i hello hdecode
  split at h
  · cases h
  rename_i hversion
  cases h
  exact ⟨hello, hdecode, not_not.mp hversion, rfl⟩

/-- A `HELLO` makes one claim, and only on the session it presents the id and the token
of; nothing else makes any. -/
theorem claimants_arrive (hs : s.Keyed) {arrival : Arrival π}
    (h : s.arrive debug limits arrival = some t) :
    t.Keyed ∧ t.claimants session ≤ s.claimants session + (arrival.presents session).toNat := by
  cases arrival with
  | other a =>
      simp only [arrive] at h
      split at h
      · cases h
      rename_i hhello
      refine ⟨keyed_act (acts_step h) hs, ?_⟩
      cases a with
      | get purpose id nowMs =>
          cases h
          refine claimants_get hs purpose id nowMs fun token hpurpose => ?_
          subst hpurpose
          exact absurd rfl hhello
      | _ => exact claimants_act (acts_step h) (by simp)
  | hello bytes nowMs =>
      simp only [arrive] at h
      split at h
      · cases h
      rename_i hlen
      rw [not_not] at hlen
      cases hevent : @helloEvent π debug bytes nowMs with
      | none =>
          rw [hevent] at h
          cases h
          exact ⟨hs, Nat.le_add_right _ _⟩
      | some a =>
          rw [hevent, Option.elim_some] at h
          refine ⟨keyed_act (acts_step h) hs, ?_⟩
          obtain ⟨hello, hdecode, hversion, rfl⟩ := helloEvent_eq_some hevent
          cases h
          rw [Arrival.presents]
          cases hpresents : Server.presents session bytes with
          | true => exact claimants_get_le _ _ _
          | false =>
              refine claimants_get hs _ _ nowMs fun token hpurpose => ?_
              cases hpurpose
              rintro ⟨hid, htoken⟩
              have htrue := presents_of_decode hlen hdecode hversion (Vector.toList_inj.mp hid) htoken
              rw [hpresents] at htrue
              cases htrue

theorem claimants_le {labels : List (Arrival π)} (hs : s.Keyed)
    (h : labels.foldlM (arrive debug limits) s = some t) :
    t.claimants session ≤ s.claimants session + labels.countP (Arrival.presents session) := by
  induction labels generalizing s with
  | nil =>
      cases h
      exact Nat.le_refl _
  | cons label labels ih =>
      rw [List.foldlM_cons, Option.bind_eq_bind, Option.bind_eq_some_iff] at h
      obtain ⟨u, hu, h⟩ := h
      obtain ⟨hkeyed, hle⟩ := @claimants_arrive _ _ _ _ _ session hs label hu
      have hrest := ih hkeyed h
      rw [List.countP_cons]
      cases hpresents : label.presents session with
      | true =>
          rw [hpresents] at hle
          rw [if_pos rfl]
          exact hrest.trans (by rw [Bool.toNat_true] at hle; omega)
      | false =>
          rw [hpresents] at hle
          rw [if_neg Bool.false_ne_true]
          exact hrest.trans (by rw [Bool.toNat_false] at hle; omega)

/-- Accepted connections of a session are never more than the `HELLO`s there have been
with its id and its token. -/
theorem attached_le_presented {labels : List (Arrival π)}
    (h : labels.foldlM (arrive debug limits) new = some s) (session : ServerSession) :
    s.attached session ≤ labels.countP (Arrival.presents session) := by
  have hkeyed : (new : Server π).Keyed := by
    intro key x hx
    rw [new, SessionRegistry.new, AList.lookup_empty] at hx
    cases hx
  have hclaims := @claimants_le _ debug limits new s session labels hkeyed h
  have hzero : (new : Server π).claimants session = 0 := rfl
  rw [hzero, Nat.zero_add] at hclaims
  refine le_trans (List.countP_mono_left fun call _ hattaches => ?_) hclaims
  rw [Call.claims, decide_eq_true_iff]
  exact .inr hattaches

/-- A session is opened, and one connection presents its token. -/
theorem attached_le_presented_one : ∃ s : Server Unit,
    [.other (.create "a" 0 0), .other (.move 0 (.enlist (some (sessionA, sessionB)))),
      .hello (Hello.new sessionA sessionB).encode 0, .other (.move 0 .go)].foldlM
      (arrive id ValidConfig.builtIn.limits) new = some s ∧
    1 ≤ s.attached ⟨sessionA, sessionB, 8, "a", 0⟩ ∧
    s.attached ⟨sessionA, sessionB, 8, "a", 0⟩ ≤
      ([.other (.create "a" 0 0), .other (.move 0 (.enlist (some (sessionA, sessionB)))),
        .hello (Hello.new sessionA sessionB).encode 0, .other (.move 0 .go)] : List (Arrival Unit)).countP
        (Arrival.presents ⟨sessionA, sessionB, 8, "a", 0⟩) :=
  ⟨_, rfl, by decide, @attached_le_presented _ id ValidConfig.builtIn.limits _ _ rfl _⟩

end Server

end Aex
