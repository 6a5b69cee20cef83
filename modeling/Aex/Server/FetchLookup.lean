import Aex.Server.Answer
import Aex.Server.TransferSessions

/-!
# What a refused fetch gives away

A fetch under an id that its session owns no plan under is refused.  The class of
the error, which decides whether the connection stays open, should not depend on
the plans of others; it does, unless they have expired.
-/

namespace Aex

open TransferRegistry Transfers

variable {π : Type} {limits : Limits} {nowMs requestId : Nat} {ticket : Ticket}
  {session : SessionId}

/-- The class of the error, if the call failed. -/
def refusal {ε : Type} : Except ServerError ε → Option ErrorClass
  | .ok _ => none
  | .error e => some e.errorClass

/-- Two fetches get the same class of error, and leave their connections alike. -/
structure SameOutcome (ctx : Context) (session : SessionId) (header : FrameHeader)
    (ticket : Ticket) (nowMs : Nat) (touchAt : Nat → Nat) (s t : Wired) : Prop where
  refusal_eq :
    refusal (s.registry.fetch ctx.config.limits nowMs header.requestId ticket session).1 =
      refusal (t.registry.fetch ctx.config.limits nowMs header.requestId ticket session).1
  fate_eq : (handleFetch ctx session header (some ticket) nowMs touchAt s).1 =
    (handleFetch ctx session header (some ticket) nowMs touchAt t).1

namespace TransferRegistry

variable {r : TransferRegistry π}

theorem refusal_fetch_of_none (h : r.entries.lookup requestId = none) :
    refusal (r.fetch limits nowMs requestId ticket session).1 = some .plan := by
  rw [fetch, h]
  rfl

/-- Another session's plan answers as if it were not there only once it has expired. -/
theorem refusal_fetch_of_ne {e : TransferEntry π} (h : r.entries.lookup requestId = some e)
    (hne : e.session ≠ session) :
    refusal (r.fetch limits nowMs requestId ticket session).1 =
      some (if isExpired limits r e nowMs then .plan else .auth) := by
  have hrefused : (!constantTimeEq e.ticket ticket || e.session != session) = true := by
    simp [hne]
  rw [fetch, h]
  dsimp only
  by_cases hexpired : isExpired limits r e nowMs = true
  · rw [if_pos hexpired, if_pos hexpired]
    rfl
  · rw [if_neg hexpired, if_neg hexpired, if_pos hrefused]
    rfl

/-- The text of the error tells even an expired plan from none. -/
theorem fetch_fst_eq_iff {t : TransferRegistry π} (ht : t.entries.lookup requestId = none)
    (hne : ∀ e, r.entries.lookup requestId = some e → e.session ≠ session) :
    (r.fetch limits nowMs requestId ticket session).1 =
        (t.fetch limits nowMs requestId ticket session).1 ↔
      r.entries.lookup requestId = none := by
  constructor
  · intro h
    cases he : r.entries.lookup requestId with
    | none => rfl
    | some e =>
        have hclass : refusal (r.fetch limits nowMs requestId ticket session).1 =
            some (if isExpired limits r e nowMs then .plan else .auth) :=
          refusal_fetch_of_ne he (hne e he)
        rw [h, refusal_fetch_of_none ht] at hclass
        split at hclass
        · rename_i hexpired
          rw [fetch, he, fetch, ht] at h
          simp only [hexpired, if_true, Except.error.injEq, ServerError.noSuchPlan.injEq] at h
          simp only [toString, String.append_assoc, String.append_right_inj] at h
          have hchars := congrArg String.toList h
          simp at hchars
        · cases hclass
  · intro hr
    rw [fetch, hr, fetch, ht]

/-- Only the ticket a plan was issued, on its own session's connection, gets it. -/
theorem fetch_ok {e : TransferEntry π} {t : TransferRegistry π}
    (h : r.fetch limits nowMs requestId ticket session = (.ok e, t)) :
    r.entries.lookup requestId = some e ∧ e.ticket = ticket ∧ e.session = session := by
  rcases fetch_cases limits r nowMs requestId ticket session with
    ⟨error, heq⟩ | ⟨e', error, -, -, heq⟩ | ⟨e', he', -, hticket, hsession, heq⟩
  · rw [heq] at h
    cases h
  · rw [heq] at h
    cases h
  · rw [heq] at h
    cases h
    exact ⟨he', hticket, hsession⟩

end TransferRegistry

variable {ctx : Context} {header : FrameHeader} {touchAt : Nat → Nat} {s t : Wired}

theorem exists_of_refusal {ε : Type} {result : Except ServerError ε} {errorClass : ErrorClass}
    (h : refusal result = some errorClass) : ∃ e, result = .error e ∧ e.errorClass = errorClass := by
  cases result with
  | ok _ => cases h
  | error e => exact ⟨e, rfl, Option.some.inj h⟩

/-- A fetch refused by the registry carries on or not by the class of its error. -/
theorem handleFetch_refused (hframe : header.wireLen = ticketLen)
    (hlen : ¬ ctx.config.transfer.maxFetchBytes < header.logicalLen) {errorClass : ErrorClass}
    (h : refusal (s.registry.fetch ctx.config.limits nowMs header.requestId ticket session).1 =
      some errorClass) :
    (handleFetch ctx session header (some ticket) nowMs touchAt s).1 =
      .ok (if errorClass = .auth then .close else .carryOn) := by
  obtain ⟨e, hfetch, rfl⟩ := exists_of_refusal h
  simp only [handleFetch, hframe, ne_eq, not_true_eq_false, if_false, hlen]
  generalize s.registry.fetch ctx.config.limits nowMs header.requestId ticket session = result
    at hfetch
  obtain ⟨_, registry⟩ := result
  cases hfetch
  rfl

theorem handleFetch_fate_eq {errorClass : ErrorClass}
    (hs : refusal (s.registry.fetch ctx.config.limits nowMs header.requestId ticket session).1 =
      some errorClass)
    (ht : refusal (t.registry.fetch ctx.config.limits nowMs header.requestId ticket session).1 =
      some errorClass) :
    (handleFetch ctx session header (some ticket) nowMs touchAt s).1 =
      (handleFetch ctx session header (some ticket) nowMs touchAt t).1 := by
  by_cases hframe : header.wireLen = ticketLen
  · by_cases hlen : ctx.config.transfer.maxFetchBytes < header.logicalLen
    · simp only [handleFetch, hframe, ne_eq, not_true_eq_false, if_false, hlen, if_true]
    · rw [handleFetch_refused hframe hlen hs, handleFetch_refused hframe hlen ht]
  · simp only [handleFetch, hframe, ne_eq, not_false_eq_true, if_true]

end Aex
