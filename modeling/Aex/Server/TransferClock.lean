import Aex.Server.TransferSessions

/-!
# The registry's clock

The calls on the registry with their steps apart: the clock is read before the
lock is taken, and a plan's last use is loaded and stored without it.  Any number
of calls are under way at once, on a clock that never goes back.
-/

namespace Aex

open Lts
open TransferRegistry (Liveness)

namespace TransferRegistry

variable {π : Type}

/-- Store a plan that has its id and its ticket. -/
def file (limits : Limits) (r : TransferRegistry π) (session : SessionId) (ticket : Ticket) (plan : π)
    (requestId nowMs : Nat) : TransferEntry π × TransferRegistry π :=
  let entry : TransferEntry π := ⟨requestId, session, ticket, plan, r.cells⟩
  let lastUsedMs := Function.update r.lastUsedMs r.cells nowMs
  let (entries, ids) := evict limits.maxTransfersPerSession lastUsedMs
    (((r.bySession.lookup session).getD []).filter fun id => (r.entries.lookup id).isSome).length
    r.entries
    (((r.bySession.lookup session).getD []).filter fun id => (r.entries.lookup id).isSome)
  (entry,
    { entries := entries.insert requestId entry
      bySession := r.bySession.insert session (ids ++ [requestId])
      nextId := r.nextId
      lastUsedMs := lastUsedMs
      cells := r.cells + 1 })

/-- An insert is a mint, and then the plan is filed. -/
theorem insertAt_eq_file (limits : Limits) (r : TransferRegistry π) (session : SessionId)
    (ticket : Ticket) (plan : π) (nowMs : Nat) :
    r.insertAt limits session (some ticket) plan nowMs =
      let (entry, r) := r.nextRequestId.2.file limits session ticket plan r.nextRequestId.1 nowMs
      (.ok entry, r) := rfl

end TransferRegistry

namespace PlanClock

/-- What a call returns. -/
inductive Outcome (π : Type) where
  | plan (entry : TransferEntry π)
  | touched
  /-- How many plans went. -/
  | dropped (count : Nat)
  deriving DecidableEq

/-- Where a call is; `nowMs` is the time it read. -/
inductive Pc (π : Type) where
  | called (call : TransferCall π)
  | minting (nowMs : Nat) (session : SessionId) (random : Option Ticket) (plan : π)
  | filing (nowMs : Nat) (session : SessionId) (ticket : Ticket) (plan : π) (requestId : Nat)
  | looking (nowMs requestId : Nat) (ticket : Ticket) (session : SessionId)
  | checking (nowMs : Nat) (entry : TransferEntry π) (ticket : Ticket) (session : SessionId)
  /-- About to store the time it read. -/
  | touching (nowMs : Nat) (entry : TransferEntry π) (outcome : Outcome π)
  /-- About to drop a plan it found expired. -/
  | removing (nowMs : Nat) (entry : TransferEntry π)
  | locking (nowMs : Nat) (isLive : Liveness)
  /-- Holding the lock, with plans still to look at. -/
  | sweeping (nowMs : Nat) (isLive : Liveness) (ids : List Nat) (before : Nat)
  | ended (result : Except ServerError (Outcome π))

/-- The registry, and the calls under way.  No code reads the last three: every entry
made, by cell, the times of the uses of each, and the entries dropped as expired. -/
structure State (π : Type) where
  clockMs : Nat
  registry : TransferRegistry π
  threads : List (Pc π)
  issued : List (TransferEntry π)
  uses : Nat → List Nat
  expired : List (TransferEntry π)

inductive Label (π : Type) where
  | tick (ms : Nat)
  | call (call : TransferCall π)
  /-- The next step of a call; `pick` says which plan a sweep looks at. -/
  | act (thread pick : Nat)

namespace State

variable {π : Type} (s : State π)

/-- Whether a sweep holds the lock. -/
def locked : Bool := s.threads.any fun
  | .sweeping .. => true
  | _ => false

/-- Note a use of a plan. -/
def use (e : TransferEntry π) (nowMs : Nat) : State π :=
  { s with uses := Function.update s.uses e.cell (nowMs :: s.uses e.cell) }

/-- A step that needs the lock. -/
def underLock (next : Pc π × State π) : Option (Pc π × State π) :=
  if s.locked then none else some next

/-- A sweep looks at one plan. -/
def visit (limits : Limits) (nowMs : Nat) (isLive : Liveness) (id : Nat) : State π :=
  match s.registry.entries.lookup id with
  | none => s
  | some e =>
      if s.registry.isExpired limits e nowMs then
        { s with
          registry := { s.registry with entries := s.registry.entries.erase id }
          expired := e :: s.expired }
      else if isLive.ofPlan id then s
      else { s with registry := { s.registry with entries := s.registry.entries.erase id } }

/-- What a sweep does once every plan has been looked at. -/
def prune (isLive : Liveness) : State π :=
  { s with registry := { s.registry with
      bySession := Table.retain (fun session ids =>
        let ids := ids.filter fun id => (s.registry.entries.lookup id).isSome
        if !ids.isEmpty && isLive.ofSession session then some ids else none) s.registry.bySession } }

/-- The next step of a call, and what it leaves of the rest. -/
def advance (limits : Limits) (pick : Nat) : Pc π → Option (Pc π × State π)
  | .called (.insert session random plan) => some (.minting s.clockMs session random plan, s)
  | .called (.fetch requestId ticket session) =>
      some (.looking s.clockMs requestId ticket session, s)
  | .called (.touch entry) => some (.touching s.clockMs entry .touched, s.use entry s.clockMs)
  | .called (.removeSession session) =>
      let (count, registry) := s.registry.removeSession session
      s.underLock (.ended (.ok (.dropped count)), { s with registry })
  | .called (.sweep isLive) => some (.locking s.clockMs isLive, s)
  | .minting nowMs session random plan =>
      let id := s.registry.nextId
      let s := { s with registry := { s.registry with nextId := Word.wrappingAdd 32 id 1 } }
      if id = 0 then some (.minting nowMs session random plan, s)
      else match random with
        | none => some (.ended (.error (.random "the entropy source failed")), s)
        | some ticket => some (.filing nowMs session ticket plan id, s)
  | .filing nowMs session ticket plan requestId =>
      let (entry, registry) := s.registry.file limits session ticket plan requestId nowMs
      s.underLock (.ended (.ok (.plan entry)),
        { s with
          registry
          issued := s.issued ++ [entry]
          uses := Function.update s.uses entry.cell [nowMs] })
  | .looking nowMs requestId ticket session =>
      s.underLock (match s.registry.entries.lookup requestId with
        | none => (.ended (.error (.noSuchPlan s!"transfer {requestId} does not exist, or expired after {limits.transferTtlSec} seconds of inactivity")), s)
        | some entry => (.checking nowMs entry ticket session, s))
  | .checking nowMs entry ticket session =>
      if s.registry.isExpired limits entry nowMs then some (.removing nowMs entry, s)
      else if !constantTimeEq entry.ticket ticket || entry.session != session then
        some (.ended (.error (.auth s!"the ticket presented for transfer {entry.requestId} is not the one it was issued")), s)
      else some (.touching nowMs entry (.plan entry), s.use entry nowMs)
  | .touching nowMs entry outcome =>
      some (.ended (.ok outcome), { s with registry := s.registry.touch entry nowMs })
  | .removing _ entry =>
      s.underLock (.ended (.error (.noSuchPlan s!"transfer {entry.requestId} expired after {limits.transferTtlSec} seconds of inactivity")),
        { s with
          registry := s.registry.remove entry.requestId
          expired := (s.registry.entries.lookup entry.requestId).toList ++ s.expired })
  | .locking nowMs isLive =>
      s.underLock (.sweeping nowMs isLive s.registry.entries.keys s.registry.entries.keys.length, s)
  | .sweeping nowMs isLive ids before =>
      match ids[pick]? with
      | some id => some (.sweeping nowMs isLive (ids.eraseIdx pick) before,
          s.visit limits nowMs isLive id)
      | none =>
          if ids = [] then
            some (.ended (.ok (.dropped (before - s.registry.entries.keys.length))), s.prune isLive)
          else none
  | .ended _ => none

/-- Only an entry that was handed out can be touched. -/
def callable : TransferCall π → Prop
  | .touch entry => s.issued[entry.cell]? = some entry
  | _ => True

instance [DecidableEq π] : (call : TransferCall π) → Decidable (s.callable call)
  | .touch entry => inferInstanceAs (Decidable (s.issued[entry.cell]? = some entry))
  | .insert .. | .fetch .. | .removeSession _ | .sweep _ => .isTrue trivial

end State

variable {π : Type}

/-- The steps: the clock moves on, a call is made, or one takes its next step. -/
inductive Step (limits : Limits) (s : State π) : Label π → State π → Prop
  | tick (ms : Nat) : Step limits s (.tick ms) { s with clockMs := s.clockMs + ms }
  | call (call : TransferCall π) (h : s.callable call) :
      Step limits s (.call call) { s with threads := s.threads ++ [.called call] }
  | act {i pick : Nat} {pc pc' : Pc π} {t : State π} (hpc : s.threads[i]? = some pc)
      (h : s.advance limits pick pc = some (pc', t)) :
      Step limits s (.act i pick) { t with threads := t.threads.set i pc' }

def State.new : State π := ⟨0, .new, [], [], fun _ => [], []⟩

/-- A call taking up to `fuel` steps with no other call in between. -/
def State.alone (limits : Limits) : Nat → Pc π × State π → Pc π × State π
  | 0, x => x
  | fuel + 1, (pc, s) =>
      match s.advance limits 0 pc with
      | none => (pc, s)
      | some x => State.alone limits fuel x

/-- A fetch that no other call interrupts does all of its work at the time it reads. -/
theorem fetch_alone {limits : Limits} {s : State π} {requestId : Nat} {ticket : Ticket}
    {session : SessionId} (hfree : s.locked = false)
    (hid : ∀ e, s.registry.entries.lookup requestId = some e → e.requestId = requestId) :
    ((State.alone limits 4 (.called (.fetch requestId ticket session), s)).1,
        (State.alone limits 4 (.called (.fetch requestId ticket session), s)).2.registry) =
      (.ended ((s.registry.fetch limits s.clockMs requestId ticket session).1.map Outcome.plan),
        (s.registry.fetch limits s.clockMs requestId ticket session).2) := by
  have hlock : ∀ next, s.underLock next = some next := fun next => by
    rw [State.underLock, hfree]
    rfl
  rw [State.alone, State.advance]
  dsimp only
  rw [State.alone, State.advance, hlock, TransferRegistry.fetch]
  cases hlookup : s.registry.entries.lookup requestId with
  | none => rfl
  | some e =>
      dsimp only
      rw [State.alone, State.advance, hid e hlookup]
      by_cases hexpired : s.registry.isExpired limits e s.clockMs = true
      · rw [if_pos hexpired, if_pos hexpired]
        dsimp only
        rw [State.alone, State.advance, hlock, hid e hlookup]
        rfl
      · rw [if_neg hexpired, if_neg hexpired]
        by_cases hrefused : (!constantTimeEq e.ticket ticket || e.session != session) = true
        · rw [if_pos hrefused, if_pos hrefused]
          rfl
        · rw [if_neg hrefused, if_neg hrefused]
          rfl

/-- The steps as a function. -/
def next [DecidableEq π] (limits : Limits) (s : State π) : Label π → Option (State π)
  | .tick ms => some { s with clockMs := s.clockMs + ms }
  | .call call =>
      if s.callable call then some { s with threads := s.threads ++ [.called call] } else none
  | .act i pick => do
      let pc ← s.threads[i]?
      let (pc', t) ← s.advance limits pick pc
      some { t with threads := t.threads.set i pc' }

theorem step_of_next [DecidableEq π] {limits : Limits} {s t : State π} {a : Label π}
    (h : next limits s a = some t) : Step limits s a t := by
  cases a with
  | tick ms =>
      cases h
      exact .tick ms
  | call call =>
      by_cases hcall : s.callable call
      · rw [next, if_pos hcall] at h
        cases h
        exact .call call hcall
      · rw [next, if_neg hcall] at h
        cases h
  | act i pick =>
      rw [next, Option.bind_eq_bind, Option.bind_eq_some_iff] at h
      obtain ⟨pc, hpc, h⟩ := h
      rw [Option.bind_eq_bind, Option.bind_eq_some_iff] at h
      obtain ⟨⟨pc', t'⟩, hadv, h⟩ := h
      cases h
      exact .act hpc hadv

def system (π : Type) (limits : Limits) : System (State π) (Label π) where
  init s := s = .new
  step := Step limits

/-! ## What the registry promises a plan -/

section Promise

/-- Every use, and the time `nowMs`, comes at most the TTL after a use before it. -/
def Steady (ttlMs : Nat) (uses : List Nat) (nowMs : Nat) : Prop :=
  ∀ u ∈ nowMs :: uses, (∀ v ∈ uses, u ≤ v) ∨ ∃ v ∈ uses, v < u ∧ u ≤ v + ttlMs

instance (ttlMs : Nat) (uses : List Nat) (nowMs : Nat) : Decidable (Steady ttlMs uses nowMs) :=
  inferInstanceAs (Decidable (∀ u ∈ nowMs :: uses, _))

/-- The time a fetch or a sweep read, when its next step drops a plan. -/
def Pc.dropsAt : Pc π → Option Nat
  | .removing nowMs _ | .sweeping nowMs _ _ _ => some nowMs
  | _ => none

/-- A sweep is told that the session of a plan is live. -/
def Pc.FindsLive (id : Nat) : Pc π → Prop
  | .sweeping _ isLive _ _ => isLive.ofPlan id = true
  | _ => True

/-- No step takes a last use back, and none drops or refuses as expired a plan in
steady use at the time its call read. -/
structure Timely (limits : Limits) (s : State π) (a : Label π) (t : State π) : Prop where
  monotone : ∀ cell < s.registry.cells, s.registry.lastUsedMs cell ≤ t.registry.lastUsedMs cell
  kept : ∀ i pick pc nowMs id e, a = .act i pick → s.threads[i]? = some pc →
    pc.dropsAt = some nowMs → pc.FindsLive id → s.registry.entries.lookup id = some e →
    t.registry.entries.lookup id ≠ some e →
      ¬ Steady (TransferRegistry.ttlMs limits) (s.uses e.cell) nowMs
  served : ∀ i pick nowMs e ticket session, a = .act i pick →
    s.threads[i]? = some (.checking nowMs e ticket session) →
    t.threads[i]? = some (.removing nowMs e) →
      ¬ Steady (TransferRegistry.ttlMs limits) (s.uses e.cell) nowMs
  found : ∀ i pick nowMs id ticket session message, a = .act i pick →
    s.threads[i]? = some (.looking nowMs id ticket session) →
    t.threads[i]? = some (.ended (.error (.noSuchPlan message))) →
      ∀ e ∈ s.expired, e.requestId = id →
        ¬ Steady (TransferRegistry.ttlMs limits) (s.uses e.cell) nowMs

/-- The time a call read that is on its way to use a plan. -/
def Pc.comesFor (e : TransferEntry π) : Pc π → Option Nat
  | .looking nowMs requestId _ _ => if requestId = e.requestId then some nowMs else none
  | .checking nowMs entry _ _ | .touching nowMs entry _ =>
      if entry.cell = e.cell then some nowMs else none
  | _ => none

/-- The plan a fetch found and has not used yet. -/
def Pc.holds : Pc π → Option (TransferEntry π)
  | .checking _ entry _ _ | .removing _ entry => some entry
  | _ => none

/-- The plan whose age a step looks at, and the time that was read for it. -/
def State.judges (s : State π) (pick : Nat) : Pc π → Option (TransferEntry π × Nat)
  | .checking nowMs entry _ _ => some (entry, nowMs)
  | .sweeping nowMs _ ids _ =>
      (ids[pick]?.bind fun id => s.registry.entries.lookup id).map fun e => (e, nowMs)
  | _ => none

/-- The plan a call stores the time it read for. -/
def Pc.stores : Pc π → Option (TransferEntry π × Nat)
  | .touching nowMs entry _ => some (entry, nowMs)
  | _ => none

/-- The id an insert is about to file a plan under. -/
def Pc.files : Pc π → Option Nat
  | .filing _ _ _ _ requestId => some requestId
  | _ => none

/-- The next step of a call overtakes no other call: it stores no time over a later
one, finds no plan expired that a call which came in time is on its way to use, and
takes no id of a plan that a fetch has found and not used yet. -/
structure Waits (limits : Limits) (s : State π) (pick : Nat) (pc : Pc π) : Prop where
  store : ∀ x ∈ pc.stores, s.registry.lastUsedMs x.1.cell ≤ x.2
  expiry : ∀ x ∈ s.judges pick pc, s.registry.isExpired limits x.1 x.2 = true →
    ∀ other ∈ s.threads, ∀ u ∈ other.comesFor x.1,
      s.registry.lastUsedMs x.1.cell + TransferRegistry.ttlMs limits < u
  mint : ∀ id ∈ pc.files, ∀ other ∈ s.threads, ∀ e ∈ other.holds, e.requestId ≠ id

instance (limits : Limits) (s : State π) (pick : Nat) (pc : Pc π) :
    Decidable (Waits limits s pick pc) :=
  decidable_of_iff
    ((∀ x ∈ pc.stores, s.registry.lastUsedMs x.1.cell ≤ x.2) ∧
      (∀ x ∈ s.judges pick pc, s.registry.isExpired limits x.1 x.2 = true →
        ∀ other ∈ s.threads, ∀ u ∈ other.comesFor x.1,
          s.registry.lastUsedMs x.1.cell + TransferRegistry.ttlMs limits < u) ∧
      ∀ id ∈ pc.files, ∀ other ∈ s.threads, ∀ e ∈ other.holds, e.requestId ≠ id)
    ⟨fun h => ⟨h.1, h.2.1, h.2.2⟩, fun h => ⟨h.store, h.expiry, h.mint⟩⟩

/-- No call overtakes another. -/
def InOrder (limits : Limits) (s : State π) : Label π → Prop
  | .act i pick => ∀ pc ∈ s.threads[i]?, Waits limits s pick pc
  | _ => True

instance (limits : Limits) (s : State π) : (a : Label π) → Decidable (InOrder limits s a)
  | .act i pick => inferInstanceAs (Decidable (∀ pc ∈ s.threads[i]?, Waits limits s pick pc))
  | .tick _ | .call _ => .isTrue trivial

/-- A stretch longer than the TTL, up to `gap`, without a use. -/
def Lapses (ttlMs : Nat) (uses : List Nat) (gap : Nat) : Prop :=
  (∃ u ∈ uses, u + ttlMs < gap) ∧ ∀ u ∈ uses, u + ttlMs < gap ∨ gap ≤ u

/-- A plan that has lapsed is not in steady use from then on. -/
theorem Lapses.not_steady {ttlMs gap nowMs : Nat} {uses : List Nat} (h : Lapses ttlMs uses gap)
    (hgap : gap ≤ nowMs) : ¬ Steady ttlMs uses nowMs := by
  intro hsteady
  obtain ⟨⟨first, hfirst, hbefore⟩, hall⟩ := h
  -- By induction on the time: the earliest use after the gap would follow one before it.
  have hnone : ∀ u ∈ nowMs :: uses, gap ≤ u → False := by
    intro u
    induction u using Nat.strongRecOn with
    | ind u ih =>
        intro hmem hu
        rcases hsteady u hmem with hleast | ⟨v, hv, hlt, hwithin⟩
        · have := hleast first hfirst
          omega
        · rcases hall v hv with hv' | hv'
          · omega
          · exact ih v hlt (List.mem_cons_of_mem _ hv) hv'
  exact hnone nowMs List.mem_cons_self hgap

end Promise

end PlanClock

end Aex
