import Aex.Client.PoolConservation

/-!
# What a transfer retries

A ledger beside a transfer, that no thread reads.  It is kept from what a step does to
the queue, and from what a thread has in flight when its connection breaks or a fetch
of its is refused.
-/

namespace Aex

open Lts

variable {n : Nat}

/-- A connection that broke, or a fetch that was refused and may be made again. -/
structure Incident (n : Nat) where
  /-- What was in flight on the connection, the oldest first. -/
  flight : List (Chunk n)
  broke : Bool
  /-- Counted against their retries for it. -/
  charged : List (Chunk n)
  /-- Put back on the queue for it, the front first. -/
  back : List (Chunk n)
  deriving Repr, DecidableEq

/-- Chunks put back after some of them could not be asked for. -/
structure Return (n : Nat) where
  taken : List (Chunk n)
  asked : List (Chunk n)
  back : List (Chunk n)
  deriving Repr, DecidableEq

/-- The ledger of one thread. -/
structure Account (n : Nat) where
  /-- Taken off the queue last. -/
  taken : List (Chunk n)
  /-- Of these, what the thread has got to since, whether or not asking for it worked. -/
  asked : List (Chunk n)
  returns : List (Return n)
  /-- The newest first. -/
  incidents : List (Incident n)
  deriving Repr, DecidableEq

/-- What stands on a queue for a chunk that is charged. -/
def Chunk.again (spec : FetchSpec) (c : Chunk n) : List (Chunk n) :=
  if c.attempts < spec.maxRetries then [{ c with attempts := c.attempts + 1 }] else []

/-- Whether an error frame is about a fetch, and one worth making again. -/
def FrameHeader.retries (header : FrameHeader) (payload : List UInt8) (requestId offset : Nat) :
    Bool :=
  header.frameType = .error && !Worker.oversized header && header.requestId ≠ 0 &&
    header.requestId = requestId && header.offset = offset &&
    (match DataConn.receiveError payload with
      | .ok error => error.isRetryable
      | .error _ => false)

namespace Worker

variable (sh : Shared n) (w : Worker n)

/-- The chunk of the oldest fetch, when an event refuses that and it may be made again. -/
def refusal : Event → List (Chunk n)
  | .received (.frame header payload) =>
      match w.pc, w.flight with
      | .reading, front :: _ =>
          if header.retries payload (sh.parts.get front.chunk.part).requestId front.chunk.offset
          then [front.chunk] else []
      | _, _ => []
  | _ => []

/-- Whether a thread is putting back what was in flight on a broken connection. -/
def recovers : Bool :=
  match w.pc with
  | .draining .. | .requeuing _ (some _) => true
  | _ => false

/-- What a step counts against its retries. -/
def charged (event : Event) : List (Chunk n) :=
  match w.pc, w.flight with
  | .draining .., [oldest] => [oldest.chunk]
  | _, _ => w.refusal sh event

end Worker

namespace Account

/-- Note what is charged and put back for the newest incident. -/
def settle (a : Account n) (charged back : List (Chunk n)) : Account n :=
  { a with incidents := a.incidents.modifyHead fun incident => { incident with
    charged := incident.charged ++ charged
    back := back ++ incident.back } }

def happened (a : Account n) (incident : Incident n) : Account n :=
  { a with incidents := incident :: a.incidents }

/-- What a step takes off the queue, asks for and puts back. -/
def note (a : Account n) (sh sh' : Shared n) (w : Worker n) (event : Event) : Account n :=
  let took := sh.state.queue.take (sh.state.queue.length - sh'.state.queue.length)
  let put := sh'.state.queue.take (sh'.state.queue.length - sh.state.queue.length)
  match w.pc with
  | .head => { a with taken := took, asked := [] }
  | .asking (chunk :: _) => { a with asked := a.asked ++ [chunk] }
  | .givingBack .. => { a with returns := ⟨a.taken, a.asked, put⟩ :: a.returns }
  | .draining .. => a.settle (w.charged sh event) []
  | .requeuing .. => a.settle [] put
  | _ => a

/-- Keep the ledger of a thread over one of its steps. -/
def record (a : Account n) (sh sh' : Shared n) (w w' : Worker n) (event : Event) : Account n :=
  let a := a.note sh sh' w event
  if w.refusal sh event ≠ [] then
    a.happened ⟨w.flight.map InFlight.chunk, false, w.refusal sh event, []⟩
  else if !w.recovers && w'.recovers then a.happened ⟨w.flight.map InFlight.chunk, true, [], []⟩
  else a

/-- Everything charged so far. -/
def charged (a : Account n) : List (Chunk n) := a.incidents.flatMap Incident.charged

end Account

/-- A transfer with its ledger, one account for each thread. -/
structure Watched (n : Nat) where
  transfer : Transfer n
  accounts : List (Account n)
  deriving Repr, DecidableEq

namespace Watched

def start (pool : DataPool) (parts : Vector FetchPart n) : Watched n :=
  let transfer := Transfer.start pool parts
  ⟨transfer, transfer.workers.map fun _ => ⟨[], [], [], []⟩⟩

/-- A thread that makes a notification it owes does nothing else. -/
def step (settings : Settings) (s : Watched n) (label : Nat × Event) : Option (Watched n) := do
  let t ← s.transfer.step settings label
  let w ← s.transfer.workers[label.1]?
  let w' ← t.workers[label.1]?
  some ⟨t, if w.owes then s.accounts else s.accounts.modify label.1 fun a =>
    a.record s.transfer.shared t.shared w w' label.2⟩

def system (settings : Settings) (pool : DataPool) (parts : Vector FetchPart n) :
    System (Watched n) (Nat × Event) :=
  .ofFn (start pool parts) (step settings)

variable {settings : Settings} {pool : DataPool} {parts : Vector FetchPart n} {s s' : Watched n}
  {label : Nat × Event}

/-- A step is one of the transfer, of which the ledger is kept. -/
theorem step_cases (h : s.step settings label = some s') :
    s.transfer.step settings label = some s'.transfer ∧
      ∃ w, s.transfer.workers[label.1]? = some w ∧
        ((w.owes = true ∧ s'.accounts = s.accounts) ∨
          ∃ sh' w', w.owes = false ∧
            w.act settings s.transfer.shared label.2 = some (sh', w') ∧
            s'.transfer = ⟨sh', s.transfer.workers.set label.1 w'⟩ ∧
            s'.accounts = s.accounts.modify label.1 fun a =>
              a.record s.transfer.shared sh' w w' label.2) := by
  simp only [step, Option.bind_eq_bind, Option.bind_eq_some_iff] at h
  obtain ⟨t, ht, w, hw, w', hw', h⟩ := h
  cases h
  refine ⟨ht, w, hw, ?_⟩
  cases howes : w.owes with
  | true => exact Or.inl ⟨rfl, rfl⟩
  | false =>
      simp only [Transfer.step, hw, howes, Bool.false_eq_true, if_false, Option.map_eq_some_iff,
        Prod.exists] at ht
      obtain ⟨sh', x, hact, rfl⟩ := ht
      have hx : x = w' := by
        have hlt := (List.getElem?_eq_some_iff.mp hw).1
        rw [List.getElem?_set_self hlt] at hw'
        exact Option.some.inj hw'
      subst hx
      exact Or.inr ⟨sh', x, rfl, hact, rfl, rfl⟩

theorem reachable_transfer (h : (system settings pool parts).Reachable s) :
    (Transfer.system settings pool parts).Reachable s.transfer := by
  induction h with
  | init hs =>
      rw [system, System.ofFn_init] at hs
      subst hs
      exact .init rfl
  | step _ _ hs ih => exact ih.step (step_cases hs).1

/-- A ledger can be kept of every transfer. -/
theorem exists_reachable {t : Transfer n} (h : (Transfer.system settings pool parts).Reachable t) :
    ∃ accounts, (system settings pool parts).Reachable ⟨t, accounts⟩ := by
  induction h with
  | init ht =>
      rw [Transfer.system, System.ofFn_init] at ht
      subst ht
      exact ⟨_, .init rfl⟩
  | @step t t' label _ _ ht ih =>
      obtain ⟨accounts, hreached⟩ := ih
      rw [Transfer.system, System.ofFn_step] at ht
      obtain ⟨w, hw, -⟩ := Transfer.step_cases ht
      have hlt := (List.getElem?_eq_some_iff.mp hw).1
      have hlength : t'.workers.length = t.workers.length := by
        obtain ⟨w, -, ⟨-, -, rfl⟩ | ⟨sh', w', -, -, rfl⟩⟩ := Transfer.step_cases ht
        · simp
        · simp
      have hw' := List.getElem?_eq_getElem (hlength.symm ▸ hlt)
      obtain ⟨s, hs, hst⟩ : ∃ s, step settings ⟨t, accounts⟩ label = some s ∧ s.transfer = t' := by
        simp only [step, Option.bind_eq_bind, ht, hw, hw', Option.bind_some]
        exact ⟨_, rfl, rfl⟩
      subst hst
      exact ⟨s.accounts, hreached.step hs⟩

end Watched

end Aex
