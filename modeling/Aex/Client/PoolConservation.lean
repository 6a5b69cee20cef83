import Aex.Client.PoolSteps
import Aex.Lib.Threads

/-!
# Conservation of chunks

Every chunk of a transfer is on the queue, with one thread, completed, or given up
by a thread that records an error for it.  From the count of each chunk over these
places follow what the threads rely on: that a thread alone with nothing to do has
nothing left to wait for, and that no wake-up is lost.
-/

namespace Aex

open Lts

variable {n : Nat}

/-! ## Where chunks are -/

namespace Pc

/-- What a thread has taken off the queue and not yet asked for. -/
def fresh : Pc n → List (Chunk n)
  | .asking fresh | .givingBack fresh _ => fresh
  | _ => []

/-- A chunk on its way from a flight to the queue or to the completed ones. -/
def inHand : Pc n → List (Chunk n)
  | .completing done => [done.chunk]
  | .requeuing chunk _ => [chunk]
  | _ => []

end Pc

namespace Worker

def inFlight (w : Worker n) : List (Chunk n) := w.pc.inHand ++ w.flight.map InFlight.chunk

def chunks (w : Worker n) : List (Chunk n) := w.pc.fresh ++ w.inFlight

/-- How many of a thread's chunks are of a kind, the dropped ones included. -/
def tally (p : Fin n × Nat × Nat → Bool) (w : Worker n) : Nat :=
  (w.chunks ++ w.lost).countP fun c => p c.key

/-- What holds of a thread wherever it is: chunks it has dropped lead to an error,
and it neither waits nor leaves with chunks of its own. -/
def Ok (w : Worker n) : Prop :=
  match w.pc with
  | .start | .leaving _ | .gone => w.flight = [] ∧ w.lost = []
  | .waiting => w.flight = [] ∧ w.lost = [] ∧ w.held ≠ none ∧ w.owes = false
  | .reconnecting => w.flight = [] ∧ w.lost = [] ∧ w.held = none
  | .head => w.lost = [] ∧ (w.held = none → w.flight = [])
  | .asking fresh => w.lost = [] ∧ w.held ≠ none ∧ (w.flight ≠ [] ∨ fresh ≠ [])
  | .givingBack _ e => e.isIo = true → w.lost = []
  | .reading => w.lost = [] ∧ w.held ≠ none ∧ w.flight ≠ []
  | .completing _ | .requeuing _ none => w.lost = [] ∧ w.held ≠ none
  | .requeuing _ (some (_, exhausted)) | .draining _ exhausted =>
      w.held = none ∧ (exhausted = false → w.lost = [])
  | .clearing _ panicked => panicked = false → w.held = none
  | .failing _ panicked => (panicked = true → w.flight = []) ∧ (w.held = none → w.flight = [])

/-- Whether a panic has yet to be recorded. -/
def unwinds (w : Worker n) : Prop :=
  (∃ e, w.pc = .clearing e true) ∨ ∃ e, w.pc = .failing e true

end Worker

namespace Shared

def tally (p : Fin n × Nat × Nat → Bool) (sh : Shared n) : Nat :=
  (sh.state.queue ++ sh.completed.map InFlight.chunk ++ sh.failed).countP fun c => p c.key

@[simp] theorem modifyPart_state (sh : Shared n) (k : Fin n) (f : Part → Part) :
    (sh.modifyPart k f).state = sh.state := rfl

@[simp] theorem modifyPart_completed (sh : Shared n) (k : Fin n) (f : Part → Part) :
    (sh.modifyPart k f).completed = sh.completed := rfl

@[simp] theorem modifyPart_failed (sh : Shared n) (k : Fin n) (f : Part → Part) :
    (sh.modifyPart k f).failed = sh.failed := rfl

@[simp] theorem modifyPart_panicked (sh : Shared n) (k : Fin n) (f : Part → Part) :
    (sh.modifyPart k f).panicked = sh.panicked := rfl

@[simp] theorem release_state (sh : Shared n) (x : InFlight n) : (sh.release x).state = sh.state := rfl

@[simp] theorem release_completed (sh : Shared n) (x : InFlight n) :
    (sh.release x).completed = sh.completed := rfl

@[simp] theorem release_failed (sh : Shared n) (x : InFlight n) :
    (sh.release x).failed = sh.failed := rfl

@[simp] theorem release_panicked (sh : Shared n) (x : InFlight n) :
    (sh.release x).panicked = sh.panicked := rfl

@[simp] theorem write_state (sh : Shared n) (x : InFlight n) (bytes : List UInt8) :
    (sh.write x bytes).state = sh.state := rfl

@[simp] theorem write_completed (sh : Shared n) (x : InFlight n) (bytes : List UInt8) :
    (sh.write x bytes).completed = sh.completed := rfl

@[simp] theorem write_failed (sh : Shared n) (x : InFlight n) (bytes : List UInt8) :
    (sh.write x bytes).failed = sh.failed := rfl

end Shared

/-! ## One step of a thread -/

theorem State.fresh_append_rest (state : State n) (spec : FetchSpec) (flight : List (InFlight n)) :
    state.fresh spec flight ++ state.rest spec flight = state.queue := by
  unfold State.fresh State.rest
  split <;> simp

/-- A thread with nothing in flight leaves the queue alone only when it is empty. -/
theorem State.queue_eq_nil {state : State n} {spec : FetchSpec} (herror : state.error = none)
    (hfresh : state.fresh spec [] = []) : state.queue = [] := by
  simp only [fresh, herror, Option.isNone_none, if_true, List.length_nil, Nat.sub_zero,
    List.take_eq_nil_iff] at hfresh
  exact hfresh.resolve_left (by omega)

theorem Chunk.key_of_retried {spec : FetchSpec} {c c' : Chunk n} {charge : Bool}
    (h : c.retried spec charge = some c') : c'.key = c.key := by
  unfold Chunk.retried at h
  dsimp only at h
  split at h
  · cases h
  · cases h
    rfl

@[simp] theorem Worker.broke_flight (w : Worker n) (e : ClientError) :
    (w.broke e).flight = w.flight := rfl

@[simp] theorem Worker.broke_lost (w : Worker n) (e : ClientError) : (w.broke e).lost = w.lost := rfl

@[simp] theorem Worker.broke_isLive (w : Worker n) (e : ClientError) : (w.broke e).isLive = true := by
  unfold Worker.broke Worker.isLive
  dsimp only
  split <;> rfl

/-- A claim is refused for its range, never by the connection. -/
theorem ScatterBuffer.not_io_of_claim {b : ScatterBuffer} {offset len : Nat} {e : WireError}
    (h : b.claim offset len = .error e) : (ClientError.ofWire e).isIo = false := by
  unfold claim at h
  split at h
  · cases h
    rfl
  · split at h <;> cases h
    rfl

/-! Counts as sums over the places. -/

section Tally

variable (p : Fin n × Nat × Nat → Bool)

def Chunk.count (chunks : List (Chunk n)) : Nat := chunks.countP fun c => p c.key

theorem Shared.tally_eq (sh : Shared n) : sh.tally p = Chunk.count p sh.state.queue +
    Chunk.count p (sh.completed.map InFlight.chunk) + Chunk.count p sh.failed := by
  simp only [tally, Chunk.count, List.countP_append]

theorem Worker.tally_eq (w : Worker n) : w.tally p = Chunk.count p w.pc.fresh +
    Chunk.count p w.pc.inHand + Chunk.count p (w.flight.map InFlight.chunk) +
    Chunk.count p w.lost := by
  simp only [tally, chunks, inFlight, Chunk.count, List.countP_append]
  omega

@[simp] theorem Chunk.count_nil : count p ([] : List (Chunk n)) = 0 := rfl

@[simp] theorem Chunk.count_cons (c : Chunk n) (chunks : List (Chunk n)) :
    count p (c :: chunks) = count p chunks + (p c.key).toNat := by
  cases h : p c.key <;> simp [count, h]

@[simp] theorem Chunk.count_append (chunks more : List (Chunk n)) :
    count p (chunks ++ more) = count p chunks + count p more := List.countP_append

@[simp] theorem Worker.broke_tally (w : Worker n) (e : ClientError) : (w.broke e).tally p =
    Chunk.count p (w.flight.map InFlight.chunk) + Chunk.count p w.lost := by
  rw [tally_eq]
  unfold broke
  split <;> simp [Pc.fresh, Pc.inHand]

end Tally

namespace Acts

variable {settings : Settings} {sh sh' : Shared n} {w w' : Worker n} {event : Event}

/-- No step makes or loses a chunk. -/
theorem tally_eq (h : Acts settings sh w event sh' w') (p : Fin n × Nat × Nat → Bool) :
    sh'.tally p + w'.tally p = sh.tally p + w.tally p := by
  have htaken : (sh.taken settings.spec w.flight).tally p +
      Chunk.count p (sh.state.fresh settings.spec w.flight) = sh.tally p := by
    have := congrArg (Chunk.count p) (sh.state.fresh_append_rest settings.spec w.flight)
    rw [Chunk.count_append] at this
    rw [Shared.tally_eq, Shared.tally_eq, Shared.taken]
    dsimp only
    omega
  cases h with
  | toppedUp hpc | finished hpc | waits hpc =>
      simp_all [Worker.tally_eq, Pc.fresh, Pc.inHand]
      try omega
  | unaccounted hpc _ _ hfresh =>
      rw [hfresh, Chunk.count_nil, Nat.add_zero] at htaken
      rw [Worker.broke_tally, htaken]
      simp [Worker.tally_eq, Pc.fresh, Pc.inHand, hpc]
  | gaveNothing hpc | broken hpc | dataBroken hpc =>
      rw [Worker.broke_tally]
      simp [Shared.tally_eq, Worker.tally_eq, Pc.fresh, Pc.inHand, hpc]
  | @gaveBack fresh e hpc =>
      rw [show Worker.tally p { w.broke e with owes := true } = (w.broke e).tally p from rfl,
        Worker.broke_tally]
      simp [Shared.tally_eq, Worker.tally_eq, Pc.fresh, Pc.inHand, hpc]
      omega
  | refused hpc hheld hflight header payload htype hid hnext =>
      rcases hnext with ⟨message, rfl⟩ | ⟨chunk, hretried, rfl⟩ | ⟨error, rfl⟩
      · simp [Shared.tally_eq, Worker.tally_eq, Pc.fresh, Pc.inHand, hpc, hflight]
        omega
      · simp [Shared.tally_eq, Worker.tally_eq, Pc.fresh, Pc.inHand, hpc, hflight,
          Chunk.key_of_retried hretried]
        omega
      · simp [Shared.tally_eq, Worker.tally_eq, Pc.fresh, Pc.inHand, hpc, hflight]
        omega
  | drains hpc hflight hnext =>
      rcases hnext with ⟨chunk, hretried, rfl⟩ | ⟨-, rfl⟩
      · simp [Shared.tally_eq, Worker.tally_eq, Pc.fresh, Pc.inHand, hpc, hflight,
          Chunk.key_of_retried hretried]
        omega
      · simp [Shared.tally_eq, Worker.tally_eq, Pc.fresh, Pc.inHand, hpc, hflight]
        omega
  | accepted hpc hheld hflight htype hformed hdata hfront hnext =>
      rcases hnext with ⟨-, rfl, rfl⟩ | ⟨-, rfl, rfl⟩
      · simp [Shared.tally_eq, Worker.tally_eq, Pc.fresh, Pc.inHand, hpc, hflight, hfront]
        omega
      · simp [Shared.tally_eq, Worker.tally_eq, Pc.fresh, Pc.inHand, hpc, hflight, hfront]
  | @requeues chunk after hpc =>
      rcases after with _ | ⟨e, exhausted⟩ <;>
        simp [Shared.tally_eq, Worker.tally_eq, Worker.resumed, Pc.fresh, Pc.inHand, hpc] <;> omega
  | @drained e exhausted hpc hflight =>
      cases exhausted <;> simp [Shared.tally_eq, Worker.tally_eq, Pc.fresh, Pc.inHand, hpc]
  | @fails e panicked hpc =>
      cases panicked <;> simp [Shared.tally_eq, Worker.tally_eq, Pc.fresh, Pc.inHand, hpc] <;> omega
  | _ =>
      simp_all [Shared.tally_eq, Worker.tally_eq, Pc.fresh, Pc.inHand]
      try omega

/-- A thread keeps what holds of it wherever it is. -/
theorem ok (h : Acts settings sh w event sh' w') (howes : w.owes = false) (hok : w.Ok) : w'.Ok := by
  have hbroke : ∀ (w : Worker n) e, (e.isIo = true → w.lost = []) → (w.broke e).Ok := by
    intro w e hlost
    unfold Worker.broke Worker.Ok
    cases he : e.isIo <;> simp_all
  unfold Worker.Ok at hok
  cases h with
  | unaccounted hpc _ _ hfresh =>
      refine hbroke w _ fun _ => ?_
      rw [hpc] at hok
      exact hok.1
  | gaveNothing hpc =>
      refine hbroke w _ ?_
      rwa [hpc] at hok
  | gaveBack hpc =>
      rw [hpc] at hok
      exact hbroke { w with owes := true } _ hok
  | broken hpc | dataBroken hpc =>
      refine hbroke w _ fun _ => ?_
      rw [hpc] at hok
      exact hok.1
  | refused hpc hheld hflight header payload htype hid hnext =>
      rcases hnext with ⟨message, rfl⟩ | ⟨chunk, hretried, rfl⟩ | ⟨error, rfl⟩ <;>
        simp_all [Worker.Ok]
  | drains hpc hflight hnext =>
      rcases hnext with ⟨chunk, hretried, rfl⟩ | ⟨-, rfl⟩ <;> simp_all [Worker.Ok]
  | accepted hpc hheld hflight htype hformed hdata hfront hnext =>
      rcases hnext with ⟨-, rfl, rfl⟩ | ⟨-, rfl, rfl⟩ <;> simp_all [Worker.Ok]
  | @requeues chunk after hpc =>
      rcases after with _ | ⟨e, exhausted⟩ <;> simp_all [Worker.Ok, Worker.resumed]
  | @drained e exhausted hpc hflight => cases exhausted <;> simp_all [Worker.Ok]
  | @fails e panicked hpc => cases panicked <;> simp_all [Worker.Ok]
  | notClaimed hpc outcome hclaim => simp [Worker.Ok, ScatterBuffer.not_io_of_claim hclaim]
  | _ => simp_all [Worker.Ok]

/-- A thread that acts has not left, and leaves in a step of its own. -/
theorem live_cases (h : Acts settings sh w event sh' w') : w.isLive = true ∧
    (w'.isLive = true ∧ sh'.state.live = sh.state.live ∨
      w'.isLive = false ∧ sh'.state.live = sh.state.live - 1) := by
  have hlive : w.pc ≠ .gone := by
    cases h <;> simp_all
  refine ⟨by simpa [Worker.isLive] using hlive, ?_⟩
  cases h with
  | unaccounted | gaveNothing | broken | dataBroken => exact .inl ⟨Worker.broke_isLive _ _, rfl⟩
  | gaveBack => exact .inl ⟨Worker.broke_isLive w _, rfl⟩
  | refused hpc hheld hflight header payload htype hid hnext =>
      rcases hnext with ⟨message, rfl⟩ | ⟨chunk, hretried, rfl⟩ | ⟨error, rfl⟩ <;>
        simp [Worker.isLive]
  | drains hpc hflight hnext =>
      rcases hnext with ⟨chunk, hretried, rfl⟩ | ⟨-, rfl⟩ <;> simp [Worker.isLive]
  | accepted hpc hheld hflight htype hformed hdata hfront hnext =>
      rcases hnext with ⟨-, rfl, rfl⟩ | ⟨-, rfl, rfl⟩ <;> simp [Worker.isLive]
  | @requeues chunk after hpc =>
      rcases after with _ | ⟨e, exhausted⟩ <;> simp [Worker.isLive, Worker.resumed]
  | @drained e exhausted hpc hflight => cases exhausted <;> simp [Worker.isLive]
  | @fails e panicked hpc => cases panicked <;> simp [Worker.isLive]
  | _ => simp_all [Worker.isLive, Shared.taken]

/-- What is counted down is what is completed. -/
theorem remaining_cases (h : Acts settings sh w event sh' w') :
    sh'.state.remaining = sh.state.remaining ∧ sh'.completed = sh.completed ∨
      ∃ done, w.pc = .completing done ∧ sh'.state.remaining = sh.state.remaining - 1 ∧
        sh'.completed = done :: sh.completed := by
  cases h with
  | completes hpc => exact .inr ⟨_, hpc, rfl, rfl⟩
  | accepted hpc hheld hflight htype hformed hdata hfront hnext =>
      rcases hnext with ⟨-, rfl, rfl⟩ | ⟨-, rfl, rfl⟩ <;> exact .inl ⟨rfl, rfl⟩
  | _ => exact .inl ⟨rfl, rfl⟩

/-- Chunks are given up with an error recorded, and an error stays. -/
theorem failed_eq_nil (h : Acts settings sh w event sh' w') (herror : sh'.state.error = none) :
    sh.state.error = none ∧ sh'.failed = sh.failed := by
  cases h with
  | fails hpc => simp at herror
  | accepted hpc hheld hflight htype hformed hdata hfront hnext =>
      rcases hnext with ⟨-, rfl, rfl⟩ | ⟨-, rfl, rfl⟩ <;> exact ⟨herror, rfl⟩
  | _ => exact ⟨herror, rfl⟩

/-- A panic is recorded by the thread that unwinds. -/
theorem panicked_cases (h : Acts settings sh w event sh' w') (hpanicked : sh'.panicked = true) :
    (sh.panicked = true ∧ (sh.state.error ≠ none → sh'.state.error ≠ none) ∧
      (w.unwinds → w'.unwinds ∨ sh'.state.error ≠ none)) ∨ w'.unwinds := by
  cases h with
  | panicked => exact .inr (.inl ⟨_, rfl⟩)
  | @cleared e panicked hpc hflight =>
      refine .inl ⟨hpanicked, id, ?_⟩
      rintro (⟨e, he⟩ | ⟨e, he⟩) <;> simp_all [Worker.unwinds]
  | @clears e panicked hpc =>
      refine .inl ⟨hpanicked, id, ?_⟩
      rintro (⟨e, he⟩ | ⟨e, he⟩) <;> simp_all [Worker.unwinds]
  | fails hpc => exact .inl ⟨hpanicked, by simp, fun _ => .inr (by simp)⟩
  | accepted hpc hheld hflight htype hformed hdata hfront hnext =>
      rcases hnext with ⟨-, rfl, rfl⟩ | ⟨-, rfl, rfl⟩ <;> exact .inl ⟨hpanicked, id, by simp_all [Worker.unwinds]⟩
  | _ => exact .inl ⟨hpanicked, id, by simp_all [Worker.unwinds]⟩

/-- A thread that fills the queue or records an error owes a notification. -/
theorem owes_of_new (h : Acts settings sh w event sh' w')
    (hnew : sh'.state.queue ≠ [] ∨ sh'.state.error ≠ none) :
    (sh.state.queue ≠ [] ∨ sh.state.error ≠ none) ∨ w'.owes = true ∧ w'.isLive = true := by
  have htaken : (sh.taken settings.spec w.flight).state.queue ≠ [] → sh.state.queue ≠ [] := by
    intro hne hnil
    have := sh.state.fresh_append_rest settings.spec w.flight
    rw [hnil, List.append_eq_nil_iff] at this
    exact hne this.2
  cases h with
  | toppedUp | finished | unaccounted | waits =>
      exact .inl (hnew.imp_left htaken)
  | gaveBack => exact .inr ⟨rfl, Worker.broke_isLive w _⟩
  | @requeues chunk after hpc =>
      refine .inr ⟨rfl, ?_⟩
      rcases after with _ | ⟨e, exhausted⟩ <;> rfl
  | @fails e panicked hpc =>
      refine .inr ⟨rfl, ?_⟩
      cases panicked <;> rfl
  | accepted hpc hheld hflight htype hformed hdata hfront hnext =>
      rcases hnext with ⟨-, rfl, rfl⟩ | ⟨-, rfl, rfl⟩ <;> exact .inl hnew
  | _ => exact .inl hnew

/-- A thread goes to wait only while there is nothing to wake up for. -/
theorem idle_of_waiting (h : Acts settings sh w event sh' w') (hpc' : w'.pc = .waiting) :
    sh'.state.queue = [] ∧ sh'.state.error = none := by
  cases h with
  | waits hpc _ hflight hfresh herror =>
      have := sh.state.fresh_append_rest settings.spec w.flight
      rw [hflight] at hfresh
      refine ⟨?_, herror⟩
      rw [State.queue_eq_nil herror hfresh, List.append_eq_nil_iff] at this
      exact this.2
  | unaccounted | gaveNothing | broken | dataBroken | gaveBack =>
      exfalso
      revert hpc'
      unfold Worker.broke
      dsimp only
      split <;> simp
  | refused hpc hheld hflight header payload htype hid hnext =>
      rcases hnext with ⟨message, rfl⟩ | ⟨chunk, hretried, rfl⟩ | ⟨error, rfl⟩ <;> cases hpc'
  | drains hpc hflight hnext =>
      rcases hnext with ⟨chunk, hretried, rfl⟩ | ⟨-, rfl⟩ <;> cases hpc'
  | accepted hpc hheld hflight htype hformed hdata hfront hnext =>
      rcases hnext with ⟨-, rfl, rfl⟩ | ⟨-, rfl, rfl⟩ <;> cases hpc'
  | @requeues chunk after hpc => rcases after with _ | ⟨e, exhausted⟩ <;> cases hpc'
  | @drained e exhausted hpc hflight => cases exhausted <;> cases hpc'
  | @fails e panicked hpc => cases panicked <;> cases hpc'
  | _ => simp_all

end Acts

/-! ## Every interleaving -/

namespace Transfer

/-- What holds of every state of every transfer of these parts. -/
structure Conserved (parts : Vector FetchPart n) (t : Transfer n) : Prop where
  ok : ∀ w ∈ t.workers, w.Ok
  /-- Chunks of any kind are as many as there were, wherever they are. -/
  tally : ∀ p, t.shared.tally p + (t.workers.map (Worker.tally p)).sum =
    Chunk.count p (chunksOf parts)
  remaining : t.shared.state.remaining + t.shared.completed.length = (chunksOf parts).length
  live : t.shared.state.live = t.workers.countP Worker.isLive
  failed : t.shared.state.error = none → t.shared.failed = []
  panicked : t.shared.panicked = true →
    t.shared.state.error ≠ none ∨ ∃ w ∈ t.workers, w.unwinds
  /-- A thread that waits while there is work or an error is about to be notified. -/
  awake : ∀ w ∈ t.workers, w.pc = .waiting →
    t.shared.state.queue ≠ [] ∨ t.shared.state.error ≠ none →
    ∃ waker ∈ t.workers, waker.owes = true ∧ waker.isLive = true

section Notified

variable (w : Worker n)

theorem notified_cases : w.notified = w ∨ w.pc = .waiting ∧ w.notified = { w with pc := .head } := by
  unfold Worker.notified
  split
  · rename_i hpc
    exact .inr ⟨hpc, rfl⟩
  · exact .inl rfl

theorem notified_not_waiting : w.notified.pc ≠ .waiting := by
  rcases notified_cases w with h | ⟨hpc, h⟩
  · unfold Worker.notified at h ⊢
    split <;> simp_all
  · simp [h]

theorem notified_ok (hok : w.Ok) : w.notified.Ok := by
  rcases notified_cases w with h | ⟨hpc, h⟩
  · rwa [h]
  · rw [h]
    simp_all [Worker.Ok]

theorem notified_tally (p : Fin n × Nat × Nat → Bool) : w.notified.tally p = w.tally p := by
  rcases notified_cases w with h | ⟨hpc, h⟩
  · rw [h]
  · simp [h, Worker.tally_eq, hpc, Pc.fresh, Pc.inHand]

theorem notified_isLive : w.notified.isLive = w.isLive := by
  rcases notified_cases w with h | ⟨hpc, h⟩
  · rw [h]
  · rw [h, Worker.isLive, Worker.isLive, hpc]
    rfl

theorem notified_unwinds (h : w.unwinds) : w.notified = w := by
  rcases notified_cases w with h' | ⟨hpc, -⟩
  · exact h'
  · simp [Worker.unwinds, hpc] at h

end Notified

variable {settings : Settings} {pool : DataPool} {parts : Vector FetchPart n} {t t' : Transfer n}

theorem chunk_count_true (chunks : List (Chunk n)) :
    Chunk.count (fun _ => true) chunks = chunks.length := by
  simp [Chunk.count]

theorem conserved_start : (start pool parts).Conserved parts where
  ok := by
    intro w hw
    obtain ⟨held, -, rfl⟩ := List.mem_map.mp hw
    exact ⟨rfl, rfl⟩
  tally := by
    intro p
    have hzero : (((start pool parts).workers).map (Worker.tally p)).sum = 0 := by
      refine List.sum_eq_zero fun m hm => ?_
      obtain ⟨w, hw, rfl⟩ := List.mem_map.mp hm
      obtain ⟨held, -, rfl⟩ := List.mem_map.mp hw
      rfl
    rw [hzero, Shared.tally_eq]
    simp [start]
  remaining := by simp [start]
  live := by
    have : (start pool parts).workers.countP Worker.isLive = (start pool parts).workers.length := by
      rw [List.countP_eq_length]
      intro w hw
      obtain ⟨held, -, rfl⟩ := List.mem_map.mp hw
      rfl
    rw [this]
    simp [start]
  failed := fun _ => rfl
  panicked := by simp [start]
  awake := by
    intro w hw hpc
    obtain ⟨held, -, rfl⟩ := List.mem_map.mp hw
    cases hpc

theorem conserved_notify {i : Nat} {w : Worker n} (h : t.Conserved parts)
    (hw : t.workers[i]? = some w) (howes : w.owes = true) :
    Conserved parts { t with
      workers := (t.workers.map Worker.notified).set i { w with owes := false } } := by
  have hw' : (t.workers.map Worker.notified)[i]? = some w.notified := by simp [hw]
  have hok := h.ok w (List.mem_of_getElem? hw)
  refine ⟨?_, ?_, h.remaining, ?_, h.failed, ?_, ?_⟩
  · refine Threads.forall_mem_set ?_ ?_
    · intro x hx
      obtain ⟨y, hy, rfl⟩ := List.mem_map.mp hx
      exact notified_ok y (h.ok y hy)
    · unfold Worker.Ok at hok ⊢
      dsimp only
      split <;> simp_all
  · intro p
    have hsum := Threads.sum_set hw' (Worker.tally p) { w with owes := false }
    have hsame : Worker.tally p { w with owes := false } = w.tally p := rfl
    have hall : ((t.workers.map Worker.notified).map (Worker.tally p)) =
        t.workers.map (Worker.tally p) := by
      simp [List.map_map, Function.comp_def, notified_tally]
    have := h.tally p
    rw [hall, notified_tally, hsame] at hsum
    dsimp only
    omega
  · have hcount := Threads.countP_set hw' Worker.isLive { w with owes := false }
    have hsame : Worker.isLive { w with owes := false } = w.isLive := rfl
    rw [notified_isLive, hsame, List.countP_map,
      show Worker.isLive ∘ Worker.notified = (Worker.isLive (n := n)) from
        funext notified_isLive] at hcount
    have := h.live
    dsimp only
    omega
  · intro hpanicked
    refine (h.panicked hpanicked).imp_right ?_
    rintro ⟨x, hx, hunwinds⟩
    have hmem : x ∈ t.workers.map Worker.notified :=
      List.mem_map.mpr ⟨x, hx, notified_unwinds x hunwinds⟩
    by_cases hxw : x = w.notified
    · refine ⟨_, Threads.self_mem_set hw' _, ?_⟩
      have : w.notified.pc = w.pc := by
        rcases notified_cases w with h | ⟨hpc, h⟩
        · rw [h]
        · simp [hxw, h, Worker.unwinds] at hunwinds
      simpa [Worker.unwinds, hxw, this] using hunwinds
    · exact ⟨x, Threads.mem_set_of_ne hw' hmem hxw _, hunwinds⟩
  · intro x hx hpc
    exfalso
    rcases List.mem_or_eq_of_mem_set hx with hx | rfl
    · obtain ⟨y, -, rfl⟩ := List.mem_map.mp hx
      exact notified_not_waiting y hpc
    · have hpc : w.pc = .waiting := hpc
      simp only [Worker.Ok, hpc, howes] at hok
      exact absurd hok.2.2.2 (by decide)

theorem conserved_act {i : Nat} {event : Event} {w w' : Worker n} {sh' : Shared n}
    (h : t.Conserved parts) (hw : t.workers[i]? = some w) (howes : w.owes = false)
    (hacts : Acts settings t.shared w event sh' w') :
    Conserved parts ⟨sh', t.workers.set i w'⟩ := by
  have hok := h.ok w (List.mem_of_getElem? hw)
  have hset := Threads.self_mem_set hw w'
  refine ⟨Threads.forall_mem_set h.ok (hacts.ok howes hok), ?_, ?_, ?_, ?_, ?_, ?_⟩
  · intro p
    have hsum := Threads.sum_set hw (Worker.tally p) w'
    have hmove := hacts.tally_eq p
    have := h.tally p
    dsimp only
    omega
  · have hremaining := h.remaining
    rcases hacts.remaining_cases with ⟨hsame, hdone⟩ | ⟨done, hpc, hless, hdone⟩
    · rw [hsame, hdone]
      exact hremaining
    · -- The chunk in hand is not among the completed ones yet.
      have hhand : 1 ≤ w.tally fun _ => true := by
        simp [Worker.tally_eq, hpc, Pc.inHand]
        omega
      have htally := h.tally fun _ => true
      have hle := Threads.le_sum hw (Worker.tally fun _ => true)
      simp only [Shared.tally_eq, chunk_count_true, List.length_map] at htally
      rw [hless, hdone, List.length_cons]
      omega
  · have hcount := Threads.countP_set hw Worker.isLive w'
    have hlive := h.live
    dsimp only
    rcases hacts.live_cases with ⟨hw, ⟨hw', hsame⟩ | ⟨hw', hless⟩⟩
    · rw [hw, hw'] at hcount
      omega
    · rw [hw, hw', Bool.toNat_true, Bool.toNat_false] at hcount
      omega
  · intro herror
    obtain ⟨herror, hfailed⟩ := hacts.failed_eq_nil herror
    rw [hfailed]
    exact h.failed herror
  · intro hpanicked
    rcases hacts.panicked_cases hpanicked with ⟨hpanicked, herror, hself⟩ | hself
    · rcases h.panicked hpanicked with h | ⟨x, hx, hunwinds⟩
      · exact .inl (herror h)
      · by_cases hxw : x = w
        · rcases hself (hxw ▸ hunwinds) with h | h
          · exact .inr ⟨w', hset, h⟩
          · exact .inl h
        · exact .inr ⟨x, Threads.mem_set_of_ne hw hx hxw w', hunwinds⟩
    · exact .inr ⟨w', hset, hself⟩
  · intro x hx hpc hnew
    rcases List.mem_or_eq_of_mem_set hx with hx | rfl
    · rcases hacts.owes_of_new hnew with hold | hself
      · obtain ⟨waker, hwaker, howes', hlive⟩ := h.awake x hx hpc hold
        refine ⟨waker, Threads.mem_set_of_ne hw hwaker ?_ w', howes', hlive⟩
        rintro rfl
        rw [howes] at howes'
        cases howes'
      · exact ⟨w', hset, hself⟩
    · obtain ⟨hqueue, herror⟩ := hacts.idle_of_waiting hpc
      exact absurd hnew (by simp [hqueue, herror])

theorem conserved (h : (system settings pool parts).Reachable t) : t.Conserved parts := by
  refine System.Inductive.holds (P := fun _ _ => True) ⟨?_, ?_⟩ h
  · rintro s rfl
    exact conserved_start
  · rintro s s' ⟨i, event⟩ hs - hstep
    obtain ⟨w, hw, ⟨howes, -, rfl⟩ | ⟨sh', w', howes, hacts, rfl⟩⟩ := step_cases hstep
    · exact conserved_notify hs hw howes
    · exact conserved_act hs hw howes hacts

/-! ## What the threads rely on -/

/-- The places a chunk can be in: the queue, a live thread's fresh list or flight, or
completed. -/
def places (t : Transfer n) : List (Chunk n) :=
  t.shared.state.queue ++ (t.workers.filter Worker.isLive).flatMap Worker.chunks ++
    t.shared.completed.map InFlight.chunk

/-- A thread is about to report chunks that are unaccounted for: it has nothing in
flight, found nothing on the queue, and is the last one of a transfer not done. -/
def Unaccounted (settings : Settings) (t : Transfer n) (w : Worker n) : Prop :=
  w.owes = false ∧ w.pc = .head ∧ w.held ≠ none ∧ w.flight = [] ∧
    t.shared.state.fresh settings.spec w.flight = [] ∧ t.shared.state.error = none ∧
    t.shared.state.remaining ≠ 0 ∧ t.shared.state.live = 1

namespace Conserved

variable (h : t.Conserved parts)
include h

theorem tally_of_gone {w : Worker n} (hw : w ∈ t.workers) (hlive : w.isLive = false)
    (p : Fin n × Nat × Nat → Bool) : w.tally p = 0 := by
  have hok := h.ok w hw
  have hpc : w.pc = .gone := by simpa [Worker.isLive] using hlive
  simp only [Worker.Ok, hpc] at hok
  simp [Worker.tally_eq, hpc, Pc.fresh, Pc.inHand, hok]

/-- With no error recorded and none about to be, no chunk is missing. -/
theorem places_perm (herror : t.shared.state.error = none) (hlost : ∀ w ∈ t.workers, w.lost = []) :
    (t.places.map Chunk.key).Perm ((chunksOf parts).map Chunk.key) := by
  rw [List.perm_iff_count]
  intro k
  have hcount : ∀ chunks : List (Chunk n), (chunks.map Chunk.key).count k =
      Chunk.count (· == k) chunks := by
    intro chunks
    rw [List.count, List.countP_map]
    rfl
  have htally := h.tally (· == k)
  have hsum : ((t.workers.filter Worker.isLive).map fun w => Chunk.count (· == k) w.chunks).sum =
      (t.workers.map (Worker.tally (· == k))).sum := by
    have hchunks : ∀ w ∈ t.workers, Chunk.count (· == k) w.chunks = w.tally (· == k) := by
      intro w hw
      rw [Worker.tally, hlost w hw, List.append_nil]
      rfl
    rw [Threads.sum_filter fun w hw hlive => (hchunks w hw).trans (h.tally_of_gone hw hlive _)]
    exact congrArg List.sum (List.map_congr_left hchunks)
  have hflat : Chunk.count (· == k) ((t.workers.filter Worker.isLive).flatMap Worker.chunks) =
      ((t.workers.filter Worker.isLive).map fun w => Chunk.count (· == k) w.chunks).sum := by
    rw [Chunk.count, List.countP_flatMap]
    rfl
  rw [Shared.tally_eq, h.failed herror, Chunk.count_nil] at htally
  rw [hcount, hcount, places, Chunk.count_append, Chunk.count_append, hflat, hsum]
  omega

theorem not_unaccounted {w : Worker n} (hw : w ∈ t.workers) : ¬ t.Unaccounted settings w := by
  rintro ⟨-, hpc, -, hflight, hfresh, herror, hremaining, hone⟩
  obtain ⟨i, hi⟩ := List.getElem?_of_mem hw
  rw [h.live] at hone
  have hlive : w.isLive = true := by simp [Worker.isLive, hpc]
  have hsum := Threads.sum_of_countP_eq_one (f := Worker.tally fun _ => true) hi hlive hone
    fun x hx hx' => h.tally_of_gone hx hx' _
  have hok := h.ok w hw
  simp only [Worker.Ok, hpc] at hok
  have hself : w.tally (fun _ => true) = 0 := by
    simp [Worker.tally_eq, hpc, Pc.fresh, Pc.inHand, hflight, hok.1]
  rw [hflight] at hfresh
  have htally := h.tally fun _ => true
  rw [hsum, hself, Shared.tally_eq, State.queue_eq_nil herror hfresh, h.failed herror] at htally
  simp only [chunk_count_true, List.length_map, List.length_nil] at htally
  have := h.remaining
  omega

/-- Some live thread can go on, as long as there is one and chunks remain. -/
theorem exists_not_waiting (hsome : ∃ w ∈ t.workers, w.isLive = true)
    (hremaining : 0 < t.shared.state.remaining) :
    ∃ w ∈ t.workers, w.isLive = true ∧ w.pc ≠ .waiting := by
  by_contra hall
  simp only [not_exists, not_and, not_not] at hall
  obtain ⟨w, hw, hlive⟩ := hsome
  have hidle : t.shared.state.queue = [] ∧ t.shared.state.error = none := by
    by_contra hbusy
    have hnew : t.shared.state.queue ≠ [] ∨ t.shared.state.error ≠ none := by tauto
    obtain ⟨waker, hwaker, howes, hlive'⟩ := h.awake w hw (hall w hw hlive) hnew
    have hok := h.ok waker hwaker
    simp only [Worker.Ok, hall waker hwaker hlive', howes] at hok
    exact absurd hok.2.2.2 (by decide)
  have hzero : (t.workers.map (Worker.tally fun _ => true)).sum = 0 := by
    refine List.sum_eq_zero fun m hm => ?_
    obtain ⟨x, hx, rfl⟩ := List.mem_map.mp hm
    cases hx' : x.isLive with
    | false => exact h.tally_of_gone hx hx' _
    | true =>
        have hok := h.ok x hx
        have hpc := hall x hx hx'
        simp only [Worker.Ok, hpc] at hok
        simp [Worker.tally_eq, hpc, Pc.fresh, Pc.inHand, hok.1, hok.2.1]
  have htally := h.tally fun _ => true
  rw [hzero, Shared.tally_eq, hidle.1, h.failed hidle.2] at htally
  simp only [chunk_count_true, List.length_map, List.length_nil] at htally
  have := h.remaining
  omega

theorem outcome_ok_iff {outcome : Outcome} (houtcome : t.outcome = some outcome) :
    (∃ fetched, outcome = .ok fetched) ↔
      (t.shared.completed.map (Chunk.key ∘ InFlight.chunk)).Perm
          ((chunksOf parts).map Chunk.key) ∧ t.shared.state.error = none := by
  have hjoined : t.Joined := by
    by_contra hnot
    simp [Transfer.outcome, hnot] at houtcome
  have hgone : ∀ w ∈ t.workers, w.isLive = false := fun w hw => by
    simp [Worker.isLive, (hjoined w hw).1]
  have hlost : ∀ w ∈ t.workers, w.lost = [] := by
    intro w hw
    have hok := h.ok w hw
    simp only [Worker.Ok, (hjoined w hw).1] at hok
    exact hok.2
  rw [Transfer.outcome, if_pos hjoined, Option.some.injEq] at houtcome
  have hremaining := h.remaining
  have hnotpanicked : t.shared.state.error = none → t.shared.panicked = false := by
    intro herror
    by_contra hpanicked
    rcases h.panicked (by simpa using hpanicked) with hne | ⟨w, hw, hunwinds⟩
    · exact hne herror
    · simp [Worker.unwinds, (hjoined w hw).1] at hunwinds
  constructor
  · rintro ⟨fetched, rfl⟩
    split at houtcome
    · cases houtcome
    split at houtcome
    · cases houtcome
    rename_i herror
    split at houtcome
    · cases houtcome
    rename_i hzero
    refine ⟨?_, herror⟩
    have hperm := h.places_perm herror hlost
    have hnone : t.workers.filter Worker.isLive = [] := by
      rw [List.filter_eq_nil_iff]
      simpa using hgone
    rw [places, hnone, List.flatMap_nil, List.append_nil, List.map_append, List.map_map] at hperm
    have hlength := hperm.length_eq
    simp only [List.length_append, List.length_map] at hlength
    obtain hqueue : t.shared.state.queue = [] := by
      rw [← List.length_eq_zero_iff]
      omega
    simpa [hqueue] using hperm
  · rintro ⟨hperm, herror⟩
    have hlength := hperm.length_eq
    simp only [List.length_map] at hlength
    rw [hnotpanicked herror, herror] at houtcome
    simp only [Bool.false_eq_true, if_false] at houtcome
    rw [if_neg (by omega)] at houtcome
    exact ⟨_, houtcome.symm⟩

end Conserved

/-- In every state of every transfer no chunk is missing unless an error is recorded
or about to be; so no thread ever finds chunks unaccounted for, the threads are never
all left waiting, and the call succeeds exactly when every chunk was completed. -/
theorem chunks_conserved (settings : Settings) (pool : DataPool) (parts : Vector FetchPart n)
    (t : Transfer n) (h : (system settings pool parts).Reachable t) :
    (t.shared.state.error = none → (∀ w ∈ t.workers, w.lost = []) →
      (t.places.map Chunk.key).Perm ((chunksOf parts).map Chunk.key)) ∧
    t.shared.state.remaining + t.shared.completed.length = (chunksOf parts).length ∧
    (∀ w ∈ t.workers, ¬ t.Unaccounted settings w) ∧
    ((∃ w ∈ t.workers, w.isLive = true) → 0 < t.shared.state.remaining →
      ∃ w ∈ t.workers, w.isLive = true ∧ w.pc ≠ .waiting) ∧
    ∀ outcome, t.outcome = some outcome → ((∃ fetched, outcome = .ok fetched) ↔
      (t.shared.completed.map (Chunk.key ∘ InFlight.chunk)).Perm
          ((chunksOf parts).map Chunk.key) ∧ t.shared.state.error = none) := by
  have hc := conserved h
  exact ⟨hc.places_perm, hc.remaining, fun w hw => hc.not_unaccounted hw, hc.exists_not_waiting,
    fun outcome houtcome => hc.outcome_ok_iff houtcome⟩

/-! ## A transfer of four bytes -/

/-- A build without codecs, and a transfer of raw data. -/
def rawSettings : Settings where
  build := ⟨false, false⟩
  expander := ⟨fun _ _ dst => (.error (.badBlock "no codec"), dst), fun _ _ _ => rfl⟩
  spec := ⟨4, 3⟩

def onePool : DataPool := ⟨[some ⟨[]⟩], by decide⟩

def fourBytes : Vector FetchPart 1 :=
  #v[⟨1, Vector.replicate 16 7, [(0, 4)], [0, 0, 0, 0]⟩]

/-- One thread fetches the chunk, which comes in two frames of two bytes. -/
def twoFrames (first second : Nat) : List (Nat × Event) :=
  [(0, .proceed), (0, .proceed), (0, .sent (.ok ())), (0, .proceed),
    (0, .received (.frame (.data 1 first 2) [1, 2])), (0, .proceed), (0, .proceed),
    (0, .received (.frame (.data 1 second 2) [3, 4])), (0, .proceed), (0, .proceed),
    (0, .proceed), (0, .proceed), (0, .proceed)]

/-- Run to its end, such a transfer leaves one completed fetch. -/
theorem twoFrames_reachable (first second : Nat)
    (hrun : ((twoFrames first second).foldlM (step rawSettings) (start onePool fourBytes)).map
      (fun t => (t.outcome, t.shared.completed)) =
      some (some (.ok ⟨1, 0, 4⟩), [⟨⟨0, 0, 4, 0⟩, ⟨0, 4⟩, 4, [(first, 2), (second, 2)]⟩])) :
    ∃ t, (twoFrames first second).foldlM (step rawSettings) (start onePool fourBytes) = some t ∧
      t.outcome = some (.ok ⟨1, 0, 4⟩) ∧
      t.shared.completed = [⟨⟨0, 0, 4, 0⟩, ⟨0, 4⟩, 4, [(first, 2), (second, 2)]⟩] := by
  obtain ⟨t, ht, heq⟩ := Option.map_eq_some_iff.mp hrun
  rw [Prod.mk.injEq] at heq
  exact ⟨t, ht, heq.1, heq.2⟩

theorem chunks_conserved_twoFrames : ∃ t : Transfer 1, t.outcome = some (.ok ⟨1, 0, 4⟩) ∧
    t.shared.state.remaining + t.shared.completed.length = 1 ∧ t.shared.state.error = none := by
  obtain ⟨t, ht, houtcome, -⟩ := twoFrames_reachable 0 2 (by decide +kernel)
  obtain ⟨-, hremaining, -, -, hok⟩ := chunks_conserved rawSettings onePool fourBytes t
    (System.reachable_of_run _ ht)
  exact ⟨t, houtcome, hremaining, ((hok _ houtcome).mp ⟨_, rfl⟩).2⟩

end Transfer

end Aex
