import Aex.Client.RetryBudget
import Mathlib.Algebra.Order.BigOperators.Group.List

/-!
# A transfer gets on

No thread is left asleep when there is nothing more to wait for, and whatever a thread
does brings the transfer closer to its end: it spends an attempt of some chunk, or it
leaves less to be done with those that are left.
-/

namespace Aex

open Lts

variable {n : Nat} {settings : Settings} {sh sh' : Shared n} {w w' : Worker n} {event : Event}

/-! ## Threads asleep -/

namespace Acts

/-- A thread goes to wait only while there are chunks to wait for. -/
theorem remaining_of_waiting (h : Acts settings sh w event sh' w') (hpc' : w'.pc = .waiting) :
    sh'.state.remaining ≠ 0 := by
  cases h with
  | waits hpc hheld hflight hfresh herror hremaining => exact hremaining
  | unaccounted | gaveNothing | broken | dataBroken | gaveBack =>
      exfalso
      revert hpc'
      unfold Worker.broke
      dsimp only
      split <;> simp
  | refused hpc hheld hflight header payload htype hid hnext =>
      rcases hnext with ⟨message, rfl⟩ | ⟨chunk, hretried, rfl⟩ | ⟨error, rfl⟩ <;> cases hpc'
  | drains hpc hflight hnext =>
      rcases hnext with ⟨chunk, hretried, rfl⟩ | ⟨-, rfl⟩ <;> cases hpc'
  | accepted hpc hheld hflight htype hformed hdata hfront hnext =>
      rcases hnext with ⟨-, rfl, rfl⟩ | ⟨-, rfl, rfl⟩ <;> cases hpc'
  | @requeues chunk after hpc => rcases after with _ | ⟨e, exhausted⟩ <;> cases hpc'
  | @drained e exhausted hpc hflight => cases exhausted <;> cases hpc'
  | @fails e panicked hpc => cases panicked <;> cases hpc'
  | _ => simp_all

/-- The thread that completes the last chunk owes a notification. -/
theorem owes_of_last (h : Acts settings sh w event sh' w') (hlast : sh'.state.remaining = 0) :
    sh.state.remaining = 0 ∨ w'.owes = true := by
  cases h with
  | completes hpc => exact .inr (decide_eq_true hlast)
  | accepted hpc hheld hflight htype hformed hdata hfront hnext =>
      rcases hnext with ⟨-, rfl, rfl⟩ | ⟨-, rfl, rfl⟩ <;> exact .inl hlast
  | _ => exact .inl hlast

end Acts

namespace Transfer

variable {pool : DataPool} {parts : Vector FetchPart n} {t : Transfer n}

/-- A thread that waits when every chunk is complete is about to be notified. -/
def Rested (t : Transfer n) : Prop :=
  ∀ w ∈ t.workers, w.pc = .waiting → t.shared.state.remaining = 0 → ∃ waker ∈ t.workers, waker.owes = true

theorem rested (h : (system settings pool parts).Reachable t) : t.Rested := by
  induction h with
  | init hs =>
      rw [system, System.ofFn_init] at hs
      subst hs
      intro w hw hpc
      obtain ⟨held, -, rfl⟩ := List.mem_map.mp hw
      cases hpc
  | @step s s' label hr _ hstep ih =>
      obtain ⟨i, event⟩ := label
      obtain ⟨w, hw, ⟨howes, -, rfl⟩ | ⟨sh', w', howes, hacts, rfl⟩⟩ := step_cases hstep
      · intro x hx hpc
        rcases List.mem_or_eq_of_mem_set hx with hx | rfl
        · obtain ⟨y, -, rfl⟩ := List.mem_map.mp hx
          exact absurd hpc (notified_not_waiting y)
        · have hok := (conserved hr).ok w (List.mem_of_getElem? hw)
          have hpc : w.pc = .waiting := hpc
          simp only [Worker.Ok, hpc, howes] at hok
          exact absurd hok.2.2.2 (by decide)
      · intro x hx hpc hlast
        rcases List.mem_or_eq_of_mem_set hx with hx | rfl
        · rcases hacts.owes_of_last hlast with hold | hself
          · obtain ⟨waker, hwaker, howes'⟩ := ih x hx hpc hold
            refine ⟨waker, Threads.mem_set_of_ne hw hwaker ?_ w', howes'⟩
            rintro rfl
            rw [howes] at howes'
            cases howes'
          · exact ⟨w', Threads.self_mem_set hw w', hself⟩
        · exact absurd hlast (hacts.remaining_of_waiting hpc)

/-- As long as a transfer has not come back, one of its threads is up to something. -/
theorem exists_moving (h : (system settings pool parts).Reachable t) (houtcome : t.outcome = none) :
    ∃ w ∈ t.workers, w.owes = true ∨ w.pc ≠ .gone ∧ w.pc ≠ .waiting := by
  by_contra hnone
  have hstill : ∀ w ∈ t.workers, w.owes = false ∧ (w.pc = .gone ∨ w.pc = .waiting) := by
    intro w hw
    by_contra hmoves
    refine hnone ⟨w, hw, ?_⟩
    rw [not_and_or, Bool.not_eq_false, not_or] at hmoves
    exact hmoves
  have hnotJoined : ¬ t.Joined := by
    intro hjoined
    rw [outcome, if_pos hjoined] at houtcome
    cases houtcome
  obtain ⟨w, hw, hpc⟩ : ∃ w ∈ t.workers, w.pc = .waiting := by
    by_contra hnot
    refine hnotJoined fun w hw => ⟨(hstill w hw).2.resolve_right fun hpc => hnot ⟨w, hw, hpc⟩, (hstill w hw).1⟩
  have hlive : w.isLive = true := by simp [Worker.isLive, hpc]
  by_cases hremaining : t.shared.state.remaining = 0
  · obtain ⟨waker, hwaker, howes⟩ := rested h w hw hpc hremaining
    rw [(hstill waker hwaker).1] at howes
    cases howes
  · obtain ⟨x, hx, hxlive, hxpc⟩ := (conserved h).exists_not_waiting ⟨w, hw, hlive⟩ (by omega)
    have hgone := (hstill x hx).2.resolve_right hxpc
    rw [Worker.isLive, hgone] at hxlive
    cases hxlive

end Transfer

/-! ## What is left to do -/

/-- The work a queued chunk takes.  It is asked for and every byte of it received, each
with a turn of a thread's loop at most. -/
def Chunk.work (c : Chunk n) : Nat := 3 * c.len + 5

/-- The work of a fetch under way; more on a connection given up, since the chunk has to go
back on the queue. -/
def InFlight.work (crowd : Nat) (doomed : Bool) (x : InFlight n) : Nat :=
  if doomed then x.chunk.work + crowd + 3 else 3 * (x.chunk.len - x.received) + 2

/-- The work of a thread and of the chunks it has in hand, among so many threads.  One that
will notify the others pays for waking them up. -/
def Pc.work (crowd : Nat) (idle : Bool) : Pc n → Nat
  | .gone => 0
  | .leaving _ => crowd + 2
  | .reading => crowd + 3
  | .completing _ => crowd + 4
  | .waiting => crowd + 4
  | .asking fresh => crowd + 4 + Chunk.weigh (fun c => 3 * c.len + 4) fresh
  | .head => if idle then crowd + 7 else crowd + 5
  | .reconnecting => crowd + 6
  | .start => crowd + 8
  | .failing .. => 2 * crowd + 9
  | .draining .. | .clearing .. => 2 * crowd + 10
  | .requeuing chunk _ => 3 * crowd + 12 + chunk.work
  | .givingBack fresh _ => 3 * crowd + 12 + Chunk.weigh Chunk.work fresh

namespace Worker

/-- A thread that will not use its connection again, if it has one. -/
def doomed (w : Worker n) : Bool :=
  match w.pc with
  | .clearing .. | .givingBack .. => true
  | _ => w.held.isNone

/-- The attempts left of a thread's chunks.  The one that a break costs counts as spent from
then on. -/
def budget (spec : FetchSpec) (w : Worker n) : Nat :=
  Chunk.weigh (Chunk.left spec fun _ => true) (w.pc.fresh ++ w.pc.inHand) +
    (Chunk.weigh (Chunk.left spec fun _ => true) (w.flight.map InFlight.chunk) - w.doomed.toNat)

def work (crowd : Nat) (w : Worker n) : Nat :=
  w.pc.work crowd w.held.isNone + (if w.owes then crowd + 1 else 0) +
    (w.flight.map (InFlight.work crowd w.doomed)).sum

end Worker

/-- What a thread is told by its server gets it further. -/
def Event.Informs : Event → Prop
  | .received (.frame header _) =>
      header.frameType = .error ∨ header.frameType = .data ∧ 0 < header.logicalLen
  | .woken => False
  | _ => True

section Step

variable {spec : FetchSpec} {crowd : Nat} {c : Chunk n}

theorem Chunk.left_pos (hc : c.attempts ≤ spec.maxRetries) : 0 < c.left spec fun _ => true := by
  simp only [left, if_true]
  omega

/-- A retry spends one attempt. -/
theorem Chunk.left_retried (hmax : spec.maxRetries < 2 ^ 32 - 1) (hc : c.attempts ≤ spec.maxRetries)
    {c' : Chunk n} (h : c.retried spec true = some c') :
    (c'.left spec fun _ => true) + 1 = c.left spec (fun _ => true) ∧ c'.len = c.len := by
  have hagain := retried_charged hmax hc
  rw [h, Option.toList_some, again] at hagain
  split at hagain
  · cases hagain
    refine ⟨?_, rfl⟩
    simp only [left, if_true]
    omega
  · cases hagain

theorem Chunk.weigh_le {f g : Chunk n → Nat} (h : ∀ c, f c ≤ g c) (chunks : List (Chunk n)) :
    weigh f chunks ≤ weigh g chunks := by
  induction chunks with
  | nil => exact Nat.le_refl _
  | cons c chunks ih =>
      rw [weigh_cons, weigh_cons]
      exact Nat.add_le_add (h c) ih

/-- What is taken off the queue and what stays there. -/
theorem weigh_taken (sh : Shared n) (spec : FetchSpec) (f : Chunk n → Nat) (flight : List (InFlight n)) :
    Chunk.weigh f (sh.taken spec flight).state.queue + Chunk.weigh f (sh.state.fresh spec flight) =
      Chunk.weigh f sh.state.queue := by
  have := congrArg (Chunk.weigh f) (sh.state.fresh_append_rest spec flight)
  rw [Chunk.weigh_append, Nat.add_comm] at this
  exact this

theorem isNone_eq_false {held : Option DataConn} (h : held ≠ none) : held.isNone = false := by
  cases held with
  | none => exact absurd rfl h
  | some conn => rfl

/-- A thread with something in flight has an attempt left to spend. -/
theorem weigh_flight_pos {flight : List (InFlight n)}
    (hflight : ∀ x ∈ flight, x.chunk.attempts ≤ spec.maxRetries) (hne : flight ≠ []) :
    0 < Chunk.weigh (Chunk.left spec fun _ => true) (flight.map InFlight.chunk) := by
  obtain ⟨x, rest, rfl⟩ := List.exists_cons_of_ne_nil hne
  have hx := Chunk.left_pos (hflight x List.mem_cons_self)
  rw [List.map_cons, Chunk.weigh_cons]
  omega

/-- A step brings the end closer: it spends an attempt, or spends none and leaves less to do. -/
def Closer (spec : FetchSpec) (crowd sent : Nat) (sh sh' : Shared n) (w w' : Worker n) : Prop :=
  let left := Chunk.weigh (Chunk.left spec fun _ => true)
  left sh'.state.queue + w'.budget spec < left sh.state.queue + w.budget spec ∨
    left sh'.state.queue + w'.budget spec ≤ left sh.state.queue + w.budget spec ∧
      Chunk.weigh Chunk.work sh'.state.queue + w'.work crowd + sent <
        Chunk.weigh Chunk.work sh.state.queue + w.work crowd

/-- What one step of a thread spends and what it leaves to do. -/
theorem Acts.closer {t : Transfer n} (h : Acts settings t.shared w event sh' w') (howes : w.owes = false)
    (hok : w.Ok) (hinforms : event.Informs) (hmax : settings.spec.maxRetries < 2 ^ 32 - 1)
    (hchunks : ∀ c ∈ w.chunks, c.attempts ≤ settings.spec.maxRetries)
    (haccounted : ¬ t.Unaccounted settings w) (crowd : Nat) :
    Closer settings.spec crowd (if event = .sent (.ok ()) then 1 else 0) t.shared sh' w w' := by
  have hflying : ∀ x ∈ w.flight, x.chunk.attempts ≤ settings.spec.maxRetries := fun x hx =>
    hchunks _ (List.mem_append_right _ (List.mem_append_right _ (List.mem_map_of_mem hx)))
  unfold Worker.Ok at hok
  unfold Closer
  dsimp only
  cases h with
  | started hpc =>
      right
      simp [Worker.budget, Worker.work, Worker.doomed, Pc.work, Pc.fresh, Pc.inHand, hpc, howes]
      split <;> omega
  | notSpawned hpc failure =>
      right
      simp [Worker.budget, Worker.work, Worker.doomed, Pc.work, Pc.fresh, Pc.inHand, hpc, howes]
  | gaveUp hpc hheld herror =>
      right
      simp [Worker.budget, Worker.work, Worker.doomed, Pc.work, Pc.fresh, Pc.inHand, hpc, howes, hheld]
  | reconnects hpc hheld herror =>
      right
      simp [Worker.budget, Worker.work, Worker.doomed, Pc.work, Pc.fresh, Pc.inHand, hpc, howes, hheld]
  | reconnected hpc =>
      right
      rw [hpc] at hok
      simp [Worker.budget, Worker.work, Worker.doomed, Pc.work, Pc.fresh, Pc.inHand, hpc, howes, hok.1]
  | notReconnected hpc e =>
      right
      simp [Worker.budget, Worker.work, Worker.doomed, Pc.work, Pc.fresh, Pc.inHand, hpc, howes]
  | toppedUp hpc hheld hsome =>
      right
      have hleft := weigh_taken t.shared settings.spec (Chunk.left settings.spec fun _ => true) w.flight
      have hwork := weigh_taken t.shared settings.spec Chunk.work w.flight
      have hle := @Chunk.weigh_le n (fun c => 3 * c.len + 4) Chunk.work (fun c => Nat.le_succ _)
        (t.shared.state.fresh settings.spec w.flight)
      simp [Worker.budget, Worker.work, Worker.doomed, Pc.work, Pc.fresh, Pc.inHand, hpc, howes, hheld]
      omega
  | finished hpc hheld hflight hfresh hdone =>
      right
      have hleft := weigh_taken t.shared settings.spec (Chunk.left settings.spec fun _ => true) w.flight
      have hwork := weigh_taken t.shared settings.spec Chunk.work w.flight
      rw [hfresh, Chunk.weigh_nil, Nat.add_zero] at hleft hwork
      simp [Worker.budget, Worker.work, Worker.doomed, Pc.work, Pc.fresh, Pc.inHand, hpc, howes, hheld,
        hleft, hwork]
  | unaccounted hpc hheld hflight hfresh herror hremaining hlive message =>
      exact absurd ⟨howes, hpc, hheld, hflight, hfresh, herror, hremaining, hlive⟩ haccounted
  | waits hpc hheld hflight hfresh herror hremaining hlive =>
      right
      have hleft := weigh_taken t.shared settings.spec (Chunk.left settings.spec fun _ => true) w.flight
      have hwork := weigh_taken t.shared settings.spec Chunk.work w.flight
      rw [hfresh, Chunk.weigh_nil, Nat.add_zero] at hleft hwork
      simp [Worker.budget, Worker.work, Worker.doomed, Pc.work, Pc.fresh, Pc.inHand, hpc, howes, hheld,
        hleft, hwork]
  | woken hpc => exact hinforms.elim
  | asked hpc =>
      right
      simp [Worker.budget, Worker.work, Worker.doomed, Pc.work, Pc.fresh, Pc.inHand, hpc, howes]
  | @notClaimed chunk fresh hpc outcome e hclaim =>
      left
      rw [hpc] at hok
      have hheld := isNone_eq_false hok.2.1
      have hchunk := Chunk.left_pos (hchunks chunk (by simp [Worker.chunks, hpc, Pc.fresh]))
      simp [Worker.budget, Worker.doomed, Pc.fresh, Pc.inHand, hpc, hheld]
      omega
  | @sent chunk fresh hpc conn hheld slice scatter hclaim =>
      right
      simp [Worker.budget, Worker.work, Worker.doomed, Pc.work, Pc.fresh, Pc.inHand, hpc, howes, hheld,
        InFlight.work]
      omega
  | @notSent chunk fresh hpc failure slice scatter hclaim =>
      left
      rw [hpc] at hok
      have hheld := isNone_eq_false hok.2.1
      have hchunk := Chunk.left_pos (hchunks chunk (by simp [Worker.chunks, hpc, Pc.fresh]))
      simp [Worker.budget, Worker.doomed, Pc.fresh, Pc.inHand, hpc, hheld]
      omega
  | @gaveNothing e hpc =>
      right
      unfold Worker.broke
      cases e.isIo <;>
        simp [Worker.budget, Worker.work, Worker.doomed, Pc.work, Pc.fresh, Pc.inHand, hpc, howes] <;>
        omega
  | @gaveBack fresh e hpc =>
      right
      unfold Worker.broke
      cases e.isIo <;>
        simp [Worker.budget, Worker.work, Worker.doomed, Pc.work, Pc.fresh, Pc.inHand, hpc, howes] <;>
        omega
  | broken hpc incoming e =>
      left
      rw [hpc] at hok
      have hheld := isNone_eq_false hok.2.1
      have hspent := weigh_flight_pos hflying hok.2.2
      unfold Worker.broke
      cases e.isIo <;> simp [Worker.budget, Worker.doomed, Pc.fresh, Pc.inHand, hpc, hheld] <;> omega
  | panicked hpc hflight incoming =>
      left
      rw [hpc] at hok
      have hheld := isNone_eq_false hok.2.1
      have hspent := weigh_flight_pos hflying hflight
      simp [Worker.budget, Worker.doomed, Pc.fresh, Pc.inHand, hpc, hheld]
      omega
  | pinged hpc header payload htype =>
      rcases hinforms with herror | ⟨hdata, -⟩
      · rw [herror] at htype
        simp at htype
      · rw [hdata] at htype
        simp at htype
  | dataBroken hpc hflight hincoming htype hformed hdata =>
      left
      rw [hpc] at hok
      have hheld := isNone_eq_false hok.2.1
      have hspent := weigh_flight_pos hflying hok.2.2
      unfold Worker.broke
      cases ClientError.isIo _ <;>
        simp [Worker.budget, Worker.doomed, Pc.fresh, Pc.inHand, hpc, hheld] <;> omega
  | @accepted hpc conn hheld front front' rest hflight header payload bytes htype hformed hdata hfront
      sh' w' hnext =>
      right
      have hpos : 0 < header.logicalLen := by
        rcases hinforms with herror | ⟨-, hpos⟩
        · rw [herror] at htype
          cases htype
        · exact hpos
      subst hfront
      rcases hnext with ⟨hfull, rfl, rfl⟩ | ⟨hmore, rfl, rfl⟩
      · simp [Worker.budget, Worker.work, Worker.doomed, Pc.work, Pc.fresh, Pc.inHand, hpc, howes, hheld,
          hflight, InFlight.work]
        omega
      · dsimp only at hmore
        simp [Worker.budget, Worker.work, Worker.doomed, Pc.work, Pc.fresh, Pc.inHand, hpc, howes, hheld,
          hflight, InFlight.work]
        omega
  | @refused hpc conn hheld front rest hflight header payload htype hid w' hnext =>
      left
      have hfront := hflying front (by simp [hflight])
      have hspent := Chunk.left_pos hfront
      rcases hnext with ⟨message, rfl⟩ | ⟨chunk, hretried, rfl⟩ | ⟨error, rfl⟩
      · simp [Worker.budget, Worker.doomed, Pc.fresh, Pc.inHand, hpc, hheld, hflight]
        omega
      · have hagain := Chunk.left_retried hmax hfront hretried
        simp [Worker.budget, Worker.doomed, Pc.fresh, Pc.inHand, hpc, hheld, hflight]
        omega
      · simp [Worker.budget, Worker.doomed, Pc.fresh, Pc.inHand, hpc, hheld, hflight]
        omega
  | @completes done hpc =>
      left
      rw [hpc] at hok
      have hheld := isNone_eq_false hok.2
      have hspent := Chunk.left_pos (hchunks done.chunk (by
        simp [Worker.chunks, Worker.inFlight, hpc, Pc.inHand]))
      simp [Worker.budget, Worker.doomed, Pc.fresh, Pc.inHand, hpc, hheld]
      omega
  | @requeues chunk after hpc =>
      right
      rw [hpc] at hok
      cases after with
      | none =>
          have hheld := isNone_eq_false hok.2
          simp [Worker.budget, Worker.work, Worker.doomed, Worker.resumed, Pc.work, Pc.fresh, Pc.inHand,
            hpc, howes, hheld]
          omega
      | some after =>
          obtain ⟨e, exhausted⟩ := after
          simp [Worker.budget, Worker.work, Worker.doomed, Worker.resumed, Pc.work, Pc.fresh, Pc.inHand,
            hpc, howes, hok.1]
          omega
  | @drained e exhausted hpc hflight =>
      right
      rw [hpc] at hok
      cases exhausted <;>
        simp [Worker.budget, Worker.work, Worker.doomed, Pc.work, Pc.fresh, Pc.inHand, hpc, howes, hok.1,
          hflight]
      omega
  | @drains e exhausted hpc older newest hflight w' hnext =>
      right
      rw [hpc] at hok
      have hnewest := hflying newest (by simp [hflight])
      rcases hnext with ⟨chunk, hretried, rfl⟩ | ⟨-, rfl⟩
      · by_cases holder : older = []
        · -- The oldest is charged for the break, as it was counted from the start.
          rw [decide_eq_true holder] at hretried
          have hagain := Chunk.left_retried hmax hnewest hretried
          simp [Worker.budget, Worker.work, Worker.doomed, Pc.work, Pc.fresh, Pc.inHand, hpc, howes, hok.1,
            hflight, holder, InFlight.work, Chunk.work, hagain.2]
          omega
        · rw [decide_eq_false holder, Chunk.retried_uncharged hmax hnewest] at hretried
          cases hretried
          have hspent := weigh_flight_pos
            (fun x hx => hflying x (by rw [hflight]; exact List.mem_append_left _ hx)) holder
          simp [Worker.budget, Worker.work, Worker.doomed, Pc.work, Pc.fresh, Pc.inHand, hpc, howes,
            hok.1, hflight, InFlight.work]
          omega
      · simp [Worker.budget, Worker.work, Worker.doomed, Pc.work, Pc.fresh, Pc.inHand, hpc, howes, hok.1,
          hflight, InFlight.work]
        omega
  | @cleared e panicked hpc hflight =>
      right
      simp [Worker.budget, Worker.work, Worker.doomed, Pc.work, Pc.fresh, Pc.inHand, hpc, howes, hflight]
  | clears hpc hflight =>
      right
      simp [Worker.budget, Worker.work, Worker.doomed, Pc.work, Pc.fresh, Pc.inHand, hpc, howes, hflight,
        InFlight.work]
      omega
  | @fails e panicked hpc =>
      right
      rw [hpc] at hok
      cases panicked <;>
        simp [Worker.budget, Worker.work, Worker.doomed, Pc.work, Pc.fresh, Pc.inHand, hpc, howes]
      · split <;> omega
      · omega
  | leaves hpc =>
      right
      simp [Worker.budget, Worker.work, Worker.doomed, Pc.work, Pc.fresh, Pc.inHand, hpc, howes]

end Step

namespace Transfer

variable {pool : DataPool} {parts : Vector FetchPart n} {t t' : Transfer n} {crowd : Nat}

/-- The attempts left of all chunks. -/
def budget (spec : FetchSpec) (t : Transfer n) : Nat :=
  Chunk.weigh (Chunk.left spec fun _ => true) t.shared.state.queue +
    (t.workers.map (Worker.budget spec)).sum

/-- What is left to do with them. -/
def work (crowd : Nat) (t : Transfer n) : Nat :=
  Chunk.weigh Chunk.work t.shared.state.queue + (t.workers.map (Worker.work crowd)).sum

theorem notified_budget (spec : FetchSpec) (w : Worker n) : w.notified.budget spec = w.budget spec := by
  rcases notified_cases w with hsame | ⟨hpc, hsame⟩
  · rw [hsame]
  · rw [hsame]
    simp [Worker.budget, Worker.doomed, Pc.fresh, Pc.inHand, hpc]

/-- Waking a thread up makes a turn of its loop to do again. -/
theorem notified_work (crowd : Nat) (hok : w.Ok) :
    w.work crowd ≤ w.notified.work crowd ∧ w.notified.work crowd ≤ w.work crowd + 1 := by
  rcases notified_cases w with hsame | ⟨hpc, hsame⟩
  · rw [hsame]
    exact ⟨Nat.le_refl _, Nat.le_succ _⟩
  · simp only [Worker.Ok, hpc] at hok
    have hheld := isNone_eq_false hok.2.2.1
    rw [hsame]
    simp [Worker.work, Worker.doomed, Pc.work, hpc, hheld]
    omega

/-- A step of a thread brings the end of the transfer closer. -/
theorem closer_step (hmax : settings.spec.maxRetries < 2 ^ 32 - 1)
    (h : (system settings pool parts).Reachable t) (hcrowd : t.workers.length ≤ crowd) {i : Nat}
    (hinforms : event.Informs) (hstep : t.step settings (i, event) = some t') :
    t'.budget settings.spec < t.budget settings.spec ∨
      t'.budget settings.spec ≤ t.budget settings.spec ∧
        t'.work crowd + (if event = .sent (.ok ()) then 1 else 0) < t.work crowd := by
  have hconserved := conserved h
  obtain ⟨w, hw, ⟨howes, hevent, rfl⟩ | ⟨sh', w', howes, hacts, rfl⟩⟩ := step_cases hstep
  · -- Threads wake up, each at the expense of the notification.
    right
    subst hevent
    have hok := hconserved.ok w (List.mem_of_getElem? hw)
    have hw' : (t.workers.map Worker.notified)[i]? = some w.notified := by simp [hw]
    have hbudget := Threads.sum_set hw' (Worker.budget settings.spec) { w with owes := false }
    have hwork := Threads.sum_set hw' (Worker.work crowd) { w with owes := false }
    have hsame : (t.workers.map Worker.notified).map (Worker.budget settings.spec) =
        t.workers.map (Worker.budget settings.spec) := by
      simp [List.map_map, Function.comp_def, notified_budget]
    have hpaid : Worker.work crowd { w with owes := false } + (crowd + 1) = w.work crowd := by
      simp [Worker.work, Worker.doomed, howes]
      omega
    have hself : Worker.budget settings.spec { w with owes := false } = w.budget settings.spec := rfl
    have hwoken : ((t.workers.map Worker.notified).map (Worker.work crowd)).sum ≤
        (t.workers.map (Worker.work crowd)).sum + t.workers.length := by
      rw [List.map_map]
      calc (t.workers.map (Worker.work crowd ∘ Worker.notified)).sum
          ≤ (t.workers.map fun w => w.work crowd + 1).sum :=
            List.sum_le_sum fun w hw => (notified_work crowd (hconserved.ok w hw)).2
        _ = (t.workers.map (Worker.work crowd)).sum + t.workers.length := by
            rw [List.sum_map_add]
            simp
    have hmine := (notified_work crowd hok).1
    rw [hsame, notified_budget, hself] at hbudget
    unfold budget work
    dsimp only
    rw [if_neg (by simp)]
    omega
  · obtain ⟨accounts, hs⟩ := Watched.exists_reachable h
    have hinv := Watched.inv_of_reachable hmax hs
    have hmem := List.mem_of_getElem? hw
    have hcloser := hacts.closer howes (hconserved.ok w hmem) hinforms hmax (hinv.held w hmem)
      (hconserved.not_unaccounted hmem) crowd
    have hbudget := Threads.sum_set hw (Worker.budget settings.spec) w'
    have hwork := Threads.sum_set hw (Worker.work crowd) w'
    unfold Closer at hcloser
    unfold budget work
    dsimp only at hcloser ⊢
    omega

end Transfer

end Aex
