import Aex.Client.RetrySteps

/-!
# Retries are bounded

What a break or a refused fetch costs is one attempt of the chunk that was being
answered.  So the attempts that are left of all chunks together bound what a transfer
can go through.
-/

namespace Aex

open Lts

variable {n : Nat} {spec : FetchSpec} {settings : Settings} {sh sh' : Shared n} {w w' : Worker n}
  {event : Event} {c : Chunk n} {chunks : List (Chunk n)}

/-! ## What is left -/

/-- How often a chunk of a kind may still be charged. -/
def Chunk.left (spec : FetchSpec) (p : Fin n × Nat × Nat → Bool) (c : Chunk n) : Nat :=
  if p c.key then spec.maxRetries + 1 - c.attempts else 0

/-- Whether a chunk has been charged more than it may. -/
def Chunk.spent (spec : FetchSpec) (c : Chunk n) : Nat := if spec.maxRetries < c.attempts then 1 else 0

theorem Chunk.weigh_spent :
    weigh (spent spec) chunks = 0 ↔ ∀ c ∈ chunks, c.attempts ≤ spec.maxRetries := by
  induction chunks with
  | nil => simp
  | cons c chunks ih =>
      rw [weigh_cons, Nat.add_eq_zero_iff, ih, List.forall_mem_cons]
      simp [spent]

theorem Chunk.spent_again : weigh (spent spec) (c.again spec) = 0 := by
  rw [weigh_spent]
  unfold again
  split
  · rename_i hlt
    intro c hc
    rw [List.mem_singleton.mp hc]
    exact hlt
  · nofun

/-- A charge uses up one attempt. -/
theorem Chunk.left_again (hc : c.attempts ≤ spec.maxRetries) (p : Fin n × Nat × Nat → Bool) :
    count p [c] + weigh (left spec p) (c.again spec) = left spec p c := by
  have hkey : (Chunk.key { c with attempts := c.attempts + 1 }) = c.key := rfl
  unfold again left
  rw [count_cons, count_nil, Nat.zero_add]
  cases hp : p c.key with
  | false => split <;> simp [hkey, hp]
  | true =>
      split
      · simp [hkey, hp]
        omega
      · simp
        omega

theorem Worker.charged_cases : w.charged sh event = [] ∨ ∃ c ∈ w.chunks, w.charged sh event = [c] := by
  have hmem : ∀ x ∈ w.flight, x.chunk ∈ w.chunks := fun x hx =>
    List.mem_append_right _ (List.mem_append_right _ (List.mem_map_of_mem hx))
  unfold charged
  split
  · rename_i oldest _ hflight
    exact Or.inr ⟨_, hmem oldest (by simp [hflight]), rfl⟩
  · unfold refusal
    split
    · split
      · rename_i front rest _ hflight
        split
        · exact Or.inr ⟨_, hmem front (by simp [hflight]), rfl⟩
        · exact Or.inl rfl
      · exact Or.inl rfl
    · exact Or.inl rfl

section Left

variable (hact : w.act settings sh event = some (sh', w'))
  (hmax : settings.spec.maxRetries < 2 ^ 32 - 1)
  (hchunks : ∀ c ∈ w.chunks, c.attempts ≤ settings.spec.maxRetries)
include hact hmax hchunks

/-- What a step charges is taken from what is left. -/
theorem left_act (p : Fin n × Nat × Nat → Bool) :
    weighed (Chunk.left settings.spec p) sh' w' + Chunk.count p (w.charged sh event) ≤
      weighed (Chunk.left settings.spec p) sh w := by
  have hweighed := weighed_act hact hmax hchunks (Chunk.left settings.spec p)
  rcases @Worker.charged_cases _ sh w event with hnil | ⟨c, hc, hone⟩
  · rw [hnil] at hweighed ⊢
    simpa using hweighed
  · have hleft := Chunk.left_again (hchunks c hc) p
    rw [hone] at hweighed ⊢
    rw [List.flatMap_singleton, Chunk.weigh_cons, Chunk.weigh_nil] at hweighed
    omega

/-- No chunk is charged more than it may. -/
theorem spent_act (hqueue : ∀ c ∈ sh.state.queue, c.attempts ≤ settings.spec.maxRetries) :
    (∀ c ∈ sh'.state.queue, c.attempts ≤ settings.spec.maxRetries) ∧
      ∀ c ∈ w'.chunks, c.attempts ≤ settings.spec.maxRetries := by
  have hweighed := weighed_act hact hmax hchunks (Chunk.spent settings.spec)
  have hagain : Chunk.weigh (Chunk.spent settings.spec)
      ((w.charged sh event).flatMap (Chunk.again settings.spec)) = 0 := by
    rcases @Worker.charged_cases _ sh w event with hnil | ⟨c, -, hone⟩
    · rw [hnil]
      rfl
    · rw [hone, List.flatMap_singleton, Chunk.spent_again]
  unfold weighed at hweighed
  rw [Chunk.weigh_spent.mpr hqueue, Chunk.weigh_spent.mpr hchunks, hagain] at hweighed
  exact ⟨Chunk.weigh_spent.mp (by omega), Chunk.weigh_spent.mp (by omega)⟩

end Left

/-- What has not been charged yet still can be. -/
theorem Account.Good.length_le {a : Account n} (h : a.Good spec w)
    (hchunks : ∀ c ∈ w.chunks, c.attempts ≤ spec.maxRetries) : a.incidents.length ≤
      a.charged.length + Chunk.weigh (Chunk.left spec fun _ => true) w.chunks := by
  have holder : ∀ incidents : List (Incident n), (∀ incident ∈ incidents, incident.Settled spec []) →
      (incidents.flatMap Incident.charged).length = incidents.length := by
    intro incidents hsettled
    induction incidents with
    | nil => rfl
    | cons incident incidents ih =>
        rw [List.forall_mem_cons] at hsettled
        obtain ⟨oldest, behind, -, hcharged, -⟩ := hsettled.1
        simp only [List.flatMap_cons, List.length_append, hcharged, ih hsettled.2, List.length_cons,
          List.length_nil]
        omega
  cases hlist : a.incidents with
  | nil => exact Nat.zero_le _
  | cons newest older =>
      have hcount : a.charged.length = newest.charged.length + older.length := by
        rw [Account.charged, hlist, List.flatMap_cons, List.length_append,
          holder older (by simpa [hlist] using h.older)]
      rw [hcount, List.length_cons]
      by_cases hopen : w.recovers = true ∧ w.flight ≠ []
      · obtain ⟨x, rest, hflight⟩ := List.exists_cons_of_ne_nil hopen.2
        have hx : x.chunk ∈ w.chunks := by simp [Worker.chunks, Worker.inFlight, hflight]
        have hleft : Chunk.left spec (fun _ => true) x.chunk ≤
            Chunk.weigh (Chunk.left spec fun _ => true) w.chunks := by
          simp only [Worker.chunks, Worker.inFlight, hflight, List.map_cons, Chunk.weigh_append,
            Chunk.weigh_cons]
          omega
        have hx := hchunks _ hx
        simp only [Chunk.left, if_true] at hleft
        omega
      · have hdone : w.recovers = true → w.flight = [] := fun hrecovers => by
          by_contra hne
          exact hopen ⟨hrecovers, hne⟩
        obtain ⟨oldest, behind, -, hcharged, -⟩ := h.handled hdone newest (by rw [hlist]; rfl)
        rw [hcharged, List.length_singleton]
        omega

/-! ## Every interleaving -/

namespace Watched

/-- What holds of every state of every transfer of these parts. -/
structure Inv (spec : FetchSpec) (parts : Vector FetchPart n) (s : Watched n) : Prop where
  length : s.accounts.length = s.transfer.workers.length
  queued : ∀ c ∈ s.transfer.shared.state.queue, c.attempts ≤ spec.maxRetries
  held : ∀ w ∈ s.transfer.workers, ∀ c ∈ w.chunks, c.attempts ≤ spec.maxRetries
  good : ∀ (i : Nat) w a, s.transfer.workers[i]? = some w → s.accounts[i]? = some a → a.Good spec w
  /-- Charges made and charges left are as many as there may be. -/
  paid : ∀ p, (s.accounts.map fun a => Chunk.count p a.charged).sum +
    Chunk.weigh (Chunk.left spec p) s.transfer.shared.state.queue +
    (s.transfer.workers.map fun w => Chunk.weigh (Chunk.left spec p) w.chunks).sum ≤
      Chunk.count p (Transfer.chunksOf parts) * (spec.maxRetries + 1)

variable {s s' : Watched n} {pool : DataPool} {parts : Vector FetchPart n} {i : Nat}

theorem inv_start : (start pool parts).Inv spec parts where
  length := by simp [start]
  queued := by
    intro c hc
    simp only [start, Transfer.start, Transfer.chunksOf, List.mem_flatMap, List.mem_map] at hc
    obtain ⟨k, -, range, -, rfl⟩ := hc
    exact Nat.zero_le _
  held := by
    intro w hw c hc
    obtain ⟨held, -, rfl⟩ := List.mem_map.mp hw
    cases hc
  good := by
    intro i w a hw ha
    obtain ⟨held, -, rfl⟩ := List.mem_map.mp (List.mem_of_getElem? hw)
    obtain ⟨_, -, rfl⟩ := List.mem_map.mp (List.mem_of_getElem? ha)
    exact ⟨(fun _ h => by cases h), (fun _ _ h => by cases h), (fun _ h => by cases h),
      (fun h => by cases h), (fun _ _ h => by cases h), (fun _ h => by cases h)⟩
  paid := by
    intro p
    have hcharged : ((start pool parts).accounts.map fun a => Chunk.count p a.charged).sum = 0 := by
      refine List.sum_eq_zero fun m hm => ?_
      obtain ⟨a, ha, rfl⟩ := List.mem_map.mp hm
      obtain ⟨_, -, rfl⟩ := List.mem_map.mp ha
      rfl
    have hheld : ((start pool parts).transfer.workers.map fun w =>
        Chunk.weigh (Chunk.left spec p) w.chunks).sum = 0 := by
      refine List.sum_eq_zero fun m hm => ?_
      obtain ⟨w, hw, rfl⟩ := List.mem_map.mp hm
      obtain ⟨held, -, rfl⟩ := List.mem_map.mp hw
      rfl
    have hfull : ∀ chunks : List (Chunk n), (∀ c ∈ chunks, c.attempts = 0) →
        Chunk.weigh (Chunk.left spec p) chunks = Chunk.count p chunks * (spec.maxRetries + 1) := by
      intro chunks hfresh
      induction chunks with
      | nil => simp
      | cons c chunks ih =>
          rw [List.forall_mem_cons] at hfresh
          rw [Chunk.weigh_cons, Chunk.count_cons, ih hfresh.2, Chunk.left, hfresh.1, Nat.sub_zero,
            Nat.add_mul]
          cases p c.key with
          | false => simp
          | true => simp [Nat.add_comm]
    rw [hcharged, hheld, Nat.zero_add, Nat.add_zero]
    refine (hfull _ ?_).le
    intro c hc
    simp only [start, Transfer.start, Transfer.chunksOf, List.mem_flatMap, List.mem_map] at hc
    obtain ⟨k, -, range, -, rfl⟩ := hc
    rfl

theorem notified_good {a : Account n} (h : a.Good spec w) : a.Good spec w.notified := by
  rcases Transfer.notified_cases w with hsame | ⟨hpc, hsame⟩
  · rwa [hsame]
  · rw [hsame]
    have hw : w.calm := by simp [Worker.calm, Worker.recovers, hpc, Pc.returning]
    exact Account.good_of_settled (h.settled hw) ⟨rfl, rfl⟩ (fun _ h => by cases h)
      (fun _ _ h => by cases h) h.returns

theorem notified_chunks : w.notified.chunks = w.chunks := by
  rcases Transfer.notified_cases w with hsame | ⟨hpc, hsame⟩
  · rw [hsame]
  · simp [hsame, Worker.chunks, Worker.inFlight, hpc, Pc.fresh, Pc.inHand]

theorem inv_notify (h : s.Inv spec parts) (hw : s.transfer.workers[i]? = some w) :
    Inv spec parts ⟨{ s.transfer with
      workers := (s.transfer.workers.map Worker.notified).set i { w with owes := false } },
      s.accounts⟩ := by
  have hw' : (s.transfer.workers.map Worker.notified)[i]? = some w.notified := by simp [hw]
  have hsame : Worker.chunks { w with owes := false } = w.chunks := rfl
  refine ⟨by simp [h.length], h.queued, ?_, ?_, ?_⟩
  · refine Threads.forall_mem_set ?_ ?_
    · intro x hx
      obtain ⟨y, hy, rfl⟩ := List.mem_map.mp hx
      rw [notified_chunks]
      exact h.held y hy
    · rw [hsame]
      exact h.held w (List.mem_of_getElem? hw)
  · intro j x a hx ha
    have hx : ((s.transfer.workers.map Worker.notified).set i { w with owes := false })[j]? = some x :=
      hx
    by_cases hij : i = j
    · subst hij
      rw [List.getElem?_set_self (List.getElem?_eq_some_iff.mp hw').1, Option.some.injEq] at hx
      subst hx
      have hgood := h.good i w a hw ha
      exact ⟨hgood.taken, hgood.flying, hgood.returns, hgood.handling, hgood.handled, hgood.older⟩
    · rw [List.getElem?_set_ne hij, List.getElem?_map, Option.map_eq_some_iff] at hx
      obtain ⟨y, hy, rfl⟩ := hx
      exact notified_good (h.good j y a hy ha)
  · intro p
    have hsum := Threads.sum_set hw' (fun w => Chunk.weigh (Chunk.left spec p) w.chunks)
      { w with owes := false }
    have hall : ((s.transfer.workers.map Worker.notified).map fun w =>
        Chunk.weigh (Chunk.left spec p) w.chunks) =
        s.transfer.workers.map fun w => Chunk.weigh (Chunk.left spec p) w.chunks := by
      simp [List.map_map, Function.comp_def, notified_chunks]
    have := h.paid p
    rw [hall, notified_chunks, hsame] at hsum
    dsimp only
    omega

theorem inv_act (hmax : settings.spec.maxRetries < 2 ^ 32 - 1) (h : s.Inv settings.spec parts)
    (hw : s.transfer.workers[i]? = some w) (hok : w.Ok)
    (hact : w.act settings s.transfer.shared event = some (sh', w')) :
    Inv settings.spec parts ⟨⟨sh', s.transfer.workers.set i w'⟩, s.accounts.modify i fun a =>
      a.record s.transfer.shared sh' w w' event⟩ := by
  have hchunks := h.held w (List.mem_of_getElem? hw)
  obtain ⟨hqueued, hheld⟩ := spent_act hact hmax hchunks h.queued
  have hlt : i < s.accounts.length := h.length ▸ (List.getElem?_eq_some_iff.mp hw).1
  obtain ⟨a, ha⟩ : ∃ a, s.accounts[i]? = some a := ⟨_, List.getElem?_eq_getElem hlt⟩
  have hgood := h.good i w a hw ha
  rw [Threads.modify_eq_set ha]
  refine ⟨by simp [h.length], hqueued, Threads.forall_mem_set h.held hheld, ?_, ?_⟩
  · intro j x b hx hb
    have hx : (s.transfer.workers.set i w')[j]? = some x := hx
    have hb : (s.accounts.set i (a.record s.transfer.shared sh' w w' event))[j]? = some b := hb
    by_cases hij : i = j
    · subst hij
      rw [List.getElem?_set_self (List.getElem?_eq_some_iff.mp hw).1, Option.some.injEq] at hx
      rw [List.getElem?_set_self hlt, Option.some.injEq] at hb
      subst hx hb
      exact hgood.record hact hok hmax hchunks
    · rw [List.getElem?_set_ne hij] at hx hb
      exact h.good j x b hx hb
  · intro p
    have hworkers := Threads.sum_set hw
      (fun w => Chunk.weigh (Chunk.left settings.spec p) w.chunks) w'
    have haccounts := Threads.sum_set ha (fun a => Chunk.count p a.charged)
      (a.record s.transfer.shared sh' w w' event)
    have hcharged := @Account.Good.record_charged _ settings.spec s.transfer.shared sh' w w' event a
      hgood p
    have hleft := left_act hact hmax hchunks p
    have := h.paid p
    unfold weighed at hleft
    dsimp only at hworkers haccounts ⊢
    omega

theorem inv_of_reachable (hmax : settings.spec.maxRetries < 2 ^ 32 - 1)
    (h : (system settings pool parts).Reachable s) : s.Inv settings.spec parts := by
  induction h with
  | init hs =>
      rw [system, System.ofFn_init] at hs
      subst hs
      exact inv_start
  | @step s s' label hr _ hs ih =>
      obtain ⟨htransfer, w, hw, ⟨howes, haccounts⟩ | ⟨sh', w', -, hact, ht, haccounts⟩⟩ :=
        step_cases hs
      · obtain ⟨x, hx, ⟨-, -, ht⟩ | ⟨_, _, howes', -, -⟩⟩ := Transfer.step_cases htransfer
        · obtain rfl := Option.some.inj (hw.symm.trans hx)
          have hs' : s' = ⟨s'.transfer, s'.accounts⟩ := rfl
          rw [hs', ht, haccounts]
          exact inv_notify ih hw
        · obtain rfl := Option.some.inj (hw.symm.trans hx)
          rw [howes] at howes'
          cases howes'
      · have hok := (Transfer.conserved (reachable_transfer hr)).ok w (List.mem_of_getElem? hw)
        have hs' : s' = ⟨s'.transfer, s'.accounts⟩ := rfl
        rw [hs', ht, haccounts]
        exact inv_act hmax ih hw hok hact

/-- The queue is taken from and put back to at its front. -/
theorem queue_front {label : Nat × Event} (h : s.step settings label = some s') :
    s'.transfer.shared.state.queue <:+ s.transfer.shared.state.queue ∨
      s.transfer.shared.state.queue <:+ s'.transfer.shared.state.queue := by
  cases label with | mk i event =>
  obtain ⟨htransfer, -⟩ := step_cases h
  obtain ⟨w, -, ⟨-, -, ht⟩ | ⟨sh', w', -, hacts, ht⟩⟩ := Transfer.step_cases htransfer
  · rw [ht]
    exact Or.inl List.suffix_rfl
  rw [ht]
  have htaken : (s.transfer.shared.taken settings.spec w.flight).state.queue <:+
      s.transfer.shared.state.queue :=
    ⟨_, s.transfer.shared.state.fresh_append_rest settings.spec w.flight⟩
  cases hacts with
  | toppedUp | finished | unaccounted | waits => exact Or.inl htaken
  | gaveBack => exact Or.inr (List.suffix_append _ _)
  | requeues => exact Or.inr (List.suffix_cons _ _)
  | accepted hpc hheld hflight htype hformed hdata hfront hnext =>
      rcases hnext with ⟨-, rfl, rfl⟩ | ⟨-, rfl, rfl⟩
      · exact Or.inl List.suffix_rfl
      · exact Or.inl List.suffix_rfl
  | _ => exact Or.inl List.suffix_rfl

/-- What a transfer of these parts may retry. -/
structure Budget (spec : FetchSpec) (parts : Vector FetchPart n) (s : Watched n) : Prop where
  /-- A break or a refused fetch charges the oldest chunk that was in flight and no other;
  until then chunks behind it go back. -/
  handled : ∀ (i : Nat) w a, s.transfer.workers[i]? = some w → s.accounts[i]? = some a →
    ∀ incident ∈ a.incidents, incident.Settled spec [] ∨
      a.incidents.head? = some incident ∧
        (incident.Open w ∨ incident.Settled spec w.pc.returning)
  joined : s.transfer.Joined → ∀ a ∈ s.accounts, ∀ incident ∈ a.incidents, incident.Settled spec []
  returned : ∀ a ∈ s.accounts, ∀ r ∈ a.returns, r.taken = r.asked ++ r.back
  charges : ∀ key, (s.accounts.flatMap Account.charged).countP (fun c => c.key = key) ≤
    (Transfer.chunksOf parts).countP (fun c => c.key = key) * (spec.maxRetries + 1)
  incidents : (s.accounts.flatMap Account.incidents).length ≤
    (Transfer.chunksOf parts).length * (spec.maxRetries + 1)

theorem Inv.handled (h : s.Inv spec parts) {a : Account n} (hw : s.transfer.workers[i]? = some w)
    (ha : s.accounts[i]? = some a) {incident : Incident n} (hincident : incident ∈ a.incidents) :
    incident.Settled spec [] ∨ a.incidents.head? = some incident ∧
      (incident.Open w ∨ incident.Settled spec w.pc.returning) := by
  have hgood := h.good i w a hw ha
  cases hlist : a.incidents with
  | nil =>
      rw [hlist] at hincident
      cases hincident
  | cons newest older =>
      rw [hlist] at hincident
      rcases List.mem_cons.mp hincident with rfl | hincident
      · refine Or.inr ⟨rfl, ?_⟩
        by_cases hopen : w.recovers = true ∧ w.flight ≠ []
        · obtain ⟨newest, hhead, hopen⟩ := hgood.handling hopen.1 hopen.2
          rw [hlist, List.head?_cons, Option.some.injEq] at hhead
          exact Or.inl (hhead ▸ hopen)
        · refine Or.inr (hgood.handled (fun hrecovers => ?_) incident (by rw [hlist]; rfl))
          by_contra hne
          exact hopen ⟨hrecovers, hne⟩
      · exact Or.inl (hgood.older incident (by simpa [hlist] using hincident))

/-- However the connections fail and the threads take turns, each failure costs one
attempt of one chunk, whatever else was in flight. -/
theorem budget_of_reachable (hmax : settings.spec.maxRetries < 2 ^ 32 - 1)
    (h : (system settings pool parts).Reachable s) :
    s.Budget settings.spec parts ∧ ∀ label s', s.step settings label = some s' →
      s'.transfer.shared.state.queue <:+ s.transfer.shared.state.queue ∨
        s.transfer.shared.state.queue <:+ s'.transfer.shared.state.queue := by
  have hinv := inv_of_reachable hmax h
  have hworker : ∀ a ∈ s.accounts, ∃ (i : Nat) (w : Worker n), s.accounts[i]? = some a ∧
      s.transfer.workers[i]? = some w := by
    intro a ha
    obtain ⟨i, hlt, rfl⟩ := List.mem_iff_getElem.mp ha
    have hlt' : i < s.transfer.workers.length := hinv.length ▸ hlt
    exact ⟨i, _, List.getElem?_eq_getElem hlt, List.getElem?_eq_getElem hlt'⟩
  refine ⟨⟨fun i w a hw ha incident => hinv.handled hw ha, ?_, ?_, ?_, ?_⟩,
    fun label s' => queue_front⟩
  · intro hjoined a ha incident hincident
    obtain ⟨i, w, ha, hw⟩ := hworker a ha
    have hgone := (hjoined w (List.mem_of_getElem? hw)).1
    have hw' : w.calm := by simp [Worker.calm, Worker.recovers, hgone, Pc.returning]
    exact (hinv.good i w a hw ha).settled hw' incident hincident
  · intro a ha r hr
    obtain ⟨i, w, ha, hw⟩ := hworker a ha
    exact (hinv.good i w a hw ha).returns r hr
  · intro key
    have hpaid := hinv.paid fun k => decide (k = key)
    simp only [Chunk.count] at hpaid
    rw [List.countP_flatMap]
    simp only [Function.comp_def]
    omega
  · have hpaid := hinv.paid fun _ => true
    simp only [Transfer.chunk_count_true] at hpaid
    have hsum : (s.accounts.map fun a => a.incidents.length).sum ≤
        (s.accounts.map fun a => a.charged.length).sum + (s.transfer.workers.map fun w =>
          Chunk.weigh (Chunk.left settings.spec fun _ => true) w.chunks).sum := by
      apply Threads.sum_le_sum_add hinv.length
      intro i a w ha hw
      exact (hinv.good i w a hw ha).length_le (hinv.held w (List.mem_of_getElem? hw))
    rw [List.length_flatMap]
    omega

/-! ## A connection that breaks, and one that is refused -/

/-- A chunk may be tried twice, and two may be in flight on a connection. -/
def onceMore : Settings := { Transfer.rawSettings with spec := ⟨2, 1⟩ }

def twoHalves : Vector FetchPart 1 :=
  #v[⟨1, Vector.replicate 16 7, [(0, 2), (2, 2)], [0, 0, 0, 0]⟩]

/-- Both halves are asked for. -/
def bothAsked : List (Nat × Event) :=
  [(0, .proceed), (0, .proceed), (0, .sent (.ok ())), (0, .sent (.ok ())), (0, .proceed)]

/-- The connection breaks, and the thread puts the halves back. -/
def bothBack : List (Nat × Event) :=
  [(0, .received (.noHeader (.io .unexpectedEof "failed to fill whole buffer"))), (0, .proceed),
    (0, .proceed), (0, .proceed), (0, .proceed), (0, .proceed)]

/-- Both halves go back in their order, and only the first is charged. -/
theorem budget_of_reachable_break : ∃ s : Watched 1,
    (system onceMore Transfer.onePool twoHalves).Reachable s ∧ s.Budget onceMore.spec twoHalves ∧
      s.transfer.shared.state.queue = [⟨0, 0, 2, 1⟩, ⟨0, 2, 2, 0⟩] ∧
      s.accounts.flatMap Account.charged = [⟨0, 0, 2, 0⟩] := by
  have hrun : ((bothAsked ++ bothBack).foldlM
        (step onceMore) (start Transfer.onePool twoHalves)).map
      (fun s => (s.transfer.shared.state.queue, s.accounts.flatMap Account.charged)) =
        some ([⟨0, 0, 2, 1⟩, ⟨0, 2, 2, 0⟩], [⟨0, 0, 2, 0⟩]) := by decide +kernel
  obtain ⟨s, hs, heq⟩ := Option.map_eq_some_iff.mp hrun
  rw [Prod.mk.injEq] at heq
  have hreached : (system onceMore Transfer.onePool twoHalves).Reachable s :=
    System.reachable_of_run _ hs
  exact ⟨s, hreached, (budget_of_reachable (by decide) hreached).1, heq.1, heq.2⟩

/-- A retryable error about the connection charges nothing: it ends the transfer. -/
theorem connection_error_uncharged : ¬ ∀ (n : Nat) (settings : Settings) (pool : DataPool)
    (parts : Vector FetchPart n) (s s' : Watched n) (i : Nat) (header : FrameHeader)
    (payload : List UInt8) (error : ClientError), settings.spec.maxRetries < 2 ^ 32 - 1 →
    (system settings pool parts).Reachable s → header.frameType = .error →
    DataConn.receiveError payload = .ok error → error.isRetryable = true →
    s.step settings (i, .received (.frame header payload)) = some s' →
    ∃ c, (s'.accounts.flatMap Account.charged).Perm (c :: s.accounts.flatMap Account.charged) := by
  intro h
  have hrun : ((bothAsked.foldlM (step onceMore) (start Transfer.onePool twoHalves)).bind fun s =>
      (s.step onceMore (0, .received (.frame { frameType := .error, wireLen := 1 } [5]))).map fun s' =>
        (s.accounts.flatMap Account.charged, s'.accounts.flatMap Account.charged)) =
      some ([], []) := by decide +kernel
  obtain ⟨s, hs, hrun⟩ := Option.bind_eq_some_iff.mp hrun
  obtain ⟨s', hs', heq⟩ := Option.map_eq_some_iff.mp hrun
  rw [Prod.mk.injEq] at heq
  obtain ⟨c, hperm⟩ := h 1 onceMore Transfer.onePool twoHalves s s' 0 _ _ _ (by decide)
    (System.reachable_of_run _ hs) rfl rfl (by decide) hs'
  rw [heq.1, heq.2] at hperm
  exact List.cons_ne_nil _ _ hperm.nil_eq.symm

end Watched

end Aex
