import Aex.Client.RetryLedger

/-!
# What one step retries

A step moves chunks as they are or drops them, but for the one that it charges, and
keeps the ledger of its thread true.
-/

namespace Aex

open Lts

variable {n : Nat} {spec : FetchSpec} {settings : Settings} {sh sh' : Shared n} {w w' : Worker n}
  {event : Event} {c : Chunk n} {f : Chunk n → Nat} {chunks more : List (Chunk n)}

/-! ## Attempts -/

theorem Chunk.retried_charged (hmax : spec.maxRetries < 2 ^ 32 - 1)
    (hc : c.attempts ≤ spec.maxRetries) : (c.retried spec true).toList = c.again spec := by
  have hsum : Word.wrappingAdd 32 c.attempts true.toNat = c.attempts + 1 :=
    Nat.mod_eq_of_lt (by simp only [Bool.toNat_true, Word.size]; omega)
  unfold Chunk.retried Chunk.again
  rw [hsum]
  by_cases hlt : c.attempts < spec.maxRetries
  · rw [if_neg (by omega), if_pos hlt]
    rfl
  · rw [if_pos (by omega), if_neg hlt]
    rfl

theorem Chunk.retried_uncharged (hmax : spec.maxRetries < 2 ^ 32 - 1)
    (hc : c.attempts ≤ spec.maxRetries) : c.retried spec false = some c := by
  have hsum : Word.wrappingAdd 32 c.attempts false.toNat = c.attempts :=
    Nat.mod_eq_of_lt (by simp only [Bool.toNat_false, Word.size]; omega)
  unfold Chunk.retried
  rw [hsum]
  exact if_neg (Nat.not_lt.mpr hc)

/-- The weight of some chunks. -/
def Chunk.weigh (f : Chunk n → Nat) (chunks : List (Chunk n)) : Nat := (chunks.map f).sum

@[simp] theorem Chunk.weigh_nil : weigh f [] = 0 := rfl

@[simp] theorem Chunk.weigh_cons : weigh f (c :: chunks) = f c + weigh f chunks := by
  simp [weigh]

@[simp] theorem Chunk.weigh_append : weigh f (chunks ++ more) = weigh f chunks + weigh f more := by
  simp [weigh]

/-! ## Steps -/

theorem Worker.refusal_eq_nil (hpc : w.pc ≠ .reading) : w.refusal sh event = [] := by
  unfold refusal
  split
  · split
    · contradiction
    · rfl
  · rfl

section Receive

variable {conn : DataConn} {front : InFlight n} {rest : List (InFlight n)}

/-- A thread that got an error frame goes on to requeue a chunk just when the frame
refuses its oldest fetch for the time being. -/
theorem errorFrame_spec (hpc : w.pc = .reading) (hflight : w.flight = front :: rest)
    {header : FrameHeader} {payload : List UInt8} (htype : header.frameType = .error)
    (hsize : Worker.oversized header = false)
    (h : w.errorFrame settings sh conn front rest header payload = (sh', w')) :
    (w.refusal sh (.received (.frame header payload)) = [] ∧
      ∀ again after, w'.pc ≠ .requeuing again after) ∨
    (w.refusal sh (.received (.frame header payload)) = [front.chunk] ∧
      sh'.state.queue = sh.state.queue ∧ w'.flight = rest ∧
      ((∃ again, front.chunk.retried settings.spec true = some again ∧
        w'.pc = .requeuing again none) ∨
      front.chunk.retried settings.spec true = none ∧ ∃ error, w'.pc = .failing error false)) := by
  have hbroke : ∀ (x : Worker n) e again after, (x.broke e).pc ≠ .requeuing again after := by
    intro x e again after
    unfold Worker.broke
    dsimp only
    split <;> simp
  simp only [Worker.refusal, hpc, hflight, FrameHeader.retries, htype, hsize, decide_true,
    Bool.not_false, Bool.true_and]
  unfold Worker.errorFrame at h
  cases hreceived : DataConn.receiveError payload with
  | error e =>
      rw [hreceived] at h
      cases h
      exact Or.inl ⟨by simp, hbroke _ _⟩
  | ok error =>
      rw [hreceived] at h
      dsimp only at h
      split at h
      · rename_i hzero
        cases h
        exact Or.inl ⟨by simp [hzero], hbroke _ _⟩
      rename_i hid
      split at h
      · rename_i haddress
        cases h
        refine Or.inl ⟨if_neg ?_, hbroke _ _⟩
        simp only [Bool.and_eq_true, decide_eq_true_eq]
        rintro ⟨⟨⟨-, hsame⟩, hoffset⟩, -⟩
        exact haddress.elim (fun hne => hne hsame) fun hne => hne hoffset
      rename_i haddress
      simp only [ne_eq, not_or, not_not] at haddress
      cases hretryable : error.isRetryable with
      | false =>
          simp only [hretryable, Bool.false_eq_true, if_false] at h
          cases h
          exact Or.inl ⟨by simp [hretryable], fun _ _ => by simp⟩
      | true =>
          simp only [hretryable, if_true] at h
          refine Or.inr ⟨if_pos ?_, ?_⟩
          · simp only [Bool.and_eq_true, decide_eq_true_eq]
            exact ⟨⟨⟨hid, haddress.1⟩, haddress.2⟩, hretryable⟩
          cases hagain : front.chunk.retried settings.spec true with
          | none =>
              rw [hagain] at h
              cases h
              exact ⟨rfl, rfl, Or.inr ⟨rfl, _, rfl⟩⟩
          | some again =>
              rw [hagain] at h
              cases h
              exact ⟨rfl, rfl, Or.inl ⟨again, rfl, rfl⟩⟩

theorem dataFrame_pc {header : FrameHeader} {payload : List UInt8} {failure : Option IoFailure}
    (h : w.dataFrame settings sh conn front rest header payload failure = (sh', w'))
    (again : Chunk n) (after : Option (ClientError × Bool)) : w'.pc ≠ .requeuing again after := by
  unfold Worker.dataFrame at h
  dsimp only at h
  split at h
  · cases h
    unfold Worker.broke
    dsimp only
    split <;> simp
  · split at h
    · cases h
      simp
    · cases h
      simp

end Receive

/-- A step refuses the oldest fetch for the time being, or requeues nothing that was
being answered. -/
theorem refusal_spec (h : w.act settings sh event = some (sh', w')) :
    (w.refusal sh event = [] ∧
      (w.pc = .reading → ∀ again after, w'.pc ≠ .requeuing again after)) ∨
    ∃ front rest, w.pc = .reading ∧ w.flight = front :: rest ∧
      w.refusal sh event = [front.chunk] ∧ sh'.state.queue = sh.state.queue ∧ w'.flight = rest ∧
      ((∃ again, front.chunk.retried settings.spec true = some again ∧
        w'.pc = .requeuing again none) ∨
      front.chunk.retried settings.spec true = none ∧ ∃ error, w'.pc = .failing error false) := by
  have hbroke : ∀ (x : Worker n) e again after, (x.broke e).pc ≠ .requeuing again after := by
    intro x e again after
    unfold Worker.broke
    dsimp only
    split <;> simp
  by_cases hpc : w.pc = .reading
  swap
  · exact Or.inl ⟨Worker.refusal_eq_nil hpc, fun h => absurd h hpc⟩
  cases event with
  | proceed | spawnFailed _ | sent _ | woken => simp [Worker.act, hpc] at h
  | connected outcome => cases outcome <;> simp [Worker.act, hpc] at h
  | received incoming =>
      simp only [Worker.act, hpc] at h
      split at h
      rotate_left
      · cases h
      rename_i conn front rest _ hheld hflight
      split at h
      rotate_left
      · cases h
      replace h := Option.some.inj h
      cases incoming with
      | noHeader e =>
          cases h
          exact Or.inl ⟨rfl, fun _ => hbroke _ _⟩
      | cut header part failure =>
          refine Or.inl ⟨rfl, fun _ => ?_⟩
          unfold Worker.receive at h
          dsimp only at h
          split at h
          · exact dataFrame_pc h
          · split at h
            · cases h
              simp
            · cases h
              exact hbroke _ _
          · cases h
            exact hbroke _ _
      | frame header payload =>
          have hother : header.frameType ≠ .error →
              w.refusal sh (.received (.frame header payload)) = [] := by
            intro htype
            simp [Worker.refusal, hpc, hflight, FrameHeader.retries, htype]
          unfold Worker.receive at h
          dsimp only at h
          split at h
          · rename_i htype
            exact Or.inl ⟨hother (by simp [htype]), fun _ => dataFrame_pc h⟩
          · rename_i htype
            cases hsize : Worker.oversized header with
            | true =>
                simp only [hsize, if_true] at h
                cases h
                exact Or.inl ⟨by simp [Worker.refusal, hpc, hflight, FrameHeader.retries, hsize],
                  fun _ _ _ => by simp⟩
            | false =>
                simp only [hsize, Bool.false_eq_true, if_false] at h
                rcases errorFrame_spec hpc hflight htype hsize h with ⟨hnil, hnot⟩ | hrefused
                · exact Or.inl ⟨hnil, fun _ => hnot⟩
                · exact Or.inr ⟨front, rest, hpc, hflight, hrefused⟩
          · rename_i htype
            cases h
            exact Or.inl ⟨hother (by simp [htype]), fun _ _ _ => by simp⟩
          · rename_i htype
            cases h
            exact Or.inl ⟨hother (by simp [htype]), fun _ _ _ => by simp⟩
          · rename_i htype
            cases h
            exact Or.inl ⟨hother (by simp [htype]), fun _ => hbroke _ _⟩

/-- Chunks behind the oldest are not charged. -/
theorem Worker.charged_of_older {older : List (InFlight n)} {newest : InFlight n}
    (hflight : w.flight = older ++ [newest]) (holder : older ≠ [])
    (hrefusal : w.refusal sh event = []) : w.charged sh event = [] := by
  unfold Worker.charged
  split
  · rename_i heq
    rw [hflight] at heq
    cases older with
    | nil => exact absurd rfl holder
    | cons x older => simp at heq
  · exact hrefusal

/-- The weight of the chunks not yet complete that a thread can reach. -/
def weighed (f : Chunk n → Nat) (sh : Shared n) (w : Worker n) : Nat :=
  Chunk.weigh f sh.state.queue + Chunk.weigh f w.chunks

/-- A step moves chunks or drops them, but for the ones it charges. -/
theorem weighed_act (h : w.act settings sh event = some (sh', w'))
    (hmax : settings.spec.maxRetries < 2 ^ 32 - 1)
    (hchunks : ∀ c ∈ w.chunks, c.attempts ≤ settings.spec.maxRetries) (f : Chunk n → Nat) :
    weighed f sh' w' + Chunk.weigh f (w.charged sh event) ≤
      weighed f sh w + Chunk.weigh f ((w.charged sh event).flatMap (Chunk.again settings.spec)) := by
  rcases refusal_spec h with ⟨hrefusal, hnot⟩ | hrefused
  swap
  · obtain ⟨front, rest, hpc, hflight, hrefusal, hqueue, hflight', hagain⟩ := hrefused
    have hcharged : w.charged sh event = [front.chunk] := by
      simp [Worker.charged, hpc, hrefusal]
    have hfront : front.chunk.attempts ≤ settings.spec.maxRetries :=
      hchunks _ (by simp [Worker.chunks, Worker.inFlight, hflight])
    have hretried := Chunk.retried_charged hmax hfront
    rw [hcharged, List.flatMap_singleton, ← hretried]
    rcases hagain with ⟨again, hsome, hpc'⟩ | ⟨hnone, error, hpc'⟩
    · simp [weighed, Worker.chunks, Worker.inFlight, Pc.fresh, Pc.inHand, hpc, hpc', hflight, hflight',
        hqueue, hsome]
      omega
    · simp [weighed, Worker.chunks, Worker.inFlight, Pc.fresh, Pc.inHand, hpc, hpc', hflight, hflight',
        hqueue, hnone]
      omega
  have hbroke : ∀ (w : Worker n) e, Chunk.weigh f (w.broke e).chunks =
      Chunk.weigh f (w.flight.map InFlight.chunk) := by
    intro w e
    unfold Worker.broke Worker.chunks Worker.inFlight
    split <;> simp [Pc.fresh, Pc.inHand]
  have hcharged : (∀ e exhausted, w.pc ≠ .draining e exhausted) → w.charged sh event = [] := by
    intro hpc
    unfold Worker.charged
    split
    · rename_i heq _
      exact absurd heq (hpc _ _)
    · exact hrefusal
  have htaken : Chunk.weigh f (sh.taken settings.spec w.flight).state.queue +
      Chunk.weigh f (sh.state.fresh settings.spec w.flight) = Chunk.weigh f sh.state.queue := by
    rw [← sh.state.fresh_append_rest settings.spec w.flight, Chunk.weigh_append, Nat.add_comm]
    rfl
  have hacts := acts_of_act h
  cases hacts with
  | @drains e exhausted hpc older newest hflight w' hnext =>
      have hnewest : newest.chunk.attempts ≤ settings.spec.maxRetries :=
        hchunks _ (by simp [Worker.chunks, Worker.inFlight, hflight])
      by_cases holder : older = []
      · subst holder
        have hone : w.charged sh .proceed = [newest.chunk] := by
          simp [Worker.charged, hpc, hflight]
        rw [hone, List.flatMap_singleton, ← Chunk.retried_charged hmax hnewest]
        rcases hnext with ⟨chunk, hretried, rfl⟩ | ⟨hretried, rfl⟩
        · simp only [decide_true] at hretried
          simp [weighed, Worker.chunks, Worker.inFlight, Pc.fresh, Pc.inHand, hpc, hflight, hretried]
          omega
        · simp only [decide_true] at hretried
          simp [weighed, Worker.chunks, Worker.inFlight, Pc.fresh, Pc.inHand, hpc, hflight, hretried]
      · rw [Worker.charged_of_older hflight holder hrefusal]
        simp only [holder, decide_false, Chunk.retried_uncharged hmax hnewest, Option.some.injEq,
          reduceCtorEq, false_and, or_false, exists_eq_left'] at hnext
        subst hnext
        simp [weighed, Worker.chunks, Worker.inFlight, Pc.fresh, Pc.inHand, hpc, hflight]
        omega
  | @drained e exhausted hpc hflight =>
      have hnone : w.charged sh .proceed = [] := by simp [Worker.charged, hflight, hrefusal]
      rw [hnone]
      cases exhausted <;> simp [weighed, Worker.chunks, Worker.inFlight, Pc.fresh, Pc.inHand, hpc]
  | refused hpc hheld hflight header payload htype hid hnext =>
      rw [hcharged (by simp [hpc])]
      rcases hnext with ⟨message, rfl⟩ | ⟨chunk, hretried, rfl⟩ | ⟨error, rfl⟩
      · simp [weighed, Worker.chunks, Worker.inFlight, Pc.fresh, Pc.inHand, hpc, hflight]
      · exact absurd rfl (hnot hpc chunk none)
      · simp [weighed, Worker.chunks, Worker.inFlight, Pc.fresh, Pc.inHand, hpc, hflight]
  | accepted hpc hheld hflight htype hformed hdata hfront hnext =>
      rw [hcharged (by simp [hpc])]
      rcases hnext with ⟨-, rfl, rfl⟩ | ⟨-, rfl, rfl⟩
      · simp [weighed, Worker.chunks, Worker.inFlight, Pc.fresh, Pc.inHand, hpc, hflight, hfront]
      · simp [weighed, Worker.chunks, Worker.inFlight, Pc.fresh, Pc.inHand, hpc, hflight, hfront]
  | unaccounted hpc hheld hflight hfresh =>
      rw [hcharged (by simp [hpc])]
      rw [hfresh, Chunk.weigh_nil, Nat.add_zero] at htaken
      rw [weighed, hbroke, htaken]
      simp [weighed, Worker.chunks, Worker.inFlight, Pc.fresh, Pc.inHand, hpc]
  | gaveNothing hpc | broken hpc | dataBroken hpc =>
      rw [hcharged (by simp [hpc])]
      rw [weighed, hbroke]
      simp [weighed, Worker.chunks, Worker.inFlight, Pc.fresh, Pc.inHand, hpc]
  | @gaveBack fresh e hpc =>
      rw [hcharged (by simp [hpc])]
      have hchunks' : Worker.chunks { w.broke e with owes := true } = (w.broke e).chunks := rfl
      rw [weighed, hchunks', hbroke]
      simp [weighed, Worker.chunks, Worker.inFlight, Pc.fresh, Pc.inHand, hpc]
      omega
  | @requeues chunk after hpc =>
      rw [hcharged (by simp [hpc])]
      rcases after with _ | ⟨e, exhausted⟩ <;>
        simp [weighed, Worker.chunks, Worker.inFlight, Worker.resumed, Pc.fresh, Pc.inHand, hpc] <;> omega
  | @fails e panicked hpc =>
      rw [hcharged (by simp [hpc])]
      cases panicked <;> simp [weighed, Worker.chunks, Worker.inFlight, Pc.fresh, Pc.inHand, hpc]
  | toppedUp hpc | finished hpc | waits hpc =>
      rw [hcharged (by simp [hpc])]
      simp_all [weighed, Worker.chunks, Worker.inFlight, Pc.fresh, Pc.inHand]
      try omega
  | _ =>
      rw [hcharged (by simp_all)]
      simp_all [weighed, Worker.chunks, Worker.inFlight, Pc.fresh, Pc.inHand]
      try omega

/-! ## The ledger of a thread -/

namespace Pc

/-- What a thread has still to ask for, once it has started to. -/
def asks : Pc n → Option (List (Chunk n))
  | .asking fresh | .givingBack fresh _ => some fresh
  | _ => none

/-- What it is about to put back on the queue. -/
def returning : Pc n → List (Chunk n)
  | .requeuing chunk _ => [chunk]
  | _ => []

end Pc

namespace Incident

/-- The oldest chunk was charged, and no other.  It went back if it may be tried again,
and after a break those behind it did as they were. -/
def Settled (spec : FetchSpec) (returning : List (Chunk n)) (incident : Incident n) : Prop :=
  ∃ oldest behind, incident.flight = oldest :: behind ∧ incident.charged = [oldest] ∧
    returning ++ incident.back = oldest.again spec ++ if incident.broke then behind else []

/-- So far only chunks behind the oldest went back, as they were. -/
def Open (w : Worker n) (incident : Incident n) : Prop :=
  incident.broke = true ∧ incident.charged = [] ∧ w.flight ≠ [] ∧
    incident.flight = w.flight.map InFlight.chunk ++ w.pc.returning ++ incident.back

end Incident

/-- What the ledger of a thread says. -/
structure Account.Good (spec : FetchSpec) (w : Worker n) (a : Account n) : Prop where
  taken : ∀ fresh, w.pc.asks = some fresh → a.taken = a.asked ++ fresh
  flying : ∀ fresh e, w.pc = .givingBack fresh e → e.isIo = true → w.flight ≠ []
  returns : ∀ r ∈ a.returns, r.taken = r.asked ++ r.back
  handling : w.recovers = true → w.flight ≠ [] →
    ∃ incident, a.incidents.head? = some incident ∧ incident.Open w
  handled : (w.recovers = true → w.flight = []) →
    ∀ incident, a.incidents.head? = some incident → incident.Settled spec w.pc.returning
  older : ∀ incident ∈ a.incidents.tail, incident.Settled spec []

/-- A thread is not handling any incident. -/
def Worker.calm (w : Worker n) : Prop := w.recovers = false ∧ w.pc.returning = []

section Record

variable {a b : Account n}

theorem Account.Good.settled (h : a.Good spec w) (hw : w.calm) :
    ∀ incident ∈ a.incidents, incident.Settled spec [] := by
  intro incident hincident
  cases hlist : a.incidents with
  | nil =>
      rw [hlist] at hincident
      cases hincident
  | cons newest older =>
      rw [hlist] at hincident
      rcases List.mem_cons.mp hincident with rfl | hincident
      · have := h.handled (by simp [hw.1]) incident (by simp [hlist])
        rwa [hw.2] at this
      · exact h.older incident (by simpa [hlist] using hincident)

theorem Account.good_of_settled (hsettled : ∀ incident ∈ a.incidents, incident.Settled spec [])
    (hw : w.calm) (htaken : ∀ fresh, w.pc.asks = some fresh → a.taken = a.asked ++ fresh)
    (hflying : ∀ fresh e, w.pc = .givingBack fresh e → e.isIo = true → w.flight ≠ [])
    (hreturns : ∀ r ∈ a.returns, r.taken = r.asked ++ r.back) : a.Good spec w where
  taken := htaken
  flying := hflying
  returns := hreturns
  handling := by simp [hw.1]
  handled := by
    intro _ incident hincident
    rw [hw.2]
    exact hsettled incident (List.mem_of_mem_head? hincident)
  older := fun incident hincident => hsettled incident (List.mem_of_mem_tail hincident)

theorem Account.note_incidents (hw : w.calm) : (a.note sh sh' w event).incidents = a.incidents := by
  unfold Account.note
  dsimp only
  split
  · rfl
  · rfl
  · rfl
  · rename_i hpc
    simp [Worker.calm, Worker.recovers, hpc] at hw
  · rename_i hpc
    simp [Worker.calm, Pc.returning, hpc] at hw
  · rfl

theorem Account.note_returns (hpc : ∀ fresh e, w.pc ≠ .givingBack fresh e) :
    (a.note sh sh' w event).returns = a.returns := by
  unfold Account.note
  dsimp only
  split
  · rfl
  · rfl
  · rename_i hgives
    exact absurd hgives (hpc _ _)
  · rfl
  · rfl
  · rfl

/-- A thread that goes on with nothing to ask for. -/
theorem Account.Good.idle (h : a.Good spec w) (hrefusal : w.refusal sh event = []) (hw : w.calm)
    (hpc : ∀ fresh e, w.pc ≠ .givingBack fresh e) (hw' : w'.calm) (hasks : w'.pc.asks = none) :
    (a.record sh sh' w w' event).Good spec w' := by
  have hrecord : a.record sh sh' w w' event = a.note sh sh' w event := by
    simp [Account.record, hw'.1, hrefusal]
  rw [hrecord]
  refine Account.good_of_settled ?_ hw' (by simp [hasks]) ?_ ?_
  · rw [Account.note_incidents hw]
    exact h.settled hw
  · intro fresh e hgives
    simp [hgives, Pc.asks] at hasks
  · rw [Account.note_returns hpc]
    exact h.returns

/-- A thread whose connection broke. -/
theorem Account.Good.breaks {e : ClientError} (h : a.Good spec w) (hrefusal : w.refusal sh event = [])
    (hw : w.calm) (hflight : e.isIo = true → w.flight ≠ [])
    (hreturns : ∀ r ∈ (a.note sh sh' w event).returns, r.taken = r.asked ++ r.back)
    (hpc : w'.pc = (w.broke e).pc) (hflight' : w'.flight = w.flight) :
    (a.record sh sh' w w' event).Good spec w' := by
  have hsettled := h.settled hw
  rw [← @Account.note_incidents _ sh sh' w event a hw] at hsettled
  cases he : e.isIo with
  | true =>
      have hpc : w'.pc = .draining e false := by simp [hpc, Worker.broke, he]
      have hrecovers : w'.recovers = true := by simp [Worker.recovers, hpc]
      have hrecord : a.record sh sh' w w' event = (a.note sh sh' w event).happened
          ⟨w.flight.map InFlight.chunk, true, [], []⟩ := by
        simp [Account.record, hw.1, hrecovers, hrefusal]
      rw [hrecord]
      refine ⟨by simp [hpc, Pc.asks], by simp [hpc], hreturns, fun _ _ => ?_, fun hnil => ?_, hsettled⟩
      · refine ⟨_, rfl, rfl, rfl, hflight' ▸ hflight he, ?_⟩
        simp [hflight', hpc, Pc.returning]
      · exact absurd (hnil hrecovers) (hflight' ▸ hflight he)
  | false =>
      have hpc : w'.pc = .clearing e false := by simp [hpc, Worker.broke, he]
      have hcalm : w'.calm := by simp [Worker.calm, Worker.recovers, hpc, Pc.returning]
      have hrecord : a.record sh sh' w w' event = a.note sh sh' w event := by
        simp [Account.record, hcalm.1, hrefusal]
      rw [hrecord]
      exact Account.good_of_settled hsettled hcalm (by simp [hpc, Pc.asks]) (by simp [hpc]) hreturns

/-- A thread that starts to ask, or goes on with it. -/
theorem Account.Good.asks {fresh : List (Chunk n)} (h : a.Good spec w)
    (hrefusal : w.refusal sh event = []) (hw : w.calm) (hpc : ∀ fresh e, w.pc ≠ .givingBack fresh e)
    (hw' : w'.calm) (hasks : w'.pc.asks = some fresh)
    (htaken : (a.note sh sh' w event).taken = (a.note sh sh' w event).asked ++ fresh)
    (hflying : ∀ fresh e, w'.pc = .givingBack fresh e → e.isIo = true → w'.flight ≠ []) :
    (a.record sh sh' w w' event).Good spec w' := by
  have hrecord : a.record sh sh' w w' event = a.note sh sh' w event := by
    simp [Account.record, hw'.1, hrefusal]
  rw [hrecord]
  refine Account.good_of_settled ?_ hw' ?_ hflying ?_
  · rw [Account.note_incidents hw]
    exact h.settled hw
  · intro fresh' hfresh
    obtain rfl := Option.some.inj (hasks.symm.trans hfresh)
    exact htaken
  · rw [Account.note_returns hpc]
    exact h.returns

theorem Account.settle_head? {charged back : List (Chunk n)} :
    (a.settle charged back).incidents.head? = a.incidents.head?.map fun incident =>
      { incident with charged := incident.charged ++ charged, back := back ++ incident.back } := by
  simp [Account.settle]

theorem Account.settle_tail {charged back : List (Chunk n)} :
    (a.settle charged back).incidents.tail = a.incidents.tail := by
  simp [Account.settle]

/-- A thread that puts chunks back, or has just finished to. -/
theorem Account.Good.settles {charged back : List (Chunk n)} (h : a.Good spec w)
    (hpc : w'.pc.asks = none)
    (hhandling : w'.recovers = true → w'.flight ≠ [] → ∃ incident, a.incidents.head? = some incident ∧
      Incident.Open w' { incident with
        charged := incident.charged ++ charged, back := back ++ incident.back })
    (hhandled : (w'.recovers = true → w'.flight = []) → ∀ incident,
      a.incidents.head? = some incident → Incident.Settled spec w'.pc.returning { incident with
        charged := incident.charged ++ charged, back := back ++ incident.back }) :
    (a.settle charged back).Good spec w' where
  taken := by simp [hpc]
  flying := by
    intro fresh e hgives
    simp [hgives, Pc.asks] at hpc
  returns := h.returns
  handling := by
    intro hrecovers hflight
    obtain ⟨incident, hhead, hopen⟩ := hhandling hrecovers hflight
    exact ⟨_, by rw [Account.settle_head?, hhead, Option.map_some], hopen⟩
  handled := by
    intro hdone incident hhead
    rw [Account.settle_head?, Option.map_eq_some_iff] at hhead
    obtain ⟨incident, hhead, rfl⟩ := hhead
    exact hhandled hdone incident hhead
  older := by
    rw [Account.settle_tail]
    exact h.older

/-- What a thread took off the queue, or put back, shows in its length. -/
theorem State.took_eq {state : State n} {flight : List (InFlight n)} :
    state.queue.take (state.queue.length - (state.rest spec flight).length) =
      state.fresh spec flight := by
  have hsplit := state.fresh_append_rest spec flight
  rw [← hsplit, List.length_append, Nat.add_sub_cancel, List.take_left]

theorem put_eq {queue front : List (Chunk n)} :
    (front ++ queue).take ((front ++ queue).length - queue.length) = front := by
  rw [List.length_append, Nat.add_sub_cancel, List.take_left]

/-- A step keeps the ledger true. -/
theorem Account.Good.record (h : a.Good settings.spec w)
    (hact : w.act settings sh event = some (sh', w')) (hok : w.Ok)
    (hmax : settings.spec.maxRetries < 2 ^ 32 - 1)
    (hchunks : ∀ c ∈ w.chunks, c.attempts ≤ settings.spec.maxRetries) :
    (a.record sh sh' w w' event).Good settings.spec w' := by
  rcases refusal_spec hact with ⟨hrefusal, hnot⟩ | hrefused
  swap
  · obtain ⟨front, rest, hpc, hflight, hrefusal, hqueue, hflight', hagain⟩ := hrefused
    have hw : w.calm := by simp [Worker.calm, Worker.recovers, hpc, Pc.returning]
    have hfront : front.chunk.attempts ≤ settings.spec.maxRetries :=
      hchunks _ (by simp [Worker.chunks, Worker.inFlight, hflight])
    have hretried := Chunk.retried_charged hmax hfront
    have hw' : w'.recovers = false ∧ w'.pc.asks = none ∧
        w'.pc.returning = front.chunk.again settings.spec := by
      rcases hagain with ⟨again, hsome, hpc'⟩ | ⟨hnone, error, hpc'⟩
      · rw [← hretried, hsome]
        simp [Worker.recovers, Pc.asks, Pc.returning, hpc']
      · rw [← hretried, hnone]
        simp [Worker.recovers, Pc.asks, Pc.returning, hpc']
    have hrecord : a.record sh sh' w w' event =
        a.happened ⟨w.flight.map InFlight.chunk, false, [front.chunk], []⟩ := by
      simp [Account.record, Account.note, hpc, hrefusal]
    rw [hrecord]
    refine ⟨by simp [hw'.2.1], fun fresh e hpc' => ?_, h.returns, by simp [hw'.1], ?_, h.settled hw⟩
    · have := hw'.2.1
      simp [hpc', Pc.asks] at this
    · rintro - incident ⟨⟩
      refine ⟨front.chunk, rest.map InFlight.chunk, by simp [hflight], rfl, ?_⟩
      simp [hw'.2.2]
  have hacts := acts_of_act hact
  cases hacts with
  | started hpc | notSpawned hpc | gaveUp hpc | reconnects hpc | reconnected hpc | notReconnected hpc
  | finished hpc | waits hpc | woken hpc | asked hpc | panicked hpc | pinged hpc | completes hpc
  | cleared hpc | leaves hpc =>
      have hw : w.calm := by simp [Worker.calm, Worker.recovers, hpc, Pc.returning]
      exact h.idle hrefusal hw (by simp [hpc]) ⟨rfl, rfl⟩ rfl
  | clears hpc =>
      have hw : w.calm := by simp [Worker.calm, Worker.recovers, hpc, Pc.returning]
      refine h.idle hrefusal hw (by simp [hpc]) hw ?_
      simp [hpc, Pc.asks]
  | @fails e panicked hpc =>
      have hw : w.calm := by simp [Worker.calm, Worker.recovers, hpc, Pc.returning]
      cases panicked with
      | true => exact h.idle hrefusal hw (by simp [hpc]) ⟨rfl, rfl⟩ rfl
      | false => exact h.idle hrefusal hw (by simp [hpc]) ⟨rfl, rfl⟩ rfl
  | accepted hpc hheld hflight htype hformed hdata hfront hnext =>
      have hw : w.calm := by simp [Worker.calm, Worker.recovers, hpc, Pc.returning]
      rcases hnext with ⟨-, rfl, rfl⟩ | ⟨-, rfl, rfl⟩
      · exact h.idle hrefusal hw (by simp [hpc]) ⟨rfl, rfl⟩ rfl
      · exact h.idle hrefusal hw (by simp [hpc]) ⟨rfl, rfl⟩ rfl
  | refused hpc hheld hflight header payload htype hid hnext =>
      have hw : w.calm := by simp [Worker.calm, Worker.recovers, hpc, Pc.returning]
      rcases hnext with ⟨message, rfl⟩ | ⟨chunk, hretried, rfl⟩ | ⟨error, rfl⟩
      · exact h.idle hrefusal hw (by simp [hpc]) ⟨rfl, rfl⟩ rfl
      · exact absurd rfl (hnot hpc chunk none)
      · exact h.idle hrefusal hw (by simp [hpc]) ⟨rfl, rfl⟩ rfl
  | toppedUp hpc =>
      have hw : w.calm := by simp [Worker.calm, Worker.recovers, hpc, Pc.returning]
      refine h.asks hrefusal hw (by simp [hpc]) ⟨rfl, rfl⟩ rfl ?_ (fun _ _ h => by cases h)
      simp only [Account.note, hpc, List.nil_append]
      exact State.took_eq
  | @notClaimed chunk fresh hpc outcome e hclaim =>
      have hw : w.calm := by simp [Worker.calm, Worker.recovers, hpc, Pc.returning]
      refine h.asks hrefusal hw (by simp [hpc]) ⟨rfl, rfl⟩ rfl ?_ ?_
      · simp only [Account.note, hpc, List.append_assoc]
        exact h.taken _ (by simp [hpc, Pc.asks])
      · rintro _ _ ⟨⟩ hio
        rw [ScatterBuffer.not_io_of_claim hclaim] at hio
        cases hio
  | @sent chunk fresh hpc =>
      have hw : w.calm := by simp [Worker.calm, Worker.recovers, hpc, Pc.returning]
      refine h.asks hrefusal hw (by simp [hpc]) ⟨rfl, rfl⟩ rfl ?_ (fun _ _ h => by cases h)
      simp only [Account.note, hpc, List.append_assoc]
      exact h.taken _ (by simp [hpc, Pc.asks])
  | @notSent chunk fresh hpc =>
      have hw : w.calm := by simp [Worker.calm, Worker.recovers, hpc, Pc.returning]
      refine h.asks hrefusal hw (by simp [hpc]) ⟨rfl, rfl⟩ rfl ?_ ?_
      · simp only [Account.note, hpc, List.append_assoc]
        exact h.taken _ (by simp [hpc, Pc.asks])
      · intro _ _ _ _
        exact List.append_ne_nil_of_right_ne_nil _ (List.cons_ne_nil _ _)
  | unaccounted hpc =>
      have hw : w.calm := by simp [Worker.calm, Worker.recovers, hpc, Pc.returning]
      refine h.breaks hrefusal hw (by simp [ClientError.isIo]) ?_ rfl rfl
      rw [Account.note_returns (by simp [hpc])]
      exact h.returns
  | broken hpc | dataBroken hpc =>
      have hw : w.calm := by simp [Worker.calm, Worker.recovers, hpc, Pc.returning]
      rw [Worker.Ok, hpc] at hok
      refine h.breaks hrefusal hw (fun _ => hok.2.2) ?_ rfl rfl
      rw [Account.note_returns (by simp [hpc])]
      exact h.returns
  | @gaveNothing e hpc =>
      have hw : w.calm := by simp [Worker.calm, Worker.recovers, hpc, Pc.returning]
      refine h.breaks hrefusal hw (h.flying _ _ hpc) ?_ rfl rfl
      simp only [Account.note, hpc, Nat.sub_self, List.take_zero, List.forall_mem_cons]
      exact ⟨h.taken _ (by simp [hpc, Pc.asks]), h.returns⟩
  | @gaveBack fresh e hpc =>
      have hw : w.calm := by simp [Worker.calm, Worker.recovers, hpc, Pc.returning]
      refine h.breaks hrefusal hw (h.flying _ _ hpc) ?_ rfl rfl
      simp only [Account.note, hpc, put_eq, List.forall_mem_cons]
      exact ⟨h.taken _ (by simp [hpc, Pc.asks]), h.returns⟩
  | @requeues chunk after hpc =>
      have hrecord : ∀ sh' : Shared n, sh'.state.queue = chunk :: sh.state.queue →
          a.record sh sh' w { w with owes := true, pc := Worker.resumed after } .proceed =
            a.settle [] [chunk] := by
        intro sh' hqueue
        cases after with
        | none =>
            simp [Account.record, Account.note, hpc, hrefusal, hqueue, Worker.recovers, Worker.resumed]
        | some after => simp [Account.record, Account.note, hpc, hrefusal, hqueue, Worker.recovers]
      rw [hrecord _ rfl]
      have hreturning : w.pc.returning = [chunk] := by rw [hpc, Pc.returning]
      cases after with
      | none =>
          refine h.settles rfl (fun h => by cases h) fun _ incident hhead => ?_
          obtain ⟨oldest, behind, hflight, hcharged, hback⟩ :=
            h.handled (by simp [Worker.recovers, hpc]) incident hhead
          rw [hreturning] at hback
          exact ⟨oldest, behind, hflight, by simp [hcharged], hback⟩
      | some after =>
          have hrecovers : w.recovers = true := by simp [Worker.recovers, hpc]
          refine h.settles rfl (fun _ hflight => ?_) fun hdone incident hhead => ?_
          · obtain ⟨incident, hhead, hbroke, hcharged, -, hflights⟩ := h.handling hrecovers hflight
            rw [hreturning] at hflights
            refine ⟨incident, hhead, hbroke, by simp [hcharged], hflight, ?_⟩
            simp [hflights, Worker.resumed, Pc.returning]
          · obtain ⟨oldest, behind, hflight, hcharged, hback⟩ :=
              h.handled (fun _ => hdone rfl) incident hhead
            rw [hreturning] at hback
            exact ⟨oldest, behind, hflight, by simp [hcharged], hback⟩
  | @drained e exhausted hpc hflight =>
      have hcharged : w.charged sh .proceed = [] := by simp [Worker.charged, hflight, hrefusal]
      have hrecovers : w.recovers = true := by simp [Worker.recovers, hpc]
      have hrecord : ∀ w' : Worker n, a.record sh sh w w' .proceed = a.settle [] [] := by
        intro w'
        simp [Account.record, Account.note, hpc, hrefusal, hcharged, hrecovers]
      have hsettled : ∀ incident, a.incidents.head? = some incident →
          incident.Settled settings.spec [] := by
        have := h.handled fun _ => hflight
        rwa [hpc] at this
      rw [hrecord]
      cases exhausted with
      | true =>
          refine h.settles rfl (fun h => by cases h) fun _ incident hhead => ?_
          simpa [Incident.Settled, Pc.returning] using hsettled incident hhead
      | false =>
          refine h.settles rfl (fun h => by cases h) fun _ incident hhead => ?_
          simpa [Incident.Settled, Pc.returning] using hsettled incident hhead
  | @drains e exhausted hpc older newest hflight w' hnext =>
      have hnewest : newest.chunk.attempts ≤ settings.spec.maxRetries :=
        hchunks _ (by simp [Worker.chunks, Worker.inFlight, hflight])
      have hrecovers : w.recovers = true := by simp [Worker.recovers, hpc]
      have hrecord : a.record sh (sh.release newest) w w' .proceed =
          a.settle (w.charged sh .proceed) [] := by
        simp [Account.record, Account.note, hpc, hrefusal, hrecovers]
      obtain ⟨incident, hhead, hbroke, hnone, -, hflights⟩ := h.handling hrecovers (by simp [hflight])
      have hreturning : w.pc.returning = [] := by simp [hpc, Pc.returning]
      rw [hreturning, hflight, List.append_nil] at hflights
      rw [hrecord]
      by_cases holder : older = []
      · -- The oldest: it was being answered.
        subst holder
        have hcharged : w.charged sh .proceed = [newest.chunk] := by
          simp [Worker.charged, hpc, hflight]
        have hagain := Chunk.retried_charged hmax hnewest
        have hw' : w'.flight = [] ∧ w'.pc.asks = none ∧
            w'.pc.returning = newest.chunk.again settings.spec := by
          simp only [decide_true] at hnext
          rcases hnext with ⟨chunk, hretried, rfl⟩ | ⟨hretried, rfl⟩
          · rw [← hagain, hretried]
            exact ⟨rfl, rfl, rfl⟩
          · rw [← hagain, hretried]
            exact ⟨rfl, rfl, rfl⟩
        rw [hcharged]
        refine h.settles hw'.2.1 (fun _ hne => absurd hw'.1 hne) fun _ incident' hhead' => ?_
        obtain rfl := Option.some.inj (hhead.symm.trans hhead')
        refine ⟨newest.chunk, incident.back, by simp [hflights], by simp [hnone], ?_⟩
        simp [hw'.2.2, hbroke]
      · -- One that was queued behind it.
        have hcharged := Worker.charged_of_older hflight holder hrefusal
        simp only [holder, decide_false, Chunk.retried_uncharged hmax hnewest, Option.some.injEq,
          reduceCtorEq, false_and, or_false, exists_eq_left'] at hnext
        subst hnext
        rw [hcharged]
        refine h.settles rfl (fun _ _ => ⟨incident, hhead, hbroke, by simp [hnone], holder, ?_⟩) ?_
        · simp [hflights, Pc.returning]
        · exact fun hdone => absurd (hdone rfl) holder

theorem Account.settle_charged {charged back : List (Chunk n)}
    (hsome : charged ≠ [] → a.incidents ≠ []) (p : Fin n × Nat × Nat → Bool) :
    Chunk.count p (a.settle charged back).charged =
      Chunk.count p a.charged + Chunk.count p charged := by
  cases hlist : a.incidents with
  | nil =>
      have hnil : charged = [] := by
        by_contra hne
        exact hsome hne hlist
      simp [Account.settle, Account.charged, hlist, hnil]
  | cons newest older =>
      simp [Account.settle, Account.charged, hlist]
      omega

theorem Worker.charged_eq_refusal (hpc : ∀ e exhausted, w.pc ≠ .draining e exhausted) :
    w.charged sh event = w.refusal sh event := by
  unfold charged
  split
  · rename_i heq _
    exact absurd heq (hpc _ _)
  · rfl

/-- The ledger charges what the step does. -/
theorem Account.Good.record_charged (h : a.Good spec w) (p : Fin n × Nat × Nat → Bool) :
    Chunk.count p (a.record sh sh' w w' event).charged =
      Chunk.count p a.charged + Chunk.count p (w.charged sh event) := by
  have hnote : Chunk.count p (a.note sh sh' w event).charged + Chunk.count p (w.refusal sh event) =
      Chunk.count p a.charged + Chunk.count p (w.charged sh event) := by
    cases hpc : w.pc with
    | draining e exhausted =>
        have hrefusal : w.refusal sh event = [] := Worker.refusal_eq_nil (by simp [hpc])
        have hsome : w.charged sh event ≠ [] → a.incidents ≠ [] := by
          intro hcharged hnil
          have hflight : w.flight ≠ [] := by
            intro hempty
            simp [Worker.charged, hempty, hrefusal] at hcharged
          obtain ⟨incident, hhead, -⟩ := h.handling (by simp [Worker.recovers, hpc]) hflight
          simp [hnil] at hhead
        simp [Account.note, hpc, hrefusal, Account.settle_charged hsome]
    | requeuing chunk after =>
        rw [Worker.charged_eq_refusal (by simp [hpc])]
        simp only [Account.note, hpc]
        rw [Account.settle_charged (fun h => absurd rfl h), Chunk.count_nil, Nat.add_zero]
    | asking fresh =>
        rw [Worker.charged_eq_refusal (by simp [hpc])]
        cases fresh with
        | nil => simp [Account.note, hpc]
        | cons chunk fresh => simp [Account.note, hpc, Account.charged]
    | head | givingBack =>
        rw [Worker.charged_eq_refusal (by simp [hpc])]
        simp [Account.note, hpc, Account.charged]
    | start | waiting | reconnecting | reading | completing | clearing | failing | leaving | gone =>
        rw [Worker.charged_eq_refusal (by simp [hpc])]
        simp [Account.note, hpc]
  unfold Account.record
  dsimp only
  split
  · rw [← hnote, Account.charged, Account.happened, List.flatMap_cons, Chunk.count_append, Nat.add_comm]
    rfl
  rename_i hrefusal
  rw [not_not.mp hrefusal, Chunk.count_nil, Nat.add_zero] at hnote
  split
  · exact hnote
  · exact hnote

end Record

end Aex
