import Aex.Server.TransferRuns

/-!
# Sessions sharing the transfer registry

The registry as a transition system, one call a step.  Its two indexes stay
consistent as long as a sweep gets one answer for a session that keeps a plan,
and one session's calls spare the plans of the others, as long as no insert
mints the id of a stored plan.
-/

namespace Aex

open Lts TransferRegistry

/-! ## Runs -/

/-- The calls on the registry; `random` is what the ticket's source returned. -/
inductive TransferCall (π : Type) where
  | insert (session : SessionId) (random : Option Ticket) (plan : π)
  | fetch (requestId : Nat) (ticket : Ticket) (session : SessionId)
  | touch (entry : TransferEntry π)
  | removeSession (session : SessionId)
  | sweep (isLive : Liveness)

/-- The registry, and the entries its calls have handed out. -/
structure Transfers (π : Type) where
  registry : TransferRegistry π
  handed : List (TransferEntry π)

namespace Transfers

variable {π : Type} {limits : Limits} {s t : Transfers π}

def new : Transfers π := ⟨.new, []⟩

/-- Keep what a call returned. -/
def hand : Except ServerError (TransferEntry π) × TransferRegistry π → Transfers π → Transfers π
  | (.ok e, r), s => ⟨r, e :: s.handed⟩
  | (.error _, r), s => ⟨r, s.handed⟩

/-- A call made at a time on the server's clock. -/
def call (limits : Limits) (s : Transfers π) : Nat × TransferCall π → Transfers π
  | (nowMs, .insert session random plan) =>
      hand (s.registry.insertAt limits session random plan nowMs) s
  | (nowMs, .fetch requestId ticket session) =>
      hand (s.registry.fetch limits nowMs requestId ticket session) s
  | (nowMs, .touch entry) => { s with registry := s.registry.touch entry nowMs }
  | (_, .removeSession session) => { s with registry := (s.registry.removeSession session).2 }
  | (nowMs, .sweep isLive) => { s with registry := (s.registry.sweepAt limits nowMs isLive).2 }

/-- Only an entry that was handed out can be touched. -/
def Enabled (s : Transfers π) : Nat × TransferCall π → Prop
  | (_, .touch entry) => entry ∈ s.handed
  | _ => True

/-- Calls by any sessions, in any order, at any times. -/
def system (π : Type) (limits : Limits) : System (Transfers π) (Nat × TransferCall π) where
  init s := s = new
  step s a t := s.Enabled a ∧ t = s.call limits a

/-- An insert that stores a plan mints an id that no stored plan has. -/
def FreshMint (s : Transfers π) : Nat × TransferCall π → Prop
  | (_, .insert _ (some _) _) => s.registry.entries.lookup s.registry.nextRequestId.1 = none
  | _ => True

/-- A sweep that keeps a plan is told later on that its session is live. -/
def Settled (limits : Limits) (s : Transfers π) : Nat × TransferCall π → Prop
  | (nowMs, .sweep isLive) => ∀ id e, s.registry.entries.lookup id = some e →
      s.registry.keptBy limits nowMs isLive id e = true → isLive.ofSession e.session = true
  | _ => True

theorem hand_registry (result : Except ServerError (TransferEntry π) × TransferRegistry π)
    (s : Transfers π) : (hand result s).registry = result.2 := by
  obtain ⟨_ | _, r⟩ := result <;> rfl

/-! ## Consistency of the two indexes -/

theorem listed_call (hcap : 0 < limits.maxTransfersPerSession) (h : s.registry.Listed limits)
    (a : Nat × TransferCall π) (hfresh : s.FreshMint a) :
    (s.call limits a).registry.Listed limits := by
  obtain ⟨nowMs, c⟩ := a
  cases c with
  | insert session random plan =>
      rw [call, hand_registry]
      cases random with
      | none =>
          rw [insertAt_none]
          exact h.mono rfl rfl
      | some ticket => exact h.insertAt hcap hfresh
  | fetch requestId ticket session =>
      rw [call, hand_registry]
      rcases fetch_cases limits s.registry nowMs requestId ticket session with
        ⟨error, heq⟩ | ⟨e, error, he, -, heq⟩ | ⟨e, -, -, -, -, heq⟩
      · rw [heq]
        exact h
      · rw [heq]
        exact h.remove he
      · rw [heq]
        exact h.mono rfl rfl
  | touch entry => exact h.mono rfl rfl
  | removeSession session => exact h.removeSession session
  | sweep isLive => exact h.sweepAt nowMs isLive

theorem filed_call {session : SessionId} (h : s.registry.Filed session) (a : Nat × TransferCall π)
    (hsettled : s.Settled limits a) : (s.call limits a).registry.Filed session := by
  obtain ⟨nowMs, c⟩ := a
  cases c with
  | insert other random plan =>
      rw [call, hand_registry]
      cases random with
      | none =>
          rw [insertAt_none]
          exact h.congr rfl rfl
      | some ticket => exact h.insertAt other ticket plan nowMs
  | fetch requestId ticket other =>
      rw [call, hand_registry]
      rcases fetch_cases limits s.registry nowMs requestId ticket other with
        ⟨error, heq⟩ | ⟨e, error, -, -, heq⟩ | ⟨e, -, -, -, -, heq⟩
      · rw [heq]
        exact h
      · rw [heq]
        exact h.remove requestId
      · rw [heq]
        exact h.congr rfl rfl
  | touch entry => exact h.congr rfl rfl
  | removeSession other => exact h.removeSession other
  | sweep isLive =>
      exact h.sweepAt fun id e he hsession hkept => hsession ▸ hsettled id e he hkept

theorem listed_new : (new : Transfers π).registry.Listed limits where
  own := by
    intro session id hid
    simp [new, TransferRegistry.new, idsOf] at hid
  nodup := by simp [new, TransferRegistry.new, idsOf]
  capped := by simp [new, TransferRegistry.new, idsOf]

theorem inductive_listed (hcap : 0 < limits.maxTransfersPerSession) :
    (system π limits).Inductive FreshMint fun s => s.registry.Listed limits where
  init := by
    rintro s rfl
    exact listed_new
  step := by
    rintro s t a h hfresh ⟨-, rfl⟩
    exact listed_call hcap h a hfresh

theorem inductive_indexed (hcap : 0 < limits.maxTransfersPerSession) :
    (system π limits).Inductive (fun s a => FreshMint s a ∧ Settled limits s a)
      fun s => s.registry.Indexed limits where
  init := by
    rintro s rfl
    exact ⟨listed_new, by simp [new, TransferRegistry.new]⟩
  step := by
    rintro s t a h ⟨hfresh, hsettled⟩ ⟨-, rfl⟩
    refine ⟨listed_call hcap h.toListed a hfresh, fun id e he => ?_⟩
    exact filed_call (fun id e' he' heq => heq ▸ h.complete id e' he') a hsettled id e he rfl

/-- Both indexes agree after every call of every run whose inserts mint unused
ids and whose sweeps do not see a session end between their two passes. -/
theorem consistent_of_settled (config : ValidConfig) (s : Transfers π)
    (h : (system π config.limits).ReachableWhere
      (fun s a => FreshMint s a ∧ Settled config.limits s a) s) :
    s.registry.Consistent config.limits :=
  ((inductive_indexed config.maxTransfers_pos).holds h).consistent

/-- Two sessions and their tickets, for runs on given calls. -/
def sessionA : SessionId := Vector.replicate 16 0

def sessionB : SessionId := Vector.replicate 16 1

theorem sessionA_ne_sessionB : sessionA ≠ sessionB := by decide

/-- A run of an insert and a sweep that finds the session live both times. -/
theorem consistent_of_settled_after_sweep :
    ((new : Transfers Unit).call ValidConfig.builtIn.limits
        (0, .insert sessionA (some sessionB) ()) |>.call ValidConfig.builtIn.limits
        (1, .sweep ⟨fun _ => true, fun _ => true⟩)).registry.Consistent
      ValidConfig.builtIn.limits := by
  refine consistent_of_settled ValidConfig.builtIn _
    (.step (a := (1, .sweep ⟨fun _ => true, fun _ => true⟩)) (.step (.init rfl)
      (a := (0, .insert sessionA (some sessionB) ())) ⟨?_, trivial⟩ ⟨trivial, rfl⟩)
      ⟨trivial, ?_⟩ ⟨trivial, rfl⟩)
  · rfl
  · intro id e _ _
    rfl

/-- A session that ends between the two passes of a sweep leaves its plan in the
registry, under no session. -/
theorem sweep_loses_listing : ¬ ∀ (config : ValidConfig) (s : Transfers Unit),
    (system Unit config.limits).ReachableWhere FreshMint s →
      s.registry.Consistent config.limits := by
  intro h
  have hrun := h ValidConfig.builtIn _ (.step (.step (.init rfl)
    (a := (0, .insert sessionA (some sessionB) ())) rfl ⟨trivial, rfl⟩)
    (a := (1, .sweep ⟨fun _ => true, fun _ => false⟩)) trivial ⟨trivial, rfl⟩)
  have hcount := hrun.listedOnce 1 ⟨1, sessionA, sessionB, (), 0⟩ (by decide) sessionA
  revert hcount
  decide

/-- After a run meeting the conditions, a sweep keeps the indexes consistent
exactly when it settles on every session that keeps a plan. -/
theorem consistent_sweep_iff {config : ValidConfig} {s : Transfers π}
    (h : (system π config.limits).ReachableWhere
      (fun s a => FreshMint s a ∧ Settled config.limits s a) s) (nowMs : Nat)
    (isLive : Liveness) :
    (s.call config.limits (nowMs, .sweep isLive)).registry.Consistent config.limits ↔
      s.Settled config.limits (nowMs, .sweep isLive) := by
  constructor
  · intro hconsistent id e he hkept
    obtain ⟨hlookup, hids, -⟩ := sweepAt_spec config.limits s.registry nowMs isLive rfl
    have hcount := hconsistent.listedOnce id e (by
      rw [call, hlookup, he]
      simp [hkept]) e.session
    rw [if_pos rfl, call, hids] at hcount
    by_contra hdead
    rw [if_neg hdead] at hcount
    simp at hcount
  · intro hsettled
    exact consistent_of_settled config _
      (h.step (a := (nowMs, .sweep isLive)) ⟨trivial, hsettled⟩ ⟨trivial, rfl⟩)

/-! ## Isolation of sessions -/

/-- Every stored entry was handed out, and each entry has a cell of its own. -/
structure Handed (s : Transfers π) : Prop where
  stored : ∀ id e, s.registry.entries.lookup id = some e → e ∈ s.handed
  below : ∀ e ∈ s.handed, e.cell < s.registry.cells
  cell_inj : ∀ e ∈ s.handed, ∀ e' ∈ s.handed, e.cell = e'.cell → e = e'

/-- Calls that store nothing new keep `Handed`. -/
theorem Handed.mono (h : s.Handed) (hcells : t.registry.cells = s.registry.cells)
    (hlookup : ∀ id e, t.registry.entries.lookup id = some e →
      s.registry.entries.lookup id = some e)
    (hkeep : ∀ e ∈ s.handed, e ∈ t.handed) (hnew : ∀ e ∈ t.handed, e ∈ s.handed) :
    t.Handed where
  stored id e he := hkeep e (h.stored id e (hlookup id e he))
  below e he := hcells ▸ h.below e (hnew e he)
  cell_inj e he e' he' := h.cell_inj e (hnew e he) e' (hnew e' he')

theorem handed_insert (h : s.Handed) (session : SessionId) (ticket : Ticket) (plan : π)
    (nowMs : Nat) : (s.call limits (nowMs, .insert session (some ticket) plan)).Handed := by
  obtain ⟨hok, -, hcells, -, gone, kept, -, hlookup, -⟩ :=
    insertAt_spec limits s.registry session ticket plan nowMs rfl rfl
  obtain ⟨entry, hentry⟩ : ∃ entry : TransferEntry π,
    entry = ⟨s.registry.nextRequestId.1, session, ticket, plan, s.registry.cells⟩ := ⟨_, rfl⟩
  rw [← hentry] at hok hlookup
  have hcall : s.call limits (nowMs, .insert session (some ticket) plan) =
      ⟨(s.registry.insertAt limits session (some ticket) plan nowMs).2, entry :: s.handed⟩ := by
    rw [call]
    generalize s.registry.insertAt limits session (some ticket) plan nowMs = result at hok
    obtain ⟨_, r⟩ := result
    cases hok
    rfl
  have hcell : entry.cell = s.registry.cells := by rw [hentry]
  rw [hcall]
  refine ⟨fun id e he => ?_, fun e he => ?_, fun e he e' he' hsame => ?_⟩
  · rw [hlookup] at he
    split at he
    · cases he
      exact List.mem_cons_self
    split at he
    · cases he
    · exact List.mem_cons_of_mem _ (h.stored id e he)
  · rw [hcells]
    rcases List.mem_cons.mp he with heq | he
    · rw [heq, hcell]
      exact Nat.lt_succ_self _
    · exact (h.below e he).trans (Nat.lt_succ_self _)
  · rcases List.mem_cons.mp he with heq | he <;> rcases List.mem_cons.mp he' with heq' | he'
    · rw [heq, heq']
    · rw [heq, hcell] at hsame
      exact absurd hsame.symm (Nat.ne_of_lt (h.below e' he'))
    · rw [heq', hcell] at hsame
      exact absurd hsame (Nat.ne_of_lt (h.below e he))
    · exact h.cell_inj e he e' he' hsame

theorem handed_call (h : s.Handed) (a : Nat × TransferCall π) (ha : s.Enabled a) :
    (s.call limits a).Handed := by
  obtain ⟨nowMs, c⟩ := a
  cases c with
  | insert session random plan =>
      cases random with
      | some ticket => exact handed_insert h session ticket plan nowMs
      | none =>
          refine h.mono ?_ ?_ (fun e he => he) fun e he => he
          · rw [call, hand_registry, insertAt_none]
          · rw [call, hand_registry, insertAt_none]
            exact fun _ _ he => he
  | fetch requestId ticket session =>
      rw [call]
      rcases fetch_cases limits s.registry nowMs requestId ticket session with
        ⟨error, heq⟩ | ⟨e, error, he, -, heq⟩ | ⟨e, he, -, -, -, heq⟩
      · rw [heq]
        exact h.mono rfl (fun _ _ he => he) (fun e he => he) fun e he => he
      · rw [heq]
        obtain ⟨hlookup, -, -, hcells, -⟩ := s.registry.remove_spec requestId he
        refine h.mono hcells (fun id e' he' => ?_) (fun e he => he) fun e he => he
        rw [hand, hlookup] at he'
        split at he'
        · cases he'
        · exact he'
      · rw [heq]
        refine h.mono rfl (fun _ _ he => he) (fun e he => List.mem_cons_of_mem _ he) fun e' he' => ?_
        rcases List.mem_cons.mp he' with rfl | he'
        · exact h.stored requestId e' he
        · exact he'
  | touch entry => exact h.mono rfl (fun _ _ he => he) (fun e he => he) fun e he => he
  | removeSession session =>
      obtain ⟨hlookup, -, -, -, hcells, -⟩ := s.registry.removeSession_spec session
      refine h.mono hcells (fun id e he => ?_) (fun e he => he) fun e he => he
      rw [call, hlookup] at he
      split at he
      · cases he
      · exact he
  | sweep isLive =>
      obtain ⟨hlookup, -, -, hcells, -⟩ := sweepAt_spec limits s.registry nowMs isLive rfl
      refine h.mono hcells (fun id e he => ?_) (fun e he => he) fun e he => he
      rw [call, hlookup, Option.filter_eq_some_iff] at he
      exact he.1

/-- Plans are stored under their own ids. -/
def Keyed (r : TransferRegistry π) : Prop :=
  ∀ id e, r.entries.lookup id = some e → e.requestId = id

theorem keyed_call (h : Keyed s.registry) (a : Nat × TransferCall π) :
    Keyed (s.call limits a).registry := by
  obtain ⟨nowMs, c⟩ := a
  cases c with
  | insert session random plan =>
      rw [call, hand_registry]
      cases random with
      | none =>
          rw [insertAt_none]
          exact h
      | some ticket =>
          intro id e he
          obtain ⟨-, -, -, -, gone, kept, -, hlookup, -⟩ :=
            insertAt_spec limits s.registry session ticket plan nowMs rfl rfl
          rw [hlookup] at he
          split at he
          · rename_i hnew
            cases he
            exact hnew.symm
          split at he
          · cases he
          · exact h id e he
  | fetch requestId ticket session =>
      rw [call, hand_registry]
      rcases fetch_cases limits s.registry nowMs requestId ticket session with
        ⟨error, heq⟩ | ⟨e, error, -, -, heq⟩ | ⟨e, -, -, -, -, heq⟩
      · rw [heq]
        exact h
      · rw [heq]
        exact fun id e he => h id e (lookup_of_remove he)
      · rw [heq]
        exact h
  | touch entry => exact h
  | removeSession session => exact fun id e he => h id e (lookup_of_removeSession he)
  | sweep isLive => exact fun id e he => h id e (lookup_of_sweepAt he)

theorem keyed_of_reachable (h : (system π limits).Reachable s) : Keyed s.registry := by
  have hinv : (system π limits).Inductive (fun _ _ => True) fun s => Keyed s.registry :=
    { init := by
        rintro s rfl
        simp [Keyed, new, TransferRegistry.new]
      step := by
        rintro s t a h - ⟨-, rfl⟩
        exact keyed_call h a }
  exact hinv.holds h

theorem handed_of_reachable (h : (system π limits).Reachable s) : s.Handed := by
  refine System.Inductive.holds (P := fun _ _ => True) ⟨?_, ?_⟩ h
  · rintro s rfl
    exact ⟨by simp [new, TransferRegistry.new], by simp [new], by simp [new]⟩
  · rintro s t a h - ⟨ha, rfl⟩
    exact handed_call h a ha

/-- The session a call is made for; a sweep is made for none. -/
def onBehalf : TransferCall π → Option SessionId
  | .insert session _ _ => some session
  | .fetch _ _ session => some session
  | .touch entry => some entry.session
  | .removeSession session => some session
  | .sweep _ => none

/-- A call made for one session leaves every live plan of the others stored as
it was, and every later fetch of it with the outcome it would have had. -/
def Spares (limits : Limits) (s : Transfers π) (a : Nat × TransferCall π) : Prop :=
  ∀ session, onBehalf a.2 = some session → ∀ id e, s.registry.entries.lookup id = some e →
    e.session ≠ session → isExpired limits s.registry e a.1 = false →
    (s.call limits a).registry.entries.lookup id = some e ∧
    ∀ later ticket owner, ((s.call limits a).registry.fetch limits later id ticket owner).1 =
      (s.registry.fetch limits later id ticket owner).1

/-- Ending a session removes its plans and no others. -/
def EndsExactly (limits : Limits) (s : Transfers π) (a : Nat × TransferCall π) : Prop :=
  ∀ session, a.2 = .removeSession session → ∀ id,
    (s.call limits a).registry.entries.lookup id =
      (s.registry.entries.lookup id).filter fun e => e.session ≠ session

/-- A fetch looks at one plan and at its time of last use only. -/
theorem fetch_congr {r r' : TransferRegistry π} {id : Nat} {e : TransferEntry π}
    (he : r.entries.lookup id = some e) (he' : r'.entries.lookup id = some e)
    (hused : r'.lastUsedMs e.cell = r.lastUsedMs e.cell) (later : Nat) (ticket : Ticket)
    (owner : SessionId) :
    (r'.fetch limits later id ticket owner).1 = (r.fetch limits later id ticket owner).1 := by
  have hexpired : isExpired limits r' e later = isExpired limits r e later := by
    simp only [isExpired, hused]
  simp only [fetch, he, he', hexpired]
  cases isExpired limits r e later
  · cases (!constantTimeEq e.ticket ticket || e.session != owner) <;> rfl
  · rfl

theorem lookup_call_of_other (h : s.registry.Listed limits) {a : Nat × TransferCall π}
    (hfresh : s.FreshMint a) {session : SessionId} (hsession : onBehalf a.2 = some session)
    {id : Nat} {e : TransferEntry π} (he : s.registry.entries.lookup id = some e)
    (hne : e.session ≠ session) (hlive : isExpired limits s.registry e a.1 = false) :
    (s.call limits a).registry.entries.lookup id = some e := by
  obtain ⟨nowMs, c⟩ := a
  cases c with
  | insert _ random plan =>
      cases hsession
      rw [call, hand_registry]
      cases random with
      | none =>
          rw [insertAt_none]
          exact he
      | some ticket =>
          obtain ⟨-, -, -, -, gone, kept, hperm, hlookup, -⟩ :=
            insertAt_spec limits s.registry session ticket plan nowMs rfl rfl
          rw [h.storedIds_eq] at hperm
          have hnew : id ≠ s.registry.nextRequestId.1 := by
            rintro rfl
            rw [FreshMint, he] at hfresh
            cases hfresh
          have hgone : id ∉ gone := fun hgone =>
            hne (h.session_eq (hperm.mem_iff.mp (List.mem_append_left _ hgone)) he)
          rw [hlookup, if_neg hnew, if_neg hgone, he]
  | fetch requestId ticket _ =>
      rw [call, hand_registry]
      rcases fetch_cases limits s.registry nowMs requestId ticket _ with
        ⟨error, heq⟩ | ⟨e', error, he', hexpired, heq⟩ | ⟨e', -, -, -, -, heq⟩
      · rw [heq]
        exact he
      · have hid : id ≠ requestId := by
          rintro rfl
          rw [he] at he'
          cases he'
          rw [hlive] at hexpired
          cases hexpired
        rw [heq, (s.registry.remove_spec requestId he').1, if_neg hid, he]
      · rw [heq]
        exact he
  | touch entry => exact he
  | removeSession _ =>
      cases hsession
      rw [call, (s.registry.removeSession_spec session).1, he]
      exact if_neg fun hid => hne (h.session_eq hid he)
  | sweep isLive => cases hsession

theorem lastUsedMs_call_of_other (h : s.Handed) {a : Nat × TransferCall π} (ha : s.Enabled a)
    {session : SessionId} (hsession : onBehalf a.2 = some session) {id : Nat}
    {e : TransferEntry π} (he : s.registry.entries.lookup id = some e)
    (hne : e.session ≠ session) :
    (s.call limits a).registry.lastUsedMs e.cell = s.registry.lastUsedMs e.cell := by
  have hhanded := h.stored id e he
  have hother : ∀ e' ∈ s.handed, e'.session = session → e.cell ≠ e'.cell := by
    rintro e' he' rfl hcell
    rw [h.cell_inj e hhanded e' he' hcell] at hne
    exact hne rfl
  obtain ⟨nowMs, c⟩ := a
  cases c with
  | insert _ random plan =>
      rw [call, hand_registry]
      cases random with
      | none => rw [insertAt_none]
      | some ticket =>
          obtain ⟨-, -, -, hused, -⟩ := insertAt_spec limits s.registry _ ticket plan nowMs rfl rfl
          rw [hused, Function.update_of_ne (Nat.ne_of_lt (h.below e hhanded))]
  | fetch requestId ticket _ =>
      cases hsession
      rw [call, hand_registry]
      rcases fetch_cases limits s.registry nowMs requestId ticket session with
        ⟨error, heq⟩ | ⟨e', error, he', -, heq⟩ | ⟨e', he', -, -, howner, heq⟩
      · rw [heq]
      · rw [heq, (s.registry.remove_spec requestId he').2.2.2.2]
      · rw [heq]
        exact Function.update_of_ne (hother e' (h.stored requestId e' he') howner) _ _
  | touch entry =>
      cases hsession
      exact Function.update_of_ne (hother entry ha rfl) _ _
  | removeSession session =>
      rw [call, (s.registry.removeSession_spec session).2.2.2.2.2]
  | sweep isLive => cases hsession

theorem spares_of_fresh (config : ValidConfig)
    (h : (system π config.limits).ReachableWhere FreshMint s) {a : Nat × TransferCall π}
    (ha : s.Enabled a) (hfresh : s.FreshMint a) : s.Spares config.limits a := by
  intro session hsession id e he hne hlive
  have hlisted := (inductive_listed config.maxTransfers_pos).holds h
  have hstill := lookup_call_of_other hlisted hfresh hsession he hne hlive
  exact ⟨hstill, fetch_congr he hstill
    (lastUsedMs_call_of_other (handed_of_reachable h.reachable) ha hsession he hne)⟩

theorem endsExactly_of_settled (config : ValidConfig)
    (h : (system π config.limits).ReachableWhere
      (fun s a => FreshMint s a ∧ Settled config.limits s a) s) (a : Nat × TransferCall π) :
    s.EndsExactly config.limits a := by
  obtain ⟨nowMs, c⟩ := a
  rintro session rfl id
  have hindexed := (inductive_indexed config.maxTransfers_pos).holds h
  rw [call, (s.registry.removeSession_spec session).1]
  cases he : s.registry.entries.lookup id with
  | none => simp
  | some e =>
      by_cases hsession : e.session = session
      · have hid : id ∈ s.registry.idsOf session := hsession ▸ hindexed.complete id e he
        simp [hid, hsession, Option.filter_some]
      · have hid : id ∉ s.registry.idsOf session := fun hid => hsession (hindexed.session_eq hid he)
        simp [hid, hsession, Option.filter_some]

/-- One session's calls leave the live plans of the others alone when no insert
reuses the id of a stored plan; ending a session removes exactly its plans when
its sweeps settled too; and whatever happened to the ids, a fetch gets nothing but
a plan of its own session that was issued the ticket presented. -/
theorem sessions_isolated (config : ValidConfig) (s : Transfers π) (a : Nat × TransferCall π)
    (ha : s.Enabled a) :
    ((system π config.limits).ReachableWhere FreshMint s → s.FreshMint a →
      s.Spares config.limits a) ∧
    ((system π config.limits).ReachableWhere
        (fun s a => FreshMint s a ∧ Settled config.limits s a) s →
      s.EndsExactly config.limits a) ∧
    ∀ nowMs id ticket session e r,
      s.registry.fetch config.limits nowMs id ticket session = (.ok e, r) →
        s.registry.entries.lookup id = some e ∧ e.ticket = ticket ∧ e.session = session := by
  refine ⟨fun h hfresh => spares_of_fresh config h ha hfresh,
    fun h => endsExactly_of_settled config h a, fun nowMs id ticket session e r hfetch => ?_⟩
  rcases fetch_cases config.limits s.registry nowMs id ticket session with
    ⟨error, heq⟩ | ⟨e', error, -, -, heq⟩ | ⟨e', he', -, hticket, hsession, heq⟩
  · rw [heq] at hfetch
    cases hfetch
  · rw [heq] at hfetch
    cases hfetch
  · rw [heq] at hfetch
    cases hfetch
    exact ⟨he', hticket, hsession⟩

/-- The other session ends and the plan of the first one stays. -/
theorem sessions_isolated_after_insert :
    ((new : Transfers Unit).call ValidConfig.builtIn.limits
        (0, .insert sessionA (some sessionB) ()) |>.call ValidConfig.builtIn.limits
        (0, .removeSession sessionB)).registry.entries.lookup 1 =
      some ⟨1, sessionA, sessionB, (), 0⟩ := by
  have hrun : (system Unit ValidConfig.builtIn.limits).ReachableWhere FreshMint
      ((new : Transfers Unit).call ValidConfig.builtIn.limits
        (0, .insert sessionA (some sessionB) ())) :=
    .step (a := (0, .insert sessionA (some sessionB) ())) (.init rfl) rfl ⟨trivial, rfl⟩
  exact ((sessions_isolated ValidConfig.builtIn _ (0, .removeSession sessionB) trivial).1 hrun
    trivial sessionB rfl 1 ⟨1, sessionA, sessionB, (), 0⟩ (by decide) sessionA_ne_sessionB
    (by simp [isExpired])).1

/-! ## The counter wraps

One session keeps its first plan while another inserts and ends over and over. -/

theorem nextRequestId_of_ne_zero {r : TransferRegistry π} (h : r.nextId ≠ 0) :
    r.nextRequestId = (r.nextId, { r with nextId := Word.wrappingAdd 32 r.nextId 1 }) := by
  simp [nextRequestId, h]

theorem nextRequestId_of_zero {r : TransferRegistry π} (h : r.nextId = 0) :
    r.nextRequestId.1 = 1 := by
  simp [nextRequestId, h, Word.wrappingAdd]

/-- Nothing is stored but the first session's plan, and `k` is the next id. -/
structure Lonely (k : Nat) (s : Transfers Unit) : Prop where
  run : (system Unit ValidConfig.builtIn.limits).Reachable s
  nextId : s.registry.nextId = k
  only : ∀ id, s.registry.entries.lookup id =
    if id = 1 then some ⟨1, sessionA, sessionA, (), 0⟩ else none
  idle : s.registry.idsOf sessionB = []

theorem lonely_first : Lonely 2 ((new : Transfers Unit).call ValidConfig.builtIn.limits
    (0, .insert sessionA (some sessionA) ())) where
  run := (System.Reachable.init rfl).step
    (a := (0, .insert sessionA (some sessionA) ())) ⟨trivial, rfl⟩
  nextId := rfl
  only := by
    intro id
    by_cases hid : id = 1
    · subst hid
      rfl
    · rw [if_neg hid]
      exact AList.lookup_insert_ne hid
  idle := by decide

/-- An insert of the other session and its end only move the counter. -/
theorem Lonely.round {k : Nat} {s : Transfers Unit} (h : Lonely k s) (hk : 2 ≤ k) :
    ∃ t, Lonely (Word.wrappingAdd 32 k 1) t := by
  have hmint := nextRequestId_of_ne_zero (r := s.registry) (by have := h.nextId; omega)
  rw [h.nextId] at hmint
  obtain ⟨-, hnext, -, -, gone, kept, hperm, hlookup, hids, -⟩ := insertAt_spec
    ValidConfig.builtIn.limits s.registry sessionB sessionB () 0 rfl rfl
  have hnone : s.registry.storedIds sessionB = [] := by rw [storedIds, h.idle]; rfl
  rw [hnone, List.perm_nil, List.append_eq_nil_iff] at hperm
  obtain ⟨rfl, rfl⟩ := hperm
  rw [hmint] at hnext hlookup hids
  have hstep : (system Unit ValidConfig.builtIn.limits).Reachable
      (s.call ValidConfig.builtIn.limits (0, .insert sessionB (some sessionB) ())) :=
    h.run.step (a := (0, .insert sessionB (some sessionB) ())) ⟨trivial, rfl⟩
  rw [← hand_registry _ s] at hnext hlookup hids
  obtain ⟨hlookup', hids', -, hnext', -⟩ := TransferRegistry.removeSession_spec
    (s.call ValidConfig.builtIn.limits (0, .insert sessionB (some sessionB) ())).registry sessionB
  refine ⟨_, hstep.step (a := (0, .removeSession sessionB)) ⟨trivial, rfl⟩, ?_, fun id => ?_, ?_⟩
  · exact hnext'.trans hnext
  · refine (hlookup' id).trans ?_
    rw [call, hids, if_pos rfl, hlookup, h.only]
    by_cases hid : id = k
    · rw [if_pos (by simp [hid]), if_neg (by omega)]
    · simp [hid]
  · exact (hids' sessionB).trans (if_pos rfl)

theorem exists_lonely {n : Nat} (hn : n ≤ Word.size 32 - 2) :
    ∃ s, Lonely ((2 + n) % Word.size 32) s := by
  induction n with
  | zero => exact ⟨_, lonely_first⟩
  | succ n ih =>
      obtain ⟨s, hs⟩ := ih (by omega)
      rw [Nat.mod_eq_of_lt (by omega)] at hs
      exact hs.round (by omega)

/-- After four billion inserts the other session's next one takes the id of the
first session's plan, and the plan is gone. -/
theorem wrapped_id_replaces_plan : ¬ ∀ (config : ValidConfig) (s : Transfers Unit)
    (a : Nat × TransferCall Unit), (system Unit config.limits).Reachable s → s.Enabled a →
      s.Spares config.limits a ∧ s.EndsExactly config.limits a := by
  intro h
  obtain ⟨s, hs⟩ := exists_lonely (Nat.le_refl _)
  rw [show (2 + (Word.size 32 - 2)) % Word.size 32 = 0 from rfl] at hs
  have hmint := nextRequestId_of_zero (r := s.registry) hs.nextId
  obtain ⟨-, -, -, -, gone, kept, -, hlookup, -⟩ := insertAt_spec
    ValidConfig.builtIn.limits s.registry sessionB sessionB () 0 rfl rfl
  have hspared := ((h ValidConfig.builtIn s (0, .insert sessionB (some sessionB) ()) hs.run
    trivial).1 sessionB rfl 1 ⟨1, sessionA, sessionA, (), 0⟩ (by rw [hs.only]; rfl)
    sessionA_ne_sessionB (by simp [isExpired])).1
  rw [call, hand_registry, hlookup, hmint, if_pos rfl] at hspared
  exact sessionA_ne_sessionB.symm (congrArg TransferEntry.session (Option.some.inj hspared))

end Transfers

end Aex
