import Aex.Lib.Threads
import Aex.Server.TransferClock

/-!
# How long a plan lives

A plan that lapses has a stretch without uses behind it that is longer than the TTL.
While no call overtakes another, only such plans are dropped or refused as expired.
-/

namespace Aex

open Lts
open TransferRegistry (Liveness)

namespace PlanClock

variable {π : Type}

/-! ## What every run keeps -/

/-- The entry a call works with. -/
def Pc.entry : Pc π → Option (TransferEntry π)
  | .checking _ entry _ _ | .removing _ entry | .touching _ entry _ | .called (.touch entry) =>
      some entry
  | _ => none

/-- The time a call read. -/
def Pc.reading : Pc π → Option Nat
  | .minting nowMs _ _ _ | .filing nowMs _ _ _ _ | .looking nowMs _ _ _ | .checking nowMs _ _ _
  | .touching nowMs _ _ | .removing nowMs _ | .locking nowMs _ | .sweeping nowMs _ _ _ => some nowMs
  | .called _ | .ended _ => none

/-- The time a call read that is about a plan, to use it or to drop it. -/
def Pc.about (e : TransferEntry π) : Pc π → Option Nat
  | .removing nowMs entry => if entry.cell = e.cell then some nowMs else none
  | pc => pc.comesFor e

/-- A plan that has lapsed, by its recorded last use and by all calls about it. -/
def Lapsed (limits : Limits) (s : State π) (e : TransferEntry π) : Prop :=
  ∃ gap ≤ s.clockMs, gap ≤ s.registry.lastUsedMs e.cell + TransferRegistry.ttlMs limits + 1 ∧
    Lapses (TransferRegistry.ttlMs limits) (s.uses e.cell) gap ∧
    ∀ pc ∈ s.threads, ∀ u, pc.about e = some u → gap ≤ u

/-- An entry is the one its cell was allocated for. -/
def Known (s : State π) (e : TransferEntry π) : Prop := s.issued[e.cell]? = some e

structure Inv (limits : Limits) (s : State π) : Prop where
  issued : s.issued.length = s.registry.cells
  stored : ∀ id e, s.registry.entries.lookup id = some e → Known s e ∧ e.requestId = id
  known : ∀ pc ∈ s.threads, ∀ e, pc.entry = some e → Known s e
  own : ∀ pc ∈ s.threads, ∀ e, pc.holds = some e → ∀ e',
    s.registry.entries.lookup e.requestId = some e' → e' = e
  past : ∀ pc ∈ s.threads, ∀ u, pc.reading = some u → u ≤ s.clockMs
  logged : ∀ cell < s.registry.cells, s.registry.lastUsedMs cell ∈ s.uses cell
  behind : ∀ cell < s.registry.cells, ∀ u ∈ s.uses cell, u ≤ s.registry.lastUsedMs cell ∨
    ∃ e outcome, .touching u e outcome ∈ s.threads ∧ e.cell = cell
  pending : ∀ u e outcome, .touching u e outcome ∈ s.threads → u ∈ s.uses e.cell
  lapsed : ∀ e, (e ∈ s.expired ∨ ∃ nowMs, .removing nowMs e ∈ s.threads) →
    Known s e ∧ Lapsed limits s e

variable {limits : Limits} {s t : State π} {e : TransferEntry π} {i pick : Nat} {pc pc' : Pc π}

theorem Known.lt (h : Inv limits s) (hknown : Known s e) : e.cell < s.registry.cells := by
  rw [← h.issued]
  exact (List.getElem?_eq_some_iff.mp hknown).1

/-- A plan found expired by a call that overtakes no other has lapsed. -/
theorem lapsed_of_expired (h : Inv limits s) (hknown : Known s e) {nowMs : Nat}
    (hnow : nowMs ≤ s.clockMs) (hexpired : s.registry.isExpired limits e nowMs = true)
    (hfirst : ∀ other ∈ s.threads, ∀ u, other.comesFor e = some u →
      s.registry.lastUsedMs e.cell + TransferRegistry.ttlMs limits < u) : Lapsed limits s e := by
  by_cases hremoving : ∃ nowMs, .removing nowMs e ∈ s.threads
  · exact (h.lapsed e (Or.inr hremoving)).2
  rw [TransferRegistry.isExpired, decide_eq_true_eq] at hexpired
  refine ⟨s.registry.lastUsedMs e.cell + TransferRegistry.ttlMs limits + 1, by omega, le_rfl,
    ⟨⟨_, h.logged _ (hknown.lt h), by omega⟩, ?_⟩, ?_⟩
  · intro u hu
    rcases h.behind _ (hknown.lt h) u hu with hle | ⟨e', outcome, hmem, hcell⟩
    · exact Or.inl (by omega)
    · exact Or.inr (hfirst _ hmem u (by rw [Pc.comesFor, if_pos hcell]))
  · intro pc hpc u hu
    cases pc with
    | removing nowMs' e' =>
        rw [Pc.about] at hu
        split at hu
        · rename_i hcell
          have hsame : e' = e := by
            have hknown' := h.known _ hpc e' rfl
            rw [Known, hcell, hknown] at hknown'
            exact (Option.some.inj hknown').symm
          exact absurd ⟨nowMs', hsame ▸ hpc⟩ hremoving
        · cases hu
    | _ => exact hfirst _ hpc u hu

theorem Lapsed.not_steady (h : Lapsed limits s e) {nowMs : Nat}
    (hexpired : s.registry.isExpired limits e nowMs = true) :
    ¬ Steady (TransferRegistry.ttlMs limits) (s.uses e.cell) nowMs := by
  obtain ⟨gap, -, hgap, hlapses, -⟩ := h
  rw [TransferRegistry.isExpired, decide_eq_true_eq] at hexpired
  exact hlapses.not_steady (by omega)

/-! ## What a step keeps -/

/-- A step that files no plan: the call's next place, given what it has read and
found, and what it leaves of the rest. -/
structure Quiet (limits : Limits) (s t : State π) (pc pc' : Pc π) : Prop where
  clock : t.clockMs = s.clockMs
  threads : t.threads = s.threads
  issued : t.issued = s.issued
  cells : t.registry.cells = s.registry.cells
  entries : ∀ id e, t.registry.entries.lookup id = some e → s.registry.entries.lookup id = some e
  uses : ∀ cell u, u ∈ t.uses cell ↔
    u ∈ s.uses cell ∨ ∃ e outcome, pc' = .touching u e outcome ∧ e.cell = cell
  used : ∀ cell, t.registry.lastUsedMs cell = s.registry.lastUsedMs cell ∨
    ∃ u e outcome, pc = .touching u e outcome ∧ e.cell = cell ∧ t.registry.lastUsedMs cell = u
  stored : ∀ u e outcome, pc = .touching u e outcome →
    s.registry.lastUsedMs e.cell ≤ u ∧ t.registry.lastUsedMs e.cell = u
  entry : ∀ e, pc'.entry = some e → Known s e
  own : ∀ e, pc'.holds = some e → ∀ e', s.registry.entries.lookup e.requestId = some e' → e' = e
  past : ∀ u, pc'.reading = some u → u ≤ s.clockMs
  about : ∀ e, Known s e → ∀ u, pc'.about e = some u → pc.about e = some u ∨ u = s.clockMs
  removing : ∀ nowMs e, pc' = .removing nowMs e → Known s e ∧ Lapsed limits s e
  expired : ∀ e ∈ t.expired, e ∈ s.expired ∨ Known s e ∧ Lapsed limits s e

namespace Quiet

variable (q : Quiet limits s t pc pc')
include q

theorem lastUsedMs_le (cell : Nat) :
    s.registry.lastUsedMs cell ≤ t.registry.lastUsedMs cell := by
  rcases q.used cell with heq | ⟨u, e, outcome, hpc, rfl, hu⟩
  · exact heq.ge
  · rw [(q.stored u e outcome hpc).2]
    exact (q.stored u e outcome hpc).1

theorem lapsed (hpc : s.threads[i]? = some pc) (hknown : Known s e) (h : Lapsed limits s e) :
    Lapsed limits { t with threads := t.threads.set i pc' } e := by
  obtain ⟨gap, hclock, hgap, ⟨⟨first, hfirst, hbefore⟩, hall⟩, habout⟩ := h
  have hnext : ∀ u, pc'.about e = some u → gap ≤ u := by
    intro u hu
    rcases q.about e hknown u hu with hu | rfl
    · exact habout pc (List.mem_of_getElem? hpc) u hu
    · exact hclock
  have hle := q.lastUsedMs_le e.cell
  refine ⟨gap, by rw [q.clock]; exact hclock, by dsimp only; omega,
    ⟨⟨first, (q.uses _ _).mpr (Or.inl hfirst), hbefore⟩, ?_⟩, ?_⟩
  · intro u hu
    rcases (q.uses _ _).mp hu with hu | ⟨e', outcome, rfl, hcell⟩
    · exact hall u hu
    · exact Or.inr (hnext u (by rw [Pc.about, Pc.comesFor, if_pos hcell]; simp))
  · rw [q.threads]
    exact Threads.forall_mem_set habout hnext

theorem inv (h : Inv limits s) (hpc : s.threads[i]? = some pc) :
    Inv limits { t with threads := t.threads.set i pc' } := by
  have hmem := List.mem_of_getElem? hpc
  have hknown : ∀ e, Known s e → Known { t with threads := t.threads.set i pc' } e := by
    intro e he
    rw [Known, q.issued]
    exact he
  constructor
  · rw [q.issued, q.cells]
    exact h.issued
  · intro id e he
    have := h.stored id e (q.entries id e he)
    exact ⟨hknown e this.1, this.2⟩
  · rw [q.threads]
    exact Threads.forall_mem_set (fun pc hpc e he => hknown e (h.known pc hpc e he))
      fun e he => hknown e (q.entry e he)
  · rw [q.threads]
    exact Threads.forall_mem_set
      (fun pc hpc e he e' he' => h.own pc hpc e he e' (q.entries _ _ he'))
      fun e he e' he' => q.own e he e' (q.entries _ _ he')
  · rw [q.threads, q.clock]
    exact Threads.forall_mem_set h.past q.past
  · intro cell hcell
    rw [q.cells] at hcell
    rcases q.used cell with heq | ⟨u, e, outcome, rfl, rfl, hu⟩
    · rw [heq]
      exact (q.uses _ _).mpr (Or.inl (h.logged cell hcell))
    · rw [hu]
      exact (q.uses _ _).mpr (Or.inl (h.pending u e outcome hmem))
  · intro cell hcell u hu
    rw [q.cells] at hcell
    dsimp only
    rw [q.threads]
    rcases (q.uses _ _).mp hu with hu | ⟨e, outcome, rfl, hcell⟩
    · rcases h.behind cell hcell u hu with hle | ⟨e, outcome, htouching, rfl⟩
      · exact Or.inl (hle.trans (q.lastUsedMs_le cell))
      · by_cases hsame : Pc.touching u e outcome = pc
        · exact Or.inl (q.stored u e outcome hsame.symm).2.ge
        · exact Or.inr ⟨e, outcome, Threads.mem_set_of_ne hpc htouching hsame _, rfl⟩
    · exact Or.inr ⟨e, outcome, Threads.self_mem_set hpc _, hcell⟩
  · intro u e outcome hmem'
    dsimp only at hmem'
    rw [q.threads] at hmem'
    rcases List.mem_or_eq_of_mem_set hmem' with hmem' | hnew
    · exact (q.uses _ _).mpr (Or.inl (h.pending u e outcome hmem'))
    · exact (q.uses _ _).mpr (Or.inr ⟨e, outcome, hnew.symm, rfl⟩)
  · intro e he
    have hold : Known s e ∧ Lapsed limits s e := by
      dsimp only at he
      rw [q.threads] at he
      rcases he with he | ⟨nowMs, he⟩
      · rcases q.expired e he with he | he
        · exact h.lapsed e (Or.inl he)
        · exact he
      · rcases List.mem_or_eq_of_mem_set he with he | hnew
        · exact h.lapsed e (Or.inr ⟨nowMs, he⟩)
        · exact q.removing nowMs e hnew.symm
    exact ⟨hknown e hold.1, q.lapsed hpc hold.1 hold.2⟩

end Quiet

/-- The state once a plan has been filed. -/
def filed (limits : Limits) (s : State π) (nowMs : Nat) (session : SessionId) (ticket : Ticket)
    (plan : π) (requestId : Nat) : State π :=
  let (entry, registry) := s.registry.file limits session ticket plan requestId nowMs
  { s with
    registry
    issued := s.issued ++ [entry]
    uses := Function.update s.uses entry.cell [nowMs] }

/-- Filing adds one entry, in a cell of its own, and may evict others. -/
theorem file_spec (limits : Limits) (r : TransferRegistry π) (session : SessionId) (ticket : Ticket)
    (plan : π) (requestId nowMs : Nat) :
    (r.file limits session ticket plan requestId nowMs).1 =
        ⟨requestId, session, ticket, plan, r.cells⟩ ∧
      (r.file limits session ticket plan requestId nowMs).2.cells = r.cells + 1 ∧
      (r.file limits session ticket plan requestId nowMs).2.lastUsedMs =
        Function.update r.lastUsedMs r.cells nowMs ∧
      ∀ id e, (r.file limits session ticket plan requestId nowMs).2.entries.lookup id = some e →
        (id = requestId ∧ e = ⟨requestId, session, ticket, plan, r.cells⟩) ∨
          (id ≠ requestId ∧ r.entries.lookup id = some e) := by
  refine ⟨rfl, rfl, rfl, fun id e he => ?_⟩
  obtain ⟨gone, -, hlookup⟩ := TransferRegistry.evict_perm limits.maxTransfersPerSession
    (Function.update r.lastUsedMs r.cells nowMs) (r.storedIds session).length r.entries
    (r.storedIds session)
  by_cases hid : id = requestId
  · subst hid
    rw [TransferRegistry.file, AList.lookup_insert, Option.some.injEq] at he
    exact Or.inl ⟨rfl, he.symm⟩
  · rw [TransferRegistry.file, AList.lookup_insert_ne hid] at he
    have he := (hlookup id).symm.trans he
    split at he
    · cases he
    · exact Or.inr ⟨hid, he⟩

theorem Inv.file (h : Inv limits s) {nowMs : Nat} {session : SessionId} {ticket : Ticket} {plan : π}
    {requestId : Nat} {outcome : Except ServerError (Outcome π)}
    (hpc : s.threads[i]? = some (.filing nowMs session ticket plan requestId))
    (hmint : ∀ other ∈ s.threads, ∀ e, other.holds = some e → e.requestId ≠ requestId) :
    Inv limits { filed limits s nowMs session ticket plan requestId with
      threads := s.threads.set i (.ended outcome) } := by
  obtain ⟨-, hcells, hused, hlookup⟩ := file_spec limits s.registry session ticket plan requestId nowMs
  have hissued : (filed limits s nowMs session ticket plan requestId).issued =
      s.issued ++ [⟨requestId, session, ticket, plan, s.registry.cells⟩] := rfl
  have huses : (filed limits s nowMs session ticket plan requestId).uses =
      Function.update s.uses s.registry.cells [nowMs] := rfl
  have hclock : (filed limits s nowMs session ticket plan requestId).clockMs = s.clockMs := rfl
  have hexpired : (filed limits s nowMs session ticket plan requestId).expired = s.expired := rfl
  change (filed limits s nowMs session ticket plan requestId).registry.cells = _ at hcells
  change (filed limits s nowMs session ticket plan requestId).registry.lastUsedMs = _ at hused
  change ∀ id e, (filed limits s nowMs session ticket plan requestId).registry.entries.lookup id =
    some e → _ at hlookup
  generalize filed limits s nowMs session ticket plan requestId = t at *
  have hold : ∀ e, Known s e → t.issued[e.cell]? = some e := by
    intro e he
    rw [hissued, List.getElem?_append_left (List.getElem?_eq_some_iff.mp he).1]
    exact he
  have hsame : ∀ cell < s.registry.cells,
      t.uses cell = s.uses cell ∧ t.registry.lastUsedMs cell = s.registry.lastUsedMs cell := by
    intro cell hlt
    rw [huses, hused, Function.update_of_ne (by omega), Function.update_of_ne (by omega)]
    exact ⟨rfl, rfl⟩
  have hnew : t.uses s.registry.cells = [nowMs] ∧ t.registry.lastUsedMs s.registry.cells = nowMs := by
    rw [huses, hused, Function.update_self, Function.update_self]
    exact ⟨rfl, rfl⟩
  have htouching : ∀ u e outcome, Pc.touching u e outcome ∈ s.threads →
      ∀ done, Pc.touching u e outcome ∈ s.threads.set i (.ended done) := fun u e outcome hmem _ =>
    Threads.mem_set_of_ne hpc hmem (by intro heq; cases heq) _
  constructor
  · dsimp only
    rw [hissued, List.length_append, hcells, h.issued]
    rfl
  · intro id e he
    rcases hlookup id e he with ⟨rfl, rfl⟩ | ⟨-, he⟩
    · refine ⟨?_, rfl⟩
      rw [Known, hissued, ← h.issued, List.getElem?_concat_length]
    · exact ⟨hold e (h.stored id e he).1, (h.stored id e he).2⟩
  · exact Threads.forall_mem_set (fun pc hpc e he => hold e (h.known pc hpc e he))
      fun e he => by cases he
  · exact Threads.forall_mem_set
      (fun pc hpc e he e' he' => by
        rcases hlookup _ e' he' with ⟨heq, -⟩ | ⟨-, he'⟩
        · exact absurd heq (hmint pc hpc e he)
        · exact h.own pc hpc e he e' he')
      fun e he => by cases he
  · dsimp only
    rw [hclock]
    exact Threads.forall_mem_set h.past fun u hu => by cases hu
  · intro cell hlt
    dsimp only at hlt ⊢
    rcases Nat.lt_or_ge cell s.registry.cells with hlt' | hge
    · rw [(hsame cell hlt').1, (hsame cell hlt').2]
      exact h.logged cell hlt'
    · obtain rfl : cell = s.registry.cells := by omega
      rw [hnew.1, hnew.2]
      exact List.mem_singleton_self _
  · intro cell hlt u hu
    dsimp only at hlt hu ⊢
    rcases Nat.lt_or_ge cell s.registry.cells with hlt' | hge
    · rw [(hsame cell hlt').1] at hu
      rw [(hsame cell hlt').2]
      rcases h.behind cell hlt' u hu with hle | ⟨e, outcome, hmem, hcell⟩
      · exact Or.inl hle
      · exact Or.inr ⟨e, outcome, htouching u e outcome hmem _, hcell⟩
    · obtain rfl : cell = s.registry.cells := by omega
      rw [hnew.1, List.mem_singleton] at hu
      rw [hnew.2, hu]
      exact Or.inl le_rfl
  · intro u e outcome hmem
    rcases List.mem_or_eq_of_mem_set hmem with hmem | heq
    · dsimp only
      rw [(hsame e.cell (Known.lt h (h.known _ hmem e rfl))).1]
      exact h.pending u e outcome hmem
    · cases heq
  · intro e he
    have hprior : Known s e ∧ Lapsed limits s e := by
      dsimp only at he
      rw [hexpired] at he
      rcases he with he | ⟨nowMs, he⟩
      · exact h.lapsed e (Or.inl he)
      · rcases List.mem_or_eq_of_mem_set he with he | heq
        · exact h.lapsed e (Or.inr ⟨nowMs, he⟩)
        · cases heq
    obtain ⟨hknown, gap, hgap, hgap', hlapses, habout⟩ := hprior
    obtain ⟨huses', hused'⟩ := hsame e.cell (hknown.lt h)
    refine ⟨hold e hknown, gap, by rw [hclock]; exact hgap, ?_, ?_, ?_⟩
    · dsimp only
      rwa [hused']
    · dsimp only
      rwa [huses']
    · exact Threads.forall_mem_set habout fun u hu => by cases hu

/-! ## Every step -/

/-- A call on its way that has neither stored a time nor is about to. -/
def Pc.Idle : Pc π → Prop
  | .touching .. | .removing .. => False
  | _ => True

/-- A step that leaves all times alone, into a place that neither stores nor removes. -/
theorem Quiet.calm (hclock : t.clockMs = s.clockMs) (hthreads : t.threads = s.threads)
    (hissued : t.issued = s.issued) (hcells : t.registry.cells = s.registry.cells)
    (hentries : ∀ id e, t.registry.entries.lookup id = some e →
      s.registry.entries.lookup id = some e)
    (huses : t.uses = s.uses) (hused : t.registry.lastUsedMs = s.registry.lastUsedMs)
    (hexpired : ∀ e ∈ t.expired, e ∈ s.expired ∨ Known s e ∧ Lapsed limits s e)
    (hpc : ∀ u e outcome, pc ≠ .touching u e outcome) (hidle : pc'.Idle)
    (hentry : ∀ e, pc'.entry = some e → Known s e)
    (hown : ∀ e, pc'.holds = some e → ∀ e',
      s.registry.entries.lookup e.requestId = some e' → e' = e)
    (hpast : ∀ u, pc'.reading = some u → u ≤ s.clockMs)
    (habout : ∀ e, Known s e → ∀ u, pc'.about e = some u → pc.about e = some u ∨ u = s.clockMs) :
    Quiet limits s t pc pc' where
  clock := hclock
  threads := hthreads
  issued := hissued
  cells := hcells
  entries := hentries
  uses cell u := by
    rw [huses]
    refine ⟨Or.inl, ?_⟩
    rintro (hu | ⟨e, outcome, rfl, -⟩)
    · exact hu
    · exact hidle.elim
  used cell := Or.inl (by rw [hused])
  stored u e outcome heq := absurd heq (hpc u e outcome)
  entry := hentry
  own := hown
  past := hpast
  about := habout
  removing nowMs e heq := by
    subst heq
    exact hidle.elim
  expired := hexpired

/-- A call that ends without storing a time. -/
theorem Quiet.ended {result : Except ServerError (Outcome π)} (hclock : t.clockMs = s.clockMs)
    (hthreads : t.threads = s.threads) (hissued : t.issued = s.issued)
    (hcells : t.registry.cells = s.registry.cells)
    (hentries : ∀ id e, t.registry.entries.lookup id = some e →
      s.registry.entries.lookup id = some e)
    (huses : t.uses = s.uses) (hused : t.registry.lastUsedMs = s.registry.lastUsedMs)
    (hexpired : ∀ e ∈ t.expired, e ∈ s.expired ∨ Known s e ∧ Lapsed limits s e)
    (hpc : ∀ u e outcome, pc ≠ .touching u e outcome) : Quiet limits s t pc (.ended result) :=
  .calm hclock hthreads hissued hcells hentries huses hused hexpired hpc trivial
    (fun _ he => by cases he) (fun _ he => by cases he) (fun _ hu => by cases hu)
    (fun _ _ _ hu => by cases hu)

/-- A call that has read the clock and is not about a plan. -/
theorem Quiet.read (hclock : t.clockMs = s.clockMs) (hthreads : t.threads = s.threads)
    (hissued : t.issued = s.issued) (hcells : t.registry.cells = s.registry.cells)
    (hentries : ∀ id e, t.registry.entries.lookup id = some e →
      s.registry.entries.lookup id = some e)
    (huses : t.uses = s.uses) (hused : t.registry.lastUsedMs = s.registry.lastUsedMs)
    (hexpired : ∀ e ∈ t.expired, e ∈ s.expired ∨ Known s e ∧ Lapsed limits s e)
    (hpc : ∀ u e outcome, pc ≠ .touching u e outcome) (hidle : pc'.Idle)
    (hentry : pc'.entry = none) (hown : pc'.holds = none)
    (hpast : ∀ u, pc'.reading = some u → u ≤ s.clockMs)
    (habout : ∀ e u, pc'.about e = some u → u = s.clockMs) : Quiet limits s t pc pc' :=
  .calm hclock hthreads hissued hcells hentries huses hused hexpired hpc hidle
    (fun _ he => by rw [hentry] at he; cases he) (fun _ he => by rw [hown] at he; cases he) hpast
    (fun e _ u hu => Or.inr (habout e u hu))

theorem underLock_eq_some {next found : Pc π × State π} (h : s.underLock next = some found) :
    next = found := by
  unfold State.underLock at h
  split at h
  · cases h
  · exact Option.some.inj h

theorem mem_uses_use {nowMs cell u : Nat} :
    u ∈ (s.use e nowMs).uses cell ↔ u ∈ s.uses cell ∨ (u = nowMs ∧ e.cell = cell) := by
  unfold State.use
  by_cases hcell : cell = e.cell
  · subst hcell
    simp [or_comm]
  · simp [Function.update_of_ne hcell, Ne.symm hcell]

/-- A call that goes on to store the time it read. -/
theorem Quiet.using (h : Inv limits s) (hmem : pc ∈ s.threads) {nowMs : Nat} {outcome : Outcome π}
    (hpc : ∀ u e outcome, pc ≠ .touching u e outcome) (hentry : pc.entry = some e)
    (hnow : nowMs = s.clockMs ∨ pc.about e = some nowMs ∧ pc.reading = some nowMs) :
    Quiet limits s (s.use e nowMs) pc (.touching nowMs e outcome) where
  clock := rfl
  threads := rfl
  issued := rfl
  cells := rfl
  entries _ _ he := he
  uses cell u := by
    rw [mem_uses_use]
    apply or_congr_right
    constructor
    · rintro ⟨rfl, hcell⟩
      exact ⟨e, outcome, rfl, hcell⟩
    · rintro ⟨e', outcome', heq, hcell⟩
      cases heq
      exact ⟨rfl, hcell⟩
  used cell := Or.inl rfl
  stored u e' outcome' heq := absurd heq (hpc u e' outcome')
  entry e' he := by
    cases he
    exact h.known pc hmem e hentry
  own e' he := by cases he
  past u hu := by
    cases hu
    rcases hnow with rfl | ⟨-, hread⟩
    · exact le_rfl
    · exact h.past pc hmem nowMs hread
  about e' he' u hu := by
    rw [Pc.about, Pc.comesFor] at hu
    · split at hu
      · rename_i hcell
        cases hu
        rcases hnow with rfl | ⟨habout, -⟩
        · exact Or.inr rfl
        · have hsame : e' = e := by
            have hknown := h.known pc hmem e hentry
            rw [Known, hcell, he'] at hknown
            exact Option.some.inj hknown
          exact Or.inl (hsame ▸ habout)
      · cases hu
    · intro _ _ heq
      cases heq
  removing _ _ heq := by cases heq
  expired _ he := Or.inl he

theorem lookup_remove {r : TransferRegistry π} {requestId id : Nat}
    (h : (r.remove requestId).entries.lookup id = some e) : r.entries.lookup id = some e := by
  cases hr : r.entries.lookup requestId with
  | none => rwa [TransferRegistry.remove_of_none hr] at h
  | some e' =>
      rw [(r.remove_spec requestId hr).1] at h
      split at h
      · cases h
      · exact h

theorem remove_times (r : TransferRegistry π) (requestId : Nat) :
    (r.remove requestId).cells = r.cells ∧ (r.remove requestId).lastUsedMs = r.lastUsedMs := by
  cases hr : r.entries.lookup requestId with
  | none =>
      rw [TransferRegistry.remove_of_none hr]
      exact ⟨rfl, rfl⟩
  | some e => exact (r.remove_spec requestId hr).2.2.2

/-- A sweep drops the plan it looks at, or nothing. -/
theorem visit_spec (limits : Limits) (s : State π) (nowMs : Nat) (isLive : Liveness) (id : Nat) :
    (s.visit limits nowMs isLive id).clockMs = s.clockMs ∧
      (s.visit limits nowMs isLive id).threads = s.threads ∧
      (s.visit limits nowMs isLive id).issued = s.issued ∧
      (s.visit limits nowMs isLive id).uses = s.uses ∧
      (s.visit limits nowMs isLive id).registry.cells = s.registry.cells ∧
      (s.visit limits nowMs isLive id).registry.lastUsedMs = s.registry.lastUsedMs ∧
      (∀ id' e, (s.visit limits nowMs isLive id).registry.entries.lookup id' = some e →
        s.registry.entries.lookup id' = some e) ∧
      (∀ id' e, s.registry.entries.lookup id' = some e →
        (s.visit limits nowMs isLive id).registry.entries.lookup id' ≠ some e →
          id' = id ∧ (isLive.ofPlan id = true → s.registry.isExpired limits e nowMs = true)) ∧
      ∀ e ∈ (s.visit limits nowMs isLive id).expired, e ∈ s.expired ∨
        s.registry.entries.lookup id = some e ∧ s.registry.isExpired limits e nowMs = true := by
  have herase : ∀ id' e, (s.registry.entries.erase id).lookup id' = some e →
      s.registry.entries.lookup id' = some e := by
    intro id' e he
    by_cases hid : id' = id
    · subst hid
      rw [AList.lookup_erase] at he
      cases he
    · rwa [AList.lookup_erase_ne hid] at he
  have hgone : ∀ id' e, s.registry.entries.lookup id' = some e →
      (s.registry.entries.erase id).lookup id' ≠ some e → id' = id := by
    intro id' e he hne
    by_contra hid
    rw [AList.lookup_erase_ne hid] at hne
    exact hne he
  unfold State.visit
  split
  · exact ⟨rfl, rfl, rfl, rfl, rfl, rfl, fun _ _ he => he, fun _ _ he hne => absurd he hne,
      fun _ he => Or.inl he⟩
  rename_i found hfound
  split
  · rename_i hexpired
    refine ⟨rfl, rfl, rfl, rfl, rfl, rfl, herase, fun id' e he hne => ?_, fun e he => ?_⟩
    · obtain rfl := hgone id' e he hne
      rw [hfound] at he
      cases he
      exact ⟨rfl, fun _ => hexpired⟩
    · rcases List.mem_cons.mp he with rfl | he
      · exact Or.inr ⟨hfound, hexpired⟩
      · exact Or.inl he
  · split
    · exact ⟨rfl, rfl, rfl, rfl, rfl, rfl, fun _ _ he => he, fun _ _ he hne => absurd he hne,
        fun _ he => Or.inl he⟩
    · rename_i hlive
      exact ⟨rfl, rfl, rfl, rfl, rfl, rfl, herase, fun id' e he hne =>
        ⟨hgone id' e he hne, fun hyes => absurd hyes hlive⟩, fun _ he => Or.inl he⟩

/-- A plan that a step finds expired, overtaking no call, has lapsed. -/
theorem lapsed_of_judged (h : Inv limits s) (horder : InOrder limits s (.act i pick))
    (hpc : s.threads[i]? = some pc) {nowMs : Nat} (hjudged : s.judges pick pc = some (e, nowMs))
    (hexpired : s.registry.isExpired limits e nowMs = true) : Known s e ∧ Lapsed limits s e := by
  have hmem := List.mem_of_getElem? hpc
  have hknown : Known s e ∧ nowMs ≤ s.clockMs := by
    cases pc with
    | checking nowMs' entry ticket session =>
        cases hjudged
        exact ⟨h.known _ hmem e rfl, h.past _ hmem nowMs rfl⟩
    | sweeping nowMs' isLive ids before =>
        rw [State.judges, Option.map_eq_some_iff] at hjudged
        obtain ⟨found, hfound, heq⟩ := hjudged
        cases heq
        rw [Option.bind_eq_some_iff] at hfound
        obtain ⟨id, -, hlookup⟩ := hfound
        exact ⟨(h.stored id e hlookup).1, h.past _ hmem nowMs rfl⟩
    | _ => cases hjudged
  exact ⟨hknown.1, lapsed_of_expired h hknown.1 hknown.2 hexpired
    ((horder pc hpc).expiry (e, nowMs) hjudged hexpired)⟩

/-- Every step that files no plan is a quiet one. -/
theorem quiet_of_advance (h : Inv limits s) (horder : InOrder limits s (.act i pick))
    (hpc : s.threads[i]? = some pc) (hstep : s.advance limits pick pc = some (pc', t))
    (hfile : ∀ nowMs session ticket plan id, pc ≠ .filing nowMs session ticket plan id) :
    Quiet limits s t pc pc' := by
  have hmem := List.mem_of_getElem? hpc
  cases pc with
  | called call =>
      cases call with
      | insert session random plan =>
          cases hstep
          exact .read rfl rfl rfl rfl (fun _ _ he => he) rfl rfl (fun _ he => Or.inl he)
            (fun _ _ _ h => by cases h) trivial rfl rfl (fun u hu => by cases hu; exact le_rfl)
            (fun _ _ h => by cases h)
      | fetch requestId ticket session =>
          cases hstep
          refine .read rfl rfl rfl rfl (fun _ _ he => he) rfl rfl (fun _ he => Or.inl he)
            (fun _ _ _ h => by cases h) trivial rfl rfl (fun u hu => by cases hu; exact le_rfl)
            (fun e u hu => ?_)
          simp only [Pc.about, Pc.comesFor] at hu
          split at hu
          · cases hu
            rfl
          · cases hu
      | touch entry =>
          cases hstep
          exact .using h hmem (fun _ _ _ h => by cases h) rfl (Or.inl rfl)
      | removeSession session =>
          obtain ⟨hlookup, -, -, -, hcells, hused⟩ := s.registry.removeSession_spec session
          have heq := underLock_eq_some hstep
          cases heq
          refine .ended rfl rfl rfl hcells (fun id e he => ?_) rfl hused (fun _ he => Or.inl he)
            (fun _ _ _ h => by cases h)
          have he := (hlookup id).symm.trans he
          split at he
          · cases he
          · exact he
      | sweep isLive =>
          cases hstep
          exact .read rfl rfl rfl rfl (fun _ _ he => he) rfl rfl (fun _ he => Or.inl he)
            (fun _ _ _ h => by cases h) trivial rfl rfl (fun u hu => by cases hu; exact le_rfl)
            (fun _ _ h => by cases h)
  | minting nowMs session random plan =>
      have hpast : nowMs ≤ s.clockMs := h.past _ hmem nowMs rfl
      simp only [State.advance] at hstep
      split at hstep
      · cases hstep
        exact .read rfl rfl rfl rfl (fun _ _ he => he) rfl rfl (fun _ he => Or.inl he)
          (fun _ _ _ h => by cases h) trivial rfl rfl (fun u hu => by cases hu; exact hpast)
          (fun _ _ h => by cases h)
      · split at hstep
        · cases hstep
          exact .ended rfl rfl rfl rfl (fun _ _ he => he) rfl rfl (fun _ he => Or.inl he)
            (fun _ _ _ h => by cases h)
        · cases hstep
          exact .read rfl rfl rfl rfl (fun _ _ he => he) rfl rfl (fun _ he => Or.inl he)
            (fun _ _ _ h => by cases h) trivial rfl rfl (fun u hu => by cases hu; exact hpast)
            (fun _ _ h => by cases h)
  | filing nowMs session ticket plan id => exact absurd rfl (hfile nowMs session ticket plan id)
  | looking nowMs requestId ticket session =>
      have heq := underLock_eq_some hstep
      split at heq
      · cases heq
        exact .ended rfl rfl rfl rfl (fun _ _ he => he) rfl rfl (fun _ he => Or.inl he)
          (fun _ _ _ h => by cases h)
      · rename_i entry hlookup
        cases heq
        obtain ⟨hknown, hid⟩ := h.stored requestId entry hlookup
        refine .calm rfl rfl rfl rfl (fun _ _ he => he) rfl rfl (fun _ he => Or.inl he)
          (fun _ _ _ h => by cases h) trivial (fun e he => by cases he; exact hknown)
          (fun e he e' he' => ?_)
          (fun u hu => by cases hu; exact h.past _ hmem nowMs rfl) (fun e he u hu => ?_)
        · cases he
          rw [hid, hlookup] at he'
          exact (Option.some.inj he').symm
        · simp only [Pc.about, Pc.comesFor] at hu ⊢
          split at hu
          · rename_i hcell
            rw [Known, hcell.symm, hknown] at he
            cases he
            cases hu
            rw [if_pos hid.symm]
            exact Or.inl rfl
          · cases hu
  | checking nowMs entry ticket session =>
      simp only [State.advance] at hstep
      split at hstep
      · rename_i hexpired
        cases hstep
        have hlapsed := lapsed_of_judged h horder hpc rfl hexpired
        exact
          { clock := rfl
            threads := rfl
            issued := rfl
            cells := rfl
            entries := fun _ _ he => he
            uses := fun cell u => ⟨Or.inl, fun hu => hu.resolve_right (by
              rintro ⟨_, _, heq, -⟩
              cases heq)⟩
            used := fun _ => Or.inl rfl
            stored := fun _ _ _ h => by cases h
            entry := fun e he => by cases he; exact hlapsed.1
            own := fun e he => h.own _ hmem e (by cases he; rfl)
            past := fun u hu => by cases hu; exact h.past _ hmem nowMs rfl
            about := fun e _ u hu => Or.inl hu
            removing := fun _ _ heq => by cases heq; exact hlapsed
            expired := fun _ he => Or.inl he }
      · split at hstep
        · cases hstep
          exact .ended rfl rfl rfl rfl (fun _ _ he => he) rfl rfl (fun _ he => Or.inl he)
            (fun _ _ _ h => by cases h)
        · cases hstep
          refine .using h hmem (fun _ _ _ h => by cases h) rfl (Or.inr ⟨?_, rfl⟩)
          simp [Pc.about, Pc.comesFor]
  | touching nowMs entry outcome =>
      cases hstep
      have hstore : s.registry.lastUsedMs entry.cell ≤ nowMs :=
        (horder _ hpc).store (entry, nowMs) rfl
      exact
        { clock := rfl
          threads := rfl
          issued := rfl
          cells := rfl
          entries := fun _ _ he => he
          uses := fun cell u => ⟨Or.inl, fun hu => hu.resolve_right (by
            rintro ⟨_, _, heq, -⟩
            cases heq)⟩
          used := fun cell => by
            by_cases hcell : entry.cell = cell
            · subst hcell
              exact Or.inr ⟨nowMs, entry, outcome, rfl, rfl, Function.update_self ..⟩
            · exact Or.inl (Function.update_of_ne (Ne.symm hcell) ..)
          stored := fun u e o heq => by
            cases heq
            exact ⟨hstore, Function.update_self ..⟩
          entry := fun _ h => by cases h
          own := fun _ h => by cases h
          past := fun _ h => by cases h
          about := fun _ _ _ h => by cases h
          removing := fun _ _ h => by cases h
          expired := fun _ he => Or.inl he }
  | removing nowMs entry =>
      have heq := underLock_eq_some hstep
      cases heq
      have htimes := remove_times s.registry entry.requestId
      refine .ended rfl rfl rfl htimes.1 (fun _ _ he => lookup_remove he) rfl htimes.2
        (fun e he => ?_) (fun _ _ _ h => by cases h)
      rcases List.mem_append.mp he with he | he
      · rw [Option.mem_toList] at he
        obtain rfl := h.own _ hmem entry rfl e he
        exact Or.inr (h.lapsed e (Or.inr ⟨nowMs, hmem⟩))
      · exact Or.inl he
  | locking nowMs isLive =>
      have heq := underLock_eq_some hstep
      cases heq
      exact .read rfl rfl rfl rfl (fun _ _ he => he) rfl rfl (fun _ he => Or.inl he)
        (fun _ _ _ h => by cases h) trivial rfl rfl
        (fun u hu => by cases hu; exact h.past _ hmem nowMs rfl)
        (fun _ _ h => by cases h)
  | sweeping nowMs isLive ids before =>
      simp only [State.advance] at hstep
      split at hstep
      · rename_i id hid
        cases hstep
        obtain ⟨hclock, hthreads, hissued, huses, hcells, hused, hlookup, -, hexpired⟩ :=
          visit_spec limits s nowMs isLive id
        refine .read hclock hthreads hissued hcells hlookup huses hused (fun e he => ?_)
          (fun _ _ _ h => by cases h) trivial rfl rfl
          (fun u hu => by cases hu; exact h.past _ hmem nowMs rfl)
          (fun _ _ h => by cases h)
        refine (hexpired e he).imp_right ?_
        intro hfound
        refine lapsed_of_judged h horder hpc ?_ hfound.2
        rw [State.judges, hid, Option.bind_some, hfound.1]
        rfl
      · split at hstep
        · cases hstep
          exact .ended rfl rfl rfl rfl (fun _ _ he => he) rfl rfl (fun _ he => Or.inl he)
            (fun _ _ _ h => by cases h)
        · cases hstep
  | ended result => cases hstep

theorem Inv.new : Inv limits (State.new : State π) where
  issued := rfl
  stored := nofun
  known := nofun
  own := nofun
  past := nofun
  logged := nofun
  behind := nofun
  pending := nofun
  lapsed := by
    intro e he
    rcases he with he | ⟨nowMs, he⟩
    · cases he
    · cases he

/-- A call that has not read the clock yet is about no plan. -/
theorem Inv.call (h : Inv limits s) (call : TransferCall π) (hcall : s.callable call) :
    Inv limits { s with threads := s.threads ++ [.called call] } := by
  have hall : ∀ {P : Pc π → Prop}, (∀ pc ∈ s.threads, P pc) → P (.called call) →
      ∀ pc ∈ s.threads ++ [.called call], P pc := by
    intro P hold hnew pc hpc
    rcases List.mem_append.mp hpc with hpc | hpc
    · exact hold pc hpc
    · rw [List.mem_singleton.mp hpc]
      exact hnew
  have hmem : ∀ {pc : Pc π}, pc ∈ s.threads ++ [.called call] → pc ≠ .called call →
      pc ∈ s.threads := by
    intro pc hpc hne
    rcases List.mem_append.mp hpc with hpc | hpc
    · exact hpc
    · exact absurd (List.mem_singleton.mp hpc) hne
  constructor
  · exact h.issued
  · exact h.stored
  · refine hall h.known fun e he => ?_
    cases call with
    | touch entry =>
        cases he
        exact hcall
    | _ => cases he
  · exact hall h.own nofun
  · exact hall h.past nofun
  · exact h.logged
  · intro cell hcell u hu
    refine (h.behind cell hcell u hu).imp_right ?_
    rintro ⟨e, outcome, htouching, he⟩
    exact ⟨e, outcome, List.mem_append_left _ htouching, he⟩
  · exact fun u e outcome htouching => h.pending u e outcome (hmem htouching nofun)
  · intro e he
    obtain ⟨hknown, gap, hclock, hgap, hlapses, habout⟩ := h.lapsed e (he.imp_right fun ⟨nowMs, he⟩ =>
      ⟨nowMs, hmem he nofun⟩)
    exact ⟨hknown, gap, hclock, hgap, hlapses, hall habout nofun⟩

theorem Inv.tick (h : Inv limits s) (ms : Nat) : Inv limits { s with clockMs := s.clockMs + ms } where
  issued := h.issued
  stored := h.stored
  known := h.known
  own := h.own
  past pc hpc u hu := (h.past pc hpc u hu).trans (Nat.le_add_right _ _)
  logged := h.logged
  behind := h.behind
  pending := h.pending
  lapsed e he := by
    obtain ⟨hknown, gap, hclock, hrest⟩ := h.lapsed e he
    exact ⟨hknown, gap, hclock.trans (Nat.le_add_right _ _), hrest⟩

/-- A filing step files. -/
theorem advance_filing {nowMs : Nat} {session : SessionId} {ticket : Ticket} {plan : π} {id : Nat}
    (h : s.advance limits pick (.filing nowMs session ticket plan id) = some (pc', t)) :
    t = filed limits s nowMs session ticket plan id ∧ ∃ result, pc' = .ended result := by
  have heq := underLock_eq_some h
  cases heq
  exact ⟨rfl, _, rfl⟩

/-- Steps in order keep the invariant. -/
theorem inductive_inv : (system π limits).Inductive (InOrder limits) (Inv limits) where
  init := by
    intro s hs
    rw [hs]
    exact .new
  step := by
    intro s t a h horder hstep
    cases hstep with
    | tick ms => exact h.tick ms
    | call call hcall => exact h.call call hcall
    | @act i pick pc pc' t hpc hadv =>
        by_cases hfile : ∃ nowMs session ticket plan id, pc = .filing nowMs session ticket plan id
        · obtain ⟨nowMs, session, ticket, plan, id, rfl⟩ := hfile
          obtain ⟨rfl, result, rfl⟩ := advance_filing hadv
          exact h.file hpc ((horder _ hpc).mint id rfl)
        · refine (quiet_of_advance h horder hpc hadv ?_).inv h hpc
          intro nowMs session ticket plan id heq
          exact hfile ⟨nowMs, session, ticket, plan, id, heq⟩

/-- In every run whose calls do not overtake one another, a last use never goes
back, and no plan in steady use is dropped or refused as expired. -/
theorem timely_of_inOrder (limits : Limits) (s t : State π) (a : Label π)
    (hs : (system π limits).ReachableWhere (InOrder limits) s) (ha : InOrder limits s a)
    (hstep : Step limits s a t) : Timely limits s a t := by
  have h := inductive_inv.holds hs
  constructor
  · intro cell hcell
    cases hstep with
    | tick ms => exact le_rfl
    | call call hcall => exact le_rfl
    | @act i pick pc pc' t hpc hadv =>
        by_cases hfile : ∃ nowMs session ticket plan id, pc = .filing nowMs session ticket plan id
        · obtain ⟨nowMs, session, ticket, plan, id, rfl⟩ := hfile
          obtain ⟨rfl, result, rfl⟩ := advance_filing hadv
          show _ ≤ Function.update s.registry.lastUsedMs s.registry.cells nowMs cell
          rw [Function.update_of_ne (Nat.ne_of_lt hcell)]
        · refine (quiet_of_advance h ha hpc hadv ?_).lastUsedMs_le cell
          intro nowMs session ticket plan id heq
          exact hfile ⟨nowMs, session, ticket, plan, id, heq⟩
  · intro i pick pc nowMs id e hact hpc hdrops hlive hlookup hgone
    have hmem := List.mem_of_getElem? hpc
    subst hact
    cases hstep with
    | @act _ _ pc₁ pc' t hpc₁ hadv =>
        obtain rfl : pc₁ = pc := Option.some.inj (hpc₁.symm.trans hpc)
        cases pc₁ with
        | removing nowMs' entry =>
            cases hdrops
            have heq := underLock_eq_some hadv
            cases heq
            have hid : id = entry.requestId := by
              by_contra hne
              refine hgone ?_
              cases hr : s.registry.entries.lookup entry.requestId with
              | none => rwa [TransferRegistry.remove_of_none hr]
              | some e' => rw [(s.registry.remove_spec _ hr).1, if_neg hne, hlookup]
            subst hid
            obtain rfl := h.own _ hmem entry rfl e hlookup
            obtain ⟨-, gap, -, -, hlapses, habout⟩ := h.lapsed e (Or.inr ⟨nowMs, hmem⟩)
            exact hlapses.not_steady (habout _ hmem nowMs (if_pos rfl))
        | sweeping nowMs' isLive ids before =>
            cases hdrops
            simp only [State.advance] at hadv
            split at hadv
            · rename_i id' hid'
              cases hadv
              obtain ⟨rfl, hexpired⟩ :=
                (visit_spec limits s nowMs isLive id').2.2.2.2.2.2.2.1 id e hlookup hgone
              have hexpired := hexpired hlive
              refine (lapsed_of_judged h ha hpc ?_ hexpired).2.not_steady hexpired
              rw [State.judges, hid', Option.bind_some, hlookup]
              rfl
            · split at hadv
              · cases hadv
                exact absurd hlookup hgone
              · cases hadv
        | _ => cases hdrops
  · intro i pick nowMs e ticket session hact hpc hafter
    subst hact
    cases hstep with
    | @act _ _ pc₁ pc' t hpc₁ hadv =>
        obtain rfl : pc₁ = _ := Option.some.inj (hpc₁.symm.trans hpc)
        simp only [State.advance] at hadv
        split at hadv
        · rename_i hexpired
          exact (lapsed_of_judged h ha hpc rfl hexpired).2.not_steady hexpired
        · have hlt : i < s.threads.length := (List.getElem?_eq_some_iff.mp hpc).1
          split at hadv
          · cases hadv
            rw [List.getElem?_set_self hlt] at hafter
            cases hafter
          · cases hadv
            rw [State.use, List.getElem?_set_self hlt] at hafter
            cases hafter
  · intro i pick nowMs id ticket session message hact hpc hafter e he hid
    obtain ⟨-, gap, -, -, hlapses, habout⟩ := h.lapsed e (Or.inl he)
    refine hlapses.not_steady (habout _ (List.mem_of_getElem? hpc) nowMs ?_)
    rw [Pc.about, Pc.comesFor, if_pos hid.symm]
    intro _ _ heq
    cases heq


/-! ### Two fetches of one plan -/

/-- The first plan of a session: it reads the clock, takes an id and is filed. -/
def insertFirst : List (Label Unit) :=
  [.call (.insert Transfers.sessionA (some (Vector.replicate 16 7)) ()), .act 0 0, .act 0 0, .act 0 0]

/-- A fetch of it, up to the store of the time it read, as thread `i`. -/
def fetchFirst (i : Nat) : List (Label Unit) :=
  [.call (.fetch 1 (Vector.replicate 16 7) Transfers.sessionA), .act i 0, .act i 0, .act i 0]

/-- A fetch that read the clock at 40 s stores it over that of one at 50 s. -/
def overtaken : List (Label Unit) :=
  insertFirst ++ [.tick 40000] ++ fetchFirst 1 ++ [.tick 10000] ++ fetchFirst 2 ++ [.act 2 0]

/-- A sweep at 105 s, up to its look at the plan. -/
def sweptAfter : List (Label Unit) :=
  overtaken ++ [.act 1 0, .tick 55000, .call (.sweep ⟨fun _ => true, fun _ => true⟩), .act 3 0,
    .act 3 0]

/-- The state some steps lead to. -/
def after (labels : List (Label Unit)) : State Unit := (labels.foldlM (next {}) .new).getD .new

/-- A run and its last step. -/
theorem step_after {labels : List (Label Unit)} {a : Label Unit}
    (h : ((labels ++ [a]).foldlM (next {}) .new).isSome) :
    (system Unit {}).Reachable (after labels) ∧
      Step {} (after labels) a (after (labels ++ [a])) := by
  obtain ⟨t, ht⟩ := Option.isSome_iff_exists.mp h
  have hafter : after (labels ++ [a]) = t := by
    rw [after, ht, Option.getD_some]
  rw [List.foldlM_append, Option.bind_eq_bind, Option.bind_eq_some_iff] at ht
  obtain ⟨s, hs, ht⟩ := ht
  rw [List.foldlM_cons, Option.bind_eq_bind, Option.bind_eq_some_iff] at ht
  obtain ⟨t', hnext, heq⟩ := ht
  cases heq
  rw [hafter, after, hs, Option.getD_some]
  exact ⟨System.reachable_of_steps (fun _ _ _ => step_of_next) rfl labels hs, step_of_next hnext⟩

/-- A plan fetched at 40 s, and left alone by other calls. -/
theorem timely_of_inOrder_fetch :
    Timely {} (after (insertFirst ++ [.tick 40000] ++ fetchFirst 1)) (.act 1 0)
      (after (insertFirst ++ [.tick 40000] ++ fetchFirst 1 ++ [.act 1 0])) :=
  timely_of_inOrder {} _ _ (.act 1 0)
    (System.reachableWhere_of_steps (fun _ _ _ => step_of_next) rfl
      (insertFirst ++ [.tick 40000] ++ fetchFirst 1) rfl) (by decide) (step_of_next rfl)

/-- The last use goes back from 50 s to 40 s, and the sweep at 105 s drops the plan,
whose uses at 0, 40 and 50 s and this sweep are never more than 60 s apart. -/
theorem overtaken_fetch_loses_plan :
    (∃ s t : State Unit, (system Unit {}).Reachable s ∧ Step {} s (.act 1 0) t ∧
      s.registry.lastUsedMs 0 = 50000 ∧ t.registry.lastUsedMs 0 = 40000) ∧
    ∃ s t : State Unit, (system Unit {}).Reachable s ∧ Step {} s (.act 3 0) t ∧
      s.uses 0 = [50000, 40000, 0] ∧ Steady 60000 (s.uses 0) 105000 ∧
      (s.registry.entries.lookup 1).isSome ∧ t.registry.entries.lookup 1 = none ∧
      s.threads[3]?.bind Pc.dropsAt = some 105000 := by
  constructor
  · obtain ⟨hreach, hstep⟩ := @step_after overtaken (.act 1 0) rfl
    exact ⟨_, _, hreach, hstep, rfl, rfl⟩
  · obtain ⟨hreach, hstep⟩ := @step_after sweptAfter (.act 3 0) rfl
    exact ⟨_, _, hreach, hstep, rfl, by decide, rfl, rfl, rfl⟩

end PlanClock

end Aex
