import Aex.Lib.Recency
import Aex.Server.TransferSessions

/-!
# Which plan an insert evicts

The plan evicted has the least stamp, and is the first listed with it.  Next to the
registry stands the order its plans were used in, which the stamps follow only from
one millisecond to the next.
-/

namespace Aex

open Lts Recency

namespace TransferRegistry

variable {π : Type} {limits : Limits} {r : TransferRegistry π}

/-- The cells of a session's plans, in the order they are listed. -/
def cellsOf (r : TransferRegistry π) (session : SessionId) : List Nat :=
  (r.idsOf session).filterMap fun id => (r.entries.lookup id).map TransferEntry.cell

theorem argmin_map {α β : Type} (g : α → β) (f : β → Nat) (l : List α) :
    (l.map g).argmin f = (l.argmin (f ∘ g)).map g := by
  induction l using List.reverseRecOn with
  | nil => rfl
  | append_singleton l a ih =>
      rw [List.map_append, List.map_singleton, List.argmin_concat, List.argmin_concat, ih]
      cases l.argmin (f ∘ g) with
      | none => rfl
      | some b =>
          simp only [Option.map_some, Function.comp_apply]
          split <;> rfl

/-- The plan that goes first is the first of the least stamps. -/
theorem leastRecentlyUsed_argmin {entries : Table.Map Nat (TransferEntry π)}
    {lastUsedMs : Nat → Nat} {ids : List Nat} {position : Nat}
    (h : leastRecentlyUsed entries lastUsedMs ids = some position) :
    ∃ id e, ids[position]? = some id ∧ entries.lookup id = some e ∧
      e.cell ∈ (ids.filterMap fun id => (entries.lookup id).map TransferEntry.cell).argmin
        lastUsedMs := by
  obtain ⟨listed, hlisted⟩ : ∃ listed : List (Nat × TransferEntry π),
    listed = ids.zipIdx.filterMap fun entry =>
      (entries.lookup entry.1).map fun e => (entry.2, e) := ⟨_, rfl⟩
  have hstamps : (ids.zipIdx.filterMap fun entry =>
      (entries.lookup entry.1).map fun e => (entry.2, lastUsedMs e.cell)) =
        listed.map fun pe => (pe.1, lastUsedMs pe.2.cell) := by
    simp [hlisted, List.map_filterMap, Option.map_map, Function.comp_def]
  have hcells : (ids.filterMap fun id => (entries.lookup id).map TransferEntry.cell) =
      listed.map fun pe => pe.2.cell := by
    conv_lhs => rw [← List.zipIdx_map_fst 0 ids, List.filterMap_map]
    simp [hlisted, List.map_filterMap, Option.map_map, Function.comp_def]
  rw [leastRecentlyUsed, hstamps, argmin_map, Option.map_map] at h
  obtain ⟨⟨p, e⟩, hmin, rfl⟩ := Option.map_eq_some_iff.mp h
  obtain ⟨⟨id, q⟩, hmem, hp⟩ := List.mem_filterMap.mp (hlisted ▸ List.argmin_mem hmin)
  obtain ⟨e', he, heq⟩ := Option.map_eq_some_iff.mp hp
  cases heq
  refine ⟨id, e, List.mem_zipIdx_iff_getElem?.mp hmem, he, ?_⟩
  rw [hcells, argmin_map, Option.mem_def, Option.map_eq_some_iff]
  exact ⟨_, hmin, rfl⟩

/-- One round of the eviction is enough for a list at the cap. -/
theorem evict_at_cap {cap : Nat} (hcap : 0 < cap) {entries : Table.Map Nat (TransferEntry π)}
    (lastUsedMs : Nat → Nat) {ids : List Nat} (hlength : ids.length = cap)
    (hstored : ∀ id ∈ ids, (entries.lookup id).isSome) :
    ∃ position id, leastRecentlyUsed entries lastUsedMs ids = some position ∧
      ids[position]? = some id ∧
      (evict cap lastUsedMs ids.length entries ids).1 = entries.erase id := by
  obtain ⟨n, hn⟩ := Nat.exists_eq_succ_of_ne_zero (hlength ▸ hcap.ne')
  obtain ⟨first, hfirst⟩ := List.exists_mem_of_length_pos (hlength ▸ hcap)
  obtain ⟨position, hposition⟩ :=
    Option.ne_none_iff_exists'.mp (leastRecentlyUsed_ne_none hfirst (hstored first hfirst))
  have hlt := leastRecentlyUsed_spec hposition
  refine ⟨position, ids[position], hposition, List.getElem?_eq_getElem hlt, ?_⟩
  rw [hn, Nat.succ_eq_add_one, evict, if_neg (by omega), hposition]
  simp only [List.getElem?_eq_getElem hlt]
  cases n with
  | zero => rfl
  | succ n =>
      have hshort : (Vec.swapRemove ids position).length < cap := by
        rw [Vec.length_swapRemove hlt]
        omega
      rw [evict, if_pos hshort]

/-- Below the cap nothing is evicted. -/
theorem evict_below {cap fuel : Nat} {entries : Table.Map Nat (TransferEntry π)}
    {lastUsedMs : Nat → Nat} {ids : List Nat} (hlength : ids.length < cap) :
    evict cap lastUsedMs fuel entries ids = (entries, ids) := by
  cases fuel with
  | zero => rfl
  | succ fuel => rw [evict, if_pos hlength]

/-- What an insert evicts: nothing below the cap, and at the cap one plan. -/
theorem Listed.insertAt_evicts (h : r.Listed limits) (hcap : 0 < limits.maxTransfersPerSession)
    {session : SessionId} {ticket : Ticket} {plan : π} {nowMs id : Nat} {e : TransferEntry π}
    (hfresh : r.entries.lookup r.nextRequestId.1 = none)
    (he : r.entries.lookup id = some e) :
    (TransferRegistry.insertAt limits r session (some ticket) plan nowMs).2.entries.lookup id = none ↔
      (r.idsOf session).length = limits.maxTransfersPerSession ∧ ∃ position,
        leastRecentlyUsed r.entries (Function.update r.lastUsedMs r.cells nowMs)
          (r.idsOf session) = some position ∧ (r.idsOf session)[position]? = some id := by
  have hne : id ≠ r.nextRequestId.1 := by
    rintro rfl
    rw [hfresh] at he
    cases he
  have hstored : ∀ id ∈ r.idsOf session, (r.entries.lookup id).isSome := by
    intro id hid
    obtain ⟨e, he, -⟩ := h.own session id hid
    simp [he]
  have hafter : (TransferRegistry.insertAt limits r session (some ticket) plan nowMs).2.entries.lookup id =
      (evict limits.maxTransfersPerSession (Function.update r.lastUsedMs r.cells nowMs)
        (r.idsOf session).length r.entries (r.idsOf session)).1.lookup id := by
    have hsnd := r.nextRequestId_snd
    have hids := h.storedIds_eq session
    unfold storedIds idsOf at hids
    unfold idsOf
    simp only [TransferRegistry.insertAt]
    rw [hsnd, hids, AList.lookup_insert_ne hne]
  rw [hafter]
  rcases (h.capped session).lt_or_eq with hlt | hfull
  · rw [evict_below hlt, he]
    simp [hlt.ne]
  · obtain ⟨position, first, hposition, hfirst, hevict⟩ :=
      evict_at_cap hcap (Function.update r.lastUsedMs r.cells nowMs) hfull hstored
    rw [hevict, hposition]
    constructor
    · intro hnone
      refine ⟨hfull, position, rfl, ?_⟩
      by_contra hother
      have hid : id ≠ first := by
        rintro rfl
        exact hother hfirst
      rw [AList.lookup_erase_ne hid, he] at hnone
      cases hnone
    · rintro ⟨-, p, hp, hid⟩
      cases hp
      rw [hfirst] at hid
      cases hid
      exact AList.lookup_erase _ _

end TransferRegistry

/-- The registry with its clock, and the cells of the plans its calls used, in order. -/
structure UsedTransfers (π : Type) where
  transfers : Transfers π
  nowMs : Nat
  uses : List Nat

namespace UsedTransfers

open Transfers TransferRegistry

variable {π : Type} {limits : Limits} {s t : UsedTransfers π}

/-- The plan a call uses: one it inserts, fetches or touches. -/
def used (limits : Limits) (s : Transfers π) : Nat × TransferCall π → Option (TransferEntry π)
  | (nowMs, .insert session random plan) =>
      (s.registry.insertAt limits session random plan nowMs).1.toOption
  | (nowMs, .fetch requestId ticket session) =>
      (s.registry.fetch limits nowMs requestId ticket session).1.toOption
  | (_, .touch entry) => some entry
  | (_, .removeSession _) => none
  | (_, .sweep _) => none

def call (limits : Limits) (s : UsedTransfers π) (a : Nat × TransferCall π) : UsedTransfers π :=
  ⟨s.transfers.call limits a, a.1,
    s.uses ++ ((used limits s.transfers a).map TransferEntry.cell).toList⟩

/-- Calls in any order, on a clock that does not go back and may stand still. -/
def system (π : Type) (limits : Limits) : System (UsedTransfers π) (Nat × TransferCall π) where
  init s := s = ⟨.new, 0, []⟩
  step s a t := s.nowMs ≤ a.1 ∧ s.transfers.Enabled a ∧ t = s.call limits a

/-- A plan an insert evicts is one of its session's, and the one used longest ago. -/
def EvictsOldest (limits : Limits) (s : UsedTransfers π) (a : Nat × TransferCall π) : Prop :=
  ∀ session random plan, a.2 = .insert session random plan →
    ∀ id e, s.transfers.registry.entries.lookup id = some e →
      (s.call limits a).transfers.registry.entries.lookup id = none →
        e.session = session ∧
        ∀ id' e', s.transfers.registry.entries.lookup id' = some e' → e'.session = session →
          id' ≠ id → age s.uses e'.cell < age s.uses e.cell

/-- An insert at the cap finds nothing listed before the plan used longest ago with
the same time of last use. -/
def NoTie (limits : Limits) (s : UsedTransfers π) (a : Nat × TransferCall π) : Prop :=
  ∀ session ticket plan, a.2 = .insert session (some ticket) plan →
    (s.transfers.registry.idsOf session).length = limits.maxTransfersPerSession →
      Untied s.uses (s.transfers.registry.cellsOf session) s.transfers.registry.lastUsedMs

/-- No insert reuses the id of a stored plan, and a sweep settles what it keeps. -/
def Orderly (limits : Limits) (s : UsedTransfers π) (a : Nat × TransferCall π) : Prop :=
  FreshMint s.transfers a ∧ Settled limits s.transfers a

/-! ## The order of the uses -/

/-- The runs of the registry under the recorded ones. -/
theorem transfers_reachable (h : (system π limits).ReachableWhere (Orderly limits) s) :
    (Transfers.system π limits).ReachableWhere
      (fun s a => FreshMint s a ∧ Settled limits s a) s.transfers := by
  induction h with
  | init h => exact .init (congrArg UsedTransfers.transfers h)
  | step _ hp hs ih =>
      obtain ⟨-, henabled, rfl⟩ := hs
      exact ih.step hp ⟨henabled, rfl⟩

/-- A call stamps the plan it uses with its own time, and no other. -/
theorem lastUsedMs_call (limits : Limits) (s : Transfers π) (a : Nat × TransferCall π) :
    (s.call limits a).registry.lastUsedMs = match used limits s a with
      | some e => Function.update s.registry.lastUsedMs e.cell a.1
      | none => s.registry.lastUsedMs := by
  obtain ⟨nowMs, c⟩ := a
  cases c with
  | insert session random plan =>
      rw [Transfers.call, hand_registry, used]
      cases random with
      | none => rw [insertAt_none]; rfl
      | some ticket =>
          obtain ⟨hok, -, -, hused, -⟩ :=
            insertAt_spec limits s.registry session ticket plan nowMs rfl rfl
          rw [hok, hused]
          rfl
  | fetch requestId ticket session =>
      rw [Transfers.call, hand_registry, used]
      rcases fetch_cases limits s.registry nowMs requestId ticket session with
        ⟨error, heq⟩ | ⟨e, error, he, -, heq⟩ | ⟨e, -, -, -, -, heq⟩
      · rw [heq]
        rfl
      · rw [heq]
        exact (s.registry.remove_spec requestId he).2.2.2.2
      · rw [heq]
        rfl
  | touch entry => rfl
  | removeSession session => exact (s.registry.removeSession_spec session).2.2.2.2.2
  | sweep isLive => exact (sweepAt_spec limits s.registry nowMs isLive rfl).2.2.2.2

/-- A call hands out nothing but the plan it uses. -/
theorem mem_handed_call (limits : Limits) {s : Transfers π} {a : Nat × TransferCall π}
    (ha : s.Enabled a) {e : TransferEntry π} :
    e ∈ (s.call limits a).handed ↔ e ∈ s.handed ∨ used limits s a = some e := by
  obtain ⟨nowMs, c⟩ := a
  cases c with
  | insert session random plan =>
      rw [Transfers.call, used]
      generalize s.registry.insertAt limits session random plan nowMs = result
      obtain ⟨_ | e', r⟩ := result <;> simp [hand, Except.toOption, or_comm, eq_comm]
  | fetch requestId ticket session =>
      rw [Transfers.call, used]
      generalize s.registry.fetch limits nowMs requestId ticket session = result
      obtain ⟨_ | e', r⟩ := result <;> simp [hand, Except.toOption, or_comm, eq_comm]
  | touch entry =>
      constructor
      · exact .inl
      · rintro (he | he)
        · exact he
        · cases he
          exact ha
  | removeSession session => simp [Transfers.call, used]
  | sweep isLive => simp [Transfers.call, used]

/-- The cells used are those of the entries handed out, and their stamps follow the uses. -/
structure Recorded (s : UsedTransfers π) : Prop where
  handed : ∀ c, c ∈ s.uses ↔ ∃ e ∈ s.transfers.handed, e.cell = c
  stamped : Stamped s.uses s.transfers.registry.lastUsedMs s.nowMs

theorem inductive_recorded : (system π limits).Inductive (Orderly limits) Recorded where
  init := by
    rintro s rfl
    exact ⟨by simp [Transfers.new], stamped_nil⟩
  step := by
    rintro s t a h - ⟨hnow, henabled, rfl⟩
    have hstamps := lastUsedMs_call limits s.transfers a
    refine ⟨fun c => ?_, ?_⟩
    · simp only [call, List.mem_append, h.handed, mem_handed_call limits henabled,
        Option.mem_toList, Option.map_eq_some_iff]
      grind
    · cases hused : used limits s.transfers a with
      | none =>
          rw [hused] at hstamps
          simp only [call, hused, hstamps, Option.map_none, Option.toList_none, List.append_nil]
          exact h.stamped.wait hnow
      | some e =>
          rw [hused] at hstamps
          simp only [call, hused, hstamps, Option.map_some, Option.toList_some]
          exact h.stamped.use hnow

/-! ## The plan evicted -/

section Evicted

variable {session : SessionId} {id : Nat} {e : TransferEntry π}

theorem mem_cellsOf {r : TransferRegistry π} (h : r.Indexed limits) {c : Nat} :
    c ∈ r.cellsOf session ↔
      ∃ id e, r.entries.lookup id = some e ∧ e.session = session ∧ e.cell = c := by
  simp only [cellsOf, List.mem_filterMap, Option.map_eq_some_iff]
  constructor
  · rintro ⟨id, hid, e, he, rfl⟩
    exact ⟨id, e, he, h.session_eq hid he, rfl⟩
  · rintro ⟨id, e, he, rfl, rfl⟩
    exact ⟨id, h.complete id e he, e, he, rfl⟩

/-- Stored plans have cells of their own. -/
theorem id_eq_of_cell_eq {s : Transfers π} (h : (Transfers.system π limits).Reachable s)
    {id' : Nat} {e' : TransferEntry π} (he : s.registry.entries.lookup id = some e)
    (he' : s.registry.entries.lookup id' = some e') (hcell : e.cell = e'.cell) : id = id' := by
  have hhanded := handed_of_reachable h
  have hsame := hhanded.cell_inj e (hhanded.stored id e he) e' (hhanded.stored id' e' he') hcell
  rw [← keyed_of_reachable h id e he, hsame, keyed_of_reachable h id' e' he']

theorem cellsOf_nodup {s : Transfers π} (h : (Transfers.system π limits).Reachable s)
    (hlisted : s.registry.Listed limits) : (s.registry.cellsOf session).Nodup := by
  refine List.Nodup.filterMap ?_ (hlisted.nodup session)
  intro id id' c hc hc'
  obtain ⟨e, he, rfl⟩ := Option.map_eq_some_iff.mp hc
  obtain ⟨e', he', hcell⟩ := Option.map_eq_some_iff.mp hc'
  exact id_eq_of_cell_eq h he he' hcell.symm

/-- At the cap an insert evicts one plan, the first of the least stamps. -/
theorem evicted_argmin {r : TransferRegistry π} (h : r.Indexed limits)
    (hcap : 0 < limits.maxTransfersPerSession) (hfresh : r.entries.lookup r.nextRequestId.1 = none)
    (hfull : (r.idsOf session).length = limits.maxTransfersPerSession) (nowMs : Nat) :
    ∃ id e, r.entries.lookup id = some e ∧
      e.cell ∈ (r.cellsOf session).argmin (Function.update r.lastUsedMs r.cells nowMs) ∧
      ∀ ticket plan id' e', r.entries.lookup id' = some e' →
        ((r.insertAt limits session (some ticket) plan nowMs).2.entries.lookup id' = none ↔
          id' = id) := by
  have hstored : ∀ id ∈ r.idsOf session, (r.entries.lookup id).isSome := by
    intro id hid
    obtain ⟨e, he, -⟩ := h.own session id hid
    simp [he]
  obtain ⟨position, id, hposition, hid, -⟩ :=
    evict_at_cap hcap (Function.update r.lastUsedMs r.cells nowMs) hfull hstored
  obtain ⟨first, e, hfirst, he, hmin⟩ := leastRecentlyUsed_argmin hposition
  rw [hid] at hfirst
  cases hfirst
  refine ⟨id, e, he, hmin, fun ticket plan id' e' he' => ?_⟩
  rw [h.insertAt_evicts hcap hfresh he', hposition]
  constructor
  · rintro ⟨-, p, hp, hid'⟩
    cases hp
    rw [hid] at hid'
    exact (Option.some.inj hid').symm
  · rintro rfl
    exact ⟨hfull, position, rfl, hid⟩

theorem oldest_iff_untied (h : s.Recorded) (hrun : (Transfers.system π limits).Reachable s.transfers)
    (hindexed : s.transfers.registry.Indexed limits) (hcap : 0 < limits.maxTransfersPerSession)
    {nowMs : Nat} {ticket : Ticket} {plan : π}
    (hfresh : FreshMint s.transfers (nowMs, .insert session (some ticket) plan))
    (hfull : (s.transfers.registry.idsOf session).length = limits.maxTransfersPerSession) :
    (∀ id e, s.transfers.registry.entries.lookup id = some e →
      (s.transfers.registry.insertAt limits session (some ticket) plan nowMs).2.entries.lookup id =
        none → e.session = session ∧
        ∀ id' e', s.transfers.registry.entries.lookup id' = some e' → e'.session = session →
          id' ≠ id → age s.uses e'.cell < age s.uses e.cell) ↔
      Untied s.uses (s.transfers.registry.cellsOf session) s.transfers.registry.lastUsedMs := by
  have hhanded := handed_of_reachable hrun
  have hused : ∀ c ∈ s.uses, c < s.transfers.registry.cells := by
    intro c hc
    obtain ⟨e, he, rfl⟩ := (h.handed c).mp hc
    exact hhanded.below e he
  have hstamps : ∀ c ∈ s.uses,
      Function.update s.transfers.registry.lastUsedMs s.transfers.registry.cells nowMs c =
        s.transfers.registry.lastUsedMs c := fun c hc =>
    Function.update_of_ne (Nat.ne_of_lt (hused c hc)) _ _
  have hcells : ∀ c ∈ s.transfers.registry.cellsOf session, c ∈ s.uses := by
    intro c hc
    obtain ⟨id, e, he, -, rfl⟩ := (mem_cellsOf hindexed).mp hc
    exact (h.handed _).mpr ⟨e, hhanded.stored id e he, rfl⟩
  obtain ⟨first, e, he, hmin, hevicts⟩ := evicted_argmin hindexed hcap hfresh hfull nowMs
  rw [← untied_congr fun c hc => hstamps c (hcells c hc),
    ← (h.stamped.congr hstamps).argmin_oldest_iff hcells
      (cellsOf_nodup hrun hindexed.toListed) hmin]
  obtain ⟨id, e', he', hsession, hcell⟩ := (mem_cellsOf hindexed).mp (List.argmin_mem hmin)
  obtain rfl := id_eq_of_cell_eq hrun he' he hcell
  rw [he'] at he
  cases he
  constructor
  · intro holdest c hc hne
    obtain ⟨id', e', he'', hsession', rfl⟩ := (mem_cellsOf hindexed).mp hc
    refine (holdest id e he' ((hevicts ticket plan id e he').mpr rfl)).2 id' e' he'' hsession' ?_
    rintro rfl
    rw [he'] at he''
    cases he''
    exact hne rfl
  · intro holdest id' e'' he'' hnone
    obtain rfl := (hevicts ticket plan id' e'' he'').mp hnone
    rw [he'] at he''
    cases he''
    refine ⟨hsession, fun other o ho howner hne => holdest _ ?_ fun hsame => hne ?_⟩
    · exact (mem_cellsOf hindexed).mpr ⟨other, o, ho, howner, rfl⟩
    · exact id_eq_of_cell_eq hrun ho he' hsame

/-- An insert evicts the plan of its session that was used longest ago exactly when, at
the cap, no plan listed before that one has the same time of last use. -/
theorem evictsOldest_iff_noTie (config : ValidConfig) (s : UsedTransfers π)
    (h : (system π config.limits).ReachableWhere (Orderly config.limits) s)
    (a : Nat × TransferCall π) (hfresh : FreshMint s.transfers a) :
    s.EvictsOldest config.limits a ↔ s.NoTie config.limits a := by
  have hcap := config.maxTransfers_pos
  have hrun := transfers_reachable h
  have hindexed := (inductive_indexed hcap).holds hrun
  have hrecorded := inductive_recorded.holds h
  obtain ⟨nowMs, c⟩ := a
  constructor
  · rintro hold session ticket plan rfl hfull
    refine (oldest_iff_untied hrecorded hrun.reachable hindexed hcap hfresh
      hfull).mp fun id e he hnone => hold session (some ticket) plan rfl id e he ?_
    rw [call, Transfers.call, hand_registry]
    exact hnone
  · rintro huntied session random plan rfl id e he hnone
    rw [call, Transfers.call, hand_registry] at hnone
    cases random with
    | none =>
        rw [insertAt_none, he] at hnone
        cases hnone
    | some ticket =>
        have hfull := ((hindexed.insertAt_evicts hcap hfresh he).mp hnone).1
        exact (oldest_iff_untied hrecorded hrun.reachable hindexed hcap hfresh
          hfull).mpr (huntied session ticket plan rfl hfull) id e he hnone

end Evicted

/-! ## Uses in one millisecond -/

/-- A session may hold two plans. -/
def twoPlans : ValidConfig := ⟨{ limits := { maxTransfersPerSession := 2 } }, rfl⟩

/-- Two plans are inserted, and then the first is fetched. -/
def firstFetched (first second fetched : Nat) : UsedTransfers Unit :=
  (⟨.new, 0, []⟩ : UsedTransfers Unit).call twoPlans.limits
      (first, .insert sessionA (some sessionA) ()) |>.call twoPlans.limits
      (second, .insert sessionA (some sessionA) ()) |>.call twoPlans.limits
      (fetched, .fetch 1 sessionA sessionA)

theorem firstFetched_reachable {first second fetched : Nat} (hsecond : first ≤ second)
    (hfetched : second ≤ fetched) :
    (system Unit twoPlans.limits).ReachableWhere (Orderly twoPlans.limits)
      (firstFetched first second fetched) := by
  refine .step (a := (fetched, .fetch 1 sessionA sessionA))
    (.step (a := (second, .insert sessionA (some sessionA) ()))
      (.step (a := (first, .insert sessionA (some sessionA) ())) (.init rfl)
        ⟨?_, trivial⟩ ⟨Nat.zero_le _, trivial, rfl⟩)
      ⟨?_, trivial⟩ ⟨hsecond, trivial, rfl⟩)
    ⟨trivial, trivial⟩ ⟨hfetched, trivial, rfl⟩
  · rfl
  · rfl

/-- One millisecond apart, the plan inserted second goes. -/
theorem evictsOldest_iff_noTie_apart :
    (firstFetched 1 2 3).EvictsOldest twoPlans.limits
      (4, .insert sessionA (some sessionA) ()) := by
  have hfresh : FreshMint (firstFetched 1 2 3).transfers
      (4, .insert sessionA (some sessionA) ()) := rfl
  refine (evictsOldest_iff_noTie twoPlans _ (firstFetched_reachable (by decide) (by decide)) _
    hfresh).mpr ?_
  rintro session ticket plan heq - front b back hcells hb c hc
  cases heq
  have hcells : [0, 1] = front ++ b :: back := hcells
  match front, hcells with
  | [], _ => cases hc
  | [_], hcells =>
      cases hcells
      obtain rfl := List.mem_singleton.mp hc
      decide
  | _ :: _ :: front, hcells => simp at hcells

/-- Within one millisecond, the plan just fetched goes. -/
theorem tied_insert_evicts_newest : ¬ ∀ (config : ValidConfig) (s : UsedTransfers Unit)
    (a : Nat × TransferCall Unit), (system Unit config.limits).Reachable s → s.nowMs ≤ a.1 →
      s.EvictsOldest config.limits a := by
  intro h
  have hevicted := h twoPlans (firstFetched 0 0 0) (0, .insert sessionA (some sessionA) ())
    (firstFetched_reachable (Nat.le_refl _) (Nat.le_refl _)).reachable (by decide) sessionA
    (some sessionA) () rfl 1 ⟨1, sessionA, sessionA, (), 0⟩ (by decide) (by decide)
  have holder := hevicted.2 2 ⟨2, sessionA, sessionA, (), 1⟩ (by decide) rfl (by decide)
  revert holder
  decide

end UsedTransfers

end Aex
