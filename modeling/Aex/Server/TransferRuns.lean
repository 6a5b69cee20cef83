import Aex.Server.Transfer

/-!
# Runs of the transfer registry

Inserts, fetches, touches, ended sessions and sweeps, in any order and by any
sessions.  The two indexes of the registry agree in every run whose inserts mint
ids that are not in use and whose sweeps get one answer for each session that
keeps a plan.
-/

namespace Aex

open Lts

namespace TransferRegistry

variable {π : Type} {limits : Limits} {r : TransferRegistry π}

/-! ## What the registry holds -/

/-- The ids listed under a session. -/
def idsOf (r : TransferRegistry π) (session : SessionId) : List Nat :=
  (r.bySession.lookup session).getD []

/-- The ids of the stored plans a session owns. -/
def plansOf (r : TransferRegistry π) (session : SessionId) : List Nat :=
  (r.entries.entries.filter fun p => p.2.session = session).map Sigma.fst

/-- The two indexes agree, and no session is over its cap. -/
structure Consistent (limits : Limits) (r : TransferRegistry π) : Prop where
  listedOnce : ∀ id e, r.entries.lookup id = some e → ∀ session,
    (r.idsOf session).count id = if session = e.session then 1 else 0
  stored : ∀ session, ∀ id ∈ r.idsOf session, (r.entries.lookup id).isSome
  capped : ∀ session, (r.plansOf session).length ≤ limits.maxTransfersPerSession

/-- What every fresh mint keeps: a session lists ids of plans of its own, each
once, and no more of them than its cap. -/
structure Listed (limits : Limits) (r : TransferRegistry π) : Prop where
  own : ∀ session, ∀ id ∈ r.idsOf session, ∃ e, r.entries.lookup id = some e ∧ e.session = session
  nodup : ∀ session, (r.idsOf session).Nodup
  capped : ∀ session, (r.idsOf session).length ≤ limits.maxTransfersPerSession

/-- The working form of consistency: each list enumerates its session's plans. -/
structure Indexed (limits : Limits) (r : TransferRegistry π) : Prop extends Listed limits r where
  complete : ∀ id e, r.entries.lookup id = some e → id ∈ r.idsOf e.session

theorem mem_plansOf {session : SessionId} {id : Nat} :
    id ∈ r.plansOf session ↔ ∃ e, r.entries.lookup id = some e ∧ e.session = session := by
  simp only [plansOf, List.mem_map, List.mem_filter, decide_eq_true_eq]
  constructor
  · rintro ⟨⟨id', e⟩, ⟨hmem, hsession⟩, rfl⟩
    exact ⟨e, AList.mem_lookup_iff.mpr hmem, hsession⟩
  · rintro ⟨e, he, hsession⟩
    exact ⟨⟨id, e⟩, ⟨AList.mem_lookup_iff.mp he, hsession⟩, rfl⟩

theorem plansOf_nodup (r : TransferRegistry π) (session : SessionId) :
    (r.plansOf session).Nodup :=
  List.Nodup.sublist (List.filter_sublist.map _) r.entries.nodupKeys

/-- A listed plan that is stored is the listing session's own. -/
theorem Listed.session_eq (h : r.Listed limits) {session : SessionId} {id : Nat}
    (hid : id ∈ r.idsOf session) {e : TransferEntry π} (he : r.entries.lookup id = some e) :
    e.session = session := by
  obtain ⟨e', he', hsession⟩ := h.own session id hid
  rw [he] at he'
  cases he'
  exact hsession

theorem Indexed.plansOf_perm (h : r.Indexed limits) (session : SessionId) :
    (r.idsOf session).Perm (r.plansOf session) := by
  refine (List.perm_ext_iff_of_nodup (h.nodup session) (r.plansOf_nodup session)).mpr fun id => ?_
  rw [mem_plansOf]
  constructor
  · exact h.own session id
  · rintro ⟨e, he, rfl⟩
    exact h.complete id e he

theorem Indexed.consistent (h : r.Indexed limits) : r.Consistent limits where
  listedOnce := by
    intro id e he session
    split
    · rename_i hsession
      exact List.count_eq_one_of_mem (h.nodup session) (hsession ▸ h.complete id e he)
    · rename_i hsession
      exact List.count_eq_zero_of_not_mem fun hid => hsession (h.session_eq hid he).symm
  stored := by
    intro session id hid
    obtain ⟨e, he, -⟩ := h.own session id hid
    simp [he]
  capped session := (h.plansOf_perm session).length_eq ▸ h.capped session

/-! ## What each call does -/

/-- The ids listed under a session that still name a stored plan. -/
def storedIds (r : TransferRegistry π) (session : SessionId) : List Nat :=
  (r.idsOf session).filter fun id => (r.entries.lookup id).isSome

/-- An insert takes some of the session's own stored ids out, and adds its own. -/
theorem insertAt_spec (limits : Limits) (r : TransferRegistry π) (session : SessionId)
    (ticket : Ticket) (plan : π) (nowMs : Nat) {entry : TransferEntry π}
    (hentry : entry = ⟨r.nextRequestId.1, session, ticket, plan, r.cells⟩)
    {t : TransferRegistry π} (ht : (insertAt limits r session (some ticket) plan nowMs).2 = t) :
    (insertAt limits r session (some ticket) plan nowMs).1 = .ok entry ∧
    t.nextId = r.nextRequestId.2.nextId ∧ t.cells = r.cells + 1 ∧
    t.lastUsedMs = Function.update r.lastUsedMs r.cells nowMs ∧
    ∃ gone kept, (gone ++ kept).Perm (r.storedIds session) ∧
      (∀ id, t.entries.lookup id = if id = r.nextRequestId.1 then some entry
        else if id ∈ gone then none else r.entries.lookup id) ∧
      (∀ other, t.idsOf other =
        if other = session then kept ++ [r.nextRequestId.1] else r.idsOf other) ∧
      (0 < limits.maxTransfersPerSession → (r.storedIds session).Nodup →
        kept.length < limits.maxTransfersPerSession) := by
  have hsnd := r.nextRequestId_snd
  subst hentry ht
  simp only [insertAt]
  rw [hsnd]
  refine ⟨rfl, trivial, rfl, rfl, ?_⟩
  obtain ⟨gone, hperm, hlookup⟩ := evict_perm limits.maxTransfersPerSession
    (Function.update r.lastUsedMs r.cells nowMs) (r.storedIds session).length r.entries
    (r.storedIds session)
  refine ⟨gone, _, hperm, fun id => ?_, fun other => ?_, fun hcap hnodup => ?_⟩
  · by_cases hid : id = r.nextRequestId.1
    · rw [hid, AList.lookup_insert, if_pos rfl]
    · rw [AList.lookup_insert_ne hid, if_neg hid]
      exact hlookup id
  · by_cases hother : other = session
    · subst hother
      simp only [idsOf, AList.lookup_insert, Option.getD_some, if_true]
      rfl
    · simp only [idsOf, AList.lookup_insert_ne hother, if_neg hother]
  · refine evict_length_lt hcap _ le_rfl hnodup fun id hid => ?_
    exact (List.mem_filter.mp hid).2

theorem insertAt_none (limits : Limits) (r : TransferRegistry π) (session : SessionId) (plan : π)
    (nowMs : Nat) :
    (insertAt limits r session none plan nowMs).2 =
      { r with nextId := r.nextRequestId.2.nextId } := by
  simp only [insertAt]
  exact r.nextRequestId_snd

theorem remove_spec (r : TransferRegistry π) (requestId : Nat) {e : TransferEntry π}
    (he : r.entries.lookup requestId = some e) :
    (∀ id, (r.remove requestId).entries.lookup id =
      if id = requestId then none else r.entries.lookup id) ∧
    (∀ session, (r.remove requestId).idsOf session =
      if session = e.session then (r.idsOf session).filter (· ≠ requestId)
      else r.idsOf session) ∧
    (r.remove requestId).nextId = r.nextId ∧ (r.remove requestId).cells = r.cells ∧
    (r.remove requestId).lastUsedMs = r.lastUsedMs := by
  simp only [remove, he]
  refine ⟨fun id => ?_, fun session => ?_, by cases r.bySession.lookup e.session <;> simp⟩
  · by_cases hid : id = requestId
    · rw [hid, AList.lookup_erase]
      simp
    · rw [AList.lookup_erase_ne hid, if_neg hid]
  · by_cases hsession : session = e.session
    · subst hsession
      cases hids : r.bySession.lookup e.session with
      | none => simp [idsOf, hids]
      | some ids => simp [idsOf, hids]
    · rw [if_neg hsession]
      cases hids : r.bySession.lookup e.session with
      | none => rfl
      | some ids => simp only [idsOf, AList.lookup_insert_ne hsession]

theorem foldl_erase_lookup (ids : List Nat) (entries : Table.Map Nat (TransferEntry π)) (id : Nat) :
    (ids.foldl (fun entries id => entries.erase id) entries).lookup id =
      if id ∈ ids then none else entries.lookup id := by
  induction ids generalizing entries with
  | nil => simp
  | cons x ids ih =>
      rw [List.foldl_cons, ih]
      by_cases hx : id = x
      · rw [hx, AList.lookup_erase]
        simp
      · simp [hx, AList.lookup_erase_ne hx]

theorem removeSession_spec (r : TransferRegistry π) (session : SessionId) :
    (∀ id, (r.removeSession session).2.entries.lookup id =
      if id ∈ r.idsOf session then none else r.entries.lookup id) ∧
    (∀ other, (r.removeSession session).2.idsOf other =
      if other = session then [] else r.idsOf other) ∧
    (r.removeSession session).1 = (r.idsOf session).length ∧
    (r.removeSession session).2.nextId = r.nextId ∧
    (r.removeSession session).2.cells = r.cells ∧
    (r.removeSession session).2.lastUsedMs = r.lastUsedMs := by
  unfold removeSession
  cases hids : r.bySession.lookup session with
  | none =>
      refine ⟨fun id => by simp [idsOf, hids], fun other => ?_, by simp [idsOf, hids], rfl, rfl, rfl⟩
      by_cases hother : other = session
      · subst hother
        simp [idsOf, hids]
      · rw [if_neg hother]
  | some ids =>
      refine ⟨fun id => ?_, fun other => ?_, by simp [idsOf, hids], rfl, rfl, rfl⟩
      · simp only [foldl_erase_lookup, idsOf, hids, Option.getD_some]
      · by_cases hother : other = session
        · rw [hother, if_pos rfl, idsOf, AList.lookup_erase]
          rfl
        · rw [if_neg hother]
          simp only [idsOf, AList.lookup_erase_ne hother]

/-- The plans a sweep keeps in its first pass. -/
def keptBy (limits : Limits) (r : TransferRegistry π) (nowMs : Nat) (isLive : Liveness)
    (id : Nat) (e : TransferEntry π) : Bool :=
  !isExpired limits r e nowMs && isLive.ofPlan id

theorem sweepAt_spec (limits : Limits) (r : TransferRegistry π) (nowMs : Nat)
    (isLive : Liveness) {t : TransferRegistry π} (ht : (sweepAt limits r nowMs isLive).2 = t) :
    (∀ id, t.entries.lookup id = (r.entries.lookup id).filter (keptBy limits r nowMs isLive id)) ∧
    (∀ session, t.idsOf session =
      if isLive.ofSession session then
        (r.idsOf session).filter fun id => (t.entries.lookup id).isSome
      else []) ∧
    t.nextId = r.nextId ∧ t.cells = r.cells ∧ t.lastUsedMs = r.lastUsedMs := by
  subst ht
  refine ⟨fun id => ?_, fun session => ?_, rfl, rfl, rfl⟩
  · simp only [sweepAt, Table.lookup_retain]
    cases r.entries.lookup id with
    | none => rfl
    | some e =>
        simp only [Option.bind_some, Option.filter_some, keptBy]
        rfl
  · simp only [sweepAt, idsOf, Table.lookup_retain]
    cases r.bySession.lookup session with
    | none => simp
    | some ids =>
        simp only [Option.bind_some, Option.getD_some, Bool.and_eq_true, Bool.not_eq_true',
          List.isEmpty_eq_false_iff]
        by_cases hlive : isLive.ofSession session = true
        · simp only [hlive, and_true, if_true]
          split
          · rfl
          · rename_i hempty
            exact (not_not.mp hempty).symm
        · simp [hlive]

/-- A fetch leaves the registry alone, drops the expired plan it names, or
touches a plan of the fetching session that carries the ticket presented. -/
theorem fetch_cases (limits : Limits) (r : TransferRegistry π) (nowMs requestId : Nat)
    (ticket : Ticket) (session : SessionId) :
    (∃ error, fetch limits r nowMs requestId ticket session = (.error error, r)) ∨
    (∃ e error, r.entries.lookup requestId = some e ∧ isExpired limits r e nowMs = true ∧
      fetch limits r nowMs requestId ticket session = (.error error, r.remove requestId)) ∨
    (∃ e, r.entries.lookup requestId = some e ∧ isExpired limits r e nowMs = false ∧
      e.ticket = ticket ∧ e.session = session ∧
      fetch limits r nowMs requestId ticket session = (.ok e, r.touch e nowMs)) := by
  unfold fetch
  cases he : r.entries.lookup requestId with
  | none => exact .inl ⟨_, rfl⟩
  | some e =>
      cases hexpired : isExpired limits r e nowMs with
      | true => exact .inr (.inl ⟨e, _, rfl, hexpired, by simp only [hexpired, if_true]; rfl⟩)
      | false =>
          simp only [hexpired, Bool.false_eq_true, if_false]
          by_cases hrefused : (!constantTimeEq e.ticket ticket || e.session != session) = true
          · exact .inl ⟨_, by rw [if_pos hrefused]⟩
          · refine .inr (.inr ⟨e, rfl, hexpired, ?_⟩)
            rw [if_neg hrefused]
            simp only [Bool.or_eq_true, Bool.not_eq_true', bne_iff_ne, ne_eq, not_or,
              Bool.not_eq_false, not_not] at hrefused
            exact ⟨constantTimeEq_iff.mp hrefused.1, hrefused.2, rfl⟩

/-! ## What each call keeps -/

theorem Listed.mono {t : TransferRegistry π} (h : r.Listed limits)
    (hentries : t.entries = r.entries) (hsession : t.bySession = r.bySession) :
    t.Listed limits := by
  obtain ⟨hown, hnodup, hcapped⟩ := h
  unfold idsOf at hown hnodup hcapped
  rw [← hentries, ← hsession] at hown
  rw [← hsession] at hnodup hcapped
  exact ⟨hown, hnodup, hcapped⟩

theorem Listed.storedIds_eq (h : r.Listed limits) (session : SessionId) :
    r.storedIds session = r.idsOf session := by
  refine List.filter_eq_self.mpr fun id hid => ?_
  obtain ⟨e, he, -⟩ := h.own session id hid
  simp [he]

theorem Listed.insertAt (h : r.Listed limits) (hcap : 0 < limits.maxTransfersPerSession)
    {session : SessionId} {ticket : Ticket} {plan : π} {nowMs : Nat}
    (hfresh : r.entries.lookup r.nextRequestId.1 = none) :
    (insertAt limits r session (some ticket) plan nowMs).2.Listed limits := by
  obtain ⟨-, -, -, -, gone, kept, hperm, hlookup, hids, hlength⟩ :=
    insertAt_spec limits r session ticket plan nowMs rfl rfl
  rw [h.storedIds_eq] at hperm hlength
  have hnodup := hperm.nodup_iff.mpr (h.nodup session)
  have hunlisted : ∀ other, r.nextRequestId.1 ∉ r.idsOf other := by
    intro other hid
    obtain ⟨e, he, -⟩ := h.own other _ hid
    rw [hfresh] at he
    cases he
  have hkept : ∀ id ∈ kept, id ∈ r.idsOf session := fun id hid =>
    hperm.mem_iff.mp (List.mem_append_right _ hid)
  refine ⟨fun other id hid => ?_, fun other => ?_, fun other => ?_⟩
  · rw [hids] at hid
    rw [hlookup]
    by_cases hnew : id = r.nextRequestId.1
    · rw [if_pos hnew]
      split at hid
      · rename_i hother
        exact ⟨_, rfl, hother.symm⟩
      · exact absurd (hnew ▸ hid) (hunlisted other)
    · rw [if_neg hnew]
      have hmem : id ∈ r.idsOf other ∧ id ∉ gone := by
        split at hid
        · rename_i hother
          have hid : id ∈ kept := by simpa [hnew] using hid
          exact ⟨hother ▸ hkept id hid, fun hgone =>
            (List.nodup_append.mp hnodup).2.2 id hgone id hid rfl⟩
        · rename_i hother
          refine ⟨hid, fun hgone => hother ?_⟩
          obtain ⟨e, he, hsession⟩ := h.own other id hid
          rw [← hsession]
          exact h.session_eq (hperm.mem_iff.mp (List.mem_append_left _ hgone)) he
      rw [if_neg hmem.2]
      exact h.own other id hmem.1
  · rw [hids]
    split
    · refine List.nodup_append.mpr ⟨(List.nodup_append.mp hnodup).2.1, List.nodup_singleton _, ?_⟩
      rintro id hid _ hnew rfl
      rw [List.mem_singleton.mp hnew] at hid
      exact hunlisted session (hkept _ hid)
    · exact h.nodup other
  · rw [hids]
    split
    · have := hlength hcap (h.nodup session)
      rw [List.length_append, List.length_singleton]
      omega
    · exact h.capped other

theorem Listed.remove (h : r.Listed limits) {requestId : Nat} {e : TransferEntry π}
    (he : r.entries.lookup requestId = some e) : (r.remove requestId).Listed limits := by
  obtain ⟨hlookup, hids, -⟩ := r.remove_spec requestId he
  have hsublist : ∀ other, List.Sublist ((r.remove requestId).idsOf other) (r.idsOf other) := by
    intro other
    rw [hids]
    split
    · exact List.filter_sublist
    · exact .refl _
  refine ⟨fun other id hid => ?_, fun other => (h.nodup other).sublist (hsublist other),
    fun other => (hsublist other).length_le.trans (h.capped other)⟩
  have hne : id ≠ requestId := by
    rintro rfl
    have hother := h.session_eq ((hsublist other).subset hid) he
    rw [hids, if_pos hother.symm] at hid
    simp at hid
  rw [hlookup, if_neg hne]
  exact h.own other id ((hsublist other).subset hid)

theorem Listed.removeSession (h : r.Listed limits) (session : SessionId) :
    (r.removeSession session).2.Listed limits := by
  obtain ⟨hlookup, hids, -⟩ := r.removeSession_spec session
  refine ⟨fun other id hid => ?_, fun other => ?_, fun other => ?_⟩
  · rw [hids] at hid
    split at hid
    · cases hid
    · rename_i hother
      obtain ⟨e, he, hsession⟩ := h.own other id hid
      refine ⟨e, ?_, hsession⟩
      rw [hlookup, if_neg fun hmem => hother ?_, he]
      rw [← hsession]
      exact h.session_eq hmem he
  · rw [hids]
    split
    · exact List.nodup_nil
    · exact h.nodup other
  · rw [hids]
    split
    · exact Nat.zero_le _
    · exact h.capped other

theorem Listed.sweepAt (h : r.Listed limits) (nowMs : Nat) (isLive : Liveness) :
    (sweepAt limits r nowMs isLive).2.Listed limits := by
  obtain ⟨hlookup, hids, -⟩ := sweepAt_spec limits r nowMs isLive rfl
  have hsublist : ∀ session, List.Sublist ((TransferRegistry.sweepAt limits r nowMs isLive).2.idsOf session)
      (r.idsOf session) := by
    intro session
    rw [hids]
    split
    · exact List.filter_sublist
    · exact List.nil_sublist _
  refine ⟨fun session id hid => ?_, fun session => (h.nodup session).sublist (hsublist session),
    fun session => (hsublist session).length_le.trans (h.capped session)⟩
  have hstored : ((TransferRegistry.sweepAt limits r nowMs isLive).2.entries.lookup id).isSome := by
    rw [hids] at hid
    split at hid
    · exact (List.mem_filter.mp hid).2
    · cases hid
  obtain ⟨e, he⟩ := Option.isSome_iff_exists.mp hstored
  refine ⟨e, he, h.session_eq ((hsublist session).subset hid) ?_⟩
  rw [hlookup, Option.filter_eq_some_iff] at he
  exact he.1

/-- An insert spares the plans of its session that are fewer than the cap and were
used later than its others. -/
theorem Listed.insertAt_spares (h : r.Listed limits) {session : SessionId} {ticket : Ticket}
    {plan : π} {nowMs : Nat} {young : Nat → Bool}
    (hfresh : r.entries.lookup r.nextRequestId.1 = none)
    (hbelow : ∀ id e, r.entries.lookup id = some e → e.cell < r.cells)
    (hfew : (r.idsOf session).countP young < limits.maxTransfersPerSession)
    (hlater : ∀ id e id' e', id ∈ r.idsOf session → young id = true →
      r.entries.lookup id = some e → id' ∈ r.idsOf session → young id' = false →
        r.entries.lookup id' = some e' → r.lastUsedMs e'.cell < r.lastUsedMs e.cell)
    {id : Nat} {e : TransferEntry π} (hyoung : young id = true) (hid : id ∈ r.idsOf session)
    (he : r.entries.lookup id = some e) :
    (TransferRegistry.insertAt limits r session (some ticket) plan nowMs).2.entries.lookup id =
      some e := by
  have hne : id ≠ r.nextRequestId.1 := by
    rintro rfl
    rw [hfresh] at he
    cases he
  have hused : ∀ id e, r.entries.lookup id = some e →
      Function.update r.lastUsedMs r.cells nowMs e.cell = r.lastUsedMs e.cell := fun id e he =>
    Function.update_of_ne (Nat.ne_of_lt (hbelow id e he)) _ _
  have hspared : (evict limits.maxTransfersPerSession
      (Function.update r.lastUsedMs r.cells nowMs) (r.idsOf session).length r.entries
      (r.idsOf session)).1.lookup id = r.entries.lookup id := by
    refine (evict_spares (h.nodup session) (fun id hid => ?_) hfew ?_ hyoung hid).2
    · obtain ⟨e, he, -⟩ := h.own session id hid
      simp [he]
    · intro id e id' e' hid hyoung he hid' hold he'
      rw [hused id e he, hused id' e' he']
      exact hlater id e id' e' hid hyoung he hid' hold he'
  have hsnd := r.nextRequestId_snd
  have hids := h.storedIds_eq session
  unfold storedIds idsOf at hids
  unfold idsOf at hspared
  simp only [TransferRegistry.insertAt]
  rw [hsnd, hids, AList.lookup_insert_ne hne]
  exact hspared.trans he

/-! ## What each call leaves of a session's plans -/

/-- Every stored plan of the session is listed under it. -/
def Filed (r : TransferRegistry π) (session : SessionId) : Prop :=
  ∀ id e, r.entries.lookup id = some e → e.session = session → id ∈ r.idsOf session

section Filed

variable {session : SessionId} {t : TransferRegistry π} {id : Nat} {e : TransferEntry π}

theorem Filed.congr (h : r.Filed session) (hentries : t.entries = r.entries)
    (hsession : t.bySession = r.bySession) : t.Filed session := by
  unfold Filed idsOf at h ⊢
  rw [hentries, hsession]
  exact h

theorem Filed.insertAt (h : r.Filed session) (other : SessionId) (ticket : Ticket) (plan : π)
    (nowMs : Nat) : (insertAt limits r other (some ticket) plan nowMs).2.Filed session := by
  obtain ⟨-, -, -, -, gone, kept, hperm, hlookup, hids, -⟩ :=
    insertAt_spec limits r other ticket plan nowMs rfl rfl
  intro id e he hsession
  rw [hlookup] at he
  rw [hids]
  split at he
  · rename_i hnew
    cases he
    rw [if_pos hsession.symm, hnew]
    exact List.mem_append_right _ (List.mem_singleton_self _)
  split at he
  · cases he
  rename_i hgone
  have hid := h id e he hsession
  split
  · rename_i heq
    have hstored : id ∈ r.storedIds other := List.mem_filter.mpr ⟨heq ▸ hid, by simp [he]⟩
    exact List.mem_append_left _ ((List.mem_append.mp (hperm.mem_iff.mpr hstored)).resolve_left hgone)
  · exact hid

theorem remove_of_none {requestId : Nat} (h : r.entries.lookup requestId = none) :
    r.remove requestId = r := by simp only [remove, h]

theorem Filed.remove (h : r.Filed session) (requestId : Nat) :
    (r.remove requestId).Filed session := by
  cases hfound : r.entries.lookup requestId with
  | none => rwa [remove_of_none hfound]
  | some found =>
      obtain ⟨hlookup, hids, -⟩ := r.remove_spec requestId hfound
      intro id e he hsession
      rw [hlookup] at he
      rw [hids]
      split at he
      · cases he
      rename_i hne
      have hid := h id e he hsession
      split
      · exact List.mem_filter.mpr ⟨hid, by simpa using hne⟩
      · exact hid

theorem Filed.removeSession (h : r.Filed session) (other : SessionId) :
    (r.removeSession other).2.Filed session := by
  obtain ⟨hlookup, hids, -⟩ := r.removeSession_spec other
  intro id e he hsession
  rw [hlookup] at he
  rw [hids]
  split at he
  · cases he
  rename_i hid
  split
  · rename_i heq
    exact absurd (heq ▸ h id e he hsession) hid
  · exact h id e he hsession

/-- A sweep that keeps a plan of the session has to find the session live twice. -/
theorem Filed.sweepAt (h : r.Filed session) {nowMs : Nat} {isLive : Liveness}
    (hlive : ∀ id e, r.entries.lookup id = some e → e.session = session →
      keptBy limits r nowMs isLive id e = true → isLive.ofSession session = true) :
    (sweepAt limits r nowMs isLive).2.Filed session := by
  obtain ⟨hlookup, hids, -⟩ := sweepAt_spec limits r nowMs isLive rfl
  intro id e he hsession
  have hkept := he
  rw [hlookup, Option.filter_eq_some_iff] at hkept
  rw [hids, if_pos (hlive id e hkept.1 hsession hkept.2)]
  exact List.mem_filter.mpr ⟨h id e hkept.1 hsession, by simp [he]⟩

/-- An insert for one session stores no plan of another. -/
theorem lookup_of_insertAt {other : SessionId} {ticket : Ticket} {plan : π} {nowMs : Nat}
    (h : (insertAt limits r other (some ticket) plan nowMs).2.entries.lookup id = some e)
    (hne : e.session ≠ other) : r.entries.lookup id = some e := by
  obtain ⟨-, -, -, -, gone, kept, -, hlookup, -⟩ :=
    insertAt_spec limits r other ticket plan nowMs rfl rfl
  rw [hlookup] at h
  split at h
  · cases h
    exact absurd rfl hne
  split at h
  · cases h
  · exact h

theorem lookup_of_remove {requestId : Nat} (h : (r.remove requestId).entries.lookup id = some e) :
    r.entries.lookup id = some e := by
  cases hfound : r.entries.lookup requestId with
  | none => rwa [remove_of_none hfound] at h
  | some found =>
      rw [(r.remove_spec requestId hfound).1] at h
      split at h
      · cases h
      · exact h

theorem lookup_of_removeSession {other : SessionId}
    (h : (r.removeSession other).2.entries.lookup id = some e) :
    r.entries.lookup id = some e := by
  rw [(r.removeSession_spec other).1] at h
  split at h
  · cases h
  · exact h

/-- Nothing of a session is stored once its plans are dropped. -/
theorem Filed.session_ne (h : r.Filed session)
    (hlookup : (r.removeSession session).2.entries.lookup id = some e) : e.session ≠ session := by
  intro hsession
  have hid := h id e (lookup_of_removeSession hlookup) hsession
  rw [(r.removeSession_spec session).1, if_pos hid] at hlookup
  cases hlookup

theorem lookup_of_sweepAt {nowMs : Nat} {isLive : Liveness}
    (h : (sweepAt limits r nowMs isLive).2.entries.lookup id = some e) :
    r.entries.lookup id = some e := by
  obtain ⟨hlookup, -⟩ := sweepAt_spec limits r nowMs isLive rfl
  rw [hlookup, Option.filter_eq_some_iff] at h
  exact h.1

end Filed

end TransferRegistry

end Aex
