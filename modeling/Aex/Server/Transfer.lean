import Mathlib.Data.List.MinMax
import Aex.Lib.System
import Aex.Lib.Table
import Aex.Lib.Vec
import Aex.Lib.Word
import Aex.Server.Config
import Aex.Wire.Frame

/-!
# Transfer plans

The registry keeps every live plan under its request id, and a list of ids for
each session.  Ids come from a wrapping counter shared by all sessions.  The
time of a plan's last use lives in a cell of its own, since a thread that took
the plan out of the registry touches it without the lock.
-/

namespace Aex

open Lts

abbrev SessionId := Vector UInt8 16

/-- Compare two tickets without leaking where they differ. -/
def constantTimeEq (a b : Ticket) : Bool :=
  ((a.toList.zip b.toList).foldl (fun acc xy => acc ||| (xy.1 ^^^ xy.2)) 0) == 0

/-- One prepared transfer; `plan` is its dataset and layout. -/
structure TransferEntry (π : Type) where
  requestId : Nat
  session : SessionId
  ticket : Ticket
  plan : π
  /-- Which cell holds `last_used_ms`. -/
  cell : Nat
  deriving DecidableEq

/-- The plans, the index into them by session, the id counter, and the cells of
every entry ever allocated. -/
structure TransferRegistry (π : Type) where
  entries : Table.Map Nat (TransferEntry π)
  bySession : Table.Map SessionId (List Nat)
  nextId : Nat
  lastUsedMs : Nat → Nat
  cells : Nat

namespace TransferRegistry

variable {π : Type}

/-- Ids start from 1: a request id of 0 is about the connection itself. -/
def new : TransferRegistry π := ⟨∅, ∅, 1, fun _ => 0, 0⟩

def ttlMs (limits : Limits) : Nat := Word.saturatingMul 64 limits.transferTtlSec 1000

def isExpired (limits : Limits) (r : TransferRegistry π) (e : TransferEntry π) (nowMs : Nat) :
    Bool :=
  nowMs - r.lastUsedMs e.cell > ttlMs limits

/-- Store a new time of last use. -/
def touch (r : TransferRegistry π) (e : TransferEntry π) (nowMs : Nat) : TransferRegistry π :=
  { r with lastUsedMs := Function.update r.lastUsedMs e.cell nowMs }

/-- The next identifier, never 0.  The counter is taken once, and once more
when it stood at 0. -/
def nextRequestId (r : TransferRegistry π) : Nat × TransferRegistry π :=
  let id := r.nextId
  let r := { r with nextId := Word.wrappingAdd 32 id 1 }
  if id ≠ 0 then (id, r)
  else (r.nextId, { r with nextId := Word.wrappingAdd 32 r.nextId 1 })

/-- Where in `ids` the plan nobody has touched for longest is. -/
def leastRecentlyUsed (entries : Table.Map Nat (TransferEntry π)) (lastUsedMs : Nat → Nat)
    (ids : List Nat) : Option Nat :=
  ((ids.zipIdx.filterMap fun (id, position) =>
      (entries.lookup id).map fun e => (position, lastUsedMs e.cell)).argmin Prod.snd).map Prod.fst

/-- Evict until the list is below the cap or holds no stored plan.  Each round
takes one id out, so the list's length is enough fuel. -/
def evict (cap : Nat) (lastUsedMs : Nat → Nat) : Nat → Table.Map Nat (TransferEntry π) →
    List Nat → Table.Map Nat (TransferEntry π) × List Nat
  | 0, entries, ids => (entries, ids)
  | fuel + 1, entries, ids =>
      if ids.length < cap then (entries, ids)
      else
        match leastRecentlyUsed entries lastUsedMs ids with
        | none => (entries, ids)
        | some position =>
            match ids[position]? with
            | none => (entries, ids)
            | some evicted =>
                evict cap lastUsedMs fuel (entries.erase evicted) (Vec.swapRemove ids position)

/-- Register a resolved selection and mint its ticket. -/
def insertAt (limits : Limits) (r : TransferRegistry π) (session : SessionId)
    (random : Option Ticket) (plan : π) (nowMs : Nat) :
    Except ServerError (TransferEntry π) × TransferRegistry π :=
  let (requestId, r) := r.nextRequestId
  match random with
  | none => (.error (.random "the entropy source failed"), r)
  | some ticket =>
      let entry : TransferEntry π := ⟨requestId, session, ticket, plan, r.cells⟩
      let lastUsedMs := Function.update r.lastUsedMs r.cells nowMs
      let ids := (r.bySession.lookup session).getD []
      -- Plans swept for age leave their ids behind; they do not count.
      let ids := ids.filter fun id => (r.entries.lookup id).isSome
      let (entries, ids) := evict limits.maxTransfersPerSession lastUsedMs ids.length r.entries ids
      (.ok entry,
        { entries := entries.insert requestId entry
          bySession := r.bySession.insert session (ids ++ [requestId])
          nextId := r.nextId
          lastUsedMs := lastUsedMs
          cells := r.cells + 1 })

def remove (r : TransferRegistry π) (requestId : Nat) : TransferRegistry π :=
  match r.entries.lookup requestId with
  | none => r
  | some entry =>
      { r with
        entries := r.entries.erase requestId
        bySession :=
          match r.bySession.lookup entry.session with
          | none => r.bySession
          | some ids => r.bySession.insert entry.session (ids.filter (· ≠ requestId)) }

/-- Resolve a `FETCH` to the plan it names. -/
def fetch (limits : Limits) (r : TransferRegistry π) (nowMs requestId : Nat) (ticket : Ticket)
    (session : SessionId) : Except ServerError (TransferEntry π) × TransferRegistry π :=
  match r.entries.lookup requestId with
  | none =>
      (.error (.noSuchPlan s!"transfer {requestId} does not exist, or expired after {limits.transferTtlSec} seconds of inactivity"), r)
  | some entry =>
      if isExpired limits r entry nowMs then
        (.error (.noSuchPlan s!"transfer {requestId} expired after {limits.transferTtlSec} seconds of inactivity"),
          r.remove requestId)
      else if !constantTimeEq entry.ticket ticket || entry.session != session then
        (.error (.auth s!"the ticket presented for transfer {requestId} is not the one it was issued"), r)
      else (.ok entry, r.touch entry nowMs)

/-- Drop every plan of a session that has ended. -/
def removeSession (r : TransferRegistry π) (session : SessionId) : Nat × TransferRegistry π :=
  match r.bySession.lookup session with
  | none => (0, r)
  | some ids =>
      (ids.length,
        { r with
          bySession := r.bySession.erase session
          entries := ids.foldl (fun entries id => entries.erase id) r.entries })

/-- What a sweep is told about liveness: once for each unexpired plan, about
the session owning it, and once for each session that still lists a plan. -/
structure Liveness where
  ofPlan : Nat → Bool
  ofSession : SessionId → Bool

/-- Drop plans idle past the TTL, and plans whose session is gone. -/
def sweepAt (limits : Limits) (r : TransferRegistry π) (nowMs : Nat) (isLive : Liveness) :
    Nat × TransferRegistry π :=
  let before := r.entries.entries.length
  let entries := Table.retain
    (fun id e => if !isExpired limits r e nowMs && isLive.ofPlan id then some e else none) r.entries
  let bySession := Table.retain
    (fun session ids =>
      let ids := ids.filter fun id => (entries.lookup id).isSome
      if !ids.isEmpty && isLive.ofSession session then some ids else none) r.bySession
  (before - entries.entries.length, { r with entries := entries, bySession := bySession })

/-! ## Tickets and ids -/

theorem foldl_or_xor_eq_zero (xs : List (UInt8 × UInt8)) (acc : UInt8) :
    xs.foldl (fun acc xy => acc ||| (xy.1 ^^^ xy.2)) acc = 0 ↔
      acc = 0 ∧ ∀ xy ∈ xs, xy.1 = xy.2 := by
  induction xs generalizing acc with
  | nil => simp
  | cons xy xs ih =>
      simp only [List.foldl_cons, ih, UInt8.or_eq_zero_iff, UInt8.xor_eq_zero_iff, List.mem_cons,
        forall_eq_or_imp, and_assoc]

theorem constantTimeEq_iff {a b : Ticket} : constantTimeEq a b = true ↔ a = b := by
  unfold constantTimeEq
  rw [beq_iff_eq, foldl_or_xor_eq_zero]
  constructor
  · rintro ⟨-, h⟩
    apply Vector.ext
    intro i hi
    exact h (a[i], b[i]) (List.mem_iff_getElem.mpr ⟨i, by simpa using hi, by simp⟩)
  · rintro rfl
    refine ⟨rfl, fun xy hxy => ?_⟩
    obtain ⟨i, hi, rfl⟩ := List.getElem_of_mem hxy
    simp

theorem nextRequestId_ne_zero (r : TransferRegistry π) : r.nextRequestId.1 ≠ 0 := by
  unfold nextRequestId
  dsimp only
  split
  · assumption
  · rename_i h
    simp only [ne_eq, not_not] at h
    simp [h, Word.wrappingAdd]

/-- Minting an id moves nothing but the counter. -/
theorem nextRequestId_snd (r : TransferRegistry π) :
    r.nextRequestId.2 = { r with nextId := r.nextRequestId.2.nextId } := by
  unfold nextRequestId
  dsimp only
  split <;> rfl

/-! ## Eviction -/

theorem leastRecentlyUsed_spec {entries : Table.Map Nat (TransferEntry π)}
    {lastUsedMs : Nat → Nat} {ids : List Nat} {position : Nat}
    (h : leastRecentlyUsed entries lastUsedMs ids = some position) : position < ids.length := by
  unfold leastRecentlyUsed at h
  obtain ⟨⟨p, used⟩, hmin, rfl⟩ := Option.map_eq_some_iff.mp h
  obtain ⟨⟨id, q⟩, hmem, hp⟩ := List.mem_filterMap.mp (List.argmin_mem hmin)
  obtain ⟨e, -, he⟩ := Option.map_eq_some_iff.mp hp
  cases he
  exact List.snd_lt_of_mem_zipIdx hmem |>.trans_le (by simp)

theorem leastRecentlyUsed_ne_none {entries : Table.Map Nat (TransferEntry π)}
    {lastUsedMs : Nat → Nat} {ids : List Nat} {id : Nat} (hid : id ∈ ids)
    (hstored : (entries.lookup id).isSome) :
    leastRecentlyUsed entries lastUsedMs ids ≠ none := by
  obtain ⟨e, he⟩ := Option.isSome_iff_exists.mp hstored
  obtain ⟨position, hposition, rfl⟩ := List.getElem_of_mem hid
  intro h
  rw [leastRecentlyUsed, Option.map_eq_none_iff, List.argmin_eq_none,
    List.filterMap_eq_nil_iff] at h
  have := h (ids[position], position) (by
    rw [List.mem_zipIdx_iff_getElem?]
    simp [hposition])
  simp [he] at this

/-- Nothing listed was used before the plan that goes first. -/
theorem leastRecentlyUsed_le {entries : Table.Map Nat (TransferEntry π)}
    {lastUsedMs : Nat → Nat} {ids : List Nat} {position : Nat}
    (h : leastRecentlyUsed entries lastUsedMs ids = some position) {id : Nat} (hid : id ∈ ids)
    {e : TransferEntry π} (he : entries.lookup id = some e) :
    ∃ first e', ids[position]? = some first ∧ entries.lookup first = some e' ∧
      lastUsedMs e'.cell ≤ lastUsedMs e.cell := by
  unfold leastRecentlyUsed at h
  obtain ⟨⟨p, used⟩, hmin, rfl⟩ := Option.map_eq_some_iff.mp h
  obtain ⟨⟨first, q⟩, hmem, hp⟩ := List.mem_filterMap.mp (List.argmin_mem hmin)
  obtain ⟨e', he', heq⟩ := Option.map_eq_some_iff.mp hp
  cases heq
  refine ⟨first, e', List.mem_zipIdx_iff_getElem?.mp hmem, he', ?_⟩
  obtain ⟨at_, hat, rfl⟩ := List.getElem_of_mem hid
  have hlisted : (at_, lastUsedMs e.cell) ∈ ids.zipIdx.filterMap fun (id, position) =>
      (entries.lookup id).map fun e => (position, lastUsedMs e.cell) := by
    refine List.mem_filterMap.mpr ⟨(ids[at_], at_), ?_, by simp [he]⟩
    rw [List.mem_zipIdx_iff_getElem?]
    simp [hat]
  exact List.le_of_mem_argmin (f := Prod.snd) hlisted hmin

/-- Eviction splits the list: the ids taken out are exactly those erased. -/
theorem evict_perm (cap : Nat) (lastUsedMs : Nat → Nat) (fuel : Nat)
    (entries : Table.Map Nat (TransferEntry π)) (ids : List Nat) :
    ∃ gone, (gone ++ (evict cap lastUsedMs fuel entries ids).2).Perm ids ∧
      ∀ id, (evict cap lastUsedMs fuel entries ids).1.lookup id =
        if id ∈ gone then none else entries.lookup id := by
  induction fuel generalizing entries ids with
  | zero => exact ⟨[], .refl _, by simp [evict]⟩
  | succ fuel ih =>
      unfold evict
      split
      · exact ⟨[], .refl _, by simp⟩
      split
      · exact ⟨[], .refl _, by simp⟩
      rename_i position hposition
      split
      · exact ⟨[], .refl _, by simp⟩
      rename_i evicted hevicted
      obtain ⟨hlt, rfl⟩ := List.getElem?_eq_some_iff.mp hevicted
      obtain ⟨gone, hperm, hlookup⟩ := ih (entries.erase ids[position]) (Vec.swapRemove ids position)
      refine ⟨ids[position] :: gone, ?_, fun id => ?_⟩
      · exact ((hperm.trans (Vec.swapRemove_perm hlt)).cons _).trans
          (List.getElem_cons_eraseIdx_perm hlt)
      · rw [hlookup]
        by_cases hid : id = ids[position]
        · rw [hid, AList.lookup_erase]
          simp
        · simp [hid, AList.lookup_erase_ne hid]

/-- With every listed id stored, eviction gets below a positive cap. -/
theorem evict_length_lt {cap : Nat} (hcap : 0 < cap) (lastUsedMs : Nat → Nat) {fuel : Nat}
    {entries : Table.Map Nat (TransferEntry π)} {ids : List Nat} (hfuel : ids.length ≤ fuel)
    (hnodup : ids.Nodup) (hstored : ∀ id ∈ ids, (entries.lookup id).isSome) :
    (evict cap lastUsedMs fuel entries ids).2.length < cap := by
  induction fuel generalizing entries ids with
  | zero =>
      obtain rfl : ids = [] := List.length_eq_zero_iff.mp (by omega)
      simpa [evict] using hcap
  | succ fuel ih =>
      unfold evict
      split
      · assumption
      rename_i hfull
      split
      · rename_i hnone
        obtain ⟨id, hid⟩ := List.exists_mem_of_length_pos (show 0 < ids.length by omega)
        exact absurd hnone (leastRecentlyUsed_ne_none hid (hstored id hid))
      rename_i position hposition
      have hlt := leastRecentlyUsed_spec hposition
      rw [List.getElem?_eq_getElem hlt]
      have hperm := Vec.swapRemove_perm hlt
      have hsplit := (hperm.cons ids[position]).trans (List.getElem_cons_eraseIdx_perm hlt)
      have hnodup' := hsplit.nodup_iff.mpr hnodup
      refine ih (by rw [Vec.length_swapRemove hlt]; omega) (List.nodup_cons.mp hnodup').2
        fun id hid => ?_
      have hne : id ≠ ids[position] := by
        rintro rfl
        exact (List.nodup_cons.mp hnodup').1 hid
      rw [AList.lookup_erase_ne hne]
      exact hstored id (hsplit.mem_iff.mp (List.mem_cons_of_mem _ hid))

/-- When the young plans were used later than the others, and some others are listed,
the first to go is not young. -/
theorem leastRecentlyUsed_old {entries : Table.Map Nat (TransferEntry π)}
    {lastUsedMs : Nat → Nat} {ids : List Nat} {position : Nat} {young : Nat → Bool}
    (h : leastRecentlyUsed entries lastUsedMs ids = some position) (hlt : position < ids.length)
    (hstored : ∀ id ∈ ids, (entries.lookup id).isSome)
    (hlater : ∀ id e id' e', id ∈ ids → young id = true → entries.lookup id = some e →
      id' ∈ ids → young id' = false → entries.lookup id' = some e' →
        lastUsedMs e'.cell < lastUsedMs e.cell)
    (hfew : ids.countP young < ids.length) : young ids[position] = false := by
  by_contra hyoung
  rw [Bool.not_eq_false] at hyoung
  obtain ⟨other, hother, hold⟩ : ∃ other ∈ ids, young other = false := by
    by_contra hnone
    have hall : ∀ x ∈ ids, young x = true := fun x hx => by
      by_contra hx'
      exact hnone ⟨x, hx, by simpa using hx'⟩
    exact absurd (List.countP_eq_length.mpr hall) (Nat.ne_of_lt hfew)
  obtain ⟨e, he⟩ := Option.isSome_iff_exists.mp (hstored other hother)
  obtain ⟨first, e', hfirst, he', hle⟩ := leastRecentlyUsed_le h hother he
  rw [List.getElem?_eq_getElem hlt, Option.some.injEq] at hfirst
  subst hfirst
  have := hlater _ e' other e (List.getElem_mem hlt) hyoung he' hother hold he
  omega

/-- Plans that are fewer than the cap, and used later than the others listed, survive
an eviction. -/
theorem evict_spares {cap : Nat} {lastUsedMs : Nat → Nat} {fuel : Nat}
    {entries : Table.Map Nat (TransferEntry π)} {ids : List Nat} {young : Nat → Bool}
    (hnodup : ids.Nodup) (hstored : ∀ id ∈ ids, (entries.lookup id).isSome)
    (hfew : ids.countP young < cap)
    (hlater : ∀ id e id' e', id ∈ ids → young id = true → entries.lookup id = some e →
      id' ∈ ids → young id' = false → entries.lookup id' = some e' →
        lastUsedMs e'.cell < lastUsedMs e.cell) {id : Nat} (hyoung : young id = true)
    (hid : id ∈ ids) :
    id ∈ (evict cap lastUsedMs fuel entries ids).2 ∧
      (evict cap lastUsedMs fuel entries ids).1.lookup id = entries.lookup id := by
  induction fuel generalizing entries ids with
  | zero => exact ⟨hid, rfl⟩
  | succ fuel ih =>
      unfold evict
      split
      · exact ⟨hid, rfl⟩
      rename_i hfull
      split
      · exact ⟨hid, rfl⟩
      rename_i position hposition
      have hlt := leastRecentlyUsed_spec hposition
      rw [List.getElem?_eq_getElem hlt]
      have hsplit := ((Vec.swapRemove_perm hlt).cons ids[position]).trans
        (List.getElem_cons_eraseIdx_perm hlt)
      have hnodup' := hsplit.nodup_iff.mpr hnodup
      have hold := leastRecentlyUsed_old hposition hlt hstored hlater (by omega)
      have hkeep : ∀ x ∈ ids, x ≠ ids[position] → x ∈ Vec.swapRemove ids position := fun x hx hne =>
        (List.mem_cons.mp (hsplit.mem_iff.mpr hx)).resolve_left hne
      have hsub : ∀ x ∈ Vec.swapRemove ids position, x ∈ ids ∧ x ≠ ids[position] := fun x hx =>
        ⟨hsplit.mem_iff.mp (List.mem_cons_of_mem _ hx), by
          rintro rfl
          exact (List.nodup_cons.mp hnodup').1 hx⟩
      have hne : id ≠ ids[position] := by
        rintro rfl
        rw [hold] at hyoung
        cases hyoung
      have hcount := hsplit.countP_eq young
      rw [List.countP_cons_of_neg (by simp [hold])] at hcount
      obtain ⟨hlisted, hlookup⟩ := @ih (entries.erase ids[position]) (Vec.swapRemove ids position)
        (List.nodup_cons.mp hnodup').2
        (fun x hx => by
          rw [AList.lookup_erase_ne (hsub x hx).2]
          exact hstored x (hsub x hx).1)
        (by omega)
        (fun x e x' e' hx hxyoung he hx' hxold he' => by
          rw [AList.lookup_erase_ne (hsub x hx).2] at he
          rw [AList.lookup_erase_ne (hsub x' hx').2] at he'
          exact hlater x e x' e' (hsub x hx).1 hxyoung he (hsub x' hx').1 hxold he')
        (hkeep id hid hne)
      exact ⟨hlisted, hlookup.trans (AList.lookup_erase_ne hne)⟩

end TransferRegistry

end Aex
