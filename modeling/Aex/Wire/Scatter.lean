import Mathlib.Order.CompletePartialOrder
import Mathlib.Order.Interval.Set.Disjoint
import Aex.Lib.System
import Aex.Lib.Vec
import Aex.Lib.Word
import Aex.Wire.Error

/-!
# The receive buffer several connections write into at once

`claim` hands out a range of the buffer and registers it; dropping the slice
takes a registered range out again.  The registry is a list of ranges, and a
slice is looked up in it by its start alone.  Exclusiveness of the live slices
is an invariant of the runs that never let an empty slice take out the range of
a live slice that starts where it does; one such drop is enough to lose it.
-/

namespace Aex

open Lts

/-! ## The registry -/

/-- A half-open range of byte positions. -/
structure Range where
  start : Nat
  stop : Nat
  deriving Repr, DecidableEq

namespace Range

/-- The byte positions of a range. -/
def bytes (r : Range) : Set Nat := Set.Ico r.start r.stop

def Nonempty (r : Range) : Prop := r.start < r.stop

instance (r : Range) : Decidable r.Nonempty := inferInstanceAs (Decidable (_ < _))

theorem start_mem_bytes {r : Range} (h : r.Nonempty) : r.start ∈ r.bytes :=
  ⟨Nat.le_refl _, h⟩

end Range

/-- One claimed range. -/
structure ScatterSlice where
  offset : Nat
  len : Nat
  deriving Repr, DecidableEq

namespace ScatterSlice

def range (x : ScatterSlice) : Range := ⟨x.offset, x.offset + x.len⟩

@[simp] theorem range_start (x : ScatterSlice) : x.range.start = x.offset := rfl

@[simp] theorem range_nonempty {x : ScatterSlice} : x.range.Nonempty ↔ 0 < x.len := by
  simp [Range.Nonempty, range]

end ScatterSlice

/-- A buffer of `len` bytes and the ranges currently handed out. -/
structure ScatterBuffer where
  len : Nat
  claimed : List Range
  deriving Repr, DecidableEq

namespace ScatterBuffer

def new (len : Nat) : ScatterBuffer := ⟨len, []⟩

/-- Take `[offset, offset + len)` for exclusive use. -/
def claim (b : ScatterBuffer) (offset len : Nat) :
    Except WireError (ScatterSlice × ScatterBuffer) :=
  match (Word.checkedAdd 64 offset len).filter (· ≤ b.len) with
  | none => .error (.outOfRange offset len b.len)
  | some stop =>
      -- An empty range is never refused, but it is registered all the same.
      if 0 < len ∧ b.claimed.any (fun held => held.start < stop && offset < held.stop) then
        .error (.overlap offset len)
      else .ok (⟨offset, len⟩, { b with claimed := b.claimed ++ [⟨offset, stop⟩] })

/-- Dropping a slice releases the first registered range with its start. -/
def release (b : ScatterBuffer) (x : ScatterSlice) : ScatterBuffer :=
  match b.claimed.findIdx? (fun held => held.start = x.offset) with
  | some index => { b with claimed := Vec.swapRemove b.claimed index }
  | none => b

/-- The range that dropping `x` would take out of the registry. -/
def released (b : ScatterBuffer) (x : ScatterSlice) : Option Range :=
  b.claimed.find? (fun held => held.start = x.offset)

@[simp] theorem release_len (b : ScatterBuffer) (x : ScatterSlice) :
    (b.release x).len = b.len := by
  unfold release
  split <;> rfl

/-- What a successful claim says: the range lies inside, meets no registered
range unless it is empty, and is registered last. -/
theorem claim_spec {b b' : ScatterBuffer} {offset len : Nat} {x : ScatterSlice}
    (h : b.claim offset len = .ok (x, b')) :
    x = ⟨offset, len⟩ ∧ b' = { b with claimed := b.claimed ++ [x.range] } ∧
      offset + len ≤ b.len ∧
      (0 < len → ∀ held ∈ b.claimed, held.start < offset + len → held.stop ≤ offset) := by
  unfold claim at h
  split at h
  · cases h
  · rename_i stop hstop
    rw [Option.filter_eq_some_iff, Word.checkedAdd_eq_some] at hstop
    obtain ⟨⟨-, rfl⟩, hle⟩ := hstop
    split at h
    · cases h
    · rename_i hfree
      cases h
      refine ⟨rfl, rfl, by simpa using hle, fun hlen held hmem hstart => ?_⟩
      simp only [hlen, true_and, List.any_eq_true, not_exists, not_and, Bool.and_eq_true,
        decide_eq_true_eq] at hfree
      have := hfree held hmem hstart
      omega

/-- A drop takes out one range, the first with the slice's start, or nothing. -/
theorem release_perm (b : ScatterBuffer) (x : ScatterSlice) :
    match b.released x with
    | some held => held ∈ b.claimed ∧ held.start = x.offset ∧
        (held :: (b.release x).claimed).Perm b.claimed
    | none => (b.release x).claimed = b.claimed ∧ ∀ held ∈ b.claimed, held.start ≠ x.offset := by
  unfold released release
  cases hf : b.claimed.find? (fun held => held.start = x.offset) with
  | none =>
      have hnone : b.claimed.findIdx? (fun held => held.start = x.offset) = none := by
        rw [List.findIdx?_eq_none_iff]
        simpa using hf
      simp only [hnone, true_and]
      simpa using hf
  | some held =>
      have hmem := List.mem_of_find?_eq_some hf
      have hstart := List.find?_some hf
      obtain ⟨index, hindex⟩ : ∃ i, b.claimed.findIdx? (fun held => held.start = x.offset) = some i :=
        Option.isSome_iff_exists.mp (by
          rw [List.findIdx?_isSome, List.any_eq_true]
          exact ⟨held, hmem, hstart⟩)
      obtain ⟨hlt, -, -⟩ := List.findIdx?_eq_some_iff_getElem.mp hindex
      have hget : b.claimed[index] = held := by
        rw [List.find?_eq_bind_findIdx?_getElem?, hindex] at hf
        exact (List.getElem?_eq_some_iff.mp hf).choose_spec
      simp only [hindex]
      refine ⟨hmem, by simpa using hstart, ?_⟩
      refine ((Vec.swapRemove_perm hlt).cons held).trans ?_
      rw [← hget]
      exact List.getElem_cons_eraseIdx_perm hlt

end ScatterBuffer

/-! ## Claims and drops -/

/-- A buffer and the slices taken from it that are still alive. -/
structure Scatter where
  buffer : ScatterBuffer
  live : List ScatterSlice
  deriving Repr, DecidableEq

/-- One call that takes the lock: a claim, or the drop of a live slice. -/
inductive ScatterOp where
  | claim (offset len : Nat)
  | drop (index : Nat)
  deriving Repr, DecidableEq

namespace Scatter

def step (s : Scatter) : ScatterOp → Option Scatter
  | .claim offset len =>
      match s.buffer.claim offset len with
      | .ok (x, b) => some ⟨b, s.live ++ [x]⟩
      | .error _ => some s
  | .drop index =>
      match s.live[index]? with
      | none => none
      | some x => some ⟨s.buffer.release x, s.live.eraseIdx index⟩

/-- Claims and drops of any threads on a fresh buffer, in any order. -/
def system (len : Nat) : System Scatter ScatterOp :=
  .ofFn ⟨.new len, []⟩ step

/-- The live slices lie inside the buffer and no two of them share a byte. -/
structure Sound (s : Scatter) : Prop where
  inside : ∀ x ∈ s.live, x.offset + x.len ≤ s.buffer.len
  disjoint : s.live.Pairwise fun x y => Disjoint x.range.bytes y.range.bytes

/-- An empty slice is dropped only when that does not take out the range of a
live slice starting at the same byte: either the first range registered there is
empty, or no non-empty slice starts there. -/
def KeepsOthers (s : Scatter) : ScatterOp → Prop
  | .claim _ _ => True
  | .drop index =>
      ∀ x, s.live[index]? = some x → x.len = 0 →
        ∀ held, s.buffer.released x = some held → held.Nonempty →
          ∀ y ∈ s.live, y.offset = x.offset → y.len = 0

/-- What keeps the slices apart: every live non-empty slice is registered, and
the non-empty ranges of the registry are pairwise disjoint. -/
structure Registered (s : Scatter) : Prop extends Sound s where
  registered : ∀ x ∈ s.live, 0 < x.len → x.range ∈ s.buffer.claimed
  apart : s.buffer.claimed.Pairwise fun a b =>
    a.Nonempty → b.Nonempty → Disjoint a.bytes b.bytes

theorem registered_new (len : Nat) : Registered ⟨.new len, []⟩ where
  inside := by simp
  disjoint := .nil
  registered := by simp
  apart := .nil

/-- A range that ends before or starts after another shares no byte with it. -/
theorem disjoint_of_claim {held r : Range} (hr : r.Nonempty)
    (h : held.start < r.stop → held.stop ≤ r.start) : Disjoint held.bytes r.bytes := by
  rw [Range.bytes, Range.bytes, Set.Ico_disjoint_Ico]
  unfold Range.Nonempty at hr
  omega

theorem bytes_eq_empty {r : Range} (h : ¬ r.Nonempty) : r.bytes = ∅ :=
  Set.Ico_eq_empty h

theorem registered_claim {s : Scatter} {offset len : Nat} {x : ScatterSlice} {b : ScatterBuffer}
    (hs : s.Registered) (h : s.buffer.claim offset len = .ok (x, b)) :
    Registered ⟨b, s.live ++ [x]⟩ := by
  obtain ⟨rfl, rfl, hinside, hfree⟩ := ScatterBuffer.claim_spec h
  have hnew : ∀ held ∈ s.buffer.claimed, 0 < len →
      Disjoint held.bytes (ScatterSlice.range ⟨offset, len⟩).bytes := fun held hmem hlen =>
    disjoint_of_claim (ScatterSlice.range_nonempty.mpr hlen) (hfree hlen held hmem)
  refine ⟨⟨?_, ?_⟩, ?_, ?_⟩
  · intro y hy
    rcases List.mem_append.mp hy with hy | hy
    · exact hs.inside y hy
    · obtain rfl := List.mem_singleton.mp hy
      exact hinside
  · refine List.pairwise_append.mpr ⟨hs.disjoint, List.pairwise_singleton _ _, ?_⟩
    intro y hy z hz
    obtain rfl := List.mem_singleton.mp hz
    by_cases hylen : 0 < y.len
    · by_cases hlen : 0 < len
      · exact hnew _ (hs.registered y hy hylen) hlen
      · have hempty : ¬ (ScatterSlice.range ⟨offset, len⟩).Nonempty := by simpa using hlen
        simp [bytes_eq_empty hempty]
    · simp [bytes_eq_empty (ScatterSlice.range_nonempty.not.mpr hylen)]
  · intro y hy hylen
    rcases List.mem_append.mp hy with hy | hy
    · exact List.mem_append_left _ (hs.registered y hy hylen)
    · obtain rfl := List.mem_singleton.mp hy
      exact List.mem_append_right _ (List.mem_singleton.mpr rfl)
  · refine List.pairwise_append.mpr ⟨hs.apart, List.pairwise_singleton _ _, ?_⟩
    intro held hmem r hr _ hrne
    obtain rfl := List.mem_singleton.mp hr
    exact hnew held hmem (ScatterSlice.range_nonempty.mp hrne)

/-- Live non-empty slices with one start are one slice. -/
theorem Sound.index_eq {s : Scatter} (hs : s.Sound) {i j : Nat} {x y : ScatterSlice}
    (hx : s.live[i]? = some x) (hy : s.live[j]? = some y) (hoff : x.offset = y.offset)
    (hxlen : 0 < x.len) (hylen : 0 < y.len) : i = j := by
  obtain ⟨hi, rfl⟩ := List.getElem?_eq_some_iff.mp hx
  obtain ⟨hj, rfl⟩ := List.getElem?_eq_some_iff.mp hy
  by_contra hne
  have hshare : ¬ Disjoint s.live[i].range.bytes s.live[j].range.bytes := fun hd =>
    Set.disjoint_left.mp hd (Range.start_mem_bytes (ScatterSlice.range_nonempty.mpr hxlen))
      (by simpa [hoff] using Range.start_mem_bytes (ScatterSlice.range_nonempty.mpr hylen))
  rcases Nat.lt_or_gt_of_ne hne with hlt | hlt
  · exact hshare (List.pairwise_iff_getElem.mp hs.disjoint i j hi hj hlt)
  · exact hshare (List.pairwise_iff_getElem.mp hs.disjoint j i hj hi hlt).symm

theorem apart_release {s : Scatter} (hs : s.Registered) (x : ScatterSlice) :
    (s.buffer.release x).claimed.Pairwise fun a b =>
      a.Nonempty → b.Nonempty → Disjoint a.bytes b.bytes := by
  have hperm := s.buffer.release_perm x
  split at hperm
  · obtain ⟨-, -, hperm⟩ := hperm
    have hsymm : ∀ {a b : Range}, (a.Nonempty → b.Nonempty → Disjoint a.bytes b.bytes) →
        b.Nonempty → a.Nonempty → Disjoint b.bytes a.bytes := fun h hb ha => (h ha hb).symm
    exact (List.pairwise_cons.mp ((hperm.pairwise_iff hsymm).mpr hs.apart)).2
  · rw [hperm.1]
    exact hs.apart

/-- What is left registered lies apart from the range that was taken out. -/
theorem apart_of_released {s : Scatter} (hs : s.Registered) {x : ScatterSlice} {held r : Range}
    (hheld : s.buffer.released x = some held) (hr : r ∈ (s.buffer.release x).claimed)
    (hne : held.Nonempty) (hrne : r.Nonempty) : Disjoint held.bytes r.bytes := by
  have hperm := s.buffer.release_perm x
  rw [hheld] at hperm
  have hapart := (hperm.2.2.pairwise_iff
    fun {a b} (h : a.Nonempty → b.Nonempty → _) hb ha => (h ha hb).symm).mpr hs.apart
  exact (List.pairwise_cons.mp hapart).1 r hr hne hrne

/-- The other live slices lie apart from the one at `index`. -/
theorem Sound.disjoint_others {s : Scatter} (hs : s.Sound) {index : Nat} {x y : ScatterSlice}
    (hx : s.live[index]? = some x) (hy : y ∈ s.live.eraseIdx index) :
    Disjoint x.range.bytes y.range.bytes := by
  obtain ⟨hlt, rfl⟩ := List.getElem?_eq_some_iff.mp hx
  have hperm := List.getElem_cons_eraseIdx_perm hlt
  have hapart := (hperm.pairwise_iff fun {a b} (h : Disjoint _ _) => h.symm).mpr hs.disjoint
  exact (List.pairwise_cons.mp hapart).1 y hy

theorem registered_drop {s : Scatter} {index : Nat} {x : ScatterSlice} (hs : s.Registered)
    (hkeep : s.KeepsOthers (.drop index)) (hx : s.live[index]? = some x) :
    Registered ⟨s.buffer.release x, s.live.eraseIdx index⟩ := by
  refine ⟨⟨?_, ?_⟩, ?_, apart_release hs x⟩
  · intro y hy
    rw [ScatterBuffer.release_len]
    exact hs.inside y (List.mem_of_mem_eraseIdx hy)
  · exact hs.disjoint.sublist (List.eraseIdx_sublist _ _)
  · intro y hy hylen
    have hperm := s.buffer.release_perm x
    have hreg := hs.registered y (List.mem_of_mem_eraseIdx hy) hylen
    split at hperm
    · rename_i held hheld
      obtain ⟨-, hstart, hperm⟩ := hperm
      -- The range taken out starts where `x` does, and `y` is none of the slices there.
      have hne : y.range ≠ held := by
        rintro rfl
        obtain ⟨j, hj, hjy⟩ := List.mem_eraseIdx_iff_getElem?.mp hy
        by_cases hxlen : 0 < x.len
        · exact hj (hs.index_eq hjy hx hstart hylen hxlen)
        · have := hkeep x hx (by omega) _ hheld (ScatterSlice.range_nonempty.mpr hylen) y
            (List.mem_of_mem_eraseIdx hy) hstart
          omega
      exact (List.mem_cons.mp (hperm.mem_iff.mpr hreg)).resolve_left hne
    · rw [hperm.1]
      exact hreg

theorem inductive_registered (len : Nat) : (system len).Inductive KeepsOthers Registered where
  init := by
    rintro s rfl
    exact registered_new len
  step := by
    intro s t op hs hkeep hstep
    cases op with
    | claim offset len =>
        simp only [system, System.ofFn_step, step] at hstep
        split at hstep
        · rename_i x b hclaim
          cases hstep
          exact registered_claim hs hclaim
        · cases hstep
          exact hs
    | drop index =>
        simp only [system, System.ofFn_step, step] at hstep
        split at hstep
        · cases hstep
        · rename_i x hx
          cases hstep
          exact registered_drop hs hkeep hx

/-- Exclusiveness of the live slices, at every point of every run whose drops
leave the ranges of other live slices registered. -/
theorem sound_of_keepsOthers (len : Nat) (s : Scatter)
    (h : (system len).ReachableWhere KeepsOthers s) : s.Sound :=
  ((inductive_registered len).holds h).toSound

/-- A run whose drops all keep the other ranges: the empty slice was claimed first. -/
theorem sound_of_keepsOthers_first_empty : Sound ⟨⟨8, [⟨4, 8⟩]⟩, [⟨4, 4⟩]⟩ := by
  have hclaims : (system 8).ReachableWhere KeepsOthers
      ⟨⟨8, [⟨4, 4⟩, ⟨4, 8⟩]⟩, [⟨4, 0⟩, ⟨4, 4⟩]⟩ :=
    (System.ReachableWhere.start.snoc (t := ⟨⟨8, [⟨4, 4⟩]⟩, [⟨4, 0⟩]⟩) (.claim 4 0) trivial
      (by decide)).snoc (.claim 4 4) trivial (by decide)
  refine sound_of_keepsOthers 8 _ (hclaims.snoc (.drop 0) ?_ (by decide))
  intro x hx _ held hheld hne
  obtain rfl : ⟨4, 0⟩ = x := by simpa using hx
  obtain rfl : ⟨4, 4⟩ = held := by simpa [ScatterBuffer.released] using hheld
  exact absurd hne (by decide)

/-- An empty slice claimed at the start of a live one takes that one's range out
of the registry when it is dropped, and the range is handed out a second time. -/
theorem live_range_claimed_twice : ¬ ∀ len s, (system len).Reachable s → s.Sound := by
  intro h
  have hrun : (system 8).Reachable ⟨⟨8, [⟨4, 4⟩, ⟨4, 8⟩]⟩, [⟨4, 4⟩, ⟨4, 4⟩]⟩ :=
    System.reachable_of_run [.claim 4 4, .claim 4 0, .drop 1, .claim 4 4] (by decide)
  have hdisjoint := (List.pairwise_cons.mp (h 8 _ hrun).disjoint).1 _ (List.mem_singleton.mpr rfl)
  exact Set.disjoint_left.mp hdisjoint (Range.start_mem_bytes (by decide))
    (Range.start_mem_bytes (by decide))

/-! ## The condition is exact -/

theorem buffer_len_eq {len : Nat} {s : Scatter} (h : (system len).Reachable s) :
    s.buffer.len = len := by
  refine System.Inductive.holds (I := fun s => s.buffer.len = len) ⟨?_, ?_⟩ h
  · rintro s rfl
    rfl
  · intro s t op hs _ hstep
    cases op with
    | claim offset len =>
        simp only [system, System.ofFn_step, step] at hstep
        split at hstep
        · rename_i x b hclaim
          cases hstep
          obtain ⟨-, rfl, -⟩ := ScatterBuffer.claim_spec hclaim
          exact hs
        · cases hstep
          exact hs
    | drop index =>
        simp only [system, System.ofFn_step, step] at hstep
        split at hstep
        · cases hstep
        · cases hstep
          simpa using hs

/-- The first drop of a run that takes out the range of another live slice
leaves a byte of that slice free to be claimed again. -/
theorem exists_claim_not_sound {len index : Nat} {s t : Scatter} (hlen : len < Word.size 64)
    (hr : (system len).ReachableWhere KeepsOthers s) (hlost : ¬ s.KeepsOthers (.drop index))
    (hstep : s.step (.drop index) = some t) :
    ∃ offset u, t.step (.claim offset 1) = some u ∧ ¬ u.Sound := by
  have hs := (inductive_registered len).holds hr
  have hbuffer := buffer_len_eq hr.reachable
  simp only [KeepsOthers, not_forall] at hlost
  obtain ⟨x, hx, hxlen, held, hheld, hne, y, hy, hoff, hylen⟩ := hlost
  have hyreg := hs.registered y hy (by omega)
  have hynonempty := ScatterSlice.range_nonempty.mpr (Nat.pos_of_ne_zero hylen)
  have hothers := fun r hr => apart_of_released hs (r := r) hheld hr hne
  have hperm := s.buffer.release_perm x
  rw [hheld] at hperm
  obtain ⟨hmem, hstart, hperm⟩ := hperm
  have hshare : y.offset ∈ held.bytes := by
    rw [hoff, ← hstart]
    exact Range.start_mem_bytes hne
  -- The registered non-empty range there can only be the live slice's own.
  have hown : y.range = held := (List.mem_cons.mp (hperm.mem_iff.mpr hyreg)).resolve_right
    fun hmem => Set.disjoint_left.mp (hothers _ hmem hynonempty) hshare
      (Range.start_mem_bytes hynonempty)
  simp only [step, hx] at hstep
  cases hstep
  have hin := hs.inside y hy
  have hfree : ∀ r ∈ (s.buffer.release x).claimed,
      ¬ (r.start < y.offset + 1 ∧ y.offset < r.stop) := by
    rintro r hr ⟨hlow, hhigh⟩
    have hrne : r.Nonempty := by unfold Range.Nonempty; omega
    exact Set.disjoint_left.mp (hothers r hr hrne) hshare ⟨by omega, hhigh⟩
  have hbound : Word.checkedAdd 64 y.offset 1 = some (y.offset + 1) := by
    rw [Word.checkedAdd_eq_some]
    omega
  have hclaim : (s.buffer.release x).claim y.offset 1 =
      .ok (⟨y.offset, 1⟩, { s.buffer.release x with
        claimed := (s.buffer.release x).claimed ++ [⟨y.offset, y.offset + 1⟩] }) := by
    have hle : y.offset + 1 ≤ s.buffer.len := by omega
    simpa [ScatterBuffer.claim, hbound, hle, Option.filter] using hfree
  refine ⟨y.offset, _, by simp only [step, hclaim]; rfl, fun hsound => ?_⟩
  have hylive : y ∈ s.live.eraseIdx index := by
    obtain ⟨j, hj⟩ := List.getElem?_of_mem hy
    refine List.mem_eraseIdx_iff_getElem?.mpr ⟨j, ?_, hj⟩
    rintro rfl
    rw [hj] at hx
    cases hx
    exact hylen hxlen
  refine Set.disjoint_left.mp ((List.pairwise_append.mp hsound.disjoint).2.2 y hylive _
    (List.mem_singleton.mpr rfl)) (Range.start_mem_bytes hynonempty) ?_
  exact ⟨Nat.le_refl _, Nat.lt_succ_self _⟩

end Scatter

end Aex
