import Aex.Wire.Scatter

/-!
# Which claims are granted

As long as every drop takes its own range out, the registry is the list of the
live slices' ranges in some order, and a claim is refused for a live slice it
meets or for an empty range registered strictly inside it.  The second refusal
is the registry's own: no slice it meets shares a byte with the claim.
-/

namespace Aex

open Lts

namespace ScatterBuffer

variable {b : ScatterBuffer} {offset len : Nat}

/-- What the code grants. -/
theorem claim_isOk_iff (hlen : b.len < Word.size 64) :
    (∃ r, b.claim offset len = .ok r) ↔ offset + len ≤ b.len ∧
      (0 < len → ∀ held ∈ b.claimed, held.start < offset + len → held.stop ≤ offset) := by
  constructor
  · intro h
    obtain ⟨⟨x, b'⟩, h⟩ := h
    obtain ⟨-, -, hinside, hfree⟩ := claim_spec h
    exact ⟨hinside, hfree⟩
  · intro h
    obtain ⟨hinside, hfree⟩ := h
    have hstop : (Word.checkedAdd 64 offset len).filter (· ≤ b.len) = some (offset + len) := by
      rw [Option.filter_eq_some_iff, Word.checkedAdd_eq_some]
      exact ⟨⟨by omega, rfl⟩, by simpa using hinside⟩
    have hclear : ¬ (0 < len ∧
        b.claimed.any (fun held => held.start < offset + len && offset < held.stop)) := by
      intro hmeet
      obtain ⟨held, hmem, hmeets⟩ := List.any_eq_true.mp hmeet.2
      rw [Bool.and_eq_true, decide_eq_true_eq, decide_eq_true_eq] at hmeets
      have := hfree hmeet.1 held hmem hmeets.1
      omega
    unfold claim
    simp only [hstop, if_neg hclear]
    exact ⟨_, rfl⟩

end ScatterBuffer

namespace Scatter

variable {s : Scatter} {offset len : Nat}

/-- The range lies inside the buffer and shares no byte with a live slice. -/
def Free (s : Scatter) (offset len : Nat) : Prop :=
  offset + len ≤ s.buffer.len ∧
    ∀ y ∈ s.live, Disjoint y.range.bytes (Range.mk offset (offset + len)).bytes

/-- A claim that is free has no live empty slice strictly inside it, and a slice
is dropped only when the first range registered at its start is its own. -/
def Plain (s : Scatter) : ScatterOp → Prop
  | .claim offset len =>
      s.Free offset len → ∀ y ∈ s.live, y.len = 0 → offset < y.offset → offset + len ≤ y.offset
  | .drop index => ∀ x, s.live[index]? = some x → s.buffer.released x = some x.range

/-- A drop that takes out the slice's own range keeps the others registered. -/
theorem keepsOthers_of_plain {op : ScatterOp} (h : s.Plain op) : s.KeepsOthers op := by
  cases op with
  | claim offset len => trivial
  | drop index =>
      intro x hx hlen held hheld hne
      rw [h x hx] at hheld
      cases hheld
      rw [ScatterSlice.range_nonempty] at hne
      omega

/-- The registry holds the ranges of the live slices and nothing else. -/
def Exact (s : Scatter) : Prop := s.buffer.claimed.Perm (s.live.map ScatterSlice.range)

theorem exact_claim {x : ScatterSlice} {b : ScatterBuffer} (hs : s.Exact)
    (h : s.buffer.claim offset len = .ok (x, b)) : Exact ⟨b, s.live ++ [x]⟩ := by
  obtain ⟨-, rfl, -⟩ := ScatterBuffer.claim_spec h
  unfold Exact
  rw [List.map_append]
  exact hs.append_right _

theorem exact_drop {index : Nat} {x : ScatterSlice} (hs : s.Exact) (hx : s.live[index]? = some x)
    (hown : s.buffer.released x = some x.range) :
    Exact ⟨s.buffer.release x, s.live.eraseIdx index⟩ := by
  have hperm := s.buffer.release_perm x
  rw [hown] at hperm
  obtain ⟨hlt, rfl⟩ := List.getElem?_eq_some_iff.mp hx
  have hlive := (List.getElem_cons_eraseIdx_perm hlt).map ScatterSlice.range
  exact (hperm.2.2.trans (hs.trans hlive.symm)).cons_inv

theorem inductive_exact (size : Nat) : (system size).Inductive Plain Exact where
  init := by
    rintro s rfl
    exact .nil
  step := by
    intro s t op hs hplain hstep
    cases op with
    | claim offset len =>
        simp only [system, System.ofFn_step, step] at hstep
        split at hstep
        · rename_i x b hclaim
          cases hstep
          exact exact_claim hs hclaim
        · cases hstep
          exact hs
    | drop index =>
        simp only [system, System.ofFn_step, step] at hstep
        split at hstep
        · cases hstep
        · rename_i x hx
          cases hstep
          exact exact_drop hs hx (hplain x hx)

/-- Two ranges that overlap as half-open intervals, neither of them empty, share
a byte. -/
theorem not_disjoint_of_meets {a b : Range} (ha : a.Nonempty) (hb : b.Nonempty)
    (hleft : a.start < b.stop) (hright : b.start < a.stop) : ¬ Disjoint a.bytes b.bytes := by
  rw [Range.bytes, Range.bytes, Set.Ico_disjoint_Ico]
  unfold Range.Nonempty at ha hb
  omega

/-- Over an exact registry a claim is granted when it is free, up to the empty
ranges it would go around. -/
theorem granted_iff_of_exact (hsize : s.buffer.len < Word.size 64) (hs : s.Exact) :
    ((∃ r, s.buffer.claim offset len = .ok r) ↔ s.Free offset len) ↔
      s.Plain (.claim offset len) := by
  rw [ScatterBuffer.claim_isOk_iff hsize]
  constructor
  · intro hgranted hfree y hy hempty hleft
    obtain ⟨-, hclear⟩ := hgranted.mpr hfree
    have hmem : y.range ∈ s.buffer.claimed := hs.mem_iff.mpr (List.mem_map_of_mem hy)
    by_contra hright
    have hstop : y.range.stop = y.offset := by
      simp only [ScatterSlice.range]
      omega
    have := hclear (by omega) _ hmem (by simpa using hright)
    omega
  · intro hplain
    constructor
    · intro h
      obtain ⟨hinside, hclear⟩ := h
      refine ⟨hinside, ?_⟩
      intro y hy
      have hmem : y.range ∈ s.buffer.claimed := hs.mem_iff.mpr (List.mem_map_of_mem hy)
      by_cases hlen : 0 < len
      · exact disjoint_of_claim (r := ⟨offset, offset + len⟩) (Nat.lt_add_of_pos_right hlen)
          (hclear hlen _ hmem)
      · have hempty : ¬ (Range.mk offset (offset + len)).Nonempty := by
          simp only [Range.Nonempty]
          omega
        rw [bytes_eq_empty hempty]
        exact Set.disjoint_empty _
    · intro h
      have haround := hplain h
      obtain ⟨hinside, hfree⟩ := h
      refine ⟨hinside, ?_⟩
      intro hlen held hmem hstart
      obtain ⟨y, hy, rfl⟩ := List.mem_map.mp (hs.mem_iff.mp hmem)
      rw [ScatterSlice.range_start] at hstart
      by_contra hstop
      have hright : offset < y.range.stop := by omega
      by_cases hylen : 0 < y.len
      · exact not_disjoint_of_meets (ScatterSlice.range_nonempty.mpr hylen)
          (b := ⟨offset, offset + len⟩) (Nat.lt_add_of_pos_right hlen) hstart hright (hfree y hy)
      · have hend : y.range.stop = y.offset := by
          simp only [ScatterSlice.range]
          omega
        have := haround y hy (by omega) (by omega)
        omega

/-! ## After every slice has been dropped -/

/-- However the drops pair up, the registry has as many ranges at each start as
there are live slices. -/
def Counted (s : Scatter) : Prop :=
  (s.buffer.claimed.map Range.start).Perm (s.live.map ScatterSlice.offset)

theorem counted_drop {index : Nat} {x : ScatterSlice} (hs : s.Counted)
    (hx : s.live[index]? = some x) : Counted ⟨s.buffer.release x, s.live.eraseIdx index⟩ := by
  obtain ⟨hlt, rfl⟩ := List.getElem?_eq_some_iff.mp hx
  have hlive := (List.getElem_cons_eraseIdx_perm hlt).map ScatterSlice.offset
  have hperm := s.buffer.release_perm s.live[index]
  split at hperm
  · obtain ⟨-, hstart, hperm⟩ := hperm
    have hclaimed := hperm.map Range.start
    rw [List.map_cons, hstart] at hclaimed
    exact (hclaimed.trans (hs.trans hlive.symm)).cons_inv
  · have hmem : s.live[index].offset ∈ s.buffer.claimed.map Range.start :=
      hs.mem_iff.mpr (List.mem_map_of_mem (List.getElem_mem hlt))
    obtain ⟨held, hheld, hstart⟩ := List.mem_map.mp hmem
    exact absurd hstart (hperm.2 held hheld)

theorem inductive_counted (size : Nat) : (system size).Inductive (fun _ _ => True) Counted where
  init := by
    rintro s rfl
    exact .nil
  step := by
    intro s t op hs _ hstep
    cases op with
    | claim offset len =>
        simp only [system, System.ofFn_step, step] at hstep
        split at hstep
        · rename_i x b hclaim
          cases hstep
          obtain ⟨rfl, rfl, -⟩ := ScatterBuffer.claim_spec hclaim
          unfold Counted
          rw [List.map_append, List.map_append]
          exact hs.append_right _
        · cases hstep
          exact hs
    | drop index =>
        simp only [system, System.ofFn_step, step] at hstep
        split at hstep
        · cases hstep
        · rename_i x hx
          cases hstep
          exact counted_drop hs hx

/-- Once no slice is alive the registry is empty. -/
theorem Counted.claimed_eq_nil (hs : s.Counted) (hlive : s.live = []) : s.buffer.claimed = [] := by
  unfold Counted at hs
  rw [hlive] at hs
  exact List.map_eq_nil_iff.mp hs.eq_nil

/-- In every run whose steps are plain, a claim is granted exactly when its range
lies inside the buffer and shares no byte with a live slice; and after any run
that has dropped every slice, every claim inside the buffer is granted. -/
theorem grants_of_plain {size : Nat} (hsize : size < Word.size 64) :
    (∀ s, (system size).ReachableWhere Plain s → ∀ offset len, s.Plain (.claim offset len) →
      ((∃ r, s.buffer.claim offset len = .ok r) ↔ s.Free offset len)) ∧
    ∀ s, (system size).Reachable s → s.live = [] → ∀ offset len, offset + len ≤ size →
      ∃ r, s.buffer.claim offset len = .ok r := by
  constructor
  · intro s hr offset len hplain
    have hexact := (inductive_exact size).holds hr
    have hlen := buffer_len_eq hr.reachable
    exact (granted_iff_of_exact (by omega) hexact).mpr hplain
  · intro s hr hlive offset len hinside
    have hcounted := (inductive_counted size).holds hr
    have hlen := buffer_len_eq hr
    rw [ScatterBuffer.claim_isOk_iff (by omega), hcounted.claimed_eq_nil hlive, hlen]
    exact ⟨hinside, by simp⟩

/-- A buffer of eight bytes. -/
theorem grants_of_plain_eight : 8 < Word.size 64 ∧
    (∀ s, (system 8).ReachableWhere Plain s → ∀ offset len, s.Plain (.claim offset len) →
      ((∃ r, s.buffer.claim offset len = .ok r) ↔ s.Free offset len)) ∧
    ∀ s, (system 8).Reachable s → s.live = [] → ∀ offset len, offset + len ≤ 8 →
      ∃ r, s.buffer.claim offset len = .ok r :=
  ⟨by decide, grants_of_plain (by decide)⟩

/-- An empty slice in the middle of a free range keeps it from being claimed. -/
theorem empty_slice_blocks : ¬ ∀ size s, size < Word.size 64 → (system size).Reachable s →
    ∀ offset len, (∃ r, s.buffer.claim offset len = .ok r) ↔ s.Free offset len := by
  intro h
  have hrun : (system 8).Reachable ⟨⟨8, [⟨4, 4⟩]⟩, [⟨4, 0⟩]⟩ :=
    System.reachable_of_run [.claim 4 0] (by decide)
  have hfree : Scatter.Free ⟨⟨8, [⟨4, 4⟩]⟩, [⟨4, 0⟩]⟩ 2 4 := by
    refine ⟨by decide, ?_⟩
    intro y hy
    obtain rfl := List.mem_singleton.mp hy
    rw [bytes_eq_empty (by decide)]
    exact Set.empty_disjoint _
  obtain ⟨r, hr⟩ := (h 8 _ (by decide) hrun 2 4).mpr hfree
  have hrefused : ScatterBuffer.claim ⟨8, [⟨4, 4⟩]⟩ 2 4 = .error (.overlap 2 4) := rfl
  rw [hrefused] at hr
  cases hr

/-! ## The condition is exact -/

/-- Where a slice's byte is registered to nobody, it is granted again. -/
theorem claim_of_lost {x y : ScatterSlice} (hs : s.Registered)
    (hsize : s.buffer.len < Word.size 64) (hy : y ∈ s.live) (hylen : 0 < y.len)
    (hheld : s.buffer.released x = some y.range) :
    ∃ r, (s.buffer.release x).claim y.offset 1 = .ok r := by
  have hne : y.range.Nonempty := ScatterSlice.range_nonempty.mpr hylen
  have hinside := hs.inside y hy
  rw [ScatterBuffer.claim_isOk_iff (by simpa using hsize), ScatterBuffer.release_len]
  refine ⟨by omega, ?_⟩
  intro _ r hr hstart
  by_contra hstop
  have hrne : r.Nonempty := by
    unfold Range.Nonempty
    omega
  have hdisjoint := apart_of_released hs hheld hr hne hrne
  exact Set.disjoint_left.mp hdisjoint (Range.start_mem_bytes hne)
    ⟨Nat.le_of_lt_succ hstart, Nat.lt_of_not_le hstop⟩

/-- A range left behind keeps a free byte from being claimed. -/
theorem refused_of_stale {b : ScatterBuffer} {held : Range} (hmem : held ∈ b.claimed)
    (hne : held.Nonempty) (hsize : b.len < Word.size 64) :
    ¬ ∃ r, b.claim held.start 1 = .ok r := by
  rw [ScatterBuffer.claim_isOk_iff hsize]
  intro h
  have hstop := h.2 Nat.one_pos held hmem (Nat.lt_succ_self _)
  unfold Range.Nonempty at hne
  omega

/-- A drop that takes out another slice's range leaves a byte whose claim is
answered wrongly: a live slice's byte is granted, or a free one is refused. -/
theorem exists_misgranted {size index : Nat} {t : Scatter} (hsize : size < Word.size 64)
    (hr : (system size).ReachableWhere Plain s) (hlost : ¬ s.Plain (.drop index))
    (hstep : s.step (.drop index) = some t) :
    ∃ offset, ¬ ((∃ r, t.buffer.claim offset 1 = .ok r) ↔ t.Free offset 1) := by
  have hexact := (inductive_exact size).holds hr
  have hs := (inductive_registered size).holds (hr.mono fun _ _ => keepsOthers_of_plain)
  have hlen := buffer_len_eq hr.reachable
  simp only [Plain, not_forall] at hlost
  obtain ⟨x, hx, hother⟩ := hlost
  have hxmem := List.mem_of_getElem? hx
  have hxreg : x.range ∈ s.buffer.claimed := hexact.mem_iff.mpr (List.mem_map_of_mem hxmem)
  have hperm := s.buffer.release_perm x
  simp only [step, hx] at hstep
  cases hstep
  cases hheld : s.buffer.released x with
  | none =>
      rw [hheld] at hperm
      exact absurd rfl (hperm.2 _ hxreg)
  | some held =>
      rw [hheld] at hperm hother
      obtain ⟨hmem, hstart, hperm⟩ := hperm
      obtain ⟨y, hy, rfl⟩ := List.mem_map.mp (hexact.mem_iff.mp hmem)
      rw [ScatterSlice.range_start] at hstart
      have hne : x.range ≠ y.range := fun heq => hother (congrArg some heq.symm)
      obtain ⟨j, hj⟩ := List.getElem?_of_mem hy
      have hji : j ≠ index := by
        rintro rfl
        rw [hj] at hx
        exact hne (congrArg ScatterSlice.range (Option.some.inj hx.symm))
      refine ⟨x.offset, ?_⟩
      by_cases hylen : 0 < y.len
      · -- The released range is a live slice's own.
        have hgranted := claim_of_lost hs (by omega) hy hylen hheld
        rw [hstart] at hgranted
        intro h
        have hfree := (h.mp hgranted).2 y (List.mem_eraseIdx_iff_getElem?.mpr ⟨j, hji, hj⟩)
        exact Set.disjoint_left.mp hfree
          (Range.start_mem_bytes (ScatterSlice.range_nonempty.mpr hylen))
          ⟨hstart.symm.le, by simp [hstart]⟩
      · -- The dropped slice's range is left behind.
        have hxlen : 0 < x.len := by
          by_contra hxlen
          apply hne
          simp only [ScatterSlice.range, hstart, Range.mk.injEq, true_and]
          omega
        have hxne := ScatterSlice.range_nonempty.mpr hxlen
        have hstale := (List.mem_cons.mp (hperm.mem_iff.mpr hxreg)).resolve_left hne
        intro h
        refine refused_of_stale hstale hxne (by simpa [hlen] using hsize) (h.mpr ⟨?_, ?_⟩)
        · have := hs.inside x hxmem
          rw [ScatterBuffer.release_len]
          omega
        · intro z hz
          refine (hs.disjoint_others hx hz).symm.mono_right ?_
          apply Set.Ico_subset_Ico_right
          simp only [ScatterSlice.range]
          omega

end Scatter

end Aex
