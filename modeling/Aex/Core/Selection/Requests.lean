import Aex.Core.Selection.Reads

/-!
# What a gathered read asks for

A gathered read is one request to the source for each span, inside the source, and
only a run that goes straight to its place is longer than a span may be.
-/

namespace Aex

/-! ## The size of a stretch -/

namespace Stretch

section Sized

variable {M : Nat} {s : Stretch} {pending : Option Stretch} {ss : List Stretch}

/-- A strided stretch fits one span. -/
def Sized (M : Nat) (s : Stretch) : Prop :=
  s.step ≠ 1 → s.count * (s.step.natAbs * M) ≤ spanMaxBytes

theorem Sized.extent (h : s.Sized M) (hs : s.Valid M) (hM : 0 < M) (hne : s.step ≠ 1) :
    (s.extent.2 - s.extent.1) * M ≤ spanMaxBytes := by
  have hpos := hs.count_pos
  have hdistance := hs.distance
  have hmoves : 0 < s.step.natAbs := Int.natAbs_pos.mpr hs.moves
  have hsucc : s.count * s.step.natAbs = (s.count - 1) * s.step.natAbs + s.step.natAbs := by
    rw [← Nat.succ_mul, Nat.succ_eq_add_one, Nat.sub_add_cancel hpos]
  rw [hs.extent_eq hM]
  calc (max s.src s.last + 1 - min s.src s.last) * M
      ≤ s.count * s.step.natAbs * M := Nat.mul_le_mul_right M (by omega)
    _ = s.count * (s.step.natAbs * M) := Nat.mul_assoc _ _ _
    _ ≤ spanMaxBytes := h hne

theorem hold_sized (hp : ∀ p ∈ pending, p.Sized M) (hs : s.settle.Sized M) :
    (∀ p ∈ (hold pending s).1, p.Sized M) ∧ (hold pending s).2.Sized M := by
  cases pending with
  | none => exact ⟨by simp [hold_none], hs⟩
  | some p =>
      unfold hold
      dsimp only
      split
      · rename_i hjoin
        exact ⟨by simp, fun hne => absurd hjoin.1 hne⟩
      · exact ⟨by simpa using hp p rfl, hs⟩

theorem holdAll_sized (hp : ∀ p ∈ pending, p.Sized M) (hss : ∀ s ∈ ss, s.settle.Sized M) :
    ∀ s ∈ holdAll pending ss, s.Sized M := by
  induction ss generalizing pending with
  | nil =>
      intro s hs
      exact hp s (by simpa [holdAll] using hs)
  | cons s ss ih =>
      rw [List.forall_mem_cons] at hss
      have hhold := hold_sized hp hss.1
      have hrest := @ih (some (hold pending s).2) (by simpa using hhold.2) hss.2
      intro t ht
      rw [holdAll, List.mem_append, Option.mem_toList] at ht
      exact ht.elim (hhold.1 t) (hrest t)

end Sized

end Stretch

namespace Dim

section Sized

variable {base M r k i take most fuel remaining row n : Nat} {outer : List Dim} {inner : Dim}
  {els index prefixes_ : List Nat} {ss : List Stretch}

/-- As many elements as one stretch holds along a row. -/
def Room (M most : Nat) (inner : Dim) : Prop :=
  inner.step = 1 ∨ most ≤ 1 ∨ most * (inner.step.natAbs * M) ≤ spanMaxBytes

theorem room_of_per (hgap : inner.step.natAbs * M < Word.size 64) (h : per M take inner = some n) :
    Room M n inner := by
  cases inner with
  | list offsets => exact .inl rfl
  | stride len step =>
      have hgap' : gap M (.stride len step) = step.natAbs * M := Word.wrappingMul_of_lt hgap
      unfold per at h
      split at h
      · rename_i heq
        cases heq
        exact .inl rfl
      · rw [hgap'] at h
        split at h
        · rename_i hnear
          split at h
          · cases h
          cases h
          right
          rcases Nat.le_total (spanMaxBytes / (step.natAbs * M)) 1 with hone | hmany
          · rw [Nat.max_eq_right hone]
            exact .inl (Nat.le_refl 1)
          · rw [Nat.max_eq_left hmany]
            exact .inr (Nat.div_mul_le_self _ _)
        · cases h
          exact .inr (.inl (Nat.le_refl 1))

theorem rowStretches_sized (h : Room M most inner) :
    ∀ s ∈ rowStretches inner row k most fuel i take, s.settle.Sized M := by
  induction fuel generalizing i with
  | zero => simp [rowStretches]
  | succ fuel ih =>
      rw [rowStretches]
      split
      · intro s hs
        cases List.mem_cons.mp hs with
        | inr hs => exact ih s hs
        | inl hs =>
            subst hs
            unfold Stretch.settle
            dsimp only
            split
            · intro hne
              exact absurd rfl hne
            · rename_i hcount
              intro hne
              have hle : min most (take - i) ≤ most := Nat.min_le_left _ _
              rcases h with hone | hfew | hroom
              · exact absurd hone hne
              · have hzero : min most (take - i) = 0 := by omega
                dsimp only
                rw [hzero, Nat.zero_mul]
                exact Nat.zero_le _
              · exact (Nat.mul_le_mul_right _ hle).trans hroom
      · simp

theorem rows_sized (hgap : inner.step.natAbs * M < Word.size 64)
    (h : rows outer inner M fuel index k prefixes_ remaining = some ss) :
    ∀ s ∈ ss, s.settle.Sized M := by
  induction fuel generalizing index k prefixes_ remaining ss with
  | zero =>
      cases h
      simp
  | succ fuel ih =>
      rw [rows] at h
      split at h
      · cases h
        simp
      · simp only [Option.bind_eq_bind, Option.bind_eq_some_iff, Option.some.injEq] at h
        obtain ⟨n, hper, more, hmore, rfl⟩ := h
        intro s hs
        exact (List.mem_append.mp hs).elim (rowStretches_sized (room_of_per hgap hper) s) (ih hmore s)

end Sized

end Dim

theorem Gathered.stretches_sized {g : Gathered} {els : List Nat} {M first count : Nat}
    {ss : List Stretch} (hg : g.Lists els) (hbound : ∀ e ∈ els, (e + 1) * M < Word.size 64)
    (hrange : first + count ≤ els.length) (h : g.stretches M first count = some ss) :
    ∀ s ∈ ss, s.Sized M := by
  unfold stretches at h
  split at h
  · cases h
    simp
  rename_i hcount
  rcases hg with ⟨hdims, -⟩ | ⟨outer, inner, hdims, hv, hlen, -⟩
  · rw [hdims] at h
    cases h
    intro s hs hne
    rw [List.mem_singleton.mp hs] at hne
    exact absurd rfl hne
  · have hpos : 0 < (Dim.lens outer).prod := by
      have := hv.length
      exact Nat.pos_of_mul_pos_right (b := inner.len) (by omega)
    rw [hdims, List.getLast?_concat, List.dropLast_concat] at h
    obtain ⟨rows, hrows, rfl⟩ := Option.map_eq_some_iff.mp h
    exact Stretch.holdAll_sized (by simp) (Dim.rows_sized (hv.gap_lt hpos hlen hbound) hrows)

/-! ## The spans of a read -/

/-- The spans that some stretches are read as, each with the stretches cut out of it,
from the span so far on. -/
def Span.gather (itemsize : Nat) : Option Span → List Stretch → Nat → List Stretch →
    List (Span × List Stretch)
  | span, held, _, [] => span.toList.map (·, held)
  | span, held, outAt, s :: ss =>
      match span.bind (·.join s.extent.1 s.extent.2 s.count itemsize) with
      | some w => gather itemsize (some w) (held ++ [s]) (Word.wrappingAdd 64 outAt s.count) ss
      | none => span.toList.map (·, held) ++
          gather itemsize (some ⟨s.extent.1, s.extent.2, outAt, s.count⟩) [s]
            (Word.wrappingAdd 64 outAt s.count) ss

/-- What copying a span out asks the source for, as an offset and a length. -/
def Span.request (itemsize : Nat) (w : Span) (held : List Stretch) : Nat × Nat :=
  if ∃ only ∈ held.head?, held.length = 1 ∧ only.step = 1 then
    (Word.wrappingMul 64 w.lo itemsize, Word.wrappingMul 64 w.outCount itemsize)
  else (Word.wrappingMul 64 w.lo itemsize,
    Word.wrappingMul 64 (Word.wrappingSub 64 w.hi w.lo) itemsize)

section Spans

variable {β : Type} {zero : β} {readSrc readSrc' : ReadSrc β} {M size outAt : Nat}
  {span : Option Span} {w : Span} {held ss : List Stretch} {s : Stretch} {out scratch : List β}
  {st : Gathering β} {p : Span × List Stretch}

/-- Copying a span out depends on the source only where it asks for it. -/
theorem copySpan_congr (h : readSrc (w.request M held).1 (w.request M held).2 =
      readSrc' (w.request M held).1 (w.request M held).2) :
    copySpan zero readSrc M w held out scratch = copySpan zero readSrc' M w held out scratch := by
  unfold Span.request at h
  unfold copySpan
  dsimp only
  split
  · rename_i hone
    rw [if_pos hone] at h
    rw [fromSrc, h, fromSrc]
  · rename_i hmany
    rw [if_neg hmany] at h
    rw [fromSrc, h, fromSrc]

theorem flush_eq : st.flush zero readSrc M = (st.span.toList.map (·, st.held)).foldlM
    (fun both p => copySpan zero readSrc M p.1 p.2 both.1 both.2) (st.out, st.scratch) := by
  unfold Gathering.flush
  cases hspan : st.span with
  | none => rfl
  | some w =>
      simp only [Option.toList_some, List.map_cons, List.map_nil, List.foldlM_cons, List.foldlM_nil]
      exact (bind_pure _).symm

theorem add_of_join (h : st.span.bind (·.join s.extent.1 s.extent.2 s.count M) = some w) :
    st.add zero readSrc M s = .ok { st with
      span := some w
      held := st.held ++ [s]
      outAt := Word.wrappingAdd 64 st.outAt s.count } := by
  unfold Gathering.add
  rw [h]

theorem add_of_apart (h : st.span.bind (·.join s.extent.1 s.extent.2 s.count M) = none) :
    st.add zero readSrc M s = (st.flush zero readSrc M).map fun both => {
      span := some ⟨s.extent.1, s.extent.2, st.outAt, s.count⟩
      held := [s]
      outAt := Word.wrappingAdd 64 st.outAt s.count
      out := both.1
      scratch := both.2 } := by
  unfold Gathering.add
  rw [h]
  rfl

/-- Taking stretches in and copying the rest out is copying the spans out in turn. -/
theorem run_eq_spans : (ss.foldlM (Gathering.add zero readSrc M) st >>= fun st =>
      st.flush zero readSrc M) =
    (Span.gather M st.span st.held st.outAt ss).foldlM
      (fun both p => copySpan zero readSrc M p.1 p.2 both.1 both.2) (st.out, st.scratch) := by
  induction ss generalizing st with
  | nil => exact flush_eq
  | cons s ss ih =>
      rw [List.foldlM_cons, Span.gather]
      cases hjoin : st.span.bind (·.join s.extent.1 s.extent.2 s.count M) with
      | some w =>
          rw [add_of_join hjoin]
          exact ih
      | none =>
          rw [add_of_apart hjoin]
          dsimp only
          rw [List.foldlM_append, ← flush_eq]
          cases st.flush zero readSrc M with
          | error e => rfl
          | ok both => exact ih

/-- A span as it stands while stretches are taken in. -/
structure Span.Ready (M : Nat) (w : Span) (held : List Stretch) : Prop where
  covers : w.Covers held
  valid : ∀ s ∈ held, s.Valid M
  joined : 2 ≤ held.length → (w.hi - w.lo) * M ≤ spanMaxBytes
  single : ∀ s, held = [s] → s.Sized M ∧ w.lo = s.extent.1 ∧ w.hi = s.extent.2

theorem Span.Ready.hi_lt (h : w.Ready M held) (hM : 0 < M) :
    w.lo < w.hi ∧ w.hi * M < Word.size 64 ∧ w.hi < Word.size 64 := by
  obtain ⟨last, hlast, hhigh⟩ := h.covers.high
  obtain ⟨s, hs, hmem⟩ := List.mem_flatMap.mp hlast
  have hinside := h.covers.inside last hlast
  have hend : w.hi * M < Word.size 64 := hhigh ▸ (h.valid s hs).fits last hmem
  exact ⟨by omega, hend, (Nat.le_mul_of_pos_right _ hM).trans_lt hend⟩

theorem Span.ready_single (hs : s.Valid M) (hsized : s.Sized M) (hM : 0 < M) (at_ : Nat) :
    Span.Ready M ⟨s.extent.1, s.extent.2, at_, s.count⟩ [s] where
  covers := Span.covers_single hs hM at_
  valid := by simpa using hs
  joined := fun h => absurd h (by simp)
  single := by
    intro t ht
    cases ht
    exact ⟨hsized, rfl, rfl⟩

theorem Span.Ready.join {w' : Span} (h : w.Ready M held) (hs : s.Valid M) (hM : 0 < M)
    (hcount : (elementsOf held).length + s.count < Word.size 64)
    (hjoin : w.join s.extent.1 s.extent.2 s.count M = some w') : w'.Ready M (held ++ [s]) := by
  have hcovers := (h.covers.join hs hM hcount hjoin).2
  have hvalid : ∀ t ∈ held ++ [s], t.Valid M := by
    intro t ht
    exact (List.mem_append.mp ht).elim (h.valid t) fun ht => List.mem_singleton.mp ht ▸ hs
  refine ⟨hcovers, hvalid, fun _ => ?_, fun t ht => ?_⟩
  · have hhigh := h.hi_lt hM
    obtain ⟨e, he, hend⟩ := (hs.extent_spec hM).2.1
    have hfits := hs.fits e he
    rw [← hend] at hfits
    have hextent : s.extent.2 < Word.size 64 := (Nat.le_mul_of_pos_right _ hM).trans_lt hfits
    unfold Span.join at hjoin
    dsimp only at hjoin
    split at hjoin
    · rename_i hnear
      cases hjoin
      have hsmall := hnear.2.2
      have hmax : max w.hi s.extent.2 * M < Word.size 64 := by
        rcases max_choice w.hi s.extent.2 with hmax | hmax
        · rw [hmax]
          exact hhigh.2.1
        · rw [hmax]
          exact hfits
      rwa [Word.wrappingSub_of_le (by omega) (by omega),
        Word.wrappingMul_of_lt ((Nat.mul_le_mul_right M (Nat.sub_le _ _)).trans_lt hmax)] at hsmall
    · cases hjoin
  · have hnil : held = [] := by
      have := congrArg List.length ht
      rw [List.length_append, List.length_singleton, List.length_singleton] at this
      exact List.length_eq_zero_iff.mp (by omega)
    obtain ⟨e, he, -⟩ := h.covers.high
    rw [hnil] at he
    cases he

/-- What a span asks for lies in the source, and is no longer than a span may be unless
it is a single run. -/
theorem Span.Ready.request (h : w.Ready M held) (hM : 0 < M)
    (hsize : ∀ e ∈ elementsOf held, (e + 1) * M ≤ size) (hcount : w.outCount * M < Word.size 64) :
    (w.request M held).1 + (w.request M held).2 ≤ size ∧
      ((∃ s, held = [s] ∧ s.step = 1) ∨
        (w.request M held).2 = (w.hi - w.lo) * M ∧ (w.hi - w.lo) * M ≤ spanMaxBytes) := by
  obtain ⟨last, hlast, hhigh⟩ := h.covers.high
  have hend : w.hi * M ≤ size := hhigh ▸ hsize last hlast
  have hbounds := h.hi_lt hM
  have hstart : w.lo * M < Word.size 64 := (Nat.mul_le_mul_right M (by omega)).trans_lt hbounds.2.1
  have hsplit : (w.hi - w.lo) * M + w.lo * M = w.hi * M := by
    rw [← Nat.add_mul, Nat.sub_add_cancel (by omega)]
  unfold Span.request
  rw [Word.wrappingMul_of_lt hstart, Word.wrappingMul_of_lt hcount,
    Word.wrappingSub_of_le (by omega) hbounds.2.2, Word.wrappingMul_of_lt (by omega)]
  split
  · rename_i honly
    obtain ⟨only, hhead, hone, hstep⟩ := honly
    obtain ⟨s', hsingle⟩ := List.length_eq_one_iff.mp hone
    subst hsingle
    obtain rfl : s' = only := by simpa using hhead
    refine ⟨?_, .inl ⟨s', rfl, hstep⟩⟩
    have hvalid := h.valid s' (List.mem_singleton_self _)
    have hpos := hvalid.count_pos
    have hfar : s'.src + s'.count - 1 ∈ elementsOf [s'] := by
      rw [elementsOf_singleton, Stretch.elements_one hstep, List.mem_range'_1]
      omega
    have hin := hsize _ hfar
    have hsucc : s'.src + s'.count - 1 + 1 = s'.src + s'.count := by omega
    rw [hsucc] at hin
    have houtCount : w.outCount = s'.count := by
      rw [h.covers.count, elementsOf_singleton, Stretch.length_elements]
    dsimp only
    rwa [← Nat.add_mul, h.covers.one s' rfl hstep, houtCount]
  · rename_i hmany
    dsimp only
    refine ⟨by omega, .inr ⟨rfl, ?_⟩⟩
    cases held with
    | nil => cases hlast
    | cons s more =>
        cases more with
        | cons t more => exact h.joined (by simp)
        | nil =>
            obtain ⟨hsized, hlo, hhi⟩ := h.single s rfl
            rw [hlo, hhi]
            refine hsized.extent (h.valid s (List.mem_singleton_self _)) hM fun hone => hmany ?_
            exact ⟨s, rfl, rfl, hone⟩

/-- The spans of some stretches: each is ready to be copied out, and together they
hold the stretches in order. -/
theorem Span.gather_ready (hM : 0 < M) (hspan : ∀ w, span = some w → w.Ready M held)
    (hss : ∀ s ∈ ss, s.Valid M ∧ s.Sized M)
    (hcount : (elementsOf held).length + (elementsOf ss).length < Word.size 64) :
    (∀ p ∈ Span.gather M span held outAt ss, p.1.Ready M p.2) ∧
      (Span.gather M span held outAt ss).flatMap Prod.snd = span.toList.flatMap (fun _ => held) ++ ss := by
  induction ss generalizing span held outAt with
  | nil =>
      rw [Span.gather]
      constructor
      · intro p hp
        obtain ⟨w, hw, rfl⟩ := List.mem_map.mp hp
        exact hspan w (by simpa using hw)
      · rw [List.flatMap_map, List.append_nil]
  | cons s ss ih =>
      rw [List.forall_mem_cons] at hss
      have hsplit : (elementsOf (s :: ss)).length = s.count + (elementsOf ss).length := by
        rw [elementsOf, List.flatMap_cons, List.length_append, Stretch.length_elements]
      rw [hsplit] at hcount
      rw [Span.gather]
      cases hjoin : span.bind (·.join s.extent.1 s.extent.2 s.count M) with
      | some w' =>
          obtain ⟨w, hw, hjoined⟩ := Option.bind_eq_some_iff.mp hjoin
          have hnext := (hspan w hw).join hss.1.1 hM (by omega) hjoined
          have hrest := @ih (Word.wrappingAdd 64 outAt s.count) (some w') (held ++ [s])
            (by intro v hv; cases hv; exact hnext) hss.2 (by
              rw [elementsOf_append, elementsOf_singleton, List.length_append, Stretch.length_elements]
              omega)
          refine ⟨hrest.1, ?_⟩
          dsimp only
          rw [hrest.2, hw]
          simp
      | none =>
          have hrest := @ih (Word.wrappingAdd 64 outAt s.count)
            (some ⟨s.extent.1, s.extent.2, outAt, s.count⟩) [s]
            (by intro v hv; cases hv; exact Span.ready_single hss.1.1 hss.1.2 hM outAt) hss.2 (by
              rw [elementsOf_singleton, Stretch.length_elements]
              omega)
          constructor
          · intro p hp
            rcases List.mem_append.mp hp with hp | hp
            · obtain ⟨w, hw, rfl⟩ := List.mem_map.mp hp
              exact hspan w (by simpa using hw)
            · exact hrest.1 p hp
          · dsimp only
            rw [List.flatMap_append, hrest.2, List.flatMap_map]
            simp

/-- Copying a span out leaves the scratch buffer as long as it was, or as the span. -/
theorem length_scratch {both : List β × List β}
    (h : copySpan zero readSrc M w held out scratch = .ok both) :
    both.2 = scratch ∨ (¬ ∃ s, held = [s] ∧ s.step = 1) ∧
      both.2.length = max scratch.length (w.request M held).2 := by
  unfold copySpan at h
  unfold Span.request
  dsimp only at h
  split at h
  · rename_i honly
    obtain ⟨out', -, h⟩ := Fallible.bind_eq_ok.mp h
    obtain ⟨read, -, h⟩ := Fallible.bind_eq_ok.mp h
    cases h
    exact .inl rfl
  · rename_i hmany
    obtain ⟨read, hread, h⟩ := Fallible.bind_eq_ok.mp h
    obtain ⟨out', -, h⟩ := Fallible.bind_eq_ok.mp h
    cases h
    have hlen : read.length = Word.wrappingMul 64 (Word.wrappingSub 64 w.hi w.lo) M := by
      unfold fromSrc at hread
      split at hread
      · cases hread
      · cases hread
        exact Vector.length_toList
    right
    constructor
    · intro hone
      obtain ⟨s, rfl, hstep⟩ := hone
      exact hmany ⟨s, rfl, rfl, hstep⟩
    · rw [if_neg hmany]
      dsimp only
      rw [Vec.length_write (by simp; omega), List.length_append, List.length_replicate]
      omega

theorem length_scratch_le {spans : List (Span × List Stretch)} {both : List β × List β}
    (hsmall : ∀ p ∈ spans, (∃ s, p.2 = [s] ∧ s.step = 1) ∨ (p.1.request M p.2).2 ≤ spanMaxBytes)
    (h : spans.foldlM (fun both p => copySpan zero readSrc M p.1 p.2 both.1 both.2) (out, scratch) =
      .ok both) : both.2.length ≤ max scratch.length spanMaxBytes := by
  induction spans generalizing out scratch with
  | nil =>
      cases h
      exact Nat.le_max_left _ _
  | cons p spans ih =>
      rw [List.forall_mem_cons] at hsmall
      rw [List.foldlM_cons] at h
      obtain ⟨next, hcopy, h⟩ := Fallible.bind_eq_ok.mp h
      have hrest := ih hsmall.2 h
      have hnext : next.2.length ≤ max scratch.length spanMaxBytes := by
        rcases length_scratch hcopy with hsame | ⟨hmany, hgrown⟩
        · rw [hsame]
          exact Nat.le_max_left _ _
        · have hle := hsmall.1.resolve_left hmany
          dsimp only at hgrown
          omega
      omega

end Spans

/-! ## Gathered selections -/

section Requests

variable {build : Build} {shape els : List Nat} {dtype : DType} {indices : List Index}
  {quality : QualitySpec} {L : SelectionLayout} {g : Gathered}

/-- A read of some stretches asks for spans that hold them in order, each inside the
source; all but single runs are bounded, and so is the buffer they are cut out of. -/
structure Bounded (M size : Nat) (ss : List Stretch) : Prop where
  spans : (Span.gather M none [] 0 ss).flatMap Prod.snd = ss
  inside : ∀ p ∈ Span.gather M none [] 0 ss, (p.1.request M p.2).1 + (p.1.request M p.2).2 ≤ size
  small : ∀ p ∈ Span.gather M none [] 0 ss,
    (∃ s, p.2 = [s] ∧ s.step = 1) ∨ (p.1.request M p.2).2 ≤ spanMaxBytes
  scratch : ∀ (readSrc : ReadSrc UInt8) (out scratch : List UInt8) (both : List UInt8 × List UInt8),
    (ss.foldlM (Gathering.add 0 readSrc M) ⟨none, [], 0, out, scratch⟩ >>= fun st =>
      st.flush 0 readSrc M) = .ok both → both.2.length ≤ max scratch.length spanMaxBytes

theorem Gathered.Lists.bounded {M first count : Nat} (hg : g.Lists els) (hM : 0 < M)
    (hbytes : shape.prod * M < Word.size 64) (hwithin : ∀ e ∈ els, e < shape.prod)
    (hrange : first + count ≤ els.length) (hword : (first + count) * M < Word.size 64) :
    ∃ ss, g.stretches M first count = some ss ∧ elementsOf ss = Vec.slice els first count ∧
      Bounded M (shape.prod * M) ss := by
  have hsize : ∀ e ∈ els, (e + 1) * M ≤ shape.prod * M := fun e he =>
    Nat.mul_le_mul_right M (hwithin e he)
  have hbound : ∀ e ∈ els, (e + 1) * M < Word.size 64 := fun e he => (hsize e he).trans_lt hbytes
  have hcount : first + count < Word.size 64 := (Nat.le_mul_of_pos_right _ hM).trans_lt hword
  obtain ⟨ss, hss, helements, hvalid⟩ := stretches_ok hg hM hbound hcount hrange
  have hnamed : elementsOf ss = Vec.slice els first count := helements
  have hlen : (elementsOf ss).length = count := by
    rw [hnamed, Vec.length_slice hrange]
  have hready := @Span.gather_ready M 0 none [] ss hM (fun w hw => by cases hw)
    (fun s hs => ⟨hvalid s hs, stretches_sized hg hbound hrange hss s hs⟩)
    (by rw [hlen, elementsOf, List.flatMap_nil, List.length_nil]; omega)
  have hflat : (Span.gather M none [] 0 ss).flatMap Prod.snd = ss :=
    hready.2.trans (List.nil_append ss)
  have hpart : ∀ p ∈ Span.gather M none [] 0 ss, (elementsOf p.2).Sublist (elementsOf ss) := by
    intro p hp
    have hall := congrArg elementsOf hflat
    rw [elementsOf, List.flatMap_assoc] at hall
    rw [← hall]
    exact List.sublist_flatten_of_mem (List.mem_map_of_mem hp)
  have hheld : ∀ p ∈ Span.gather M none [] 0 ss, ∀ e ∈ elementsOf p.2, e ∈ els := by
    intro p hp e he
    have hmem := (hpart p hp).subset he
    rw [hnamed] at hmem
    exact List.mem_of_mem_drop (List.mem_of_mem_take hmem)
  have hrequest : ∀ p ∈ Span.gather M none [] 0 ss, (p.1.request M p.2).1 + (p.1.request M p.2).2 ≤
      shape.prod * M ∧ ((∃ s, p.2 = [s] ∧ s.step = 1) ∨
        (p.1.request M p.2).2 ≤ spanMaxBytes) := by
    intro p hp
    have hout : p.1.outCount * M < Word.size 64 := by
      have hle := (hpart p hp).length_le
      rw [hlen] at hle
      rw [(hready.1 p hp).covers.count]
      exact (Nat.mul_le_mul_right M (hle.trans (Nat.le_add_left count first))).trans_lt hword
    have h := (hready.1 p hp).request hM (fun e he => hsize e (hheld p hp e he)) hout
    refine ⟨h.1, h.2.imp_right ?_⟩
    intro hlong
    rw [hlong.1]
    exact hlong.2
  refine ⟨ss, hss, hnamed, hflat, fun p hp => (hrequest p hp).1,
    fun p hp => (hrequest p hp).2, ?_⟩
  intro readSrc out scratch both hrun
  rw [run_eq_spans] at hrun
  exact length_scratch_le (fun p hp => (hrequest p hp).2) hrun

theorem bounded_nil {M size : Nat} : Bounded M size [] where
  spans := rfl
  inside := by simp [Span.gather]
  small := by simp [Span.gather]
  scratch := by
    intro readSrc out scratch both hrun
    cases hrun
    exact Nat.le_max_left _ _

/-- Reading a range of a gathered selection names its elements in order, asks for them
inside the array, and needs no longer a buffer than one span. -/
theorem gathered_bounded (h : SelectionLayout.resolve build shape dtype indices quality = .ok L)
    (hkind : L.kind = .gathered g) (hbytes : shape.prod * dtype.itemsize < Word.size 64) :
    ∃ els, Numpy.selected shape indices = some els ∧ ∀ first count, first + count ≤ els.length →
      (first + count) * dtype.itemsize < Word.size 64 →
      ∃ ss, g.stretches dtype.itemsize first count = some ss ∧
        elementsOf ss = Vec.slice els first count ∧
        Bounded dtype.itemsize (shape.prod * dtype.itemsize) ss := by
  obtain ⟨els, hels, hL⟩ := SelectionLayout.resolve_serves h
  have hdtype : L.srcDtype = dtype := by
    obtain ⟨r, kind, -, -, hL, -⟩ := SelectionLayout.resolve_spec h
    rw [hL]
  refine ⟨els, hels, fun first count hrange hword => ?_⟩
  have hM := dtype.itemsize_pos
  by_cases hnil : els = []
  · subst hnil
    rw [List.length_nil] at hrange
    obtain rfl : count = 0 := by omega
    exact ⟨[], if_pos rfl, by simp [Vec.slice], bounded_nil⟩
  · have hstands := hL.kind
    rw [hkind] at hstands
    obtain ⟨-, -, hlists⟩ := hstands hnil
    have hfits : ∀ e ∈ els, e < Word.size 64 := by
      intro e he
      have hlt := hL.within e he
      have hprod : shape.prod < Word.size 64 := (Nat.le_mul_of_pos_right _ hM).trans_lt hbytes
      omega
    exact (hlists hfits).bounded hM hbytes hL.within hrange hword

/-- Every other column of three rows taken backwards: one span of nine elements. -/
theorem gathered_bounded_backwards :
    ∃ ss els, Numpy.selected [3, 4] [.slice none none (some (-1)), .slice none none (some 2)] = some els ∧
      elementsOf ss = Vec.slice els 1 4 ∧ elementsOf ss = [10, 4, 6, 0] ∧ Bounded 2 (12 * 2) ss := by
  have hresolve : SelectionLayout.resolve ⟨false, false⟩ [3, 4] .int16
      [.slice none none (some (-1)), .slice none none (some 2)] {} =
        .ok ⟨[3, 2], .int16, .int16, 12, {}, .gathered ⟨8, [.stride 3 (-4), .stride 2 2]⟩⟩ := by decide
  obtain ⟨els, hels, hall⟩ := gathered_bounded hresolve rfl (by decide)
  have hsix : els = [8, 10, 4, 6, 0, 2] := by
    have heq : Numpy.selected [3, 4] [.slice none none (some (-1)), .slice none none (some 2)] =
        some [8, 10, 4, 6, 0, 2] := by decide
    exact Option.some.inj (hels.symm.trans heq)
  obtain ⟨ss, -, hnamed, hbounded⟩ := hall 1 4 (by rw [hsix]; decide) (by decide)
  refine ⟨ss, els, hels, hnamed, ?_, hbounded⟩
  rw [hnamed, hsix]
  decide

end Requests

end Aex
