import Aex.Core.Selection.Stretches

/-!
# The spans of a walk

Stretches that lie close together are read as one span and cut out of it; what is
read is the elements they name, one after the other.
-/

namespace Aex

/-! ## The extent of a stretch -/

namespace Stretch

section Extent

variable {M i e : Nat} {s : Stretch}

theorem mem_elements (hi : i < s.count) : (s.src + i * s.step : Int).toNat ∈ s.elements :=
  List.mem_map.mpr ⟨i, List.mem_range.mpr hi, rfl⟩

/-- The last element. -/
def last (s : Stretch) : Nat := (s.src + (s.count - 1 : Nat) * s.step : Int).toNat

theorem Valid.src_mem (h : s.Valid M) : s.src ∈ s.elements := by
  have := mem_elements h.count_pos
  simpa using this

theorem Valid.last_mem (h : s.Valid M) : s.last ∈ s.elements :=
  mem_elements (Nat.sub_lt h.count_pos Nat.one_pos)

theorem Valid.cast_last (h : s.Valid M) :
    (s.last : Int) = s.src + (s.count - 1 : Nat) * s.step :=
  Int.toNat_of_nonneg (h.nonneg _ (Nat.sub_lt h.count_pos Nat.one_pos))

/-- The first and the last element enclose the others. -/
theorem Valid.between (h : s.Valid M) (he : e ∈ s.elements) :
    min s.src s.last ≤ e ∧ e ≤ max s.src s.last := by
  obtain ⟨i, hi, rfl⟩ := List.mem_map.mp he
  have hle : i ≤ s.count - 1 := Nat.le_sub_one_of_lt (List.mem_range.mp hi)
  have hnonneg := h.nonneg i (List.mem_range.mp hi)
  have hlast := h.cast_last
  rcases Int.le_total 0 s.step with hup | hdown
  · have hlow := Int.mul_nonneg (Int.natCast_nonneg i) hup
    have hhigh := Int.mul_le_mul_of_nonneg_right (Int.ofNat_le.mpr hle) hup
    omega
  · have hlow := Int.mul_nonpos_of_nonneg_of_nonpos (Int.natCast_nonneg i) hdown
    have hhigh := Int.mul_le_mul_of_nonpos_right (Int.ofNat_le.mpr hle) hdown
    omega

/-- From the first element to the last. -/
theorem Valid.distance (h : s.Valid M) :
    max s.src s.last - min s.src s.last = (s.count - 1) * s.step.natAbs := by
  have hlast := h.cast_last
  have habs : (((s.count - 1 : Nat) : Int) * s.step).natAbs = (s.count - 1) * s.step.natAbs := by
    rw [Int.natAbs_mul, Int.natAbs_natCast]
  omega

/-- There are no more elements than there are in the source. -/
theorem Valid.count_lt (h : s.Valid M) : s.count * M < Word.size 64 := by
  have hdistance := h.distance
  have hpos := h.count_pos
  have hle : s.count - 1 ≤ (s.count - 1) * s.step.natAbs :=
    Nat.le_mul_of_pos_right _ (Int.natAbs_pos.mpr h.moves)
  have hfirst := h.fits _ h.src_mem
  have hlast := h.fits _ h.last_mem
  rcases Nat.le_total s.src s.last with hup | hdown
  · exact (Nat.mul_le_mul_right M (by omega)).trans_lt hlast
  · exact (Nat.mul_le_mul_right M (by omega)).trans_lt hfirst

theorem Valid.extent_eq (h : s.Valid M) (hM : 0 < M) :
    s.extent = (min s.src s.last, max s.src s.last + 1) := by
  have hbound : ∀ e ∈ s.elements, e + 1 < Word.size 64 := fun e he =>
    (Nat.le_mul_of_pos_right _ hM).trans_lt (h.fits e he)
  have hcount : s.count < Word.size 64 := (Nat.le_mul_of_pos_right _ hM).trans_lt h.count_lt
  have hlast : Word.wrappingAdd 64 s.src (Word.wrappingMul 64 (Word.wrappingSub 64 s.count 1)
      (Word.ofSigned 64 s.step)) = s.last := by
    have hmod : (Word.wrappingAdd 64 s.src (Word.wrappingMul 64 (Word.wrappingSub 64 s.count 1)
        (Word.ofSigned 64 s.step)) : Int) ≡ s.last [ZMOD Word.size 64] := by
      rw [h.cast_last, Word.wrappingSub_of_le h.count_pos hcount]
      refine (wrappingAdd_modEq _ _).trans (Int.ModEq.add_left _ ?_)
      exact (wrappingMul_modEq _ _).trans ((ofSigned_modEq _).mul_left _)
    have hnat : _ % _ = _ % _ := Int.natCast_modEq_iff.mp hmod
    have hlt := hbound _ h.last_mem
    rwa [Nat.mod_eq_of_lt Word.wrappingAdd_lt, Nat.mod_eq_of_lt (by omega)] at hnat
  have hmax : max s.src s.last + 1 < Word.size 64 := by
    have hsrc := hbound _ h.src_mem
    have hlt := hbound _ h.last_mem
    omega
  rw [extent, hlast, Word.wrappingAdd_of_lt hmax]

/-- What the extent of a stretch says of its elements. -/
theorem Valid.extent_spec (h : s.Valid M) (hM : 0 < M) :
    (∀ e ∈ s.elements, s.extent.1 ≤ e ∧ e < s.extent.2) ∧
      (∃ e ∈ s.elements, s.extent.2 = e + 1) ∧ (s.step = 1 → s.extent.1 = s.src) := by
  rw [h.extent_eq hM]
  refine ⟨fun e he => ?_, ?_, fun hone => ?_⟩
  · have := h.between he
    exact ⟨this.1, Nat.lt_succ_of_le this.2⟩
  · rcases max_choice s.src s.last with hmax | hmax
    · exact ⟨s.src, h.src_mem, by rw [hmax]⟩
    · exact ⟨s.last, h.last_mem, by rw [hmax]⟩
  · have hlast := h.cast_last
    rw [hone] at hlast
    dsimp only
    omega

end Extent

end Stretch

/-! ## Bytes of the source -/

section Source

variable {β : Type} {src : Nat → β} {M a n k lo hi size : Nat} {es : List Nat} {readSrc : ReadSrc β}

/-- Some bytes of a source, which has one at every offset. -/
def bytesAt (src : Nat → β) (at_ n : Nat) : List β := (List.range' at_ n).map src

/-- The bytes of some elements, one after the other. -/
def gather (src : Nat → β) (M : Nat) (es : List Nat) : List β :=
  es.flatMap fun e => bytesAt src (e * M) M

/-- Every range of the source's `size` bytes that a word can address is read as it is. -/
def ReadSrc.Serves (readSrc : ReadSrc β) (src : Nat → β) (size : Nat) : Prop :=
  ∀ offset len, offset + len ≤ size → offset + len < Word.size 64 →
    ∃ bytes, readSrc offset len = .ok bytes ∧ bytes.toList = bytesAt src offset len

@[simp] theorem length_bytesAt : (bytesAt src a n).length = n := by
  simp [bytesAt]

@[simp] theorem gather_nil : gather src M [] = [] := rfl

theorem gather_append {more : List Nat} :
    gather src M (es ++ more) = gather src M es ++ gather src M more := List.flatMap_append

@[simp] theorem length_gather : (gather src M es).length = es.length * M := by
  simp [gather, List.length_flatMap]

theorem gather_range' : gather src M (List.range' a n) = bytesAt src (a * M) (n * M) := by
  induction n generalizing a with
  | zero => simp [bytesAt]
  | succ n ih =>
      have hnext : (a + 1) * M = a * M + M := Nat.succ_mul a M
      have hmore : (n + 1) * M = M + n * M := by rw [Nat.succ_mul, Nat.add_comm]
      rw [List.range'_succ, gather, List.flatMap_cons, ← gather, ih, bytesAt, bytesAt, bytesAt,
        hnext, hmore, ← List.map_append, List.range'_append_1]

theorem slice_gather :
    Vec.slice (gather src M es) (a * M) (n * M) = gather src M (Vec.slice es a n) :=
  Vec.slice_flatMap fun _ _ => length_bytesAt

theorem fromSrc_ok (h : readSrc.Serves src size) (hsize : a + n ≤ size)
    (hword : a + n < Word.size 64) : fromSrc readSrc a n = .ok (bytesAt src a n) := by
  obtain ⟨bytes, hread, hbytes⟩ := h a n hsize hword
  rw [fromSrc, hread]
  exact congrArg Except.ok hbytes

theorem sliceOf_ok {xs : List β} (h : a + n ≤ xs.length) : sliceOf xs a n = .ok (Vec.slice xs a n) :=
  if_pos h

/-- Part of what was read of a source. -/
theorem slice_of_take {xs : List β} (h : xs.take n = bytesAt src lo n) (hk : k + a ≤ n) :
    Vec.slice xs k a = bytesAt src (lo + k) a := by
  have hslice : Vec.slice xs k a = Vec.slice (xs.take n) k a := by
    apply List.ext_getElem?
    intro i
    rw [Vec.getElem?_slice, Vec.getElem?_slice]
    by_cases hi : i < a
    · rw [if_pos hi, if_pos hi, List.getElem?_take_of_lt (by omega)]
    · rw [if_neg hi, if_neg hi]
  rw [hslice, h]
  apply List.ext_getElem?
  intro i
  rw [Vec.getElem?_slice, bytesAt, bytesAt, List.getElem?_map, List.getElem?_map]
  by_cases hi : i < a
  · rw [if_pos hi, List.getElem?_range' (by omega), List.getElem?_range' hi]
    congr 2
    omega
  · rw [if_neg hi, List.getElem?_eq_none (by simpa using hi)]
    rfl

end Source

/-! ## Cutting stretches out of a span -/

section Cut

variable {β : Type} {src : Nat → β} {M lo hi pos : Nat} {s : Stretch} {ss : List Stretch}
  {out scratch : List β}

/-- Where an element of a stretch is in the bytes of its span. -/
theorem strided_at (h : s.Valid M) (hin : ∀ e ∈ s.elements, lo ≤ e ∧ e < hi)
    (hhi : hi * M < Word.size 64) {i : Nat} (hi' : i < s.count) :
    Word.wrappingAdd 64 ((s.src - lo) * M)
        (Word.wrappingMul 64 i (Word.wrappingMul 64 (Word.ofSigned 64 s.step) M)) =
      ((s.src + i * s.step : Int).toNat - lo) * M := by
  have hsrc := hin _ h.src_mem
  have he := hin _ (Stretch.mem_elements hi')
  have hnonneg := h.nonneg i hi'
  have hmod : (Word.wrappingAdd 64 ((s.src - lo) * M)
      (Word.wrappingMul 64 i (Word.wrappingMul 64 (Word.ofSigned 64 s.step) M)) : Int) ≡
        (((s.src + i * s.step : Int).toNat - lo) * M : Nat) [ZMOD Word.size 64] := by
    have hexact : (((s.src + i * s.step : Int).toNat - lo) * M : Nat) =
        (((s.src - lo) * M : Nat) : Int) + i * (s.step * M) := by
      rw [Nat.cast_mul, Nat.cast_mul, Nat.cast_sub he.1, Nat.cast_sub hsrc.1,
        Int.toNat_of_nonneg hnonneg]
      ring
    rw [hexact]
    refine (wrappingAdd_modEq _ _).trans (Int.ModEq.add_left _ ?_)
    refine (wrappingMul_modEq _ _).trans (Int.ModEq.mul_left _ ?_)
    exact (wrappingMul_modEq _ _).trans ((ofSigned_modEq _).mul_right _)
  have hlt : ((s.src + i * s.step : Int).toNat - lo) * M < Word.size 64 :=
    (Nat.mul_le_mul_right M (by omega)).trans_lt hhi
  have hnat : _ % _ = _ % _ := Int.natCast_modEq_iff.mp hmod
  rwa [Nat.mod_eq_of_lt Word.wrappingAdd_lt, Nat.mod_eq_of_lt hlt] at hnat

theorem strided_ok (h : s.Valid M) (hin : ∀ e ∈ s.elements, lo ≤ e ∧ e < hi)
    (hhi : hi * M < Word.size 64) :
    strided (bytesAt src (lo * M) ((hi - lo) * M)) ((s.src - lo) * M) s.step M s.count =
      .ok (gather src M s.elements) := by
  suffices hprefix : ∀ n ≤ s.count, (List.range n).foldlM (fun taken i => do
      let element ← sliceOf (bytesAt src (lo * M) ((hi - lo) * M)) (Word.wrappingAdd 64
        ((s.src - lo) * M) (Word.wrappingMul 64 i (Word.wrappingMul 64 (Word.ofSigned 64 s.step) M))) M
      .ok (taken ++ element)) [] = (.ok (gather src M (s.elements.take n)) : Except ReadFailure _) by
    have hall := hprefix s.count le_rfl
    rwa [List.take_of_length_le (Stretch.length_elements).le] at hall
  intro n
  induction n with
  | zero => exact fun _ => rfl
  | succ n ih =>
      intro hn
      have he := hin _ (Stretch.mem_elements hn)
      have hget : s.elements[n]? = some (s.src + n * s.step : Int).toNat := by
        rw [Stretch.elements, List.getElem?_map, List.getElem?_range hn]
        rfl
      obtain ⟨e, hdef⟩ : ∃ e, (s.src + n * s.step : Int).toNat = e := ⟨_, rfl⟩
      rw [hdef] at he hget
      have hroom : (e - lo) * M + M ≤ (hi - lo) * M := by
        rw [← Nat.succ_mul]
        exact Nat.mul_le_mul_right M (by omega)
      have hslice : Vec.slice (bytesAt src (lo * M) ((hi - lo) * M)) ((e - lo) * M) M =
          bytesAt src (e * M) M := by
        rw [slice_of_take (List.take_of_length_le length_bytesAt.le) hroom, ← Nat.add_mul,
          Nat.add_sub_cancel' he.1]
      rw [List.range_succ, List.foldlM_append, ih (by omega)]
      simp only [List.foldlM_cons, List.foldlM_nil, Bind.bind, Except.bind, Pure.pure, Except.pure]
      rw [strided_at h hin hhi hn, hdef, sliceOf_ok (by rw [length_bytesAt]; exact hroom), hslice,
        List.take_add_one, hget]
      simp [gather]

/-- The stretches of a span come one after the other, from `pos` on. -/
theorem cutOut_ok (hM : 0 < M) (hss : ∀ s ∈ ss, s.Valid M)
    (hin : ∀ e ∈ ss.flatMap Stretch.elements, lo ≤ e ∧ e < hi) (hhi : hi * M < Word.size 64)
    (hscratch : scratch.take ((hi - lo) * M) = bytesAt src (lo * M) ((hi - lo) * M))
    (hout : pos + (ss.flatMap Stretch.elements).length * M ≤ out.length) :
    ∃ out', cutOut M lo ((hi - lo) * M) scratch ss pos out = .ok out' ∧ out'.length = out.length ∧
      out'.take (pos + (ss.flatMap Stretch.elements).length * M) =
        out.take pos ++ gather src M (ss.flatMap Stretch.elements) := by
  induction ss generalizing pos out with
  | nil => exact ⟨out, rfl, rfl, by simp⟩
  | cons s ss ih =>
      rw [List.forall_mem_cons] at hss
      obtain ⟨hs, hss⟩ := hss
      rw [List.flatMap_cons, List.forall_mem_append] at hin
      obtain ⟨hin, hmore⟩ := hin
      rw [List.flatMap_cons, List.length_append, Stretch.length_elements, Nat.add_mul] at hout ⊢
      have hsrc := hin _ hs.src_mem
      have hcount : s.count * M / M = s.count := Nat.mul_div_cancel _ hM
      have hoffset : (s.src - lo) * M < Word.size 64 :=
        (Nat.mul_le_mul_right M (by omega)).trans_lt hhi
      have hlo : s.src < Word.size 64 := (Nat.le_mul_of_pos_right _ hM).trans_lt
        ((Nat.mul_le_mul_right M (by omega : s.src ≤ hi)).trans_lt hhi)
      have hlong : (hi - lo) * M ≤ scratch.length := by
        have := congrArg List.length hscratch
        rw [List.length_take, length_bytesAt] at this
        omega
      have hrun : s.step = 1 → sliceOf scratch ((s.src - lo) * M) (s.count * M) =
          .ok (gather src M s.elements) := by
        intro hone
        have hpos := hs.count_pos
        have hlast := hin (s.src + s.count - 1) (by
          rw [Stretch.elements_one hone, List.mem_range'_1]
          omega)
        have hroom : (s.src - lo) * M + s.count * M ≤ (hi - lo) * M := by
          rw [← Nat.add_mul]
          exact Nat.mul_le_mul_right M (by omega)
        rw [sliceOf_ok (by omega), slice_of_take hscratch hroom, ← Nat.add_mul,
          Nat.add_sub_cancel' hsrc.1, Stretch.elements_one hone, gather_range']
      have htaken : strided (scratch.take ((hi - lo) * M)) ((s.src - lo) * M) s.step M
          (s.count * M / M) = .ok (gather src M s.elements) := by
        rw [hscratch, hcount]
        exact strided_ok hs hin hhi
      have hstep : cutOut M lo ((hi - lo) * M) scratch (s :: ss) pos out =
          cutOut M lo ((hi - lo) * M) scratch ss (pos + s.count * M)
            (Vec.write out pos (gather src M s.elements)) := by
        rw [cutOut]
        dsimp only
        rw [Word.wrappingMul_of_lt hs.count_lt, Word.wrappingSub_of_le hsrc.1 hlo,
          Word.wrappingMul_of_lt hoffset, sliceOf_ok (by omega : pos + s.count * M ≤ out.length)]
        by_cases hone : s.step = 1
        · rw [if_pos hone, hrun hone]
          rfl
        · rw [if_neg hone, htaken]
          rfl
      have hlength : (gather src M s.elements).length = s.count * M := by
        rw [length_gather, Stretch.length_elements]
      have hwritten : (Vec.write out pos (gather src M s.elements)).length = out.length :=
        Vec.length_write (by omega)
      obtain ⟨out', hcut, hlen, htake⟩ := @ih (pos + s.count * M)
        (Vec.write out pos (gather src M s.elements)) hss hmore (by omega)
      have hfront := @Vec.take_write_end _ out (gather src M s.elements) pos (by omega)
      rw [hlength] at hfront
      refine ⟨out', hstep.trans hcut, hlen.trans hwritten, ?_⟩
      rw [← Nat.add_assoc, htake, hfront, gather_append, List.append_assoc]

end Cut

/-! ## Spans -/

section Spans

variable {β : Type} {zero : β} {src : Nat → β} {readSrc : ReadSrc β} {M size total : Nat}
  {w : Span} {held : List Stretch} {out scratch : List β}

/-- The elements of some stretches, in order. -/
abbrev elementsOf (ss : List Stretch) : List Nat := ss.flatMap Stretch.elements

/-- A span takes in some stretches, and no more of the source than up to their end. -/
structure Span.Covers (w : Span) (held : List Stretch) : Prop where
  inside : ∀ e ∈ elementsOf held, w.lo ≤ e ∧ e < w.hi
  high : ∃ e ∈ elementsOf held, w.hi = e + 1
  count : w.outCount = (elementsOf held).length
  one : ∀ s, held = [s] → s.step = 1 → w.lo = s.src

/-- Reading a span puts the elements of its stretches into their place. -/
theorem copySpan_ok (hserves : readSrc.Serves src size) (hM : 0 < M)
    (hheld : ∀ s ∈ held, s.Valid M) (hsize : ∀ e ∈ elementsOf held, (e + 1) * M ≤ size)
    (hw : w.Covers held) (hout : (w.outAt + w.outCount) * M ≤ out.length)
    (hword : out.length < Word.size 64) :
    ∃ out' scratch', copySpan zero readSrc M w held out scratch = .ok (out', scratch') ∧
      out'.length = out.length ∧
      out'.take ((w.outAt + w.outCount) * M) =
        out.take (w.outAt * M) ++ gather src M (elementsOf held) := by
  obtain ⟨last, hlast, hhigh⟩ := hw.high
  obtain ⟨s, hs, hmem⟩ := List.mem_flatMap.mp hlast
  have hend : w.hi * M < Word.size 64 := hhigh ▸ (hheld s hs).fits last hmem
  have hend' : w.hi * M ≤ size := hhigh ▸ hsize last hlast
  have hlo := hw.inside last hlast
  rw [Nat.add_mul] at hout ⊢
  have hbytes : w.outCount * M < Word.size 64 := by omega
  have hat : w.outAt * M < Word.size 64 := by omega
  have hstart : w.lo * M < Word.size 64 := (Nat.mul_le_mul_right M (by omega)).trans_lt hend
  have hlen : (w.hi - w.lo) * M + w.lo * M = w.hi * M := by
    rw [← Nat.add_mul, Nat.sub_add_cancel (by omega)]
  have hhi : w.hi < Word.size 64 := (Nat.le_mul_of_pos_right _ hM).trans_lt hend
  unfold copySpan
  dsimp only
  rw [Word.wrappingMul_of_lt hbytes, Word.wrappingMul_of_lt hat, Word.wrappingMul_of_lt hstart,
    Word.wrappingSub_of_le (by omega) hhi,
    Word.wrappingMul_of_lt (by omega : (w.hi - w.lo) * M < Word.size 64)]
  split
  · rename_i honly
    obtain ⟨only, hhead, hone, hstep⟩ := honly
    obtain ⟨s', hsingle⟩ := List.length_eq_one_iff.mp hone
    subst hsingle
    obtain rfl : s' = only := by simpa using hhead
    have hcount : w.outCount = s'.count := by
      rw [hw.count]
      simp [elementsOf, Stretch.length_elements]
    have hvalid := hheld s' (List.mem_singleton_self _)
    have hpos := hvalid.count_pos
    have hfar : s'.src + s'.count - 1 ∈ elementsOf [s'] := by
      rw [elementsOf, List.flatMap_singleton, Stretch.elements_one hstep, List.mem_range'_1]
      omega
    have hroom : w.lo * M + w.outCount * M ≤ size ∧ w.lo * M + w.outCount * M < Word.size 64 := by
      have hsucc : s'.src + s'.count - 1 + 1 = s'.src + s'.count := by omega
      have hin := hsize _ hfar
      rw [hsucc] at hin
      rw [← Nat.add_mul, hw.one s' rfl hstep, hcount]
      exact ⟨hin, hvalid.end_lt hstep⟩
    have hgather : gather src M (elementsOf [s']) = bytesAt src (w.lo * M) (w.outCount * M) := by
      rw [elementsOf, List.flatMap_singleton, Stretch.elements_one hstep, gather_range', hcount,
        hw.one s' rfl hstep]
    rw [sliceOf_ok hout, fromSrc_ok hserves hroom.1 hroom.2, hgather]
    refine ⟨_, _, rfl, Vec.length_write (by simpa using hout), ?_⟩
    have htake := @Vec.take_write_end _ out (bytesAt src (w.lo * M) (w.outCount * M)) (w.outAt * M)
      (by omega)
    rwa [length_bytesAt] at htake
  · rw [fromSrc_ok hserves (by omega) (by omega)]
    obtain ⟨grown, hgrown⟩ : ∃ grown, Vec.write
        (scratch ++ List.replicate ((w.hi - w.lo) * M - scratch.length) zero) 0
        (bytesAt src (w.lo * M) ((w.hi - w.lo) * M)) = grown := ⟨_, rfl⟩
    have hscratch : grown.take ((w.hi - w.lo) * M) = bytesAt src (w.lo * M) ((w.hi - w.lo) * M) := by
      have := @Vec.take_write _ (scratch ++ List.replicate ((w.hi - w.lo) * M - scratch.length) zero)
        (bytesAt src (w.lo * M) ((w.hi - w.lo) * M))
      rwa [hgrown, length_bytesAt] at this
    obtain ⟨out', hcut, hlength, htake⟩ := cutOut_ok hM hheld hw.inside hend hscratch
      (by rwa [← elementsOf, ← hw.count])
    rw [← elementsOf, ← hw.count] at htake
    refine ⟨out', grown, ?_, hlength, htake⟩
    simp only [Bind.bind, Except.bind, hgrown, hcut]

end Spans

end Aex
