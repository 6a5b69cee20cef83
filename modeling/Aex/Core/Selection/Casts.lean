import Aex.Core.Selection.Elements
import Aex.Core.Selection.Gather

/-!
# Reads of a layout

A layout stands for the elements that were selected, and its reads give their
bytes in order, or those they narrow to.
-/

namespace Aex

open Grid (sums)

/-! ## What a layout stands for -/

section StandsFor

variable {M k e size offset : Nat} {els shape : List Nat} {indices : List Index}
  {r : ResolvedSelection} {s : Numpy.Selected} {kind : LayoutKind} {dtype : DType}

/-- How a layout finds its elements in the source, up to the wrap of its words. -/
def LayoutKind.StandsFor (M : Nat) (els : List Nat) : LayoutKind → Prop
  | .contiguous srcOffset _ => ∃ o, els = List.range' o els.length ∧
      srcOffset = o * M % Word.size 64 ∧ (els = [] → o = 0)
  | .gathered g => els ≠ [] → g.base < Word.size 64 ∧
      (∃ (c : Nat) (grid : List (List Nat)), els = sums grid ∧
        (g.base : Int) ≡ c [ZMOD Word.size 64] ∧ Represents c g.dims grid) ∧
      ((∀ e ∈ els, e < Word.size 64) → g.Lists els)

theorem kindOf_standsFor {totalBytes : Nat} (h : resolve shape indices = .ok r)
    (hs : Numpy.select shape indices = some s)
    (hkind : SelectionLayout.kindOf shape dtype r totalBytes = .ok kind) :
    kind.StandsFor dtype.itemsize (sums (s.dims (Gathered.front r))) := by
  unfold SelectionLayout.kindOf at hkind
  split at hkind
  · rename_i offset len hrun
    cases hkind
    split at hrun
    · rename_i hwalk
      obtain ⟨o, hels, hoffset, hempty⟩ := contiguousRun_ok h hs hwalk hrun
      refine ⟨o, hels, ?_, hempty⟩
      have hmod : o % Word.size 128 ≡ o [MOD Word.size 64] :=
        (Nat.mod_modEq o _).of_dvd (pow_dvd_pow 2 (by decide))
      rw [hoffset]
      exact hmod.mul_right _
    · cases hrun
  · obtain ⟨g, hnew, rfl⟩ := Fallible.map_eq_ok.mp hkind
    intro hne
    obtain ⟨entries, hr⟩ := resolve_ok h
    obtain ⟨hbase, c, hmod, hrep⟩ := Gathered.new_ok hr hs (mt Grid.sums_eq_nil.mpr hne) hnew
    exact ⟨hbase, ⟨c, _, rfl, hmod, hrep⟩, fun hfits => Gathered.new_lists h hs hne hfits hnew⟩

end StandsFor

/-! ## Reads in the array's own type -/

section ReadSource

variable {β : Type} {zero : β} {src : Nat → β} {readSrc : ReadSrc β} {M k e size offset total : Nat}
  {els : List Nat} {dst scratch : List β} {L : SelectionLayout}

/-- A read in the array's own type gives the bytes of the elements in order. -/
theorem SelectionLayout.readSource_ok (hkind : L.kind.StandsFor M els)
    (hserves : readSrc.Serves src size) (hM : 0 < M)
    (hbound : ∀ e ∈ els, (e + 1) * M < Word.size 64) (hsize : ∀ e ∈ els, (e + 1) * M ≤ size)
    (hword : total * M < Word.size 64) (htotal : total ≤ els.length)
    (hrange : offset + dst.length ≤ total * M) :
    L.readSource zero scratch readSrc M offset dst =
      .ok (Vec.slice (gather src M els) offset dst.length) := by
  unfold SelectionLayout.readSource
  cases hk : L.kind with
  | contiguous srcOffset len =>
      rw [hk] at hkind
      obtain ⟨o, hels, rfl, hempty⟩ := hkind
      obtain ⟨n, hn⟩ : ∃ n, els.length = n := ⟨_, rfl⟩
      rw [hn] at hels htotal
      have hrange : offset + dst.length ≤ n * M := hrange.trans (Nat.mul_le_mul_right M htotal)
      have hend : (o + n) * M < Word.size 64 ∧ (o + n) * M ≤ size := by
        cases n with
        | zero =>
            rw [hempty (List.length_eq_zero_iff.mp hn), Nat.add_zero, Nat.zero_mul]
            exact ⟨by decide, Nat.zero_le _⟩
        | succ n =>
            have hlast : o + n ∈ els := by
              rw [hels, List.mem_range'_1]
              omega
            exact ⟨hbound _ hlast, hsize _ hlast⟩
      rw [Nat.add_mul] at hend
      dsimp only
      rw [Nat.mod_eq_of_lt (by omega), Word.wrappingAdd_of_lt (by omega),
        fromSrc_ok hserves (by omega) (by omega), hels, gather_range',
        slice_of_take (List.take_of_length_le length_bytesAt.le) hrange]
  | gathered g =>
      rw [hk] at hkind
      dsimp only
      by_cases hne : els = []
      · subst hne
        obtain rfl : total = 0 := Nat.le_zero.mp htotal
        rw [Nat.zero_mul] at hrange
        obtain rfl : dst = [] := List.length_eq_zero_iff.mp (by omega)
        obtain rfl : offset = 0 := by simpa using hrange
        exact Gathered.read_nil hM
      · obtain ⟨-, -, hlists⟩ := hkind hne
        have hfits : ∀ e ∈ els, e < Word.size 64 := by
          intro e he
          have := (Nat.le_mul_of_pos_right (e + 1) hM).trans_lt (hbound e he)
          omega
        exact Gathered.read_ok hserves hM (hlists hfits) hbound hsize hword htotal hrange

/-- A read of one element reads where its offset wraps to. -/
theorem SelectionLayout.readSource_one (hkind : L.kind.StandsFor M els) (hM : 0 < M)
    (hlen : els.length < Word.size 64) (hk : els[k]? = some e) (hword : (k + 1) * M < Word.size 64)
    (hdst : dst.length = M) :
    L.readSource zero scratch readSrc M (k * M) dst = .error .panic ∨
      L.readSource zero scratch readSrc M (k * M) dst = fromSrc readSrc (e * M % Word.size 64) M := by
  unfold SelectionLayout.readSource
  cases hkindOf : L.kind with
  | contiguous srcOffset len =>
      rw [hkindOf] at hkind
      obtain ⟨o, hels, rfl, -⟩ := hkind
      right
      have hin := (List.getElem?_eq_some_iff.mp hk).1
      rw [hels, List.getElem?_range' hin, Option.some.injEq, Nat.one_mul] at hk
      dsimp only
      rw [hdst, Word.wrappingAdd, Nat.mod_add_mod, ← Nat.add_mul, hk]
  | gathered g =>
      rw [hkindOf] at hkind
      have hne : els ≠ [] := by
        rintro rfl
        cases hk
      obtain ⟨hbase, ⟨c, grid, rfl, hmod, hrep⟩, -⟩ := hkind hne
      dsimp only
      rcases Gathered.stretches_one (M := M) hmod hbase hrep hlen hk with hnone | ⟨a, ha, hae, hss⟩
      · left
        rw [Gathered.read_whole hM hword hdst, hnone]
      · right
        rw [Gathered.read_one ha hM hword hdst hss]
        have hnat : a ≡ e [MOD Word.size 64] := Int.natCast_modEq_iff.mp hae
        rw [Word.wrappingMul, hnat.mul_right M]

end ReadSource

/-! ## Reads under a cast -/

section ReadCast

variable {β : Type} {zero : β} {convert : Narrow β} {src : Nat → β} {readSrc : ReadSrc β}
  {k e size offset total : Nat} {els es : List Nat} {dst scratch : List β} {L : SelectionLayout}
  {wide narrow : DType}

/-- The bytes that some elements narrow to, one after the other. -/
def casts (convert : Narrow β) (src : Nat → β) (wide narrow : DType) (els : List Nat) : List β :=
  els.flatMap fun e =>
    (convert wide narrow (Vector.ofFn fun j => src (e * wide.itemsize + j))).toList

@[simp] theorem length_casts :
    (casts convert src wide narrow els).length = els.length * narrow.itemsize := by
  simp [casts, List.length_flatMap]

theorem slice_casts {a n : Nat} :
    Vec.slice (casts convert src wide narrow els) (a * narrow.itemsize) (n * narrow.itemsize) =
      casts convert src wide narrow (Vec.slice els a n) :=
  Vec.slice_flatMap fun _ _ => Vector.length_toList

/-- A byte of an element that was gathered. -/
theorem getD_gather {M i j : Nat} (hi : i < es.length) (hj : j < M) :
    (gather src M es).getD (i * M + j) zero = src (es[i] * M + j) := by
  have hpiece := Vec.slice_flatMap_one (f := fun e => bytesAt src (e * M) M) (n := M)
    (fun _ _ => length_bytesAt) hi
  have hbyte := congrArg (·[j]?) hpiece
  simp only [Vec.getElem?_slice, if_pos hj, bytesAt, List.getElem?_map,
    List.getElem?_range' hj, Option.map_some, Nat.one_mul] at hbyte
  rw [List.getD_eq_getElem?_getD, gather]
  simp only [bytesAt]
  rw [hbyte, Option.getD_some]

/-- The casts that a quality agrees to. -/
def Narrows (wide narrow : DType) : Prop :=
  (wide = .float64 ∧ narrow = .float32) ∨ (wide = .float32 ∧ narrow = .float16)

theorem Narrows.itemsize (h : Narrows wide narrow) : wide.itemsize = 2 * narrow.itemsize := by
  rcases h with ⟨rfl, rfl⟩ | ⟨rfl, rfl⟩ <;> rfl

theorem castInto_ok (h : Narrows wide narrow) :
    castInto zero convert wide narrow (gather src wide.itemsize es)
      (List.replicate (es.length * narrow.itemsize) zero) = .ok (casts convert src wide narrow es) := by
  have hwide : es.length * wide.itemsize / wide.itemsize = es.length :=
    Nat.mul_div_cancel _ wide.itemsize_pos
  have hnarrow : es.length * narrow.itemsize / narrow.itemsize = es.length :=
    Nat.mul_div_cancel _ narrow.itemsize_pos
  have hrange : es = (List.range es.length).map fun i => es.getD i 0 := by
    have := @Vec.slice_eq_map _ es 0 0 es.length (by omega)
    rwa [Vec.slice_of_length_le le_rfl, ← List.range_eq_range'] at this
  have hcasts : (List.range es.length).flatMap (fun i => (convert wide narrow (Vector.ofFn fun j =>
      (gather src wide.itemsize es).getD (i * wide.itemsize + j) zero)).toList) =
        casts convert src wide narrow es := by
    rw [casts]
    conv_rhs => rw [hrange, List.flatMap_map]
    apply List.flatMap_congr
    intro i hi
    rw [List.mem_range] at hi
    congr 3
    funext j
    rw [getD_gather hi j.isLt, List.getD_eq_getElem?_getD, List.getElem?_eq_getElem hi,
      Option.getD_some]
  refine (if_pos h).trans ?_
  dsimp only
  rw [length_gather, List.length_replicate, hwide, hnarrow, Nat.min_self, hcasts, Vec.write_whole]
  rw [length_casts, List.length_replicate]

/-- A read under a cast gives what the elements narrow to in order. -/
theorem SelectionLayout.readCast_ok (hkind : L.kind.StandsFor L.srcDtype.itemsize els)
    (hcast : Narrows L.srcDtype L.dtype) (hserves : readSrc.Serves src size)
    (hbound : ∀ e ∈ els, (e + 1) * L.srcDtype.itemsize < Word.size 64)
    (hsize : ∀ e ∈ els, (e + 1) * L.srcDtype.itemsize ≤ size)
    (hword : total * (L.srcDtype.itemsize + L.dtype.itemsize) < Word.size 64)
    (htotal : total ≤ els.length) (hrange : offset + dst.length ≤ total * L.dtype.itemsize) :
    L.readCast zero convert scratch readSrc offset dst =
      .ok (Vec.slice (casts convert src L.srcDtype L.dtype els) offset dst.length) := by
  obtain ⟨count, hceil, hlow, hhigh, hcover, hleast⟩ :=
    Tiling.exists_steps L.dtype.itemsize_pos offset dst.length
  obtain ⟨first, hfirst⟩ : ∃ first, offset / L.dtype.itemsize = first := ⟨_, rfl⟩
  rw [hfirst] at hceil hlow hhigh hcover hleast
  have hin' : first + count ≤ total := hleast _ hrange
  have hin : first + count ≤ els.length := hin'.trans htotal
  have hwide := Nat.mul_le_mul_right L.srcDtype.itemsize hin'
  have hnarrow' := Nat.mul_le_mul_right L.dtype.itemsize hin'
  have hnarrow := Nat.mul_le_mul_right L.dtype.itemsize hin
  rw [Nat.add_mul] at hwide hnarrow hnarrow' hcover
  rw [Nat.mul_add] at hword
  have hlen : total < Word.size 64 :=
    (Nat.le_mul_of_pos_right _ L.srcDtype.itemsize_pos).trans_lt (by omega)
  have hsource : L.readSource zero scratch readSrc L.srcDtype.itemsize (first * L.srcDtype.itemsize)
      (List.replicate (count * L.srcDtype.itemsize) zero) =
        .ok (gather src L.srcDtype.itemsize (Vec.slice els first count)) := by
    rw [readSource_ok hkind hserves L.srcDtype.itemsize_pos hbound hsize
      (by omega : total * L.srcDtype.itemsize < Word.size 64) htotal
      (by rw [List.length_replicate]; exact hwide), List.length_replicate, slice_gather]
  have htaken : (Vec.slice els first count).length = count := Vec.length_slice hin
  have hnarrowed := @castInto_ok β zero convert src (Vec.slice els first count) _ _ hcast
  rw [htaken, ← slice_casts] at hnarrowed
  have hpart : offset - first * L.dtype.itemsize + dst.length ≤ count * L.dtype.itemsize := by omega
  have hall : first * L.dtype.itemsize + count * L.dtype.itemsize ≤
      (casts convert src L.srcDtype L.dtype els).length := by
    rw [length_casts]
    exact hnarrow
  unfold readCast
  dsimp only
  rw [Word.wrappingAdd_of_lt (by omega : offset + dst.length < Word.size 64), hceil, hfirst,
    Word.wrappingSub_of_le (by omega) (by omega : first + count < Word.size 64),
    Nat.add_sub_cancel_left,
    Word.wrappingMul_of_lt (by omega : count * L.srcDtype.itemsize < Word.size 64),
    Word.wrappingMul_of_lt (by omega : count * L.dtype.itemsize < Word.size 64),
    Word.wrappingMul_of_lt (by omega : first * L.srcDtype.itemsize < Word.size 64),
    Word.wrappingAdd_of_lt (by omega), if_neg (by omega), hsource]
  simp only [Bind.bind, Except.bind]
  rw [hnarrowed]
  dsimp only
  rw [sliceOf_ok (by rw [Vec.length_slice hall]; exact hpart), Vec.slice_slice hpart,
    Nat.add_sub_cancel' hlow]

end ReadCast

/-! ## Resolved layouts -/

section Resolved

variable {build : Build} {shape : List Nat} {dtype : DType} {indices : List Index}
  {quality : QualitySpec} {L : SelectionLayout}

namespace SelectionLayout

/-- What a layout is to its elements. -/
structure Serves (L : SelectionLayout) (shape : List Nat) (els : List Nat) : Prop where
  kind : L.kind.StandsFor L.srcDtype.itemsize els
  total : L.totalBytes = els.length % Word.size 64 * L.dtype.itemsize
  totalBytes_lt : L.totalBytes < Word.size 64
  within : ∀ e ∈ els, e < shape.prod

theorem resolve_serves (h : resolve build shape dtype indices quality = .ok L) :
    ∃ els, Numpy.selected shape indices = some els ∧ L.Serves shape els := by
  have hlt := totalBytes_lt h
  obtain ⟨r, kind, hr, -, hL, hkind⟩ := resolve_spec h
  obtain ⟨s, hs, hselected, hlength⟩ := resolve_selected hr
  obtain ⟨entries, hentries⟩ := resolve_ok hr
  refine ⟨_, hselected, ?_, ?_, hlt, fun e he => hentries.elements_lt hs _ he⟩
  · rw [hL]
    exact kindOf_standsFor hr hs hkind
  · rw [hL, hlength, ResolvedSelection.numElements_eq]

/-- A cast that resolves is one of those a quality agrees to. -/
theorem narrows_of_resolve (h : resolve build shape dtype indices quality = .ok L)
    (hcast : quality.encoding = .dtypeCast) : Narrows L.srcDtype L.dtype := by
  obtain ⟨r, kind, -, -, hL, -⟩ := resolve_spec h
  rw [hL]
  dsimp only
  have hwire : quality.wireDtype build dtype ≠ dtype := by
    intro hsame
    unfold resolve at h
    dsimp only at h
    rw [if_pos ⟨hcast, hsame⟩] at h
    cases h
  unfold QualitySpec.wireDtype QualitySpec.canApply at hwire ⊢
  rw [hcast] at hwire ⊢
  dsimp only at hwire ⊢
  split at hwire
  · rename_i hnarrow
    rw [if_pos rfl, hnarrow]
    exact .inl ⟨rfl, rfl⟩
  · rename_i hnarrow
    rw [if_pos rfl, hnarrow]
    exact .inr ⟨rfl, rfl⟩
  · exact absurd (if_neg Bool.false_ne_true) hwire

/-- Every range of the narrowed stream is read as what the elements narrow to. -/
def ReadsCasts (L : SelectionLayout) (shape els : List Nat) : Prop :=
  ∀ (src : Nat → UInt8) (readSrc : ReadSrc UInt8) (convert : Narrow UInt8) (scratch : List UInt8)
    (offset : Nat) (dst : List UInt8), readSrc.Serves src (shape.prod * L.srcDtype.itemsize) →
    offset + dst.length ≤ els.length * L.dtype.itemsize →
    L.readWith 0 convert scratch readSrc offset dst =
      .ok (Vec.slice (casts convert src L.srcDtype L.dtype els) offset dst.length)

/-- The elements and what they narrow to can be addressed together, and every
element's bytes in the source. -/
structure CastFits (L : SelectionLayout) (els : List Nat) : Prop where
  length : els.length * (L.srcDtype.itemsize + L.dtype.itemsize) < Word.size 64
  source : ∀ e ∈ els, (e + 1) * L.srcDtype.itemsize < Word.size 64

variable {els : List Nat}

theorem Serves.total_of_lt (h : L.Serves shape els) (hlen : els.length < Word.size 64) :
    L.totalBytes = els.length * L.dtype.itemsize := by
  rw [h.total, Nat.mod_eq_of_lt hlen]

theorem CastFits.length_lt (h : L.CastFits els) : els.length < Word.size 64 :=
  (Nat.le_mul_of_pos_right _ (Nat.add_pos_left L.srcDtype.itemsize_pos _)).trans_lt h.length

theorem CastFits.readsCasts (h : L.CastFits els) (hL : L.Serves shape els)
    (hcast : Narrows L.srcDtype L.dtype) : L.ReadsCasts shape els := by
  intro src readSrc convert scratch offset dst hserves hrange
  have hlength := h.length
  rw [Nat.mul_add] at hlength
  have hcheck : L.checkRange offset dst.length = .ok () := by
    rw [checkRange_eq_ok, hL.total_of_lt h.length_lt]
    exact ⟨by omega, hrange⟩
  have hne : L.dtype ≠ L.srcDtype := by
    intro hsame
    have := hcast.itemsize
    have hpos := L.srcDtype.itemsize_pos
    rw [hsame] at this
    omega
  unfold readWith
  rw [hcheck, if_neg hne]
  exact readCast_ok hL.kind hcast hserves h.source
    (fun e he => Nat.mul_le_mul_right _ (hL.within e he)) h.length le_rfl hrange

end SelectionLayout

end Resolved

end Aex
