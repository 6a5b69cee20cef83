import Aex.Core.Selection.Casts

/-!
# The stream of a resolved selection

What a range of the stream reads back, with and without a cast, and where in the
source the range of a contiguous selection lies.
-/

namespace Aex

open Tiling (Tiles)

/-! ## Whole streams -/

section Streams

variable {build : Build} {shape els : List Nat} {dtype : DType} {indices : List Index}
  {quality : QualitySpec} {L : SelectionLayout}

namespace SelectionLayout

/-- Every range of the stream is read as the bytes of the elements in order. -/
def ReadsBytes (L : SelectionLayout) (shape els : List Nat) : Prop :=
  ∀ (src : Nat → UInt8) (readSrc : ReadSrc UInt8) (convert : Narrow UInt8) (scratch : List UInt8)
    (offset : Nat) (dst : List UInt8), readSrc.Serves src (shape.prod * L.srcDtype.itemsize) →
    offset + dst.length ≤ L.totalBytes →
    L.readWith 0 convert scratch readSrc offset dst =
      .ok (Vec.slice (gather src L.srcDtype.itemsize els) offset dst.length)

theorem Serves.total_le (h : L.Serves shape els) :
    L.totalBytes = els.length % Word.size 64 * L.dtype.itemsize ∧
      els.length % Word.size 64 ≤ els.length :=
  ⟨h.total, Nat.mod_le _ _⟩

theorem Serves.bound (h : L.Serves shape els) {M : Nat} (hbytes : shape.prod * M < Word.size 64) :
    (∀ e ∈ els, (e + 1) * M < Word.size 64) ∧ ∀ e ∈ els, (e + 1) * M ≤ shape.prod * M := by
  have hle : ∀ e ∈ els, (e + 1) * M ≤ shape.prod * M := fun e he =>
    Nat.mul_le_mul_right M (h.within e he)
  exact ⟨fun e he => (hle e he).trans_lt hbytes, hle⟩

theorem Serves.readsBytes (h : L.Serves shape els) (hsame : L.dtype = L.srcDtype)
    (hbytes : shape.prod * L.srcDtype.itemsize < Word.size 64) : L.ReadsBytes shape els := by
  intro src readSrc convert scratch offset dst hserves hrange
  have htotal := h.total_le
  have hlt := h.totalBytes_lt
  have hcheck : L.checkRange offset dst.length = .ok () := by
    rw [checkRange_eq_ok]
    exact ⟨by omega, hrange⟩
  unfold readWith
  rw [hcheck, if_pos hsame, hsame]
  rw [htotal.1, hsame] at hrange hlt
  exact readSource_ok h.kind hserves L.srcDtype.itemsize_pos (h.bound hbytes).1 (h.bound hbytes).2
    hlt htotal.2 hrange

theorem srcDtype_of_resolve (h : resolve build shape dtype indices quality = .ok L) :
    L.srcDtype = dtype := by
  obtain ⟨r, kind, -, -, hL, -⟩ := resolve_spec h
  rw [hL]

/-- Without a cast the elements travel as they are. -/
theorem dtype_of_resolve (h : resolve build shape dtype indices quality = .ok L)
    (hcast : quality.encoding ≠ .dtypeCast) : L.dtype = dtype ∧ L.srcDtype = dtype := by
  refine ⟨?_, srcDtype_of_resolve h⟩
  obtain ⟨r, kind, -, -, hL, -⟩ := resolve_spec h
  rw [hL]
  unfold QualitySpec.wireDtype
  cases hencoding : quality.encoding with
  | dtypeCast => exact absurd hencoding hcast
  | exact | errorBound => rfl

/-- Under a cast every range of the stream is read as what the elements narrow to. -/
theorem Serves.readsCast (h : L.Serves shape els) (hnarrows : Narrows L.srcDtype L.dtype)
    (hbytes : shape.prod * L.srcDtype.itemsize < Word.size 64) (hfits : L.totalBytes * 3 < Word.size 64)
    {src : Nat → UInt8} {readSrc : ReadSrc UInt8} (convert : Narrow UInt8) (scratch : List UInt8)
    {offset : Nat} {dst : List UInt8} (hserves : readSrc.Serves src (shape.prod * L.srcDtype.itemsize))
    (hrange : offset + dst.length ≤ L.totalBytes) :
    L.readWith 0 convert scratch readSrc offset dst =
      .ok (Vec.slice (casts convert src L.srcDtype L.dtype els) offset dst.length) := by
  have hwide := hnarrows.itemsize
  have hne : L.dtype ≠ L.srcDtype := by
    intro hsame
    have hpos := L.srcDtype.itemsize_pos
    rw [hsame] at hwide
    omega
  have hcheck : L.checkRange offset dst.length = .ok () := by
    rw [checkRange_eq_ok]
    exact ⟨by omega, hrange⟩
  have hword : els.length % Word.size 64 * (L.srcDtype.itemsize + L.dtype.itemsize) < Word.size 64 := by
    have hthree : L.srcDtype.itemsize + L.dtype.itemsize = L.dtype.itemsize * 3 := by omega
    rw [hthree, ← Nat.mul_assoc, ← h.total]
    exact hfits
  unfold readWith
  rw [hcheck, if_neg hne]
  rw [h.total] at hrange
  exact readCast_ok h.kind hnarrows hserves (h.bound hbytes).1 (h.bound hbytes).2 hword
    h.total_le.2 hrange

end SelectionLayout

/-! ## Selections of an array -/

/-- A selection of an array, resolved.  The array and, under a cast, the elements in both
types can be addressed. -/
structure ArraySelection (build : Build) where
  shape : List Nat
  dtype : DType
  indices : List Index
  quality : QualitySpec
  layout : SelectionLayout
  resolved : SelectionLayout.resolve build shape dtype indices quality = .ok layout
  addressed : shape.prod * dtype.itemsize < Word.size 64
  counted : quality.encoding = .dtypeCast → layout.totalBytes * 3 < Word.size 64

namespace ArraySelection

variable {build : Build}

/-- The bytes of some elements in the type they travel in. -/
def bytesOf (convert : Narrow UInt8) (src : Nat → UInt8) (p : ArraySelection build) (els : List Nat) :
    List UInt8 :=
  if p.quality.encoding = .dtypeCast then casts convert src p.dtype p.layout.dtype els
  else gather src p.dtype.itemsize els

/-- The stream of the selection: the bytes of the elements numpy selects. -/
def content (convert : Narrow UInt8) (src : Nat → UInt8) (p : ArraySelection build) : List UInt8 :=
  (p.bytesOf convert src ((Numpy.selected p.shape p.indices).getD [])).take p.layout.totalBytes

variable {convert : Narrow UInt8} {src : Nat → UInt8} (p : ArraySelection build)

theorem exists_selected : ∃ els, Numpy.selected p.shape p.indices = some els ∧
    p.layout.totalBytes ≤ (p.bytesOf convert src els).length ∧
    ∀ (readSrc : ReadSrc UInt8) (scratch : List UInt8) (offset : Nat) (dst : List UInt8),
      readSrc.Serves src (p.shape.prod * p.dtype.itemsize) →
      offset + dst.length ≤ p.layout.totalBytes →
      p.layout.readWith 0 convert scratch readSrc offset dst =
        .ok (Vec.slice (p.bytesOf convert src els) offset dst.length) := by
  obtain ⟨els, hels, hL⟩ := SelectionLayout.resolve_serves p.resolved
  have hdtype := SelectionLayout.srcDtype_of_resolve p.resolved
  have haddressed := p.addressed
  rw [← hdtype] at haddressed
  refine ⟨els, hels, ?_, ?_⟩
  · have hle := hL.total_le
    have htotal : p.layout.totalBytes ≤ els.length * p.layout.dtype.itemsize := by
      rw [hle.1]
      exact Nat.mul_le_mul_right _ hle.2
    unfold bytesOf
    split
    · rwa [length_casts]
    · rename_i hcast
      rwa [length_gather, ← (SelectionLayout.dtype_of_resolve p.resolved hcast).1]
  · intro readSrc scratch offset dst hserves hrange
    rw [← hdtype] at hserves
    rw [bytesOf, ← hdtype]
    split
    · rename_i hcast
      exact hL.readsCast (SelectionLayout.narrows_of_resolve p.resolved hcast) haddressed
        (p.counted hcast) convert scratch hserves hrange
    · rename_i hcast
      have hsame := SelectionLayout.dtype_of_resolve p.resolved hcast
      exact hL.readsBytes (hsame.1.trans hsame.2.symm) haddressed src readSrc convert scratch offset
        dst hserves hrange

theorem length_content : (p.content convert src).length = p.layout.totalBytes := by
  obtain ⟨els, hels, hle, -⟩ := @exists_selected build convert src p
  rw [content, hels, Option.getD_some, List.length_take]
  omega

/-- A range of the selection is read as that range of its stream. -/
theorem readWith_eq {readSrc : ReadSrc UInt8} {scratch dst : List UInt8} {offset : Nat}
    (hserves : readSrc.Serves src (p.shape.prod * p.dtype.itemsize))
    (hrange : offset + dst.length ≤ p.layout.totalBytes) :
    p.layout.readWith 0 convert scratch readSrc offset dst =
      .ok (Vec.slice (p.content convert src) offset dst.length) := by
  obtain ⟨els, hels, hle, hreads⟩ := @exists_selected build convert src p
  rw [hreads readSrc scratch offset dst hserves hrange, content, hels, Option.getD_some, Vec.slice,
    Vec.slice, List.drop_take, List.take_take]
  congr 2
  omega

end ArraySelection

end Streams

/-! ## The source behind a range -/

section Run

variable {build : Build} {shape els : List Nat} {dtype : DType} {indices : List Index}
  {quality : QualitySpec} {L : SelectionLayout} {srcOffset total offset len : Nat}

namespace SelectionLayout

/-- A range as far as it lies in the stream. -/
def clipped (L : SelectionLayout) (offset len : Nat) : Nat := min len (L.totalBytes - offset)

/-- The elements of a contiguous selection follow one another, and so do their bytes. -/
structure Adjoins (L : SelectionLayout) (shape els : List Nat) (srcOffset : Nat) : Prop where
  elements : ∃ o, els = List.range' o els.length ∧ srcOffset = o * L.srcDtype.itemsize ∧
    (o + els.length) * L.srcDtype.itemsize ≤ shape.prod * L.srcDtype.itemsize
  total : L.totalBytes = els.length * L.dtype.itemsize

theorem Serves.adjoins (h : L.Serves shape els) (hkind : L.kind = .contiguous srcOffset total)
    (hbytes : shape.prod * L.srcDtype.itemsize < Word.size 64) : L.Adjoins shape els srcOffset := by
  have hM := L.srcDtype.itemsize_pos
  have hstands := h.kind
  rw [hkind] at hstands
  obtain ⟨o, hels, hoffset, hempty⟩ := hstands
  have hend : (o + els.length) * L.srcDtype.itemsize ≤ shape.prod * L.srcDtype.itemsize := by
    refine Nat.mul_le_mul_right _ ?_
    by_cases hnil : els = []
    · rw [hnil, hempty hnil]
      exact Nat.zero_le _
    · have hpos := List.length_pos_of_ne_nil hnil
      have hlast : o + els.length - 1 ∈ els := by
        rw [hels, List.mem_range'_1, List.length_range']
        omega
      have := h.within _ hlast
      omega
  have hlen : els.length < Word.size 64 :=
    (Nat.le_mul_of_pos_right els.length hM).trans_lt
      ((Nat.mul_le_mul_right _ (Nat.le_add_left _ o)).trans_lt (hend.trans_lt hbytes))
  refine ⟨⟨o, hels, ?_, hend⟩, h.total_of_lt hlen⟩
  rw [hoffset, Nat.mod_eq_of_lt]
  exact (Nat.mul_le_mul_right _ (Nat.le_add_right o _)).trans_lt (hend.trans_lt hbytes)

/-- The elements of the source that a range of the stream takes bytes of, as a range of bytes. -/
structure Covers (L : SelectionLayout) (shape els : List Nat) (offset len : Nat) (run : Nat × Nat) :
    Prop where
  inside : run.1 + run.2 ≤ shape.prod * L.srcDtype.itemsize
  whole : ∃ e first count, run = (e * L.srcDtype.itemsize, count * L.srcDtype.itemsize) ∧
    0 < count ∧ Vec.slice els first count = List.range' e count ∧
    ∀ i, first ≤ i ∧ i < first + count ↔
      offset < (i + 1) * L.dtype.itemsize ∧ i * L.dtype.itemsize < offset + len

theorem Adjoins.sourceRun_eq (h : L.Adjoins shape els srcOffset) (hkind : L.kind = .contiguous srcOffset total)
    (hlt : L.totalBytes < Word.size 64) (hbytes : shape.prod * L.srcDtype.itemsize < Word.size 64)
    (hoffset : offset ≤ L.totalBytes) (hlen : L.clipped offset len ≠ 0) :
    L.sourceRun offset len =
      some (srcOffset + offset / L.dtype.itemsize * L.srcDtype.itemsize,
        ((offset + L.clipped offset len) ⌈/⌉ L.dtype.itemsize - offset / L.dtype.itemsize) *
          L.srcDtype.itemsize) ∧
      L.Covers shape els offset (L.clipped offset len)
        (srcOffset + offset / L.dtype.itemsize * L.srcDtype.itemsize,
        ((offset + L.clipped offset len) ⌈/⌉ L.dtype.itemsize - offset / L.dtype.itemsize) *
          L.srcDtype.itemsize) := by
  obtain ⟨o, hels, rfl, hend⟩ := h.elements
  have htotal := h.total
  obtain ⟨n, hn⟩ : ∃ n, els.length = n := ⟨_, rfl⟩
  rw [hn] at hels hend htotal
  have hM := L.srcDtype.itemsize_pos
  have hclip : offset + L.clipped offset len ≤ n * L.dtype.itemsize := by
    unfold clipped
    omega
  obtain ⟨count, hceil, hlow, hhigh, hcover, hleast⟩ :=
    Tiling.exists_steps L.dtype.itemsize_pos offset (L.clipped offset len)
  have hmeets := Tiling.meets_iff L.dtype.itemsize_pos offset (L.clipped offset len)
  obtain ⟨first, hfirst⟩ : ∃ first, offset / L.dtype.itemsize = first := ⟨_, rfl⟩
  rw [hfirst] at hceil hlow hhigh hcover hleast hmeets ⊢
  have hin : first + count ≤ n := hleast _ hclip
  have hcount : 0 < count := by
    by_contra hzero
    obtain rfl : count = 0 := by omega
    rw [Nat.add_zero] at hcover
    omega
  have hroom : o * L.srcDtype.itemsize + first * L.srcDtype.itemsize + count * L.srcDtype.itemsize ≤
      shape.prod * L.srcDtype.itemsize := by
    rw [← Nat.add_mul, ← Nat.add_mul]
    exact (Nat.mul_le_mul_right _ (by omega)).trans hend
  have hwords : first + count < Word.size 64 :=
    (Nat.le_mul_of_pos_right _ hM).trans_lt (by rw [Nat.add_mul]; omega)
  rw [hceil, Nat.add_sub_cancel_left]
  constructor
  · have hsub : Word.checkedSub L.totalBytes offset = some (L.totalBytes - offset) := by
      rw [Word.checkedSub_eq_some]
      omega
    unfold sourceRun
    rw [hkind]
    dsimp only
    rw [hsub, Option.bind_eq_bind, Option.bind_some]
    change (if L.clipped offset len = 0 then none else some (_, _)) = _
    have hstop : offset + L.clipped offset len < Word.size 64 := by
      unfold clipped
      omega
    rw [if_neg hlen]
    change some (Word.wrappingAdd 64 _ (Word.wrappingMul 64 (offset / L.dtype.itemsize) _),
      Word.wrappingMul 64 (Word.wrappingSub 64
        (Word.wrappingAdd 64 offset (L.clipped offset len) ⌈/⌉ L.dtype.itemsize)
          (offset / L.dtype.itemsize)) _) = _
    rw [Word.wrappingAdd_of_lt hstop, hceil, hfirst, Word.wrappingSub_of_le (by omega) hwords,
      Nat.add_sub_cancel_left, Word.wrappingMul_of_lt (by omega), Word.wrappingMul_of_lt (by omega),
      Word.wrappingAdd_of_lt (by omega)]
  · refine ⟨hroom, o + first, first, count, ?_, hcount, ?_, ?_⟩
    · rw [Nat.add_mul]
    · rw [hels, Vec.slice, List.drop_range', List.take_range'_of_length_ge (by omega), Nat.mul_one]
    · intro i
      rw [← hceil]
      exact hmeets i

theorem sourceRun_isNone_iff (hkind : L.kind = .contiguous srcOffset total) :
    L.sourceRun offset len = none ↔ L.clipped offset len = 0 := by
  unfold sourceRun clipped
  rw [hkind]
  dsimp only
  by_cases hoffset : offset ≤ L.totalBytes
  · have hsub : Word.checkedSub L.totalBytes offset = some (L.totalBytes - offset) := by
      rw [Word.checkedSub_eq_some]
      omega
    rw [hsub, Option.bind_eq_bind, Option.bind_some]
    split <;> simp_all
  · have hsub : Word.checkedSub L.totalBytes offset = none := by
      unfold Word.checkedSub
      rw [if_neg (by omega)]
    rw [hsub]
    simp
    omega

/-- What is hinted for a range of a contiguous selection is the least range of whole
elements behind it, and nothing for a range with nothing in it. -/
theorem sourceRun_least (h : resolve build shape dtype indices quality = .ok L)
    (hkind : L.kind = .contiguous srcOffset total)
    (hbytes : shape.prod * dtype.itemsize < Word.size 64) :
    ∃ els, Numpy.selected shape indices = some els ∧ ∀ offset len,
      (L.sourceRun offset len = none ↔ L.clipped offset len = 0) ∧
      ∀ run, L.sourceRun offset len = some run → L.Covers shape els offset (L.clipped offset len) run := by
  obtain ⟨els, hels, hL⟩ := resolve_serves h
  have hdtype := srcDtype_of_resolve h
  rw [← hdtype] at hbytes
  have hadjoins := hL.adjoins hkind hbytes
  refine ⟨els, hels, fun offset len => ⟨sourceRun_isNone_iff hkind, ?_⟩⟩
  intro run hrun
  have hlen : L.clipped offset len ≠ 0 := by
    intro hzero
    rw [(sourceRun_isNone_iff hkind).mpr hzero] at hrun
    cases hrun
  have hoffset : offset ≤ L.totalBytes := by
    unfold clipped at hlen
    omega
  have heq := hadjoins.sourceRun_eq hkind hL.totalBytes_lt hbytes hoffset hlen
  rw [hrun, Option.some.injEq] at heq
  rw [heq.1]
  exact heq.2

/-- The second row of two, as `float32`. -/
def secondRow : SelectionLayout :=
  ⟨[3], .float32, .float64, 12, { encoding := .dtypeCast, castDtype := some .float32 },
    .contiguous 24 12⟩

theorem sourceRun_least_row : ∃ els, Numpy.selected [2, 3] [.single 1] = some els ∧
    (∀ len, secondRow.sourceRun 3 len = none ↔ secondRow.clipped 3 len = 0) ∧
    secondRow.Covers [2, 3] els 3 4 (24, 16) := by
  have hresolve : resolve ⟨false, false⟩ [2, 3] .float64 [.single 1]
      { encoding := .dtypeCast, castDtype := some .float32 } = .ok secondRow := by decide
  obtain ⟨els, hels, hleast⟩ := sourceRun_least hresolve rfl (by decide)
  exact ⟨els, hels, fun len => (hleast 3 len).1, (hleast 3 4).2 _ (by decide)⟩

theorem fromSrc_congr {readSrc readSrc' : ReadSrc UInt8} {at_ n : Nat}
    (h : readSrc at_ n = readSrc' at_ n) : fromSrc readSrc at_ n = fromSrc readSrc' at_ n := by
  unfold fromSrc
  rw [h]

/-- A read of a range looks at nothing but the run that would be hinted for it. -/
theorem readWith_of_run (h : resolve build shape dtype indices quality = .ok L)
    (hkind : L.kind = .contiguous srcOffset total)
    (hbytes : shape.prod * dtype.itemsize < Word.size 64) {dst : List UInt8} {run : Nat × Nat}
    (hrun : L.sourceRun offset dst.length = some run) (hrange : offset + dst.length ≤ L.totalBytes)
    {readSrc readSrc' : ReadSrc UInt8}
    (hsame : ∀ at_ n, run.1 ≤ at_ → at_ + n ≤ run.1 + run.2 → readSrc at_ n = readSrc' at_ n)
    (convert : Narrow UInt8) (scratch : List UInt8) :
    L.readWith 0 convert scratch readSrc offset dst =
      L.readWith 0 convert scratch readSrc' offset dst := by
  obtain ⟨els, -, hL⟩ := resolve_serves h
  have hdtype := srcDtype_of_resolve h
  rw [← hdtype] at hbytes
  have hclipped : L.clipped offset dst.length = dst.length := by
    unfold clipped
    omega
  have hlen : L.clipped offset dst.length ≠ 0 := by
    intro hzero
    rw [(sourceRun_isNone_iff hkind).mpr hzero] at hrun
    cases hrun
  have hlt := hL.totalBytes_lt
  have hspec := (hL.adjoins hkind hbytes).sourceRun_eq hkind hlt hbytes (by omega) hlen
  rw [hclipped, hrun, Option.some.injEq] at hspec
  have hinside := hspec.2.inside
  obtain ⟨heq, -⟩ := hspec
  unfold readWith
  split
  · rfl
  split
  · rename_i hexact
    rw [← heq] at hinside
    obtain ⟨count, hceil, hlow, -, hcover, -⟩ :=
      Tiling.exists_steps L.dtype.itemsize_pos offset dst.length
    rw [hceil, Nat.add_sub_cancel_left, ← hexact] at heq
    rw [Nat.add_mul] at hcover
    have hfirst : run.1 ≤ srcOffset + offset := by
      rw [heq]
      exact Nat.add_le_add_left hlow _
    have hlast : srcOffset + offset + dst.length ≤ run.1 + run.2 := by
      rw [heq]
      dsimp only
      omega
    unfold readSource
    rw [hkind]
    dsimp only
    rw [Word.wrappingAdd_of_lt (by omega : srcOffset + offset < Word.size 64)]
    exact fromSrc_congr (hsame _ _ hfirst hlast)
  · have hasked : run = (Word.wrappingAdd 64 srcOffset
        (Word.wrappingMul 64 (offset / L.dtype.itemsize) L.srcDtype.itemsize),
        Word.wrappingMul 64 (Word.wrappingSub 64
          (Word.wrappingAdd 64 offset dst.length ⌈/⌉ L.dtype.itemsize)
            (offset / L.dtype.itemsize)) L.srcDtype.itemsize) := by
      have hsub : Word.checkedSub L.totalBytes offset = some (L.totalBytes - offset) := by
        rw [Word.checkedSub_eq_some]
        omega
      have hmin : min dst.length (L.totalBytes - offset) = dst.length := hclipped
      unfold sourceRun at hrun
      rw [hkind] at hrun
      dsimp only at hrun
      rw [hsub, Option.bind_eq_bind, Option.bind_some, hmin,
        if_neg (by rwa [hclipped] at hlen), Option.some.injEq] at hrun
      exact hrun.symm
    have hread := fromSrc_congr (hsame run.1 run.2 (Nat.le_refl _) (Nat.le_refl _))
    rw [hasked] at hread
    unfold readCast readSource
    rw [hkind]
    dsimp only at hread ⊢
    rw [List.length_replicate, hread]

/-- A source that refuses everything before the row. -/
theorem readWith_of_run_row :
    secondRow.readWith (0 : UInt8) (fun _ narrow _ => Vector.replicate narrow.itemsize 5) []
        (fun _ n => .ok (Vector.replicate n 7)) 3 [0, 0, 0, 0] =
      secondRow.readWith (0 : UInt8) (fun _ narrow _ => Vector.replicate narrow.itemsize 5) []
        (fun at_ n => if at_ < 24 then .error (.badSelection "") else .ok (Vector.replicate n 7))
        3 [0, 0, 0, 0] := by
  have hresolve : resolve ⟨false, false⟩ [2, 3] .float64 [.single 1]
      { encoding := .dtypeCast, castDtype := some .float32 } = .ok secondRow := by decide
  have hrun : secondRow.sourceRun 3 [(0 : UInt8), 0, 0, 0].length = some (24, 16) := by decide
  exact readWith_of_run hresolve rfl (by decide) hrun (by decide)
    (fun at_ n hat _ => (if_neg (Nat.not_lt.mpr hat)).symm) _ []

end SelectionLayout

end Run

end Aex
