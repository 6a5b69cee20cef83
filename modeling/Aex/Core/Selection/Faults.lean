import Aex.Core.Selection.Reads
import Aex.Lib.Fallible

/-!
# Reads of a source that fails

A source may fail at a read, at any point of a larger one.  What a selection reads is
then that failure, and never other bytes.
-/

namespace Aex

open Fallible (AgreesOr)

/-- A failure of the source, as the read's. -/
def ReadFailure.Of (P : AexError → Prop) (failure : ReadFailure) : Prop :=
  ∃ e, P e ∧ failure = .error e

section Agreement

variable {β : Type} {zero : β} {readSrc readSrc' : ReadSrc β} {P : AexError → Prop} {itemsize : Nat}

/-- Two sources that agree but for the failures of the first. -/
def ReadSrc.AgreesOr (P : AexError → Prop) (readSrc readSrc' : ReadSrc β) : Prop :=
  ∀ offset len, Fallible.AgreesOr P (readSrc offset len) (readSrc' offset len)

theorem fromSrc_agrees (h : readSrc.AgreesOr P readSrc') (offset len : Nat) :
    AgreesOr (ReadFailure.Of P) (fromSrc readSrc offset len) (fromSrc readSrc' offset len) := by
  unfold fromSrc
  cases h offset len with
  | inl heq => exact .inl (by rw [heq])
  | inr hfail =>
      obtain ⟨e, he, hread⟩ := hfail
      exact .inr ⟨.error e, ⟨e, he, rfl⟩, by rw [hread]⟩

theorem copySpan_agrees (h : readSrc.AgreesOr P readSrc') (w : Span) (stretches : List Stretch)
    (out scratch : List β) :
    AgreesOr (ReadFailure.Of P) (copySpan zero readSrc itemsize w stretches out scratch)
      (copySpan zero readSrc' itemsize w stretches out scratch) := by
  unfold copySpan
  apply AgreesOr.ite
  · apply (AgreesOr.refl _).bind
    intro _
    exact (fromSrc_agrees h _ _).bind fun _ => AgreesOr.refl _
  · exact (fromSrc_agrees h _ _).bind fun _ => AgreesOr.refl _

theorem Gathering.flush_agrees (h : readSrc.AgreesOr P readSrc') (st : Gathering β) :
    AgreesOr (ReadFailure.Of P) (st.flush zero readSrc itemsize) (st.flush zero readSrc' itemsize) := by
  unfold Gathering.flush
  split
  · exact copySpan_agrees h _ _ _ _
  · exact AgreesOr.refl _

theorem Gathering.add_agrees (h : readSrc.AgreesOr P readSrc') (st : Gathering β) (s : Stretch) :
    AgreesOr (ReadFailure.Of P) (st.add zero readSrc itemsize s) (st.add zero readSrc' itemsize s) := by
  unfold Gathering.add
  split
  · exact AgreesOr.refl _
  · exact (Gathering.flush_agrees h st).bind fun _ => AgreesOr.refl _

theorem Gathered.read_agrees (h : readSrc.AgreesOr P readSrc') (scratch : List β) (g : Gathered)
    (offset : Nat) (dst : List β) :
    AgreesOr (ReadFailure.Of P) (g.read zero scratch readSrc itemsize offset dst)
      (g.read zero scratch readSrc' itemsize offset dst) := by
  unfold Gathered.read
  dsimp only
  split
  · exact AgreesOr.refl _
  · apply (AgreesOr.foldlM (Gathering.add_agrees h) _ _).bind
    intro st
    exact (Gathering.flush_agrees h st).bind fun _ => AgreesOr.refl _

namespace SelectionLayout

theorem readSource_agrees (h : readSrc.AgreesOr P readSrc') (scratch : List β) (L : SelectionLayout)
    (offset : Nat) (dst : List β) :
    AgreesOr (ReadFailure.Of P) (L.readSource zero scratch readSrc itemsize offset dst)
      (L.readSource zero scratch readSrc' itemsize offset dst) := by
  unfold readSource
  split
  · exact fromSrc_agrees h _ _
  · exact Gathered.read_agrees h _ _ _ _

/-- A read fails as its source does, or is the read of one that does not fail. -/
theorem readWith_agrees (h : readSrc.AgreesOr P readSrc') (convert : Narrow β) (scratch : List β)
    (L : SelectionLayout) (offset : Nat) (dst : List β) :
    AgreesOr (ReadFailure.Of P) (L.readWith zero convert scratch readSrc offset dst)
      (L.readWith zero convert scratch readSrc' offset dst) := by
  unfold readWith
  split
  · exact AgreesOr.refl _
  apply AgreesOr.ite
  · exact readSource_agrees h _ _ _ _
  · unfold readCast
    apply AgreesOr.ite
    · exact AgreesOr.refl _
    · exact (readSource_agrees h _ _ _ _).bind fun _ => AgreesOr.refl _

end SelectionLayout

end Agreement

/-! ## Sources that do not lie -/

section Honest

variable {build : Build} {src : Nat → UInt8} {size : Nat} {readSrc : ReadSrc UInt8}
  {P : AexError → Prop}

/-- Every range of the source's `size` bytes is read as it is, or fails in one of some ways. -/
def ReadSrc.ServesOr (readSrc : ReadSrc UInt8) (src : Nat → UInt8) (size : Nat)
    (P : AexError → Prop) : Prop :=
  ∀ offset len, offset + len ≤ size → offset + len < Word.size 64 →
    (∃ bytes, readSrc offset len = .ok bytes ∧ bytes.toList = bytesAt src offset len) ∨
      ∃ e, P e ∧ readSrc offset len = .error e

/-- What is read is as it is, and any read may fail. -/
def ReadSrc.Honest (readSrc : ReadSrc UInt8) (src : Nat → UInt8) (size : Nat) : Prop :=
  readSrc.ServesOr src size fun _ => True

/-- The source with its failures mended. -/
def ReadSrc.mended (readSrc : ReadSrc UInt8) (src : Nat → UInt8) (size : Nat) : ReadSrc UInt8 :=
  fun offset len =>
    if offset + len ≤ size ∧ offset + len < Word.size 64 then
      .ok (Vector.ofFn fun i => src (offset + i))
    else readSrc offset len

theorem toList_ofFn_eq (offset len : Nat) :
    (Vector.ofFn fun i : Fin len => src (offset + i)).toList = bytesAt src offset len := by
  apply List.ext_getElem
  · simp
  · intro i hi _
    simp [bytesAt]

theorem ReadSrc.mended_serves : (readSrc.mended src size).Serves src size :=
  fun offset len hsize hword => ⟨_, if_pos ⟨hsize, hword⟩, toList_ofFn_eq offset len⟩

theorem ReadSrc.ServesOr.agrees (h : readSrc.ServesOr src size P) :
    readSrc.AgreesOr P (readSrc.mended src size) := by
  intro offset len
  unfold mended
  split
  · rename_i hinside
    cases h offset len hinside.1 hinside.2 with
    | inl hread =>
        obtain ⟨bytes, hread, hbytes⟩ := hread
        left
        rw [hread, Except.ok.injEq]
        exact Vector.toList_inj.mp (hbytes.trans (toList_ofFn_eq offset len).symm)
    | inr hfail => exact .inr hfail
  · exact AgreesOr.refl _

namespace ArraySelection

variable (p : ArraySelection build) (convert : Narrow UInt8) (scratch : List UInt8)

/-- A range of the selection is read as that range of its stream, or fails as its source does. -/
theorem readWith_servesOr (h : readSrc.ServesOr src (p.shape.prod * p.dtype.itemsize) P)
    {offset : Nat} {dst : List UInt8} (hrange : offset + dst.length ≤ p.layout.totalBytes) :
    p.layout.readWith 0 convert scratch readSrc offset dst =
        .ok (Vec.slice (p.content convert src) offset dst.length) ∨
      ∃ e, P e ∧ p.layout.readWith 0 convert scratch readSrc offset dst = .error (.error e) := by
  rw [← p.readWith_eq ReadSrc.mended_serves hrange]
  apply (SelectionLayout.readWith_agrees h.agrees convert scratch p.layout offset dst).imp id
  intro hfail
  obtain ⟨_, ⟨e, he, rfl⟩, hread⟩ := hfail
  exact ⟨e, he, hread⟩

end ArraySelection

end Honest

end Aex
