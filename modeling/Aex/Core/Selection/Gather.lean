import Aex.Lib.Tiling
import Aex.Core.Selection.Spans

/-!
# A gathered read

What is copied out and what is still held for a span are together the elements
handed on so far, so a read gives the bytes of the elements of its range.
-/

namespace Aex

section Gathering

variable {β : Type} {zero : β} {src : Nat → β} {readSrc : ReadSrc β} {M size n : Nat}
  {before : List Nat} {st : Gathering β} {held ss : List Stretch} {s : Stretch} {w w' : Span}

/-! ## Taking in a stretch -/

theorem elementsOf_append : elementsOf (held ++ ss) = elementsOf held ++ elementsOf ss :=
  List.flatMap_append

@[simp] theorem elementsOf_singleton : elementsOf [s] = s.elements := List.flatMap_singleton _ _

/-- A span of one stretch. -/
theorem Span.covers_single (hs : s.Valid M) (hM : 0 < M) (at_ : Nat) :
    Span.Covers ⟨s.extent.1, s.extent.2, at_, s.count⟩ [s] := by
  obtain ⟨hinside, ⟨e, he, hhigh⟩, hone⟩ := hs.extent_spec hM
  refine ⟨?_, ⟨e, ?_, hhigh⟩, ?_, ?_⟩
  · rwa [elementsOf_singleton]
  · rwa [elementsOf_singleton]
  · rw [elementsOf_singleton, Stretch.length_elements]
  · intro s' hs' hstep
    cases hs'
    exact hone hstep

/-- A span that takes in one more stretch. -/
theorem Span.Covers.join (hw : w.Covers held) (hs : s.Valid M) (hM : 0 < M)
    (hcount : (elementsOf held).length + s.count < Word.size 64)
    (h : w.join s.extent.1 s.extent.2 s.count M = some w') :
    w'.outAt = w.outAt ∧ w'.Covers (held ++ [s]) := by
  unfold Span.join at h
  dsimp only at h
  split at h
  · cases h
    obtain ⟨hinside, ⟨e, he, hhigh⟩, -⟩ := hs.extent_spec hM
    obtain ⟨e', he', hhigh'⟩ := hw.high
    refine ⟨rfl, ⟨?_, ?_, ?_, ?_⟩⟩
    · intro a ha
      rw [elementsOf_append, elementsOf_singleton, List.mem_append] at ha
      dsimp only
      rcases ha with ha | ha
      · have := hw.inside a ha
        omega
      · have := hinside a ha
        omega
    · rw [elementsOf_append, elementsOf_singleton]
      rcases max_choice w.hi s.extent.2 with hmax | hmax
      · exact ⟨e', List.mem_append_left _ he', hmax.trans hhigh'⟩
      · exact ⟨e, List.mem_append_right _ he, hmax.trans hhigh⟩
    · rw [elementsOf_append, elementsOf_singleton, List.length_append, Stretch.length_elements]
      dsimp only
      rw [hw.count, Word.wrappingAdd_of_lt hcount]
    · intro s' hs'
      have hnil : held = [] := by
        have := congrArg List.length hs'
        rw [List.length_append, List.length_singleton, List.length_singleton] at this
        exact List.length_eq_zero_iff.mp (by omega)
      rw [hnil] at he'
      cases he'
  · cases h

/-! ## From stretch to stretch -/

/-- The elements of `before` are copied out, and those held are the span's. -/
structure Gathering.Holds (src : Nat → β) (M size : Nat) (before : List Nat) (n : Nat)
    (st : Gathering β) : Prop where
  length : st.out.length = n
  written : st.out.take (before.length * M) = gather src M before
  outAt : st.outAt = (before ++ elementsOf st.held).length
  valid : ∀ s ∈ st.held, s.Valid M
  inside : ∀ e ∈ elementsOf st.held, (e + 1) * M ≤ size
  none : st.span = none → st.held = []
  some : ∀ w, st.span = some w → w.outAt = before.length ∧ w.Covers st.held

namespace Gathering

/-- Copying out the span so far leaves nothing held. -/
theorem Holds.flush (h : st.Holds src M size before n) (hserves : readSrc.Serves src size)
    (hM : 0 < M) (hroom : st.outAt * M ≤ n) (hword : n < Word.size 64) :
    ∃ out scratch, st.flush zero readSrc M = .ok (out, scratch) ∧ out.length = n ∧
      out.take (st.outAt * M) = gather src M (before ++ elementsOf st.held) := by
  unfold Gathering.flush
  cases hspan : st.span with
  | none =>
      refine ⟨st.out, st.scratch, rfl, h.length, ?_⟩
      rw [h.outAt, h.none hspan, elementsOf, List.flatMap_nil, List.append_nil]
      exact h.written
  | some w =>
      obtain ⟨hat, hcovers⟩ := h.some w hspan
      have hall : w.outAt + w.outCount = st.outAt := by
        rw [h.outAt, List.length_append, hat, hcovers.count]
      obtain ⟨out, scratch, hcopy, hlength, htake⟩ := @copySpan_ok β zero src readSrc M size w st.held
        st.out st.scratch hserves hM h.valid h.inside hcovers (by rwa [hall, h.length])
        (by rwa [h.length])
      rw [hall, hat, h.written, ← gather_append] at htake
      exact ⟨out, scratch, hcopy, hlength.trans h.length, htake⟩

/-- Taking in one stretch. -/
theorem Holds.add (h : st.Holds src M size before n) (hserves : readSrc.Serves src size)
    (hM : 0 < M) (hs : s.Valid M) (hsize : ∀ e ∈ s.elements, (e + 1) * M ≤ size)
    (hroom : (st.outAt + s.count) * M ≤ n) (hword : n < Word.size 64) :
    ∃ st' before', st.add zero readSrc M s = .ok st' ∧ st'.Holds src M size before' n ∧
      before' ++ elementsOf st'.held = before ++ elementsOf st.held ++ s.elements := by
  have hcount : st.outAt + s.count < Word.size 64 :=
    (Nat.le_mul_of_pos_right _ hM).trans_lt (hroom.trans_lt hword)
  have hat : Word.wrappingAdd 64 st.outAt s.count =
      (before ++ elementsOf st.held ++ s.elements).length := by
    rw [Word.wrappingAdd_of_lt hcount, h.outAt, @List.length_append _ _ s.elements,
      Stretch.length_elements]
  unfold Gathering.add
  split
  · rename_i w' hjoin
    obtain ⟨w, hspan, hjoin⟩ := Option.bind_eq_some_iff.mp hjoin
    obtain ⟨hplace, hcovers⟩ := h.some w hspan
    have hheld := h.outAt
    rw [List.length_append] at hheld
    obtain ⟨hsame, hcovers'⟩ := hcovers.join hs hM (by omega) hjoin
    refine ⟨_, before, rfl, ⟨h.length, h.written, ?_, ?_, ?_, ?_, ?_⟩, ?_⟩
    · dsimp only
      rw [hat, elementsOf_append, elementsOf_singleton, List.append_assoc]
    · intro t ht
      rcases List.mem_append.mp ht with ht | ht
      · exact h.valid t ht
      · exact List.mem_singleton.mp ht ▸ hs
    · intro e he
      rw [elementsOf_append, elementsOf_singleton, List.mem_append] at he
      exact he.elim (h.inside e) (hsize e)
    · intro hnone
      cases hnone
    · intro w'' hw''
      cases hw''
      exact ⟨hsame.trans hplace, hcovers'⟩
    · dsimp only
      rw [elementsOf_append, elementsOf_singleton, List.append_assoc]
  · have hsmall : st.outAt * M ≤ n := (Nat.mul_le_mul_right M (Nat.le_add_right _ _)).trans hroom
    obtain ⟨out, scratch, hflush, hlength, htake⟩ := @Holds.flush β zero src readSrc M size n before st
      h hserves hM hsmall hword
    rw [hflush]
    refine ⟨_, before ++ elementsOf st.held, rfl, ⟨hlength, ?_, ?_, ?_, ?_, ?_, ?_⟩, ?_⟩
    · rwa [← h.outAt]
    · dsimp only
      rw [hat, elementsOf_singleton]
    · intro t ht
      exact List.mem_singleton.mp ht ▸ hs
    · dsimp only
      rwa [elementsOf_singleton]
    · intro hnone
      cases hnone
    · intro w hw
      cases hw
      exact ⟨h.outAt, Span.covers_single hs hM _⟩
    · dsimp only
      rw [elementsOf_singleton]

/-- Taking in the stretches of a walk. -/
theorem Holds.run (h : st.Holds src M size before n) (hserves : readSrc.Serves src size)
    (hM : 0 < M) (hss : ∀ s ∈ ss, s.Valid M) (hsize : ∀ e ∈ elementsOf ss, (e + 1) * M ≤ size)
    (hroom : (st.outAt + (elementsOf ss).length) * M ≤ n) (hword : n < Word.size 64) :
    ∃ st' before', ss.foldlM (Gathering.add zero readSrc M) st = .ok st' ∧
      st'.Holds src M size before' n ∧
      before' ++ elementsOf st'.held = before ++ elementsOf st.held ++ elementsOf ss := by
  induction ss generalizing st before with
  | nil => exact ⟨st, before, rfl, h, by simp [elementsOf]⟩
  | cons s ss ih =>
      rw [List.forall_mem_cons] at hss
      have hsplit : elementsOf (s :: ss) = s.elements ++ elementsOf ss := List.flatMap_cons
      rw [hsplit, List.forall_mem_append] at hsize
      rw [hsplit, List.length_append, Stretch.length_elements, ← Nat.add_assoc] at hroom
      obtain ⟨next, before', hnext, hholds, heq⟩ := @Holds.add β zero src readSrc M size n before st s h
        hserves hM hss.1 hsize.1 ((Nat.mul_le_mul_right M (Nat.le_add_right _ _)).trans hroom) hword
      have hat : next.outAt = st.outAt + s.count := by
        rw [hholds.outAt, heq, List.length_append, ← h.outAt, Stretch.length_elements]
      obtain ⟨st', before'', hrun, hholds', heq'⟩ := ih hholds hss.2 hsize.2 (by rwa [hat])
      refine ⟨st', before'', ?_, hholds', ?_⟩
      · rw [List.foldlM_cons, hnext]
        exact hrun
      · rw [heq', heq, hsplit, List.append_assoc _ s.elements]

end Gathering

end Gathering

/-! ## A range of the stream -/

section Read

variable {β : Type} {zero : β} {src : Nat → β} {readSrc : ReadSrc β} {M size offset total : Nat}
  {g : Gathered} {els : List Nat} {dst scratch : List β}

/-- A read of a walk gives the bytes of its elements in order, as far as words count them. -/
theorem Gathered.read_ok (hserves : readSrc.Serves src size) (hM : 0 < M) (hg : g.Lists els)
    (hbound : ∀ e ∈ els, (e + 1) * M < Word.size 64) (hsize : ∀ e ∈ els, (e + 1) * M ≤ size)
    (hword : total * M < Word.size 64) (htotal : total ≤ els.length)
    (hrange : offset + dst.length ≤ total * M) :
    g.read zero scratch readSrc M offset dst =
      .ok (Vec.slice (gather src M els) offset dst.length) := by
  obtain ⟨count, hceil, hlow, hhigh, hcover, hleast⟩ := Tiling.exists_steps hM offset dst.length
  obtain ⟨first, hfirst⟩ : ∃ first, offset / M = first := ⟨_, rfl⟩
  rw [hfirst] at hceil hlow hhigh hcover hleast
  have hin' : first + count ≤ total := hleast _ hrange
  have hin : first + count ≤ els.length := hin'.trans htotal
  have hlen : total < Word.size 64 := (Nat.le_mul_of_pos_right _ hM).trans_lt hword
  have hwhole' : (first + count) * M ≤ total * M := Nat.mul_le_mul_right M hin'
  have hwhole : (first + count) * M ≤ els.length * M := Nat.mul_le_mul_right M hin
  rw [Nat.add_mul] at hwhole hwhole' hcover
  obtain ⟨ss, hss, helements, hvalid⟩ := stretches_ok hg hM hbound (by omega) hin
  have htaken : elementsOf ss = Vec.slice els first count := helements
  have hcount : (elementsOf ss).length = count := by
    rw [htaken, Vec.length_slice hin]
  have hbytes : gather src M (elementsOf ss) =
      Vec.slice (gather src M els) (first * M) (count * M) := by
    rw [htaken, slice_gather]
  have hmem : ∀ e ∈ elementsOf ss, e ∈ els := by
    intro e he
    rw [htaken] at he
    exact List.mem_of_mem_drop (List.mem_of_mem_take he)
  have hgathered : ∀ out : List β, out.length = count * M →
      ∃ st scratch', ss.foldlM (Gathering.add zero readSrc M) ⟨none, [], 0, out, scratch⟩ = .ok st ∧
        st.flush zero readSrc M =
          .ok (Vec.slice (gather src M els) (first * M) (count * M), scratch') := by
    intro out hout
    have hstart : (⟨none, [], 0, out, scratch⟩ : Gathering β).Holds src M size [] out.length :=
      ⟨rfl, by simp, rfl, by simp, by simp [elementsOf], fun _ => rfl, fun _ h => by cases h⟩
    obtain ⟨st, before, hrun, hholds, heq⟩ := @Gathering.Holds.run β zero src readSrc M size out.length
      [] _ ss hstart hserves hM hvalid (fun e he => hsize e (hmem e he))
      (by rw [Nat.zero_add, hcount, hout]) (by omega)
    have hat : st.outAt * M = out.length := by
      rw [hholds.outAt, heq, hout, ← hcount]
      simp [elementsOf]
    obtain ⟨out', scratch', hflush, hlength, htake⟩ := @Gathering.Holds.flush β zero src readSrc M size
      out.length before st hholds hserves hM hat.le (by omega)
    rw [heq, hat, List.take_of_length_le hlength.le] at htake
    refine ⟨st, scratch', hrun, ?_⟩
    rw [hflush, htake, ← hbytes]
    rfl
  unfold Gathered.read
  dsimp only
  rw [Word.wrappingAdd_of_lt (by omega : offset + dst.length < Word.size 64), hceil, hfirst,
    Word.wrappingSub_of_le (by omega) (by omega : first + count < Word.size 64),
    Nat.add_sub_cancel_left, hss, Word.wrappingMul_of_lt (by omega : count * M < Word.size 64)]
  dsimp only
  by_cases haligned : offset - first * M = 0 ∧ (offset + dst.length) % M = 0
  · have hstart : first * M = offset := by omega
    have hexact : count * M = dst.length := by
      obtain ⟨last, hlast⟩ := Nat.dvd_of_mod_eq_zero haligned.2
      have hle := hleast last (by rw [hlast, Nat.mul_comm])
      have := Nat.mul_le_mul_right M hle
      rw [Nat.add_mul, Nat.mul_comm last, ← hlast] at this
      omega
    obtain ⟨st, scratch', hrun, hflush⟩ := hgathered dst hexact.symm
    simp only [if_pos haligned, hrun, Bind.bind, Except.bind, hflush]
    rw [hstart, hexact]
  · obtain ⟨st, scratch', hrun, hflush⟩ := hgathered (List.replicate (count * M) zero)
      List.length_replicate
    simp only [if_neg haligned, hrun, Bind.bind, Except.bind, hflush]
    have hpart : offset - first * M + dst.length ≤ count * M := by omega
    have hall : first * M + count * M ≤ (gather src M els).length := by
      rw [length_gather]
      exact hwhole
    rw [sliceOf_ok (by rw [Vec.length_slice hall]; exact hpart), Vec.slice_slice hpart,
      Nat.add_sub_cancel' hlow]

/-- A read of a single whole element. -/
theorem Gathered.read_whole {k : Nat} (hM : 0 < M) (hword : (k + 1) * M < Word.size 64)
    (hdst : dst.length = M) :
    g.read zero scratch readSrc M (k * M) dst =
      (match g.stretches M k 1 with
      | none => .error .panic
      | some ss => do
          let st ← ss.foldlM (Gathering.add zero readSrc M) ⟨none, [], 0, dst, scratch⟩
          let (out, _) ← st.flush zero readSrc M
          .ok out) := by
  have hsucc : k * M + M = (k + 1) * M := (Nat.succ_mul k M).symm
  have hk : k + 1 < Word.size 64 := (Nat.le_mul_of_pos_right _ hM).trans_lt hword
  have hceil : ((k + 1) * M) ⌈/⌉ M = k + 1 := by
    rw [Nat.mul_comm]
    exact smul_ceilDiv hM (k + 1)
  unfold Gathered.read
  dsimp only
  rw [hdst, Word.wrappingAdd_of_lt (by omega), hsucc, Nat.mul_div_cancel _ hM, hceil,
    Word.wrappingSub_of_le (by omega) hk, Nat.add_sub_cancel_left, Nat.sub_self, Nat.mul_mod_left]
  rfl

/-- A read of a single element reads the source once, where the walk says. -/
theorem Gathered.read_one {a k : Nat} (ha : a < Word.size 64) (hM : 0 < M)
    (hword : (k + 1) * M < Word.size 64) (hdst : dst.length = M)
    (hss : g.stretches M k 1 = some [⟨a, 1, 1⟩]) :
    g.read zero scratch readSrc M (k * M) dst = fromSrc readSrc (Word.wrappingMul 64 a M) M := by
  have hM' : M < Word.size 64 := (Nat.le_mul_of_pos_left M (Nat.succ_pos k)).trans_lt hword
  have hextent : Stretch.extent ⟨a, 1, 1⟩ = (a, Word.wrappingAdd 64 a 1) := by
    have hzero : Word.wrappingMul 64 (Word.wrappingSub 64 1 1) (Word.ofSigned 64 1) = 0 := by decide
    rw [Stretch.extent, hzero, Word.wrappingAdd_of_lt (by simpa using ha)]
    simp
  have hcopy : copySpan zero readSrc M ⟨a, Word.wrappingAdd 64 a 1, 0, 1⟩ [⟨a, 1, 1⟩] dst scratch =
      (fromSrc readSrc (Word.wrappingMul 64 a M) M).map fun read =>
        (Vec.write dst 0 read, scratch) := by
    unfold copySpan
    rw [if_pos ⟨_, rfl, rfl, rfl⟩]
    dsimp only
    rw [Word.wrappingMul_of_lt (by omega), Word.wrappingMul_of_lt (by omega), Nat.zero_mul,
      Nat.one_mul, sliceOf_ok (by omega)]
    rfl
  rw [read_whole hM hword hdst, hss]
  simp only [List.foldlM_cons, List.foldlM_nil, Gathering.add, Option.bind_none, Gathering.flush,
    Bind.bind, Except.bind, Pure.pure, Except.pure, hextent]
  rw [hcopy]
  cases hread : fromSrc readSrc (Word.wrappingMul 64 a M) M with
  | error e => rfl
  | ok read =>
      have hlen : read.length = M := by
        unfold fromSrc at hread
        split at hread
        · cases hread
        · rename_i bytes _
          cases hread
          exact bytes.length_toList
      simp only [Except.map]
      rw [Vec.write_whole (hlen.trans hdst.symm)]

/-- Reading nothing. -/
theorem Gathered.read_nil (hM : 0 < M) : g.read zero scratch readSrc M 0 [] = .ok [] := by
  have hceil : 0 ⌈/⌉ M = 0 := Nat.le_zero.mp ((ceilDiv_le_iff_le_mul hM).mpr (Nat.zero_le _))
  unfold Gathered.read
  dsimp only
  rw [List.length_nil, Word.wrappingAdd_of_lt (by decide), Nat.add_zero, hceil, Nat.zero_div,
    Word.wrappingSub_of_le le_rfl (by decide)]
  simp [Gathered.stretches, Gathering.flush, Bind.bind, Except.bind, Pure.pure, Except.pure]

end Read

end Aex
