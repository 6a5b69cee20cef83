import Mathlib.Algebra.Order.BigOperators.Group.List
import Aex.Client.PoolDelivery
import Aex.Wire.ScatterGrants

/-!
# The slices of a transfer

The threads of a transfer claim the range of each chunk they ask for and drop it once
they are done with it.  The chunks of a part are not empty and follow one another, so
that the registry never meets what it gets wrong: no claim is ever refused, whatever
the peers send, and no two fetches under way share a byte.
-/

namespace Aex

open Lts Tiling

variable {n : Nat}

namespace Range

/-- Whether a byte is in a range. -/
def has (p : Nat) (r : Range) : Bool := decide (r.start ≤ p) && decide (p < r.stop)

@[simp] theorem has_eq_true {p : Nat} {r : Range} : r.has p = true ↔ r.start ≤ p ∧ p < r.stop := by
  simp [has]

/-- Ranges none of which has a byte of another. -/
theorem pairwise_disjoint {ranges : List Range} (h : ∀ p, ranges.countP (has p) ≤ 1) :
    ranges.Pairwise fun a b => Disjoint a.bytes b.bytes := by
  induction ranges with
  | nil => exact .nil
  | cons r ranges ih =>
      refine List.pairwise_cons.mpr ⟨fun a ha => ?_, ih fun p => ?_⟩
      · rw [Set.disjoint_left]
        intro p hr hpa
        have hone := h p
        rw [List.countP_cons_of_pos (has_eq_true.mpr hr)] at hone
        have := List.countP_pos_iff.mpr ⟨a, ha, has_eq_true.mpr hpa⟩
        omega
      · have hone := h p
        rw [List.countP_cons] at hone
        omega

end Range

/-! ## What threads hold -/

def Chunk.range (c : Chunk n) : Range := ⟨c.offset, c.offset + c.len⟩

/-- The ranges of part `k` that a thread has fetches under way for. -/
def Worker.ranges (k : Fin n) (w : Worker n) : List Range :=
  (w.flight.filter fun x => x.chunk.part = k).map fun x => x.chunk.range

/-- The ranges of part `k` under way. -/
def Transfer.ranges (k : Fin n) (t : Transfer n) : List Range :=
  t.workers.flatMap (Worker.ranges k)

/-- The fetches under way, as far as the registries go. -/
def Worker.holdings (w : Worker n) : List (Chunk n × ScatterSlice) :=
  w.flight.map fun x => (x.chunk, x.slice)

theorem Worker.mem_chunks_of_flight {w : Worker n} {x : InFlight n} (hx : x ∈ w.flight) :
    x.chunk ∈ w.chunks :=
  List.mem_append_right _ (List.mem_append_right _ (List.mem_map_of_mem hx))

theorem Worker.ranges_eq (k : Fin n) (w : Worker n) :
    w.ranges k = (w.holdings.filter fun held => held.1.part = k).map fun held => held.1.range := by
  rw [holdings, List.filter_map, List.map_map]
  rfl

theorem covers_eq_has {k : Fin n} {p : Nat} {c : Chunk n} :
    covers k p c.key = (decide (c.part = k) && c.range.has p) := by
  rw [Bool.eq_iff_iff, covers_key]
  simp [Chunk.range]

theorem Worker.countP_ranges (k : Fin n) (p : Nat) (w : Worker n) :
    (w.ranges k).countP (Range.has p) = Chunk.count (covers k p) (w.flight.map InFlight.chunk) := by
  rw [ranges, List.countP_map, List.countP_filter, Chunk.count, List.countP_map]
  congr 1
  funext x
  simp only [Function.comp_apply, covers_eq_has]
  exact Bool.and_comm _ _

namespace Acts

variable {settings : Settings} {sh sh' : Shared n} {w w' : Worker n} {event : Event}

/-- What a step does to the registries: nothing, a claim for the chunk asked for next, or
the drop of one slice. -/
inductive Registers (sh : Shared n) (w : Worker n) (sh' : Shared n) (w' : Worker n) : Prop
  | same (hscatter : ∀ k : Fin n, (sh'.parts.get k).scatter = (sh.parts.get k).scatter)
      (hheld : w'.holdings = w.holdings)
  | claim (chunk : Chunk n) (fresh : List (Chunk n)) (slice : ScatterSlice) (scatter : ScatterBuffer)
      (hpc : w.pc = .asking (chunk :: fresh))
      (hclaim : (sh.parts.get chunk.part).scatter.claim chunk.offset chunk.len = .ok (slice, scatter))
      (hscatter : ∀ k : Fin n, (sh'.parts.get k).scatter =
        if chunk.part = k then scatter else (sh.parts.get k).scatter)
      (hheld : w'.holdings = w.holdings ++ [(chunk, slice)])
  | drop (x : InFlight n)
      (hscatter : ∀ k : Fin n, (sh'.parts.get k).scatter =
        if x.chunk.part = k then (sh.parts.get k).scatter.release x.slice else (sh.parts.get k).scatter)
      (hheld : w.holdings.Perm ((x.chunk, x.slice) :: w'.holdings))

theorem registers (h : Acts settings sh w event sh' w') : Registers sh w sh' w' := by
  have hmodify : ∀ (sh : Shared n) (k j : Fin n) (scatter : ScatterBuffer),
      ((sh.modifyPart k fun part => { part with scatter }).parts.get j).scatter =
        if k = j then scatter else (sh.parts.get j).scatter := by
    intro sh k j scatter
    rw [Shared.modifyPart_getElem]
    split <;> rfl
  have hrelease : ∀ (sh : Shared n) (x : InFlight n) (j : Fin n),
      ((sh.release x).parts.get j).scatter =
        if x.chunk.part = j then (sh.parts.get j).scatter.release x.slice
        else (sh.parts.get j).scatter := by
    intro sh x j
    rw [Shared.release, Shared.modifyPart_getElem]
    split
    · rename_i hpart
      subst hpart
      rfl
    · rfl
  have hwrite : ∀ (x : InFlight n) (bytes : List UInt8) (j : Fin n),
      ((sh.write x bytes).parts.get j).scatter = (sh.parts.get j).scatter := by
    intro x bytes j
    rw [Shared.write, Shared.modifyPart_getElem]
    split
    · rename_i hpart
      subst hpart
      rfl
    · rfl
  have hasked : ∀ (x : InFlight n) (pc : Pc n) (held : Option DataConn),
      Worker.holdings { w with flight := w.flight ++ [x], pc := pc, held := held } =
        w.holdings ++ [(x.chunk, x.slice)] := fun x pc held => List.map_append
  cases h with
  | @sent chunk fresh hpc conn hheld slice scatter hclaim =>
      exact .claim chunk fresh slice scatter hpc hclaim (fun j => hmodify sh _ j scatter)
        (hasked ⟨chunk, slice, 0, []⟩ _ _)
  | @notSent chunk fresh hpc failure slice scatter hclaim =>
      exact .claim chunk fresh slice scatter hpc hclaim (fun j => hmodify sh _ j scatter)
        (hasked ⟨chunk, slice, 0, []⟩ _ _)
  | dataBroken => exact .same (hwrite _ _) rfl
  | @accepted hpc conn hheld front front' rest hflight header payload bytes htype hformed hdata
      hfront sh' w' hnext =>
      rcases hnext with ⟨-, rfl, rfl⟩ | ⟨-, rfl, rfl⟩
      · refine .drop front' (fun j => ?_) ?_
        · rw [hrelease]
          exact if_congr Iff.rfl (congrArg (fun b => ScatterBuffer.release b front'.slice)
            (hwrite front bytes j)) (hwrite front bytes j)
        · rw [Worker.holdings, hflight, hfront]
          exact .refl _
      · refine .same (hwrite front bytes) ?_
        rw [Worker.holdings, Worker.holdings, hflight, hfront]
        rfl
  | @refused hpc conn hheld front rest hflight header payload htype hid w' hnext =>
      have hpop : ∀ w' : Worker n, w'.flight = rest →
          w.holdings.Perm ((front.chunk, front.slice) :: w'.holdings) := by
        intro w' hrest
        rw [Worker.holdings, Worker.holdings, hflight, hrest]
        exact .refl _
      rcases hnext with ⟨message, rfl⟩ | ⟨chunk, -, rfl⟩ | ⟨error, rfl⟩
      · exact .drop front (hrelease sh front) (hpop _ rfl)
      · exact .drop front (hrelease sh front) (hpop _ rfl)
      · exact .drop front (hrelease sh front) (hpop _ rfl)
  | @drains e exhausted hpc older newest hflight w' hnext =>
      have hpop : ∀ w' : Worker n, w'.flight = older →
          w.holdings.Perm ((newest.chunk, newest.slice) :: w'.holdings) := by
        intro w' holder
        rw [Worker.holdings, Worker.holdings, hflight, holder, List.map_append]
        exact List.perm_append_singleton _ _
      rcases hnext with ⟨chunk, -, rfl⟩ | ⟨-, rfl⟩
      · exact .drop newest (hrelease sh newest) (hpop _ rfl)
      · exact .drop newest (hrelease sh newest) (hpop _ rfl)
  | @clears e panicked hpc oldest rest hflight =>
      refine .drop oldest (hrelease sh oldest) ?_
      rw [Worker.holdings, hflight]
      exact .refl _
  | _ => exact .same (fun _ => rfl) rfl

end Acts

/-! ## Every interleaving -/

namespace Transfer

variable {settings : Settings} {pool : DataPool} {parts : Vector FetchPart n} {t : Transfer n}

/-- The registries hold the ranges of the fetches under way and nothing else. -/
structure Registered (parts : Vector FetchPart n) (t : Transfer n) : Prop where
  length : ∀ k : Fin n, (t.shared.parts.get k).scatter.len = (parts.get k).dst.length
  slices : ∀ w ∈ t.workers, ∀ x ∈ w.flight, x.slice = ⟨x.chunk.offset, x.chunk.len⟩
  exact : ∀ k : Fin n, (t.shared.parts.get k).scatter.claimed.Perm (t.ranges k)

/-- The chunks of every part follow one another and fill its buffer. -/
def Cut (parts : Vector FetchPart n) : Prop :=
  ∀ k : Fin n, Tiles 0 (parts.get k).chunks (parts.get k).dst.length

theorem countP_flatMap_ranges_le (workers : List (Worker n)) (k : Fin n) (p : Nat) :
    (workers.flatMap (Worker.ranges k)).countP (Range.has p) ≤
      (workers.map (Worker.tally (covers k p))).sum := by
  rw [List.countP_flatMap]
  refine List.sum_le_sum fun w _ => ?_
  rw [Function.comp_apply, Worker.countP_ranges, Worker.tally_eq]
  omega

namespace Conserved

variable (h : t.Conserved parts) (hcut : Cut parts)
include h hcut

/-- A byte is asked for once at a time. -/
theorem tally_le_one (k : Fin n) (p : Nat) :
    (t.workers.map (Worker.tally (covers k p))).sum ≤ 1 := by
  have htally := h.tally (covers k p)
  rw [count_covers, (hcut k).partitions.once p] at htally
  split at htally <;> omega

theorem countP_ranges_le (k : Fin n) (p : Nat) : (t.ranges k).countP (Range.has p) ≤ 1 :=
  (countP_flatMap_ranges_le t.workers k p).trans (h.tally_le_one hcut k p)

/-- What a thread is about to ask for is not under way. -/
theorem apart_of_fresh {w : Worker n} (hw : w ∈ t.workers) {chunk : Chunk n} {fresh : List (Chunk n)}
    (hpc : w.pc = .asking (chunk :: fresh)) {p : Nat} (hp : chunk.range.has p = true) :
    (t.ranges chunk.part).countP (Range.has p) = 0 := by
  obtain ⟨i, hi⟩ := List.getElem?_of_mem hw
  have hperm := Threads.perm_of_getElem? hi
  have hone := h.tally_le_one hcut chunk.part p
  rw [(hperm.map _).sum_eq, List.map_cons, List.sum_cons, Worker.tally_eq, hpc] at hone
  dsimp only [Pc.fresh] at hone
  have hfresh : 1 ≤ Chunk.count (covers chunk.part p) (chunk :: fresh) := by
    refine List.countP_pos_iff.mpr ⟨chunk, List.mem_cons_self, ?_⟩
    rw [covers_eq_has, hp, Bool.and_true]
    exact decide_eq_true rfl
  have hothers := countP_flatMap_ranges_le (t.workers.eraseIdx i) chunk.part p
  rw [ranges, (hperm.flatMap_right _).countP_eq, List.flatMap_cons, List.countP_append,
    Worker.countP_ranges]
  omega

omit hcut in
/-- A chunk with a thread is one of the batch. -/
theorem mem_of_mem_chunks {w : Worker n} (hw : w ∈ t.workers) {chunk : Chunk n}
    (hchunk : chunk ∈ w.chunks) : (chunk.offset, chunk.len) ∈ (parts.get chunk.part).chunks := by
  obtain ⟨i, hi⟩ := List.getElem?_of_mem hw
  have hone : 1 ≤ w.tally (· == chunk.key) :=
    List.countP_pos_iff.mpr ⟨chunk, List.mem_append_left _ hchunk, beq_self_eq_true _⟩
  have htally := h.tally (· == chunk.key)
  have hle := Threads.le_sum hi (Worker.tally (· == chunk.key))
  have hpos : 0 < Chunk.count (· == chunk.key) (chunksOf parts) := by omega
  obtain ⟨c, hc, hkey⟩ := List.countP_pos_iff.mp hpos
  obtain ⟨k, -, hc⟩ := List.mem_flatMap.mp hc
  obtain ⟨range, hrange, rfl⟩ := List.mem_map.mp hc
  simp only [Chunk.key, beq_iff_eq, Prod.mk.injEq] at hkey
  obtain ⟨rfl, hoffset, hlen⟩ := hkey
  rwa [← hoffset, ← hlen]

/-- A chunk with a thread lies in its part, and is not empty. -/
theorem bounds_of_mem_chunks {w : Worker n} (hw : w ∈ t.workers) {chunk : Chunk n}
    (hchunk : chunk ∈ w.chunks) :
    0 < chunk.len ∧ chunk.offset + chunk.len ≤ (parts.get chunk.part).dst.length :=
  ((hcut chunk.part).bounds (h.mem_of_mem_chunks hw hchunk)).2

/-- The fetches under way that have a byte in common are one. -/
theorem range_eq {k : Fin n} {r r' : Range} (hr : r ∈ t.ranges k) (hr' : r' ∈ t.ranges k) {p : Nat}
    (hp : r.has p = true) (hp' : r'.has p = true) : r = r' :=
  Vec.eq_of_countP_le_one (h.countP_ranges_le hcut k p) hr hr' hp hp'

end Conserved

theorem mem_ranges {k : Fin n} {r : Range} :
    r ∈ t.ranges k ↔ ∃ w ∈ t.workers, ∃ x ∈ w.flight, x.chunk.part = k ∧ x.chunk.range = r := by
  simp only [ranges, Worker.ranges, List.mem_flatMap, List.mem_map, List.mem_filter,
    decide_eq_true_eq, and_assoc]

theorem Registered.of_start : (start pool parts).Registered parts := by
  have hflight : ∀ w ∈ (start pool parts).workers, w.flight = [] := by
    intro w hw
    obtain ⟨held, -, rfl⟩ := List.mem_map.mp hw
    rfl
  refine ⟨fun k => ?_, fun w hw x hx => ?_, fun k => ?_⟩
  · simp [start, FetchPart.split, ScatterBuffer.new]
  · rw [hflight w hw] at hx
    cases hx
  · have hnone : (start pool parts).ranges k = [] := by
      rw [List.eq_nil_iff_forall_not_mem]
      intro r hr
      obtain ⟨w, hw, x, hx, -⟩ := mem_ranges.mp hr
      rw [hflight w hw] at hx
      cases hx
    rw [hnone]
    simp [start, FetchPart.split, ScatterBuffer.new]

section Step

variable {i : Nat} {w w' : Worker n} {event : Event} {sh' : Shared n}

/-- The ranges of the thread that moves, and of the others. -/
theorem ranges_perm (hw : t.workers[i]? = some w) (k : Fin n) :
    (t.ranges k).Perm (w.ranges k ++ (t.workers.eraseIdx i).flatMap (Worker.ranges k)) :=
  (Threads.perm_of_getElem? hw).flatMap_right _

theorem ranges_set_perm (hw : t.workers[i]? = some w) (w' : Worker n) (sh' : Shared n) (k : Fin n) :
    (Transfer.ranges k ⟨sh', t.workers.set i w'⟩).Perm
      (w'.ranges k ++ (t.workers.eraseIdx i).flatMap (Worker.ranges k)) :=
  (Threads.set_perm hw w').flatMap_right _

theorem Registered.notify (h : t.Registered parts) (hw : t.workers[i]? = some w) :
    Registered parts { t with
      workers := (t.workers.map Worker.notified).set i { w with owes := false } } := by
  have hflight : ∀ z : Worker n, z.notified.flight = z.flight := by
    intro z
    rcases notified_cases z with hsame | ⟨-, hsame⟩
    · rw [hsame]
    · rw [hsame]
  have hmem : ∀ z ∈ (t.workers.map Worker.notified).set i { w with owes := false },
      ∃ z' ∈ t.workers, z.flight = z'.flight := by
    intro z hz
    rcases List.mem_or_eq_of_mem_set hz with hz | rfl
    · obtain ⟨z', hz', rfl⟩ := List.mem_map.mp hz
      exact ⟨z', hz', hflight z'⟩
    · exact ⟨w, List.mem_of_getElem? hw, rfl⟩
  refine ⟨h.length, fun z hz x hx => ?_, fun k => ?_⟩
  · obtain ⟨z', hz', heq⟩ := hmem z hz
    rw [heq] at hx
    exact h.slices z' hz' x hx
  · refine (h.exact k).trans ?_
    have hw' : (t.workers.map Worker.notified)[i]? = some w.notified := by simp [hw]
    have hranges : ∀ z : Worker n, z.notified.ranges k = z.ranges k := by
      intro z
      rw [Worker.ranges, Worker.ranges, hflight]
    have hset := (Threads.set_perm hw' { w with owes := false }).flatMap_right (Worker.ranges k)
    have hall := (Threads.perm_of_getElem? hw').flatMap_right (Worker.ranges k)
    rw [List.flatMap_map, List.flatMap_cons, hranges] at hall
    simp only [hranges] at hall
    exact hall.trans hset.symm

/-- A drop takes out the range of its own slice. -/
theorem released_eq (h : t.Registered parts) (hconserved : t.Conserved parts) (hcut : Cut parts)
    (hw : w ∈ t.workers) {x : InFlight n} (hx : x ∈ w.flight) :
    (t.shared.parts.get x.chunk.part).scatter.released x.slice = some x.chunk.range := by
  have hslice := h.slices w hw x hx
  have hnonempty : ∀ r ∈ t.ranges x.chunk.part, r.has r.start = true := by
    intro r hr
    obtain ⟨z, hz, y, hy, -, rfl⟩ := mem_ranges.mp hr
    have hpos := (hconserved.bounds_of_mem_chunks hcut hz (Worker.mem_chunks_of_flight hy)).1
    simp [Chunk.range, hpos]
  have hmem : x.chunk.range ∈ t.ranges x.chunk.part := mem_ranges.mpr ⟨w, hw, x, hx, rfl, rfl⟩
  unfold ScatterBuffer.released
  cases hfind : (t.shared.parts.get x.chunk.part).scatter.claimed.find?
      (fun held => held.start = x.slice.offset) with
  | none =>
      rw [List.find?_eq_none] at hfind
      have := hfind _ ((h.exact _).mem_iff.mpr hmem)
      rw [hslice] at this
      simp [Chunk.range] at this
  | some held =>
      have hheld := (h.exact _).mem_iff.mp (List.mem_of_find?_eq_some hfind)
      have hstart := List.find?_some hfind
      rw [hslice, decide_eq_true_eq] at hstart
      have hhas := hnonempty held hheld
      rw [hstart] at hhas
      rw [hconserved.range_eq hcut hheld hmem hhas (hnonempty _ hmem)]

theorem Registered.act (h : t.Registered parts) (hconserved : t.Conserved parts) (hcut : Cut parts)
    (hw : t.workers[i]? = some w) (hacts : Acts settings t.shared w event sh' w') :
    Registered parts ⟨sh', t.workers.set i w'⟩ := by
  have hmem := List.mem_of_getElem? hw
  have hbefore := ranges_perm hw
  have hafter := fun k => ranges_set_perm hw w' sh' k
  have hslices : (∀ held ∈ w'.holdings, held.2 = ⟨held.1.offset, held.1.len⟩) →
      ∀ z ∈ t.workers.set i w', ∀ x ∈ z.flight, x.slice = ⟨x.chunk.offset, x.chunk.len⟩ := fun hself =>
    Threads.forall_mem_set h.slices fun x hx => hself _ (List.mem_map_of_mem hx)
  have hheld : ∀ held ∈ w.holdings, held.2 = ⟨held.1.offset, held.1.len⟩ := by
    intro held hheld
    obtain ⟨x, hx, rfl⟩ := List.mem_map.mp hheld
    exact h.slices w hmem x hx
  cases hacts.registers with
  | same hscatter hsame =>
      refine ⟨fun k => ?_, hslices (hsame ▸ hheld), fun k => ?_⟩
      · rw [hscatter]
        exact h.length k
      · have hranges : w'.ranges k = w.ranges k := by
          rw [Worker.ranges_eq, Worker.ranges_eq, hsame]
        have hk := hafter k
        rw [hranges] at hk
        rw [hscatter]
        exact ((h.exact k).trans (hbefore k)).trans hk.symm
  | claim chunk fresh slice scatter hpc hclaim hscatter hmore =>
      obtain ⟨rfl, rfl, -, -⟩ := ScatterBuffer.claim_spec hclaim
      refine ⟨fun k => ?_, hslices ?_, fun k => ?_⟩
      · rw [hscatter]
        split
        · rename_i hpart
          subst hpart
          exact h.length _
        · exact h.length k
      · intro held hnew
        rw [hmore] at hnew
        rcases List.mem_append.mp hnew with hold | hnew
        · exact hheld held hold
        · rw [List.mem_singleton.mp hnew]
      · have hk := hafter k
        rw [Worker.ranges_eq, hmore, List.filter_append, List.map_append, ← Worker.ranges_eq] at hk
        refine List.Perm.trans ?_ hk.symm
        rw [hscatter]
        by_cases hpart : chunk.part = k
        · subst hpart
          rw [if_pos rfl, List.filter_singleton]
          simp only [decide_true, Bool.cond_true, List.map_singleton]
          refine ((h.exact _).append_right _).trans (((hbefore _).append_right _).trans ?_)
          rw [List.append_assoc, List.append_assoc]
          exact List.perm_append_comm.append_left _
        · rw [if_neg hpart, List.filter_singleton]
          simp only [hpart, decide_false, Bool.cond_false, List.map_nil, List.append_nil]
          exact (h.exact k).trans (hbefore k)
  | drop x hscatter hless =>
      have hin : (x.chunk, x.slice) ∈ w.holdings := hless.mem_iff.mpr List.mem_cons_self
      obtain ⟨y, hy, heq⟩ := List.mem_map.mp hin
      obtain ⟨hchunk, hslice⟩ := Prod.mk.inj heq
      have hown := released_eq h hconserved hcut hmem hy
      rw [hchunk, hslice] at hown
      refine ⟨fun k => ?_, hslices ?_, fun k => ?_⟩
      · rw [hscatter]
        split
        · rw [ScatterBuffer.release_len]
          exact h.length k
        · exact h.length k
      · exact fun held hrest => hheld held (hless.mem_iff.mpr (List.mem_cons_of_mem _ hrest))
      · have hk := hafter k
        rw [hscatter]
        have hmine := ((hless.filter fun held => held.1.part = k).map fun held => held.1.range)
        rw [← Worker.ranges_eq] at hmine
        by_cases hpart : x.chunk.part = k
        · subst hpart
          rw [List.filter_cons_of_pos (by simp), List.map_cons, ← Worker.ranges_eq] at hmine
          rw [if_pos rfl]
          have hperm := (t.shared.parts.get x.chunk.part).scatter.release_perm x.slice
          rw [hown] at hperm
          refine (List.Perm.cons_inv (a := x.chunk.range) ?_).trans hk.symm
          exact hperm.2.2.trans ((h.exact _).trans ((hbefore _).trans (hmine.append_right _)))
        · rw [List.filter_cons_of_neg (by simpa using hpart), ← Worker.ranges_eq] at hmine
          rw [if_neg hpart]
          exact (h.exact k).trans ((hbefore k).trans ((hmine.append_right _).trans hk.symm))

end Step

theorem registered (hcut : Cut parts) (h : (system settings pool parts).Reachable t) :
    t.Registered parts := by
  refine (System.Inductive.holds (I := fun t => t.Conserved parts ∧ t.Registered parts)
    (P := fun _ _ => True) ⟨?_, ?_⟩ h).2
  · intro s hs
    rw [show s = start pool parts from hs]
    exact ⟨conserved_start, .of_start⟩
  · intro s s' label hs _ hstep
    obtain ⟨i, event⟩ := label
    obtain ⟨w, hw, hcases⟩ := step_cases hstep
    rcases hcases with ⟨howes, -, rfl⟩ | ⟨sh', w', howes, hacts, rfl⟩
    · exact ⟨conserved_notify hs.1 hw howes, hs.2.notify hw⟩
    · exact ⟨conserved_act hs.1 hw howes hacts, hs.2.act hs.1 hcut hw hacts⟩

/-- Of a thread that has a chunk to ask for, the claim is granted. -/
theorem Registered.granted (h : t.Registered parts) (hconserved : t.Conserved parts)
    (hcut : Cut parts) (hsize : ∀ k : Fin n, (parts.get k).dst.length < Word.size 64)
    {w : Worker n} (hw : w ∈ t.workers) {chunk : Chunk n} {fresh : List (Chunk n)}
    (hpc : w.pc = .asking (chunk :: fresh)) :
    ∃ r, (t.shared.parts.get chunk.part).scatter.claim chunk.offset chunk.len = .ok r := by
  have hchunk : chunk ∈ w.chunks := by simp [Worker.chunks, hpc, Pc.fresh]
  have hbounds := hconserved.bounds_of_mem_chunks hcut hw hchunk
  rw [ScatterBuffer.claim_isOk_iff (by rw [h.length]; exact hsize _), h.length]
  refine ⟨hbounds.2, fun _ held hheld hstart => ?_⟩
  by_contra hmeets
  have hin := (h.exact _).mem_iff.mp hheld
  obtain ⟨z, hz, y, hy, -, rfl⟩ := mem_ranges.mp hin
  have hpos := (hconserved.bounds_of_mem_chunks hcut hz (Worker.mem_chunks_of_flight hy)).1
  -- The first byte of whichever of the two begins later is in both.
  obtain ⟨p, hp, hp'⟩ : ∃ p, chunk.range.has p = true ∧ y.chunk.range.has p = true := by
    simp only [Chunk.range] at hstart hmeets
    refine ⟨max chunk.offset y.chunk.offset, ?_⟩
    simp only [Chunk.range, Range.has_eq_true]
    omega
  have hzero := hconserved.apart_of_fresh hcut hw hpc hp
  exact List.countP_eq_zero.mp hzero _ hin hp'

/-- In every run, whatever the peers send and however connections break: no claim of a
thread is refused, and the slices of the fetches under way lie in their buffers and
have no byte in common. -/
theorem claims_granted (settings : Settings) (pool : DataPool) (parts : Vector FetchPart n)
    (hcut : Cut parts) (hsize : ∀ k : Fin n, (parts.get k).dst.length < Word.size 64)
    (h : (system settings pool parts).Reachable t) :
    (∀ w ∈ t.workers, ∀ chunk fresh, w.pc = .asking (chunk :: fresh) →
      ∃ r, (t.shared.parts.get chunk.part).scatter.claim chunk.offset chunk.len = .ok r) ∧
    (∀ w ∈ t.workers, ∀ x ∈ w.flight, x.slice.range = x.chunk.range ∧
      x.slice.offset + x.slice.len ≤ (parts.get x.chunk.part).dst.length) ∧
    ∀ k, (t.ranges k).Pairwise fun a b => Disjoint a.bytes b.bytes := by
  have hconserved := conserved h
  have hregistered := registered hcut h
  refine ⟨fun w hw chunk fresh hpc => hregistered.granted hconserved hcut hsize hw hpc,
    fun w hw x hx => ?_, fun k => Range.pairwise_disjoint (hconserved.countP_ranges_le hcut k)⟩
  rw [hregistered.slices w hw x hx]
  exact ⟨rfl, (hconserved.bounds_of_mem_chunks hcut hw (Worker.mem_chunks_of_flight hx)).2⟩

/-- A thread that is about to ask for its first chunk. -/
theorem claims_granted_first : ∃ t : Transfer 1, (∃ w ∈ t.workers, w.pc = .asking [⟨0, 0, 4, 0⟩]) ∧
    ∃ r, (t.shared.parts.get 0).scatter.claim 0 4 = .ok r := by
  have hrun : ([(0, .proceed), (0, .proceed)].foldlM (step rawSettings) (start onePool fourBytes)).map
      Transfer.workers = some [⟨.asking [⟨0, 0, 4, 0⟩], some ⟨[]⟩, [], false, []⟩] := by decide
  obtain ⟨t, ht, hworkers⟩ := Option.map_eq_some_iff.mp hrun
  have hmem : (⟨.asking [⟨0, 0, 4, 0⟩], some ⟨[]⟩, [], false, []⟩ : Worker 1) ∈ t.workers := by
    rw [hworkers]
    exact List.mem_singleton_self _
  have hcut : Cut fourBytes := by
    intro k
    obtain rfl := Subsingleton.elim k 0
    exact ⟨rfl, by decide, rfl⟩
  have hgranted := claims_granted rawSettings onePool fourBytes hcut (by decide)
    (System.reachable_of_run _ ht)
  exact ⟨t, ⟨_, hmem, rfl⟩, hgranted.1 _ hmem _ _ rfl⟩

end Transfer

end Aex
