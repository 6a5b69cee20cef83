import Aex.Core.Backends.CacheRuns

/-!
# A cache cannot be seen

Whatever the threads of a cache do, each read returns what it would without one.  A
buffer is either shared, and then its bytes are those of one chunk and stay, or it is
in one pair of hands.
-/

namespace Aex

open Lts

namespace SharedCache

/-- Buffers in one pair of hands: kept for a later decode, or lent to one. -/
def State.exclusive (s : State) : List Buffer := s.shelf.spare ++ s.threads.filterMap Pc.lent

/-- A buffer that the cache or a thread has a handle of, as the chunk at `key`. -/
def Shared (s : State) (b : Buffer) (key : ChunkKey) : Prop :=
  (key, b) ∈ s.shelf.entries ∨
    ∃ pc ∈ s.threads, ∃ call, pc.reads = some (call, b) ∧ call.key = key

/-- Every buffer is in one pair of hands, or holds the chunk it is shared as. -/
structure Sound (content : ChunkKey → List UInt8) (s : State) : Prop where
  alone : s.exclusive.Nodup
  inside : ∀ b ∈ s.exclusive, b < s.heap.length
  shared : ∀ b key, Shared s b key → s.heap[b]? = some (content key) ∧ b ∉ s.exclusive

/-- What a thread has copied or returned is right. -/
def Pc.Right (content : ChunkKey → List UInt8) : Pc → Prop
  | .copying call _ out => out.length ≤ call.len ∧
      out = Vec.slice (content call.key) call.start out.length ∧
      (out ≠ [] → call.start + call.len ≤ (content call.key).length)
  | .returned call out => call.start + call.len ≤ (content call.key).length ∧
      out = Vec.slice (content call.key) call.start call.len
  | .panicked call => (content call.key).length < call.start + call.len
  | _ => True

/-- The bytes of the chunks on a shelf. -/
def total (content : ChunkKey → List UInt8) (entries : List (ChunkKey × Buffer)) : Nat :=
  (entries.map fun entry => (content entry.1).length).sum

structure Inv (content : ChunkKey → List UInt8) (s : State) : Prop where
  sound : Sound content s
  counted : s.shelf.bytes = total content s.shelf.entries
  right : ∀ pc ∈ s.threads, pc.Right content
  failed : ∀ i call e, s.threads[i]? = some (.failed call e) → (i, e) ∈ s.failures

variable {content : ChunkKey → List UInt8} {s t : State} {capacity i : Nat} {pc pc' : Pc}
  {b : Buffer} {key : ChunkKey} {call : Call}

/-! ## Buffers -/

theorem Shared.of_reads (hpc : pc ∈ s.threads) (h : pc.reads = some (call, b)) :
    Shared s b call.key := Or.inr ⟨pc, hpc, call, h, rfl⟩

/-- The buffers in one pair of hands, with a thread's own told apart. -/
theorem State.exclusive_perm (hpc : s.threads[i]? = some pc) : s.exclusive.Perm
    (s.shelf.spare ++ pc.lent.toList ++ (s.threads.eraseIdx i).filterMap Pc.lent) := by
  rw [List.append_assoc, State.exclusive]
  apply List.Perm.append_left
  refine ((Threads.perm_of_getElem? hpc).filterMap Pc.lent).trans ?_
  rw [List.filterMap_cons]
  cases pc.lent with
  | none => exact .refl _
  | some b => exact .refl _

/-- Who shares a buffer once a thread has moved. -/
theorem shared_goTo (hthreads : t.threads = s.threads) (h : Shared (t.goTo i pc') b key) :
    (key, b) ∈ t.shelf.entries ∨ (∃ call, pc'.reads = some (call, b) ∧ call.key = key) ∨
      ∃ pc ∈ s.threads, ∃ call, pc.reads = some (call, b) ∧ call.key = key := by
  rcases h with h | ⟨pc, hpc, call, hreads, hkey⟩
  · exact Or.inl h
  · have hpc : pc ∈ s.threads.set i pc' := hthreads ▸ hpc
    rcases List.mem_or_eq_of_mem_set hpc with hpc | rfl
    · exact Or.inr (Or.inr ⟨pc, hpc, call, hreads, hkey⟩)
    · exact Or.inr (Or.inl ⟨call, hreads, hkey⟩)

/-- A move that leaves each buffer it takes in one pair of hands, and each chunk it
shares in place. -/
theorem Sound.goTo (h : Sound content s) (hpc : s.threads[i]? = some pc)
    (hthreads : t.threads = s.threads) (hheap : s.heap.length ≤ t.heap.length)
    (hnodup : (t.shelf.spare ++ pc'.lent.toList).Nodup)
    (hfrom : ∀ b ∈ t.shelf.spare ++ pc'.lent.toList, b < t.heap.length ∧
      (b ∈ s.shelf.spare ++ pc.lent.toList ∨ b ∉ s.exclusive))
    (hshared : ∀ b key, Shared (t.goTo i pc') b key → t.heap[b]? = some (content key) ∧
      b ∉ t.shelf.spare ++ pc'.lent.toList ∧
      (Shared s b key ∨ b ∈ s.shelf.spare ++ pc.lent.toList ∨ s.heap.length ≤ b)) :
    Sound content (t.goTo i pc') := by
  have hold := State.exclusive_perm hpc
  have hset : (t.goTo i pc').threads[i]? = some pc' := by
    rw [State.goTo, hthreads]
    exact List.getElem?_set_self (List.getElem?_eq_some_iff.mp hpc).1
  -- The buffers lent to the other threads stay with them.
  have hnew : (t.goTo i pc').exclusive.Perm
      (t.shelf.spare ++ pc'.lent.toList ++ (s.threads.eraseIdx i).filterMap Pc.lent) := by
    have hperm := State.exclusive_perm hset
    have hthreads : (t.goTo i pc').threads.eraseIdx i = s.threads.eraseIdx i := by
      rw [State.goTo, hthreads, List.eraseIdx_set_eq]
    rw [hthreads] at hperm
    exact hperm
  have halone := hold.nodup_iff.mp h.alone
  rw [List.nodup_append] at halone
  have hothers : ∀ b ∈ (s.threads.eraseIdx i).filterMap Pc.lent, b ∈ s.exclusive := fun b hb =>
    hold.mem_iff.mpr (List.mem_append_right _ hb)
  constructor
  · rw [hnew.nodup_iff, List.nodup_append]
    refine ⟨hnodup, halone.2.1, fun b hb b' hb' heq => ?_⟩
    subst heq
    rcases (hfrom b hb).2 with hmine | hfresh
    · exact halone.2.2 b hmine b hb' rfl
    · exact hfresh (hothers b hb')
  · intro b hb
    rcases List.mem_append.mp (hnew.mem_iff.mp hb) with hb | hb
    · exact (hfrom b hb).1
    · exact (h.inside b (hothers b hb)).trans_le hheap
  · intro b key hb
    obtain ⟨hcontent, hout, hwhere⟩ := hshared b key hb
    refine ⟨hcontent, fun hmem => ?_⟩
    rcases List.mem_append.mp (hnew.mem_iff.mp hmem) with hmem | hmem
    · exact hout hmem
    · rcases hwhere with hshared | hmine | hfresh
      · exact (h.shared b key hshared).2 (hothers b hmem)
      · exact halone.2.2 b hmine b hmem rfl
      · exact absurd (h.inside b (hothers b hmem)) (Nat.not_lt.mpr hfresh)

/-- A move that takes no buffer, and shares none that was not. -/
theorem Sound.calm (h : Sound content s) (hpc : s.threads[i]? = some pc)
    (hthreads : t.threads = s.threads) (hheap : t.heap = s.heap)
    (hspare : t.shelf.spare = s.shelf.spare)
    (hentries : ∀ entry ∈ t.shelf.entries, entry ∈ s.shelf.entries) (hlent : pc'.lent = none)
    (hreads : ∀ call b, pc'.reads = some (call, b) → Shared s b call.key) :
    Sound content (t.goTo i pc') := by
  have hspare' : t.shelf.spare ++ pc'.lent.toList = s.shelf.spare := by
    rw [hspare, hlent, Option.toList_none, List.append_nil]
  have hkept : ∀ b ∈ s.shelf.spare, b ∈ s.exclusive := fun b hb => List.mem_append_left _ hb
  refine h.goTo hpc hthreads (congrArg List.length hheap).ge ?_ ?_ ?_
  · rw [hspare']
    exact (List.nodup_append.mp h.alone).1
  · rw [hspare', hheap]
    exact fun b hb => ⟨h.inside b (hkept b hb), Or.inl (List.mem_append_left _ hb)⟩
  · intro b key hb
    have hold : Shared s b key := by
      rcases shared_goTo hthreads hb with hb | ⟨call, hcall, rfl⟩ | hb
      · exact Or.inl (hentries _ hb)
      · exact hreads call b hcall
      · exact Or.inr hb
    rw [hspare', hheap]
    exact ⟨(h.shared b key hold).1, fun hmem => (h.shared b key hold).2 (hkept b hmem), Or.inl hold⟩


/-! ## Operations of a shelf -/

/-- A hit is the entry of its key, and only moves it. -/
theorem get_spec {shelf found : Shelf} (h : shelf.get key = some (b, found)) :
    (key, b) ∈ shelf.entries ∧ found.entries.Perm shelf.entries ∧ found.bytes = shelf.bytes ∧
      found.spare = shelf.spare := by
  simp only [Shelf.get, Option.bind_eq_bind, Option.bind_eq_some_iff] at h
  obtain ⟨i, hi, entry, hentry, h⟩ := h
  cases h
  obtain ⟨hlt, hkey, -⟩ := List.findIdx?_eq_some_iff_getElem.mp hi
  obtain rfl := Option.some.inj ((List.getElem?_eq_getElem hlt).symm.trans hentry)
  refine ⟨?_, ?_, rfl, rfl⟩
  · rw [← of_decide_eq_true hkey]
    exact List.getElem_mem hlt
  · exact (List.perm_append_singleton _ _).trans (List.getElem_cons_eraseIdx_perm hlt)

/-- Eviction stops in time, and keeps buffers of which nobody has a handle any more. -/
theorem evict_spec {size : Buffer → Nat} {held : Buffer → Bool}
    {entries : List (ChunkKey × Buffer)} {spare : List Buffer}
    (hsize : ∀ entry ∈ entries, size entry.2 = (content entry.1).length) :
    ∃ shelf more, Shelf.evict capacity size held entries (total content entries) spare = some shelf ∧
      shelf.bytes = total content shelf.entries ∧ shelf.entries <:+ entries ∧
      shelf.spare = spare ++ more ∧ more.Nodup ∧
      ∀ b ∈ more, b ∈ entries.map Prod.snd ∧ held b = false ∧ b ∉ shelf.entries.map Prod.snd := by
  induction entries generalizing spare with
  | nil => exact ⟨⟨[], 0, spare⟩, [], by simp [Shelf.evict, total], rfl, List.suffix_rfl, by simp,
      List.nodup_nil, by simp⟩
  | cons entry entries ih =>
      rw [List.forall_mem_cons] at hsize
      unfold Shelf.evict
      by_cases hfits : total content (entry :: entries) ≤ capacity
      · exact ⟨_, [], if_pos hfits, rfl, List.suffix_rfl, by simp, List.nodup_nil, by simp⟩
      · rw [if_neg hfits]
        have hrest : total content (entry :: entries) - size entry.2 = total content entries := by
          simp [total, hsize.1]
        dsimp only
        rw [hrest]
        by_cases hkeep : spare.length < maxSpares ∧ !held entry.2 ∧ ∀ other ∈ entries, other.2 ≠ entry.2
        · rw [if_pos hkeep]
          obtain ⟨shelf, more, hevict, hcounted, hsuffix, hspare, hnodup, hmore⟩ :=
            @ih (spare ++ [entry.2]) hsize.2
          have hgone : entry.2 ∉ entries.map Prod.snd := fun hmem => by
            obtain ⟨other, hother, heq⟩ := List.mem_map.mp hmem
            exact hkeep.2.2 other hother heq
          refine ⟨shelf, entry.2 :: more, hevict, hcounted, hsuffix.trans (List.suffix_cons _ _), ?_,
            List.nodup_cons.mpr ⟨fun hmem => hgone (hmore _ hmem).1, hnodup⟩, fun b hb => ?_⟩
          · rw [hspare, List.append_assoc]
            rfl
          · rcases List.mem_cons.mp hb with rfl | hb
            · refine ⟨List.mem_cons_self, by simpa using hkeep.2.1, fun hmem => hgone ?_⟩
              exact List.map_subset Prod.snd hsuffix.subset hmem
            · exact ⟨List.mem_cons_of_mem _ (hmore b hb).1, (hmore b hb).2⟩
        · rw [if_neg hkeep]
          obtain ⟨shelf, more, hevict, hcounted, hsuffix, hspare, hnodup, hmore⟩ := @ih spare hsize.2
          exact ⟨shelf, more, hevict, hcounted, hsuffix.trans (List.suffix_cons _ _), hspare, hnodup,
            fun b hb => ⟨List.mem_cons_of_mem _ (hmore b hb).1, (hmore b hb).2⟩⟩

/-- What an insert leaves: it never runs out of entries to evict. -/
theorem insert_spec (h : Inv content s) (hchunk : s.heap[b]? = some (content key)) :
    ∃ t more, s.insert capacity key b = some t ∧ t.heap = s.heap ∧ t.threads = s.threads ∧
      t.failures = s.failures ∧ t.shelf.bytes = total content t.shelf.entries ∧
      (∀ entry ∈ t.shelf.entries, entry ∈ s.shelf.entries ∨ entry = (key, b)) ∧
      t.shelf.spare = s.shelf.spare ++ more ∧ more.Nodup ∧
      ∀ x ∈ more, x ∈ (s.shelf.entries ++ [(key, b)]).map Prod.snd ∧ s.held x = false ∧
        x ∉ t.shelf.entries.map Prod.snd := by
  unfold State.insert
  split
  · exact ⟨s, [], rfl, rfl, rfl, rfl, h.counted, fun _ => Or.inl, by simp, List.nodup_nil, by simp⟩
  split
  · exact ⟨_, [], rfl, rfl, rfl, rfl, h.counted, fun _ => Or.inl, by simp, List.nodup_nil, by simp⟩
  · have hsize : ∀ entry ∈ s.shelf.entries ++ [(key, b)], s.size entry.2 = (content entry.1).length := by
      intro entry hentry
      have hcontent : s.heap[entry.2]? = some (content entry.1) := by
        rcases List.mem_append.mp hentry with hentry | hentry
        · exact (h.sound.shared _ _ (Or.inl hentry)).1
        · obtain rfl := List.mem_singleton.mp hentry
          exact hchunk
      rw [State.size, List.getD_eq_getElem?_getD, hcontent, Option.getD_some]
    have htotal : s.shelf.bytes + s.size b = total content (s.shelf.entries ++ [(key, b)]) := by
      rw [h.counted, hsize (key, b) (List.mem_append_right _ (List.mem_singleton_self _)), total, total,
        List.map_append, List.sum_append]
      rfl
    obtain ⟨shelf, more, hevict, hcounted, hsuffix, hspare, hnodup, hmore⟩ :=
      @evict_spec content capacity s.size s.held _ s.shelf.spare hsize
    rw [htotal, hevict]
    refine ⟨{ s with shelf }, more, rfl, rfl, rfl, rfl, hcounted, fun entry hentry => ?_, hspare,
      hnodup, hmore⟩
    rcases List.mem_append.mp (hsuffix.subset hentry) with hentry | hentry
    · exact Or.inl hentry
    · exact Or.inr (List.mem_singleton.mp hentry)


/-! ## Steps -/

/-- A copy goes on with the bytes of its own chunk. -/
theorem right_copy {out : List UInt8} (hchunk : s.heap[b]? = some (content call.key))
    (h : (Pc.copying call b out).Right content) : (s.copy call b out).Right content := by
  obtain ⟨hle, hout, -⟩ := h
  have hbytes : s.heap.getD b [] = content call.key := by
    rw [List.getD_eq_getElem?_getD, hchunk, Option.getD_some]
  rw [State.copy, hbytes]
  split
  · assumption
  rename_i hrange
  split
  · rename_i hdone
    have hlen : out.length = call.len := Nat.le_antisymm hle hdone
    exact ⟨Nat.le_of_not_lt hrange, hlen ▸ hout⟩
  · rename_i hmore
    refine ⟨?_, ?_, fun _ => Nat.le_of_not_lt hrange⟩
    · rw [List.length_append, List.length_singleton]
      omega
    have hnext : Vec.slice (content call.key) (call.start + out.length) 1 =
        [(content call.key).getD (call.start + out.length) 0] := by
      rw [Vec.slice_eq_map (by omega)]
      rfl
    rw [List.length_append, List.length_singleton, ← Vec.slice_append_slice, ← hout, hnext]

/-- A thread moves, with what it knows. -/
theorem Inv.goTo (h : Inv content s) (hpc : s.threads[i]? = some pc)
    (hthreads : t.threads = s.threads) (hfailures : ∀ f ∈ s.failures, f ∈ t.failures)
    (hsound : Sound content (t.goTo i pc')) (hcounted : t.shelf.bytes = total content t.shelf.entries)
    (hright : pc'.Right content) (hfailed : ∀ call e, pc' = .failed call e → (i, e) ∈ t.failures) :
    Inv content (t.goTo i pc') where
  sound := hsound
  counted := hcounted
  right := by
    rw [State.goTo, hthreads]
    exact Threads.forall_mem_set h.right hright
  failed := by
    intro j call e hj
    rw [State.goTo, hthreads] at hj
    by_cases hij : i = j
    · subst hij
      rw [List.getElem?_set_self (List.getElem?_eq_some_iff.mp hpc).1, Option.some.injEq] at hj
      exact hfailed call e hj
    · rw [List.getElem?_set_ne hij] at hj
      exact hfailures _ (h.failed j call e hj)

theorem right_start {call : Call} : (Pc.copying call b []).Right content :=
  ⟨Nat.zero_le _, by simp [Vec.slice], fun h => absurd rfl h⟩

theorem total_perm {entries more : List (ChunkKey × Buffer)} (h : entries.Perm more) :
    total content entries = total content more :=
  (h.map _).sum_eq

/-- A buffer is taken for a decode. -/
theorem Inv.takeSpare (h : Inv content s) (hpc : s.threads[i]? = some (.missed call)) :
    Inv content (s.takeSpare.2.goTo i (.decoding call s.takeSpare.1)) := by
  have hkept : ∀ b ∈ s.shelf.spare, b ∈ s.exclusive := fun b hb => List.mem_append_left _ hb
  have hnodup := (List.nodup_append.mp h.sound.alone).1
  unfold State.takeSpare
  cases hlast : s.shelf.spare.getLast? with
  | some b =>
      obtain ⟨front, hfront⟩ := List.getLast?_eq_some_iff.mp hlast
      have hdrop : s.shelf.spare.dropLast ++ [b] = s.shelf.spare := by
        rw [hfront, List.dropLast_concat]
      refine h.goTo hpc rfl (fun _ hf => hf) ?_ h.counted trivial nofun
      refine h.sound.goTo hpc rfl le_rfl ?_ ?_ ?_
      · exact hdrop.symm ▸ hnodup
      · intro x hx
        have hx : x ∈ s.shelf.spare := hdrop ▸ hx
        exact ⟨h.sound.inside x (hkept x hx), Or.inl (List.mem_append_left _ hx)⟩
      · intro x key hx
        have hold : Shared s x key := by
          rcases shared_goTo rfl hx with hx | ⟨_, hx, -⟩ | hx
          · exact Or.inl hx
          · cases hx
          · exact Or.inr hx
        refine ⟨(h.sound.shared x key hold).1, fun hmem => ?_, Or.inl hold⟩
        exact (h.sound.shared x key hold).2 (hkept x (hdrop ▸ hmem))
  | none =>
      have hempty : s.shelf.spare = [] := List.getLast?_eq_none_iff.mp hlast
      refine h.goTo hpc rfl (fun _ hf => hf) ?_ h.counted trivial nofun
      refine h.sound.goTo hpc rfl (by simp) ?_ ?_ ?_
      · dsimp only
        rw [hempty]
        exact List.nodup_singleton _
      · intro x hx
        dsimp only at hx
        rw [hempty] at hx
        obtain rfl := List.mem_singleton.mp hx
        exact ⟨by simp, Or.inr fun hmem => absurd (h.sound.inside _ hmem) (Nat.lt_irrefl _)⟩
      · intro x key hx
        have hold : Shared s x key := by
          rcases shared_goTo rfl hx with hx | ⟨_, hx, -⟩ | hx
          · exact Or.inl hx
          · cases hx
          · exact Or.inr hx
        have hcontent := (h.sound.shared x key hold).1
        have hlt : x < s.heap.length := (List.getElem?_eq_some_iff.mp hcontent).1
        refine ⟨?_, fun hmem => ?_, Or.inl hold⟩
        · dsimp only
          rw [List.getElem?_append_left hlt, hcontent]
        · dsimp only at hmem
          rw [hempty] at hmem
          obtain rfl := List.mem_singleton.mp hmem
          exact Nat.lt_irrefl _ hlt

/-- A decoded chunk is kept, or not. -/
theorem Inv.insert (h : Inv content s) (hpc : s.threads[i]? = some (.inserting call b)) :
    ∃ t, s.insert capacity call.key b = some t ∧ Inv content (t.goTo i (.copying call b [])) := by
  have hthread := List.mem_of_getElem? hpc
  have hshared : Shared s b call.key := .of_reads hthread rfl
  obtain ⟨t, more, hinsert, hheap, hthreads, hfailures, hcounted, hentries, hspare, hnodup, hmore⟩ :=
    @insert_spec content s capacity b call.key h (h.sound.shared b _ hshared).1
  refine ⟨t, hinsert, h.goTo hpc hthreads (fun f hf => hfailures ▸ hf) ?_ hcounted right_start nofun⟩
  have hspare' : t.shelf.spare ++ (Pc.copying call b []).lent.toList = s.shelf.spare ++ more := by
    rw [hspare]
    exact List.append_nil _
  have hkept : ∀ x ∈ s.shelf.spare, x ∈ s.exclusive := fun x hx => List.mem_append_left _ hx
  -- What is kept back was in the cache, and so shared.
  have hout : ∀ x ∈ more, x < s.heap.length ∧ x ∉ s.exclusive := by
    intro x hx
    obtain ⟨entry, hentry, rfl⟩ := List.mem_map.mp (hmore x hx).1
    have hentry : Shared s entry.2 entry.1 := by
      rcases List.mem_append.mp hentry with hentry | hentry
      · exact Or.inl hentry
      · rw [List.mem_singleton.mp hentry]
        exact hshared
    have hcontent := h.sound.shared _ _ hentry
    exact ⟨(List.getElem?_eq_some_iff.mp hcontent.1).1, hcontent.2⟩
  refine h.sound.goTo hpc hthreads (congrArg List.length hheap).ge ?_ ?_ ?_
  · rw [hspare', List.nodup_append]
    refine ⟨(List.nodup_append.mp h.sound.alone).1, hnodup, fun x hx y hy heq => ?_⟩
    subst heq
    exact (hout x hy).2 (hkept x hx)
  · rw [hspare', hheap]
    intro x hx
    rcases List.mem_append.mp hx with hx | hx
    · exact ⟨h.sound.inside x (hkept x hx), Or.inl (List.mem_append_left _ hx)⟩
    · exact ⟨(hout x hx).1, Or.inr (hout x hx).2⟩
  · rw [hspare', hheap]
    intro x key hx
    have hold : Shared s x key := by
      rcases shared_goTo hthreads hx with hx | ⟨_, hx, hkey⟩ | hx
      · rcases hentries _ hx with hx | hx
        · exact Or.inl hx
        · cases hx
          exact hshared
      · cases hx
        exact hkey ▸ hshared
      · exact Or.inr hx
    refine ⟨(h.sound.shared x key hold).1, fun hmem => ?_, Or.inl hold⟩
    rcases List.mem_append.mp hmem with hmem | hmem
    · exact (h.sound.shared x key hold).2 (hkept x hmem)
    · obtain ⟨-, hheld, hgone⟩ := hmore x hmem
      rcases shared_goTo hthreads hx with hx | ⟨_, hx, -⟩ | ⟨pc, hpc, other, hreads, -⟩
      · exact hgone (List.mem_map.mpr ⟨_, hx, rfl⟩)
      · cases hx
        rw [State.held, List.any_eq_false] at hheld
        exact hheld _ hthread (by simp [Pc.reads])
      · rw [State.held, List.any_eq_false] at hheld
        exact hheld pc hpc (by simp [hreads])

/-- A look at the cache, which finds the chunk or not. -/
theorem Inv.called (h : Inv content s) (hpc : s.threads[i]? = some (.called call))
    (hstep : s.act capacity i (.called call) = some t) : Inv content t := by
  unfold State.act at hstep
  cases hget : s.shelf.get call.key with
  | none =>
      simp only [hget, Option.some.injEq] at hstep
      subst hstep
      refine h.goTo hpc rfl (fun _ hf => hf) ?_ h.counted trivial nofun
      exact h.sound.calm hpc rfl rfl rfl (fun _ hentry => hentry) rfl nofun
  | some found =>
      simp only [hget, Option.some.injEq] at hstep
      subst hstep
      obtain ⟨hentry, hperm, hbytes, hspare⟩ := get_spec hget
      refine h.goTo hpc rfl (fun _ hf => hf) ?_ ?_ right_start nofun
      · refine h.sound.calm hpc rfl rfl hspare (fun _ hother => hperm.mem_iff.mp hother) rfl ?_
        intro other b hreads
        cases hreads
        exact Or.inl hentry
      · exact hbytes.trans (h.counted.trans (total_perm hperm.symm))

theorem Inv.copied {out : List UInt8} (h : Inv content s)
    (hpc : s.threads[i]? = some (.copying call b out)) :
    Inv content (s.goTo i (s.copy call b out)) := by
  have hthread := List.mem_of_getElem? hpc
  have hshared : Shared s b call.key := .of_reads hthread rfl
  have hlent : (s.copy call b out).lent = none := by
    unfold State.copy
    dsimp only
    split_ifs <;> rfl
  have hreads : ∀ other x, (s.copy call b out).reads = some (other, x) → Shared s x other.key := by
    intro other x hother
    unfold State.copy at hother
    dsimp only at hother
    split_ifs at hother
    · cases hother
    · cases hother
    · cases hother
      exact hshared
  have hfailed : ∀ other e, s.copy call b out = .failed other e → (i, e) ∈ s.failures := by
    intro other e heq
    unfold State.copy at heq
    dsimp only at heq
    split_ifs at heq
  refine h.goTo hpc rfl (fun _ hf => hf) ?_ h.counted ?_ hfailed
  · exact h.sound.calm hpc rfl rfl rfl (fun _ hentry => hentry) hlent hreads
  · exact right_copy (h.sound.shared b _ hshared).1 (h.right _ hthread)

/-! ## Decodes -/

/-- The buffer a decode was lent is in no other hands. -/
theorem Inv.lent_mem (hpc : s.threads[i]? = some (.decoding call b)) : b ∈ s.exclusive :=
  List.mem_append_right _ (List.mem_filterMap.mpr ⟨_, List.mem_of_getElem? hpc, rfl⟩)

/-- A decode may write what it likes, as no one else sees its buffer. -/
theorem Inv.write {bytes : List UInt8} (h : Inv content s)
    (hpc : s.threads[i]? = some (.decoding call b)) :
    Inv content { s with heap := s.heap.set b bytes } where
  sound := by
    refine ⟨h.sound.alone, fun x hx => ?_, fun x key hx => ?_⟩
    · rw [List.length_set]
      exact h.sound.inside x hx
    · have hold := h.sound.shared x key hx
      have hne : b ≠ x := fun heq => hold.2 (heq ▸ Inv.lent_mem hpc)
      exact ⟨(List.getElem?_set_ne hne).trans hold.1, hold.2⟩
  counted := h.counted
  right := h.right
  failed := h.failed

/-- A decode that fails leaves nothing in the cache. -/
theorem Inv.fail {e : AexError} (h : Inv content s)
    (hpc : s.threads[i]? = some (.decoding call b)) :
    Inv content ({ s with failures := (i, e) :: s.failures }.goTo i (.failed call e)) := by
  refine h.goTo hpc rfl (fun _ hf => List.mem_cons_of_mem _ hf) ?_ h.counted trivial ?_
  · exact h.sound.calm hpc rfl rfl rfl (fun _ hentry => hentry) rfl nofun
  · intro other e' heq
    cases heq
    exact List.mem_cons_self

/-- A decode that ends shares a buffer that was in no other hands, or a new one. -/
theorem Inv.share {chunk : Buffer} {heap : List (List UInt8)} (h : Inv content s)
    (hpc : s.threads[i]? = some (.decoding call b)) (hlen : s.heap.length ≤ heap.length)
    (hchunk : heap[chunk]? = some (content call.key))
    (hold : ∀ x, x ≠ chunk → x < s.heap.length → x ≠ b → heap[x]? = s.heap[x]?)
    (hfrom : chunk = b ∨ s.heap.length ≤ chunk) :
    Inv content ({ s with heap }.goTo i (.inserting call chunk)) := by
  have hkept : ∀ x ∈ s.shelf.spare, x ∈ s.exclusive := fun x hx => List.mem_append_left _ hx
  have halone := List.nodup_append.mp h.sound.alone
  have hlent : b ∈ s.threads.filterMap Pc.lent :=
    List.mem_filterMap.mpr ⟨_, List.mem_of_getElem? hpc, rfl⟩
  have hspare : s.shelf.spare ++ (Pc.inserting call chunk).lent.toList = s.shelf.spare :=
    List.append_nil _
  refine h.goTo hpc rfl (fun _ hf => hf) ?_ h.counted trivial nofun
  refine h.sound.goTo hpc rfl hlen ?_ ?_ ?_
  · dsimp only
    rw [hspare]
    exact halone.1
  · dsimp only
    rw [hspare]
    intro x hx
    exact ⟨(h.sound.inside x (hkept x hx)).trans_le hlen, Or.inl (List.mem_append_left _ hx)⟩
  · dsimp only
    rw [hspare]
    -- What was shared is another buffer, and stays as it is.
    have hother : ∀ x key, Shared s x key → heap[x]? = some (content key) ∧
        x ∉ s.shelf.spare ∧
        (Shared s x key ∨ x ∈ s.shelf.spare ++ (Pc.decoding call b).lent.toList ∨
          s.heap.length ≤ x) := by
      intro x key hx
      obtain ⟨hcontent, hout⟩ := h.sound.shared x key hx
      have hlt : x < s.heap.length := (List.getElem?_eq_some_iff.mp hcontent).1
      have hne : x ≠ b := fun heq => hout (heq ▸ Inv.lent_mem hpc)
      have hnew : x ≠ chunk := by
        rcases hfrom with rfl | hfrom
        · exact hne
        · exact fun heq => absurd hlt (Nat.not_lt.mpr (heq ▸ hfrom))
      exact ⟨(hold x hnew hlt hne).trans hcontent, fun hmem => hout (hkept x hmem), Or.inl hx⟩
    intro x key hx
    rcases shared_goTo rfl hx with hx | ⟨_, hx, hkey⟩ | hx
    · exact hother x key (Or.inl hx)
    · cases hx
      subst hkey
      refine ⟨hchunk, fun hmem => ?_, ?_⟩
      · rcases hfrom with rfl | hfrom
        · exact halone.2.2 chunk hmem chunk hlent rfl
        · exact absurd (h.sound.inside chunk (hkept chunk hmem)) (Nat.not_lt.mpr hfrom)
      · rcases hfrom with rfl | hfrom
        · exact Or.inr (Or.inl (List.mem_append_right _ (List.mem_singleton_self _)))
        · exact Or.inr (Or.inr hfrom)
    · exact hother x key (Or.inr hx)

theorem Inv.decoded (h : Inv content s) (hpc : s.threads[i]? = some (.decoding call b)) :
    Inv content ({ s with heap := s.heap.set b (content call.key) }.goTo i (.inserting call b)) := by
  have hlt := h.sound.inside b (Inv.lent_mem hpc)
  refine h.share hpc (by rw [List.length_set]) (List.getElem?_set_self hlt) ?_ (Or.inl rfl)
  exact fun x hx _ _ => List.getElem?_set_ne hx.symm

theorem Inv.decodedElsewhere (h : Inv content s)
    (hpc : s.threads[i]? = some (.decoding call b)) :
    Inv content ({ s with heap := s.heap ++ [content call.key] }.goTo i
      (.inserting call s.heap.length)) := by
  refine h.share hpc (by simp) List.getElem?_concat_length ?_ (Or.inr le_rfl)
  exact fun x _ hx _ => List.getElem?_append_left hx

/-! ## Runs -/

theorem Inv.new : Inv content .new where
  sound := by
    refine ⟨List.nodup_nil, nofun, fun b key hb => ?_⟩
    rcases hb with hb | ⟨pc, hpc, -⟩
    · cases hb
    · cases hpc
  counted := rfl
  right := nofun
  failed := nofun

/-- A thread more. -/
theorem Inv.start (h : Inv content s) :
    Inv content { s with threads := s.threads ++ [.called call] } where
  sound := by
    have hexclusive : (s.threads ++ [Pc.called call]).filterMap Pc.lent = s.threads.filterMap Pc.lent := by
      rw [List.filterMap_append]
      exact List.append_nil _
    have hsame : ({ s with threads := s.threads ++ [.called call] } : State).exclusive = s.exclusive := by
      rw [State.exclusive, State.exclusive, hexclusive]
    refine ⟨hsame ▸ h.sound.alone, hsame ▸ h.sound.inside, fun b key hb => ?_⟩
    rw [hsame]
    apply h.sound.shared b key
    rcases hb with hb | ⟨pc, hpc, other, hreads, hkey⟩
    · exact Or.inl hb
    · rcases List.mem_append.mp hpc with hpc | hpc
      · exact Or.inr ⟨pc, hpc, other, hreads, hkey⟩
      · rw [List.mem_singleton.mp hpc] at hreads
        cases hreads
  counted := h.counted
  right := by
    intro pc hpc
    rcases List.mem_append.mp hpc with hpc | hpc
    · exact h.right pc hpc
    · rw [List.mem_singleton.mp hpc]
      trivial
  failed := by
    intro j other e hj
    rcases List.mem_append.mp (List.mem_of_getElem? hj) with hmem | hmem
    · by_cases hlt : j < s.threads.length
      · rw [List.getElem?_append_left hlt] at hj
        exact h.failed j other e hj
      · rw [List.getElem?_append_right (Nat.le_of_not_lt hlt)] at hj
        cases List.mem_singleton.mp (List.mem_of_getElem? hj)
    · cases List.mem_singleton.mp hmem

/-- Every step keeps the buffers of one pair of hands apart from the shared ones. -/
theorem inductive_inv : (system capacity content).Inductive (fun _ _ => True) (Inv content) where
  init := fun h => h ▸ Inv.new
  step := by
    intro s t label h _ hstep
    rw [system, System.ofFn_step] at hstep
    cases label with
    | call call =>
        cases hstep
        exact h.start
    | act i =>
        obtain ⟨pc, hpc, hstep⟩ := Option.bind_eq_some_iff.mp hstep
        cases pc with
        | called call => exact h.called hpc hstep
        | missed call =>
            cases hstep
            exact h.takeSpare hpc
        | inserting call chunk =>
            obtain ⟨u, hinsert, hu⟩ := @Inv.insert content s capacity i chunk call h hpc
            simp only [State.act, hinsert, Option.some.injEq] at hstep
            exact hstep ▸ hu
        | copying call chunk out =>
            cases hstep
            exact h.copied hpc
        | decoding call lent => cases hstep
        | returned call out => cases hstep
        | failed call e => cases hstep
        | panicked call => cases hstep
    | write i bytes =>
        simp only [next] at hstep
        split at hstep
        · rename_i call lent hpc
          cases hstep
          exact h.write hpc
        · cases hstep
    | fail i e =>
        simp only [next] at hstep
        split at hstep
        · rename_i call lent hpc
          cases hstep
          exact h.fail hpc
        · cases hstep
    | decoded i elsewhere =>
        simp only [next] at hstep
        split at hstep
        · rename_i call lent hpc
          cases elsewhere with
          | false =>
              cases hstep
              exact h.decoded hpc
          | true =>
              cases hstep
              exact h.decodedElsewhere hpc
        · cases hstep

/-! ## What callers see -/

/-- At most how many steps a thread is from the end of its call. -/
def Pc.left : Pc → Nat
  | .called call => call.len + 5
  | .missed call => call.len + 4
  | .decoding call _ => call.len + 3
  | .inserting call _ => call.len + 2
  | .copying call _ out => call.len + 1 - out.length
  | .returned .. | .failed .. | .panicked .. => 0

/-- Reads through a cache are those without one. -/
structure Transparent (capacity : Nat) (content : ChunkKey → List UInt8) (s : State) : Prop where
  returned : ∀ call out, .returned call out ∈ s.threads →
    call.start + call.len ≤ (content call.key).length ∧
      out = Vec.slice (content call.key) call.start call.len
  failed : ∀ (i : Nat) call e, s.threads[i]? = some (.failed call e) → (i, e) ∈ s.failures
  panicked : ∀ call, .panicked call ∈ s.threads →
    (content call.key).length < call.start + call.len
  cached : ∀ entry ∈ s.shelf.entries, s.heap[entry.2]? = some (content entry.1)
  /-- What is copied out does not change. -/
  reading : ∀ pc ∈ s.threads, ∀ call b, pc.reads = some (call, b) →
    s.heap[b]? = some (content call.key)
  /-- No entry, reader or other decode has the buffer that a decode was lent. -/
  lent : ∀ (i : Nat) call b, s.threads[i]? = some (.decoding call b) →
    (∀ entry ∈ s.shelf.entries, entry.2 ≠ b) ∧
      (∀ pc ∈ s.threads, ∀ other, pc.reads ≠ some (other, b)) ∧ b ∉ s.shelf.spare ∧
      ∀ (j : Nat) other, s.threads[j]? = some (.decoding other b) → j = i
  uncached : ∀ i e t, next capacity content s (.fail i e) = some t → t.shelf = s.shelf
  /-- No call waits for another one. -/
  moves : ∀ (i : Nat) pc, s.threads[i]? = some pc → 0 < pc.left →
    ∃ label t pc', next capacity content s label = some t ∧ t.threads = s.threads.set i pc' ∧
      pc'.left < pc.left

theorem left_copy {out : List UInt8} (h : 0 < (Pc.copying call b out).left) :
    (s.copy call b out).left < (Pc.copying call b out).left := by
  unfold State.copy
  dsimp only
  split_ifs with hrange hdone
  · exact h
  · exact h
  · simp only [Pc.left, List.length_append, List.length_singleton]
    omega

theorem Inv.moves (h : Inv content s) (hpc : s.threads[i]? = some pc) (hleft : 0 < pc.left) :
    ∃ label t pc', next capacity content s label = some t ∧ t.threads = s.threads.set i pc' ∧
      pc'.left < pc.left := by
  have hact : next capacity content s (.act i) = s.act capacity i pc := by
    rw [next, hpc, Option.bind_some]
  cases pc with
  | called call =>
      cases hget : s.shelf.get call.key with
      | none => exact ⟨.act i, _, .missed call, by rw [hact, State.act, hget], rfl, by simp [Pc.left]⟩
      | some found =>
          refine ⟨.act i, _, .copying call found.1 [], by rw [hact, State.act, hget], rfl, ?_⟩
          simp [Pc.left]
  | missed call =>
      refine ⟨.act i, _, .decoding call s.takeSpare.1, hact, ?_, by simp [Pc.left]⟩
      unfold State.takeSpare
      split <;> rfl
  | decoding call lent =>
      refine ⟨.decoded i true, { s with heap := s.heap ++ [content call.key] }.goTo i
        (.inserting call s.heap.length), .inserting call s.heap.length, ?_, rfl, by simp [Pc.left]⟩
      simp only [next, hpc, if_pos]
  | inserting call chunk =>
      have hchunk := (h.sound.shared chunk _ (.of_reads (List.mem_of_getElem? hpc) rfl)).1
      obtain ⟨t, -, hinsert, -, hthreads, -⟩ := @insert_spec content s capacity chunk call.key h hchunk
      refine ⟨.act i, t.goTo i (.copying call chunk []), .copying call chunk [], ?_, ?_, ?_⟩
      · rw [hact, State.act, hinsert]
      · rw [State.goTo, hthreads]
      · simp [Pc.left]
  | copying call chunk out => exact ⟨.act i, _, _, hact, rfl, left_copy hleft⟩
  | returned call out => cases hleft
  | failed call e => cases hleft
  | panicked call => cases hleft

/-- Whatever buffers decodes are lent, and however threads take turns, each call ends
with the bytes of its own chunk or with its own error. -/
theorem transparent_of_reachable (h : (system capacity content).Reachable s) :
    Transparent capacity content s := by
  have hinv := inductive_inv.holds h
  constructor
  · exact fun call out hthread => hinv.right _ hthread
  · exact hinv.failed
  · exact fun call hthread => hinv.right _ hthread
  · exact fun entry hentry => (hinv.sound.shared entry.2 entry.1 (Or.inl hentry)).1
  · exact fun pc hpc call b hreads => (hinv.sound.shared b _ (.of_reads hpc hreads)).1
  · intro i call b hpc
    have hlent : b ∈ s.exclusive := Inv.lent_mem hpc
    have halone := (State.exclusive_perm hpc).nodup_iff.mp hinv.sound.alone
    rw [List.nodup_append, List.nodup_append] at halone
    have hmine : b ∈ (Pc.decoding call b).lent.toList := List.mem_singleton_self _
    refine ⟨fun entry hentry heq => ?_, fun pc hpc other hreads => ?_, fun hspare => ?_,
      fun j other hj => ?_⟩
    · exact (hinv.sound.shared b entry.1 (Or.inl (heq ▸ hentry))).2 hlent
    · exact (hinv.sound.shared b _ (.of_reads hpc hreads)).2 hlent
    · exact halone.1.2.2 b hspare b hmine rfl
    · by_contra hne
      have hthere : Pc.decoding other b ∈ s.threads.eraseIdx i :=
        List.mem_eraseIdx_iff_getElem?.mpr ⟨j, hne, hj⟩
      exact halone.2.2 b (List.mem_append_right _ hmine) b
        (List.mem_filterMap.mpr ⟨_, hthere, rfl⟩) rfl
  · intro i e t hstep
    simp only [next] at hstep
    split at hstep
    · cases hstep
      rfl
    · cases hstep
  · exact fun i pc hpc hleft => hinv.moves hpc hleft

/-- Three chunks of two bytes. -/
def threeChunks (key : ChunkKey) : List UInt8 :=
  if key.2 = 0 then [1, 2] else if key.2 = 1 then [3, 4] else [5, 6]

/-- A chunk is evicted while it is copied; its buffer is not lent to the decode that
comes next. -/
def evictedRun : List Label :=
  [.call ⟨(0, 0), 0, 2⟩, .call ⟨(0, 1), 1, 1⟩, .call ⟨(0, 2), 0, 2⟩, .act 0, .act 0, .decoded 0 false,
    .act 0, .act 0, .act 1, .act 1, .write 1 [9], .decoded 1 false, .act 1, .act 2, .act 2,
    .write 2 [9, 9], .act 0, .act 0, .act 1, .act 1, .decoded 2 true, .act 2, .act 2, .act 2, .act 2]

theorem transparent_of_reachable_evicted :
    ∃ s, (system 2 threeChunks).Reachable s ∧ Transparent 2 threeChunks s ∧
      s.threads = [.returned ⟨(0, 0), 0, 2⟩ [1, 2], .returned ⟨(0, 1), 1, 1⟩ [4],
        .returned ⟨(0, 2), 0, 2⟩ [5, 6]] := by
  have hrun : (evictedRun.foldlM (next 2 threeChunks) .new).map State.threads =
      some [.returned ⟨(0, 0), 0, 2⟩ [1, 2], .returned ⟨(0, 1), 1, 1⟩ [4],
        .returned ⟨(0, 2), 0, 2⟩ [5, 6]] := by decide +kernel
  obtain ⟨s, hs, hthreads⟩ := Option.map_eq_some_iff.mp hrun
  have hreached : (system 2 threeChunks).Reachable s := System.reachable_of_run evictedRun hs
  exact ⟨s, hreached, transparent_of_reachable hreached, hthreads⟩

end SharedCache

end Aex
