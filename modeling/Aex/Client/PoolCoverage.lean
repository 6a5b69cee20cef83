import Aex.Client.PoolConservation
import Aex.Lib.Coverage

/-!
# What a completed fetch received

A fetch is complete once its frames add up to its length.  The frames are each
checked against the range of the fetch but not against one another, so that they
cover the range only in runs in which no byte is sent twice for one fetch.
-/

namespace Aex

open Lts Coverage

variable {n : Nat}

/-! ## Fetches of one thread -/

/-- The fetch a thread is about to count as complete. -/
def Pc.done : Pc n → List (InFlight n)
  | .completing done => [done]
  | _ => []

/-- The fetches a thread has answers of. -/
def Worker.records (w : Worker n) : List (InFlight n) := w.pc.done ++ w.flight

namespace InFlight

/-- A fetch nothing has come in for yet. -/
structure New (x : InFlight n) : Prop where
  slice : x.slice = ⟨x.chunk.offset, x.chunk.len⟩
  received : x.received = 0
  accepted : x.accepted = []

/-- The fetch once a data frame of it has been accepted. -/
def grown (x : InFlight n) (header : FrameHeader) : InFlight n :=
  { x with
    received := x.received + header.logicalLen
    accepted := x.accepted ++ [(header.offset, header.logicalLen)] }

end InFlight

@[simp] theorem Worker.mem_broke_records {w : Worker n} {e : ClientError} {x : InFlight n} :
    x ∈ (w.broke e).records ↔ x ∈ w.flight := by
  unfold Worker.records Worker.broke
  dsimp only
  split <;> simp [Pc.done]

theorem Shared.modifyPart_getElem (sh : Shared n) (k j : Fin n) (f : Part → Part) :
    (sh.modifyPart k f).parts.get j = if k = j then f (sh.parts.get k) else sh.parts.get j := by
  simp only [modifyPart, Vec.get_set, Fin.val_inj]

theorem Shared.release_getElem (sh : Shared n) (x : InFlight n) (j : Fin n) :
    ((sh.release x).parts.get j).requestId = (sh.parts.get j).requestId ∧
      ((sh.release x).parts.get j).ticket = (sh.parts.get j).ticket ∧
      ((sh.release x).parts.get j).dst = (sh.parts.get j).dst := by
  rw [release, modifyPart_getElem]
  split
  · rename_i h
    subst h
    exact ⟨rfl, rfl, rfl⟩
  · exact ⟨rfl, rfl, rfl⟩

/-- A thread reads a data frame, or what came of one, into the slice of its oldest
fetch. -/
structure Stores (settings : Settings) (sh : Shared n) (w : Worker n) (event : Event)
    (sh' : Shared n) (w' : Worker n) (front : InFlight n) (header : FrameHeader)
    (payload bytes : List UInt8) (failure : Option IoFailure) (result : Except ClientError Unit) :
    Prop where
  reading : w.pc = .reading
  oldest : ∃ rest, w.flight = front :: rest
  event : event = .received (.frame header payload) ∧ failure = none ∨
    ∃ f, event = .received (.cut header payload f) ∧ failure = some f
  data : header.frameType = .data
  payload_le : payload.length ≤ header.wireLen
  receive : DataConn.receiveData settings.build settings.expander header
    (sh.parts.get front.chunk.part).requestId front.chunk.offset
    (Vec.slice (sh.parts.get front.chunk.part).dst front.slice.offset front.slice.len)
    payload failure = (result, bytes)
  written : ∀ k : Fin n, (sh'.parts.get k).dst = ((sh.write front bytes).parts.get k).dst
  records : ∀ x ∈ w'.records,
    x ∈ w.flight ∨ failure = none ∧ result = .ok () ∧ x = front.grown header

namespace Acts

variable {settings : Settings} {sh sh' : Shared n} {w w' : Worker n} {event : Event}
  {x : InFlight n}

/-- What a step does to buffers and fetches: it reads a data frame, or it leaves the
buffers alone and at most asks for something new. -/
theorem effect (h : Acts settings sh w event sh' w') :
    ((∀ k : Fin n, (sh'.parts.get k).dst = (sh.parts.get k).dst) ∧
      ∀ x ∈ w'.records, x ∈ w.records ∨ x.New) ∨
    ∃ front header payload bytes failure result,
      Stores settings sh w event sh' w' front header payload bytes failure result := by
  have hscatter : ∀ (k : Fin n) (scatter : ScatterBuffer) (j : Fin n),
      ((sh.modifyPart k fun part => { part with scatter }).parts.get j).dst = (sh.parts.get j).dst := by
    intro k scatter j
    rw [Shared.modifyPart_getElem]
    split
    · rename_i h
      subst h
      rfl
    · rfl
  have hrelease : ∀ (x : InFlight n) (j : Fin n),
      ((sh.release x).parts.get j).dst = (sh.parts.get j).dst :=
    fun x j => (Shared.release_getElem sh x j).2.2
  have hflight : ∀ {x : InFlight n}, x ∈ w.flight → x ∈ w.records ∨ x.New := fun hx =>
    .inl (List.mem_append_right _ hx)
  have hbroke : ∀ {e : ClientError}, ∀ x ∈ (w.broke e).records, x ∈ w.records ∨ x.New :=
    fun x hx => hflight (Worker.mem_broke_records.mp hx)
  cases h with
  | unaccounted | gaveNothing | broken => exact .inl ⟨fun _ => rfl, hbroke⟩
  | @gaveBack fresh e hpc => exact .inl ⟨fun _ => rfl, hbroke (e := e)⟩
  | @dataBroken hpc front rest hfront incoming header payload bytes failure e hincoming htype
      hformed hdata =>
      refine .inr ⟨front, header, payload, bytes, failure, _, hpc, ⟨rest, hfront⟩, ?_, htype, ?_,
        hdata, fun _ => rfl, fun x hx => .inl (Worker.mem_broke_records.mp hx)⟩
      · rcases hincoming with ⟨rfl, hf⟩ | ⟨f, rfl, hf⟩
        · exact .inl ⟨rfl, hf⟩
        · exact .inr ⟨f, rfl, hf⟩
      · rcases hincoming with ⟨rfl, -⟩ | ⟨f, rfl, -⟩
        · simp only [Incoming.WellFormed, Incoming.hasPayload, htype] at hformed
          exact Nat.le_of_eq hformed
        · simp only [Incoming.WellFormed, Incoming.hasPayload, htype] at hformed
          exact Nat.le_of_lt hformed
  | @accepted hpc conn hheld front front' rest hfront header payload bytes htype hformed hdata
      hgrown sh' w' hnext =>
      refine .inr ⟨front, header, payload, bytes, none, .ok (), hpc, ⟨rest, hfront⟩,
        .inl ⟨rfl, rfl⟩, htype, ?_, hdata, fun k => ?_, fun x hx => ?_⟩
      · simp only [Incoming.WellFormed, Incoming.hasPayload, htype] at hformed
        exact Nat.le_of_eq hformed
      · rcases hnext with ⟨-, rfl, -⟩ | ⟨-, rfl, -⟩
        · exact (Shared.release_getElem _ _ k).2.2
        · rfl
      · have hx : x = front' ∨ x ∈ rest := by
          rcases hnext with ⟨-, -, rfl⟩ | ⟨-, -, rfl⟩ <;>
            simpa [Worker.records, Pc.done] using hx
        rcases hx with rfl | hx
        · exact .inr ⟨rfl, rfl, hgrown⟩
        · exact .inl (hfront ▸ List.mem_cons_of_mem _ hx)
  | @sent chunk fresh hpc conn hheld slice scatter hclaim
  | @notSent chunk fresh hpc failure slice scatter hclaim =>
      obtain ⟨rfl, -⟩ := ScatterBuffer.claim_spec hclaim
      refine .inl ⟨hscatter _ _, fun x hx => ?_⟩
      simp only [Worker.records, Pc.done, List.nil_append, List.mem_append,
        List.mem_singleton] at hx
      rcases hx with hx | rfl
      · exact hflight hx
      · exact .inr ⟨rfl, rfl, rfl⟩
  | refused hpc hheld hfront header payload htype hid hnext =>
      rcases hnext with ⟨message, rfl⟩ | ⟨chunk, hretried, rfl⟩ | ⟨error, rfl⟩
      all_goals
        exact .inl ⟨hrelease _, fun x hx => hflight (hfront ▸ List.mem_cons_of_mem _ hx)⟩
  | drains hpc hfront hnext =>
      rcases hnext with ⟨chunk, hretried, rfl⟩ | ⟨-, rfl⟩
      all_goals
        exact .inl ⟨hrelease _, fun x hx => hflight (hfront ▸ List.mem_append_left _ hx)⟩
  | clears hpc hfront =>
      refine .inl ⟨hrelease _, fun x hx => hflight ?_⟩
      have hx : x ∈ w.pc.done ++ _ := hx
      simp only [hpc, Pc.done, List.nil_append] at hx
      exact hfront ▸ List.mem_cons_of_mem _ hx
  | @requeues chunk after hpc =>
      rcases after with _ | ⟨e, exhausted⟩ <;> exact .inl ⟨fun _ => rfl, fun x hx => hflight hx⟩
  | @drained e exhausted hpc hfront =>
      cases exhausted <;> exact .inl ⟨fun _ => rfl, fun x hx => hflight hx⟩
  | @fails e panicked hpc =>
      cases panicked <;> exact .inl ⟨fun _ => rfl, fun x hx => hflight hx⟩
  | _ => exact .inl ⟨fun _ => rfl, fun x hx => hflight hx⟩

/-- A fetch is counted as complete by the thread whose frames completed it. -/
theorem mem_completed (h : Acts settings sh w event sh' w') (hx : x ∈ sh'.completed) :
    x ∈ sh.completed ∨ w.pc = .completing x := by
  cases h with
  | completes hpc =>
      rcases List.mem_cons.mp hx with rfl | hx
      · exact .inr hpc
      · exact .inl hx
  | accepted hpc hheld hflight htype hformed hdata hfront hnext =>
      rcases hnext with ⟨-, rfl, rfl⟩ | ⟨-, rfl, rfl⟩ <;> exact .inl hx
  | _ => exact .inl hx

/-- A fetch about to be counted has received its length. -/
theorem full_of_completing (h : Acts settings sh w event sh' w') (hpc' : w'.pc = .completing x) :
    x.chunk.len ≤ x.received := by
  cases h with
  | accepted hpc hheld hflight htype hformed hdata hfront hnext =>
      rcases hnext with ⟨hfull, rfl, rfl⟩ | ⟨-, rfl, rfl⟩
      · cases hpc'
        exact hfull
      · cases hpc'
  | unaccounted | gaveNothing | broken | dataBroken | gaveBack =>
      exfalso
      revert hpc'
      unfold Worker.broke
      dsimp only
      split <;> simp
  | refused hpc hheld hflight header payload htype hid hnext =>
      rcases hnext with ⟨message, rfl⟩ | ⟨chunk, hretried, rfl⟩ | ⟨error, rfl⟩ <;> cases hpc'
  | drains hpc hflight hnext =>
      rcases hnext with ⟨chunk, hretried, rfl⟩ | ⟨-, rfl⟩ <;> cases hpc'
  | @requeues chunk after hpc => rcases after with _ | ⟨e, exhausted⟩ <;> cases hpc'
  | @drained e exhausted hpc hflight => cases exhausted <;> cases hpc'
  | @fails e panicked hpc => cases panicked <;> cases hpc'
  | _ => simp_all

end Acts

/-! ## Frames of one fetch -/

namespace InFlight

/-- The frames of a fetch lie in its range, and it has received their lengths. -/
structure Counted (x : InFlight n) : Prop where
  slice : x.slice = ⟨x.chunk.offset, x.chunk.len⟩
  inside : ∀ r ∈ x.accepted,
    x.chunk.offset ≤ r.1 ∧ r.1 + r.2 ≤ x.chunk.offset + x.chunk.len
  received : x.received = (x.accepted.map Prod.snd).sum
  apart : Apart x.accepted

/-- Every byte of the range was in a frame accepted for it. -/
def Covered (x : InFlight n) : Prop :=
  ∀ p, x.chunk.offset ≤ p → p < x.chunk.offset + x.chunk.len →
    ∃ r ∈ x.accepted, r.1 ≤ p ∧ p < r.1 + r.2

theorem New.counted {x : InFlight n} (h : x.New) : x.Counted where
  slice := h.slice
  inside := by simp [h.accepted]
  received := by simp [h.accepted, h.received]
  apart := by simp [h.accepted, Apart]

theorem Counted.covered {x : InFlight n} (h : x.Counted) (hfull : x.chunk.len ≤ x.received) :
    x.Covered := fun _ hp hp' => h.apart.covers h.inside (h.received ▸ hfull) hp hp'

/-- A frame that repeats no byte of the fetch keeps the count. -/
theorem Counted.grown {settings : Settings} {x : InFlight n} {header : FrameHeader}
    {requestId : Nat} {dst payload bytes : List UInt8} (h : x.Counted)
    (hdata : DataConn.receiveData settings.build settings.expander header requestId x.chunk.offset
      (Vec.slice dst x.slice.offset x.slice.len) payload none = (.ok (), bytes))
    (hnew : ∀ r ∈ x.accepted, Disjoint (positions r) (positions (header.offset, header.logicalLen))) :
    (x.grown header).Counted := by
  obtain ⟨start, hplace⟩ : ∃ start, DataConn.place settings.build header requestId x.chunk.offset
      (Vec.slice dst x.slice.offset x.slice.len).length = .ok start := by
    unfold DataConn.receiveData at hdata
    split at hdata
    · cases hdata
    · exact ⟨_, by assumption⟩
  obtain ⟨-, -, hoffset, hfits⟩ := DataConn.place_spec hplace
  have hcapacity : (Vec.slice dst x.slice.offset x.slice.len).length ≤ x.chunk.len := by
    rw [h.slice, Vec.slice, List.length_take]
    exact Nat.min_le_left _ _
  refine ⟨h.slice, ?_, ?_, h.apart.concat hnew⟩
  · intro r hr
    rcases List.mem_append.mp hr with hr | hr
    · exact h.inside r hr
    · obtain rfl := List.mem_singleton.mp hr
      dsimp only [InFlight.grown]
      omega
  · simp [InFlight.grown, h.received]

end InFlight

/-! ## Runs in which no byte is repeated -/

namespace Transfer

/-- The data frame about to be received shares no byte with one accepted before it
for the same fetch. -/
def NoRepeats (t : Transfer n) : Nat × Event → Prop
  | (i, .received (.frame header _)) => header.frameType = .data →
      ∀ w ∈ t.workers[i]?, ∀ front ∈ w.flight.head?, ∀ r ∈ front.accepted,
        Disjoint (positions r) (positions (header.offset, header.logicalLen))
  | _ => True

instance (t : Transfer n) (label : Nat × Event) : Decidable (t.NoRepeats label) := by
  obtain ⟨i, event⟩ := label
  unfold NoRepeats
  split <;> infer_instance

/-- Every fetch is counted by its frames, and the completed ones by all they need. -/
structure Tracked (t : Transfer n) : Prop where
  records : ∀ w ∈ t.workers, ∀ x ∈ w.records, x.Counted
  full : ∀ w ∈ t.workers, ∀ x, w.pc = .completing x → x.chunk.len ≤ x.received
  completed : ∀ x ∈ t.shared.completed, x.Covered

variable {settings : Settings} {pool : DataPool} {parts : Vector FetchPart n} {t t' : Transfer n}

theorem tracked_start : (start pool parts).Tracked where
  records := by
    intro w hw x hx
    obtain ⟨held, -, rfl⟩ := List.mem_map.mp hw
    cases hx
  full := by
    intro w hw x hpc
    obtain ⟨held, -, rfl⟩ := List.mem_map.mp hw
    cases hpc
  completed := by
    intro x hx
    cases hx

theorem notified_records (w : Worker n) : w.notified.records = w.records := by
  rcases notified_cases w with h | ⟨hpc, h⟩
  · rw [h]
  · simp [h, Worker.records, hpc, Pc.done]

theorem notified_completing {w : Worker n} {x : InFlight n} (h : w.notified.pc = .completing x) :
    w.pc = .completing x := by
  rcases notified_cases w with h' | ⟨hpc, h'⟩
  · rwa [h'] at h
  · simp [h'] at h

theorem tracked_notify {i : Nat} {w : Worker n} (h : t.Tracked) (hw : t.workers[i]? = some w) :
    Tracked { t with
      workers := (t.workers.map Worker.notified).set i { w with owes := false } } := by
  have hmem := List.mem_of_getElem? hw
  refine ⟨Threads.forall_mem_set ?_ (h.records w hmem),
    Threads.forall_mem_set ?_ (h.full w hmem), h.completed⟩
  · intro y hy
    obtain ⟨z, hz, rfl⟩ := List.mem_map.mp hy
    rw [notified_records]
    exact h.records z hz
  · intro y hy x hpc
    obtain ⟨z, hz, rfl⟩ := List.mem_map.mp hy
    exact h.full z hz x (notified_completing hpc)

theorem tracked_act {i : Nat} {event : Event} {w w' : Worker n} {sh' : Shared n}
    (h : t.Tracked) (hw : t.workers[i]? = some w) (hnew : t.NoRepeats (i, event))
    (hacts : Acts settings t.shared w event sh' w') : Tracked ⟨sh', t.workers.set i w'⟩ := by
  have hmem := List.mem_of_getElem? hw
  refine ⟨Threads.forall_mem_set h.records ?_,
    Threads.forall_mem_set h.full fun x hpc => hacts.full_of_completing hpc, ?_⟩
  · intro x hx
    rcases hacts.effect with ⟨-, hrecords⟩ | ⟨front, header, payload, bytes, failure, result, hstores⟩
    · rcases hrecords x hx with hx | hx
      · exact h.records w hmem x hx
      · exact hx.counted
    · obtain ⟨rest, hflight⟩ := hstores.oldest
      rcases hstores.records x hx with hx | ⟨rfl, rfl, rfl⟩
      · exact h.records w hmem x (List.mem_append_right _ hx)
      · obtain rfl : event = .received (.frame header payload) := by simpa using hstores.event
        have hfront : front ∈ w.records := List.mem_append_right _ (hflight ▸ List.mem_cons_self)
        exact (h.records w hmem front hfront).grown hstores.receive
          (hnew hstores.data w hw front (by simp [hflight]))
  · intro x hx
    rcases hacts.mem_completed hx with hx | hpc
    · exact h.completed x hx
    · have hdone : x ∈ w.records := by simp [Worker.records, hpc, Pc.done]
      exact (h.records w hmem x hdone).covered (h.full w hmem x hpc)

theorem tracked (h : (system settings pool parts).ReachableWhere NoRepeats t) : t.Tracked := by
  refine System.Inductive.holds (P := NoRepeats) ⟨?_, ?_⟩ h
  · rintro s rfl
    exact tracked_start
  · rintro s s' ⟨i, event⟩ hs hnew hstep
    obtain ⟨w, hw, ⟨-, -, rfl⟩ | ⟨sh', w', -, hacts, rfl⟩⟩ := step_cases hstep
    · exact tracked_notify hs hw
    · exact tracked_act hs hw hnew hacts

/-- In every run in which no byte is sent twice for one fetch, what is counted as
complete was received whole; so when the call succeeds every chunk was. -/
theorem covered_of_noRepeats (settings : Settings) (pool : DataPool) (parts : Vector FetchPart n)
    (t : Transfer n) (h : (system settings pool parts).ReachableWhere NoRepeats t) :
    (∀ x ∈ t.shared.completed, x.Covered) ∧
    ∀ fetched, t.outcome = some (.ok fetched) → ∀ c ∈ chunksOf parts,
      ∃ x ∈ t.shared.completed, x.chunk.key = c.key ∧ x.Covered := by
  have htracked := tracked h
  refine ⟨htracked.completed, fun fetched houtcome c hc => ?_⟩
  obtain ⟨hperm, -⟩ := ((conserved h.reachable).outcome_ok_iff houtcome).mp ⟨fetched, rfl⟩
  have hkey := hperm.mem_iff.mpr (List.mem_map_of_mem hc)
  obtain ⟨x, hx, hxc⟩ := List.mem_map.mp hkey
  exact ⟨x, hx, hxc, htracked.completed x hx⟩

/-- A transfer whose two frames are the two halves of its chunk. -/
theorem covered_of_noRepeats_halves : ∃ t : Transfer 1, t.outcome = some (.ok ⟨1, 0, 4⟩) ∧
    ∀ x ∈ t.shared.completed, x.Covered := by
  have hrun : ((twoFrames 0 2).foldlM (fun t label => if NoRepeats t label then
      step rawSettings t label else none) (start onePool fourBytes)).map outcome =
      some (some (.ok ⟨1, 0, 4⟩)) := by decide +kernel
  obtain ⟨t, ht, houtcome⟩ := Option.map_eq_some_iff.mp hrun
  exact ⟨t, houtcome, (covered_of_noRepeats rawSettings onePool fourBytes t
    (System.reachableWhere_of_run _ ht)).1⟩

/-- Two frames with the same half of a chunk complete it. -/
theorem half_received_twice : ¬ ∀ (n : Nat) (settings : Settings) (pool : DataPool)
    (parts : Vector FetchPart n) (t : Transfer n), (system settings pool parts).Reachable t →
    ∀ fetched, t.outcome = some (.ok fetched) → ∀ c ∈ chunksOf parts,
      ∃ x ∈ t.shared.completed, x.chunk.key = c.key ∧ x.Covered := by
  intro h
  obtain ⟨t, ht, houtcome, hcompleted⟩ := twoFrames_reachable 0 0
    (by decide +kernel)
  obtain ⟨x, hx, -, hcovered⟩ := h 1 rawSettings onePool fourBytes t (System.reachable_of_run _ ht)
    _ houtcome ⟨0, 0, 4, 0⟩ (by decide)
  rw [hcompleted] at hx
  obtain rfl := List.mem_singleton.mp hx
  obtain ⟨r, hr, hle, hlt⟩ := hcovered 2 (by decide) (by decide)
  simp only [List.mem_cons, List.not_mem_nil, or_false, or_self] at hr
  subst hr
  exact absurd hlt (by decide)

end Transfer

end Aex
