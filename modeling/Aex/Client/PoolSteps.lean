import Aex.Client.Pool

/-!
# What one step of a transfer can do

Every invariant of a transfer is proved from the list of outcomes below, and not
from the functions of the threads themselves.
-/

namespace Aex

variable {n : Nat}

/-- The shared state once a thread has topped up its fetches. -/
def Shared.taken (sh : Shared n) (spec : FetchSpec) (flight : List (InFlight n)) : Shared n :=
  { sh with state := { sh.state with queue := sh.state.rest spec flight } }

/-- The outcomes of one step of a thread that owes no notification. -/
inductive Acts (settings : Settings) (sh : Shared n) (w : Worker n) :
    Event → Shared n → Worker n → Prop
  | started (hpc : w.pc = .start) : Acts settings sh w .proceed sh { w with pc := .head }
  | notSpawned (hpc : w.pc = .start) (failure : IoFailure) :
      Acts settings sh w (.spawnFailed failure) sh
        { w with pc := .leaving (some failure.toError) }
  | gaveUp (hpc : w.pc = .head) (hheld : w.held = none) (herror : sh.state.error ≠ none) :
      Acts settings sh w .proceed sh { w with pc := .leaving none }
  | reconnects (hpc : w.pc = .head) (hheld : w.held = none) (herror : sh.state.error = none) :
      Acts settings sh w .proceed sh { w with pc := .reconnecting }
  | reconnected (hpc : w.pc = .reconnecting) :
      Acts settings sh w (.connected (.ok ())) sh { w with held := some ⟨[]⟩, pc := .head }
  | notReconnected (hpc : w.pc = .reconnecting) (e : ClientError) :
      Acts settings sh w (.connected (.error e)) sh { w with pc := .leaving (some e) }
  | toppedUp (hpc : w.pc = .head) (hheld : w.held ≠ none)
      (hsome : w.flight ≠ [] ∨ sh.state.fresh settings.spec w.flight ≠ []) :
      Acts settings sh w .proceed (sh.taken settings.spec w.flight)
        { w with pc := .asking (sh.state.fresh settings.spec w.flight) }
  | finished (hpc : w.pc = .head) (hheld : w.held ≠ none) (hflight : w.flight = [])
      (hfresh : sh.state.fresh settings.spec w.flight = [])
      (hdone : sh.state.error ≠ none ∨ sh.state.remaining = 0) :
      Acts settings sh w .proceed (sh.taken settings.spec w.flight) { w with pc := .leaving none }
  | unaccounted (hpc : w.pc = .head) (hheld : w.held ≠ none) (hflight : w.flight = [])
      (hfresh : sh.state.fresh settings.spec w.flight = []) (herror : sh.state.error = none)
      (hremaining : sh.state.remaining ≠ 0) (hlive : sh.state.live = 1) (message : String) :
      Acts settings sh w .proceed (sh.taken settings.spec w.flight) (w.broke (.protocol message))
  | waits (hpc : w.pc = .head) (hheld : w.held ≠ none) (hflight : w.flight = [])
      (hfresh : sh.state.fresh settings.spec w.flight = []) (herror : sh.state.error = none)
      (hremaining : sh.state.remaining ≠ 0) (hlive : sh.state.live ≠ 1) :
      Acts settings sh w .proceed (sh.taken settings.spec w.flight) { w with pc := .waiting }
  | woken (hpc : w.pc = .waiting) : Acts settings sh w .woken sh { w with pc := .head }
  | asked (hpc : w.pc = .asking []) : Acts settings sh w .proceed sh { w with pc := .reading }
  | notClaimed {chunk : Chunk n} {fresh : List (Chunk n)} (hpc : w.pc = .asking (chunk :: fresh))
      (outcome : Except IoFailure Unit) {e : WireError}
      (hclaim : (sh.parts.get chunk.part).scatter.claim chunk.offset chunk.len = .error e) :
      Acts settings sh w (.sent outcome) sh
        { w with pc := .givingBack fresh (.ofWire e), lost := chunk :: w.lost }
  | sent {chunk : Chunk n} {fresh : List (Chunk n)} (hpc : w.pc = .asking (chunk :: fresh))
      {conn : DataConn} (hheld : w.held = some conn) {slice : ScatterSlice} {scatter : ScatterBuffer}
      (hclaim : (sh.parts.get chunk.part).scatter.claim chunk.offset chunk.len = .ok (slice, scatter)) :
      Acts settings sh w (.sent (.ok ()))
        (sh.modifyPart chunk.part fun part => { part with scatter })
        { w with
          held := some (conn.sendFetch (sh.parts.get chunk.part).requestId
            (sh.parts.get chunk.part).ticket chunk.offset chunk.len)
          flight := w.flight ++ [⟨chunk, slice, 0, []⟩]
          pc := .asking fresh }
  | notSent {chunk : Chunk n} {fresh : List (Chunk n)} (hpc : w.pc = .asking (chunk :: fresh))
      (failure : IoFailure) {slice : ScatterSlice} {scatter : ScatterBuffer}
      (hclaim : (sh.parts.get chunk.part).scatter.claim chunk.offset chunk.len = .ok (slice, scatter)) :
      Acts settings sh w (.sent (.error failure))
        (sh.modifyPart chunk.part fun part => { part with scatter })
        { w with flight := w.flight ++ [⟨chunk, slice, 0, []⟩]
                 pc := .givingBack fresh failure.toError }
  | gaveNothing {e : ClientError} (hpc : w.pc = .givingBack [] e) :
      Acts settings sh w .proceed sh (w.broke e)
  | gaveBack {fresh : List (Chunk n)} {e : ClientError} (hpc : w.pc = .givingBack fresh e) :
      Acts settings sh w .proceed
        { sh with state := { sh.state with queue := fresh ++ sh.state.queue } }
        { w.broke e with owes := true }
  | broken (hpc : w.pc = .reading) (incoming : Incoming) (e : ClientError) :
      Acts settings sh w (.received incoming) sh (w.broke e)
  | panicked (hpc : w.pc = .reading) (hflight : w.flight ≠ []) (incoming : Incoming) :
      Acts settings sh w (.received incoming) { sh with panicked := true }
        { w with pc := .clearing (.protocol "a data connection thread panicked") true }
  | pinged (hpc : w.pc = .reading) (header : FrameHeader) (payload : List UInt8)
      (htype : header.frameType = .ping ∨ header.frameType = .pong) :
      Acts settings sh w (.received (.frame header payload)) sh { w with pc := .head }
  | dataBroken (hpc : w.pc = .reading) {front : InFlight n} {rest : List (InFlight n)}
      (hflight : w.flight = front :: rest) {incoming : Incoming} {header : FrameHeader}
      {payload bytes : List UInt8} {failure : Option IoFailure} {e : ClientError}
      (hincoming : incoming = .frame header payload ∧ failure = none ∨
        ∃ f, incoming = .cut header payload f ∧ failure = some f)
      (htype : header.frameType = .data) (hformed : incoming.WellFormed)
      (hdata : DataConn.receiveData settings.build settings.expander header
        (sh.parts.get front.chunk.part).requestId front.chunk.offset
        (Vec.slice (sh.parts.get front.chunk.part).dst front.slice.offset front.slice.len)
        payload failure = (.error e, bytes)) :
      Acts settings sh w (.received incoming) (sh.write front bytes) (w.broke e)
  | accepted (hpc : w.pc = .reading) {conn : DataConn} (hheld : w.held = some conn)
      {front front' : InFlight n} {rest : List (InFlight n)} (hflight : w.flight = front :: rest)
      {header : FrameHeader} {payload bytes : List UInt8} (htype : header.frameType = .data)
      (hformed : (Incoming.frame header payload).WellFormed)
      (hdata : DataConn.receiveData settings.build settings.expander header
        (sh.parts.get front.chunk.part).requestId front.chunk.offset
        (Vec.slice (sh.parts.get front.chunk.part).dst front.slice.offset front.slice.len)
        payload none = (.ok (), bytes))
      (hfront : front' = { front with
        received := front.received + header.logicalLen
        accepted := front.accepted ++ [(header.offset, header.logicalLen)] })
      {sh' : Shared n} {w' : Worker n}
      (hnext : front'.chunk.len ≤ front'.received ∧
          sh' = Shared.release { sh.write front bytes with
            wireBytes := Word.wrappingAdd 64 sh.wireBytes header.wireLen } front' ∧
          w' = { w with
            held := some (conn.answered header), flight := rest, pc := .completing front' } ∨
        front'.received < front'.chunk.len ∧
          sh' = { sh.write front bytes with
            wireBytes := Word.wrappingAdd 64 sh.wireBytes header.wireLen } ∧
          w' = { w with
            held := some (conn.answered header), flight := front' :: rest, pc := .head }) :
      Acts settings sh w (.received (.frame header payload)) sh' w'
  | refused (hpc : w.pc = .reading) {conn : DataConn} (hheld : w.held = some conn)
      {front : InFlight n} {rest : List (InFlight n)} (hflight : w.flight = front :: rest)
      (header : FrameHeader) (payload : List UInt8) (htype : header.frameType = .error)
      (hid : header.requestId ≠ 0) {w' : Worker n}
      (hnext : (∃ message, w' = { w with
            held := none, flight := rest, lost := front.chunk :: w.lost
            pc := .clearing (.protocol message) false }) ∨
        (∃ chunk, front.chunk.retried settings.spec true = some chunk ∧ w' = { w with
            held := some (conn.answered header), flight := rest, pc := .requeuing chunk none }) ∨
        ∃ error, w' = { w with
            held := some (conn.answered header), flight := rest
            lost := front.chunk :: w.lost, pc := .failing error false }) :
      Acts settings sh w (.received (.frame header payload)) (sh.release front) w'
  | completes {done : InFlight n} (hpc : w.pc = .completing done) :
      Acts settings sh w .proceed
        { sh with
          state := { sh.state with remaining := sh.state.remaining - 1 }
          completed := done :: sh.completed }
        { w with pc := .head, owes := sh.state.remaining - 1 = 0 }
  | requeues {chunk : Chunk n} {after : Option (ClientError × Bool)}
      (hpc : w.pc = .requeuing chunk after) :
      Acts settings sh w .proceed
        { sh with state := { sh.state with
            queue := chunk :: sh.state.queue
            retries := Word.wrappingAdd 32 sh.state.retries 1 } }
        { w with owes := true, pc := Worker.resumed after }
  | drained {e : ClientError} {exhausted : Bool} (hpc : w.pc = .draining e exhausted)
      (hflight : w.flight = []) :
      Acts settings sh w .proceed sh { w with pc := if exhausted then .failing e false else .head }
  | drains {e : ClientError} {exhausted : Bool} (hpc : w.pc = .draining e exhausted)
      {older : List (InFlight n)} {newest : InFlight n} (hflight : w.flight = older ++ [newest])
      {w' : Worker n}
      (hnext : (∃ chunk, newest.chunk.retried settings.spec (older = []) = some chunk ∧
          w' = { w with flight := older, pc := .requeuing chunk (some (e, exhausted)) }) ∨
        newest.chunk.retried settings.spec (older = []) = none ∧
          w' = { w with flight := older, pc := .draining e true, lost := newest.chunk :: w.lost }) :
      Acts settings sh w .proceed (sh.release newest) w'
  | cleared {e : ClientError} {panicked : Bool} (hpc : w.pc = .clearing e panicked)
      (hflight : w.flight = []) : Acts settings sh w .proceed sh { w with pc := .failing e panicked }
  | clears {e : ClientError} {panicked : Bool} (hpc : w.pc = .clearing e panicked)
      {oldest : InFlight n} {rest : List (InFlight n)} (hflight : w.flight = oldest :: rest) :
      Acts settings sh w .proceed (sh.release oldest)
        { w with flight := rest, lost := oldest.chunk :: w.lost }
  | fails {e : ClientError} {panicked : Bool} (hpc : w.pc = .failing e panicked) :
      Acts settings sh w .proceed
        { sh with
          state := { sh.state with error := sh.state.error.or (some e) }
          failed := w.lost ++ sh.failed }
        { w with lost := [], owes := true, pc := if panicked then .leaving none else .head }
  | leaves {connError : Option ClientError} (hpc : w.pc = .leaving connError) :
      Acts settings sh w .proceed
        { sh with state := { sh.state with
            live := sh.state.live - 1
            lastConnError := connError.or sh.state.lastConnError } }
        { w with owes := true, pc := .gone }

variable {settings : Settings} {sh sh' : Shared n} {w w' : Worker n} {event : Event}

theorem acts_topUp (hpc : w.pc = .head) (hheld : w.held ≠ none) :
    Acts settings sh w .proceed (w.topUp settings sh).1 (w.topUp settings sh).2 := by
  unfold Worker.topUp
  dsimp only
  split
  · rename_i hsome
    exact .toppedUp hpc hheld hsome
  rename_i hnone
  obtain ⟨hflight, hfresh⟩ : w.flight = [] ∧ sh.state.fresh settings.spec w.flight = [] := by
    simpa only [ne_eq, not_or, not_not] using hnone
  split
  · rename_i hdone
    exact .finished hpc hheld hflight hfresh (by simpa [Option.isSome_iff_ne_none] using hdone)
  rename_i hdone
  obtain ⟨herror, hremaining⟩ : sh.state.error = none ∧ sh.state.remaining ≠ 0 := by
    simpa using hdone
  split
  · rename_i hlive
    exact .unaccounted hpc hheld hflight hfresh herror hremaining hlive _
  · rename_i hlive
    exact .waits hpc hheld hflight hfresh herror hremaining hlive

theorem acts_ask {conn : DataConn} {chunk : Chunk n} {fresh : List (Chunk n)}
    (hpc : w.pc = .asking (chunk :: fresh)) (hheld : w.held = some conn)
    (outcome : Except IoFailure Unit) :
    Acts settings sh w (.sent outcome) (w.ask sh conn chunk fresh outcome).1
      (w.ask sh conn chunk fresh outcome).2 := by
  unfold Worker.ask
  dsimp only
  split
  · rename_i e hclaim
    exact .notClaimed hpc outcome hclaim
  · rename_i slice scatter hclaim
    cases outcome with
    | error failure => exact .notSent hpc failure hclaim
    | ok _ => exact .sent hpc hheld hclaim

section Receive

variable {conn : DataConn} {front : InFlight n} {rest : List (InFlight n)}

theorem acts_dataFrame (hpc : w.pc = .reading) (hheld : w.held = some conn)
    (hflight : w.flight = front :: rest) {incoming : Incoming} {header : FrameHeader}
    {payload : List UInt8} {failure : Option IoFailure}
    (hincoming : incoming = .frame header payload ∧ failure = none ∨
      ∃ f, incoming = .cut header payload f ∧ failure = some f)
    (htype : header.frameType = .data) (hformed : incoming.WellFormed) :
    Acts settings sh w (.received incoming)
      (w.dataFrame settings sh conn front rest header payload failure).1
      (w.dataFrame settings sh conn front rest header payload failure).2 := by
  unfold Worker.dataFrame
  dsimp only
  cases hdata : DataConn.receiveData settings.build settings.expander header
      (sh.parts.get front.chunk.part).requestId front.chunk.offset
      (Vec.slice (sh.parts.get front.chunk.part).dst front.slice.offset front.slice.len)
      payload failure with
  | mk result bytes =>
      cases result with
      | error e => exact .dataBroken hpc hflight hincoming htype hformed hdata
      | ok _ =>
          rcases hincoming with ⟨rfl, rfl⟩ | ⟨f, rfl, rfl⟩
          · dsimp only
            split
            · rename_i hfull
              exact .accepted hpc hheld hflight htype hformed hdata rfl (.inl ⟨hfull, rfl, rfl⟩)
            · rename_i hmore
              exact .accepted hpc hheld hflight htype hformed hdata rfl
                (.inr ⟨by simpa using hmore, rfl, rfl⟩)
          · -- A payload that breaks off is never received.
            unfold DataConn.receiveData at hdata
            split at hdata
            · cases hdata
            · split at hdata <;> cases hdata

theorem acts_errorFrame (hpc : w.pc = .reading) (hheld : w.held = some conn)
    (hflight : w.flight = front :: rest) {header : FrameHeader} {payload : List UInt8}
    (htype : header.frameType = .error) :
    Acts settings sh w (.received (.frame header payload))
      (w.errorFrame settings sh conn front rest header payload).1
      (w.errorFrame settings sh conn front rest header payload).2 := by
  unfold Worker.errorFrame
  split
  · exact .broken hpc _ _
  rename_i error herror
  split
  · exact .broken hpc _ _
  rename_i hid
  dsimp only
  split
  · exact .refused hpc hheld hflight header payload htype hid (.inl ⟨_, rfl⟩)
  split
  · rename_i chunk hretried
    refine .refused hpc hheld hflight header payload htype hid (.inr (.inl ⟨chunk, ?_, rfl⟩))
    split at hretried
    · exact hretried
    · cases hretried
  · exact .refused hpc hheld hflight header payload htype hid (.inr (.inr ⟨error, rfl⟩))

theorem acts_receive (hpc : w.pc = .reading) (hheld : w.held = some conn)
    (hflight : w.flight = front :: rest) {incoming : Incoming} (hformed : incoming.WellFormed) :
    Acts settings sh w (.received incoming) (w.receive settings sh conn front rest incoming).1
      (w.receive settings sh conn front rest incoming).2 := by
  have hne : w.flight ≠ [] := by simp [hflight]
  cases incoming with
  | noHeader e => exact .broken hpc _ _
  | cut header part failure =>
      unfold Worker.receive
      dsimp only
      split
      · rename_i htype
        exact acts_dataFrame hpc hheld hflight (.inr ⟨failure, rfl, rfl⟩) htype hformed
      · split
        · exact .panicked hpc hne _
        · exact .broken hpc _ _
      · exact .broken hpc _ _
  | frame header payload =>
      unfold Worker.receive
      dsimp only
      split
      · rename_i htype
        exact acts_dataFrame hpc hheld hflight (.inl ⟨rfl, rfl⟩) htype hformed
      · rename_i htype
        split
        · exact .panicked hpc hne _
        · exact acts_errorFrame hpc hheld hflight htype
      · rename_i htype
        exact .pinged hpc header payload (.inl htype)
      · rename_i htype
        exact .pinged hpc header payload (.inr htype)
      · exact .broken hpc _ _

end Receive

theorem acts_drain {e : ClientError} {exhausted : Bool} (hpc : w.pc = .draining e exhausted) :
    Acts settings sh w .proceed (w.drain settings sh e exhausted).1
      (w.drain settings sh e exhausted).2 := by
  unfold Worker.drain
  cases hlast : w.flight.getLast? with
  | none => exact .drained hpc (List.getLast?_eq_none_iff.mp hlast)
  | some newest =>
      have hflight := List.dropLast_append_getLast? newest (Option.mem_def.mpr hlast)
      dsimp only
      split
      · rename_i chunk hretried
        exact .drains hpc hflight.symm (.inl ⟨chunk, hretried, rfl⟩)
      · rename_i hretried
        exact .drains hpc hflight.symm (.inr ⟨hretried, rfl⟩)

/-- Every step of a thread is one of the outcomes. -/
theorem acts_of_act (h : w.act settings sh event = some (sh', w')) :
    Acts settings sh w event sh' w' := by
  have hresult : ∀ {r : Shared n × Worker n}, some r = some (sh', w') →
      Acts settings sh w event r.1 r.2 → Acts settings sh w event sh' w' := by
    rintro r ⟨⟩ hacts
    exact hacts
  unfold Worker.act at h
  cases event with
  | proceed =>
      dsimp only at h
      split at h
      · rename_i hpc
        exact hresult h (.started hpc)
      · rename_i hpc
        split at h
        · rename_i conn hheld
          exact hresult h (acts_topUp hpc (by simp [hheld]))
        · rename_i hheld
          refine hresult h ?_
          dsimp only
          split
          · rename_i herror
            exact .gaveUp hpc hheld (Option.isSome_iff_ne_none.mp herror)
          · rename_i herror
            exact .reconnects hpc hheld (by simpa using herror)
      · rename_i hpc
        exact hresult h (.asked hpc)
      · rename_i fresh e hpc
        refine hresult h ?_
        unfold Worker.giveBack
        split
        · rename_i hfresh
          exact .gaveNothing (hfresh ▸ hpc)
        · exact .gaveBack hpc
      · rename_i done hpc
        exact hresult h (.completes hpc)
      · rename_i chunk after hpc
        exact hresult h (.requeues hpc)
      · rename_i e exhausted hpc
        exact hresult h (acts_drain hpc)
      · rename_i e panicked hpc
        refine hresult h ?_
        unfold Worker.clear
        split
        · rename_i hflight
          exact .cleared hpc hflight
        · rename_i oldest rest hflight
          exact .clears hpc hflight
      · rename_i e panicked hpc
        exact hresult h (.fails hpc)
      · rename_i connError hpc
        exact hresult h (.leaves hpc)
      · cases h
  | spawnFailed failure =>
      dsimp only at h
      split at h
      · rename_i hpc
        exact hresult h (.notSpawned hpc failure)
      · cases h
  | connected outcome =>
      dsimp only at h
      split at h
      · rename_i hpc
        exact hresult h (.reconnected hpc)
      · rename_i e hpc
        exact hresult h (.notReconnected hpc e)
      · cases h
  | sent outcome =>
      dsimp only at h
      split at h
      · rename_i chunk fresh conn hpc hheld
        exact hresult h (acts_ask hpc hheld outcome)
      · cases h
  | received incoming =>
      dsimp only at h
      split at h
      · rename_i conn front rest hpc hheld hflight
        split at h
        · rename_i hformed
          exact hresult h (acts_receive hpc hheld hflight hformed)
        · cases h
      · cases h
  | woken =>
      dsimp only at h
      split at h
      · rename_i hpc
        exact hresult h (.woken hpc)
      · cases h

namespace Transfer

variable {t t' : Transfer n} {i : Nat}

/-- A step is a thread making the notification it owes, or one that owes none acting. -/
theorem step_cases (h : t.step settings (i, event) = some t') :
    ∃ w, t.workers[i]? = some w ∧
      ((w.owes = true ∧ event = .proceed ∧ t' = { t with
          workers := (t.workers.map Worker.notified).set i { w with owes := false } }) ∨
        ∃ sh' w', w.owes = false ∧ Acts settings t.shared w event sh' w' ∧
          t' = ⟨sh', t.workers.set i w'⟩) := by
  unfold step at h
  dsimp only at h
  cases hw : t.workers[i]? with
  | none =>
      rw [hw] at h
      cases h
  | some w =>
      rw [hw] at h
      refine ⟨w, rfl, ?_⟩
      dsimp only at h
      split at h
      · rename_i howes
        split at h
        · rename_i hevent
          cases h
          exact .inl ⟨howes, hevent, rfl⟩
        · cases h
      · rename_i howes
        obtain ⟨⟨sh', w'⟩, hact, rfl⟩ := Option.map_eq_some_iff.mp h
        exact .inr ⟨sh', w', by simpa using howes, acts_of_act hact, rfl⟩

end Transfer

end Aex
