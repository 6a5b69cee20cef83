import Aex.Client.PoolClaims
import Aex.Lib.Utf8

/-!
# What a transfer fails with

A thread gives up with what its connection reported, with what its server said, or with
a complaint of its own.  Against a server whose frames a client can take there is
nothing to complain of: no thread panics, and the error a transfer ends with is one that
was reported to it.
-/

namespace Aex

open Lts Tiling

variable {n : Nat}

/-! ## Errors on their way -/

/-- The error an event reports. -/
def Event.failure : Event → Option ClientError
  | .spawnFailed f | .sent (.error f) | .received (.cut _ _ f) => some f.toError
  | .received (.noHeader e) => some (.ofWire e)
  | .connected (.error e) => some e
  | _ => none

/-- The error a thread carries. -/
def Pc.error : Pc n → Option ClientError
  | .givingBack _ e | .requeuing _ (some (e, _)) | .draining e _ | .clearing e _ | .failing e _
  | .leaving (some e) => some e
  | _ => none

/-- Whether a thread there has yet to leave, and not by unwinding. -/
def Pc.stays : Pc n → Bool
  | .clearing _ panicked | .failing _ panicked => !panicked
  | .leaving none | .gone => false
  | _ => true

/-- There is nothing left for a thread to do. -/
def Shared.Over (sh : Shared n) : Prop :=
  sh.state.error ≠ none ∨ sh.state.remaining = 0 ∨ sh.state.lastConnError ≠ none

section Causes

variable (build : Build) (Cause : ClientError → Prop)

/-- A frame a client takes: data it can expand, or an error with a cause. -/
def Frame.Sound (frame : Frame) : Prop :=
  match frame.header.frameType with
  | .data => DataConn.sane frame.header = true ∧ frame.header.codec.isSupported build = true
  | .error => Worker.oversized frame.header = false ∧ ∃ errorClass message,
      frame.payload = (ErrorPayload.mk errorClass message).encode ∧ Cause (.data errorClass message)
  | _ => True

/-- What is reported to a thread has a cause, and frames are ones it takes. -/
structure Event.Explained (event : Event) : Prop where
  failure : ∀ e ∈ event.failure, Cause e
  frame : ∀ header payload, event = .received (.frame header payload) →
    Frame.Sound build Cause ⟨header, payload⟩
  cut : ∀ header part failure, event = .received (.cut header part failure) →
    ∃ payload, Frame.Sound build Cause ⟨header, payload⟩

/-- What a thread carries has a cause, and it leaves when there is nothing left to do. -/
structure Worker.Blamed (sh : Shared n) (w : Worker n) : Prop where
  error : ∀ e ∈ w.pc.error, Cause e
  calm : ¬ w.unwinds
  ended : w.pc = .leaving none ∨ w.pc = .gone → sh.Over

structure Shared.Blamed (sh : Shared n) : Prop where
  error : ∀ e ∈ sh.state.error, Cause e
  conn : ∀ e ∈ sh.state.lastConnError, Cause e
  calm : sh.panicked = false

end Causes

variable {settings : Settings} {Cause : ClientError → Prop} {sh sh' : Shared n} {w w' : Worker n}
  {event : Event} {parts : Vector FetchPart n} {stream : Nat → List UInt8}

theorem Worker.Blamed.mono (h : w.Blamed Cause sh) (hover : sh.Over → sh'.Over) :
    w.Blamed Cause sh' := ⟨h.error, h.calm, fun hpc => hover (h.ended hpc)⟩

theorem Worker.Blamed.of_stays (herror : ∀ e ∈ w.pc.error, Cause e) (hstays : w.pc.stays = true) :
    w.Blamed Cause sh := by
  refine ⟨herror, fun hunwinds => ?_, fun hover => ?_⟩
  · rcases hunwinds with ⟨e, hpc⟩ | ⟨e, hpc⟩ <;> simp [hpc, Pc.stays] at hstays
  · rcases hover with hpc | hpc <;> simp [hpc, Pc.stays] at hstays

theorem Worker.Blamed.silent (herror : w.pc.error = none) (hstays : w.pc.stays = true) :
    w.Blamed Cause sh := .of_stays (by simp [herror]) hstays

theorem Worker.Blamed.carrying {e : ClientError} (herror : w.pc.error = some e)
    (hstays : w.pc.stays = true) (he : Cause e) : w.Blamed Cause sh :=
  .of_stays (by simpa [herror] using he) hstays

theorem Worker.Blamed.broke {e : ClientError} (he : Cause e) : (w.broke e).Blamed Cause sh := by
  unfold Worker.broke
  cases e.isIo
  · exact .carrying rfl rfl he
  · exact .carrying rfl rfl he

theorem Shared.Blamed.of_eq (h : sh.Blamed Cause) (herror : sh'.state.error = sh.state.error)
    (hconn : sh'.state.lastConnError = sh.state.lastConnError) (hcalm : sh'.panicked = sh.panicked) :
    sh'.Blamed Cause :=
  ⟨by rw [herror]; exact h.error, by rw [hconn]; exact h.conn, hcalm.trans h.calm⟩

theorem Worker.Blamed.notified (h : w.Blamed Cause sh) : w.notified.Blamed Cause sh := by
  rcases Transfer.notified_cases w with hsame | ⟨hpc, hsame⟩
  · rwa [hsame]
  · rw [hsame]
    exact .silent rfl rfl

/-! ## One step -/

/-- What is over stays over. -/
theorem Acts.ended (h : Acts settings sh w event sh' w') (hover : sh.Over) : sh'.Over := by
  unfold Shared.Over at *
  cases h with
  | accepted hpc hheld hflight htype hformed hdata hfront hnext =>
      rcases hnext with ⟨-, rfl, rfl⟩ | ⟨-, rfl, rfl⟩ <;> exact hover
  | completes => exact hover.imp_right (Or.imp_left fun h => by simp [h])
  | fails => exact .inl (by simp)
  | leaves =>
      refine hover.imp_right (Or.imp_right fun h => ?_)
      simp [h]
  | _ => exact hover

/-- A step other than of a frame adds no error but what it reports. -/
theorem Acts.blamed (h : Acts settings sh w event sh' w')
    (hreceived : ∀ incoming, event ≠ .received incoming) (hcause : ∀ e ∈ event.failure, Cause e)
    (hgranted : ∀ chunk fresh, w.pc = .asking (chunk :: fresh) →
      ∃ r, (sh.parts.get chunk.part).scatter.claim chunk.offset chunk.len = .ok r)
    (haccounted : ¬ (w.pc = .head ∧ w.held ≠ none ∧ w.flight = [] ∧
      sh.state.fresh settings.spec w.flight = [] ∧ sh.state.error = none ∧
      sh.state.remaining ≠ 0 ∧ sh.state.live = 1))
    (hsh : sh.Blamed Cause) (hw : w.Blamed Cause sh) : sh'.Blamed Cause ∧ w'.Blamed Cause sh' := by
  have hcarried : ∀ {e : ClientError}, w.pc.error = some e → Cause e := fun he => hw.error _ he
  cases h with
  | started | reconnects | reconnected | toppedUp | waits | woken | asked | sent | completes =>
      exact ⟨hsh.of_eq rfl rfl rfl, .silent rfl rfl⟩
  | gaveUp hpc hheld herror => exact ⟨hsh, by simp [Pc.error], by simp [Worker.unwinds], fun _ => .inl herror⟩
  | finished hpc hheld hflight hfresh hdone =>
      exact ⟨hsh.of_eq rfl rfl rfl, by simp [Pc.error], by simp [Worker.unwinds],
        fun _ => hdone.imp_right .inl⟩
  | notSpawned | notReconnected | notSent =>
      exact ⟨hsh.of_eq rfl rfl rfl, .carrying rfl rfl (hcause _ rfl)⟩
  | unaccounted hpc hheld hflight hfresh herror hremaining hlive =>
      exact absurd ⟨hpc, hheld, hflight, hfresh, herror, hremaining, hlive⟩ haccounted
  | notClaimed hpc outcome hclaim =>
      obtain ⟨r, hr⟩ := hgranted _ _ hpc
      rw [hclaim] at hr
      cases hr
  | gaveNothing hpc => exact ⟨hsh, .broke (hcarried (by rw [hpc]; rfl))⟩
  | @gaveBack fresh e hpc =>
      have hbroke : (w.broke e).Blamed Cause sh := .broke (hcarried (by rw [hpc]; rfl))
      exact ⟨hsh.of_eq rfl rfl rfl, hbroke.error, hbroke.calm, hbroke.ended⟩
  | broken | panicked | pinged | dataBroken | accepted | refused => exact absurd rfl (hreceived _)
  | @requeues chunk after hpc =>
      refine ⟨hsh.of_eq rfl rfl rfl, ?_⟩
      cases after with
      | none => exact .silent rfl rfl
      | some after => exact .carrying rfl rfl (hcarried (by rw [hpc]; rfl))
  | @drained e exhausted hpc hflight =>
      have he : Cause e := hcarried (by rw [hpc]; rfl)
      cases exhausted with
      | false => exact ⟨hsh, .silent rfl rfl⟩
      | true => exact ⟨hsh, .carrying rfl rfl he⟩
  | @drains e exhausted hpc older newest hflight w' hnext =>
      have he : Cause e := hcarried (by rw [hpc]; rfl)
      rcases hnext with ⟨chunk, -, rfl⟩ | ⟨-, rfl⟩
      · exact ⟨hsh.of_eq rfl rfl rfl, .carrying rfl rfl he⟩
      · exact ⟨hsh.of_eq rfl rfl rfl, .carrying rfl rfl he⟩
  | @cleared e panicked hpc hflight =>
      have hcalm := hw.calm
      cases panicked with
      | false => exact ⟨hsh, .carrying rfl rfl (hcarried (by rw [hpc]; rfl))⟩
      | true => exact absurd (.inl ⟨e, hpc⟩) hcalm
  | clears hpc hflight => exact ⟨hsh.of_eq rfl rfl rfl, hw.error, hw.calm, by simp [hpc]⟩
  | @fails e panicked hpc =>
      refine ⟨⟨fun e' he' => ?_, hsh.conn, hsh.calm⟩, ?_, ?_, fun _ => .inl (by simp)⟩
      · rw [Option.mem_def, Option.or_eq_some_iff] at he'
        cases he' with
        | inl he' => exact hsh.error _ he'
        | inr he' =>
            cases he'.2
            exact hcarried (by rw [hpc]; rfl)
      · cases panicked <;> simp [Pc.error]
      · cases panicked <;> simp [Worker.unwinds]
  | @leaves connError hpc =>
      refine ⟨⟨hsh.error, fun e he => ?_, hsh.calm⟩, by simp [Pc.error], by simp [Worker.unwinds],
        fun _ => ?_⟩
      · rw [Option.mem_def, Option.or_eq_some_iff] at he
        cases he with
        | inl he =>
            subst he
            exact hcarried (by rw [hpc]; rfl)
        | inr he => exact hsh.conn e he.2
      · cases connError with
        | none => exact hw.ended (.inl hpc)
        | some e => exact .inr (.inr (by simp))

/-! ## A frame -/

/-- An error arrives as it was sent. -/
theorem ErrorPayload.decode_encode (payload : ErrorPayload) : decode payload.encode = .ok payload := by
  obtain ⟨errorClass, message⟩ := payload
  rw [encode, decode, Utf8.lossy_toUTF8]
  cases errorClass <;> rfl

/-- What becomes of a frame in its place is up to the connection. -/
theorem DataConn.receiveData_result {build : Build} {expander : Expander} {header : FrameHeader}
    {requestId offset start : Nat} {dst payload content : List UInt8} {failure : Option IoFailure}
    (hplace : place build header requestId offset dst.length = .ok start)
    (hcontent : content.length = header.logicalLen)
    (hcarries : failure = none → Carries expander header payload content) :
    (receiveData build expander header requestId offset dst payload failure).1 =
      failure.elim (.ok ()) fun f => .error f.toError := by
  obtain ⟨-, -, -, hfits⟩ := place_spec hplace
  unfold receiveData
  rw [hplace]
  dsimp only
  split
  · cases failure <;> rfl
  · rename_i hraw
    cases failure with
    | some f => rfl
    | none =>
        have hexpands := hcarries rfl
        unfold Carries at hexpands
        rw [if_neg hraw] at hexpands
        show Except.mapError _ (expander.decompressInto header.codec payload
          (Vec.slice dst start header.logicalLen)).1 = .ok ()
        rw [hexpands _ ((Vec.length_slice hfits).trans hcontent.symm)]
        rfl

section Frame

variable {conn : DataConn} {front : InFlight n} {rest : List (InFlight n)} {header : FrameHeader}
  {payload : List UInt8}

/-- The oldest fetch outstanding is the one a thread is reading for. -/
theorem Worker.Attuned.oldest (h : w.Attuned parts) (hpc : w.pc = .reading) (hheld : w.held = some conn)
    (hflight : w.flight = front :: rest) : conn.asked.head? = some (front.asked parts) := by
  rw [h (by simp [hpc, Pc.talks]) conn hheld, hflight]
  rfl

/-- A fetch whose slice is its range of a buffer as long as the stream. -/
structure InFlight.Sits (parts : Vector FetchPart n) (stream : Nat → List UInt8) (sh : Shared n)
    (x : InFlight n) : Prop where
  names : sh.Names parts
  slice : x.slice = ⟨x.chunk.offset, x.chunk.len⟩
  inside : x.chunk.offset + x.chunk.len ≤ (sh.parts.get x.chunk.part).dst.length
  length : (sh.parts.get x.chunk.part).dst.length = (stream (parts.get x.chunk.part).requestId).length
  size : (sh.parts.get x.chunk.part).dst.length < Word.size 64

/-- Data that answers a fetch has its place in it. -/
theorem InFlight.Sits.placed (h : front.Sits parts stream sh) (htype : header.frameType = .data)
    (hanswers : Answers settings stream (front.asked parts) header payload)
    (hsound : Frame.Sound settings.build Cause ⟨header, payload⟩) :
    DataConn.place settings.build header (sh.parts.get front.chunk.part).requestId front.chunk.offset
      (Vec.slice (sh.parts.get front.chunk.part).dst front.slice.offset front.slice.len).length =
        .ok front.received := by
  have hinside := h.inside
  have hsize := h.size
  simp only [Answers, htype, InFlight.asked] at hanswers
  simp only [Frame.Sound, htype] at hsound
  rw [h.slice, Vec.length_slice hinside]
  exact DataConn.place_eq_ok (hanswers.1.trans (h.names _).1.symm) hsound.2 hsound.1 hanswers.2.1
    hanswers.2.2.2.1 (by omega)

/-- Data that answers a fetch fails only with its connection. -/
theorem Worker.dataFrame_blamed (h : front.Sits parts stream sh) (htype : header.frameType = .data)
    {whole : List UInt8} (hanswers : Answers settings stream (front.asked parts) header whole)
    (hsound : Frame.Sound settings.build Cause ⟨header, whole⟩) {failure : Option IoFailure}
    (hwhole : failure = none → whole = payload) (hcause : ∀ f ∈ failure, Cause f.toError)
    (hsh : sh.Blamed Cause) :
    (w.dataFrame settings sh conn front rest header payload failure).1.Blamed Cause ∧
      (w.dataFrame settings sh conn front rest header payload failure).2.Blamed Cause
        (w.dataFrame settings sh conn front rest header payload failure).1 := by
  have hplace := h.placed htype hanswers hsound
  have hinside := h.inside
  simp only [Answers, htype, InFlight.asked] at hanswers
  obtain ⟨-, hoffset, -, hfits, hcarries⟩ := hanswers
  have hresult := DataConn.receiveData_result hplace
    (Vec.length_slice (by rw [← h.length]; omega)) fun hnone => hwhole hnone ▸ hcarries
  unfold dataFrame
  dsimp only
  rw [hresult]
  cases failure with
  | some f => exact ⟨hsh.of_eq rfl rfl rfl, .broke (hcause f rfl)⟩
  | none =>
      dsimp only [Option.elim_none]
      split
      · exact ⟨hsh.of_eq rfl rfl rfl, .silent rfl rfl⟩
      · exact ⟨hsh.of_eq rfl rfl rfl, .silent rfl rfl⟩

/-- An error that answers a fetch is passed on, or its chunk is tried again. -/
theorem Worker.errorFrame_blamed (h : front.Sits parts stream sh) (htype : header.frameType = .error)
    (hanswers : Answers settings stream (front.asked parts) header payload)
    (hid : (parts.get front.chunk.part).requestId ≠ 0)
    (hsound : Frame.Sound settings.build Cause ⟨header, payload⟩) (hsh : sh.Blamed Cause) :
    (w.errorFrame settings sh conn front rest header payload).1.Blamed Cause ∧
      (w.errorFrame settings sh conn front rest header payload).2.Blamed Cause
        (w.errorFrame settings sh conn front rest header payload).1 := by
  simp only [Answers, htype, InFlight.asked] at hanswers
  simp only [Frame.Sound, htype] at hsound
  obtain ⟨-, errorClass, message, rfl, hcause⟩ := hsound
  unfold errorFrame DataConn.receiveError
  rw [ErrorPayload.decode_encode]
  dsimp only
  rw [if_neg (by rw [hanswers.1]; exact hid), if_neg (by
    rw [hanswers.1, (h.names _).1]
    simpa using hanswers.2)]
  split
  · exact ⟨hsh.of_eq rfl rfl rfl, .silent rfl rfl⟩
  · exact ⟨hsh.of_eq rfl rfl rfl, .carrying rfl rfl hcause⟩

/-- What a thread reads adds no error but what its connection or its server reports. -/
theorem Worker.receive_blamed (h : front.Sits parts stream sh)
    (hattuned : w.Attuned parts) (hpc : w.pc = .reading) (hheld : w.held = some conn)
    (hflight : w.flight = front :: rest) (hid : (parts.get front.chunk.part).requestId ≠ 0)
    {incoming : Incoming} (hhears : w.Hears settings stream (.received incoming))
    (hexplained : (Event.received incoming).Explained settings.build Cause) (hsh : sh.Blamed Cause) :
    (w.receive settings sh conn front rest incoming).1.Blamed Cause ∧
      (w.receive settings sh conn front rest incoming).2.Blamed Cause
        (w.receive settings sh conn front rest incoming).1 := by
  have holdest := hattuned.oldest hpc hheld hflight
  cases incoming with
  | noHeader e => exact ⟨hsh, .broke (hexplained.failure _ rfl)⟩
  | cut header part failure =>
      obtain ⟨oldest, hmem, whole, -, hanswers⟩ := hhears conn hheld
      rw [holdest, Option.mem_some_iff] at hmem
      subst hmem
      obtain ⟨payload, hsound⟩ := hexplained.cut header part failure rfl
      have hcause : Cause failure.toError := hexplained.failure _ rfl
      unfold receive
      dsimp only
      split
      · rename_i htype
        have hwhole : Frame.Sound settings.build Cause ⟨header, whole⟩ := by
          simp only [Frame.Sound, htype] at hsound ⊢
          exact hsound
        exact dataFrame_blamed h htype hanswers hwhole (by simp) (by simpa using hcause) hsh
      · rename_i htype
        simp only [Frame.Sound, htype] at hsound
        rw [hsound.1, if_neg Bool.false_ne_true]
        exact ⟨hsh, .broke hcause⟩
      · exact ⟨hsh, .broke hcause⟩
  | frame header payload =>
      obtain ⟨oldest, hmem, hanswers⟩ := hhears conn hheld
      rw [holdest, Option.mem_some_iff] at hmem
      subst hmem
      have hsound := hexplained.frame header payload rfl
      unfold receive
      dsimp only
      split
      · rename_i htype
        exact dataFrame_blamed h htype hanswers hsound (fun _ => rfl) (by simp) hsh
      · rename_i htype
        have hsmall := hsound
        simp only [Frame.Sound, htype] at hsmall
        rw [hsmall.1, if_neg Bool.false_ne_true]
        exact errorFrame_blamed h htype hanswers hid hsound hsh
      · exact ⟨hsh, .silent rfl rfl⟩
      · exact ⟨hsh, .silent rfl rfl⟩
      · rename_i htype
        simp only [Answers, htype] at hanswers

end Frame

/-! ## Runs -/

namespace Transfer

variable {pool : DataPool} {t t' : Transfer n}

/-- Every error of a transfer has a cause, and threads leave when it is over. -/
structure Blamed (Cause : ClientError → Prop) (t : Transfer n) : Prop where
  shared : t.shared.Blamed Cause
  workers : ∀ w ∈ t.workers, w.Blamed Cause t.shared
  ended : t.workers = [] → t.shared.Over

/-- What a thread hears is an honest server's, and nothing in it is for the client to
complain of. -/
def Explained (settings : Settings) (stream : Nat → List UInt8) (Cause : ClientError → Prop)
    (t : Transfer n) (label : Nat × Event) : Prop :=
  t.Honest settings stream label ∧ label.2.Explained settings.build Cause

theorem Blamed.of_start (pool : DataPool) (parts : Vector FetchPart n) :
    (start pool parts).Blamed Cause := by
  refine ⟨⟨by simp [start], by simp [start], rfl⟩, fun w hw => ?_, fun hnone => .inr (.inl ?_)⟩
  · obtain ⟨held, -, rfl⟩ := List.mem_map.mp hw
    exact .silent rfl rfl
  · -- Only a transfer of nothing needs no thread.
    have hpos := List.length_pos_iff.mpr pool.nonempty
    have hlen := congrArg List.length hnone
    simp only [start, List.length_map, List.length_take, List.length_nil] at hlen
    show (chunksOf parts).length = 0
    omega

theorem Blamed.set {i : Nat} (h : t.Blamed Cause) (hshared : sh'.Blamed Cause)
    (hw : w'.Blamed Cause sh') (hover : t.shared.Over → sh'.Over) :
    Blamed Cause ⟨sh', t.workers.set i w'⟩ := by
  refine ⟨hshared, Threads.forall_mem_set (fun z hz => (h.workers z hz).mono hover) hw, fun hnone => ?_⟩
  exact hover (h.ended (by simpa using hnone))

theorem Blamed.notify {i : Nat} (h : t.Blamed Cause) (hw : w ∈ t.workers) : Blamed Cause { t with
    workers := (t.workers.map Worker.notified).set i { w with owes := false } } := by
  have hwoken : ∀ z ∈ t.workers.map Worker.notified, z.Blamed Cause t.shared := by
    intro z hz
    obtain ⟨y, hy, rfl⟩ := List.mem_map.mp hz
    exact (h.workers y hy).notified
  have hself := h.workers w hw
  refine ⟨h.shared, Threads.forall_mem_set hwoken ⟨hself.error, hself.calm, hself.ended⟩, fun hnone => ?_⟩
  exact h.ended (by simpa using hnone)

/-- A thread that reads is past its notifications, and has a fetch outstanding. -/
theorem step_received {i : Nat} {incoming : Incoming}
    (h : t.step settings (i, .received incoming) = some t') (hw : t.workers[i]? = some w) :
    ∃ conn front rest, w.pc = .reading ∧ w.held = some conn ∧ w.flight = front :: rest ∧
      t' = ⟨(w.receive settings t.shared conn front rest incoming).1,
        t.workers.set i (w.receive settings t.shared conn front rest incoming).2⟩ := by
  unfold step at h
  dsimp only at h
  rw [hw] at h
  dsimp only at h
  split at h
  · split at h
    · rename_i hevent
      cases hevent
    · cases h
  obtain ⟨⟨sh, w'⟩, hact, rfl⟩ := Option.map_eq_some_iff.mp h
  unfold Worker.act at hact
  dsimp only at hact
  split at hact
  · rename_i conn front rest hpc hheld hflight
    split at hact
    · have hreceive := Option.some.inj hact
      exact ⟨conn, front, rest, hpc, hheld, hflight, by rw [hreceive]⟩
    · cases hact
  · cases hact

/-- What a batch of this size asks for is a transfer of the client's own. -/
structure Posed (pool : DataPool) (parts : Vector FetchPart n) (stream : Nat → List UInt8) : Prop where
  idle : ∀ held ∈ pool.conns, ∀ conn ∈ held, conn.asked = []
  cut : Cut parts
  ids : ∀ k : Fin n, (parts.get k).requestId ≠ 0
  lengths : ∀ k : Fin n, (stream (parts.get k).requestId).length = (parts.get k).dst.length
  sizes : ∀ k : Fin n, (parts.get k).dst.length < Word.size 64

section Step

variable (hposed : Posed pool parts stream)
include hposed

theorem blamed_step (hrun : (system settings pool parts).ReachableWhere (Honest settings stream) t)
    (h : t.Blamed Cause) {label : Nat × Event} (hexplained : t.Explained settings stream Cause label)
    (hstep : t.step settings label = some t') : t'.Blamed Cause := by
  obtain ⟨i, event⟩ := label
  obtain ⟨hhonest, hevent⟩ := hexplained
  obtain ⟨w, hw, hcases⟩ := step_cases hstep
  have hmem := List.mem_of_getElem? hw
  have hconserved := conserved hrun.reachable
  have hdelivered := delivered hposed.idle (fun k => (hposed.cut k).partitions) hposed.lengths hrun
  cases hcases with
  | inl howing =>
      rw [howing.2.2]
      exact h.notify hmem
  | inr hacting =>
      obtain ⟨sh', w', howes, hacts, rfl⟩ := hacting
      have hover := hacts.ended
      by_cases hreceived : ∃ incoming, event = .received incoming
      · obtain ⟨incoming, rfl⟩ := hreceived
        obtain ⟨conn, front, rest, hpc, hheld, hflight, heq⟩ := step_received hstep hw
        have hrecord : front ∈ w.records := by simp [Worker.records, hflight]
        have hlen := hdelivered.length front.chunk.part
        have hsits : front.Sits parts stream t.shared :=
          { names := hdelivered.names
            slice := hdelivered.slice w hmem front hrecord
            inside := by
              rw [hlen]
              exact ((hposed.cut _).bounds (hconserved.mem_chunks hmem hrecord)).2.2
            length := by rw [hlen, hposed.lengths]
            size := by
              rw [hlen]
              exact hposed.sizes _ }
        have hread := @Worker.receive_blamed n settings Cause t.shared w parts stream conn front rest hsits
          (hdelivered.attuned w hmem) hpc hheld hflight (hposed.ids _) incoming (hhonest w hw) hevent h.shared
        rw [Transfer.mk.injEq] at heq
        rw [heq.1] at hover
        rw [heq.1, heq.2]
        exact h.set hread.1 hread.2 hover
      · have hblamed := hacts.blamed (fun incoming heq => hreceived ⟨incoming, heq⟩) hevent.failure
          (fun chunk fresh hpc =>
            (registered hposed.cut hrun.reachable).granted hconserved hposed.cut hposed.sizes hmem hpc)
          (fun hnone => hconserved.not_unaccounted hmem ⟨howes, hnone⟩) h.shared (h.workers w hmem)
        exact h.set hblamed.1 hblamed.2 hover

/-- In every run in which what is reported has a cause, every error of the transfer has one. -/
theorem blamed (h : (system settings pool parts).ReachableWhere (Explained settings stream Cause) t) :
    t.Blamed Cause := by
  refine (System.Inductive.holds (P := Explained settings stream Cause)
    (I := fun t => (system settings pool parts).ReachableWhere (Honest settings stream) t ∧
      t.Blamed Cause) ⟨?_, ?_⟩ h).2
  · intro s hs
    rw [show s = start pool parts from hs]
    exact ⟨.start, .of_start pool parts⟩
  · intro s s' label hs hexplained hstep
    exact ⟨hs.1.snoc label hexplained.1 hstep, blamed_step hposed hs.1 hs.2 hexplained hstep⟩

end Step

/-- A transfer ends well, or with an error that has a cause. -/
theorem Blamed.outcome_cases (h : t.Blamed Cause) {outcome : Outcome}
    (houtcome : t.outcome = some outcome) :
    (∃ fetched, outcome = .ok fetched) ∨ ∃ e, outcome = .err e ∧ Cause e := by
  unfold Transfer.outcome at houtcome
  split at houtcome
  · rename_i hjoined
    rw [Option.some.injEq, h.shared.calm, if_neg Bool.false_ne_true] at houtcome
    have hover : t.shared.Over := by
      cases hworkers : t.workers with
      | nil => exact h.ended hworkers
      | cons w rest =>
          have hmem : w ∈ t.workers := by
            rw [hworkers]
            exact List.mem_cons_self
          exact (h.workers w hmem).ended (.inr (hjoined w hmem).1)
    cases herror : t.shared.state.error with
    | some e =>
        rw [herror] at houtcome
        exact .inr ⟨e, houtcome.symm, h.shared.error e herror⟩
    | none =>
        rw [herror] at houtcome
        dsimp only at houtcome
        split at houtcome
        · -- Threads that left with chunks remaining left connections behind them.
          obtain ⟨e, hconn⟩ : ∃ e, t.shared.state.lastConnError = some e := by
            rcases hover with hsome | hzero | hsome
            · exact absurd herror hsome
            · omega
            · exact Option.ne_none_iff_exists'.mp hsome
          rw [hconn, Option.getD_some] at houtcome
          exact .inr ⟨e, houtcome.symm, h.shared.conn e hconn⟩
        · exact .inl ⟨_, houtcome.symm⟩
  · cases houtcome

end Transfer

end Aex
