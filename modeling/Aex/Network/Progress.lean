import Aex.Client.PoolProgress
import Aex.Network.Failures

/-!
# A transfer ends

Client and server never wait for each other: while a transfer has not come back, some
step is open that is neither a failure nor a thread waking up by itself.  And no run goes
on for ever, whatever fails in it, so that every transfer comes back.
-/

namespace Aex

open Lts Tiling Transfer

variable {n : Nat}

/-! ## Frames sent whole -/

/-- A connection with fetches under way one way, and the other way bytes or errors whose
payload is as long as its header says. -/
structure Link.Whole (link : Link) : Prop where
  asks : ∀ ask ∈ link.asks, ∃ requestId ticket offset len, ask = .fetch requestId ticket offset len
  formed : ∀ frame ∈ link.replies, frame.payload.length = frame.header.wireLen
  types : ∀ frame ∈ link.replies, frame.header.frameType = .data ∨ frame.header.frameType = .error

section Whole

variable {ctx : Context} {session : SessionId} {moment : Moment} {link link' : Link}

theorem SentFor.formed {requestId : Nat} {frame : Frame} (h : SentFor ctx moment requestId frame) :
    frame.payload.length = frame.header.wireLen ∧
      (frame.header.frameType = .data ∨ frame.header.frameType = .error) := by
  rcases h with ⟨header, errorClass, message, rfl⟩ | ⟨entry, offset, bytes, -, hpiece⟩
  · exact ⟨rfl, .inr rfl⟩
  · rcases pieceFrame_cases hpiece with rfl | ⟨spec, stream, -, -, -, rfl⟩
    · exact ⟨rfl, .inl rfl⟩
    · exact ⟨rfl, .inl rfl⟩

namespace Link.Whole

theorem of_idle : Link.idle.Whole := ⟨by simp [Link.idle], by simp [Link.idle], by simp [Link.idle]⟩

theorem served (h : link.Whole) (hserved : link.served ctx session moment = some link') : link'.Whole := by
  unfold Link.served at hserved
  split at hserved
  · cases hserved
  split at hserved
  · cases hserved
  rename_i ask asks hasks
  have hfetches := h.asks
  rw [hasks, List.forall_mem_cons] at hfetches
  obtain ⟨⟨requestId, ticket, offset, len, rfl⟩, hrest⟩ := hfetches
  cases hserved
  have hsent := fun frame hframe =>
    (@answer_sent ctx session moment requestId ticket offset len moment.registry frame hframe).formed
  refine ⟨hrest, fun frame hframe => ?_, fun frame hframe => ?_⟩
  · exact (List.mem_append.mp hframe).elim (h.formed frame) fun hnew => (hsent frame hnew).1
  · exact (List.mem_append.mp hframe).elim (h.types frame) fun hnew => (hsent frame hnew).2

theorem heard (h : link.Whole) {sends : List ClientFrame} {event : Event}
    (hsends : ∀ ask ∈ sends, ∃ requestId ticket offset len, ask = .fetch requestId ticket offset len)
    (hheard : link.heard sends event = some link') : link'.Whole := by
  unfold Link.heard at hheard
  split at hheard
  · cases hheard
    exact .of_idle
  · split at hheard
    · cases hheard
    rename_i frame replies hreplies
    split at hheard
    · cases hheard
      have hformed := h.formed
      have htypes := h.types
      rw [hreplies, List.forall_mem_cons] at hformed htypes
      exact ⟨h.asks, hformed.2, htypes.2⟩
    · cases hheard
  · split at hheard
    · cases hheard
    split at hheard
    · cases hheard
      exact h
    · cases hheard
  · split at hheard
    · cases hheard
      exact h
    · cases hheard
  · cases hheard
    exact ⟨fun ask hask => (List.mem_append.mp hask).elim (h.asks ask) (hsends ask), h.formed, h.types⟩

end Link.Whole

theorem Worker.sends_fetch {sh : Shared n} {w : Worker n} {event : Event} {ask : ClientFrame}
    (h : ask ∈ w.sends sh event) : ∃ requestId ticket offset len, ask = .fetch requestId ticket offset len := by
  unfold Worker.sends at h
  split at h
  · split at h
    · dsimp only at h
      split at h
      · exact ⟨_, _, _, _, List.mem_singleton.mp h⟩
      · cases h
    · cases h
  · cases h

/-- A thread sends one fetch at a time. -/
theorem Worker.length_sends (sh : Shared n) (w : Worker n) (event : Event) :
    (w.sends sh event).length ≤ if event = .sent (.ok ()) then 1 else 0 := by
  unfold Worker.sends
  split
  · rw [if_pos rfl]
    split
    · dsimp only
      split
      · exact Nat.le_refl _
      · exact Nat.zero_le _
    · exact Nat.zero_le _
  · exact Nat.zero_le _

end Whole

namespace Link

variable {ctx : Context} {session : SessionId} {moment : Moment} {link link' : Link}

theorem length_served (h : link.served ctx session moment = some link') :
    link'.asks.length + 1 = link.asks.length := by
  unfold served at h
  split at h
  · cases h
  split at h
  · cases h
  rename_i ask asks hasks
  cases h
  rw [hasks]
  rfl

theorem length_heard {sends : List ClientFrame} {event : Event} (h : link.heard sends event = some link') :
    link'.asks.length ≤ link.asks.length + sends.length := by
  unfold heard at h
  split at h
  · cases h
    exact Nat.zero_le _
  · split at h
    · cases h
    split at h
    · cases h
      exact Nat.le_add_right _ _
    · cases h
  · split at h
    · cases h
    split at h
    · cases h
      exact Nat.le_add_right _ _
    · cases h
  · split at h
    · cases h
      exact Nat.le_add_right _ _
    · cases h
  · cases h
    exact Nat.le_of_eq List.length_append

end Link

/-! ## Nobody waits for nothing -/

/-- What a thread does by itself, and calls on its connection that come off. -/
def Event.Plain (event : Event) : Prop :=
  event = .proceed ∨ event = .connected (.ok ()) ∨ event = .sent (.ok ())

/-- A thread that neither waits nor reads can go on. -/
theorem Worker.act_plain (settings : Settings) (sh : Shared n) {w : Worker n} (hok : w.Ok)
    (hgone : w.pc ≠ .gone) (hwaiting : w.pc ≠ .waiting) (hreading : w.pc ≠ .reading) :
    ∃ event : Event, event.Plain ∧ (w.act settings sh event).isSome = true := by
  unfold Worker.Ok at hok
  cases hpc : w.pc with
  | gone => exact absurd hpc hgone
  | waiting => exact absurd hpc hwaiting
  | reading => exact absurd hpc hreading
  | reconnecting => exact ⟨.connected (.ok ()), .inr (.inl rfl), by simp [Worker.act, hpc]⟩
  | asking fresh =>
      rw [hpc] at hok
      obtain ⟨conn, hheld⟩ := Option.ne_none_iff_exists'.mp hok.2.1
      cases fresh with
      | nil => exact ⟨.proceed, .inl rfl, by simp [Worker.act, hpc]⟩
      | cons chunk fresh => exact ⟨.sent (.ok ()), .inr (.inr rfl), by simp [Worker.act, hpc, hheld]⟩
  | head =>
      refine ⟨.proceed, .inl rfl, ?_⟩
      cases hheld : w.held <;> simp [Worker.act, hpc, hheld]
  | _ => exact ⟨.proceed, .inl rfl, by simp [Worker.act, hpc]⟩

theorem Link.heard_plain (link : Link) (sends : List ClientFrame) {event : Event} (h : event.Plain) :
    ∃ link', link.heard sends event = some link' := by
  rcases h with rfl | rfl | rfl
  · exact ⟨_, rfl⟩
  · exact ⟨_, rfl⟩
  · exact ⟨_, rfl⟩

namespace Net

variable {settings : Settings} {ctx : Context} {session : SessionId} {pool : DataPool}
  {parts : Vector FetchPart n} {stream : Nat → List UInt8} {expanders : Expanders} {client : Build}
  {display : F64 → String} {net net' : Net n}

/-- Each thread has a connection, and all of them carry frames sent whole. -/
structure Wires (net : Net n) : Prop where
  length : net.links.length = net.transfer.workers.length
  whole : ∀ link ∈ net.links, link.Whole

theorem length_workers {t t' : Transfer n} {label : Nat × Event}
    (h : t.step settings label = some t') : t'.workers.length = t.workers.length := by
  obtain ⟨i, event⟩ := label
  obtain ⟨w, -, ⟨-, -, rfl⟩ | ⟨sh', w', -, -, rfl⟩⟩ := step_cases h
  · simp
  · simp

theorem wires_step {label : Label} (h : net.Wires) (hstep : step settings ctx session net label = some net') :
    net'.Wires ∧ net'.transfer.workers.length = net.transfer.workers.length := by
  cases label with
  | client i event =>
      obtain ⟨transfer, htransfer, hstep⟩ := Option.bind_eq_some_iff.mp hstep
      obtain ⟨w, hw, hstep⟩ := Option.bind_eq_some_iff.mp hstep
      obtain ⟨link, hlink, hstep⟩ := Option.bind_eq_some_iff.mp hstep
      obtain ⟨link', hheard, hstep⟩ := Option.bind_eq_some_iff.mp hstep
      cases hstep
      have hlength := length_workers htransfer
      refine ⟨⟨by simp [h.length, hlength], Threads.forall_mem_set h.whole ?_⟩, hlength⟩
      exact (h.whole link (List.mem_of_getElem? hlink)).heard (fun ask hask => Worker.sends_fetch hask) hheard
  | server i moment =>
      obtain ⟨link, hlink, hstep⟩ := Option.bind_eq_some_iff.mp hstep
      obtain ⟨link', hserved, hstep⟩ := Option.bind_eq_some_iff.mp hstep
      cases hstep
      refine ⟨⟨by simp [h.length], Threads.forall_mem_set h.whole ?_⟩, rfl⟩
      exact (h.whole link (List.mem_of_getElem? hlink)).served hserved

/-- Threads neither come nor go. -/
theorem wires {P : Net n → Label → Prop} (h : (system settings ctx session pool parts).ReachableWhere P net) :
    net.Wires ∧ net.transfer.workers.length = (start pool parts).transfer.workers.length := by
  refine System.Inductive.holds (P := P) (I := fun net =>
    net.Wires ∧ net.transfer.workers.length = (start pool parts).transfer.workers.length) ⟨?_, ?_⟩ h
  · intro s hs
    rw [show s = start pool parts from hs]
    refine ⟨⟨by simp [start], fun link hlink => ?_⟩, rfl⟩
    obtain ⟨w, -, rfl⟩ := List.mem_map.mp hlink
    exact .of_idle
  · intro s s' label hs _ hstep
    have hkept := wires_step hs.1 hstep
    exact ⟨hkept.1, hkept.2.trans hs.2⟩

/-- A step that is no failure, and no thread waking up by itself: a thread finds its
connection at an end only once the server has hung up on it. -/
def Smooth (net : Net n) : Label → Prop
  | .client i (.received (.noHeader _)) =>
      ∃ link, net.links[i]? = some link ∧ link.closed = true ∧ link.replies = []
  | .client _ (.received (.frame _ _)) => True
  | .client _ event => event.Plain
  | .server _ _ => True

theorem step_client {i : Nat} {event : Event} {transfer : Transfer n} {w : Worker n} {link link' : Link}
    (hstep : net.transfer.step settings (i, event) = some transfer)
    (hw : net.transfer.workers[i]? = some w) (hlink : net.links[i]? = some link)
    (hheard : link.heard (w.sends net.transfer.shared event) event = some link') :
    step settings ctx session net (.client i event) = some ⟨transfer, net.links.set i link'⟩ := by
  simp only [step, hstep, hw, hlink, hheard, Option.bind_eq_bind, Option.bind_some]

/-- Some step is open that is no failure, the server finding its registry like this if it is
the one to move. -/
def Open (settings : Settings) (ctx : Context) (session : SessionId) (moment : Moment) (net : Net n) : Prop :=
  ∃ label net', Smooth net label ∧ (∀ i m, label = .server i m → m = moment) ∧
    step settings ctx session net label = some net'

section Thread

variable {moment : Moment} {i : Nat} {w : Worker n} {link : Link}

theorem step_act (hi : net.transfer.workers[i]? = some w) (howes : w.owes = false) {event : Event}
    {moved : Shared n × Worker n} (hact : w.act settings net.transfer.shared event = some moved) :
    net.transfer.step settings (i, event) = some ⟨moved.1, net.transfer.workers.set i moved.2⟩ := by
  simp only [Transfer.step, hi, howes, hact, Option.map_some]
  rfl

theorem open_of_plain (hi : net.transfer.workers[i]? = some w) (hlink : net.links[i]? = some link)
    {event : Event} (hevent : event.Plain) {transfer : Transfer n}
    (hstep : net.transfer.step settings (i, event) = some transfer) : Open settings ctx session moment net := by
  obtain ⟨link', hheard⟩ := link.heard_plain (w.sends net.transfer.shared event) hevent
  refine ⟨.client i event, _, ?_, by simp, step_client hstep hi hlink hheard⟩
  rcases hevent with rfl | rfl | rfl
  · exact .inl rfl
  · exact .inr (.inl rfl)
  · exact .inr (.inr rfl)

/-- What a thread reads for is there, or the server has yet to send it, or has hung up. -/
theorem open_of_reading (hi : net.transfer.workers[i]? = some w) (hlink : net.links[i]? = some link)
    (howes : w.owes = false) (hreading : w.pc = .reading) {conn : DataConn} (hheld : w.held = some conn)
    (hflight : w.flight ≠ []) (hasked : conn.asked ≠ []) (hwhole : link.Whole)
    (hcarries : link.Carries settings stream (AsksFor parts) conn) : Open settings ctx session moment net := by
  obtain ⟨front, rest, hcons⟩ := List.exists_cons_of_ne_nil hflight
  have hreads : ∀ (incoming : Incoming) (link' : Link), incoming.WellFormed →
      link.heard (w.sends net.transfer.shared (.received incoming)) (.received incoming) = some link' →
      ∃ net', step settings ctx session net (.client i (.received incoming)) = some net' := by
    intro incoming link' hformed hheard
    have hact : w.act settings net.transfer.shared (.received incoming) =
        some (w.receive settings net.transfer.shared conn front rest incoming) := by
      simp only [Worker.act, hreading, hheld, hcons, if_pos hformed]
    exact ⟨_, step_client (step_act hi howes hact) hi hlink hheard⟩
  obtain ⟨left, hreplies, hopen⟩ := hcarries.replies
  cases hfront : link.replies with
  | cons frame replies =>
      have hframe : frame ∈ link.replies := hfront ▸ List.mem_cons_self
      have hformed : (Incoming.frame frame.header frame.payload).WellFormed := by
        rw [Incoming.WellFormed, hwhole.formed frame hframe, Incoming.hasPayload]
        rcases hwhole.types frame hframe with htype | htype <;> simp [htype]
      obtain ⟨net', hstep⟩ := hreads (.frame frame.header frame.payload) { link with replies } hformed
        (by simp only [Link.heard, hfront, if_true])
      exact ⟨.client i (.received (.frame frame.header frame.payload)), net', trivial, by simp, hstep⟩
  | nil =>
      rw [hfront] at hreplies
      have hleft : conn = left := hreplies
      cases hclosed : link.closed with
      | true =>
          obtain ⟨net', hstep⟩ := hreads (.noHeader (.io .unexpectedEof "failed to fill whole buffer"))
            link trivial rfl
          exact ⟨.client i (.received (.noHeader _)), net', ⟨link, hlink, hclosed, hfront⟩, by simp, hstep⟩
      | false =>
          have hasks : link.asks ≠ [] := by
            intro hnil
            rw [hleft, hopen hclosed, hnil] at hasked
            exact hasked rfl
          obtain ⟨ask, asks, hnext⟩ := List.exists_cons_of_ne_nil hasks
          obtain ⟨link', hserved⟩ : ∃ link', link.served ctx session moment = some link' := by
            simp only [Link.served, hclosed, hnext]
            exact ⟨_, rfl⟩
          refine ⟨.server i moment, { net with links := net.links.set i link' }, trivial, ?_, ?_⟩
          · intro j m hlabel
            cases hlabel
            rfl
          · simp only [step, hlink, hserved, Option.bind_eq_bind, Option.bind_some]

end Thread

/-- In every run of a transfer against the server, whatever has failed in it: while the
transfer has not come back, a thread or the server can take a step that is no failure. -/
theorem goes_on (settings : Settings) (ctx : Context) (session : SessionId) (pool : DataPool)
    (parts : Vector FetchPart n) (stream : Nat → List UInt8) (expanders : Expanders) (client : Build)
    (display : F64 → String) (hexpander : settings.expander = expanders.toExpander client display)
    (hinverse : Inverse ctx.compressors expanders) (hasks : Asks pool parts stream)
    (h : (system settings ctx session pool parts).ReachableWhere (Streams ctx.build stream parts) net)
    (houtcome : net.transfer.outcome = none) (moment : Moment) : Open settings ctx session moment net := by
  have hinv := @inv n settings stream ctx session pool parts expanders client display net hasks
    hexpander hinverse h
  have hwires := (wires h).1
  obtain ⟨w, hw, hmoves⟩ := exists_moving hinv.honest.reachable houtcome
  have hok := (conserved hinv.honest.reachable).ok w hw
  obtain ⟨i, hi⟩ := List.getElem?_of_mem hw
  have hlt : i < net.links.length := hwires.length ▸ (List.getElem?_eq_some_iff.mp hi).1
  have hlink := List.getElem?_eq_getElem hlt
  cases howes : w.owes with
  | true =>
      have hstep : net.transfer.step settings (i, .proceed) = some { net.transfer with
          workers := (net.transfer.workers.map Worker.notified).set i { w with owes := false } } := by
        simp only [Transfer.step, hi, howes, if_true]
      exact open_of_plain hi hlink (.inl rfl) hstep
  | false =>
      obtain ⟨hgone, hwaiting⟩ := hmoves.resolve_left (by rw [howes]; exact Bool.false_ne_true)
      by_cases hreading : w.pc = .reading
      · have htalks : w.pc.talks = true := by simp [hreading, Pc.talks]
        simp only [Worker.Ok, hreading] at hok
        obtain ⟨conn, hheld⟩ := Option.ne_none_iff_exists'.mp hok.2.1
        have hdelivered := delivered hasks.idle hasks.tiled hasks.lengths hinv.honest
        have hasked : conn.asked ≠ [] := by
          rw [hdelivered.attuned w hw htalks conn hheld]
          simpa using hok.2.2
        exact open_of_reading hi hlink howes hreading hheld hok.2.2 hasked
          (hwires.whole _ (List.getElem_mem hlt)) (hinv.linked i w _ hi hlink htalks conn hheld)
      · obtain ⟨event, hevent, hsome⟩ := w.act_plain settings net.transfer.shared hok hgone hwaiting hreading
        obtain ⟨moved, hmoved⟩ := Option.isSome_iff_exists.mp hsome
        exact open_of_plain hi hlink hevent (step_act hi howes hmoved)

/-- A connection has broken off as its thread asked for the row. -/
theorem goes_on_broken : ∃ net : Net 1, net.transfer.outcome = none ∧
    Open zerosSettings (zerosContext .builtIn) (Vector.replicate 16 0) lowerRowMoment net := by
  have hbroken : ((refusedRun.take 3).foldlM (step zerosSettings (zerosContext .builtIn)
      (Vector.replicate 16 0)) (start Transfer.onePool Transfer.fourBytes)).map
        (fun net => net.transfer.outcome) = some none := by decide +kernel
  obtain ⟨net, hnet, houtcome⟩ := Option.map_eq_some_iff.mp hbroken
  have hreach : (system zerosSettings (zerosContext .builtIn) (Vector.replicate 16 0)
      Transfer.onePool Transfer.fourBytes).ReachableWhere (Streams (zerosContext .builtIn).build
        (fun _ => lowerRow.stream fun _ narrow _ => Vector.replicate narrow.itemsize 0)
        Transfer.fourBytes) net := by
    refine System.reachableWhere_of_labels ?_ hnet
    intro label hlabel net
    obtain ⟨event, rfl, -⟩ := refusedRun_failure label (List.mem_of_mem_take hlabel)
    trivial
  exact ⟨net, houtcome, goes_on zerosSettings (zerosContext .builtIn) (Vector.replicate 16 0)
    Transfer.onePool Transfer.fourBytes
    (fun _ => lowerRow.stream fun _ narrow _ => Vector.replicate narrow.itemsize 0) zerosExpanders
    ⟨false, true⟩ (fun _ => "") rfl zeros_inverse asks_fourBytes hreach houtcome lowerRowMoment⟩

/-! ## No run goes on for ever -/

/-- A thread wakes up without having been notified. -/
def Spurious : Label → Prop
  | .client _ event => event = .woken
  | .server _ _ => False

/-- What a thread takes off its connection gets it further. -/
theorem Inv.informs (hasks : Asks pool parts stream) (h : net.Inv settings stream pool parts)
    (hwires : net.Wires) {i : Nat} {event : Event} {transfer : Transfer n} {w : Worker n}
    {link link' : Link} (hstep : net.transfer.step settings (i, event) = some transfer)
    (hw : net.transfer.workers[i]? = some w) (hlink : net.links[i]? = some link)
    (hheard : link.heard (w.sends net.transfer.shared event) event = some link')
    (hwoken : event ≠ .woken) : event.Informs := by
  have hhears := h.hears hasks hstep hw hlink hheard
  have hok := (conserved h.honest.reachable).ok w (List.mem_of_getElem? hw)
  cases event with
  | woken => exact absurd rfl hwoken
  | received incoming =>
      cases incoming with
      | frame header payload =>
          obtain ⟨replies, hreplies, -⟩ := heard_frame hheard
          refine ((hwires.whole link (List.mem_of_getElem? hlink)).types ⟨header, payload⟩
            (hreplies ▸ List.mem_cons_self)).symm.imp_right fun hdata => ⟨hdata, ?_⟩
          obtain ⟨w', hw', ⟨-, hnot, -⟩ | ⟨sh', w'', -, hacts, -⟩⟩ := step_cases hstep
          · cases hnot
          · rw [hw] at hw'
            cases hw'
            have hpc := hacts.reading
            simp only [Worker.Ok, hpc] at hok
            obtain ⟨conn, hheld⟩ := Option.ne_none_iff_exists'.mp hok.2.1
            obtain ⟨oldest, -, hanswers⟩ := hhears conn hheld
            have hdata : header.frameType = .data := hdata
            simp only [Answers, hdata] at hanswers
            exact hanswers.2.2.1
      | _ => trivial
  | _ => trivial

/-- What the transfer has left to do, and the server to answer. -/
def work (crowd : Nat) (net : Net n) : Nat :=
  net.transfer.work crowd + (net.links.map fun link => link.asks.length).sum

/-- Attempts left, and the work left with them. -/
def left (settings : Settings) (crowd : Nat) (net : Net n) : Nat × Nat :=
  (net.transfer.budget settings.spec, net.work crowd)

theorem left_step (hmax : settings.spec.maxRetries < 2 ^ 32 - 1) (hasks : Asks pool parts stream)
    (hinv : net.Inv settings stream pool parts) (hwires : net.Wires) {crowd : Nat}
    (hcrowd : net.transfer.workers.length = crowd) {label : Label} (hbusy : ¬ Spurious label)
    (hstep : step settings ctx session net label = some net') :
    Prod.Lex (· < ·) (· < ·) (net'.left settings crowd) (net.left settings crowd) := by
  rw [Prod.lex_iff]
  cases label with
  | client i event =>
      obtain ⟨transfer, htransfer, hstep⟩ := Option.bind_eq_some_iff.mp hstep
      obtain ⟨w, hw, hstep⟩ := Option.bind_eq_some_iff.mp hstep
      obtain ⟨link, hlink, hstep⟩ := Option.bind_eq_some_iff.mp hstep
      obtain ⟨link', hheard, hstep⟩ := Option.bind_eq_some_iff.mp hstep
      cases hstep
      have hinforms := hinv.informs hasks hwires htransfer hw hlink hheard hbusy
      have hcloser := closer_step hmax hinv.honest.reachable (Nat.le_of_eq hcrowd) hinforms htransfer
      have hasked := Threads.sum_set hlink (fun link => link.asks.length) link'
      have hmore := Link.length_heard hheard
      have hsent := w.length_sends net.transfer.shared event
      unfold left work
      dsimp only at hasked ⊢
      omega
  | server i moment =>
      obtain ⟨link, hlink, hstep⟩ := Option.bind_eq_some_iff.mp hstep
      obtain ⟨link', hserved, hstep⟩ := Option.bind_eq_some_iff.mp hstep
      cases hstep
      have hasked := Threads.sum_set hlink (fun link => link.asks.length) link'
      have hless := Link.length_served hserved
      unfold left work
      dsimp only at hasked ⊢
      omega

/-- A transfer against the server comes to an end, whatever fails in it: a run that goes on
for ever has threads that wake up unnotified, again and again. -/
theorem endless_spurious (settings : Settings) (ctx : Context) (session : SessionId) (pool : DataPool)
    (parts : Vector FetchPart n) (stream : Nat → List UInt8) (expanders : Expanders) (client : Build)
    (display : F64 → String) (hexpander : settings.expander = expanders.toExpander client display)
    (hinverse : Inverse ctx.compressors expanders) (hasks : Asks pool parts stream)
    (hmax : settings.spec.maxRetries < 2 ^ 32 - 1) {run : Nat → Net n} {labels : Nat → Label}
    (hstart : (system settings ctx session pool parts).ReachableWhere
      (Streams ctx.build stream parts) (run 0))
    (hrun : ∀ k, Streams ctx.build stream parts (run k) (labels k) ∧
      step settings ctx session (run k) (labels k) = some (run (k + 1))) (m : Nat) :
    ∃ k, m ≤ k ∧ Spurious (labels k) := by
  refine System.Inductive.recurs (M := system settings ctx session pool parts)
    (P := Streams ctx.build stream parts) ⟨.init, .step⟩
    (WellFounded.prod_lex wellFounded_lt wellFounded_lt)
    (left settings (start pool parts).transfer.workers.length) ?_ hstart hrun m
  intro s s' label hs _ hbusy hstep
  have hinv := @inv n settings stream ctx session pool parts expanders client display s hasks
    hexpander hinverse hs
  obtain ⟨hwires, hcrowd⟩ := wires hs
  exact left_step hmax hasks hinv hwires hcrowd hbusy hstep

/-- Of two threads the first is about to ask for both halves of a row, the second waits. -/
def waitingNet : Net 1 where
  transfer :=
    ⟨⟨#v[⟨1, Vector.replicate 16 7, ⟨4, []⟩, [0, 0, 0, 0]⟩], ⟨[], 2, 2, 0, none, none⟩, 0, [], [], false⟩,
      [⟨.asking [⟨0, 0, 2, 0⟩, ⟨0, 2, 2, 0⟩], some ⟨[]⟩, [], false, []⟩,
        ⟨.waiting, some ⟨[]⟩, [], false, []⟩]⟩
  links := [.idle, .idle]

def twoPool : DataPool := ⟨[some ⟨[]⟩, some ⟨[]⟩], by decide⟩

/-- Both threads get to the top of their loops, and the first takes the whole queue. -/
def waitingRun : List Label :=
  [.client 0 .proceed, .client 0 .proceed, .client 1 .proceed, .client 1 .proceed]

theorem waiting_run : waitingRun.foldlM (step zerosSettings (zerosContext .builtIn)
    (Vector.replicate 16 0)) (start twoPool Watched.twoHalves) = some waitingNet := by decide +kernel

theorem asks_twoHalves : Asks twoPool Watched.twoHalves fun _ =>
    lowerRow.stream fun _ narrow _ => Vector.replicate narrow.itemsize 0 := by
  constructor
  · intro held hheld conn hconn
    have hidle : held = some ⟨[]⟩ := by simpa [twoPool] using hheld
    subst hidle
    cases hconn
    rfl
  · intro k
    obtain rfl := Subsingleton.elim k 0
    exact ⟨rfl, by decide, rfl, by decide, rfl⟩
  · intro k
    obtain rfl := Subsingleton.elim k 0
    decide
  · intro k
    obtain rfl := Subsingleton.elim k 0
    exact lowerRow.length_content

/-- The second thread wakes up unnotified and goes to wait again. -/
theorem waiting_again : ∃ net, step zerosSettings (zerosContext .builtIn) (Vector.replicate 16 0)
      waitingNet (.client 1 .woken) = some net ∧
    step zerosSettings (zerosContext .builtIn) (Vector.replicate 16 0) net (.client 1 .proceed) =
      some waitingNet := by
  refine ⟨⟨{ waitingNet.transfer with workers := waitingNet.transfer.workers.modify 1 fun w =>
    { w with pc := .head } }, waitingNet.links⟩, ?_, ?_⟩
  · decide +kernel
  · decide +kernel

theorem endless_spurious_waiting : ∃ k, 1000 ≤ k ∧
    Spurious (if k % 2 = 0 then .client 1 .woken else .client 1 .proceed) := by
  obtain ⟨net, hwakes, hwaits⟩ := waiting_again
  have hreach : (system zerosSettings (zerosContext .builtIn) (Vector.replicate 16 0) twoPool
      Watched.twoHalves).ReachableWhere (Streams (zerosContext .builtIn).build
        (fun _ => lowerRow.stream fun _ narrow _ => Vector.replicate narrow.itemsize 0)
        Watched.twoHalves) waitingNet := by
    refine System.reachableWhere_of_labels ?_ waiting_run
    simp [waitingRun, Streams]
  refine @endless_spurious 1 zerosSettings (zerosContext .builtIn) (Vector.replicate 16 0) twoPool
    Watched.twoHalves (fun _ => lowerRow.stream fun _ narrow _ => Vector.replicate narrow.itemsize 0)
    zerosExpanders ⟨false, true⟩ (fun _ => "") rfl zeros_inverse asks_twoHalves (by decide)
    (fun k => if k % 2 = 0 then waitingNet else net)
    (fun k => if k % 2 = 0 then .client 1 .woken else .client 1 .proceed) hreach (fun k => ?_) 1000
  rcases Nat.mod_two_eq_zero_or_one k with hk | hk
  · have hnext : (k + 1) % 2 ≠ 0 := by omega
    simp only [if_pos hk, if_neg hnext]
    exact ⟨trivial, hwakes⟩
  · have hodd : k % 2 ≠ 0 := by omega
    have hnext : (k + 1) % 2 = 0 := by omega
    simp only [if_neg hodd, if_pos hnext]
    exact ⟨trivial, hwaits⟩

end Net

end Aex
