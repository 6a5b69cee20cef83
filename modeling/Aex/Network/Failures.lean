import Aex.Client.PoolFailures
import Aex.Network.Delivery

/-!
# Failures

Client and server make no trouble for each other: a transfer fails with what befell its
connections or with what its server said of a fetch, and never over the way the other
end keeps to the protocol.
-/

namespace Aex

open Lts Tiling Transfer

/-! ## What a server sends -/

section Server

variable {ctx : Context} {session : SessionId} {moment : Moment}

/-- What a server may send for a fetch: an error, or a piece of the plan. -/
def SentFor (ctx : Context) (moment : Moment) (requestId : Nat) (frame : Frame) : Prop :=
  (∃ header errorClass message, frame = errorFrame header errorClass message) ∨
    ∃ entry offset bytes, moment.registry.entries.lookup requestId = some entry ∧
      pieceFrame ctx requestId entry.plan.layout offset bytes = .ok frame

theorem serve_sent {entry : TransferEntry ServedPlan} {touchAt : Nat → Nat} {requestId bufferLen : Nat}
    (hentry : moment.registry.entries.lookup requestId = some entry) (fuel offset len : Nat) (s : Wired)
    (hs : ∀ frame ∈ s.sent, SentFor ctx moment requestId frame) :
    ∀ frame ∈ (serve entry.plan.layout bufferLen entry.plan.readRange
      (sendPiece ctx requestId entry touchAt) fuel offset len s).2.sent,
      SentFor ctx moment requestId frame := by
  induction fuel generalizing offset len s with
  | zero => exact hs
  | succ fuel ih =>
      rw [serve]
      split
      · exact hs
      dsimp only
      split
      · exact hs
      rename_i bytes hread
      cases hframe : pieceFrame ctx requestId entry.plan.layout offset bytes.toList with
      | error e =>
          simp only [sendPiece, hframe]
          exact hs
      | ok frame =>
          simp only [sendPiece, hframe]
          refine ih _ _ _ fun sent hsent => ?_
          cases List.mem_append.mp hsent with
          | inl hsent => exact hs sent hsent
          | inr hsent =>
              obtain rfl := List.mem_singleton.mp hsent
              exact .inr ⟨entry, offset, bytes.toList, hentry, hframe⟩

theorem answer_sent (requestId : Nat) (ticket : Ticket) (offset len : Nat)
    (registry : TransferRegistry ServedPlan) : ∀ frame ∈
      ((ClientFrame.fetch requestId ticket offset len).answer ctx session moment ⟨[], registry⟩).2.sent,
      SentFor ctx moment requestId frame := by
  have herror : ∀ (header : FrameHeader) (errorClass : ErrorClass) (message : String) (s : Wired),
      (∀ frame ∈ s.sent, SentFor ctx moment requestId frame) →
      ∀ frame ∈ (s.sendError header errorClass message).sent, SentFor ctx moment requestId frame := by
    intro header errorClass message s hs frame hframe
    cases List.mem_append.mp hframe with
    | inl hframe => exact hs frame hframe
    | inr hframe => exact .inl ⟨header, errorClass, message, List.mem_singleton.mp hframe⟩
  have hnone : ∀ (registry : TransferRegistry ServedPlan),
      ∀ frame ∈ (⟨[], registry⟩ : Wired).sent, SentFor ctx moment requestId frame := by simp
  unfold ClientFrame.answer handleFetch
  dsimp only
  rw [if_neg (by simp [FrameHeader.fetch])]
  split
  · exact herror _ _ _ _ (hnone _)
  split
  · exact herror _ _ _ _ (hnone _)
  rename_i entry registry hfetch
  split
  · exact herror _ _ _ _ (hnone _)
  split
  · exact herror _ _ _ _ (hnone _)
  have hserved := @serve_sent ctx moment entry moment.touchAt requestId
    ctx.config.transfer.readBufferBytes (TransferRegistry.fetch_ok hfetch).1 len offset len
    ⟨[], registry⟩ (hnone _)
  unfold serveFetch
  dsimp only [FrameHeader.fetch]
  split
  · rename_i hserve
    rw [hserve] at hserved
    exact hserved
  · rename_i hserve
    rw [hserve] at hserved
    exact herror _ _ _ _ hserved
  · rename_i hserve
    rw [hserve] at hserved
    exact hserved

/-- A piece that travels without loss is one any client takes. -/
theorem pieceFrame_sound {L : SelectionLayout} {requestId offset : Nat} {bytes : List UInt8}
    {frame : Frame} {build : Build} {Cause : ClientError → Prop}
    (h : pieceFrame ctx requestId L offset bytes = .ok frame)
    (hlossless : (L.quality.codecFor ctx.build).isErrorBounded = false) :
    frame.Sound build Cause := by
  have hsupported : (L.quality.codecFor ctx.build).isSupported build = true := by
    cases hcodec : L.quality.codecFor ctx.build with
    | raw | gzip => rfl
    | sz | zfp =>
        rw [hcodec] at hlossless
        cases hlossless
  rcases pieceFrame_cases h with rfl | ⟨spec, stream, hblock, -, hshorter, rfl⟩
  · exact ⟨by simp [DataConn.sane, FrameHeader.data], rfl⟩
  · have hraw := (block_eq_some hblock).1
    refine ⟨?_, hsupported⟩
    simpa [DataConn.sane, FrameHeader.dataEncoded, hraw] using hshorter

end Server

/-! ## The system -/

namespace Net

variable {n : Nat} {settings : Settings} {ctx : Context} {session : SessionId} {pool : DataPool}
  {parts : Vector FetchPart n} {stream : Nat → List UInt8} {Cause : ClientError → Prop} {net : Net n}

/-- What a thread may ask for: a chunk of the batch. -/
def Fetches (parts : Vector FetchPart n) (ask : ClientFrame) : Prop :=
  ∃ (k : Fin n) (range : Nat × Nat), range ∈ (parts.get k).chunks ∧
    ask = .fetch (parts.get k).requestId (parts.get k).ticket range.1 range.2

/-- An error the server tells of at some moment, in a frame that memory can hold, has a
cause. -/
def Tells (ctx : Context) (session : SessionId) (parts : Vector FetchPart n)
    (Cause : ClientError → Prop) (moment : Moment) : Prop :=
  ∀ ask, Fetches parts ask → ∀ header errorClass message,
    errorFrame header errorClass message ∈ (ask.answer ctx session moment ⟨[], moment.registry⟩).2.sent →
      (errorFrame header errorClass message).payload.length < 2 ^ 63 ∧ Cause (.data errorClass message)

/-- What goes wrong in a step has a cause. -/
def Caused (ctx : Context) (session : SessionId) (parts : Vector FetchPart n)
    (Cause : ClientError → Prop) (_ : Net n) : Label → Prop
  | .client _ event => ∀ e ∈ event.failure, Cause e
  | .server _ moment => Tells ctx session parts Cause moment

/-- A connection carries fetches of the batch one way and frames a client takes the other. -/
structure Sound (build : Build) (parts : Vector FetchPart n) (Cause : ClientError → Prop)
    (link : Link) : Prop where
  asks : ∀ ask ∈ link.asks, Fetches parts ask
  replies : ∀ frame ∈ link.replies, frame.Sound build Cause

section Link

variable {link link' : Link}

theorem Sound.served (h : Sound settings.build parts Cause link) {moment : Moment}
    (hserved : link.served ctx session moment = some link')
    (hmoment : moment.Streams ctx.build stream (AsksFor parts))
    (htells : Tells ctx session parts Cause moment) : Sound settings.build parts Cause link' := by
  unfold Link.served at hserved
  split at hserved
  · cases hserved
  split at hserved
  · cases hserved
  rename_i ask asks hasks
  have hfetches := h.asks
  rw [hasks, List.forall_mem_cons] at hfetches
  cases hserved
  refine ⟨hfetches.2, fun frame hframe => ?_⟩
  cases List.mem_append.mp hframe with
  | inl hframe => exact h.replies frame hframe
  | inr hframe =>
      have htold := htells ask hfetches.1
      obtain ⟨k, range, -, rfl⟩ := hfetches.1
      cases answer_sent _ _ _ _ _ frame hframe with
      | inl herror =>
          obtain ⟨header, errorClass, message, rfl⟩ := herror
          have hcause := htold header errorClass message hframe
          refine ⟨?_, errorClass, message, rfl, hcause.2⟩
          exact decide_eq_false (Nat.not_le.mpr hcause.1)
      | inr hpiece =>
          obtain ⟨entry, offset, bytes, hentry, hpiece⟩ := hpiece
          exact pieceFrame_sound hpiece (hmoment _ entry ⟨k, rfl⟩ hentry).lossless

theorem Sound.heard (h : Sound settings.build parts Cause link) {sends : List ClientFrame}
    {event : Event} (hsends : ∀ ask ∈ sends, Fetches parts ask)
    (hheard : link.heard sends event = some link') : Sound settings.build parts Cause link' := by
  unfold Link.heard at hheard
  split at hheard
  · cases hheard
    exact ⟨by simp [Link.idle], by simp [Link.idle]⟩
  · split at hheard
    · cases hheard
    rename_i frame replies hreplies
    split at hheard
    · cases hheard
      refine ⟨h.asks, fun other hother => h.replies other ?_⟩
      rw [hreplies]
      exact List.mem_cons_of_mem _ hother
    · cases hheard
  · split at hheard
    · cases hheard
    split at hheard
    · cases hheard
      exact h
    · cases hheard
  · split at hheard
    · cases hheard
      exact h
    · cases hheard
  · cases hheard
    refine ⟨fun ask hask => ?_, h.replies⟩
    exact (List.mem_append.mp hask).elim (h.asks ask) (hsends ask)

/-- A thread that takes a frame off a connection takes one that it can make something of. -/
theorem Sound.explained (h : Sound settings.build parts Cause link) {sends : List ClientFrame}
    {event : Event} (hheard : link.heard sends event = some link')
    (hcause : ∀ e ∈ event.failure, Cause e) : event.Explained settings.build Cause := by
  refine ⟨hcause, fun header payload hevent => ?_, fun header part failure hevent => ?_⟩
  · subst hevent
    obtain ⟨replies, hreplies, -⟩ := heard_frame hheard
    refine h.replies _ ?_
    rw [hreplies]
    exact List.mem_cons_self
  · subst hevent
    unfold Link.heard at hheard
    dsimp only at hheard
    split at hheard
    · cases hheard
    rename_i frame replies hreplies
    split at hheard
    · rename_i hcut
      refine ⟨frame.payload, ?_⟩
      rw [← hcut.1]
      refine h.replies frame ?_
      rw [hreplies]
      exact List.mem_cons_self
    · cases hheard

end Link

theorem sends_fetches {t : Transfer n} (hconserved : t.Conserved parts) (hnames : t.shared.Names parts)
    {w : Worker n} (hw : w ∈ t.workers) {event : Event} {ask : ClientFrame}
    (h : ask ∈ w.sends t.shared event) : Fetches parts ask := by
  unfold Worker.sends at h
  split at h
  · split at h
    · rename_i chunk fresh hpc
      dsimp only at h
      split at h
      · have hchunk : chunk ∈ w.chunks := by simp [Worker.chunks, hpc, Pc.fresh]
        refine ⟨chunk.part, (chunk.offset, chunk.len), hconserved.mem_of_mem_chunks hw hchunk, ?_⟩
        rw [List.mem_singleton.mp h, (hnames _).1, (hnames _).2]
      · cases h
    · cases h
  · cases h

/-- In every run in which what goes wrong has a cause, every error of the transfer has one,
whatever is under way. -/
theorem blamed {expanders : Expanders} {client : Build} {display : F64 → String}
    (hasks : Asks pool parts stream) (hsizes : ∀ k : Fin n, (parts.get k).dst.length < Word.size 64)
    (hexpander : settings.expander = expanders.toExpander client display)
    (hinverse : Inverse ctx.compressors expanders)
    (h : (system settings ctx session pool parts).ReachableWhere (fun net label =>
      Streams ctx.build stream parts net label ∧ Caused ctx session parts Cause net label) net) :
    net.transfer.Blamed Cause := by
  have hposed : Posed pool parts stream := ⟨hasks.idle, hasks.tiles, hasks.ids, hasks.lengths, hsizes⟩
  refine (System.Inductive.holds (P := fun net label => Streams ctx.build stream parts net label ∧
      Caused ctx session parts Cause net label)
    (I := fun net => net.Inv settings stream pool parts ∧ net.transfer.Blamed Cause ∧
      ∀ link ∈ net.links, Sound settings.build parts Cause link) ⟨?_, ?_⟩ h).2.1
  · intro s hs
    rw [show s = start pool parts from hs]
    refine ⟨inv_start hasks, .of_start pool parts, fun link hlink => ?_⟩
    obtain ⟨w, -, rfl⟩ := List.mem_map.mp hlink
    exact ⟨by simp [Link.idle], by simp [Link.idle]⟩
  · intro s s' label hs hlabel hstep
    obtain ⟨hinv, hblamed, hsound⟩ := hs
    obtain ⟨hstreams, hcaused⟩ := hlabel
    cases label with
    | client i event =>
        obtain ⟨transfer, htransfer, hstep⟩ := Option.bind_eq_some_iff.mp hstep
        obtain ⟨w, hw, hstep⟩ := Option.bind_eq_some_iff.mp hstep
        obtain ⟨link, hlink, hstep⟩ := Option.bind_eq_some_iff.mp hstep
        obtain ⟨link', hheard, hstep⟩ := Option.bind_eq_some_iff.mp hstep
        cases hstep
        have hmine := hsound link (List.mem_of_getElem? hlink)
        have hhears := hinv.hears hasks htransfer hw hlink hheard
        have hdelivered := delivered hasks.idle hasks.tiled hasks.lengths hinv.honest
        have hfetches : ∀ ask ∈ w.sends s.transfer.shared event, Fetches parts ask := fun ask hask =>
          sends_fetches (conserved hinv.honest.reachable) hdelivered.names (List.mem_of_getElem? hw) hask
        have hexplained : event.Explained settings.build Cause := hmine.explained hheard hcaused
        refine ⟨inv_client hasks hinv htransfer hw hlink hheard,
          blamed_step hposed hinv.honest hblamed ⟨fun w' hw' => ?_, hexplained⟩ htransfer,
          Threads.forall_mem_set hsound (hmine.heard hfetches hheard)⟩
        rw [Option.mem_def.mp hw', Option.some.injEq] at hw
        rwa [hw]
    | server i moment =>
        obtain ⟨link, hlink, hstep⟩ := Option.bind_eq_some_iff.mp hstep
        obtain ⟨link', hserved, hstep⟩ := Option.bind_eq_some_iff.mp hstep
        cases hstep
        have hmine := hsound link (List.mem_of_getElem? hlink)
        exact ⟨inv_server hinv hlink hserved hexpander hinverse hstreams, hblamed,
          Threads.forall_mem_set hsound (hmine.served hserved hstreams hcaused)⟩

/-- A connection breaks off as its thread asks for the row, and connecting again is refused. -/
def refusedRun : List Label :=
  [.client 0 .proceed, .client 0 .proceed, .client 0 (.sent (.error ⟨.other, "reset"⟩)),
    .client 0 .proceed, .client 0 .proceed, .client 0 .proceed, .client 0 .proceed, .client 0 .proceed,
    .client 0 .proceed, .client 0 (.connected (.error (.transport "refused"))), .client 0 .proceed,
    .client 0 .proceed]

theorem refused_outcome : (refusedRun.foldlM (step zerosSettings (zerosContext .builtIn)
      (Vector.replicate 16 0)) (start Transfer.onePool Transfer.fourBytes)).map
        (fun net => net.transfer.outcome) = some (some (.err (.transport "refused"))) := by decide +kernel

theorem refusedRun_failure : ∀ label ∈ refusedRun, ∃ event, label = .client 0 event ∧
    ∀ e ∈ event.failure, e = .io .other "reset" ∨ e = .transport "refused" := by
  simp [refusedRun, Event.failure, IoFailure.toError]

end Net

end Aex
