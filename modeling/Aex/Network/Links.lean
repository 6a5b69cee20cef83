import Aex.Network.Replies

/-!
# A transfer and its server

A transfer and the connections it talks over, each with the frames under way on it in
both directions.  The server takes the frames of the client off a connection one
after another; its registry changes in between as it will.  The steps of the threads
and of the connections come in any order, and a connection may break off wherever a
thread is reading.
-/

namespace Aex

open Lts Tiling Transfer

variable {n : Nat}

/-! ## Connections -/

/-- A connection as the network holds it: the frames the server has not taken yet, those
the client has not, and whether the server has hung up. -/
structure Link where
  asks : List ClientFrame
  replies : List Frame
  closed : Bool
  deriving Repr, DecidableEq

/-- What a thread writes on its connection in one step. -/
def Worker.sends (sh : Shared n) (w : Worker n) : Event → List ClientFrame
  | .sent (.ok ()) =>
      match w.pc with
      | .asking (chunk :: _) =>
          let part := sh.parts.get chunk.part
          match part.scatter.claim chunk.offset chunk.len with
          | .ok _ => [.fetch part.requestId part.ticket chunk.offset chunk.len]
          | .error _ => []
      | _ => []
  | _ => []

namespace Link

/-- A connection nothing is under way on. -/
def idle : Link := ⟨[], [], false⟩

/-- The part of a step of the thread that is its connection's; `none` for an event this
connection cannot give.  A thread reads the frames in order, or finds that the
connection breaks off. -/
def heard (sends : List ClientFrame) (link : Link) : Event → Option Link
  | .connected (.ok ()) => some idle
  | .received (.frame header payload) =>
      match link.replies with
      | [] => none
      | frame :: replies => if frame = ⟨header, payload⟩ then some { link with replies } else none
  | .received (.cut header part _) =>
      match link.replies with
      | [] => none
      | frame :: _ => if frame.header = header ∧ part <+: frame.payload then some link else none
  | .received (.noHeader e) => if (ClientError.ofWire e).isIo then some link else none
  | _ => some { link with asks := link.asks ++ sends }

/-- The server answers the next frame of the client. -/
def served (ctx : Context) (session : SessionId) (moment : Moment) (link : Link) : Option Link :=
  if link.closed then none
  else
    match link.asks with
    | [] => none
    | ask :: asks =>
        let (result, wired) := ask.answer ctx session moment ⟨[], moment.registry⟩
        some ⟨asks, link.replies ++ wired.sent,
          match result with
          | .ok .carryOn => false
          | _ => true⟩

end Link

/-! ## The system -/

/-- A transfer of `n` parts and the connection of each of its threads. -/
structure Net (n : Nat) where
  transfer : Transfer n
  links : List Link
  deriving Repr, DecidableEq

namespace Net

inductive Label where
  | client (i : Nat) (event : Event)
  | server (i : Nat) (moment : Moment)

def step (settings : Settings) (ctx : Context) (session : SessionId) (net : Net n) :
    Label → Option (Net n)
  | .client i event => do
      let transfer ← net.transfer.step settings (i, event)
      let w ← net.transfer.workers[i]?
      let link ← net.links[i]?
      let link ← link.heard (w.sends net.transfer.shared event) event
      some ⟨transfer, net.links.set i link⟩
  | .server i moment => do
      let link ← net.links[i]?
      let link ← link.served ctx session moment
      some { net with links := net.links.set i link }

/-- Threads start on idle connections. -/
def start (pool : DataPool) (parts : Vector FetchPart n) : Net n :=
  ⟨Transfer.start pool parts, (Transfer.start pool parts).workers.map fun _ => .idle⟩

def system (settings : Settings) (ctx : Context) (session : SessionId) (pool : DataPool)
    (parts : Vector FetchPart n) : System (Net n) Label :=
  .ofFn (start pool parts) (step settings ctx session)

/-- The ids a batch asks for. -/
def AsksFor (parts : Vector FetchPart n) (requestId : Nat) : Prop :=
  ∃ k : Fin n, (parts.get k).requestId = requestId

/-- Whenever the server looks up a plan of the batch, it gives the bytes its id stands for. -/
def Streams (build : Build) (stream : Nat → List UInt8) (parts : Vector FetchPart n) (_ : Net n) :
    Label → Prop
  | .client _ _ => True
  | .server _ moment => moment.Streams build stream (AsksFor parts)

end Net

/-! ## What is under way -/

variable (settings : Settings) (stream : Nat → List UInt8) (ids : Nat → Prop)

/-- What is under way on a connection in use answers what is outstanding on it, and what
the server has yet to take is the rest. -/
structure Link.Carries (conn : DataConn) (link : Link) : Prop where
  replies : ∃ rest, Replies settings stream conn link.replies rest ∧
    (link.closed = false → rest.asked = link.asks.filterMap ClientFrame.asked)
  proper : ∀ ask ∈ link.asks, ask.Proper ids

def Worker.Linked (w : Worker n) (link : Link) : Prop :=
  w.pc.talks = true → ∀ conn ∈ w.held, link.Carries settings stream ids conn

variable {settings stream ids}

namespace Link.Carries

variable {conn : DataConn} {link link' : Link}

theorem of_idle : Link.idle.Carries settings stream ids ⟨[]⟩ :=
  ⟨⟨⟨[]⟩, rfl, fun _ => rfl⟩, by simp [Link.idle]⟩

theorem sendFetch (h : link.Carries settings stream ids conn) {requestId offset len : Nat}
    (ticket : Ticket) (hproper : ids requestId ∧ requestId ≠ 0 ∧ 0 < len) :
    Link.Carries settings stream ids (conn.sendFetch requestId ticket offset len)
      { link with asks := link.asks ++ [.fetch requestId ticket offset len] } := by
  obtain ⟨rest, hreplies, hopen⟩ := h.replies
  refine ⟨⟨_, hreplies.sendFetch requestId ticket offset len, fun hclosed => ?_⟩, ?_⟩
  · rw [DataConn.sendFetch, hopen hclosed, List.filterMap_append]
    rfl
  · intro ask hask
    rcases List.mem_append.mp hask with hask | hask
    · exact h.proper ask hask
    · obtain rfl := List.mem_singleton.mp hask
      exact hproper

/-- The frame a thread reads answers the oldest fetch, and the rest what is then left. -/
theorem received {frame : Frame} {replies : List Frame} (h : link.Carries settings stream ids conn)
    (hfront : link.replies = frame :: replies) :
    (frame.header.frameType = .pong ∨ ∃ oldest ∈ conn.asked.head?,
        Answers settings stream oldest frame.header frame.payload) ∧
      Link.Carries settings stream ids (conn.answered frame.header) { link with replies } := by
  obtain ⟨rest, hreplies, hopen⟩ := h.replies
  rw [hfront] at hreplies
  exact ⟨hreplies.1, ⟨rest, hreplies.2, hopen⟩, h.proper⟩

/-- What the server sends joins what is under way. -/
theorem served {ctx : Context} {session : SessionId} {moment : Moment} {expanders : Expanders}
    {client : Build} {display : F64 → String} (h : link.Carries settings stream ids conn)
    (hserved : link.served ctx session moment = some link')
    (hexpander : settings.expander = expanders.toExpander client display)
    (hinverse : Inverse ctx.compressors expanders) (hmoment : moment.Streams ctx.build stream ids) :
    link'.Carries settings stream ids conn := by
  obtain ⟨rest, hreplies, hopen⟩ := h.replies
  unfold Link.served at hserved
  split at hserved
  · cases hserved
  rename_i hclosed
  rw [Bool.not_eq_true] at hclosed
  split at hserved
  · cases hserved
  rename_i ask asks hasks
  have hproper := h.proper
  rw [hasks, List.forall_mem_cons] at hproper
  have hanswer := @answer_replies settings stream client display ctx session expanders ask moment
    ids hexpander hinverse hmoment hproper.1 ⟨[], moment.registry⟩ (asks.filterMap ClientFrame.asked)
  obtain ⟨frames, left, hsent, hmore, hnext⟩ := hanswer
  have hrest : rest = ⟨ask.asked.toList ++ asks.filterMap ClientFrame.asked⟩ := by
    obtain ⟨asked⟩ := rest
    rw [DataConn.mk.injEq]
    refine (hopen hclosed).trans ?_
    rw [hasks]
    cases hask : ask.asked <;> simp [hask]
  subst hrest
  cases hresult : ask.answer ctx session moment ⟨[], moment.registry⟩ with
  | mk result wired =>
      rw [hresult] at hserved hsent hnext
      dsimp only at hserved hsent hnext
      rw [List.nil_append] at hsent
      cases hserved
      refine ⟨⟨left, ?_, ?_⟩, hproper.2⟩
      · rw [hsent]
        exact hreplies.append hmore
      · intro hstill
        dsimp only at hstill
        split at hstill
        · rw [hnext _ rfl]
        · cases hstill

end Link.Carries

/-! ## Steps -/

section Steps

variable {sh sh' : Shared n} {w w' : Worker n} {event : Event} {link link' : Link}

/-- A thread reads what is under way on its connection. -/
theorem heard_frame {sends : List ClientFrame} {header : FrameHeader} {payload : List UInt8}
    (h : link.heard sends (.received (.frame header payload)) = some link') :
    ∃ replies, link.replies = ⟨header, payload⟩ :: replies ∧ link' = { link with replies } := by
  unfold Link.heard at h
  dsimp only at h
  split at h
  · cases h
  rename_i frame replies hreplies
  split at h
  · rename_i hframe
    cases h
    exact ⟨replies, by rw [hreplies, hframe], rfl⟩
  · cases h

theorem Worker.Linked.notified {w : Worker n} {link : Link} (h : w.Linked settings stream ids link) :
    w.notified.Linked settings stream ids link := by
  rcases notified_cases w with hsame | ⟨hpc, hsame⟩
  · rwa [hsame]
  · rw [hsame]
    exact fun _ => h (by simp [hpc, Pc.talks])

/-- What a thread is about to read answers the oldest fetch outstanding. -/
theorem Worker.Linked.hears (h : w.Linked settings stream ids link) (hpc : w.pc = .reading)
    (hasked : ∀ conn ∈ w.held, conn.asked ≠ []) {sends : List ClientFrame}
    (hheard : link.heard sends event = some link') : w.Hears settings stream event := by
  have hcarries := h (by simp [hpc, Pc.talks])
  have holdest : ∀ (frame : Frame) (replies : List Frame), link.replies = frame :: replies →
      ∀ conn ∈ w.held, ∃ oldest ∈ conn.asked.head?,
        Answers settings stream oldest frame.header frame.payload := by
    intro frame replies hreplies conn hconn
    rcases ((hcarries conn hconn).received hreplies).1 with hpong | hanswers
    · obtain ⟨oldest, later, hcons⟩ := List.exists_cons_of_ne_nil (hasked conn hconn)
      refine ⟨oldest, by rw [hcons]; rfl, ?_⟩
      simp only [Answers, hpong]
    · exact hanswers
  cases event with
  | received incoming =>
      cases incoming with
      | noHeader e =>
          unfold Link.heard at hheard
          dsimp only at hheard
          split at hheard
          · assumption
          · cases hheard
      | frame header payload =>
          obtain ⟨replies, hreplies, -⟩ := heard_frame hheard
          exact holdest _ _ hreplies
      | cut header part failure =>
          unfold Link.heard at hheard
          dsimp only at hheard
          split at hheard
          · cases hheard
          rename_i frame replies hreplies
          split at hheard
          · rename_i hcut
            intro conn hconn
            obtain ⟨oldest, hmem, hanswers⟩ := holdest frame replies hreplies conn hconn
            rw [hcut.1] at hanswers
            exact ⟨oldest, hmem, frame.payload, hcut.2, hanswers⟩
          · cases hheard
  | _ => trivial

/-- A connection stays linked when its thread moves. -/
theorem Acts.linked (h : Acts settings sh w event sh' w') (hok : w.Ok)
    (hlinked : w.Linked settings stream ids link)
    (hheard : link.heard (w.sends sh event) event = some link')
    (hproper : ∀ ask ∈ w.sends sh event, ask.Proper ids) : w'.Linked settings stream ids link' := by
  have hnone : ∀ {w : Worker n}, w.held = none → w.Linked settings stream ids link' := by
    intro w hheld _ conn hconn
    rw [hheld] at hconn
    cases hconn
  have hsilent : ∀ {w : Worker n}, w.pc.talks = false → w.Linked settings stream ids link' := by
    intro w hpc htalks
    rw [hpc] at htalks
    cases htalks
  have hsame : ∀ {pc : Pc n} {flight : List (InFlight n)} {owes : Bool} {lost : List (Chunk n)},
      w.pc.talks = true → link' = { link with asks := link.asks ++ [] } →
      Worker.Linked settings stream ids ⟨pc, w.held, flight, owes, lost⟩ link' := by
    intro pc flight owes lost htalks heq _
    rw [heq, List.append_nil]
    exact hlinked htalks
  have hanswered : ∀ {header : FrameHeader} {payload : List UInt8} {conn : DataConn} {pc : Pc n}
      {flight : List (InFlight n)} {owes : Bool} {lost : List (Chunk n)}, w.pc = .reading →
      w.held = some conn → event = .received (.frame header payload) →
      Worker.Linked settings stream ids ⟨pc, some (conn.answered header), flight, owes, lost⟩ link' := by
    intro header payload conn pc flight owes lost hpc hheld hevent _ conn' hconn'
    cases hconn'
    subst hevent
    obtain ⟨replies, hreplies, rfl⟩ := heard_frame hheard
    exact ((hlinked (by simp [hpc, Pc.talks]) conn hheld).received hreplies).2
  cases h with
  | unaccounted | gaveNothing | broken | dataBroken => exact hnone rfl
  | @gaveBack fresh e hpc => exact hnone (w := { w.broke e with owes := true }) rfl
  | reconnected hpc =>
      cases hheard
      intro _ conn hconn
      cases hconn
      exact .of_idle
  | @sent chunk fresh hpc conn hheld slice scatter hclaim =>
      have hsends : w.sends sh (.sent (.ok ())) = [.fetch (sh.parts.get chunk.part).requestId
          (sh.parts.get chunk.part).ticket chunk.offset chunk.len] := by
        simp only [Worker.sends, hpc, hclaim]
      rw [hsends] at hheard hproper
      cases hheard
      intro _ conn' hconn'
      cases hconn'
      exact (hlinked (by simp [hpc, Pc.talks]) conn hheld).sendFetch _ (hproper _ List.mem_cons_self)
  | @accepted hpc conn hheld front front' rest hflight header payload bytes htype hformed hdata
      hfront sh' w' hnext =>
      rcases hnext with ⟨-, -, rfl⟩ | ⟨-, -, rfl⟩
      · exact hanswered hpc hheld rfl
      · exact hanswered hpc hheld rfl
  | @refused hpc conn hheld front rest hflight header payload htype hid w' hnext =>
      rcases hnext with ⟨message, rfl⟩ | ⟨chunk, -, rfl⟩ | ⟨error, rfl⟩
      · exact hnone rfl
      · exact hanswered hpc hheld rfl
      · exact hanswered hpc hheld rfl
  | @pinged hpc header payload htype =>
      intro _ conn hconn
      obtain ⟨replies, hreplies, rfl⟩ := heard_frame hheard
      have hread := ((hlinked (by simp [hpc, Pc.talks]) conn hconn).received hreplies).2
      have hstill : conn.answered header = conn := by
        unfold DataConn.answered
        cases conn.asked with
        | nil => rfl
        | cons oldest later => rcases htype with htype | htype <;> simp only [htype]
      rwa [hstill] at hread
  | drains hpc hflight hnext =>
      simp only [Worker.Ok, hpc] at hok
      rcases hnext with ⟨chunk, -, rfl⟩ | ⟨-, rfl⟩
      · exact hnone hok.1
      · exact hnone hok.1
  | @requeues chunk after hpc =>
      cases after with
      | none =>
          cases hheard
          exact hsame (by simp [hpc, Pc.talks]) rfl
      | some after =>
          obtain ⟨e, exhausted⟩ := after
          simp only [Worker.Ok, hpc] at hok
          exact hnone hok.1
  | drained hpc hflight =>
      simp only [Worker.Ok, hpc] at hok
      exact hnone hok.1
  | @cleared e panicked hpc hflight =>
      simp only [Worker.Ok, hpc] at hok
      cases panicked with
      | true => exact hsilent rfl
      | false => exact hnone (hok rfl)
  | clears hpc => exact hsilent (by simp [hpc, Pc.talks])
  | @fails e panicked hpc =>
      cases panicked with
      | true => exact hsilent rfl
      | false =>
          cases hheard
          exact hsame (by simp [hpc, Pc.talks]) rfl
  | leaves | notSpawned | notReconnected | notClaimed | notSent | panicked => exact hsilent rfl
  | started hpc | gaveUp hpc | reconnects hpc | toppedUp hpc | finished hpc | waits hpc
  | woken hpc | asked hpc | completes hpc =>
      cases hheard
      exact hsame (by simp [hpc, Pc.talks]) rfl

/-- What a thread asks for names a plan and is not empty. -/
theorem Acts.sends_proper (h : Acts settings sh w event sh' w')
    (hids : ∀ k : Fin n, ids (sh.parts.get k).requestId ∧ (sh.parts.get k).requestId ≠ 0)
    (hlens : ∀ x ∈ w'.flight, 0 < x.chunk.len) : ∀ ask ∈ w.sends sh event, ask.Proper ids := by
  intro ask hask
  cases h with
  | @sent chunk fresh hpc conn hheld slice scatter hclaim =>
      simp only [Worker.sends, hpc, hclaim, List.mem_singleton] at hask
      subst hask
      exact ⟨(hids _).1, (hids _).2, hlens _ (List.mem_append_right _ List.mem_cons_self)⟩
  | @notClaimed chunk fresh hpc outcome e hclaim =>
      cases outcome with
      | error f => cases hask
      | ok _ =>
          simp only [Worker.sends, hpc, hclaim] at hask
          cases hask
  | _ => cases hask

theorem Acts.reading {incoming : Incoming} (h : Acts settings sh w (.received incoming) sh' w') :
    w.pc = .reading := by
  cases h <;> assumption

end Steps

/-! ## Runs -/

namespace Net

variable {ctx : Context} {session : SessionId} {pool : DataPool} {parts : Vector FetchPart n}
  {expanders : Expanders} {client : Build} {display : F64 → String} {net : Net n}

/-- A batch as a client asks for it: plans under ids of the server, on connections that
nothing is outstanding on, each cut into chunks that tile its buffer. -/
structure Asks (pool : DataPool) (parts : Vector FetchPart n) (stream : Nat → List UInt8) : Prop where
  idle : ∀ held ∈ pool.conns, ∀ conn ∈ held, conn.asked = []
  tiles : ∀ k : Fin n, Tiles 0 (parts.get k).chunks (parts.get k).dst.length
  ids : ∀ k : Fin n, (parts.get k).requestId ≠ 0
  lengths : ∀ k : Fin n, (stream (parts.get k).requestId).length = (parts.get k).dst.length

theorem Asks.tiled (h : Asks pool parts stream) : Tiled parts := fun k => (h.tiles k).partitions

/-- What holds of every state of a run: the transfer has only heard answers of an honest server,
and what is under way on its connections are such answers. -/
structure Inv (settings : Settings) (stream : Nat → List UInt8) (pool : DataPool)
    (parts : Vector FetchPart n) (net : Net n) : Prop where
  honest : (Transfer.system settings pool parts).ReachableWhere (Honest settings stream) net.transfer
  linked : ∀ (i : Nat) (w : Worker n) (link : Link), net.transfer.workers[i]? = some w → net.links[i]? = some link →
    w.Linked settings stream (AsksFor parts) link

theorem inv_start (hasks : Asks pool parts stream) : (start pool parts).Inv settings stream pool parts := by
  refine ⟨.start, fun i w link hw hlink _ conn hconn => ?_⟩
  obtain ⟨w', -, rfl⟩ := List.mem_map.mp (List.mem_of_getElem? hlink)
  obtain ⟨held, hheld, rfl⟩ := List.mem_map.mp (List.mem_of_getElem? hw)
  have hidle := hasks.idle held (List.mem_of_mem_take hheld) conn hconn
  obtain ⟨asked⟩ := conn
  obtain rfl : asked = [] := hidle
  exact .of_idle

/-- What a thread takes off its connection is an honest server's. -/
theorem Inv.hears (hasks : Asks pool parts stream) (h : net.Inv settings stream pool parts) {i : Nat}
    {event : Event} {transfer : Transfer n} {w : Worker n} {link link' : Link}
    (hstep : net.transfer.step settings (i, event) = some transfer)
    (hw : net.transfer.workers[i]? = some w) (hlink : net.links[i]? = some link)
    (hheard : link.heard (w.sends net.transfer.shared event) event = some link') :
    w.Hears settings stream event := by
  have hdelivered := delivered hasks.idle hasks.tiled hasks.lengths h.honest
  have hmem := List.mem_of_getElem? hw
  have hok := (conserved h.honest.reachable).ok w hmem
  obtain ⟨w', hw', hcases⟩ := step_cases hstep
  rw [hw] at hw'
  cases hw'
  rcases hcases with ⟨-, rfl, -⟩ | ⟨sh', w', -, hacts, -⟩
  · trivial
  · cases event with
    | received incoming =>
        have hpc := hacts.reading
        simp only [Worker.Ok, hpc] at hok
        refine (h.linked i w link hw hlink).hears hpc (fun conn hconn => ?_) hheard
        rw [hdelivered.attuned w hmem (by simp [hpc, Pc.talks]) conn hconn]
        simpa using hok.2.2
    | _ => trivial

theorem inv_client (hasks : Asks pool parts stream) (h : net.Inv settings stream pool parts) {i : Nat}
    {event : Event} {transfer : Transfer n} {w : Worker n} {link link' : Link}
    (hstep : net.transfer.step settings (i, event) = some transfer)
    (hw : net.transfer.workers[i]? = some w) (hlink : net.links[i]? = some link)
    (hheard : link.heard (w.sends net.transfer.shared event) event = some link') :
    Inv settings stream pool parts ⟨transfer, net.links.set i link'⟩ := by
  have hdelivered := delivered hasks.idle hasks.tiled hasks.lengths h.honest
  have hlinked := h.linked i w link hw hlink
  have hok := (conserved h.honest.reachable).ok w (List.mem_of_getElem? hw)
  obtain ⟨w', hw', hcases⟩ := step_cases hstep
  rw [hw] at hw'
  cases hw'
  -- The transfer takes a step against an honest server.
  have hhears := h.hears hasks hstep hw hlink hheard
  have hhonest : (Transfer.system settings pool parts).ReachableWhere (Honest settings stream)
      transfer := by
    refine h.honest.snoc (i, event) (fun w' hw' => ?_) hstep
    rw [hw] at hw'
    cases hw'
    exact hhears
  refine ⟨hhonest, ?_⟩
  rcases hcases with ⟨-, rfl, rfl⟩ | ⟨sh', w', -, hacts, rfl⟩
  · -- A notification moves threads that talk and go on talking.
    cases hheard
    refine Threads.forall_pairs_set (fun j z other hz hother => ?_) (fun htalks => ?_)
    · rw [List.getElem?_map, Option.map_eq_some_iff] at hz
      obtain ⟨z', hz', rfl⟩ := hz
      exact (h.linked j z' other hz' hother).notified
    · simpa [Worker.sends] using hlinked htalks
  · have hproper : ∀ ask ∈ w.sends net.transfer.shared event, ask.Proper (AsksFor parts) := by
      refine hacts.sends_proper (fun k => ?_) (fun x hx => ?_)
      · rw [(hdelivered.names k).1]
        exact ⟨⟨k, rfl⟩, hasks.ids k⟩
      · have hset := Threads.self_mem_set hw w'
        have hchunk := (conserved hhonest.reachable).mem_chunks hset (List.mem_append_right _ hx)
        exact ((hasks.tiles _).bounds hchunk).2.1
    exact Threads.forall_pairs_set h.linked (hacts.linked hok hlinked hheard hproper)

theorem inv_server (h : net.Inv settings stream pool parts) {i : Nat} {moment : Moment}
    {link link' : Link} (hlink : net.links[i]? = some link)
    (hserved : link.served ctx session moment = some link')
    (hexpander : settings.expander = expanders.toExpander client display)
    (hinverse : Inverse ctx.compressors expanders) (hmoment : moment.Streams ctx.build stream (AsksFor parts)) :
    Inv settings stream pool parts { net with links := net.links.set i link' } := by
  refine ⟨h.honest, fun j w other hw hother htalks conn hconn => ?_⟩
  dsimp only at hw hother
  rw [List.getElem?_set] at hother
  by_cases hij : i = j
  · subst hij
    rw [if_pos rfl] at hother
    split at hother
    · cases hother
      exact (h.linked i w link hw hlink htalks conn hconn).served hserved hexpander hinverse hmoment
    · cases hother
  · rw [if_neg hij] at hother
    exact h.linked j w other hw hother htalks conn hconn

/-- A transfer that talks to servers of this code is one that talks to an honest server. -/
theorem inv (hasks : Asks pool parts stream)
    (hexpander : settings.expander = expanders.toExpander client display)
    (hinverse : Inverse ctx.compressors expanders)
    (h : (system settings ctx session pool parts).ReachableWhere (Streams ctx.build stream parts) net) :
    net.Inv settings stream pool parts := by
  refine System.Inductive.holds (P := Streams ctx.build stream parts) ⟨?_, ?_⟩ h
  · intro s hs
    rw [show s = start pool parts from hs]
    exact inv_start hasks
  · intro s s' label hs hstreams hstep
    cases label with
    | client i event =>
        obtain ⟨transfer, htransfer, hstep⟩ := Option.bind_eq_some_iff.mp hstep
        obtain ⟨w, hw, hstep⟩ := Option.bind_eq_some_iff.mp hstep
        obtain ⟨link, hlink, hstep⟩ := Option.bind_eq_some_iff.mp hstep
        obtain ⟨link', hheard, hstep⟩ := Option.bind_eq_some_iff.mp hstep
        cases hstep
        exact inv_client hasks hs htransfer hw hlink hheard
    | server i moment =>
        obtain ⟨link, hlink, hstep⟩ := Option.bind_eq_some_iff.mp hstep
        obtain ⟨link', hserved, hstep⟩ := Option.bind_eq_some_iff.mp hstep
        cases hstep
        exact inv_server hs hlink hserved hexpander hinverse hstreams

end Net

end Aex
