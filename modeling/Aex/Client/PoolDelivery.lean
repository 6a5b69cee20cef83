import Aex.Client.PoolCoverage
import Aex.Lib.Tiling
import Mathlib.Algebra.BigOperators.Fin

/-!
# Delivery

Against a server that answers the fetches of each connection in order, what is
received of a fetch is always a prefix of its range of the plan's stream; so a
transfer that succeeds has filled every buffer with the stream, whatever broke or
failed on the way.
-/

namespace Aex

open Lts Tiling

variable {n : Nat}

/-! ## An honest server -/

section Honest

variable (settings : Settings) (stream : Nat → List UInt8)

/-- A frame the server may send next while `oldest` is the fetch it is answering:
the next bytes of the range, an error that names the fetch, or one that asks for
nothing to be stored. -/
def Answers (oldest : Asked) (header : FrameHeader) (payload : List UInt8) : Prop :=
  match header.frameType with
  | .data => header.requestId = oldest.requestId ∧
      header.offset = oldest.offset + oldest.answered ∧ 0 < header.logicalLen ∧
      oldest.answered + header.logicalLen ≤ oldest.len ∧
      DataConn.Carries settings.expander header payload
        (Vec.slice (stream oldest.requestId) header.offset header.logicalLen)
  | .error => header.requestId = oldest.requestId ∧ header.offset = oldest.offset
  | .ping | .pong => True
  | .fetch => False

/-- What comes in on a thread's connection is an answer of the server, or part of
one: a connection may break off inside a header or inside a payload. -/
def Worker.Hears (w : Worker n) : Event → Prop
  | .received (.noHeader e) => (ClientError.ofWire e).isIo = true
  | .received (.cut header part _) => ∀ conn ∈ w.held, ∃ oldest ∈ conn.asked.head?,
      ∃ payload, part <+: payload ∧ Answers settings stream oldest header payload
  | .received (.frame header payload) => ∀ conn ∈ w.held, ∃ oldest ∈ conn.asked.head?,
      Answers settings stream oldest header payload
  | _ => True

/-- The server is honest on the connection of the thread that moves. -/
def Transfer.Honest (t : Transfer n) (label : Nat × Event) : Prop :=
  ∀ w ∈ t.workers[label.1]?, w.Hears settings stream label.2

/-- The answers of a server that sends nothing but raw data, as they can be checked. -/
def Worker.hearsRaw (w : Worker n) : Event → Bool
  | .received (.frame header payload) => w.held.all fun conn => conn.asked.head?.any fun oldest =>
      header.frameType = .data && header.codec = .raw && header.requestId = oldest.requestId &&
      header.offset = oldest.offset + oldest.answered && 0 < header.logicalLen &&
      oldest.answered + header.logicalLen ≤ oldest.len &&
      payload = Vec.slice (stream oldest.requestId) header.offset header.logicalLen
  | .received _ => false
  | _ => true

variable {stream} in
theorem Worker.hears_of_raw {w : Worker n} {event : Event} (h : w.hearsRaw stream event = true) :
    w.Hears settings stream event := by
  unfold Worker.hearsRaw at h
  split at h
  · rename_i header payload
    intro conn hconn
    rw [Option.all_eq_true] at h
    obtain ⟨oldest, holdest, h⟩ := (Option.any_eq_true _ _).mp (h conn hconn)
    simp only [Bool.and_eq_true, decide_eq_true_eq] at h
    obtain ⟨⟨⟨⟨⟨⟨htype, hraw⟩, hid⟩, hoffset⟩, hpos⟩, hfits⟩, hpayload⟩ := h
    refine ⟨oldest, holdest, ?_⟩
    simp only [Answers, htype]
    exact ⟨hid, hoffset, hpos, hfits, by rw [DataConn.Carries, if_pos hraw]; exact hpayload⟩
  · cases h
  · rename_i hnot
    unfold Worker.Hears
    split <;> first | trivial | exact absurd rfl (hnot _)

end Honest

/-! ## Both ends of a connection -/

/-- The fetch as the server sees it. -/
def InFlight.asked (parts : Vector FetchPart n) (x : InFlight n) : Asked :=
  ⟨(parts.get x.chunk.part).requestId, (parts.get x.chunk.part).ticket, x.chunk.offset,
    x.chunk.len, x.received⟩

/-- Whether a thread there goes on using the connection it holds. -/
def Pc.talks : Pc n → Bool
  | .givingBack _ _ | .clearing _ _ | .failing _ true | .leaving _ | .gone => false
  | _ => true

/-- The two ends of a connection in use agree on what is outstanding. -/
def Worker.Attuned (parts : Vector FetchPart n) (w : Worker n) : Prop :=
  w.pc.talks = true → ∀ conn ∈ w.held, conn.asked = w.flight.map (InFlight.asked parts)

/-- The requests a transfer makes are those of its parts. -/
def Shared.Names (parts : Vector FetchPart n) (sh : Shared n) : Prop :=
  ∀ k : Fin n, (sh.parts.get k).requestId = (parts.get k).requestId ∧
    (sh.parts.get k).ticket = (parts.get k).ticket

namespace Acts

variable {settings : Settings} {sh sh' : Shared n} {w w' : Worker n} {event : Event}
  {parts : Vector FetchPart n}

theorem names (h : Acts settings sh w event sh' w') (hnames : sh.Names parts) :
    sh'.Names parts := by
  have hmodify : ∀ (sh : Shared n) (k : Fin n) (f : Part → Part), sh.Names parts →
      (∀ part, (f part).requestId = part.requestId ∧ (f part).ticket = part.ticket) →
      (sh.modifyPart k f).Names parts := by
    intro sh k f hnames hf j
    rw [Shared.modifyPart_getElem]
    split
    · rename_i h
      subst h
      rw [(hf _).1, (hf _).2]
      exact hnames k
    · exact hnames j
  cases h with
  | sent | notSent | dataBroken | refused | drains | clears =>
      exact hmodify _ _ _ hnames fun _ => ⟨rfl, rfl⟩
  | @accepted hpc conn hheld front front' rest hflight header payload bytes htype hformed hdata
      hfront sh' w' hnext =>
      have hwrite : (sh.write front bytes).Names parts :=
        hmodify _ _ _ hnames fun _ => ⟨rfl, rfl⟩
      rcases hnext with ⟨-, rfl, rfl⟩ | ⟨-, rfl, rfl⟩
      · exact hmodify { sh.write front bytes with wireBytes := _ } _ _ hwrite fun _ => ⟨rfl, rfl⟩
      · exact hwrite
  | _ => exact hnames

/-- A data frame that arrives carries on where the oldest fetch has got to. -/
theorem follows {stream : Nat → List UInt8} {front : InFlight n} {rest : List (InFlight n)}
    {header : FrameHeader} {payload : List UInt8} {failure : Option IoFailure}
    (hpc : w.pc = .reading) (hok : w.Ok) (hattuned : w.Attuned parts)
    (hflight : w.flight = front :: rest)
    (hevent : event = .received (.frame header payload) ∧ failure = none ∨
      ∃ f, event = .received (.cut header payload f) ∧ failure = some f)
    (htype : header.frameType = .data) (hhears : w.Hears settings stream event) :
    header.offset = front.chunk.offset + front.received ∧
      front.received + header.logicalLen ≤ front.chunk.len ∧
      (failure = none → DataConn.Carries settings.expander header payload (Vec.slice
        (stream (parts.get front.chunk.part).requestId) header.offset header.logicalLen)) := by
  simp only [Worker.Ok, hpc] at hok
  obtain ⟨conn, hheld⟩ := Option.ne_none_iff_exists'.mp hok.2.1
  have hasked := hattuned (by simp [hpc, Pc.talks]) conn hheld
  rw [hflight, List.map_cons] at hasked
  have hanswers : ∃ whole, (failure = none → whole = payload) ∧
      Answers settings stream (front.asked parts) header whole := by
    rcases hevent with ⟨rfl, rfl⟩ | ⟨f, rfl, rfl⟩
    · obtain ⟨oldest, holdest, hanswers⟩ := hhears conn hheld
      rw [hasked, List.head?_cons, Option.mem_some_iff] at holdest
      exact ⟨payload, fun _ => rfl, holdest ▸ hanswers⟩
    · obtain ⟨oldest, holdest, whole, -, hanswers⟩ := hhears conn hheld
      rw [hasked, List.head?_cons, Option.mem_some_iff] at holdest
      exact ⟨whole, by simp, holdest ▸ hanswers⟩
  obtain ⟨whole, hwhole, hanswers⟩ := hanswers
  simp only [Answers, htype, InFlight.asked] at hanswers
  obtain ⟨-, hoffset, -, hfits, hcarries⟩ := hanswers
  exact ⟨hoffset, hfits, fun hf => hwhole hf ▸ hcarries⟩

/-- A connection in use stays attuned. -/
theorem attuned {stream : Nat → List UInt8} (h : Acts settings sh w event sh' w') (hok : w.Ok)
    (hnames : sh.Names parts) (hattuned : w.Attuned parts) (hhears : w.Hears settings stream event) :
    w'.Attuned parts := by
  have hsame : ∀ {pc : Pc n} {owes : Bool} {lost : List (Chunk n)}, w.pc.talks = true →
      Worker.Attuned parts ⟨pc, w.held, w.flight, owes, lost⟩ := fun htalks _ => hattuned htalks
  have hnone : ∀ {w : Worker n}, w.held = none → w.Attuned parts := by
    intro w hheld _ conn hconn
    rw [hheld] at hconn
    cases hconn
  cases h with
  | unaccounted | gaveNothing | broken | dataBroken => exact hnone rfl
  | @gaveBack fresh e hpc => exact hnone (w := { w.broke e with owes := true }) rfl
  | reconnected hpc =>
      simp only [Worker.Ok, hpc] at hok
      rintro - conn hconn
      cases hconn
      simp [hok.1]
  | @sent chunk fresh hpc conn hheld slice scatter hclaim =>
      have hasked := hattuned (by simp [hpc, Pc.talks]) conn hheld
      rintro - conn' hconn
      cases hconn
      rw [DataConn.sendFetch, hasked, List.map_append, (hnames chunk.part).1,
        (hnames chunk.part).2]
      rfl
  | @accepted hpc conn hheld front front' rest hflight header payload bytes htype hformed hdata
      hfront sh' w' hnext =>
      obtain ⟨hoffset, hfits, -⟩ := follows hpc hok hattuned hflight
        (.inl ⟨rfl, rfl⟩) htype hhears
      have hasked := hattuned (by simp [hpc, Pc.talks]) conn hheld
      rw [hflight, List.map_cons] at hasked
      have hanswered : conn.answered header =
          if front.received + header.logicalLen < front.chunk.len then
            ⟨front'.asked parts :: rest.map (InFlight.asked parts)⟩
          else ⟨rest.map (InFlight.asked parts)⟩ := by
        simp only [DataConn.answered, hasked, htype, InFlight.asked, hfront]
      rcases hnext with ⟨hfull, -, rfl⟩ | ⟨hmore, -, rfl⟩
      · rintro - conn' hconn
        cases hconn
        have hfull : front.chunk.len ≤ front.received + header.logicalLen := by
          rw [hfront] at hfull
          exact hfull
        rw [hanswered, if_neg (by omega)]
      · rintro - conn' hconn
        cases hconn
        have hmore : front.received + header.logicalLen < front.chunk.len := by
          rw [hfront] at hmore
          exact hmore
        rw [hanswered, if_pos hmore]
        rfl
  | @refused hpc conn hheld front rest hflight header payload htype hid w' hnext =>
      have hasked := hattuned (by simp [hpc, Pc.talks]) conn hheld
      rw [hflight, List.map_cons] at hasked
      have hanswered : conn.answered header = ⟨rest.map (InFlight.asked parts)⟩ := by
        simp only [DataConn.answered, hasked, htype, if_neg hid]
      rcases hnext with ⟨message, rfl⟩ | ⟨chunk, hretried, rfl⟩ | ⟨error, rfl⟩
      · exact hnone rfl
      all_goals
        rintro - conn' hconn
        cases hconn
        rw [hanswered]
  | drains hpc hflight hnext =>
      simp only [Worker.Ok, hpc] at hok
      rcases hnext with ⟨chunk, hretried, rfl⟩ | ⟨-, rfl⟩ <;> exact hnone hok.1
  | @requeues chunk after hpc =>
      rcases after with _ | ⟨e, exhausted⟩
      · exact hsame (by simp [hpc, Pc.talks])
      · simp only [Worker.Ok, hpc] at hok
        exact hnone hok.1
  | drained hpc hflight =>
      simp only [Worker.Ok, hpc] at hok
      exact hnone hok.1
  | @cleared e panicked hpc hflight =>
      simp only [Worker.Ok, hpc] at hok
      cases panicked with
      | true => exact fun htalks => absurd htalks (by simp [Pc.talks])
      | false => exact hnone (hok rfl)
  | clears hpc => exact fun htalks => absurd htalks (by simp [hpc, Pc.talks])
  | @fails e panicked hpc =>
      cases panicked with
      | true => exact fun htalks => absurd htalks (by simp [Pc.talks])
      | false => exact hsame (by simp [hpc, Pc.talks])
  | leaves hpc => exact fun htalks => absurd htalks (by simp [Pc.talks])
  | notSpawned hpc | notReconnected hpc => exact fun htalks => absurd htalks (by simp [Pc.talks])
  | notClaimed hpc | notSent hpc | panicked hpc =>
      exact fun htalks => absurd htalks (by simp [Pc.talks])
  | started hpc | gaveUp hpc | reconnects hpc | toppedUp hpc | finished hpc | waits hpc
  | woken hpc | asked hpc | pinged hpc | completes hpc =>
      exact hsame (by simp [hpc, Pc.talks])

end Acts

/-! ## Who fills a byte -/

/-- Whether the byte at `p` of part `k` belongs to a chunk. -/
def covers (k : Fin n) (p : Nat) (key : Fin n × Nat × Nat) : Bool := key.1 = k && holds p key.2

theorem covers_key {k : Fin n} {p : Nat} {c : Chunk n} :
    covers k p c.key = true ↔ c.part = k ∧ c.offset ≤ p ∧ p < c.offset + c.len := by
  show covers k p (c.part, c.offset, c.len) = true ↔ _
  simp only [covers, holds, Bool.and_eq_true, decide_eq_true_eq]

/-- The chunks of every part tile its buffer. -/
def Tiled (parts : Vector FetchPart n) : Prop :=
  ∀ k : Fin n, Partitions (parts.get k).chunks (parts.get k).dst.length

theorem count_covers (parts : Vector FetchPart n) (k : Fin n) (p : Nat) :
    Chunk.count (covers k p) (Transfer.chunksOf parts) = (parts.get k).chunks.countP (holds p) := by
  rw [Chunk.count, Transfer.chunksOf, List.countP_flatMap, ← Fin.sum_univ_def]
  rw [Finset.sum_eq_single k]
  · rw [Function.comp_apply, List.countP_map]
    congr 1
    funext c
    simp [covers, Chunk.key]
  · intro j _ hj
    rw [Function.comp_apply, List.countP_eq_zero]
    intro c hc
    obtain ⟨range, -, rfl⟩ := List.mem_map.mp hc
    simp [covers, Chunk.key, hj]
  · simp

theorem Worker.one_le_tally {w : Worker n} {x : InFlight n} {q : Fin n × Nat × Nat → Bool}
    (hx : x ∈ w.records) (hq : q x.chunk.key = true) : 1 ≤ w.tally q := by
  refine List.countP_pos_iff.mpr ⟨x.chunk, List.mem_append_left _ ?_, hq⟩
  refine List.mem_append_right _ ?_
  rcases List.mem_append.mp hx with hx | hx
  · refine List.mem_append_left _ ?_
    unfold Pc.done at hx
    split at hx
    · rename_i done hpc
      obtain rfl := List.mem_singleton.mp hx
      simp [Pc.inHand, hpc]
    · cases hx
  · exact List.mem_append_right _ (List.mem_map_of_mem hx)

namespace Transfer

variable {settings : Settings} {stream : Nat → List UInt8} {pool : DataPool}
  {parts : Vector FetchPart n} {t : Transfer n}

namespace Conserved

variable {i : Nat} {w : Worker n} (h : t.Conserved parts)
include h

/-- A chunk held by a thread is a chunk of the batch. -/
theorem mem_chunks (hw : w ∈ t.workers) {x : InFlight n} (hx : x ∈ w.records) :
    (x.chunk.offset, x.chunk.len) ∈ (parts.get x.chunk.part).chunks := by
  obtain ⟨i, hi⟩ := List.getElem?_of_mem hw
  have htally := h.tally (· == x.chunk.key)
  have hone := Worker.one_le_tally (q := (· == x.chunk.key)) hx (by simp)
  have hle := Threads.le_sum hi (Worker.tally (· == x.chunk.key))
  have hpos : 0 < Chunk.count (· == x.chunk.key) (chunksOf parts) := by omega
  obtain ⟨c, hc, hkey⟩ := List.countP_pos_iff.mp hpos
  simp only [chunksOf, List.mem_flatMap, List.mem_map] at hc
  obtain ⟨k, -, range, hrange, rfl⟩ := hc
  simp only [Chunk.key, beq_iff_eq, Prod.mk.injEq] at hkey
  obtain ⟨rfl, hoffset, hlen⟩ := hkey
  rwa [← hoffset, ← hlen]

/-- Of the fetches that are under way or completed, only the one being answered has a
byte of its range. -/
theorem alone (htiled : Tiled parts) (hw : t.workers[i]? = some w) {front : InFlight n}
    {rest : List (InFlight n)} (hflight : w.flight = front :: rest) {k : Fin n} {p : Nat}
    (hfront : covers k p front.chunk.key = true) :
    (∀ x ∈ t.shared.completed, covers k p x.chunk.key = false) ∧
    (∀ z ∈ t.workers.eraseIdx i, ∀ x ∈ z.records, covers k p x.chunk.key = false) ∧
    ∀ x ∈ rest, covers k p x.chunk.key = false := by
  have htally := h.tally (covers k p)
  rw [count_covers, (htiled k).once p,
    ((Threads.perm_of_getElem? hw).map (Worker.tally (covers k p))).sum_eq, List.map_cons,
    List.sum_cons] at htally
  have hself : w.tally (covers k p) = Chunk.count (covers k p) w.pc.fresh +
      Chunk.count (covers k p) w.pc.inHand + (1 + Chunk.count (covers k p)
        (rest.map InFlight.chunk)) + Chunk.count (covers k p) w.lost := by
    rw [Worker.tally_eq, hflight, List.map_cons, Chunk.count_cons, hfront, Bool.toNat_true]
    omega
  have hle : (if p < (parts.get k).dst.length then 1 else 0) ≤ 1 := by split <;> omega
  refine ⟨fun x hx => ?_, fun z hz x hx => ?_, fun x hx => ?_⟩
  all_goals
    by_contra hcovers
    rw [Bool.not_eq_false] at hcovers
  · have : 1 ≤ t.shared.tally (covers k p) := by
      rw [Shared.tally_eq]
      have : 0 < Chunk.count (covers k p) (t.shared.completed.map InFlight.chunk) :=
        List.countP_pos_iff.mpr ⟨x.chunk, List.mem_map_of_mem hx, hcovers⟩
      omega
    omega
  · obtain ⟨j, hj⟩ := List.getElem?_of_mem hz
    have := Threads.le_sum hj (Worker.tally (covers k p))
    have := Worker.one_le_tally hx hcovers
    omega
  · have : 0 < Chunk.count (covers k p) (rest.map InFlight.chunk) :=
      List.countP_pos_iff.mpr ⟨x.chunk, List.mem_map_of_mem hx, hcovers⟩
    omega

end Conserved

/-! ## What the buffers hold -/

/-- The bytes of part `k` from `start` up to `stop` are those of the stream. -/
def Holds (parts : Vector FetchPart n) (stream : Nat → List UInt8) (sh : Shared n) (k : Fin n)
    (start stop : Nat) : Prop :=
  ∀ p, start ≤ p → p < stop → (sh.parts.get k).dst[p]? = (stream (parts.get k).requestId)[p]?

/-- What is received is a prefix of what was asked for, and what is completed is whole. -/
structure Delivered (parts : Vector FetchPart n) (stream : Nat → List UInt8) (t : Transfer n) :
    Prop where
  names : t.shared.Names parts
  length : ∀ k : Fin n, (t.shared.parts.get k).dst.length = (parts.get k).dst.length
  attuned : ∀ w ∈ t.workers, w.Attuned parts
  slice : ∀ w ∈ t.workers, ∀ x ∈ w.records, x.slice = ⟨x.chunk.offset, x.chunk.len⟩
  received : ∀ w ∈ t.workers, ∀ x ∈ w.records, x.received ≤ x.chunk.len
  full : ∀ w ∈ t.workers, ∀ x, w.pc = .completing x → x.chunk.len ≤ x.received
  prefixes : ∀ w ∈ t.workers, ∀ x ∈ w.records,
    Holds parts stream t.shared x.chunk.part x.chunk.offset (x.chunk.offset + x.received)
  completed : ∀ x ∈ t.shared.completed,
    Holds parts stream t.shared x.chunk.part x.chunk.offset (x.chunk.offset + x.chunk.len)

/-- The bytes of a part after a slice of it was filled. -/
theorem write_getElem? {sh : Shared n} {x : InFlight n} {bytes : List UInt8}
    (hinside : x.slice.offset + bytes.length ≤ (sh.parts.get x.chunk.part).dst.length) (k : Fin n)
    (p : Nat) : ((sh.write x bytes).parts.get k).dst[p]? =
      if x.chunk.part = k ∧ x.slice.offset ≤ p ∧ p < x.slice.offset + bytes.length then
        bytes[p - x.slice.offset]? else (sh.parts.get k).dst[p]? := by
  rw [Shared.write, Shared.modifyPart_getElem]
  by_cases hk : x.chunk.part = k
  · subst hk
    simp only [if_true, true_and]
    exact Vec.getElem?_write hinside
  · simp [hk]

section Stores

variable {sh sh' : Shared n} {w w' : Worker n} {event : Event} {front : InFlight n}
  {header : FrameHeader} {payload bytes : List UInt8} {failure : Option IoFailure}
  {result : Except ClientError Unit}
  (h : Stores settings sh w event sh' w' front header payload bytes failure result)
  (hslice : front.slice = ⟨front.chunk.offset, front.chunk.len⟩)
  (hinside : front.chunk.offset + front.chunk.len ≤ (sh.parts.get front.chunk.part).dst.length)
include h hslice hinside

theorem stores_getElem? (k : Fin n) (p : Nat) : (sh'.parts.get k).dst[p]? =
    if front.chunk.part = k ∧ front.chunk.offset ≤ p ∧ p < front.chunk.offset + front.chunk.len
    then bytes[p - front.chunk.offset]? else (sh.parts.get k).dst[p]? := by
  have hlen : bytes.length = front.chunk.len := by
    rw [(DataConn.receiveData_unchanged h.receive h.payload_le).1, hslice]
    exact Vec.length_slice hinside
  rw [h.written, write_getElem? (by rw [hslice, hlen]; exact hinside), hslice, hlen]

theorem stores_length (k : Fin n) : (sh'.parts.get k).dst.length = (sh.parts.get k).dst.length := by
  have hlen : bytes.length = front.chunk.len := by
    rw [(DataConn.receiveData_unchanged h.receive h.payload_le).1, hslice]
    exact Vec.length_slice hinside
  rw [h.written, Shared.write, Shared.modifyPart_getElem]
  split
  · rename_i hk
    subst hk
    exact Vec.length_write (by rw [hslice, hlen]; exact hinside)
  · rfl

/-- Bytes outside the frame stay what they were. -/
theorem stores_unchanged {k : Fin n} {p : Nat} (hout : front.chunk.part = k →
    p < header.offset ∨ header.offset + header.logicalLen ≤ p) :
    (sh'.parts.get k).dst[p]? = (sh.parts.get k).dst[p]? := by
  rw [stores_getElem? h hslice hinside]
  split
  · rename_i hin
    obtain ⟨rfl, hlow, hhigh⟩ := hin
    have hout := hout rfl
    rw [(DataConn.receiveData_unchanged h.receive h.payload_le).2 _ (by omega), hslice,
      Vec.getElem?_slice, if_pos (Nat.sub_lt_left_of_lt_add hlow hhigh)]
    exact congrArg _ (Nat.add_sub_of_le hlow)
  · rfl

/-- Bytes of an accepted frame are those it carries. -/
theorem stores_carries {content : List UInt8} {p : Nat} (hok : failure = none ∧ result = .ok ())
    (hcarries : DataConn.Carries settings.expander header payload content)
    (hcontent : content.length = header.logicalLen) (hlow : front.chunk.offset ≤ header.offset)
    (hhigh : header.offset + header.logicalLen ≤ front.chunk.offset + front.chunk.len)
    (hp : header.offset ≤ p) (hp' : p < header.offset + header.logicalLen) :
    (sh'.parts.get front.chunk.part).dst[p]? = content[p - header.offset]? := by
  obtain ⟨rfl, rfl⟩ := hok
  rw [stores_getElem? h hslice hinside, if_pos ⟨rfl, by omega, by omega⟩,
    DataConn.receiveData_carries h.receive hcontent hcarries (by omega) (by omega)]
  congr 1
  omega

end Stores

/-! ## Every run against an honest server -/

theorem delivered_start (hidle : ∀ held ∈ pool.conns, ∀ conn ∈ held, conn.asked = []) :
    (start pool parts).Delivered parts stream := by
  have hworker : ∀ w ∈ (start pool parts).workers, ∃ held ∈ pool.conns, w =
      ⟨.start, held, [], false, []⟩ := by
    intro w hw
    obtain ⟨held, hheld, rfl⟩ := List.mem_map.mp hw
    exact ⟨held, List.mem_of_mem_take hheld, rfl⟩
  refine ⟨?_, ?_, ?_, ?_, ?_, ?_, ?_, ?_⟩
  · intro k
    simp [start, FetchPart.split]
  · intro k
    simp [start, FetchPart.split]
  · rintro w hw - conn hconn
    obtain ⟨held, hheld, rfl⟩ := hworker w hw
    exact hidle held hheld conn hconn
  · intro w hw x hx
    obtain ⟨held, -, rfl⟩ := hworker w hw
    cases hx
  · intro w hw x hx
    obtain ⟨held, -, rfl⟩ := hworker w hw
    cases hx
  · intro w hw x hpc
    obtain ⟨held, -, rfl⟩ := hworker w hw
    cases hpc
  · intro w hw x hx
    obtain ⟨held, -, rfl⟩ := hworker w hw
    cases hx
  · intro x hx
    cases hx

theorem notified_attuned {w : Worker n} (h : w.Attuned parts) : w.notified.Attuned parts := by
  rcases notified_cases w with h' | ⟨hpc, h'⟩
  · rwa [h']
  · rw [h']
    exact fun _ => h (by simp [hpc, Pc.talks])

theorem delivered_notify {i : Nat} {w : Worker n} (h : t.Delivered parts stream)
    (hw : t.workers[i]? = some w) : Delivered parts stream { t with
      workers := (t.workers.map Worker.notified).set i { w with owes := false } } := by
  have hmem := List.mem_of_getElem? hw
  have hrecords : ∀ {P : InFlight n → Prop}, (∀ w ∈ t.workers, ∀ x ∈ w.records, P x) →
      ∀ w' ∈ (t.workers.map Worker.notified).set i { w with owes := false },
        ∀ x ∈ w'.records, P x := by
    intro P hP
    refine Threads.forall_mem_set ?_ (hP w hmem)
    intro y hy
    obtain ⟨z, hz, rfl⟩ := List.mem_map.mp hy
    rw [notified_records]
    exact hP z hz
  refine ⟨h.names, h.length, Threads.forall_mem_set ?_ (h.attuned w hmem), hrecords h.slice,
    hrecords h.received, Threads.forall_mem_set ?_ (h.full w hmem), hrecords h.prefixes,
    h.completed⟩
  · intro y hy
    obtain ⟨z, hz, rfl⟩ := List.mem_map.mp hy
    exact notified_attuned (h.attuned z hz)
  · intro y hy x hpc
    obtain ⟨z, hz, rfl⟩ := List.mem_map.mp hy
    exact h.full z hz x (notified_completing hpc)

theorem Holds.congr {sh sh' : Shared n} {k : Fin n} {start stop : Nat}
    (h : Holds parts stream sh k start stop)
    (hsame : ∀ p, start ≤ p → p < stop → (sh'.parts.get k).dst[p]? = (sh.parts.get k).dst[p]?) :
    Holds parts stream sh' k start stop := fun p hp hp' =>
  (hsame p hp hp').trans (h p hp hp')

theorem delivered_act {i : Nat} {event : Event} {w w' : Worker n} {sh' : Shared n}
    (htiled : Tiled parts)
    (hstream : ∀ k : Fin n, (stream (parts.get k).requestId).length = (parts.get k).dst.length)
    (hc : t.Conserved parts) (h : t.Delivered parts stream) (hw : t.workers[i]? = some w)
    (hhears : w.Hears settings stream event) (hacts : Acts settings t.shared w event sh' w') :
    Delivered parts stream ⟨sh', t.workers.set i w'⟩ := by
  have hmem := List.mem_of_getElem? hw
  have hok := hc.ok w hmem
  have hattuned : ∀ z ∈ t.workers.set i w', z.Attuned parts := Threads.forall_mem_set h.attuned
    (hacts.attuned hok h.names (h.attuned w hmem) hhears)
  have hfull : ∀ z ∈ t.workers.set i w', ∀ x, z.pc = .completing x → x.chunk.len ≤ x.received :=
    Threads.forall_mem_set h.full fun x hpc => hacts.full_of_completing hpc
  -- A fetch that was completed held its range while the thread counted it.
  have hcompleted : ∀ x ∈ sh'.completed,
      Holds parts stream t.shared x.chunk.part x.chunk.offset (x.chunk.offset + x.chunk.len) := by
    intro x hx
    rcases hacts.mem_completed hx with hx | hpc
    · exact h.completed x hx
    · have hdone : x ∈ w.records := by simp [Worker.records, hpc, Pc.done]
      have hreceived := h.full w hmem x hpc
      intro p hp hp'
      exact h.prefixes w hmem x hdone p hp (by omega)
  rcases hacts.effect with ⟨hsame, hrecords⟩ |
    ⟨front, header, payload, bytes, failure, result, hstores⟩
  · have hholds : ∀ {k : Fin n} {start stop : Nat}, Holds parts stream t.shared k start stop →
        Holds parts stream sh' k start stop := fun hold =>
      hold.congr fun p _ _ => by rw [hsame]
    refine ⟨hacts.names h.names, fun k => by rw [hsame]; exact h.length k, hattuned,
      Threads.forall_mem_set h.slice ?_, Threads.forall_mem_set h.received ?_, hfull,
      Threads.forall_mem_set (fun z hz x hx => hholds (h.prefixes z hz x hx)) ?_,
      fun x hx => hholds (hcompleted x hx)⟩
    · intro x hx
      rcases hrecords x hx with hx | hx
      · exact h.slice w hmem x hx
      · exact hx.slice
    · intro x hx
      rcases hrecords x hx with hx | hx
      · exact h.received w hmem x hx
      · simp [hx.received]
    · intro x hx
      rcases hrecords x hx with hx | hx
      · exact hholds (h.prefixes w hmem x hx)
      · intro p hp hp'
        rw [hx.received] at hp'
        omega
  · obtain ⟨rest, hflight⟩ := hstores.oldest
    have hwrecords : w.records = front :: rest := by
      simp [Worker.records, hstores.reading, Pc.done, hflight]
    have hfront : front ∈ w.records := hwrecords ▸ List.mem_cons_self
    have hslice := h.slice w hmem front hfront
    have hinside : front.chunk.offset + front.chunk.len ≤
        (t.shared.parts.get front.chunk.part).dst.length := by
      rw [h.length]
      exact (htiled _).le (hc.mem_chunks hmem hfront)
    obtain ⟨hoffset, hfits, hcarries⟩ := Acts.follows hstores.reading hok (h.attuned w hmem)
      hflight hstores.event hstores.data hhears
    -- The bytes of the frame belong to no other fetch, and to this one only from here on.
    have halone := fun p (hlow : header.offset ≤ p) (hhigh : p < header.offset + header.logicalLen) =>
      hc.alone htiled hw hflight (covers_key.mpr
        (⟨rfl, by omega, by omega⟩ : front.chunk.part = front.chunk.part ∧
          front.chunk.offset ≤ p ∧ p < front.chunk.offset + front.chunk.len))
    have hkeep : ∀ {k : Fin n} {start stop : Nat}, Holds parts stream t.shared k start stop →
        (front.chunk.part = k → ∀ p, start ≤ p → p < stop →
          ¬ (header.offset ≤ p ∧ p < header.offset + header.logicalLen)) →
        Holds parts stream sh' k start stop := by
      intro k start stop hold hout
      refine hold.congr fun p hp hp' => stores_unchanged hstores hslice hinside fun hk => ?_
      have := hout hk p hp hp'
      omega
    have hother : ∀ {x : InFlight n} {stop : Nat}, stop ≤ x.chunk.offset + x.chunk.len →
        (∀ p, covers front.chunk.part p x.chunk.key = false ∨
          ¬ (header.offset ≤ p ∧ p < header.offset + header.logicalLen)) →
        Holds parts stream t.shared x.chunk.part x.chunk.offset stop →
        Holds parts stream sh' x.chunk.part x.chunk.offset stop := by
      intro x stop hstop hnot hold
      refine hkeep hold fun hk p hp hp' hin => ?_
      rcases hnot p with h | h
      · rw [covers_key.mpr ⟨hk.symm, hp, by omega⟩] at h
        cases h
      · exact h hin
    have hprefix : ∀ x ∈ w.flight,
        Holds parts stream sh' x.chunk.part x.chunk.offset (x.chunk.offset + x.received) := by
      intro x hx
      have hxw : x ∈ w.records := List.mem_append_right _ hx
      rw [hflight] at hx
      rcases List.mem_cons.mp hx with rfl | hx
      · exact hkeep (h.prefixes w hmem x hxw) fun _ p _ hp' hin => by omega
      · refine hother (by have := h.received w hmem x hxw; omega) (fun p => ?_)
          (h.prefixes w hmem x hxw)
        by_cases hin : header.offset ≤ p ∧ p < header.offset + header.logicalLen
        · exact .inl ((halone p hin.1 hin.2).2.2 x hx)
        · exact .inr hin
    refine ⟨hacts.names h.names, fun k => (stores_length hstores hslice hinside k).trans (h.length k),
      hattuned, Threads.forall_mem_set h.slice ?_, Threads.forall_mem_set h.received ?_, hfull, ?_, ?_⟩
    · intro x hx
      rcases hstores.records x hx with hx | ⟨-, -, rfl⟩
      · exact h.slice w hmem x (List.mem_append_right _ hx)
      · exact hslice
    · intro x hx
      rcases hstores.records x hx with hx | ⟨-, -, rfl⟩
      · exact h.received w hmem x (List.mem_append_right _ hx)
      · exact hfits
    · intro z hz x hx
      rcases List.mem_cons.mp ((Threads.set_perm hw w').mem_iff.mp hz) with rfl | hz
      · rcases hstores.records x hx with hx | ⟨hfailure, hresult, rfl⟩
        · exact hprefix x hx
        · -- The prefix received before, and the frame after it.
          intro p hp hp'
          have hp' : p < front.chunk.offset + (front.received + header.logicalLen) := hp'
          by_cases hlow : p < header.offset
          · exact hprefix front (hflight ▸ List.mem_cons_self) p hp (by omega)
          · have hlen : header.offset + header.logicalLen ≤
                (stream (parts.get front.chunk.part).requestId).length := by
              rw [hstream, ← h.length]
              omega
            refine (stores_carries hstores hslice hinside ⟨hfailure, hresult⟩ (hcarries hfailure)
              (Vec.length_slice hlen) (by omega) (by omega) (Nat.le_of_not_lt hlow)
              (by omega)).trans ?_
            rw [Vec.getElem?_slice, if_pos (by omega)]
            exact congrArg _ (by omega)
      · refine hother (by
          have := h.received z (List.mem_of_mem_eraseIdx hz) x hx
          omega) (fun p => ?_) (h.prefixes z (List.mem_of_mem_eraseIdx hz) x hx)
        by_cases hin : header.offset ≤ p ∧ p < header.offset + header.logicalLen
        · exact .inl ((halone p hin.1 hin.2).2.1 z hz x hx)
        · exact .inr hin
    · intro x hx
      have hxold : x ∈ t.shared.completed := by
        rcases hacts.mem_completed hx with hx | hpc
        · exact hx
        · simp [hstores.reading] at hpc
      refine hother (Nat.le_refl _) (fun p => ?_) (hcompleted x hx)
      by_cases hin : header.offset ≤ p ∧ p < header.offset + header.logicalLen
      · exact .inl ((halone p hin.1 hin.2).1 x hxold)
      · exact .inr hin

theorem delivered (hidle : ∀ held ∈ pool.conns, ∀ conn ∈ held, conn.asked = [])
    (htiled : Tiled parts)
    (hstream : ∀ k : Fin n, (stream (parts.get k).requestId).length = (parts.get k).dst.length)
    (h : (system settings pool parts).ReachableWhere (Honest settings stream) t) :
    t.Delivered parts stream := by
  suffices hboth : t.Conserved parts ∧ t.Delivered parts stream from hboth.2
  refine System.Inductive.holds (P := Honest settings stream)
    (I := fun t => t.Conserved parts ∧ t.Delivered parts stream) ⟨?_, ?_⟩ h
  · rintro s rfl
    exact ⟨conserved_start, delivered_start hidle⟩
  · rintro s s' ⟨i, event⟩ ⟨hc, hs⟩ hhonest hstep
    obtain ⟨w, hw, ⟨howes, -, rfl⟩ | ⟨sh', w', howes, hacts, rfl⟩⟩ := step_cases hstep
    · exact ⟨conserved_notify hc hw howes, delivered_notify hs hw⟩
    · exact ⟨conserved_act hc hw howes hacts,
        delivered_act htiled hstream hc hs hw (hhonest w hw) hacts⟩

end Transfer

end Aex
