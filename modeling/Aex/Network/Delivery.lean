import Aex.Core.Selection.Faults
import Aex.Network.Links

/-!
# Selections delivered

What a client asked for is what it gets: the frames of a connection, and the buffers of
a transfer that succeeds, hold the bytes of the elements numpy selects.
-/

namespace Aex

open Lts Tiling

/-! ## Prepared selections -/

/-- A selection as the server prepared it, its elements to travel without loss. -/
structure Prepared (build : Build) extends ArraySelection build where
  /-- The array, flattened in C order. -/
  src : Nat → UInt8
  lossless : (layout.quality.codecFor build).isErrorBounded = false

namespace Prepared

variable {build : Build}

/-- The stream of the selection. -/
def stream (convert : Narrow UInt8) (p : Prepared build) : List UInt8 := p.content convert p.src

/-- A plan that reads its ranges out of the array, where it can. -/
structure Serves (convert : Narrow UInt8) (p : Prepared build) (plan : ServedPlan) : Prop where
  layout : plan.layout = p.layout
  reads : ∀ offset len (bytes : Vector UInt8 len), plan.readRange offset len = .ok bytes →
    ∃ (readSrc : ReadSrc UInt8) (scratch dst : List UInt8),
      readSrc.Honest p.src (p.shape.prod * p.dtype.itemsize) ∧ dst.length = len ∧
        p.layout.readWith 0 convert scratch readSrc offset dst = .ok bytes.toList

/-- The plan of a selection over a source: `read_range` reads into a buffer of the size
asked for. -/
def plan (convert : Narrow UInt8) (readSrc : ReadSrc UInt8) (p : Prepared build) : ServedPlan where
  layout := p.layout
  readRange offset len :=
    match p.layout.readWith 0 convert [] readSrc offset (List.replicate len 0) with
    | .ok bytes =>
        if h : bytes.length = len then .ok ⟨bytes.toArray, by simpa using h⟩
        else .error (.badSelection "a read changed the length of its buffer")
    | .error (.error e) => .error e
    | .error .panic => .error (.badSelection "a read panicked")

variable {convert : Narrow UInt8} (p : Prepared build)

theorem plan_serves {readSrc : ReadSrc UInt8}
    (h : readSrc.Honest p.src (p.shape.prod * p.dtype.itemsize)) :
    p.Serves convert (p.plan convert readSrc) := by
  refine ⟨rfl, fun offset len bytes hread => ⟨readSrc, [], List.replicate len 0, h, by simp, ?_⟩⟩
  unfold plan at hread
  dsimp only at hread
  split at hread
  · rename_i found hfound
    rw [hfound]
    split at hread
    · cases hread
      rfl
    · cases hread
  · cases hread
  · cases hread

/-- A plan that reads out of the array gives the bytes of the selection. -/
theorem Serves.streams {plan : ServedPlan} (h : p.Serves convert plan) :
    plan.Streams build (p.stream convert) := by
  have hlt := SelectionLayout.totalBytes_lt p.resolved
  constructor
  · rw [h.layout]
    exact p.length_content
  · rw [h.layout]
    exact hlt
  · intro offset len bytes hrange hread
    obtain ⟨readSrc, scratch, dst, hhonest, rfl, hread⟩ := h.reads offset len bytes hread
    rw [h.layout] at hrange
    cases p.readWith_servesOr convert scratch hhonest hrange with
    | inl heq =>
        rw [heq, Except.ok.injEq] at hread
        exact hread.symm
    | inr hfail =>
        obtain ⟨e, -, hfail⟩ := hfail
        rw [hfail] at hread
        cases hread
  · rw [h.layout]
    exact p.lossless

end Prepared

/-- Whenever the registry is asked for a plan under one of some ids, it is the one
prepared under that id. -/
def Moment.Holds (build : Build) (convert : Narrow UInt8) (prepared : Nat → Prepared build)
    (ids : Nat → Prop) (moment : Moment) : Prop :=
  ∀ requestId entry, ids requestId → moment.registry.entries.lookup requestId = some entry →
    (prepared requestId).Serves convert entry.plan

theorem Moment.Holds.streams {build : Build} {convert : Narrow UInt8}
    {prepared : Nat → Prepared build} {ids : Nat → Prop} {moment : Moment}
    (h : moment.Holds build convert prepared ids) :
    moment.Streams build (fun requestId => (prepared requestId).stream convert) ids :=
  fun requestId entry hid hentry => (h requestId entry hid hentry).streams

section Delivery

/-- On one connection: however the frames of a client arrive and whatever is done to the
registry between them, what the server sends answers them in order, each range with the
bytes of the selected elements, and every one of them while the connection lasts. -/
theorem serveFrames_replies (settings : Settings) (ctx : Context) (session : SessionId)
    (prepared : Nat → Prepared ctx.build) (ids : Nat → Prop) (convert : Narrow UInt8) (idleSec : Nat)
    (expanders : Expanders) (client : Build) (display : F64 → String) (asks : List ClientFrame)
    (moments : List Moment) (polls : List Poll)
    (hexpander : settings.expander = expanders.toExpander client display)
    (hinverse : Inverse ctx.compressors expanders) (hmoments : ∀ moment ∈ moments, moment.Holds ctx.build convert prepared ids)
    (hasks : ∀ ask ∈ asks, ask.Fits ∧ ask.Proper ids) (hpolls : ∀ p ∈ polls, p.Progresses idleSec)
    (henough : (wireBytes asks).length < givesCount polls) (s : Wired) :
    ∃ frames rest,
      (Connection.serveFrames ctx session idleSec moments ⟨s, polls, wireBytes asks⟩).2.wired.sent =
        s.sent ++ frames ∧
      Replies settings (fun requestId => (prepared requestId).stream convert)
        ⟨asks.filterMap ClientFrame.asked⟩ frames rest ∧
      ((answerAll ctx session asks moments s).1 = some (.ok .carryOn) →
        (Connection.serveFrames ctx session idleSec moments ⟨s, polls, wireBytes asks⟩).1 =
          some (.ok ()) ∧ rest.asked = []) := by
  have hserved := @serveFrames_eq ctx session idleSec polls s asks moments
    (fun ask hask => (hasks ask hask).1) hpolls henough
  have hreplies := @answerAll_replies settings (fun requestId => (prepared requestId).stream convert)
    client display ctx session expanders ids hexpander hinverse asks moments
    (fun moment hmoment => (hmoments moment hmoment).streams) (fun ask hask => (hasks ask hask).2) s
  obtain ⟨frames, rest, hsent, hreplies, hdone⟩ := hreplies
  rw [hserved.1, hserved.2]
  refine ⟨frames, rest, hsent, hreplies, fun hlast => ⟨?_, hdone hlast⟩⟩
  rw [hlast]
  rfl

namespace Net

variable {n : Nat} {pool : DataPool} {parts : Vector FetchPart n} {net : Net n}

/-- Whenever the server looks up a plan of the batch, it is the one prepared under its id. -/
def Holds (build : Build) (convert : Narrow UInt8) (prepared : Nat → Prepared build)
    (parts : Vector FetchPart n) (_ : Net n) : Label → Prop
  | .client _ _ => True
  | .server _ moment => moment.Holds build convert prepared (AsksFor parts)

/-- A transfer that succeeds has filled every buffer with the stream of its plan. -/
theorem Inv.filled {settings : Settings} {stream : Nat → List UInt8}
    (h : net.Inv settings stream pool parts) (hasks : Asks pool parts stream) {fetched : Fetched}
    (houtcome : net.transfer.outcome = some (.ok fetched)) (k : Fin n) :
    (net.transfer.shared.parts.get k).dst = stream (parts.get k).requestId := by
  have hdelivered := Transfer.delivered hasks.idle hasks.tiled hasks.lengths h.honest
  have hconserved := Transfer.conserved h.honest.reachable
  obtain ⟨hperm, -⟩ := (hconserved.outcome_ok_iff houtcome).mp ⟨fetched, rfl⟩
  apply List.ext_getElem?
  intro p
  by_cases hp : p < (parts.get k).dst.length
  · -- Some chunk has this byte, and every chunk is complete.
    have hone := (hasks.tiled k).once p
    rw [if_pos hp, ← count_covers parts k p] at hone
    have hpos : 0 < Chunk.count (covers k p) (Transfer.chunksOf parts) := by omega
    obtain ⟨c, hc, hcovers⟩ := List.countP_pos_iff.mp hpos
    obtain ⟨x, hx, hkey⟩ := List.mem_map.mp (hperm.mem_iff.mpr (List.mem_map_of_mem hc))
    rw [Function.comp_apply] at hkey
    rw [← hkey] at hcovers
    obtain ⟨hpart, hlow, hhigh⟩ := covers_key.mp hcovers
    subst hpart
    exact hdelivered.completed x hx p hlow hhigh
  · have hlen := hdelivered.length k
    have hstream := hasks.lengths k
    rw [List.getElem?_eq_none (by omega), List.getElem?_eq_none (by omega)]

/-- The streams are the bytes of the selected elements. -/
theorem Inv.selected {settings : Settings} {build : Build} {prepared : Nat → Prepared build}
    {convert : Narrow UInt8}
    (h : net.Inv settings (fun requestId => (prepared requestId).stream convert) pool parts)
    (hasks : Asks pool parts fun requestId => (prepared requestId).stream convert) {fetched : Fetched}
    (houtcome : net.transfer.outcome = some (.ok fetched)) (k : Fin n) : ∃ els,
      Numpy.selected (prepared (parts.get k).requestId).shape
        (prepared (parts.get k).requestId).indices = some els ∧
      (net.transfer.shared.parts.get k).dst =
        ((prepared (parts.get k).requestId).bytesOf convert
          (prepared (parts.get k).requestId).src els).take
          (prepared (parts.get k).requestId).layout.totalBytes := by
  obtain ⟨els, hels, -, -⟩ := @ArraySelection.exists_selected build convert
    (prepared (parts.get k).requestId).src (prepared (parts.get k).requestId).toArraySelection
  refine ⟨els, hels, ?_⟩
  rw [h.filled hasks houtcome k, Prepared.stream, ArraySelection.content, hels, Option.getD_some]

end Net

end Delivery

/-! ## A row of bytes -/

/-- The second row of two, of four bytes each. -/
def lowerRow : Prepared (zerosContext .builtIn).build where
  shape := [2, 4]
  dtype := .uint8
  indices := [.single 1]
  quality := {}
  src i := UInt8.ofNat i
  layout := ⟨[4], .uint8, .uint8, 4, {}, .contiguous 4 4⟩
  resolved := by decide
  addressed := by decide
  counted := by decide
  lossless := by decide

def lowerRowPlan : ServedPlan :=
  lowerRow.plan (fun _ narrow _ => Vector.replicate narrow.itemsize 0)
    fun at_ len => .ok (Vector.ofFn fun j : Fin len => lowerRow.src (at_ + j))

/-- A registry that holds it under request 1. -/
def lowerRowMoment : Moment where
  registry := ⟨AList.singleton 1 ⟨1, Vector.replicate 16 0, Vector.replicate 16 7, lowerRowPlan, 0⟩, ∅, 2,
    fun _ => 0, 1⟩
  nowMs := 0
  touchAt _ := 0

theorem lowerRowMoment_holds (ids : Nat → Prop) :
    lowerRowMoment.Holds (zerosContext .builtIn).build
      (fun _ narrow _ => Vector.replicate narrow.itemsize 0) (fun _ => lowerRow) ids := by
  intro requestId entry _ hentry
  have hmem := AList.mem_lookup_iff.mp (Option.mem_def.mpr hentry)
  obtain ⟨rfl, heq⟩ := Sigma.mk.inj (List.mem_singleton.mp hmem)
  cases heq
  exact lowerRow.plan_serves fun at_ len _ _ => .inl ⟨_, rfl, toList_ofFn_eq at_ len⟩

theorem zeros_inverse : Inverse (zerosContext .builtIn).compressors zerosExpanders := by
  intro src stream h
  obtain ⟨rfl, hstream⟩ := Fallible.ite_eq_ok.mp h
  cases hstream
  decide

/-- Settings of a client that can inflate the zeros. -/
def zerosSettings : Settings where
  build := ⟨false, true⟩
  expander := zerosExpanders.toExpander ⟨false, true⟩ fun _ => ""
  spec := ⟨4, 3⟩

/-- A ping and a fetch of the row, which arrive nine bytes at first and then byte by byte. -/
theorem serveFrames_replies_row : ∃ frames rest,
    (Connection.serveFrames (zerosContext .builtIn) (Vector.replicate 16 0) 1
        [lowerRowMoment, lowerRowMoment] ⟨⟨[], lowerRowMoment.registry⟩,
          .gives 8 :: .quiet 500 :: .interrupted :: List.replicate 80 (.gives 0),
          wireBytes [.ping, .fetch 1 (Vector.replicate 16 7) 0 4]⟩).2.wired.sent = [] ++ frames ∧
      Replies zerosSettings (fun _ => lowerRow.stream fun _ narrow _ => Vector.replicate narrow.itemsize 0)
        ⟨[⟨1, Vector.replicate 16 7, 0, 4, 0⟩]⟩ frames rest := by
  have hholds := lowerRowMoment_holds fun id => id = 1
  obtain ⟨frames, rest, hsent, hreplies, -⟩ := serveFrames_replies zerosSettings (zerosContext .builtIn)
    (Vector.replicate 16 0) (fun _ => lowerRow) (fun id => id = 1)
    (fun _ narrow _ => Vector.replicate narrow.itemsize 0) 1 zerosExpanders ⟨false, true⟩ (fun _ => "")
    [.ping, .fetch 1 (Vector.replicate 16 7) 0 4] [lowerRowMoment, lowerRowMoment]
    (.gives 8 :: .quiet 500 :: .interrupted :: List.replicate 80 (.gives 0)) rfl zeros_inverse
    (by simpa using hholds) (by simp [ClientFrame.Fits, ClientFrame.Proper]; decide) (by decide)
    (by decide) ⟨[], lowerRowMoment.registry⟩
  exact ⟨frames, rest, hsent, hreplies⟩

namespace Net

/-- One thread asks for the row, the server sends it and the thread takes it in. -/
def lowerRowRun : List Label :=
  [.client 0 .proceed, .client 0 .proceed, .client 0 (.sent (.ok ())), .server 0 lowerRowMoment,
    .client 0 .proceed, .client 0 (.received (.frame (.data 1 0 4) [4, 5, 6, 7])), .client 0 .proceed,
    .client 0 .proceed, .client 0 .proceed, .client 0 .proceed, .client 0 .proceed]

theorem lowerRow_outcome : (lowerRowRun.foldlM (step zerosSettings (zerosContext .builtIn)
      (Vector.replicate 16 0)) (start Transfer.onePool Transfer.fourBytes)).map
        (fun net => net.transfer.outcome) = some (some (.ok ⟨1, 0, 4⟩)) := by decide +kernel

theorem asks_fourBytes : Asks Transfer.onePool Transfer.fourBytes fun _ =>
    lowerRow.stream fun _ narrow _ => Vector.replicate narrow.itemsize 0 := by
  constructor
  · intro held hheld conn hconn
    obtain rfl := List.mem_singleton.mp hheld
    cases hconn
    rfl
  · intro k
    obtain rfl := Subsingleton.elim k 0
    exact ⟨rfl, by decide, rfl⟩
  · intro k
    obtain rfl := Subsingleton.elim k 0
    decide
  · intro k
    obtain rfl := Subsingleton.elim k 0
    exact lowerRow.length_content

end Net

end Aex
