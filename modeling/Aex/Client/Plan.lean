import Aex.Client.Error
import Aex.Core.BlockDecode
import Aex.Core.Selection.Resolve
import Aex.Lib.Fallible
import Aex.Wire.Frame

/-!
# Plans

What a client asks a server to prepare, and what it makes of the answer.  A plan
is the whole description of a transfer: an element type and a shape, and either
the data itself or the identifiers the data plane needs.
-/

namespace Aex

/-! ## Messages -/

namespace Proto

structure QualitySpec where
  encoding : Int
  castDtype : Option Int
  absErrorBound : Option F64
  relErrorBound : Option F64
  deriving Repr, DecidableEq

structure PrepareSelectionRequest where
  handle : Nat
  name : String
  indices : List Index
  requestedQuality : Option QualitySpec
  requestedCodec : Nat
  deriving Repr, DecidableEq

structure TransferPlan where
  requestId : Nat
  ticket : List UInt8
  dtype : Int
  shape : List Int
  totalBytes : Nat
  codec : Nat
  appliedQuality : Option QualitySpec
  inlineData : List UInt8
  deriving Repr, DecidableEq

inductive TransferPlanOrError where
  | plan (plan : TransferPlan)
  | error (klass : Int) (message : String)
  deriving Repr, DecidableEq

end Proto

/-- From the proto value. -/
def Encoding.fromI32 (v : Int) : Option Encoding :=
  if v < 0 ∨ 255 < v then none else fromU8 (UInt8.ofNat v.toNat)

/-- From the proto value. -/
def Codec.fromU32 (v : Nat) : Option Codec := if 255 < v then none else fromU8 (UInt8.ofNat v)

/-- Anything this build cannot name reads as the lossless default. -/
def qualityFromProto : Option Proto.QualitySpec → QualitySpec
  | none => .exact
  | some quality =>
      match Encoding.fromI32 quality.encoding with
      | none => .exact
      | some encoding =>
          { encoding
            castDtype := quality.castDtype.bind fun d => (DType.fromI32 d).toOption
            absErrorBound := quality.absErrorBound
            relErrorBound := quality.relErrorBound
            codec := none }

def qualityToProto (quality : QualitySpec) : Proto.QualitySpec where
  encoding := quality.encoding.asU8.toNat
  castDtype := quality.castDtype.map fun dtype => dtype.asI32.toNat
  absErrorBound := quality.absErrorBound
  relErrorBound := quality.relErrorBound

/-- The most of a quality this build could expand if it arrived. -/
def expandable (build : Build) (quality : QualitySpec) : QualitySpec :=
  if quality.encoding.isSupported build && (quality.codecFor build).isSupported build then quality
  else .exact

/-! ## Plans -/

/-- A resolved selection, ready to fetch. -/
structure Plan where
  /-- 0 when the data came back inline and there is nothing to fetch. -/
  requestId : Nat
  ticket : Ticket
  dtype : DType
  shape : List Nat
  totalBytes : Nat
  /-- What the server did to the elements, which may be less than asked. -/
  appliedQuality : QualitySpec
  requestedQuality : QualitySpec
  inlineData : List UInt8
  deriving Repr, DecidableEq

/-- The wire carries shapes as int64, as numpy does. -/
def shapeFromProto (shape : List Int) : Except ClientError (List Nat) :=
  shape.mapM fun n =>
    if n < 0 then .error (.protocol s!"negative axis length {n} in a shape") else .ok n.toNat

/-- Bytes in an array.  Saturates, so that a shape from a broken server is a length
mismatch. -/
def nbytes (shape : List Nat) (dtype : DType) : Nat :=
  shape.foldl (Word.saturatingMul 64) dtype.itemsize

/-- A zero request id is how the server says that the data is attached. -/
def ticketFromProto (plan : Proto.TransferPlan) : Except ClientError Ticket :=
  if plan.requestId = 0 then .ok (Vector.replicate 16 0)
  else if h : plan.ticket.length = 16 then .ok ⟨plan.ticket.toArray, by simpa using h⟩
  else .error (.protocol
    s!"a transfer plan carries a {plan.ticket.length} byte ticket, not {ticketLen}")

namespace Plan

/-- Whether the data came back with the plan. -/
def isInline (plan : Plan) : Bool := plan.requestId == 0

/-- Reject a plan that does not describe itself consistently. -/
def check (plan : Plan) : Except ClientError Unit :=
  if nbytes plan.shape plan.dtype ≠ plan.totalBytes then
    .error (.protocol <| s!"a plan for {plan.shape} of {plan.dtype} says it is " ++
      s!"{plan.totalBytes} bytes, not {nbytes plan.shape plan.dtype}")
  else if plan.isInline ∧ plan.inlineData.length ≠ plan.totalBytes then
    .error (.protocol <| s!"a plan carrying its data inline holds {plan.inlineData.length} of " ++
      s!"{plan.totalBytes} bytes")
  else .ok ()

def fromProto (plan : Proto.TransferPlan) (requestedQuality : QualitySpec) :
    Except ClientError Plan := do
  let dtype ← (DType.fromI32 plan.dtype).mapError fun e => .protocol e.message
  let shape ← shapeFromProto plan.shape
  let ticket ← ticketFromProto plan
  let plan : Plan :=
    { requestId := plan.requestId
      ticket, dtype, shape
      totalBytes := plan.totalBytes
      appliedQuality := { qualityFromProto plan.appliedQuality with codec := Codec.fromU32 plan.codec }
      requestedQuality
      inlineData := plan.inlineData }
  plan.check
  .ok plan

/-- Two plans describe data of one type, shape and quality. -/
structure Same (a b : Plan) : Prop where
  dtype : a.dtype = b.dtype
  shape : a.shape = b.shape
  quality : a.appliedQuality = b.appliedQuality

theorem Same.refl (plan : Plan) : plan.Same plan := ⟨rfl, rfl, rfl⟩

/-- What a plan that passed its check says about itself. -/
structure Consistent (plan : Plan) : Prop where
  length : nbytes plan.shape plan.dtype = plan.totalBytes
  attached : plan.isInline = true → plan.inlineData.length = plan.totalBytes

theorem check_eq_ok {plan : Plan} : plan.check = .ok () ↔ plan.Consistent := by
  unfold check
  constructor
  · intro h
    split at h
    · cases h
    rename_i hlength
    split at h
    · cases h
    rename_i hattached
    exact ⟨not_not.mp hlength, fun hinline => by
      simpa [hinline] using hattached⟩
  · intro h
    rw [if_neg (not_not.mpr h.length), if_neg]
    intro hbad
    exact hbad.2 (h.attached hbad.1)

/-- Every plan a client makes of an answer is consistent. -/
theorem fromProto_consistent {message : Proto.TransferPlan} {requested : QualitySpec} {plan : Plan}
    (h : fromProto message requested = .ok plan) :
    plan.Consistent ∧ plan.requestedQuality = requested := by
  obtain ⟨dtype, -, h⟩ := Fallible.bind_eq_ok.mp h
  obtain ⟨shape, -, h⟩ := Fallible.bind_eq_ok.mp h
  obtain ⟨ticket, -, h⟩ := Fallible.bind_eq_ok.mp h
  obtain ⟨_, hcheck, h⟩ := Fallible.bind_eq_ok.mp h
  cases h
  exact ⟨check_eq_ok.mp hcheck, rfl⟩

end Plan

/-! ## Preparing -/

/-- A selection of a dataset, and how it should be encoded. -/
structure ClientSelection where
  handle : Nat
  name : String
  indices : List Index
  quality : QualitySpec
  deriving Repr, DecidableEq

def prepareRequest (build : Build) (selection : ClientSelection) : Proto.PrepareSelectionRequest where
  handle := selection.handle
  name := selection.name
  indices := selection.indices
  requestedQuality := some (qualityToProto (expandable build selection.quality))
  requestedCodec := ((expandable build selection.quality).codecFor build).asU8.toNat

/-- Refuse a selection too large to travel, before it is sent. -/
def checkFancyLimit (maxFancy : Nat) (indices : List Index) : Except AexError Unit :=
  indices.forM fun
    | .fancy list =>
        if maxFancy < list.length then
          .error (.badSelection <| s!"a fancy selection of {list.length} indices is over this " ++
            s!"server's limit of {maxFancy}; split the selection, or take a range instead")
        else .ok ()
    | _ => .ok ()

/-- What is known of each selection before the server is asked. -/
def checkedLocally (maxFancy : Nat) (selection : ClientSelection) : Option ClientError :=
  match checkFancyLimit maxFancy selection.indices with
  | .ok () => none
  | .error e => some (.badRequest e.message)

/-- Hand the replies out to the selections that were asked about, in order. -/
def collectPlans (maxFancy count : Nat) :
    List ClientSelection → List (Option Proto.TransferPlanOrError) →
      Except ClientError (List (Except ClientError Plan))
  | [], _ => .ok []
  | selection :: selections, replies =>
      match checkedLocally maxFancy selection with
      | some e => do
          let rest ← collectPlans maxFancy count selections replies
          .ok (.error e :: rest)
      | none =>
          match replies with
          | some (.plan plan) :: replies => do
              let rest ← collectPlans maxFancy count selections replies
              .ok (Plan.fromProto plan selection.quality :: rest)
          | some (.error klass message) :: replies => do
              let rest ← collectPlans maxFancy count selections replies
              .ok (.error (.data (.fromU8 (if 0 ≤ klass ∧ klass ≤ 255 then klass.toNat else 255))
                message) :: rest)
          | _ => .error (.protocol s!"asked for {count} plans and got fewer back")

/-- Ask the server to resolve several selections in one round trip.  Each comes back
as a plan or as its own error. -/
def prepareMany (build : Build) (maxFancy : Nat)
    (call : List Proto.PrepareSelectionRequest →
      Except ClientError (List (Option Proto.TransferPlanOrError)))
    (selections : List ClientSelection) : Except ClientError (List (Except ClientError Plan)) := do
  let replies ← call ((selections.filter fun selection =>
    (checkedLocally maxFancy selection).isNone).map (prepareRequest build))
  collectPlans maxFancy selections.length selections replies

/-- Every selection gets an answer of its own, and every plan among them is consistent. -/
theorem collectPlans_spec {maxFancy count : Nat} {selections : List ClientSelection}
    {replies : List (Option Proto.TransferPlanOrError)} {results : List (Except ClientError Plan)}
    (h : collectPlans maxFancy count selections replies = .ok results) :
    results.length = selections.length ∧ ∀ plan, .ok plan ∈ results → plan.Consistent := by
  induction selections generalizing replies results with
  | nil =>
      cases h
      exact ⟨rfl, by simp⟩
  | cons selection selections ih =>
      have hcons : ∀ {replies first},
          (do let rest ← collectPlans maxFancy count selections replies
              .ok (first :: rest)) = Except.ok results →
          (∀ plan, first = .ok plan → plan.Consistent) →
          results.length = (selection :: selections).length ∧
            ∀ plan, .ok plan ∈ results → plan.Consistent := by
        intro replies first h hfirst
        obtain ⟨rest, hrest, h⟩ := Fallible.bind_eq_ok.mp h
        cases h
        have hih := ih hrest
        refine ⟨by rw [List.length_cons, hih.1, List.length_cons], fun plan hplan => ?_⟩
        rcases List.mem_cons.mp hplan with hplan | hplan
        · exact hfirst plan hplan.symm
        · exact hih.2 plan hplan
      unfold collectPlans at h
      split at h
      · exact hcons h fun _ hplan => by cases hplan
      split at h
      · exact hcons h fun _ hplan => (Plan.fromProto_consistent hplan).1
      · exact hcons h fun _ hplan => by cases hplan
      · cases h

theorem prepareMany_spec {build : Build} {maxFancy : Nat}
    {call : List Proto.PrepareSelectionRequest →
      Except ClientError (List (Option Proto.TransferPlanOrError))}
    {selections : List ClientSelection} {results : List (Except ClientError Plan)}
    (h : prepareMany build maxFancy call selections = .ok results) :
    results.length = selections.length ∧ ∀ plan, .ok plan ∈ results → plan.Consistent := by
  obtain ⟨replies, -, h⟩ := Fallible.bind_eq_ok.mp h
  exact collectPlans_spec h

end Aex
