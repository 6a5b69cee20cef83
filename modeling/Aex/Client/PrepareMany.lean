import Aex.Client.Plan
import Aex.Server.Prepare

/-!
# Answers of a batch, by position

The selections a client does not refuse itself are sent in order, and the answers
are handed back out in the same order.  Against a server that answers in order,
each selection gets its own outcome; a reply that runs out of answers fails the
whole call.
-/

namespace Aex

/-- A server that answers the requests of a batch one after the other. -/
def answerEach {σ : Type}
    (answer : σ → Proto.PrepareSelectionRequest → Proto.TransferPlanOrError × σ) :
    σ → List Proto.PrepareSelectionRequest → List Proto.TransferPlanOrError × σ
  | s, [] => ([], s)
  | s, request :: requests =>
      let (first, s) := answer s request
      let (rest, s) := answerEach answer s requests
      (first :: rest, s)

/-- What a client makes of the answer to one selection. -/
def readAnswer (selection : ClientSelection) : Proto.TransferPlanOrError → Except ClientError Plan
  | .plan plan => Plan.fromProto plan selection.quality
  | .error klass message =>
      .error (.data (.fromU8 (if 0 ≤ klass ∧ klass ≤ 255 then klass.toNat else 255)) message)

/-- The requests that are sent for a batch. -/
def sentRequests (build : Build) (maxFancy : Nat) (selections : List ClientSelection) :
    List Proto.PrepareSelectionRequest :=
  (selections.filter fun selection => (checkedLocally maxFancy selection).isNone).map
    (prepareRequest build)

section Batch

variable {σ : Type} {answer : σ → Proto.PrepareSelectionRequest → Proto.TransferPlanOrError × σ}
  {build : Build} {maxFancy count : Nat} {s : σ} {selection : ClientSelection}
  {selections : List ClientSelection}

/-- The outcome of a selection asked about when the server is in state `s`. -/
def outcomeOf (answer : σ → Proto.PrepareSelectionRequest → Proto.TransferPlanOrError × σ)
    (build : Build) (maxFancy : Nat) (s : σ) (selection : ClientSelection) :
    Except ClientError Plan :=
  match checkedLocally maxFancy selection with
  | some e => .error e
  | none => readAnswer selection (answer s (prepareRequest build selection)).1

theorem sentRequests_cons_of_some {e : ClientError} (h : checkedLocally maxFancy selection = some e) :
    sentRequests build maxFancy (selection :: selections) =
      sentRequests build maxFancy selections := by
  simp [sentRequests, h]

theorem sentRequests_cons_of_none (h : checkedLocally maxFancy selection = none) :
    sentRequests build maxFancy (selection :: selections) =
      prepareRequest build selection :: sentRequests build maxFancy selections := by
  simp [sentRequests, h]

/-- One selection refused locally. -/
theorem collectPlans_of_some {e : ClientError} {replies : List (Option Proto.TransferPlanOrError)}
    (h : checkedLocally maxFancy selection = some e) :
    collectPlans maxFancy count (selection :: selections) replies =
      (collectPlans maxFancy count selections replies).map (.error e :: ·) := by
  conv_lhs => unfold collectPlans
  rw [h]
  rfl

/-- One selection that was answered. -/
theorem collectPlans_of_none {reply : Proto.TransferPlanOrError}
    {replies : List (Option Proto.TransferPlanOrError)}
    (h : checkedLocally maxFancy selection = none) :
    collectPlans maxFancy count (selection :: selections) (some reply :: replies) =
      (collectPlans maxFancy count selections replies).map (readAnswer selection reply :: ·) := by
  conv_lhs => unfold collectPlans
  rw [h]
  cases reply with
  | plan plan => rfl
  | error klass message => rfl

/-- Where the answers stop, the call fails. -/
theorem collectPlans_of_missing {replies : List (Option Proto.TransferPlanOrError)}
    (h : checkedLocally maxFancy selection = none) (hmissing : replies.head?.join = none) :
    collectPlans maxFancy count (selection :: selections) replies =
      .error (.protocol s!"asked for {count} plans and got fewer back") := by
  unfold collectPlans
  rw [h]
  cases replies with
  | nil => rfl
  | cons reply replies =>
      obtain rfl : reply = none := hmissing
      rfl

/-- Handing out the answers of a server that keeps the order. -/
theorem collectPlans_answerEach :
    ∃ results, collectPlans maxFancy count selections
        ((answerEach answer s (sentRequests build maxFancy selections)).1.map some) = .ok results ∧
      results.length = selections.length ∧
      ∀ i selection, selections[i]? = some selection →
        results[i]? = some (outcomeOf answer build maxFancy
          (answerEach answer s (sentRequests build maxFancy (selections.take i))).2 selection) := by
  induction selections generalizing s with
  | nil => exact ⟨[], rfl, rfl, by simp⟩
  | cons selection selections ih =>
      cases hlocal : checkedLocally maxFancy selection with
      | some e =>
          obtain ⟨results, hresults, hlength, heach⟩ := @ih s
          refine ⟨.error e :: results, ?_, by simp [hlength], ?_⟩
          · rw [sentRequests_cons_of_some hlocal, collectPlans_of_some hlocal, hresults]
            rfl
          · intro i other hi
            cases i with
            | zero =>
                obtain rfl : selection = other := by simpa using hi
                simp [outcomeOf, hlocal]
            | succ i =>
                rw [List.take_succ_cons, sentRequests_cons_of_some hlocal]
                exact heach i other (by simpa using hi)
      | none =>
          obtain ⟨results, hresults, hlength, heach⟩ :=
            @ih (answer s (prepareRequest build selection)).2
          refine ⟨readAnswer selection (answer s (prepareRequest build selection)).1 :: results, ?_,
            by simp [hlength], ?_⟩
          · rw [sentRequests_cons_of_none hlocal, answerEach, List.map_cons,
              collectPlans_of_none hlocal, hresults]
            rfl
          · intro i other hi
            cases i with
            | zero =>
                obtain rfl : selection = other := by simpa using hi
                simp [outcomeOf, hlocal, sentRequests, answerEach]
            | succ i =>
                rw [List.take_succ_cons, sentRequests_cons_of_none hlocal, answerEach]
                exact heach i other (by simpa using hi)

/-- A reply that is too short, or has nothing in the place of an answer, fails
the call. -/
theorem collectPlans_of_fewer {replies : List (Option Proto.TransferPlanOrError)}
    (h : replies.length < (sentRequests build maxFancy selections).length ∨
      none ∈ replies.take (sentRequests build maxFancy selections).length) :
    collectPlans maxFancy count selections replies =
      .error (.protocol s!"asked for {count} plans and got fewer back") := by
  induction selections generalizing replies with
  | nil => simp [sentRequests] at h
  | cons selection selections ih =>
      cases hlocal : checkedLocally maxFancy selection with
      | some e =>
          rw [sentRequests_cons_of_some hlocal] at h
          rw [collectPlans_of_some hlocal, ih h]
          rfl
      | none =>
          rw [sentRequests_cons_of_none hlocal, List.length_cons] at h
          cases replies with
          | nil => exact collectPlans_of_missing hlocal rfl
          | cons reply replies =>
              cases reply with
              | none => exact collectPlans_of_missing hlocal rfl
              | some reply =>
                  have hrest : replies.length < (sentRequests build maxFancy selections).length ∨
                      none ∈ replies.take (sentRequests build maxFancy selections).length := by
                    simpa using h
                  rw [collectPlans_of_none hlocal, ih hrest]
                  rfl

/-- Against a server that answers the requests of a batch in order, each selection
gets its own outcome, whatever becomes of the others; and a reply with fewer
answers than were asked for, or with nothing in the place of one of them, fails
the call. -/
theorem prepareMany_aligned {σ : Type}
    (answer : σ → Proto.PrepareSelectionRequest → Proto.TransferPlanOrError × σ)
    (build : Build) (maxFancy : Nat) (s : σ) (selections : List ClientSelection) :
    (∃ results, prepareMany build maxFancy
        (fun requests => .ok ((answerEach answer s requests).1.map some)) selections = .ok results ∧
      results.length = selections.length ∧
      ∀ i selection, selections[i]? = some selection →
        results[i]? = some (outcomeOf answer build maxFancy
          (answerEach answer s (sentRequests build maxFancy (selections.take i))).2 selection)) ∧
    ∀ replies : List (Option Proto.TransferPlanOrError),
      replies.length < (sentRequests build maxFancy selections).length ∨
        none ∈ replies.take (sentRequests build maxFancy selections).length →
      ∃ message, prepareMany build maxFancy (fun _ => .ok replies) selections =
        .error (.protocol message) := by
  constructor
  · exact collectPlans_answerEach
  · intro replies h
    exact ⟨_, collectPlans_of_fewer h⟩

/-- A batch of three of which the second is refused by the client and the first by
the server. -/
theorem prepareMany_aligned_three :
    let refuse := fun (n : Nat) (request : Proto.PrepareSelectionRequest) =>
      (if request.handle = 1 then Proto.TransferPlanOrError.error 4 "no such file"
        else .error 5 s!"busy {n}", n + 1)
    let selections := [⟨1, "rows", [], .exact⟩, ⟨2, "rows", [.fancy [0, 1]], .exact⟩,
      ⟨2, "rows", [], .exact⟩]
    (∃ results, prepareMany ⟨false, false⟩ 1
        (fun requests => .ok ((answerEach refuse 0 requests).1.map some)) selections = .ok results ∧
      results.length = selections.length ∧
      ∀ i selection, selections[i]? = some selection →
        results[i]? = some (outcomeOf refuse ⟨false, false⟩ 1
          (answerEach refuse 0 (sentRequests ⟨false, false⟩ 1 (selections.take i))).2 selection)) ∧
    ∀ replies : List (Option Proto.TransferPlanOrError),
      replies.length < (sentRequests ⟨false, false⟩ 1 selections).length ∨
        none ∈ replies.take (sentRequests ⟨false, false⟩ 1 selections).length →
      ∃ message, prepareMany ⟨false, false⟩ 1 (fun _ => .ok replies) selections =
        .error (.protocol message) :=
  prepareMany_aligned _ _ _ _ _

/-- What comes after the answers that were asked for is not looked at. -/
theorem surplus_entry_ignored : ¬ ∀ (build : Build) (maxFancy : Nat)
    (selections : List ClientSelection) (replies : List (Option Proto.TransferPlanOrError)),
    none ∈ replies → ∃ e, prepareMany build maxFancy (fun _ => .ok replies) selections = .error e := by
  intro h
  obtain ⟨e, he⟩ := h ⟨false, false⟩ 1 [⟨1, "rows", [], .exact⟩]
    [some (.error 4 "no such item"), none] (by simp)
  cases he

end Batch

/-! ## The server -/

namespace Control

variable {π τ : Type} {config : ServerConfig} {sessionId : List UInt8}

/-- An outcome as an entry of the reply; `describe` adds what the layout of the
selection says. -/
def planOrError (describe : Proto.PrepareSelectionRequest → TransferPlan → Proto.TransferPlan)
    (request : Proto.PrepareSelectionRequest) :
    Except ServerError TransferPlan → Proto.TransferPlanOrError
  | .ok plan => .plan (describe request plan)
  | .error e => .error e.errorClass.asU8 e.message

/-- What the requests of a batch resolve to, in a world that goes on meanwhile. -/
def elementsOf (element : τ → Proto.PrepareSelectionRequest → Element π × τ) :
    τ → List Proto.PrepareSelectionRequest → List (Element π)
  | _, [] => []
  | t, request :: requests =>
      (element t request).1 :: elementsOf element (element t request).2 requests

/-- The answer to one request of a batch. -/
def answer (config : ServerConfig) (sessionId : List UInt8)
    (describe : Proto.PrepareSelectionRequest → TransferPlan → Proto.TransferPlan)
    (element : τ → Proto.PrepareSelectionRequest → Element π × τ) (s : Control π × Nat × τ)
    (request : Proto.PrepareSelectionRequest) :
    Proto.TransferPlanOrError × Control π × Nat × τ :=
  let (result, c, budget) := s.1.prepare config sessionId s.2.1 (element s.2.2 request).1
  (planOrError describe request result, c, budget, (element s.2.2 request).2)

/-- The elements of a batch are answered in order. -/
theorem prepareEach_answers
    (describe : Proto.PrepareSelectionRequest → TransferPlan → Proto.TransferPlan)
    (element : τ → Proto.PrepareSelectionRequest → Element π × τ) (c : Control π) (budget : Nat)
    (t : τ) (requests : List Proto.PrepareSelectionRequest) :
    List.zipWith (planOrError describe) requests
        (prepareEach config sessionId c budget (elementsOf element t requests)).1 =
      (answerEach (answer config sessionId describe element) (c, budget, t) requests).1 := by
  induction requests generalizing c budget t with
  | nil => rfl
  | cons request requests ih =>
      rw [elementsOf, prepareEach, answerEach]
      dsimp only
      rw [List.zipWith_cons_cons, ih]
      rfl

end Control

end Aex
