import Aex.Client.Chunks
import Aex.Client.Plan
import Aex.Client.Pool

/-!
# Filling a batch

Each buffer is filled from its plan: inline data is copied, the rest is fetched as
one transfer.  When the server no longer has the plans, they are prepared again,
once, and the answer takes the place of the caller's plans.
-/

namespace Aex

/-- Whether the transfer should be prepared again rather than retried. -/
def ClientError.needsReprepare (e : ClientError) : Bool := e.errorClass = some .plan

structure TransferResult where
  bytes : Nat
  wireBytes : Nat
  chunks : Nat
  streams : Nat
  retries : Nat
  inline : Bool
  deriving Repr, DecidableEq

/-- One destination of a batch.  No code reads `holds`, the plan whose data the
bytes are once all of it is there. -/
structure Destination where
  bytes : List UInt8
  holds : Option Plan
  deriving Repr, DecidableEq

/-- Why a batch ends before it is filled. -/
inductive FillHalt where
  | error (e : ClientError)
  /-- A copy between slices of different lengths. -/
  | panic
  deriving Repr, DecidableEq

/-- What a client was connected with. -/
structure Client where
  build : Build
  session : Session
  maxFancyIndices : Nat
  spec : FetchSpec
  /-- 0 when the client leaves the chunk size open. -/
  chunkBytes : Nat
  streams : Nat

/-- How the pool leaves a transfer. -/
structure PoolAnswer (parts : List FetchPart) where
  result : Except ClientError Fetched
  buffers : List (List UInt8)
  length_eq : buffers.length = parts.length

/-- What the data plane and the control plane answer: the pool's transfers, the first
and the second, and the second prepare. -/
structure Peers where
  fetch : Nat → FetchSpec → (parts : List FetchPart) → PoolAnswer parts
  prepare : List Proto.PrepareSelectionRequest →
    Except ClientError (List (Option Proto.TransferPlanOrError))

/-- Plans still to be fetched, by position in the batch. -/
abbrev RemotePlans := List (Nat × Plan)

/-- What a batch has come to. -/
structure Filling where
  dsts : List Destination
  streams : Nat
  retries : Nat
  chunks : Nat
  wireBytes : Nat

def copyInto (dsts : List Destination) (i : Nat) (plan : Plan) : Except FillHalt (List Destination) :=
  match dsts[i]? with
  | none => .error .panic
  | some dst =>
      if dst.bytes.length = plan.inlineData.length then .ok (dsts.set i ⟨plan.inlineData, some plan⟩)
      else .error .panic

/-- Copy what came with the plans, and leave the rest for the data plane. -/
def fillInline : Nat → List Plan → List Destination → Except FillHalt (RemotePlans × List Destination)
  | _, [], dsts => .ok ([], dsts)
  | i, plan :: plans, dsts =>
      if plan.isInline then do
        let dsts ← copyInto dsts i plan
        fillInline (i + 1) plans dsts
      else do
        let (remote, dsts) ← fillInline (i + 1) plans dsts
        .ok ((i, plan) :: remote, dsts)

/-- The parts of a transfer; the positions ascend as the buffers do. -/
def partsOf (chunkBytes : Nat) (remote : RemotePlans) (dsts : List Destination) : List FetchPart :=
  remote.map fun (i, plan) =>
    ⟨plan.requestId, plan.ticket, planChunks plan.totalBytes chunkBytes,
      (dsts[i]?.map Destination.bytes).getD []⟩

/-- The buffers as a transfer leaves them. -/
def receive (filled : Bool) : RemotePlans → List (List UInt8) → List Destination → List Destination
  | (i, plan) :: remote, bytes :: buffers, dsts =>
      receive filled remote buffers (dsts.set i ⟨bytes, if filled then some plan else none⟩)
  | _, _, dsts => dsts

/-- Take the plans of the second answer for the ones they replace. -/
def takeFresh : RemotePlans → List (Except ClientError Plan) → List Destination →
    Except FillHalt (RemotePlans × List Destination)
  | (i, old) :: remote, result :: results, dsts =>
      match result with
      | .error e => .error (.error e)
      | .ok fresh =>
          if fresh.totalBytes ≠ old.totalBytes then
            .error (.error (.badRequest
              s!"the selection was {old.totalBytes} bytes and is now {fresh.totalBytes}"))
          else if fresh.isInline then do
            let dsts ← copyInto dsts i fresh
            takeFresh remote results dsts
          else do
            let (still, dsts) ← takeFresh remote results dsts
            .ok ((i, fresh) :: still, dsts)
  | _, _, dsts => .ok ([], dsts)

namespace Client

variable (client : Client) (peers : Peers)

/-- One turn of the loop over what is left: a transfer of all of it. -/
def fetchTurn (call chunkBytes : Nat) (remote : RemotePlans) (s : Filling) :
    Except ClientError Unit × Filling :=
  let parts := partsOf chunkBytes remote s.dsts
  let answer := peers.fetch call client.spec parts
  let chunks := (parts.map fun part => part.chunks.length % Word.size 32).foldl
    (Word.wrappingAdd 32) 0
  match answer.result with
  | .ok fetched => (.ok (),
      { dsts := receive true remote answer.buffers s.dsts
        streams := fetched.streams
        retries := Word.wrappingAdd 32 s.retries fetched.retries
        chunks
        wireBytes := Word.wrappingAdd 64 s.wireBytes fetched.wireBytes })
  | .error e => (.error e, { s with dsts := receive false remote answer.buffers s.dsts, chunks })

/-- The selections of plans that are prepared again, with what was asked for then. -/
def selectionsAgain (selections : List ClientSelection) (remote : RemotePlans) :
    List ClientSelection :=
  remote.filterMap fun (i, plan) =>
    selections[i]?.map fun selection => { selection with quality := plan.requestedQuality }

/-- Prepare what is left again. -/
def prepareAgain (selections : List ClientSelection) (remote : RemotePlans) (s : Filling) :
    Except FillHalt (RemotePlans × Filling) := do
  let results ← (prepareMany client.build client.maxFancyIndices peers.prepare
    (selectionsAgain selections remote)).mapError .error
  let (still, dsts) ← takeFresh remote results s.dsts
  .ok (still, { s with dsts, retries := Word.wrappingAdd 32 s.retries 1 })

/-- Fetch what is left.  Only the first turn may prepare it again, since a plan gone
twice in a row was not evicted. -/
def fillRemote (chunkBytes : Nat) (selections : List ClientSelection) (remote : RemotePlans)
    (s : Filling) : Except FillHalt Filling :=
  if remote = [] then .ok s
  else
    match client.fetchTurn peers 0 chunkBytes remote s with
    | (.ok (), s) => .ok s
    | (.error e, s) =>
        if e.needsReprepare then do
          let (remote, s) ← client.prepareAgain peers selections remote s
          if remote = [] then .ok s
          else
            match client.fetchTurn peers 1 chunkBytes remote s with
            | (.ok (), s) => .ok s
            | (.error e, _) => .error (.error e)
        else .error (.error e)

/-- How much of the stream one fetch asks for. -/
def chunkSize (totalBytes : Nat) : Nat :=
  Aex.chunkBytes client.session client.chunkBytes client.streams totalBytes

/-- Fill each buffer from its plan. -/
def fillBatch (plans : List Plan) (selections : List ClientSelection) (buffers : List (List UInt8)) :
    Except FillHalt (TransferResult × List Destination) :=
  if plans.length ≠ selections.length ∨ plans.length ≠ buffers.length then
    .error (.error (.badRequest <| s!"{plans.length} plans, {selections.length} selections and " ++
      s!"{buffers.length} buffers do not pair up"))
  else
    match (plans.zip buffers).find? fun (plan, dst) => plan.totalBytes != dst.length with
    | some (plan, dst) => .error (.error (.badRequest
        s!"the selection is {plan.totalBytes} bytes and the buffer is {dst.length}"))
    | none => do
        let (remote, dsts) ← fillInline 0 plans (buffers.map fun bytes => ⟨bytes, none⟩)
        let remoteBytes := (remote.map fun (_, plan) => plan.totalBytes).foldl (Word.wrappingAdd 64) 0
        let s ← client.fillRemote peers (client.chunkSize remoteBytes) selections remote
          ⟨dsts, 0, 0, 0, 0⟩
        .ok (⟨(plans.map Plan.totalBytes).foldl (Word.wrappingAdd 64) 0, s.wireBytes, s.chunks,
          s.streams, s.retries, remote = []⟩, s.dsts)

end Client

/-! ## What a buffer holds -/

section Holds

/-- The plan whose data buffer `i` holds. -/
def holdsAt (dsts : List Destination) (i : Nat) : Option Plan := dsts[i]?.bind Destination.holds

/-- Buffer `i` holds the data of a plan, or will once the rest is fetched. -/
def Settles (dsts : List Destination) (remote : RemotePlans) (i : Nat) (plan : Plan) : Prop :=
  (i ∉ remote.map Prod.fst ∧ holdsAt dsts i = some plan) ∨ (i, plan) ∈ remote

variable {dsts next : List Destination} {remote still : RemotePlans} {plan : Plan} {i j : Nat}
  {buffers : List (List UInt8)} {plans : List Plan}

theorem holdsAt_set {dst : Destination} (hi : i < dsts.length) :
    holdsAt (dsts.set i dst) i = dst.holds := by
  rw [holdsAt, List.getElem?_set_self hi]
  rfl

theorem holdsAt_set_ne {dst : Destination} (h : i ≠ j) :
    holdsAt (dsts.set i dst) j = holdsAt dsts j := by
  rw [holdsAt, List.getElem?_set_ne h]
  rfl

theorem copyInto_spec (h : copyInto dsts i plan = .ok next) :
    next.length = dsts.length ∧ holdsAt next i = some plan ∧
      ∀ j, j ≠ i → holdsAt next j = holdsAt dsts j := by
  unfold copyInto at h
  split at h
  · cases h
  rename_i dst hdst
  have hi : i < dsts.length := (List.getElem?_eq_some_iff.mp hdst).1
  split at h
  · cases h
    exact ⟨List.length_set, holdsAt_set hi, fun j hj => holdsAt_set_ne (Ne.symm hj)⟩
  · cases h

theorem Settles.cons {first : Nat × Plan} (h : Settles dsts remote i plan) (hne : i ≠ first.1) :
    Settles dsts (first :: remote) i plan := by
  rcases h with ⟨hout, hholds⟩ | hmem
  · refine Or.inl ⟨?_, hholds⟩
    rw [List.map_cons, List.mem_cons, not_or]
    exact ⟨hne, hout⟩
  · exact Or.inr (List.mem_cons_of_mem _ hmem)

/-- Going through the plans from position `i` on settles each of their buffers. -/
theorem fillInline_spec (h : fillInline i plans dsts = .ok (remote, next)) :
    next.length = dsts.length ∧ (∀ j < i, holdsAt next j = holdsAt dsts j) ∧
      (remote.map Prod.fst).Nodup ∧ (∀ j ∈ remote.map Prod.fst, i ≤ j ∧ j < i + plans.length) ∧
      ∀ k plan, plans[k]? = some plan → Settles next remote (i + k) plan := by
  induction plans generalizing i dsts remote with
  | nil =>
      cases h
      exact ⟨rfl, fun _ _ => rfl, List.nodup_nil, by simp, by simp⟩
  | cons plan plans ih =>
      rw [fillInline] at h
      split at h
      · obtain ⟨copied, hcopy, h⟩ := Fallible.bind_eq_ok.mp h
        have hcopied := copyInto_spec hcopy
        have hrest := ih h
        have hhere : i ∉ remote.map Prod.fst := fun hmem => by
          have := (hrest.2.2.2.1 i hmem).1
          omega
        refine ⟨hrest.1.trans hcopied.1, ?_, hrest.2.2.1, ?_, ?_⟩
        · intro j hj
          rw [hrest.2.1 j (by omega), hcopied.2.2 j (by omega)]
        · intro j hj
          have := hrest.2.2.2.1 j hj
          rw [List.length_cons]
          omega
        · intro k other hk
          cases k with
          | zero =>
              cases hk
              exact Or.inl ⟨hhere, (hrest.2.1 i (Nat.lt_succ_self i)).trans hcopied.2.1⟩
          | succ k =>
              rw [Nat.add_succ, ← Nat.succ_add]
              exact hrest.2.2.2.2 k other hk
      · obtain ⟨⟨others, final⟩, hothers, h⟩ := Fallible.bind_eq_ok.mp h
        cases h
        have hrest := ih hothers
        have hhere : i ∉ others.map Prod.fst := fun hmem => by
          have := (hrest.2.2.2.1 i hmem).1
          omega
        refine ⟨hrest.1, fun j hj => hrest.2.1 j (by omega), ?_, ?_, ?_⟩
        · exact List.nodup_cons.mpr ⟨hhere, hrest.2.2.1⟩
        · intro j hj
          rw [List.length_cons]
          rcases List.mem_cons.mp hj with rfl | hj
          · exact ⟨Nat.le_refl _, by omega⟩
          · have := hrest.2.2.2.1 j hj
            omega
        · intro k other hk
          cases k with
          | zero =>
              cases hk
              exact Or.inr List.mem_cons_self
          | succ k =>
              rw [Nat.add_succ, ← Nat.succ_add]
              exact (hrest.2.2.2.2 k other hk).cons (by dsimp only; omega)

/-- A transfer touches the buffers of its parts and no others. -/
theorem receive_spec (filled : Bool) (hnodup : (remote.map Prod.fst).Nodup)
    (hlen : buffers.length = remote.length) (hinside : ∀ j ∈ remote.map Prod.fst, j < dsts.length) :
    (receive filled remote buffers dsts).length = dsts.length ∧
      (∀ j ∉ remote.map Prod.fst, holdsAt (receive filled remote buffers dsts) j = holdsAt dsts j) ∧
      (filled = true → ∀ i plan, (i, plan) ∈ remote →
        holdsAt (receive filled remote buffers dsts) i = some plan) := by
  induction remote generalizing buffers dsts with
  | nil =>
      obtain rfl := List.length_eq_zero_iff.mp hlen
      exact ⟨rfl, fun _ _ => rfl, by simp⟩
  | cons first remote ih =>
      cases buffers with
      | nil => cases hlen
      | cons bytes buffers =>
          obtain ⟨i, plan⟩ := first
          rw [List.map_cons, List.nodup_cons] at hnodup
          rw [List.map_cons, List.forall_mem_cons] at hinside
          rw [receive]
          have hinside' : ∀ j ∈ remote.map Prod.fst,
              j < (dsts.set i ⟨bytes, if filled then some plan else none⟩).length := by
            intro j hj
            rw [List.length_set]
            exact hinside.2 j hj
          have hrest := ih hnodup.2 (Nat.succ.inj hlen) hinside'
          refine ⟨hrest.1.trans List.length_set, ?_, ?_⟩
          · intro j hj
            rw [List.map_cons, List.mem_cons, not_or] at hj
            rw [hrest.2.1 j hj.2, holdsAt_set_ne (Ne.symm hj.1)]
          · intro hfilled j other hmem
            rcases List.mem_cons.mp hmem with heq | hmem
            · cases heq
              rw [hrest.2.1 i hnodup.1, holdsAt_set hinside.1, if_pos hfilled]
            · exact hrest.2.2 hfilled j other hmem

/-- Each plan of the second answer settles the buffer of the plan it replaces. -/
theorem takeFresh_spec {results : List (Except ClientError Plan)}
    (hnodup : (remote.map Prod.fst).Nodup) (hlen : results.length = remote.length)
    (h : takeFresh remote results dsts = .ok (still, next)) :
    next.length = dsts.length ∧ (still.map Prod.fst).Sublist (remote.map Prod.fst) ∧
      (∀ j ∉ remote.map Prod.fst, holdsAt next j = holdsAt dsts j) ∧
      ∀ (k : Nat) i old, remote[k]? = some (i, old) →
        ∃ fresh, results[k]? = some (.ok fresh) ∧ Settles next still i fresh := by
  induction remote generalizing results dsts still with
  | nil =>
      obtain rfl := List.length_eq_zero_iff.mp hlen
      cases h
      exact ⟨rfl, List.Sublist.refl _, fun _ _ => rfl, by simp⟩
  | cons first remote ih =>
      obtain ⟨i, old⟩ := first
      cases results with
      | nil => cases hlen
      | cons result results =>
          rw [List.map_cons, List.nodup_cons] at hnodup
          unfold takeFresh at h
          dsimp only at h
          split at h
          · cases h
          rename_i fresh
          split at h
          · cases h
          split at h
          · obtain ⟨copied, hcopy, h⟩ := Fallible.bind_eq_ok.mp h
            have hcopied := copyInto_spec hcopy
            obtain ⟨hnext, hsub, hkept, hall⟩ := ih hnodup.2 (Nat.succ.inj hlen) h
            refine ⟨hnext.trans hcopied.1, hsub.cons _, ?_, ?_⟩
            · intro j hj
              rw [List.map_cons, List.mem_cons, not_or] at hj
              rw [hkept j hj.2, hcopied.2.2 j hj.1]
            · intro k j other hk
              cases k with
              | zero =>
                  cases hk
                  refine ⟨fresh, rfl, Or.inl ⟨fun hmem => hnodup.1 (hsub.subset hmem), ?_⟩⟩
                  rw [hkept i hnodup.1, hcopied.2.1]
              | succ k => exact hall k j other hk
          · obtain ⟨⟨others, final⟩, hothers, h⟩ := Fallible.bind_eq_ok.mp h
            cases h
            obtain ⟨hnext, hsub, hkept, hall⟩ := ih hnodup.2 (Nat.succ.inj hlen) hothers
            refine ⟨hnext, hsub.cons_cons _, ?_, ?_⟩
            · intro j hj
              rw [List.map_cons, List.mem_cons, not_or] at hj
              exact hkept j hj.2
            · intro k j other hk
              cases k with
              | zero =>
                  cases hk
                  exact ⟨fresh, rfl, Or.inr List.mem_cons_self⟩
              | succ k =>
                  obtain ⟨found, hfound, hsettles⟩ := hall k j other hk
                  refine ⟨found, hfound, hsettles.cons ?_⟩
                  rintro rfl
                  exact hnodup.1 (List.mem_map.mpr ⟨_, List.mem_of_getElem? hk, rfl⟩)

/-- A transfer that is filled settles everything. -/
theorem Settles.received (h : Settles dsts remote i plan) (hnodup : (remote.map Prod.fst).Nodup)
    (hlen : buffers.length = remote.length) (hinside : ∀ j ∈ remote.map Prod.fst, j < dsts.length) :
    holdsAt (receive true remote buffers dsts) i = some plan := by
  have hreceive := receive_spec true hnodup hlen hinside
  rcases h with ⟨hout, hholds⟩ | hmem
  · rw [hreceive.2.1 i hout, hholds]
  · exact hreceive.2.2 rfl i plan hmem

end Holds

namespace Client

variable {client : Client} {peers : Peers} {remote still : RemotePlans} {s next : Filling}
  {selections : List ClientSelection} {chunkBytes call : Nat}

/-- How a turn leaves the buffers. -/
theorem fetchTurn_spec :
    ∃ buffers : List (List UInt8), buffers.length = remote.length ∧
      match (peers.fetch call client.spec (partsOf chunkBytes remote s.dsts)).result with
      | .ok _ => (client.fetchTurn peers call chunkBytes remote s).1 = .ok () ∧
          (client.fetchTurn peers call chunkBytes remote s).2.dsts = receive true remote buffers s.dsts
      | .error e => (client.fetchTurn peers call chunkBytes remote s).1 = .error e ∧
          (client.fetchTurn peers call chunkBytes remote s).2.dsts =
            receive false remote buffers s.dsts := by
  refine ⟨(peers.fetch call client.spec (partsOf chunkBytes remote s.dsts)).buffers, ?_, ?_⟩
  · rw [PoolAnswer.length_eq, partsOf, List.length_map]
  · unfold fetchTurn
    dsimp only
    cases (peers.fetch call client.spec (partsOf chunkBytes remote s.dsts)).result with
    | ok fetched => exact ⟨rfl, rfl⟩
    | error e => exact ⟨rfl, rfl⟩

theorem length_selectionsAgain (h : ∀ i ∈ remote.map Prod.fst, i < selections.length) :
    (selectionsAgain selections remote).length = remote.length := by
  induction remote with
  | nil => rfl
  | cons first remote ih =>
      obtain ⟨i, plan⟩ := first
      rw [List.map_cons, List.forall_mem_cons] at h
      have hselection : selections[i]? = some selections[i] := List.getElem?_eq_getElem h.1
      simp only [selectionsAgain, List.filterMap_cons, hselection, Option.map_some, List.length_cons]
      exact congrArg (· + 1) (ih h.2)

/-- A turn that works settles everything. -/
theorem fetchTurn_settles {i : Nat} {plan : Plan}
    (h : (client.fetchTurn peers call chunkBytes remote s).1 = .ok ())
    (hnodup : (remote.map Prod.fst).Nodup) (hinside : ∀ j ∈ remote.map Prod.fst, j < s.dsts.length)
    (hsettles : Settles s.dsts remote i plan) :
    holdsAt (client.fetchTurn peers call chunkBytes remote s).2.dsts i = some plan := by
  obtain ⟨buffers, hlen, hturn⟩ := @fetchTurn_spec client peers remote s chunkBytes call
  split at hturn
  · rw [hturn.2]
    exact hsettles.received hnodup hlen hinside
  · rw [hturn.1] at h
    cases h

/-- What is left is fetched under the caller's plans, or under those of the second
answer, each in the place of the plan it was prepared for. -/
theorem fillRemote_cases (hnodup : (remote.map Prod.fst).Nodup)
    (hinside : ∀ j ∈ remote.map Prod.fst, j < s.dsts.length)
    (hselections : ∀ j ∈ remote.map Prod.fst, j < selections.length)
    (h : client.fillRemote peers chunkBytes selections remote s = .ok next) :
    ((∀ i plan, Settles s.dsts remote i plan → holdsAt next.dsts i = some plan) ∧
        (remote = [] ∨ ∃ fetched,
          (peers.fetch 0 client.spec (partsOf chunkBytes remote s.dsts)).result = .ok fetched)) ∨
      ∃ e results, (peers.fetch 0 client.spec (partsOf chunkBytes remote s.dsts)).result = .error e ∧
        e.needsReprepare = true ∧
        prepareMany client.build client.maxFancyIndices peers.prepare
          (selectionsAgain selections remote) = .ok results ∧
        (∀ i ∉ remote.map Prod.fst, ∀ plan, holdsAt s.dsts i = some plan →
          holdsAt next.dsts i = some plan) ∧
        ∀ (k : Nat) i old, remote[k]? = some (i, old) →
          ∃ fresh, results[k]? = some (.ok fresh) ∧ holdsAt next.dsts i = some fresh := by
  unfold fillRemote at h
  split at h
  · rename_i hempty
    cases h
    subst hempty
    refine Or.inl ⟨fun i plan hsettles => ?_, Or.inl rfl⟩
    simpa [Settles] using hsettles
  obtain ⟨buffers, hlen, hturn⟩ := @fetchTurn_spec client peers remote s chunkBytes 0
  split at hturn
  · rename_i fetched hfetched
    refine Or.inl ⟨fun i plan hsettles => ?_, Or.inr ⟨fetched, hfetched⟩⟩
    have hdone := fetchTurn_settles hturn.1 hnodup hinside hsettles
    generalize client.fetchTurn peers 0 chunkBytes remote s = turn at h hturn hdone
    obtain ⟨result, after⟩ := turn
    obtain ⟨rfl, -⟩ := hturn
    cases h
    exact hdone
  · rename_i e hfailed
    apply Or.inr
    have hreceive := receive_spec false hnodup hlen hinside
    rw [← hturn.2] at hreceive
    generalize client.fetchTurn peers 0 chunkBytes remote s = turn at h hturn hreceive
    obtain ⟨result, after⟩ := turn
    obtain ⟨rfl, -⟩ := hturn
    dsimp only at h hreceive
    split at h
    · rename_i hagain
      obtain ⟨⟨still, s₁⟩, hprepare, h⟩ := Fallible.bind_eq_ok.mp h
      obtain ⟨results, hresults, hprepare⟩ := Fallible.bind_eq_ok.mp hprepare
      obtain ⟨⟨still', dsts⟩, htake, hprepare⟩ := Fallible.bind_eq_ok.mp hprepare
      cases hprepare
      have hmany : prepareMany client.build client.maxFancyIndices peers.prepare
          (selectionsAgain selections remote) = .ok results := by
        revert hresults
        cases prepareMany client.build client.maxFancyIndices peers.prepare
          (selectionsAgain selections remote) with
        | ok found => exact fun hresults => congrArg Except.ok (Except.ok.inj hresults)
        | error e => exact fun hresults => by cases hresults
      have hcount := (prepareMany_spec hmany).1
      rw [length_selectionsAgain hselections] at hcount
      obtain ⟨hnext, hsub, hkept, hall⟩ := takeFresh_spec hnodup hcount htake
      -- Whether anything is still to be fetched or not, the rest is settled.
      have hfinal : ∀ i plan, Settles dsts still i plan → holdsAt next.dsts i = some plan := by
        intro i plan hsettles
        dsimp only at h
        split at h
        · rename_i hempty
          cases h
          subst hempty
          simpa [Settles] using hsettles
        · have hinside' : ∀ j ∈ still.map Prod.fst, j < dsts.length := by
            intro j hj
            rw [hnext, hreceive.1]
            exact hinside j (hsub.subset hj)
          have hdone := @fetchTurn_settles client peers still
            ⟨dsts, after.streams, Word.wrappingAdd 32 after.retries 1, after.chunks, after.wireBytes⟩
            chunkBytes 1 i plan
          split at h
          · rename_i hok
            cases h
            rw [hok] at hdone
            exact hdone rfl (hsub.nodup hnodup) hinside' hsettles
          · cases h
      refine ⟨e, results, hfailed, hagain, hmany, ?_, ?_⟩
      · intro i hout plan hholds
        refine hfinal i plan (Or.inl ⟨fun hmem => hout (hsub.subset hmem), ?_⟩)
        rw [hkept i hout, hreceive.2.1 i hout, hholds]
      · intro k i old hk
        obtain ⟨fresh, hfresh, hsettles⟩ := hall k i old hk
        exact ⟨fresh, hfresh, hfinal i fresh hsettles⟩
    · cases h

/-- Whenever the plans left over from the inline ones are prepared again, the second
answer gives each of them a plan of its own type, shape and quality, if any. -/
def AnswerAgrees (client : Client) (peers : Peers) (plans : List Plan)
    (selections : List ClientSelection) (buffers : List (List UInt8)) : Prop :=
  ∀ remote dsts, fillInline 0 plans (buffers.map fun bytes => ⟨bytes, none⟩) = .ok (remote, dsts) →
    ∀ e results,
      (peers.fetch 0 client.spec (partsOf (client.chunkSize ((remote.map fun (_, plan) =>
        plan.totalBytes).foldl (Word.wrappingAdd 64) 0)) remote dsts)).result = .error e →
      e.needsReprepare = true →
      prepareMany client.build client.maxFancyIndices peers.prepare
        (selectionsAgain selections remote) = .ok results →
      ∀ (k : Nat) i old fresh, remote[k]? = some (i, old) → results[k]? = some (.ok fresh) →
        fresh.Same old

/-- A plan for two rows of three floats, to be fetched as transfer 7. -/
def rowsPlan : Plan :=
  ⟨7, .replicate 16 0, .float32, [2, 3], 24, { codec := some .raw }, .exact, []⟩

/-- A client that leaves the chunk size open. -/
def rowsClient : Client := ⟨⟨false, false⟩, ⟨4096, 4096⟩, 100, ⟨4, 3⟩, 0, 1⟩

def rowsSelection : ClientSelection := ⟨1, "rows", [], .exact⟩

/-- Six integers, as long as the six floats. -/
def integersAnswer : Proto.TransferPlan :=
  ⟨0, [], DType.int32.asI32.toNat, [6], 24, 0, none, List.replicate 24 1⟩

/-- A server that has dropped its plans, and holds integers now. -/
def forgetful : Peers where
  fetch _ _ parts :=
    ⟨.error (.data .plan "the plan has expired"), parts.map FetchPart.dst, List.length_map _⟩
  prepare _ := .ok [some (.plan integersAnswer)]

/-- A server that serves every transfer at once. -/
def prompt : Peers where
  fetch _ _ parts := ⟨.ok ⟨1, 0, 24⟩, parts.map FetchPart.dst, List.length_map _⟩
  prepare _ := .error (.transport "the server is gone")

end Client

end Aex
