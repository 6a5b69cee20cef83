import Mathlib.Data.List.Induction

/-!
# Pipelines undone in reverse

A pipeline applies its stages in order, and undoing it goes through them from the
last to the first.  Undoing may fail and carries a scratch value from stage to stage.
-/

namespace Pipeline

universe u v
variable {S : Type u} {α β ε : Type v}

/-- What the stages make of a content, in order. -/
def forward (enc : S → α → α) (stages : List S) (x : α) : α :=
  stages.foldl (fun x stage => enc stage x) x

/-- Undo the stages from the last one on. -/
def backward (dec : S → α × β → Except ε (α × β)) (stages : List S) (y : α × β) :
    Except ε (α × β) :=
  stages.reverse.foldlM (fun y stage => dec stage y) y

/-- Every stage admits the content it is applied to. -/
def Admits (enc : S → α → α) (ok : S → α → Prop) : List S → α → Prop
  | [], _ => True
  | stage :: stages, x => ok stage x ∧ Admits enc ok stages (enc stage x)

variable {enc : S → α → α} {dec : S → α × β → Except ε (α × β)} {ok : S → α → Prop}
  {valid : S → Prop} {broken : List S → α → Prop} {stages : List S} {stage : S} {x : α}
  {y z : α × β} {b : β}

@[simp] theorem forward_concat :
    forward enc (stages ++ [stage]) x = enc stage (forward enc stages x) := by
  simp [forward]

@[simp] theorem backward_nil : backward dec [] y = .ok y := rfl

theorem backward_concat :
    backward dec (stages ++ [stage]) y = dec stage y >>= backward dec stages := by
  rw [backward, List.reverse_append, List.reverse_singleton, List.singleton_append, List.foldlM_cons]
  rfl

theorem admits_concat :
    Admits enc ok (stages ++ [stage]) x ↔ Admits enc ok stages x ∧ ok stage (forward enc stages x) := by
  induction stages generalizing x with
  | nil => simp [Admits, forward]
  | cons first stages ih => simp [Admits, ih, and_assoc, forward]

theorem forall_mem_concat :
    (∀ s ∈ stages ++ [stage], valid s) ↔ (∀ s ∈ stages, valid s) ∧ valid stage := by
  simp [or_imp, forall_and]

/-- Undoing a stage gives the content back, where the stage admits it. -/
def Inverts (enc : S → α → α) (dec : S → α × β → Except ε (α × β)) (valid : S → Prop)
    (ok : S → α → Prop) : Prop :=
  ∀ stage x b, valid stage → ok stage x → ∃ b', dec stage (enc stage x, b) = .ok (x, b')

/-- Undoing a stage leaves damage to the content behind, if it succeeds at all. -/
def Keeps (dec : S → α × β → Except ε (α × β)) (valid : S → Prop)
    (broken : List S → α → Prop) : Prop :=
  ∀ stages stage y b z, valid stage → broken (stages ++ [stage]) y → dec stage (y, b) = .ok z →
    broken stages z.1

/-- Undoing a stage that does not admit its content damages it. -/
def Breaks (enc : S → α → α) (dec : S → α × β → Except ε (α × β)) (valid : S → Prop)
    (ok : S → α → Prop) (broken : List S → α → Prop) (x : α) : Prop :=
  ∀ stages stage b z, valid stage → ¬ok stage (forward enc stages x) →
    dec stage (enc stage (forward enc stages x), b) = .ok z → broken stages z.1

/-- Stages that undo what they admit give the content back. -/
theorem backward_forward (hdec : Inverts enc dec valid ok) (hvalid : ∀ s ∈ stages, valid s)
    (h : Admits enc ok stages x) :
    ∃ b', backward dec stages (forward enc stages x, b) = .ok (x, b') := by
  induction stages using List.reverseRecOn generalizing b with
  | nil => exact ⟨b, rfl⟩
  | append_singleton stages stage ih =>
      obtain ⟨hvalid, hlast⟩ := forall_mem_concat.mp hvalid
      obtain ⟨hstages, hstage⟩ := admits_concat.mp h
      obtain ⟨b', hb'⟩ := hdec stage _ b hlast hstage
      obtain ⟨b'', hb''⟩ := ih (b := b') hvalid hstages
      refine ⟨b'', ?_⟩
      rw [backward_concat, forward_concat, hb']
      exact hb''

/-- Damage that every stage passes on is still there at the end. -/
theorem backward_keeps (hkeep : Keeps dec valid broken) (hvalid : ∀ s ∈ stages, valid s)
    (hbroken : broken stages y.1) (h : backward dec stages y = .ok z) : broken [] z.1 := by
  induction stages using List.reverseRecOn generalizing y with
  | nil =>
      cases h
      exact hbroken
  | append_singleton stages stage ih =>
      obtain ⟨hvalid, hlast⟩ := forall_mem_concat.mp hvalid
      rw [backward_concat] at h
      cases hstage : dec stage y with
      | error e =>
          rw [hstage] at h
          cases h
      | ok next =>
          rw [hstage] at h
          exact ih hvalid (hkeep stages stage y.1 y.2 next hlast hbroken hstage) h

/-- What a stage does not admit it damages for good. -/
theorem backward_breaks (hdec : Inverts enc dec valid ok) (hbreak : Breaks enc dec valid ok broken x)
    (hkeep : Keeps dec valid broken) (hvalid : ∀ s ∈ stages, valid s)
    (h : ¬Admits enc ok stages x) (hback : backward dec stages (forward enc stages x, b) = .ok z) :
    broken [] z.1 := by
  induction stages using List.reverseRecOn generalizing b with
  | nil => exact absurd trivial h
  | append_singleton stages stage ih =>
      obtain ⟨hvalid, hlast⟩ := forall_mem_concat.mp hvalid
      rw [backward_concat, forward_concat] at hback
      rw [admits_concat, not_and_or] at h
      by_cases hstage : ok stage (forward enc stages x)
      · obtain ⟨b', hb'⟩ := hdec stage _ b hlast hstage
        rw [hb'] at hback
        exact ih hvalid (h.resolve_right (not_not_intro hstage)) hback
      · cases hnext : dec stage (enc stage (forward enc stages x), b) with
        | error e =>
            rw [hnext] at hback
            cases hback
        | ok next =>
            rw [hnext] at hback
            exact backward_keeps hkeep hvalid (hbreak stages stage b next hlast hstage hnext) hback

/-- Where no stage makes its content depend on the scratch value, none does in the end. -/
theorem backward_scratch {b' : β} {y : α}
    (hdec : ∀ stage y b b', (dec stage (y, b)).map Prod.fst = (dec stage (y, b')).map Prod.fst) :
    (backward dec stages (y, b)).map Prod.fst = (backward dec stages (y, b')).map Prod.fst := by
  induction stages using List.reverseRecOn generalizing y b b' with
  | nil => rfl
  | append_singleton stages stage ih =>
      have hstage := hdec stage y b b'
      rw [backward_concat, backward_concat]
      cases hx : dec stage (y, b) with
      | error e =>
          cases hz : dec stage (y, b') with
          | error e' =>
              rw [hx, hz] at hstage
              cases hstage
              rfl
          | ok z =>
              rw [hx, hz] at hstage
              cases hstage
      | ok z =>
          cases hz : dec stage (y, b') with
          | error e =>
              rw [hx, hz] at hstage
              cases hstage
          | ok z' =>
              rw [hx, hz] at hstage
              obtain ⟨content, scratch⟩ := z
              obtain ⟨content', scratch'⟩ := z'
              obtain rfl : content = content' := Except.ok.inj hstage
              exact ih

end Pipeline
