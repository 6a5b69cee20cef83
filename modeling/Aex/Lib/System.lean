import Mathlib.Order.WellFounded
import Mathlib.Tactic.Basic

/-!
# Labelled transition systems

A system is a set of initial states and a labelled step relation.  Safety
statements range over the states of its runs; a condition on steps restricts
the runs to those all of whose steps meet it, so that one notion of
reachability serves both the unconditional and the conditional statements.
-/

namespace Lts

universe u v

/-- Initial states and labelled steps. -/
structure System (σ : Type u) (ℓ : Type v) where
  init : σ → Prop
  step : σ → ℓ → σ → Prop

namespace System

variable {σ : Type u} {ℓ : Type v} {M : System σ ℓ}

/-- The system of a partial step function: a label that is not enabled has no step. -/
def ofFn (init : σ) (next : σ → ℓ → Option σ) : System σ ℓ where
  init s := s = init
  step s a t := next s a = some t

@[simp] theorem ofFn_init {init : σ} {next : σ → ℓ → Option σ} {s : σ} :
    (ofFn init next).init s ↔ s = init := Iff.rfl

@[simp] theorem ofFn_step {init : σ} {next : σ → ℓ → Option σ} {s t : σ} {a : ℓ} :
    (ofFn init next).step s a t ↔ next s a = some t := Iff.rfl

/-- States reached by the runs whose every step meets `P`, a condition on the
state before the step and on its label. -/
inductive ReachableWhere (M : System σ ℓ) (P : σ → ℓ → Prop) : σ → Prop
  | init {s : σ} (h : M.init s) : ReachableWhere M P s
  | step {s t : σ} {a : ℓ} (hr : ReachableWhere M P s) (hp : P s a) (hs : M.step s a t) :
      ReachableWhere M P t

/-- States reached by any run. -/
def Reachable (M : System σ ℓ) : σ → Prop := M.ReachableWhere fun _ _ => True

theorem ReachableWhere.mono {P Q : σ → ℓ → Prop} (hpq : ∀ s a, P s a → Q s a) {s : σ}
    (h : M.ReachableWhere P s) : M.ReachableWhere Q s := by
  induction h with
  | init h => exact .init h
  | step _ hp hs ih => exact .step ih (hpq _ _ hp) hs

theorem ReachableWhere.reachable {P : σ → ℓ → Prop} {s : σ} (h : M.ReachableWhere P s) :
    M.Reachable s := h.mono fun _ _ _ => trivial

theorem Reachable.init {s : σ} (h : M.init s) : M.Reachable s := ReachableWhere.init h

theorem Reachable.step {s t : σ} {a : ℓ} (hr : M.Reachable s) (hs : M.step s a t) :
    M.Reachable t := ReachableWhere.step hr trivial hs

section Steps

variable {next : σ → ℓ → Option σ} {P : σ → ℓ → Prop} {start : σ}

/-- Labels run by a function whose steps are steps of the system, each checked
against the condition before it is run. -/
theorem reachableWhere_of_steps [∀ s a, Decidable (P s a)]
    (hnext : ∀ s a t, next s a = some t → M.step s a t) (hstart : M.init start) (labels : List ℓ)
    {s : σ} (h : labels.foldlM (fun t a => if P t a then next t a else none) start = some s) :
    M.ReachableWhere P s := by
  suffices hfrom : ∀ t, M.ReachableWhere P t →
      labels.foldlM (fun t a => if P t a then next t a else none) t = some s →
      M.ReachableWhere P s from hfrom start (.init hstart) h
  clear h
  induction labels with
  | nil =>
      intro t ht h
      cases h
      exact ht
  | cons a labels ih =>
      intro t ht h
      rw [List.foldlM_cons, Option.bind_eq_bind, Option.bind_eq_some_iff] at h
      obtain ⟨u, hu, h⟩ := h
      split at hu
      · rename_i hp
        exact ih u (.step ht hp (hnext t a u hu)) h
      · cases hu

theorem reachable_of_steps (hnext : ∀ s a t, next s a = some t → M.step s a t)
    (hstart : M.init start) (labels : List ℓ) {s : σ} (h : labels.foldlM next start = some s) :
    M.Reachable s := by
  refine reachableWhere_of_steps hnext hstart labels ?_
  simpa using h

end Steps

section OfFn

variable {init : σ} {next : σ → ℓ → Option σ} {P : σ → ℓ → Prop}

theorem ReachableWhere.start : (ofFn init next).ReachableWhere P init := .init rfl

theorem ReachableWhere.snoc {s t : σ} (a : ℓ) (hr : (ofFn init next).ReachableWhere P s)
    (hp : P s a) (hs : next s a = some t) : (ofFn init next).ReachableWhere P t := .step hr hp hs

/-- A list of labels run one after the other from the initial state. -/
theorem reachable_of_run (labels : List ℓ) {s : σ}
    (h : labels.foldlM next init = some s) : (ofFn init next).Reachable s :=
  reachable_of_steps (fun _ _ _ hs => hs) rfl labels h

/-- A list of labels, each checked against the condition before it is run. -/
theorem reachableWhere_of_run [∀ s a, Decidable (P s a)] (labels : List ℓ) {s : σ}
    (h : labels.foldlM (fun t a => if P t a then next t a else none) init = some s) :
    (ofFn init next).ReachableWhere P s :=
  reachableWhere_of_steps (fun _ _ _ hs => hs) rfl labels h

/-- A list of labels that meet the condition wherever they are run. -/
theorem reachableWhere_of_labels {labels : List ℓ} (hp : ∀ a ∈ labels, ∀ s, P s a) {s : σ}
    (h : labels.foldlM next init = some s) : (ofFn init next).ReachableWhere P s := by
  suffices hfrom : ∀ t, (ofFn init next).ReachableWhere P t → labels.foldlM next t = some s →
      (ofFn init next).ReachableWhere P s from hfrom init .start h
  clear h
  induction labels with
  | nil =>
      intro t ht h
      cases h
      exact ht
  | cons a labels ih =>
      rw [List.forall_mem_cons] at hp
      intro t ht h
      rw [List.foldlM_cons, Option.bind_eq_bind, Option.bind_eq_some_iff] at h
      obtain ⟨u, hu, h⟩ := h
      exact ih hp.2 u (ht.snoc a (hp.1 t) hu) h

end OfFn

/-- `I` holds initially and each step meeting `P` keeps it. -/
structure Inductive (M : System σ ℓ) (P : σ → ℓ → Prop) (I : σ → Prop) : Prop where
  init : ∀ {s : σ}, M.init s → I s
  step : ∀ {s t : σ} {a : ℓ}, I s → P s a → M.step s a t → I t

/-- The run rule: an inductive predicate holds of every state of every run. -/
theorem Inductive.holds {P : σ → ℓ → Prop} {I : σ → Prop} (h : M.Inductive P I) {s : σ}
    (hr : M.ReachableWhere P s) : I s := by
  induction hr with
  | init hi => exact h.init hi
  | step _ hp hs ih => exact h.step ih hp hs

/-- The termination rule: a run whose steps all bring a measure down comes to an end. -/
theorem Inductive.not_endless {P : σ → ℓ → Prop} {I : σ → Prop} (h : M.Inductive P I) {α : Type*}
    {r : α → α → Prop} (hr : WellFounded r) (measure : σ → α)
    (hdown : ∀ {s t : σ} {a : ℓ}, I s → P s a → M.step s a t → r (measure t) (measure s))
    {run : Nat → σ} (hstart : I (run 0)) :
    ¬ ∀ k, ∃ a, P (run k) a ∧ M.step (run k) a (run (k + 1)) := by
  intro hrun
  have hholds : ∀ k, I (run k) := by
    intro k
    induction k with
    | zero => exact hstart
    | succ k ih =>
        obtain ⟨a, hp, hs⟩ := hrun k
        exact h.step ih hp hs
  refine (wellFounded_iff_isEmpty_descending_chain.mp hr).false ⟨fun k => measure (run k), fun k => ?_⟩
  obtain ⟨a, hp, hs⟩ := hrun k
  exact hdown (hholds k) hp hs

/-- A run that goes on for ever takes steps that bring the measure down by nothing again and
again. -/
theorem Inductive.recurs {P : σ → ℓ → Prop} {I : σ → Prop} (h : M.Inductive P I) {α : Type*}
    {r : α → α → Prop} (hr : WellFounded r) (measure : σ → α) {idle : ℓ → Prop}
    (hdown : ∀ {s t : σ} {a : ℓ}, I s → P s a → ¬ idle a → M.step s a t → r (measure t) (measure s))
    {run : Nat → σ} {labels : Nat → ℓ} (hstart : I (run 0))
    (hrun : ∀ k, P (run k) (labels k) ∧ M.step (run k) (labels k) (run (k + 1))) (m : Nat) :
    ∃ k, m ≤ k ∧ idle (labels k) := by
  by_contra hnever
  have hbusy : ∀ k, ¬ idle (labels (m + k)) := fun k hidle => hnever ⟨m + k, Nat.le_add_right m k, hidle⟩
  have hholds : ∀ k, I (run k) := by
    intro k
    induction k with
    | zero => exact hstart
    | succ k ih => exact h.step ih (hrun k).1 (hrun k).2
  have hkeeps : M.Inductive (fun s a => P s a ∧ ¬ idle a) I :=
    ⟨h.init, fun hs hp hstep => h.step hs hp.1 hstep⟩
  have hends := @Inductive.not_endless σ ℓ M _ I hkeeps α r hr measure
    (fun hs hp hstep => hdown hs hp.1 hp.2 hstep) (fun k => run (m + k)) (hholds m)
  exact hends fun k => ⟨labels (m + k), ⟨(hrun (m + k)).1, hbusy k⟩, (hrun (m + k)).2⟩

end System

end Lts
