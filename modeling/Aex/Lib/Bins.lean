import Mathlib.Tactic.Basic

/-!
# Folds into bins

Data that each go into one of several bins, and what every bin then holds.
-/

namespace Bins

universe u v
variable {β : Type u} {γ : Type v}

/-- Fold each datum into its bin. -/
def fill (step : β → γ → β) (bins : List β) (data : List (Nat × γ)) : List β :=
  data.foldl (fun bins (i, x) => bins.modify i (step · x)) bins

variable {step : β → γ → β} {bins : List β} {data more : List (Nat × γ)} {i : Nat} {x : γ}

@[simp] theorem fill_nil : fill step bins [] = bins := rfl

theorem fill_append : fill step bins (data ++ more) = fill step (fill step bins data) more :=
  List.foldl_append

@[simp] theorem length_fill : (fill step bins data).length = bins.length := by
  induction data generalizing bins with
  | nil => rfl
  | cons datum data ih =>
      show (fill step _ data).length = _
      rw [ih, List.length_modify]

/-- What one bin gets. -/
def of (i : Nat) (data : List (Nat × γ)) : List γ := (data.filter fun datum => datum.1 = i).map Prod.snd

/-- A bin holds the fold of its own data, in their order. -/
theorem getElem?_fill : (fill step bins data)[i]? = bins[i]?.map fun b => (of i data).foldl step b := by
  induction data generalizing bins with
  | nil => simp [of]
  | cons datum data ih =>
      show (fill step (bins.modify datum.1 (step · datum.2)) data)[i]? = _
      rw [ih, List.getElem?_modify, of, of]
      by_cases hi : datum.1 = i
      · simp [hi, Function.comp_def]
      · simp [hi]

/-- Bins that start alike end with the folds of what they get. -/
theorem fill_replicate {init : β} {n : Nat} :
    fill step (List.replicate n init) data =
      (List.range n).map fun i => (of i data).foldl step init := by
  apply List.ext_getElem?
  intro i
  rw [getElem?_fill, List.getElem?_replicate, List.getElem?_map]
  by_cases hi : i < n
  · rw [if_pos hi, List.getElem?_range hi]
    rfl
  · rw [if_neg hi, List.getElem?_eq_none (by simpa using hi)]
    rfl

theorem mem_fill_replicate {b init : β} {n : Nat} :
    b ∈ fill step (List.replicate n init) data ↔ ∃ i < n, b = (of i data).foldl step init := by
  rw [List.mem_iff_getElem?]
  simp only [getElem?_fill, List.getElem?_replicate]
  constructor
  · rintro ⟨i, hi⟩
    by_cases hn : i < n
    · rw [if_pos hn] at hi
      exact ⟨i, hn, (Option.some.inj hi).symm⟩
    · rw [if_neg hn] at hi
      cases hi
  · rintro ⟨i, hn, rfl⟩
    exact ⟨i, by rw [if_pos hn]; rfl⟩

end Bins
