import Mathlib.Algebra.GroupWithZero.Nat
import Mathlib.Data.Finset.Card
import Mathlib.Order.Interval.Finset.Nat

/-!
# Coverage of a range

Ranges `(offset, length)` that share no position and together are as long as a
range they lie in cover all of it.
-/

namespace Coverage

/-- The positions of a range. -/
def positions (r : Nat × Nat) : Finset Nat := Finset.Ico r.1 (r.1 + r.2)

/-- The positions of any of the ranges. -/
def covered : List (Nat × Nat) → Finset Nat
  | [] => ∅
  | r :: ranges => positions r ∪ covered ranges

/-- No position is in two of the ranges. -/
def Apart (ranges : List (Nat × Nat)) : Prop :=
  ranges.Pairwise fun r r' => Disjoint (positions r) (positions r')

variable {ranges : List (Nat × Nat)} {r : Nat × Nat} {p start len : Nat}

@[simp] theorem mem_positions : p ∈ positions r ↔ r.1 ≤ p ∧ p < r.1 + r.2 := Finset.mem_Ico

@[simp] theorem card_positions : (positions r).card = r.2 := by simp [positions]

theorem mem_covered : p ∈ covered ranges ↔ ∃ r ∈ ranges, p ∈ positions r := by
  induction ranges with
  | nil => simp [covered]
  | cons r ranges ih => simp [covered, ih]

/-- Ranges that share no position cover as many as their lengths add up to. -/
theorem Apart.card_covered (h : Apart ranges) :
    (covered ranges).card = (ranges.map Prod.snd).sum := by
  induction ranges with
  | nil => rfl
  | cons r ranges ih =>
      obtain ⟨hfirst, hrest⟩ := List.pairwise_cons.mp h
      have hdisjoint : Disjoint (positions r) (covered ranges) := by
        rw [Finset.disjoint_left]
        intro p hp hp'
        obtain ⟨r', hr', hp'⟩ := mem_covered.mp hp'
        exact Finset.disjoint_left.mp (hfirst r' hr') hp hp'
      rw [covered, Finset.card_union_of_disjoint hdisjoint, card_positions, ih hrest,
        List.map_cons, List.sum_cons]

theorem Apart.concat (h : Apart ranges) (hr : ∀ r' ∈ ranges, Disjoint (positions r') (positions r)) :
    Apart (ranges ++ [r]) := by
  refine List.pairwise_append.mpr ⟨h, List.pairwise_singleton _ _, fun r' hr' x hx => ?_⟩
  obtain rfl := List.mem_singleton.mp hx
  exact hr r' hr'

/-- Together long enough, they leave no position out. -/
theorem Apart.covers (h : Apart ranges)
    (hinside : ∀ r ∈ ranges, start ≤ r.1 ∧ r.1 + r.2 ≤ start + len)
    (hlong : len ≤ (ranges.map Prod.snd).sum) (hp : start ≤ p) (hp' : p < start + len) :
    ∃ r ∈ ranges, r.1 ≤ p ∧ p < r.1 + r.2 := by
  have hsub : covered ranges ⊆ positions (start, len) := by
    intro q hq
    obtain ⟨r, hr, hq⟩ := mem_covered.mp hq
    have := hinside r hr
    simp only [mem_positions] at hq ⊢
    omega
  have hall := Finset.eq_of_subset_of_card_le hsub (by rwa [card_positions, h.card_covered])
  have hmem : p ∈ covered ranges := by
    rw [hall, mem_positions]
    exact ⟨hp, hp'⟩
  obtain ⟨r, hr, hpr⟩ := mem_covered.mp hmem
  exact ⟨r, hr, mem_positions.mp hpr⟩

end Coverage
