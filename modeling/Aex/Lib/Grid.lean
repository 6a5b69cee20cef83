import Mathlib.Algebra.BigOperators.Ring.List
import Mathlib.Algebra.Group.Hom.Defs
import Mathlib.Algebra.Order.BigOperators.GroupWithZero.List
import Mathlib.Tactic.Abel
import Mathlib.Tactic.Linarith

/-!
# Sums over a grid, in C order

A grid has one list of terms per dimension.  Its cells are listed with the last
dimension varying fastest, and each cell holds the sum of its terms.
-/

namespace Grid

universe u
variable {α β : Type u}

/-- The sum of every cell, the last dimension varying fastest. -/
def sums [AddMonoid α] : List (List α) → List α
  | [] => [0]
  | terms :: dims => terms.flatMap fun term => (sums dims).map (term + ·)

/-! ## Cells in order -/

section Order

variable [AddMonoid α] {terms : List α} {dims more : List (List α)} {q r : Nat}

@[simp] theorem sums_nil : sums ([] : List (List α)) = [0] := rfl

theorem sums_cons :
    sums (terms :: dims) = terms.flatMap fun term => (sums dims).map (term + ·) := rfl

@[simp] theorem sums_singleton : sums [terms] = terms := by
  simp [sums_cons, List.flatMap_singleton']

theorem length_sums : (sums dims).length = (dims.map List.length).prod := by
  induction dims with
  | nil => rfl
  | cons terms dims ih => simp [sums_cons, List.length_flatMap, ih]

theorem sums_append :
    sums (dims ++ more) = (sums dims).flatMap fun a => (sums more).map (a + ·) := by
  induction dims with
  | nil => simp
  | cons terms dims ih =>
      simp only [List.cons_append, sums_cons, ih, List.map_flatMap, List.flatMap_assoc,
        List.flatMap_map, List.map_map, Function.comp_def, add_assoc]

/-- A grid has a cell when no dimension is empty. -/
theorem sums_eq_nil : sums dims = [] ↔ [] ∈ dims := by
  rw [← List.length_eq_zero_iff, length_sums, List.prod_eq_zero_iff, List.mem_map]
  constructor
  · rintro ⟨terms, hterms, hzero⟩
    obtain rfl := List.length_eq_zero_iff.mp hzero
    exact hterms
  · intro h
    exact ⟨[], h, rfl⟩

theorem map_sums [AddMonoid β] (f : α →+ β) :
    (sums dims).map f = sums (dims.map (List.map f)) := by
  induction dims with
  | nil => simp
  | cons terms dims ih =>
      simp [sums_cons, List.map_flatMap, List.flatMap_map, ← ih, Function.comp_def]

/-- The cell at `q` along the first dimension and position `r` past it. -/
theorem getElem?_sums_cons (hr : r < (sums dims).length) :
    (sums (terms :: dims))[q * (sums dims).length + r]? =
      terms[q]?.map (· + (sums dims)[r]) := by
  induction terms generalizing q with
  | nil => simp [sums_cons]
  | cons term terms ih =>
      rw [sums_cons, List.flatMap_cons]
      cases q with
      | zero =>
          rw [Nat.zero_mul, Nat.zero_add, List.getElem?_append_left (by simpa using hr)]
          simp [hr]
      | succ q =>
          have hskip : (q + 1) * (sums dims).length + r - (sums dims).length =
              q * (sums dims).length + r := by
            rw [Nat.succ_mul]
            omega
          rw [List.getElem?_append_right (by rw [List.length_map, Nat.succ_mul]; omega),
            List.length_map, hskip, ← sums_cons, ih]
          rfl

/-- The cell at `r` along the last dimension and position `q` before it. -/
theorem getElem?_sums_concat (hr : r < terms.length) :
    (sums (dims ++ [terms]))[q * terms.length + r]? = (sums dims)[q]?.map (· + terms[r]) := by
  have hrow : sums [terms] = terms := sums_singleton
  have h := @getElem?_sums_cons _ _ (sums dims) [terms] q r (by rwa [hrow])
  rw [sums_cons] at h
  simp only [hrow] at h
  rw [sums_append, hrow]
  exact h

theorem mem_sums_cons {x : α} :
    x ∈ sums (terms :: dims) ↔ ∃ t ∈ terms, ∃ s ∈ sums dims, t + s = x := by
  simp [sums_cons]

theorem mem_sums_append {x : α} :
    x ∈ sums (dims ++ more) ↔ ∃ a ∈ sums dims, ∃ b ∈ sums more, a + b = x := by
  simp [sums_append]

end Order

/-! ## Constant terms and reordered dimensions -/

section Comm

variable [AddCommMonoid α] {t x : α} {terms : List α} {dims more : List (List α)}

/-- A constant in every term of one dimension can be taken out. -/
theorem sums_shift : sums (dims ++ terms.map (t + ·) :: more) =
    (sums (dims ++ terms :: more)).map (t + ·) := by
  simp only [sums_append, sums_cons, List.map_flatMap, List.flatMap_map, List.map_map,
    Function.comp_def]
  congr! 6
  abel

/-- A dimension of one term is a constant. -/
theorem sums_one : sums (dims ++ [t] :: more) = (sums (dims ++ more)).map (t + ·) := by
  have h := @sums_shift _ _ t [0] dims more
  simp only [List.map_cons, List.map_nil, add_zero] at h
  rw [h]
  congr 1
  simp [sums_append, sums_cons]

/-- Reordering the dimensions reorders the cells. -/
theorem mem_sums_of_perm (h : dims.Perm more) : x ∈ sums dims ↔ x ∈ sums more := by
  induction h generalizing x with
  | nil => rfl
  | cons terms _ ih => simp only [mem_sums_cons, ih]
  | swap terms terms' dims =>
      simp only [mem_sums_cons]
      constructor <;>
        · rintro ⟨a, ha, _, ⟨b, hb, s, hs, rfl⟩, rfl⟩
          exact ⟨b, hb, _, ⟨a, ha, s, hs, rfl⟩, add_left_comm _ _ _⟩
  | trans _ _ ih ih' => rw [ih, ih']

theorem length_sums_of_perm (h : dims.Perm more) : (sums dims).length = (sums more).length := by
  rw [length_sums, length_sums]
  exact (h.map List.length).prod_eq

end Comm

end Grid
