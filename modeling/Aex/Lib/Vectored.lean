import Mathlib.Tactic.Basic

/-!
# Vectored writes

A writer is offered several buffers at once and takes some of their bytes, in
order.  What it took is dropped from the front of the buffers before it is
offered the rest; a run of writers' answers is a list of attempts.
-/

namespace Vectored

universe u v
variable {α : Type u} {ε : Type v}

/-- What one call of a vectored write does. -/
inductive Attempt (ε : Type v) where
  /-- It takes at most so many elements of what it is offered. -/
  | takes (n : Nat)
  | interrupted
  | fails (e : ε)

namespace Attempt

/-- The writer has neither failed nor refused to take anything. -/
def Progresses : Attempt ε → Prop
  | takes n => 0 < n
  | interrupted => True
  | fails _ => False

instance : (attempt : Attempt ε) → Decidable attempt.Progresses
  | takes n => inferInstanceAs (Decidable (0 < n))
  | interrupted => .isTrue trivial
  | fails _ => .isFalse id

def isTakes : Attempt ε → Bool
  | takes _ => true
  | _ => false

end Attempt

/-- Advance past `n` elements: whole buffers are removed, and the one the position
falls into is cut. -/
def advance : List (List α) → Nat → List (List α)
  | [], _ => []
  | buf :: bufs, n =>
      if buf.length ≤ n then advance bufs (n - buf.length) else buf.drop n :: bufs

/-- Buffers left to write start with one that has something in it. -/
def Ready (bufs : List (List α)) : Prop := ∀ buf ∈ bufs.head?, buf ≠ []

variable {bufs : List (List α)} {n : Nat}

theorem flatten_advance : (advance bufs n).flatten = bufs.flatten.drop n := by
  induction bufs generalizing n with
  | nil => simp [advance]
  | cons buf bufs ih =>
      unfold advance
      split
      · rename_i hle
        rw [ih, List.flatten_cons, List.drop_append, List.drop_eq_nil_of_le hle, List.nil_append]
      · rename_i hlt
        rw [List.flatten_cons, List.flatten_cons, List.drop_append_of_le_length (by omega)]

theorem ready_advance : Ready (advance bufs n) := by
  induction bufs generalizing n with
  | nil => simp [Ready, advance]
  | cons buf bufs ih =>
      unfold advance
      split
      · exact ih
      · rename_i hlt
        intro first hfirst
        cases hfirst
        intro hnil
        have := congrArg List.length hnil
        rw [List.length_drop, List.length_nil] at this
        omega

/-- Nothing is left to offer only when no buffer is. -/
theorem Ready.eq_nil_iff (h : Ready bufs) : bufs.flatten = [] ↔ bufs = [] := by
  cases bufs with
  | nil => simp
  | cons buf bufs =>
      have hne : buf ≠ [] := h buf rfl
      simp [hne]

end Vectored
