import Mathlib.Algebra.Group.Nat.Defs
import Mathlib.Tactic.Basic

/-!
# Binary floating-point formats

Bits stand for an integer multiple of their format's smallest positive number.  An
infinity is a number past the largest finite one; bits past the infinities are no number.
-/

namespace Ieee

/-- How many bits the exponent and the fraction have; the sign has one. -/
structure Format where
  exponent : Nat
  fraction : Nat
  deriving Repr, DecidableEq

namespace Format

def half : Format := ⟨5, 10⟩

def single : Format := ⟨8, 23⟩

def double : Format := ⟨11, 52⟩

variable (f : Format)

def bytes : Nat := (1 + f.exponent + f.fraction) / 8

/-- The bits without the sign. -/
def magnitude (bits : Nat) : Nat := bits % 2 ^ (f.exponent + f.fraction)

def negative (bits : Nat) : Bool := bits.testBit (f.exponent + f.fraction)

/-- The bits of the positive infinity. -/
def infinity : Nat := (2 ^ f.exponent - 1) * 2 ^ f.fraction

/-- The number without its sign, in units of the smallest positive one. -/
def scaled (bits : Nat) : Nat :=
  let m := f.magnitude bits
  let e := m / 2 ^ f.fraction
  if e = 0 then m else (2 ^ f.fraction + m % 2 ^ f.fraction) * 2 ^ (e - 1)

/-- The number, if it is one. -/
def number (bits : Nat) : Option Int :=
  if f.infinity < f.magnitude bits then none
  else some (if f.negative bits then -(f.scaled bits : Int) else f.scaled bits)

/-- How many of its units make 1. -/
def unit : Nat := 2 ^ (2 ^ (f.exponent - 1) - 1 + f.fraction - 1)

/-- The integer that a finite number is, if it is one. -/
def integer (bits : Nat) : Option Int :=
  if f.magnitude bits < f.infinity then
    (f.number bits).bind fun n => if (f.unit : Int) ∣ n then some (n / f.unit) else none
  else none

def isNan (bits : Nat) : Bool := (f.number bits).isNone

/-! What is no number compares to nothing. -/

def lt (x y : Nat) : Bool :=
  match f.number x, f.number y with
  | some a, some b => a < b
  | _, _ => false

def le (x y : Nat) : Bool :=
  match f.number x, f.number y with
  | some a, some b => a ≤ b
  | _, _ => false

def eq (x y : Nat) : Bool :=
  match f.number x, f.number y with
  | some a, some b => a = b
  | _, _ => false

variable {f : Format} {x y : Nat}

theorem isNan_iff : f.isNan x = true ↔ f.number x = none := Option.isNone_iff_eq_none

theorem isNan_eq_false_iff : f.isNan x = false ↔ ∃ a, f.number x = some a := by
  unfold isNan
  cases f.number x <;> simp

theorem lt_iff : f.lt x y = true ↔ ∃ a b, f.number x = some a ∧ f.number y = some b ∧ a < b := by
  unfold lt
  cases f.number x <;> cases f.number y <;> simp

theorem le_iff : f.le x y = true ↔ ∃ a b, f.number x = some a ∧ f.number y = some b ∧ a ≤ b := by
  unfold le
  cases f.number x <;> cases f.number y <;> simp

theorem eq_iff : f.eq x y = true ↔ ∃ a, f.number x = some a ∧ f.number y = some a := by
  unfold eq
  cases f.number x <;> cases f.number y <;> simp [eq_comm]

example : double.integer 0xC008000000000000 = some (-3) := by decide +kernel

example : double.integer 0x3FE0000000000000 = none := by decide +kernel

end Format

end Ieee
