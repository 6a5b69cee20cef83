import Mathlib.Tactic.Ring

/-!
# Little-endian bytes

Numbers stored in a fixed count of bytes, the lowest byte first.
-/

namespace Endian

/-- The lowest `k` bytes of a number. -/
def toLE : Nat → Nat → List UInt8
  | 0, _ => []
  | k + 1, n => UInt8.ofNat n :: toLE k (n / 256)

/-- The number some bytes store. -/
def ofLE : List UInt8 → Nat
  | [] => 0
  | b :: bytes => b.toNat + 256 * ofLE bytes

variable {k n : Nat}

@[simp] theorem length_toLE : (toLE k n).length = k := by
  induction k generalizing n with
  | zero => rfl
  | succ k ih => simp [toLE, ih]

theorem ofLE_toLE : ofLE (toLE k n) = n % 256 ^ k := by
  induction k generalizing n with
  | zero => simp [toLE, ofLE, Nat.mod_one]
  | succ k ih =>
      rw [toLE, ofLE, ih, Nat.pow_succ, Nat.mul_comm (256 ^ k), Nat.mod_mul]
      simp

theorem ofLE_toLE_of_lt (h : n < 256 ^ k) : ofLE (toLE k n) = n := by
  rw [ofLE_toLE, Nat.mod_eq_of_lt h]

/-- The bytes one by one. -/
theorem toLE_eq_map : (List.range k).map (fun i => UInt8.ofNat (n / 256 ^ i)) = toLE k n := by
  induction k generalizing n with
  | zero => rfl
  | succ k ih =>
      rw [List.range_succ_eq_map, List.map_cons, List.map_map, toLE, ← ih]
      simp [Function.comp_def, Nat.pow_succ', Nat.div_div_eq_div_mul]

theorem toLE_ofLE {bytes : List UInt8} (h : bytes.length = k) : toLE k (ofLE bytes) = bytes := by
  induction bytes generalizing k with
  | nil =>
      subst h
      rfl
  | cons b bytes ih =>
      subst h
      have hb := b.toNat_lt
      have hdiv : (b.toNat + 256 * ofLE bytes) / 256 = ofLE bytes := by omega
      rw [List.length_cons, ofLE, toLE, hdiv, ih rfl]
      simp

theorem ofLE_lt {bytes : List UInt8} (h : bytes.length = k) : ofLE bytes < 256 ^ k := by
  induction bytes generalizing k with
  | nil =>
      subst h
      decide
  | cons b bytes ih =>
      subst h
      have hb := b.toNat_lt
      have := ih rfl
      rw [List.length_cons, ofLE, Nat.pow_succ]
      omega

end Endian
