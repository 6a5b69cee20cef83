import Mathlib.Algebra.BigOperators.Group.List.Basic

/-!
# Fixed-width unsigned arithmetic

Machine words of width `w` as natural numbers below `2 ^ w`.  The checked
operations report an overflow, the wrapping ones reduce modulo the range and
the saturating ones stop at its end.
-/

namespace Word

/-- One past the largest word of width `w`. -/
abbrev size (w : Nat) : Nat := 2 ^ w

def checkedAdd (w a b : Nat) : Option Nat := if a + b < size w then some (a + b) else none

def checkedMul (w a b : Nat) : Option Nat := if a * b < size w then some (a * b) else none

def checkedSub (a b : Nat) : Option Nat := if b ≤ a then some (a - b) else none

def wrappingAdd (w a b : Nat) : Nat := (a + b) % size w

def wrappingMul (w a b : Nat) : Nat := (a * b) % size w

def saturatingAdd (w a b : Nat) : Nat := min (a + b) (size w - 1)

def saturatingMul (w a b : Nat) : Nat := min (a * b) (size w - 1)

def wrappingSub (w a b : Nat) : Nat := (a + (size w - b % size w)) % size w

/-! Signed words of width `w` are the integers from `-2 ^ (w - 1)` up to `2 ^ (w - 1)`. -/

/-- The word of width `w` with the bits of a signed one. -/
def ofSigned (w : Nat) (a : Int) : Nat := (a % (size w : Int)).toNat

/-- A word of width `w` read as a signed one. -/
def toSigned (w a : Nat) : Int := if a < 2 ^ (w - 1) then a else a - (size w : Int)

def signedMin (w : Nat) : Int := -(2 ^ (w - 1))

def signedMax (w : Nat) : Int := 2 ^ (w - 1) - 1

/-- A word as a signed one, if it fits. -/
def checkedToSigned (w a : Nat) : Option Int :=
  if (a : Int) ≤ signedMax w then some a else none

def checkedMulSigned (w : Nat) (a b : Int) : Option Int :=
  if signedMin w ≤ a * b ∧ a * b ≤ signedMax w then some (a * b) else none

/-- A signed result, if it fits. -/
def checkedSigned (w : Nat) (a : Int) : Option Int :=
  if signedMin w ≤ a ∧ a ≤ signedMax w then some a else none

/-! A program's own operators panic on an overflow where it is built to check for
it, and wrap where it is not. -/

def add (checks : Bool) (w a b : Nat) : Option Nat :=
  if checks then checkedAdd w a b else some (wrappingAdd w a b)

def sub (checks : Bool) (w a b : Nat) : Option Nat :=
  if checks then checkedSub a b else some (wrappingSub w a b)

def mul (checks : Bool) (w a b : Nat) : Option Nat :=
  if checks then checkedMul w a b else some (wrappingMul w a b)

def subSigned (checks : Bool) (w : Nat) (a b : Int) : Option Int :=
  if checks then checkedSigned w (a - b) else some (toSigned w (ofSigned w (a - b)))

def saturatingAddSigned (w : Nat) (a b : Int) : Int := max (signedMin w) (min (a + b) (signedMax w))

variable {w a b c : Nat}

@[simp] theorem checkedAdd_eq_some : checkedAdd w a b = some c ↔ a + b < size w ∧ a + b = c := by
  unfold checkedAdd
  split <;> simp <;> omega

@[simp] theorem checkedMul_eq_some : checkedMul w a b = some c ↔ a * b < size w ∧ a * b = c := by
  unfold checkedMul
  split <;> simp <;> omega

@[simp] theorem checkedSub_eq_some : checkedSub a b = some c ↔ b ≤ a ∧ a - b = c := by
  unfold checkedSub
  split <;> simp <;> omega

theorem checkedSigned_eq_some {a b : Int} :
    checkedSigned w a = some b ↔ (signedMin w ≤ a ∧ a ≤ signedMax w) ∧ a = b := by
  unfold checkedSigned
  split <;> simp <;> omega

theorem checkedSigned_of_mem {a : Int} (hmin : signedMin w ≤ a) (hmax : a ≤ signedMax w) :
    checkedSigned w a = some a := if_pos ⟨hmin, hmax⟩

theorem ofSigned_of_nonneg {a : Int} (hnonneg : 0 ≤ a) (h : a < size w) :
    ofSigned w a = a.toNat := by
  rw [ofSigned, Int.emod_eq_of_lt hnonneg h]

theorem wrappingAdd_of_lt (h : a + b < size w) : wrappingAdd w a b = a + b := Nat.mod_eq_of_lt h

theorem wrappingMul_of_lt (h : a * b < size w) : wrappingMul w a b = a * b := Nat.mod_eq_of_lt h

theorem wrappingSub_of_le (hle : b ≤ a) (h : a < size w) : wrappingSub w a b = a - b := by
  rw [wrappingSub, Nat.mod_eq_of_lt (Nat.lt_of_le_of_lt hle h),
    show a + (size w - b) = a - b + size w by omega, Nat.add_mod_right,
    Nat.mod_eq_of_lt (by omega)]

section Checks

variable {checks : Bool}

theorem add_of_lt (h : a + b < size w) : add checks w a b = some (a + b) := by
  cases checks with
  | false => exact congrArg some (wrappingAdd_of_lt h)
  | true => exact checkedAdd_eq_some.mpr ⟨h, rfl⟩

theorem sub_of_le (hle : b ≤ a) (h : a < size w) : sub checks w a b = some (a - b) := by
  cases checks with
  | false => exact congrArg some (wrappingSub_of_le hle h)
  | true => exact checkedSub_eq_some.mpr ⟨hle, rfl⟩

theorem mul_of_lt (h : a * b < size w) : mul checks w a b = some (a * b) := by
  cases checks with
  | false => exact congrArg some (wrappingMul_of_lt h)
  | true => exact checkedMul_eq_some.mpr ⟨h, rfl⟩

/-- A product in a program's own operators. -/
theorem foldlM_mul_of_lt {xs : List Nat} (h : ∀ k, a * (xs.take k).prod < size w) :
    xs.foldlM (mul checks w) a = some (a * xs.prod) := by
  induction xs generalizing a with
  | nil => simp
  | cons x xs ih =>
      have hx := h 1
      rw [List.take_succ_cons, List.take_zero, List.prod_singleton] at hx
      rw [List.foldlM_cons, mul_of_lt hx, Option.bind_eq_bind, Option.bind_some, ih, List.prod_cons,
        Nat.mul_assoc]
      intro k
      have hk := h (k + 1)
      rwa [List.take_succ_cons, List.prod_cons, ← Nat.mul_assoc] at hk

theorem foldlM_mul_true_ne_none {xs : List Nat} (ha : a < size w)
    (h : xs.foldlM (mul true w) a ≠ none) (k : Nat) : a * (xs.take k).prod < size w := by
  induction xs generalizing a k with
  | nil => simpa using ha
  | cons x xs ih =>
      cases k with
      | zero => simpa using ha
      | succ k =>
          rw [List.foldlM_cons] at h
          cases hx : mul true w a x with
          | none =>
              rw [hx] at h
              exact absurd rfl h
          | some b =>
              rw [hx] at h
              obtain ⟨hlt, rfl⟩ := checkedMul_eq_some.mp hx
              rw [List.take_succ_cons, List.prod_cons, ← Nat.mul_assoc]
              exact ih hlt h k

/-- A word read back as the signed one it was made of. -/
theorem toSigned_ofSigned {a : Int} (hw : 0 < w) (hmin : signedMin w ≤ a) (hmax : a ≤ signedMax w) :
    toSigned w (ofSigned w a) = a := by
  unfold signedMin at hmin
  unfold signedMax at hmax
  have hhalf : (size w : Int) = 2 * 2 ^ (w - 1) := by
    obtain ⟨v, rfl⟩ := Nat.exists_eq_succ_of_ne_zero (Nat.pos_iff_ne_zero.mp hw)
    rw [Nat.succ_eq_add_one, Nat.add_sub_cancel, size, Nat.pow_succ]
    push_cast
    exact mul_comm _ _
  have hnat : ((2 ^ (w - 1) : Nat) : Int) = 2 ^ (w - 1) := by push_cast; rfl
  unfold toSigned ofSigned
  rcases Int.lt_or_le a 0 with hneg | hnonneg
  · have hmod : a % (size w : Int) = a + size w := by
      rw [← Int.add_emod_right, Int.emod_eq_of_lt (by omega) (by omega)]
    rw [hmod, if_neg (by omega), Int.toNat_of_nonneg (by omega)]
    omega
  · rw [Int.emod_eq_of_lt hnonneg (by omega), if_pos (by omega), Int.toNat_of_nonneg hnonneg]

/-- Exact where the result is a signed word. -/
theorem subSigned_of_mem {a b : Int} (hw : 0 < w) (hmin : signedMin w ≤ a - b)
    (hmax : a - b ≤ signedMax w) : subSigned checks w a b = some (a - b) := by
  cases checks with
  | false => exact congrArg some (toSigned_ofSigned hw hmin hmax)
  | true => exact checkedSigned_of_mem hmin hmax

theorem cast_ofSigned {a : Int} : (ofSigned w a : Int) = a % size w := by
  have hpos : 0 < size w := Nat.two_pow_pos w
  exact Int.toNat_of_nonneg (Int.emod_nonneg a (by omega))

theorem wrappingAdd_ofSigned {a b : Int} :
    wrappingAdd w (ofSigned w a) (ofSigned w b) = ofSigned w (a + b) := by
  apply Int.ofNat_inj.mp
  rw [cast_ofSigned, wrappingAdd, Int.natCast_emod, Int.natCast_add, cast_ofSigned, cast_ofSigned,
    ← Int.add_emod]

theorem wrappingMul_ofSigned {a b : Int} :
    wrappingMul w (ofSigned w a) (ofSigned w b) = ofSigned w (a * b) := by
  apply Int.ofNat_inj.mp
  rw [cast_ofSigned, wrappingMul, Int.natCast_emod, Int.natCast_mul, cast_ofSigned, cast_ofSigned,
    ← Int.mul_emod]

end Checks

theorem wrappingAdd_lt : wrappingAdd w a b < size w := Nat.mod_lt _ (Nat.two_pow_pos w)

theorem wrappingMul_lt : wrappingMul w a b < size w := Nat.mod_lt _ (Nat.two_pow_pos w)

/-- A product taken one factor at a time wraps once. -/
theorem foldl_wrappingMul {xs : List Nat} (ha : a < size w) :
    xs.foldl (wrappingMul w) a = a * xs.prod % size w := by
  induction xs generalizing a with
  | nil => simpa using (Nat.mod_eq_of_lt ha).symm
  | cons x xs ih =>
      rw [List.foldl_cons, ih wrappingMul_lt, List.prod_cons, wrappingMul, Nat.mod_mul_mod,
        Nat.mul_assoc]

/-- A product that saturates at every factor saturates once. -/
theorem foldl_saturatingMul {xs : List Nat} (ha : a ≤ size w - 1) :
    xs.foldl (saturatingMul w) a = min (a * xs.prod) (size w - 1) := by
  induction xs generalizing a with
  | nil => rw [List.foldl_nil, List.prod_nil, Nat.mul_one, Nat.min_eq_left ha]
  | cons x xs ih =>
      rw [List.foldl_cons, saturatingMul, ih (Nat.min_le_right _ _), List.prod_cons, ← Nat.mul_assoc]
      rcases Nat.eq_zero_or_pos xs.prod with hzero | hpos
      · rw [hzero, Nat.mul_zero, Nat.mul_zero]
      rcases Nat.le_total (a * x) (size w - 1) with hfits | hover
      · rw [Nat.min_eq_left hfits]
      · have := Nat.le_mul_of_pos_right (a * x) hpos
        have := Nat.le_mul_of_pos_right (size w - 1) hpos
        rw [Nat.min_eq_right hover]
        omega

/-- A product that is checked at every factor is exact. -/
theorem foldlM_checkedMul {xs : List Nat} (h : xs.foldlM (checkedMul w) a = some c) :
    c = a * xs.prod ∧ (a < size w → c < size w) := by
  induction xs generalizing a with
  | nil =>
      obtain rfl := Option.some.inj h
      simp
  | cons x xs ih =>
      rw [List.foldlM_cons, Option.bind_eq_bind, Option.bind_eq_some_iff] at h
      obtain ⟨m, hm, h⟩ := h
      obtain ⟨hlt, rfl⟩ := checkedMul_eq_some.mp hm
      obtain ⟨rfl, hc⟩ := ih h
      exact ⟨by rw [List.prod_cons, Nat.mul_assoc], fun _ => hc hlt⟩

end Word
