import Aex.Lib.Endian

/-!
# CRC-32C

The Castagnoli checksum, least significant bit first.  Exclusive or goes through a
step of the register, so the register after a number's bytes depends only on the
register before, combined with the number: a stream followed by its own checksum
always leaves the same register.
-/

namespace Crc32c

/-- One bit of the division. -/
def step (s : BitVec 32) : BitVec 32 :=
  if s.getLsbD 0 then (s >>> 1) ^^^ 0x82F63B78#32 else s >>> 1

def steps : Nat → BitVec 32 → BitVec 32
  | 0, s => s
  | n + 1, s => steps n (step s)

/-- Take one more byte into the register. -/
def update (s : BitVec 32) (b : UInt8) : BitVec 32 := steps 8 (s ^^^ b.toBitVec.setWidth 32)

def crc32c (bytes : List UInt8) : UInt32 := ⟨~~~(bytes.foldl update (BitVec.allOnes 32))⟩

variable {n k : Nat} {a b s v : BitVec 32}

/-- What a bit that falls out puts back in. -/
def feedback (bit : Bool) : BitVec 32 := if bit then 0x82F63B78#32 else 0#32

theorem step_eq : step s = (s >>> 1) ^^^ feedback (s.getLsbD 0) := by
  unfold step feedback
  cases s.getLsbD 0 with
  | false => simp
  | true => rfl

theorem feedback_xor (p q : Bool) : feedback (p ^^ q) = feedback p ^^^ feedback q := by
  revert p q
  decide

theorem step_xor : step (a ^^^ b) = step a ^^^ step b := by
  rw [step_eq, step_eq, step_eq, BitVec.getLsbD_xor, BitVec.ushiftRight_xor_distrib, feedback_xor]
  ac_rfl

theorem steps_xor : steps n (a ^^^ b) = steps n a ^^^ steps n b := by
  induction n generalizing a b with
  | zero => rfl
  | succ n ih => rw [steps, steps, steps, step_xor, ih]

theorem steps_add : steps (n + k) s = steps k (steps n s) := by
  induction n generalizing s with
  | zero => rw [Nat.zero_add, steps]
  | succ n ih => rw [Nat.succ_add, steps, steps, ih]

/-- A register with clear low bits only moves down. -/
theorem steps_of_clear (h : ∀ i < n, s.getLsbD i = false) : steps n s = s >>> n := by
  induction n generalizing s with
  | zero => rw [steps, BitVec.ushiftRight_zero]
  | succ n ih =>
      have hlow : step s = s >>> 1 := if_neg (by rw [h 0 (Nat.succ_pos n)]; decide)
      rw [steps, hlow, ih, ← BitVec.shiftRight_add, Nat.add_comm]
      intro i hi
      rw [BitVec.getLsbD_ushiftRight, Nat.add_comm]
      exact h (i + 1) (Nat.succ_lt_succ hi)

/-- Taking in the low byte of a number leaves the rest of the number to be combined. -/
theorem update_xor : update s ⟨v.setWidth 8⟩ ^^^ (v >>> 8) = steps 8 (s ^^^ v) := by
  let low := (v.setWidth 8).setWidth 32
  have hclear : ∀ i < 8, (low ^^^ v).getLsbD i = false := by
    intro i hi
    simp only [low, BitVec.getLsbD_xor, BitVec.getLsbD_setWidth, hi, decide_true, Bool.true_and,
      show i < 32 by omega]
    exact Bool.xor_self _
  have hhigh : (low ^^^ v) >>> 8 = v >>> 8 := by
    have hlow : low >>> 8 = 0#32 := by
      apply BitVec.eq_of_getLsbD_eq
      intro i _
      simp only [low, BitVec.getLsbD_ushiftRight, BitVec.getLsbD_setWidth]
      simp
    rw [BitVec.ushiftRight_xor_distrib, hlow, BitVec.zero_xor]
  have hsplit : s ^^^ v = (s ^^^ low) ^^^ (low ^^^ v) := by
    rw [BitVec.xor_assoc, ← BitVec.xor_assoc low, BitVec.xor_self, BitVec.zero_xor]
  rw [hsplit, steps_xor, steps_of_clear hclear, hhigh]
  rfl

/-- The register after the lowest bytes of a number. -/
theorem foldl_update_toLE :
    (Endian.toLE k v.toNat).foldl update s ^^^ (v >>> (8 * k)) = steps (8 * k) (s ^^^ v) := by
  induction k generalizing s v with
  | zero => rfl
  | succ k ih =>
      have hbyte : UInt8.ofNat v.toNat = ⟨v.setWidth 8⟩ := by
        apply UInt8.toBitVec_inj.mp
        apply BitVec.eq_of_toNat_eq
        simp
      have hrest : v.toNat / 256 = (v >>> 8).toNat := by
        rw [BitVec.toNat_ushiftRight, Nat.shiftRight_eq_div_pow]
      rw [Endian.toLE, List.foldl_cons, hrest, Nat.mul_succ, Nat.add_comm (8 * k),
        BitVec.shiftRight_add, ih, hbyte, update_xor, ← steps_add]

/-- A stream followed by its own checksum has a checksum that does not depend on it. -/
theorem crc32c_checked (bytes : List UInt8) :
    crc32c (bytes ++ Endian.toLE 4 (crc32c bytes).toNat) = 0x48674BC7 := by
  have hfold := @foldl_update_toLE 4 (bytes.foldl update (BitVec.allOnes 32))
    (~~~(bytes.foldl update (BitVec.allOnes 32)))
  have hempty : (~~~(bytes.foldl update (BitVec.allOnes 32))) >>> (8 * 4) = 0#32 :=
    BitVec.ushiftRight_eq_zero (Nat.le_refl 32)
  have hones : bytes.foldl update (BitVec.allOnes 32) ^^^
      ~~~(bytes.foldl update (BitVec.allOnes 32)) = BitVec.allOnes 32 := by
    apply BitVec.eq_of_getLsbD_eq
    intro i hi
    rw [BitVec.getLsbD_xor, BitVec.getLsbD_not, BitVec.getLsbD_allOnes]
    simp [hi]
  have hlast : (⟨~~~steps (8 * 4) (BitVec.allOnes 32)⟩ : UInt32) = 0x48674BC7 := by
    decide +kernel
  rw [hempty, BitVec.xor_zero, hones] at hfold
  have hnum : (crc32c bytes).toNat = (~~~(bytes.foldl update (BitVec.allOnes 32))).toNat := rfl
  rw [crc32c, List.foldl_append, hnum, hfold, hlast]

end Crc32c
