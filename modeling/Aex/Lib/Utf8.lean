import Mathlib.Tactic.Basic
import Mathlib.Tactic.IntervalCases

/-!
# Lossy UTF-8

Bytes as text, with a replacement character for every ill-formed sequence.  A
sequence is given up at the first byte that cannot continue it, and reading goes
on with that byte.
-/

namespace Utf8

def replacement : Char := Char.ofNat 0xFFFD

/-- What a lead byte promises: its own bits of the character, how many bytes
follow, and the range the first of them lies in. -/
def lead (b : UInt8) : Option (Nat × Nat × UInt8 × UInt8) :=
  if 0xC2 ≤ b ∧ b ≤ 0xDF then some (b.toNat % 32, 1, 0x80, 0xBF)
  else if b = 0xE0 then some (0, 2, 0xA0, 0xBF)
  else if b = 0xED then some (13, 2, 0x80, 0x9F)
  else if 0xE1 ≤ b ∧ b ≤ 0xEF then some (b.toNat % 16, 2, 0x80, 0xBF)
  else if b = 0xF0 then some (0, 3, 0x90, 0xBF)
  else if 0xF1 ≤ b ∧ b ≤ 0xF3 then some (b.toNat % 8, 3, 0x80, 0xBF)
  else if b = 0xF4 then some (4, 3, 0x80, 0x8F)
  else none

/-- Read `n` continuation bytes, the first of them between `low` and `high`.  The
character is `none` when they are cut short; either way the bytes used are counted. -/
def continued : Nat → UInt8 → UInt8 → Nat → List UInt8 → Option Char × Nat
  | 0, _, _, code, _ => (some (Char.ofNat code), 0)
  | _ + 1, _, _, _, [] => (none, 0)
  | n + 1, low, high, code, b :: rest =>
      if low ≤ b ∧ b ≤ high then
        let (c, used) := continued n 0x80 0xBF (code * 64 + b.toNat % 64) rest
        (c, used + 1)
      else (none, 0)

def chars : Nat → List UInt8 → List Char
  | 0, _ | _, [] => []
  | fuel + 1, b :: rest =>
      if b < 0x80 then Char.ofNat b.toNat :: chars fuel rest
      else match lead b with
        | none => replacement :: chars fuel rest
        | some (code, n, low, high) =>
            let (c, used) := continued n low high code rest
            c.getD replacement :: chars fuel (rest.drop used)

/-- Bytes as text, ill-formed sequences replaced. -/
def lossy (bytes : List UInt8) : String := String.ofList (chars bytes.length bytes)

example : lossy [0x61, 0xE2, 0x82, 0xAC, 0xE2, 0x82, 0x62, 0xFF] = "a€\uFFFDb\uFFFD" := by decide

/-! ## Text read back -/

section Encode

variable {m n code fuel : Nat} {rest : List UInt8} {low high : UInt8}

/-- A continuation byte in its range adds its six bits. -/
theorem continued_succ (hlow : low.toNat ≤ m % 64 + 0x80) (hhigh : m % 64 + 0x80 ≤ high.toNat) :
    continued (n + 1) low high code (UInt8.ofNat (m % 64 + 0x80) :: rest) =
      ((continued n 0x80 0xBF (code * 64 + m % 64) rest).1,
        (continued n 0x80 0xBF (code * 64 + m % 64) rest).2 + 1) := by
  have hbyte : (UInt8.ofNat (m % 64 + 0x80)).toNat = m % 64 + 0x80 :=
    UInt8.toNat_ofNat_of_lt (by show _ < 256; omega)
  rw [continued, if_pos ⟨by rwa [UInt8.le_iff_toNat_le, hbyte], by rwa [UInt8.le_iff_toNat_le, hbyte]⟩,
    hbyte, show (m % 64 + 0x80) % 64 = m % 64 by omega]

/-- Past the first of them any continuation byte will do. -/
theorem continued_plain : continued (n + 1) 0x80 0xBF code (UInt8.ofNat (m % 64 + 0x80) :: rest) =
    ((continued n 0x80 0xBF (code * 64 + m % 64) rest).1,
      (continued n 0x80 0xBF (code * 64 + m % 64) rest).2 + 1) := by
  refine continued_succ (Nat.le_add_left _ _) ?_
  show m % 64 + 0x80 ≤ 0xBF
  omega

theorem lead_two (hm : 2 ≤ m) (hm' : m < 32) :
    lead (UInt8.ofNat (m % 32 + 0xc0)) = some (m, 1, 0x80, 0xBF) := by
  interval_cases m <;> decide

theorem lead_three (hm : 0 < m) (hm' : m < 16) (hne : m ≠ 13) :
    lead (UInt8.ofNat (m % 16 + 0xe0)) = some (m, 2, 0x80, 0xBF) := by
  interval_cases m <;> first | decide | exact absurd rfl hne

theorem lead_four (hm : 0 < m) (hm' : m < 4) :
    lead (UInt8.ofNat (m % 8 + 0xf0)) = some (m, 3, 0x80, 0xBF) := by
  interval_cases m <;> decide

/-- A lead byte whose promise is kept makes one character. -/
theorem chars_lead (code n : Nat) (low high : UInt8) {b : UInt8} {c : Char} {bytes : List UInt8}
    (hb : 0x80 ≤ b.toNat) (hlead : lead b = some (code, n, low, high))
    (hcode : continued n low high code (bytes ++ rest) = (some c, bytes.length)) :
    chars (fuel + 1) (b :: bytes ++ rest) = c :: chars fuel rest := by
  have hnot : ¬ b < 0x80 := by
    rw [UInt8.lt_iff_toNat_lt]
    exact Nat.not_lt.mpr hb
  rw [List.cons_append, chars, if_neg hnot, hlead]
  dsimp only
  rw [hcode]
  dsimp only
  rw [List.drop_left]
  rfl

/-- One character is read back from the bytes it is written as. -/
theorem chars_utf8EncodeChar (c : Char) :
    chars (fuel + 1) (String.utf8EncodeChar c ++ rest) = c :: chars fuel rest := by
  have hvalid : c.val.toNat < 0xD800 ∨ 0xDFFF < c.val.toNat ∧ c.val.toNat < 0x110000 := c.valid
  have hof : Char.ofNat c.val.toNat = c := Char.ofNat_toNat c
  have hbyte : ∀ m < 256, (UInt8.ofNat m).toNat = m := fun m hm => UInt8.toNat_ofNat_of_lt hm
  unfold String.utf8EncodeChar
  dsimp only
  generalize c.val.toNat = v at *
  split
  · have hv := hbyte v (by omega)
    rw [List.cons_append, List.nil_append, chars, if_pos, hv, hof]
    rw [UInt8.lt_iff_toNat_lt, hv]
    show v < 0x80
    omega
  split
  · refine chars_lead (v / 64) 1 0x80 0xBF ?_ (lead_two (by omega) (by omega)) ?_
    · rw [hbyte _ (by omega)]
      omega
    · rw [List.cons_append, continued_plain]
      simp only [continued, List.length_cons, List.length_nil]
      rw [show v / 64 * 64 + v % 64 = v by omega, hof]
  split
  · have hlast : ∀ {low high : UInt8}, low.toNat ≤ v / 64 % 64 + 0x80 →
        v / 64 % 64 + 0x80 ≤ high.toNat → continued 2 low high (v / 4096)
          (UInt8.ofNat (v / 64 % 64 + 0x80) :: UInt8.ofNat (v % 64 + 0x80) :: rest) = (some c, 2) := by
      intro low high hlow hhigh
      rw [continued_succ hlow hhigh, continued_plain]
      simp only [continued]
      rw [show (v / 4096 * 64 + v / 64 % 64) * 64 + v % 64 = v by omega, hof]
    have hlead : 0x80 ≤ (UInt8.ofNat (v / 4096 % 16 + 0xe0)).toNat := by
      rw [hbyte _ (by omega)]
      omega
    -- The first continuation byte rules out overlong forms and surrogates.
    by_cases hzero : v / 4096 = 0
    · refine chars_lead (v / 4096) 2 0xA0 0xBF hlead (by rw [hzero]; decide) (hlast ?_ ?_)
      · show 0xA0 ≤ _
        omega
      · show _ ≤ 0xBF
        omega
    by_cases hthirteen : v / 4096 = 13
    · refine chars_lead (v / 4096) 2 0x80 0x9F hlead (by rw [hthirteen]; decide) (hlast ?_ ?_)
      · exact Nat.le_add_left _ _
      · show _ ≤ 0x9F
        omega
    · refine chars_lead _ _ _ _ hlead (lead_three (by omega) (by omega) hthirteen) (hlast ?_ ?_)
      · exact Nat.le_add_left _ _
      · show _ ≤ 0xBF
        omega
  · have hlast : ∀ {low high : UInt8}, low.toNat ≤ v / 4096 % 64 + 0x80 →
        v / 4096 % 64 + 0x80 ≤ high.toNat → continued 3 low high (v / 262144)
          (UInt8.ofNat (v / 4096 % 64 + 0x80) :: UInt8.ofNat (v / 64 % 64 + 0x80) ::
            UInt8.ofNat (v % 64 + 0x80) :: rest) = (some c, 3) := by
      intro low high hlow hhigh
      rw [continued_succ hlow hhigh, continued_plain, continued_plain]
      simp only [continued]
      rw [show ((v / 262144 * 64 + v / 4096 % 64) * 64 + v / 64 % 64) * 64 + v % 64 = v by omega, hof]
    have hlead : 0x80 ≤ (UInt8.ofNat (v / 262144 % 8 + 0xf0)).toNat := by
      rw [hbyte _ (by omega)]
      omega
    -- And here overlong forms and what is past the last character.
    by_cases hzero : v / 262144 = 0
    · refine chars_lead (v / 262144) 3 0x90 0xBF hlead (by rw [hzero]; decide) (hlast ?_ ?_)
      · show 0x90 ≤ _
        omega
      · show _ ≤ 0xBF
        omega
    by_cases hfour : v / 262144 = 4
    · refine chars_lead (v / 262144) 3 0x80 0x8F hlead (by rw [hfour]; decide) (hlast ?_ ?_)
      · exact Nat.le_add_left _ _
      · show _ ≤ 0x8F
        omega
    · refine chars_lead _ _ _ _ hlead (lead_four (by omega) (by omega)) (hlast ?_ ?_)
      · exact Nat.le_add_left _ _
      · show _ ≤ 0xBF
        omega

theorem chars_flatMap (cs : List Char) (h : cs.length ≤ fuel) :
    chars fuel (cs.flatMap String.utf8EncodeChar) = cs := by
  induction cs generalizing fuel with
  | nil => cases fuel <;> rfl
  | cons c cs ih =>
      cases fuel with
      | zero => cases h
      | succ fuel =>
          rw [List.flatMap_cons, chars_utf8EncodeChar, ih (Nat.le_of_succ_le_succ h)]

/-- There is a byte for every character. -/
theorem length_le_flatMap (cs : List Char) : cs.length ≤ (cs.flatMap String.utf8EncodeChar).length := by
  induction cs with
  | nil => exact Nat.le_refl 0
  | cons c cs ih =>
      have hpos := List.length_pos_iff.mpr (@String.utf8EncodeChar_ne_nil c)
      rw [List.flatMap_cons, List.length_append, List.length_cons]
      omega

theorem toList_loop_eq (bytes : ByteArray) (i : Nat) (r : List UInt8) :
    ByteArray.toList.loop bytes i r = r.reverse ++ bytes.data.toList.drop i := by
  have hlen : bytes.data.toList.length = bytes.size := Array.length_toList
  induction hn : bytes.size - i generalizing i r with
  | zero =>
      rw [ByteArray.toList.loop, if_neg (by omega), List.drop_eq_nil_of_le (by omega), List.append_nil]
  | succ k ih =>
      have hi : i < bytes.data.toList.length := by omega
      rw [ByteArray.toList.loop, if_pos (by omega), ih (i + 1) _ (by omega), List.reverse_cons,
        List.append_assoc, List.singleton_append, List.drop_eq_getElem_cons hi]
      congr 2
      show bytes.data[i]! = _
      rw [getElem!_pos bytes.data i hi, Array.getElem_toList]

/-- Text survives being written and read again. -/
theorem lossy_toUTF8 (s : String) : lossy s.toUTF8.toList = s := by
  have hbytes : s.toUTF8.toList = s.toList.flatMap String.utf8EncodeChar := by
    rw [String.toUTF8_eq_toByteArray, ← String.utf8Encode_toList, List.utf8Encode]
    exact (toList_loop_eq _ 0 []).trans List.toList_data_toByteArray
  rw [lossy, hbytes, chars_flatMap _ (length_le_flatMap _), String.ofList_toList]

end Encode

end Utf8
