import Mathlib.Data.Nat.ModEq
import Mathlib.Tactic.Linarith
import Aex.Lib.Vec

/-!
# The Fletcher-32 of HDF5

Big-endian 16-bit words are added up, and their running sums too.  The sums are kept
in 32 bits and reduced modulo 65535 every 360 words.
-/

namespace Aex

/-- Add the words of a block to the sums, an odd byte padded. -/
def addWords : UInt32 × UInt32 → List UInt8 → UInt32 × UInt32
  | s, [] => s
  | (a, b), [x] =>
      let a := a + (x.toUInt32 <<< 8 ||| 0)
      (a, b + a)
  | (a, b), x :: y :: rest =>
      let a := a + (x.toUInt32 <<< 8 ||| y.toUInt32)
      addWords (a, b + a) rest

/-- Add the high half of a sum to the low one. -/
def foldSum (s : UInt32) : UInt32 := (s &&& (0xffff : UInt32)) + (s >>> 16)

/-- libhdf5's Fletcher-32. -/
def fletcher32 (data : List UInt8) : UInt32 :=
  -- 360 words keep the sums inside 32 bits between reductions.
  let (a, b) := (Vec.chunks 720 data).foldl (fun s block =>
    let (a, b) := addWords s block
    (foldSum a, foldSum b)) (0, 0)
  let a := foldSum a
  let b := foldSum b
  (b <<< 16) ||| a

/-! ## In unbounded arithmetic -/

/-- The big-endian words, an odd byte padded. -/
def fletcherWords : List UInt8 → List Nat
  | [] => []
  | [x] => [x.toNat * 256]
  | x :: y :: rest => (x.toNat * 256 + y.toNat) :: fletcherWords rest

/-- The sum of the words and the sum of the running sums. -/
def fletcherSums (start : Nat × Nat) (words : List Nat) : Nat × Nat :=
  words.foldl (fun (a, b) word => (a + word, b + (a + word))) start

/-- A sum modulo 65535, which is zero only when the sum is. -/
def reduceSum (s : Nat) : Nat := if s = 0 then 0 else (s - 1) % 65535 + 1

/-- The checksum libhdf5 defines. -/
def fletcherReference (data : List UInt8) : Nat :=
  let (a, b) := fletcherSums (0, 0) (fletcherWords data)
  reduceSum b * 65536 + reduceSum a

section Fletcher

variable {a b s : UInt32} {data : List UInt8} {words : List Nat} {m k x : Nat}

theorem or_toNat_of_lt {lo hi : Nat} (hlo : lo < 2 ^ k) : hi * 2 ^ k ||| lo = hi * 2 ^ k + lo := by
  rw [Nat.mul_comm, Nat.two_pow_add_eq_or_of_lt hlo]

theorem word_toNat (x y : UInt8) :
    (x.toUInt32 <<< 8 ||| y.toUInt32).toNat = x.toNat * 256 + y.toNat := by
  have hx := x.toNat_lt
  have hy := y.toNat_lt
  rw [UInt32.toNat_or, UInt32.toNat_shiftLeft, UInt8.toNat_toUInt32, UInt8.toNat_toUInt32,
    Nat.shiftLeft_eq]
  rw [show (UInt32.toNat 8 % 32) = 8 from rfl, Nat.mod_eq_of_lt (by omega), or_toNat_of_lt hy]
  omega

theorem foldSum_toNat : (foldSum s).toNat = s.toNat % 65536 + s.toNat / 65536 := by
  have hs := s.toNat_lt
  unfold foldSum
  rw [UInt32.toNat_add, UInt32.toNat_and, UInt32.toNat_shiftRight, Nat.shiftRight_eq_div_pow,
    show UInt32.toNat 0xffff = 2 ^ 16 - 1 from rfl, Nat.and_two_pow_sub_one_eq_mod,
    show (UInt32.toNat 16 % 32) = 16 from rfl]
  omega

/-- A sum in 32 bits stands for an unbounded one modulo 65535, and for zero only if it is. -/
def Stands (s : UInt32) (x : Nat) : Prop := s.toNat % 65535 = x % 65535 ∧ (s.toNat = 0 ↔ x = 0)

theorem Stands.foldSum (h : Stands s x) : Stands (foldSum s) x := by
  unfold Stands at h ⊢
  rw [foldSum_toNat]
  omega

theorem Stands.reduce (h : Stands s x) (hs : s.toNat ≤ 131070) :
    (Aex.foldSum s).toNat = reduceSum x := by
  have hfold := h.foldSum
  unfold Stands at hfold
  rw [foldSum_toNat] at hfold ⊢
  unfold reduceSum
  split <;> omega

/-- Room in the sums for `k` more words. -/
def Room (k a b : Nat) : Prop :=
  a + 65535 * k < 2 ^ 32 ∧ 2 * b + 2 * k * a + 65535 * (k * (k + 1)) < 2 ^ 33

theorem Room.step {a b word : Nat} (h : Room (k + 1) a b) (hword : word ≤ 65535) :
    Room k (a + word) (b + (a + word)) := by
  obtain ⟨ha, hb⟩ := h
  have hscale : k * word ≤ k * 65535 := Nat.mul_le_mul_left k hword
  refine ⟨by omega, ?_⟩
  nlinarith

theorem Room.exact {a b word : UInt32} (h : Room (k + 1) a.toNat b.toNat)
    (hword : word.toNat ≤ 65535) : (a + word).toNat = a.toNat + word.toNat ∧
      (b + (a + word)).toNat = b.toNat + (a.toNat + word.toNat) := by
  obtain ⟨ha, hb⟩ := h.step hword
  have hsum : (a + word).toNat = a.toNat + word.toNat := by
    rw [UInt32.toNat_add, Nat.mod_eq_of_lt (by omega)]
  refine ⟨hsum, ?_⟩
  rw [UInt32.toNat_add, hsum, Nat.mod_eq_of_lt]
  have := Nat.zero_le (2 * k * (a.toNat + word.toNat))
  have := Nat.zero_le (65535 * (k * (k + 1)))
  omega

theorem word_le (x y : UInt8) : (x.toUInt32 <<< 8 ||| y.toUInt32).toNat ≤ 65535 := by
  have hx := x.toNat_lt
  have hy := y.toNat_lt
  rw [word_toNat]
  omega

/-- The words of a block are added without overflow. -/
theorem addWords_toNat : ∀ (data : List UInt8) (a b : UInt32) (k : Nat),
    (fletcherWords data).length ≤ k → Room k a.toNat b.toNat →
    ((addWords (a, b) data).1.toNat, (addWords (a, b) data).2.toNat) =
      fletcherSums (a.toNat, b.toNat) (fletcherWords data)
  | [], _, _, _, _, _ => rfl
  | [x], a, b, k, hk, hroom => by
      obtain ⟨k, rfl⟩ : ∃ less, k = less + 1 := ⟨k - 1, by simp [fletcherWords] at hk; omega⟩
      have hword : (x.toUInt32 <<< 8 ||| 0).toNat = x.toNat * 256 := by
        simpa using word_toNat x 0
      have hx := x.toNat_lt
      obtain ⟨ha, hb⟩ := hroom.exact
        (show (x.toUInt32 <<< 8 ||| 0).toNat ≤ 65535 by rw [hword]; omega)
      rw [hword] at ha hb
      exact Prod.ext ha hb
  | x :: y :: rest, a, b, k, hk, hroom => by
      obtain ⟨k, rfl⟩ : ∃ less, k = less + 1 := ⟨k - 1, by simp [fletcherWords] at hk; omega⟩
      obtain ⟨ha, hb⟩ := hroom.exact (word_le x y)
      have hnext := hroom.step (word_le x y)
      rw [← hb, ← ha] at hnext
      have hrest := addWords_toNat rest _ _ k (by simpa [fletcherWords] using hk) hnext
      rw [ha, hb, word_toNat] at hrest
      exact hrest

theorem length_fletcherWords : ∀ data : List UInt8, 2 * (fletcherWords data).length ≤ data.length + 1
  | [] => by simp [fletcherWords]
  | [_] => by simp [fletcherWords]
  | _ :: _ :: rest => by
      have := length_fletcherWords rest
      simp [fletcherWords]
      omega

theorem sums_fst_le : ∀ (data : List UInt8) (a b : Nat),
    (fletcherSums (a, b) (fletcherWords data)).1 ≤ a + 65535 * (fletcherWords data).length
  | [], _, _ => Nat.le_refl _
  | [x], a, b => by
      have hx := x.toNat_lt
      simp only [fletcherWords, fletcherSums, List.foldl_cons, List.foldl_nil, List.length_singleton]
      omega
  | x :: y :: rest, a, b => by
      have hx := x.toNat_lt
      have hy := y.toNat_lt
      have hrest := sums_fst_le rest (a + (x.toNat * 256 + y.toNat))
        (b + (a + (x.toNat * 256 + y.toNat)))
      simp only [fletcherWords, List.length_cons]
      refine le_trans hrest ?_
      omega

/-- Sums that stand for others still do when the same words are added. -/
theorem sums_stand {start start' : Nat × Nat}
    (ha : start.1 % 65535 = start'.1 % 65535 ∧ (start.1 = 0 ↔ start'.1 = 0))
    (hb : start.2 % 65535 = start'.2 % 65535 ∧ (start.2 = 0 ↔ start'.2 = 0)) :
    ((fletcherSums start words).1 % 65535 = (fletcherSums start' words).1 % 65535 ∧
        ((fletcherSums start words).1 = 0 ↔ (fletcherSums start' words).1 = 0)) ∧
      (fletcherSums start words).2 % 65535 = (fletcherSums start' words).2 % 65535 ∧
        ((fletcherSums start words).2 = 0 ↔ (fletcherSums start' words).2 = 0) := by
  induction words generalizing start start' with
  | nil => exact ⟨ha, hb⟩
  | cons word words ih =>
      obtain ⟨a, b⟩ := start
      obtain ⟨a', b'⟩ := start'
      dsimp only at ha hb
      apply ih
      · dsimp only
        omega
      · dsimp only
        omega

/-- The sums after a block and its reductions. -/
structure Reduced (s : UInt32 × UInt32) (sums : Nat × Nat) : Prop where
  fst : Stands s.1 sums.1
  snd : Stands s.2 sums.2
  fst_le : s.1.toNat ≤ 65896
  snd_le : s.2.toNat ≤ 131070

theorem Reduced.block {s : UInt32 × UInt32} {sums : Nat × Nat} (h : Reduced s sums)
    (hdata : data.length ≤ 720) :
    Reduced (foldSum (addWords s data).1, foldSum (addWords s data).2)
      (fletcherSums sums (fletcherWords data)) := by
  obtain ⟨a, b⟩ := s
  have hlen := length_fletcherWords data
  have hfst : a.toNat ≤ 65896 := h.fst_le
  have hsnd : b.toNat ≤ 131070 := h.snd_le
  have hroom : Room 360 a.toNat b.toNat := by
    constructor <;> omega
  have hexact := addWords_toNat data a b 360 (by omega) hroom
  have hle := sums_fst_le data a.toNat b.toNat
  have hstand := @sums_stand (fletcherWords data) (a.toNat, b.toNat) sums h.fst h.snd
  rw [← hexact] at hstand hle
  have hlow := (addWords (a, b) data).2.toNat_lt
  refine ⟨Stands.foldSum hstand.1, Stands.foldSum hstand.2, ?_, ?_⟩
  · rw [foldSum_toNat]
    dsimp only at hle ⊢
    omega
  · rw [foldSum_toNat]
    omega

theorem fletcherSums_append {start : Nat × Nat} {more : List Nat} :
    fletcherSums start (words ++ more) = fletcherSums (fletcherSums start words) more :=
  List.foldl_append

theorem fletcherWords_append : ∀ {data more : List UInt8}, 2 ∣ data.length →
    fletcherWords (data ++ more) = fletcherWords data ++ fletcherWords more
  | [], _, _ => rfl
  | [_], _, h => by simp at h
  | x :: y :: rest, more, h => by
      have hrest : 2 ∣ rest.length := by
        rw [List.length_cons, List.length_cons] at h
        omega
      have hmore : fletcherWords (rest ++ more) = fletcherWords rest ++ fletcherWords more :=
        fletcherWords_append hrest
      simp only [List.cons_append, fletcherWords, hmore]

/-- The blocks of a message, one after the other. -/
theorem blocks_reduced {s : UInt32 × UInt32} {sums : Nat × Nat} (h : Reduced s sums) :
    Reduced ((Vec.chunks 720 data).foldl (fun s block =>
      (foldSum (addWords s block).1, foldSum (addWords s block).2)) s)
      (fletcherSums sums (fletcherWords data)) := by
  induction hlen : data.length using Nat.strong_induction_on generalizing data s sums with
  | _ len ih =>
      by_cases hne : data = []
      · subst hne
        rw [Vec.chunks_nil (by omega)]
        exact h
      · have hpos := List.length_pos_of_ne_nil hne
        rw [Vec.chunks_cons (by omega) hne, List.foldl_cons]
        have hblock := h.block (show (data.take 720).length ≤ 720 by rw [List.length_take]; omega)
        have hrest := ih (data.drop 720).length (by rw [List.length_drop]; omega) hblock rfl
        rw [← fletcherSums_append] at hrest
        by_cases hlong : data.length ≤ 720
        · rw [List.drop_eq_nil_of_le hlong, fletcherWords, List.append_nil,
            List.take_of_length_le hlong] at hrest
          rw [List.drop_eq_nil_of_le hlong, List.take_of_length_le hlong]
          exact hrest
        · rw [← fletcherWords_append (by rw [List.length_take]; omega),
            List.take_append_drop] at hrest
          exact hrest

/-- The checksum is libhdf5's, for data of any length. -/
theorem fletcher32_toNat : (fletcher32 data).toNat = fletcherReference data := by
  have hzero : Reduced (0, 0) (0, 0) := ⟨⟨rfl, by simp⟩, ⟨rfl, by simp⟩, by simp, by simp⟩
  have h := @blocks_reduced data _ _ hzero
  have hfst := h.fst.reduce (le_trans h.fst_le (by decide))
  have hsnd := h.snd.reduce h.snd_le
  have hbounds : ∀ x, reduceSum x ≤ 65535 := by
    intro x
    unfold reduceSum
    split <;> omega
  have hfstLe := hbounds (fletcherSums (0, 0) (fletcherWords data)).1
  have hsndLe := hbounds (fletcherSums (0, 0) (fletcherWords data)).2
  unfold fletcher32 fletcherReference
  dsimp only
  rw [UInt32.toNat_or, UInt32.toNat_shiftLeft, hfst, hsnd, Nat.shiftLeft_eq,
    show (UInt32.toNat 16 % 32) = 16 from rfl, Nat.mod_eq_of_lt (by omega),
    or_toNat_of_lt (by omega)]
  omega

/-! ## The additions, checked -/

/-- An addition of the sums that stops where it would leave 32 bits. -/
def addChecked (x y : UInt32) : Option UInt32 :=
  if x.toNat + y.toNat < 2 ^ 32 then some (x + y) else none

/-- `addWords`, stopping at a sum past 32 bits. -/
def addWordsChecked : UInt32 × UInt32 → List UInt8 → Option (UInt32 × UInt32)
  | s, [] => some s
  | (a, b), [x] => do
      let a ← addChecked a (x.toUInt32 <<< 8 ||| 0)
      let b ← addChecked b a
      some (a, b)
  | (a, b), x :: y :: rest => do
      let a ← addChecked a (x.toUInt32 <<< 8 ||| y.toUInt32)
      let b ← addChecked b a
      addWordsChecked (a, b) rest

def foldSumChecked (s : UInt32) : Option UInt32 := addChecked (s &&& (0xffff : UInt32)) (s >>> 16)

/-- One block and its reductions. -/
def blockChecked (s : UInt32 × UInt32) (block : List UInt8) : Option (UInt32 × UInt32) := do
  let (a, b) ← addWordsChecked s block
  let a ← foldSumChecked a
  let b ← foldSumChecked b
  some (a, b)

/-- `fletcher32`, stopping at a sum past 32 bits. -/
def fletcher32Checked (data : List UInt8) : Option UInt32 := do
  let (a, b) ← (Vec.chunks 720 data).foldlM blockChecked (0, 0)
  let a ← foldSumChecked a
  let b ← foldSumChecked b
  some ((b <<< 16) ||| a)

theorem addChecked_of_lt {x y : UInt32} (h : x.toNat + y.toNat < 2 ^ 32) :
    addChecked x y = some (x + y) := if_pos h

theorem foldSumChecked_eq : foldSumChecked s = some (foldSum s) := by
  have hs := s.toNat_lt
  refine addChecked_of_lt ?_
  rw [UInt32.toNat_and, UInt32.toNat_shiftRight, Nat.shiftRight_eq_div_pow,
    show UInt32.toNat 0xffff = 2 ^ 16 - 1 from rfl, Nat.and_two_pow_sub_one_eq_mod,
    show (UInt32.toNat 16 % 32) = 16 from rfl]
  omega

/-- With room for a word, neither of its additions leaves 32 bits. -/
theorem Room.checked {a b word : UInt32} (h : Room (k + 1) a.toNat b.toNat)
    (hword : word.toNat ≤ 65535) : addChecked a word = some (a + word) ∧
      addChecked b (a + word) = some (b + (a + word)) := by
  obtain ⟨ha, hb⟩ := h.step hword
  have hsum := (h.exact hword).1
  have := Nat.zero_le (2 * k * (a.toNat + word.toNat))
  have := Nat.zero_le (65535 * (k * (k + 1)))
  exact ⟨addChecked_of_lt (by omega), addChecked_of_lt (by omega)⟩

theorem addWordsChecked_eq : ∀ (data : List UInt8) (a b : UInt32) (k : Nat),
    (fletcherWords data).length ≤ k → Room k a.toNat b.toNat →
    addWordsChecked (a, b) data = some (addWords (a, b) data)
  | [], _, _, _, _, _ => rfl
  | [x], a, b, k, hk, hroom => by
      obtain ⟨k, rfl⟩ : ∃ less, k = less + 1 := ⟨k - 1, by simp [fletcherWords] at hk; omega⟩
      have hword : (x.toUInt32 <<< 8 ||| 0).toNat ≤ 65535 := word_le x 0
      obtain ⟨ha, hb⟩ := hroom.checked hword
      simp only [addWordsChecked, addWords, ha, hb, Option.bind_eq_bind, Option.bind_some]
  | x :: y :: rest, a, b, k, hk, hroom => by
      obtain ⟨k, rfl⟩ : ∃ less, k = less + 1 := ⟨k - 1, by simp [fletcherWords] at hk; omega⟩
      obtain ⟨ha, hb⟩ := hroom.checked (word_le x y)
      obtain ⟨haNat, hbNat⟩ := hroom.exact (word_le x y)
      have hnext := hroom.step (word_le x y)
      rw [← hbNat, ← haNat] at hnext
      simp only [addWordsChecked, addWords, ha, hb, Option.bind_eq_bind, Option.bind_some]
      exact addWordsChecked_eq rest _ _ k (by simpa [fletcherWords] using hk) hnext

/-- What the reductions leave has room for a block. -/
theorem Reduced.room {s : UInt32 × UInt32} {sums : Nat × Nat} (h : Reduced s sums) :
    Room 360 s.1.toNat s.2.toNat := by
  have hfst := h.fst_le
  have hsnd := h.snd_le
  constructor <;> omega

theorem Reduced.blockChecked {s : UInt32 × UInt32} {sums : Nat × Nat} (h : Reduced s sums)
    (hdata : data.length ≤ 720) :
    blockChecked s data = some (foldSum (addWords s data).1, foldSum (addWords s data).2) := by
  have hlen := length_fletcherWords data
  unfold Aex.blockChecked
  rw [addWordsChecked_eq data s.1 s.2 360 (by omega) h.room]
  simp only [foldSumChecked_eq, Option.bind_eq_bind, Option.bind_some]

/-- Block after block, what is carried in leaves room for the next. -/
theorem blocksChecked_eq {s : UInt32 × UInt32} {words : List Nat}
    {blocks : List (List UInt8)} (hblocks : ∀ block ∈ blocks, block.length ≤ 720)
    (h : Reduced s (fletcherSums (0, 0) words)) :
    blocks.foldlM blockChecked s = some (blocks.foldl (fun s block =>
      (foldSum (addWords s block).1, foldSum (addWords s block).2)) s) := by
  induction blocks generalizing s words with
  | nil => rfl
  | cons block blocks ih =>
      rw [List.forall_mem_cons] at hblocks
      have hnext := h.block hblocks.1
      rw [← fletcherSums_append] at hnext
      rw [List.foldlM_cons, h.blockChecked hblocks.1, List.foldl_cons]
      exact ih hblocks.2 hnext

/-! ## Against the sums of the words -/

/-- The sum of the words' running sums. -/
def runningSum (words : List Nat) : Nat :=
  ((List.range words.length).map fun i => (words.take (i + 1)).sum).sum

theorem fletcherSums_eq : fletcherSums (0, 0) words = (words.sum, runningSum words) := by
  induction words using List.reverseRecOn with
  | nil => rfl
  | append_singleton words word ih =>
      have hbefore : (List.range words.length).map (fun i => ((words ++ [word]).take (i + 1)).sum) =
          (List.range words.length).map fun i => (words.take (i + 1)).sum := by
        apply List.map_congr_left
        intro i hi
        rw [List.take_append_of_le_length (List.mem_range.mp hi)]
      have hall : (words ++ [word]).take (words.length + 1) = words ++ [word] :=
        List.take_of_length_le (by simp)
      rw [fletcherSums_append, ih]
      simp only [fletcherSums, List.foldl_cons, List.foldl_nil, runningSum, List.length_append,
        List.length_singleton, List.range_succ, List.map_append, hbefore, List.sum_append]
      simp [hall]

/-- No addition of the checksum leaves 32 bits, and each half is the sum of the words,
or of their running sums, modulo 65535. -/
theorem fletcher32_exact (data : List UInt8) :
    fletcher32Checked data = some (fletcher32 data) ∧
      (fletcher32 data).toNat % 65536 = reduceSum (fletcherWords data).sum ∧
      (fletcher32 data).toNat / 65536 = reduceSum (runningSum (fletcherWords data)) := by
  have hzero : Reduced (0, 0) (fletcherSums (0, 0) []) :=
    ⟨⟨rfl, by simp [fletcherSums]⟩, ⟨rfl, by simp [fletcherSums]⟩, by simp, by simp⟩
  have hbounds : ∀ x, reduceSum x ≤ 65535 := by
    intro x
    unfold reduceSum
    split <;> omega
  have hwords := hbounds (fletcherWords data).sum
  have hrunning := hbounds (runningSum (fletcherWords data))
  refine ⟨?_, ?_⟩
  · unfold fletcher32Checked fletcher32
    rw [blocksChecked_eq Vec.length_le_of_mem_chunks hzero]
    simp only [foldSumChecked_eq, Option.bind_eq_bind, Option.bind_some]
  · rw [fletcher32_toNat, fletcherReference, fletcherSums_eq]
    dsimp only
    constructor <;> omega

end Fletcher

end Aex
