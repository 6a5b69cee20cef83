import Mathlib.Algebra.Order.Floor.Div
import Mathlib.Data.List.Basic
import Mathlib.Data.List.Perm.Basic

/-!
# Growable arrays

Removal by swapping with the last element, as growable arrays offer it when
the order of the elements does not matter, and overwriting a stretch in place.
-/

namespace Vec

universe u v
variable {α : Type u}

/-- Remove the element at `i` and put the last one in its place. -/
def swapRemove (xs : List α) (i : Nat) : List α :=
  match xs.getLast? with
  | none => []
  | some last => (xs.set i last).dropLast

theorem swapRemove_concat (front : List α) (last : α) (i : Nat) :
    swapRemove (front ++ [last]) i = ((front ++ [last]).set i last).dropLast := by
  simp [swapRemove]

/-- Up to order, `swapRemove` takes out exactly the element at `i`. -/
theorem swapRemove_perm {xs : List α} {i : Nat} (hi : i < xs.length) :
    (swapRemove xs i).Perm (xs.eraseIdx i) := by
  rcases List.eq_nil_or_concat xs with rfl | ⟨front, last, rfl⟩
  · simp at hi
  · rw [List.concat_eq_append] at hi ⊢
    rw [swapRemove_concat]
    rw [List.length_append, List.length_singleton] at hi
    by_cases hlast : i = front.length
    · subst hlast
      simp [List.eraseIdx_append_of_length_le]
    · have hfront : i < front.length := by omega
      rw [List.set_append_left _ _ hfront, List.dropLast_concat,
        List.eraseIdx_append_of_lt_length hfront]
      exact (List.set_perm_cons_eraseIdx hfront last).trans
        (List.perm_append_singleton last _).symm

theorem mem_of_mem_swapRemove {xs : List α} {i : Nat} {x : α} (hi : i < xs.length)
    (hx : x ∈ swapRemove xs i) : x ∈ xs :=
  List.mem_of_mem_eraseIdx ((swapRemove_perm hi).mem_iff.mp hx)

/-- Every element but the one removed stays. -/
theorem mem_swapRemove_of_ne {xs : List α} {i : Nat} {x : α} (hi : i < xs.length)
    (hx : x ∈ xs) (hne : xs[i] ≠ x) : x ∈ swapRemove xs i := by
  rw [(swapRemove_perm hi).mem_iff, List.mem_eraseIdx_iff_getElem]
  obtain ⟨j, hj, rfl⟩ := List.getElem_of_mem hx
  refine ⟨j, hj, ?_, rfl⟩
  rintro rfl
  exact hne rfl

theorem length_swapRemove {xs : List α} {i : Nat} (hi : i < xs.length) :
    (swapRemove xs i).length = xs.length - 1 := by
  rw [(swapRemove_perm hi).length_eq, List.length_eraseIdx_of_lt hi]

/-- Overwrite the elements from `at_` on with `ys`. -/
def write (xs : List α) (at_ : Nat) (ys : List α) : List α :=
  xs.take at_ ++ ys ++ xs.drop (at_ + ys.length)

/-- The `len` elements from `at_` on. -/
def slice (xs : List α) (at_ len : Nat) : List α := (xs.drop at_).take len

/-- Cut to `n` elements, or filled up to them with `x`. -/
def resize (xs : List α) (n : Nat) (x : α) : List α := xs.take n ++ List.replicate (n - xs.length) x

/-- The runs of `n` elements, the last of which may be shorter. -/
def chunks (n : Nat) (xs : List α) : List (List α) :=
  (List.range (xs.length ⌈/⌉ n)).map fun k => slice xs (k * n) n

variable {xs ys : List α} {x : α} {at_ len i n : Nat}

theorem chunks_nil (hn : 0 < n) : chunks n ([] : List α) = [] := by
  have : (0 : Nat) ⌈/⌉ n = 0 := by
    have := (ceilDiv_le_iff_le_mul (a := n) (b := 0) (c := 0) hn).mpr (Nat.zero_le _)
    omega
  simp [chunks, this]

theorem length_le_of_mem_chunks : ∀ chunk ∈ chunks n xs, chunk.length ≤ n := by
  intro chunk hchunk
  obtain ⟨k, -, rfl⟩ := List.mem_map.mp hchunk
  exact List.length_take_le ..

theorem chunks_cons (hn : 0 < n) (hne : xs ≠ []) :
    chunks n xs = xs.take n :: chunks n (xs.drop n) := by
  have hlen := List.length_pos_of_ne_nil hne
  have hceil : xs.length ⌈/⌉ n = (xs.length - n) ⌈/⌉ n + 1 := by
    apply eq_of_forall_ge_iff
    intro c
    rw [ceilDiv_le_iff_le_mul hn]
    cases c with
    | zero => omega
    | succ c =>
        rw [Nat.succ_le_succ_iff, ceilDiv_le_iff_le_mul hn, Nat.mul_succ]
        omega
  rw [chunks, hceil, List.range_succ_eq_map, List.map_cons, List.map_map, chunks, List.length_drop]
  congr 1
  · simp [slice]
  · apply List.map_congr_left
    intro k _
    simp only [slice, Function.comp, List.drop_drop, Nat.succ_mul]
    rw [Nat.add_comm]

@[simp] theorem length_resize : (resize xs n x).length = n := by
  simp only [resize, List.length_append, List.length_take, List.length_replicate]
  omega

theorem length_write (h : at_ + ys.length ≤ xs.length) : (write xs at_ ys).length = xs.length := by
  simp only [write, List.length_append, List.length_take, List.length_drop]
  omega

/-- What was written at the front is what is left when the rest is cut off. -/
theorem take_write : (write xs 0 ys).take ys.length = ys := by
  simp [write]

/-- What was written, and all that is before it. -/
theorem take_write_end (h : at_ ≤ xs.length) :
    (write xs at_ ys).take (at_ + ys.length) = xs.take at_ ++ ys := by
  have hlen : (xs.take at_ ++ ys).length = at_ + ys.length := by
    rw [List.length_append, List.length_take, Nat.min_eq_left h]
  rw [write, ← hlen]
  exact List.take_left

theorem length_slice (h : at_ + len ≤ xs.length) : (slice xs at_ len).length = len := by
  simp only [slice, List.length_take, List.length_drop]
  omega

theorem getElem?_write (h : at_ + ys.length ≤ xs.length) :
    (write xs at_ ys)[i]? = if at_ ≤ i ∧ i < at_ + ys.length then ys[i - at_]? else xs[i]? := by
  have hlen : (xs.take at_).length = at_ := by
    rw [List.length_take]
    omega
  unfold write
  by_cases hlow : i < at_
  · rw [if_neg (by omega), List.append_assoc, List.getElem?_append_left (by omega),
      List.getElem?_take_of_lt hlow]
  · by_cases hhigh : i < at_ + ys.length
    · rw [if_pos ⟨by omega, hhigh⟩, List.getElem?_append_left
        (by rw [List.length_append, hlen]; omega), List.getElem?_append_right (by omega), hlen]
    · rw [if_neg (by omega), List.getElem?_append_right
        (by rw [List.length_append, hlen]; omega), List.length_append, hlen, List.getElem?_drop]
      congr 1
      omega

theorem getElem?_slice : (slice xs at_ len)[i]? = if i < len then xs[at_ + i]? else none := by
  unfold slice
  by_cases hi : i < len
  · rw [if_pos hi, List.getElem?_take_of_lt hi, List.getElem?_drop]
  · rw [if_neg hi, List.getElem?_take_eq_none (by omega)]

theorem slice_eq_map (h : at_ + len ≤ xs.length) :
    slice xs at_ len = (List.range' at_ len).map fun j => xs.getD j x := by
  apply List.ext_getElem?
  intro i
  rw [getElem?_slice, List.getElem?_map]
  by_cases hi : i < len
  · rw [if_pos hi, List.getElem?_range' hi, Nat.one_mul, Option.map_some,
      List.getD_eq_getElem?_getD, List.getElem?_eq_getElem (by omega)]
    rfl
  · rw [if_neg hi, List.getElem?_eq_none (by rw [List.length_range']; omega)]
    rfl

theorem write_whole (h : ys.length = xs.length) : write xs 0 ys = ys := by
  rw [write, List.take_zero, List.nil_append, List.drop_eq_nil_of_le (by omega), List.append_nil]

/-- What is read back where it was changes nothing. -/
theorem write_slice (h : at_ + len ≤ xs.length) : write xs at_ (slice xs at_ len) = xs := by
  rw [write, length_slice h, slice, List.append_assoc, ← List.drop_drop, List.take_append_drop,
    List.take_append_drop]

/-- Adjacent slices make one. -/
theorem slice_append_slice {m : Nat} :
    slice xs at_ n ++ slice xs (at_ + n) m = slice xs at_ (n + m) := by
  rw [slice, slice, slice, List.take_add, List.drop_drop]

/-- A slice of a slice. -/
theorem slice_slice {k m : Nat} (h : k + m ≤ n) :
    slice (slice xs at_ n) k m = slice xs (at_ + k) m := by
  apply List.ext_getElem?
  intro i
  simp only [getElem?_slice]
  by_cases hi : i < m
  · rw [if_pos hi, if_pos hi, if_pos (by omega), Nat.add_assoc]
  · rw [if_neg hi, if_neg hi]

theorem slice_of_length_le (h : xs.length ≤ len) : slice xs 0 len = xs :=
  List.take_of_length_le (by simpa using h)

theorem slice_append_left {len : Nat} (h : at_ + len ≤ xs.length) :
    slice (xs ++ ys) at_ len = slice xs at_ len := by
  rw [slice, slice, List.drop_append_of_le_length (by omega),
    List.take_append_of_le_length (by rw [List.length_drop]; omega)]

theorem slice_append_right : slice (xs ++ ys) (xs.length + at_) len = slice ys at_ len := by
  rw [slice, slice, ← List.drop_drop, List.drop_left]

section Pieces

variable {β : Type v} {f : β → List α} {l : List β} {a k : Nat}

/-- Dropping whole pieces of one length. -/
theorem drop_flatMap (hlen : ∀ b ∈ l, (f b).length = n) :
    (l.flatMap f).drop (a * n) = (l.drop a).flatMap f := by
  induction a generalizing l with
  | zero => simp
  | succ a ih =>
      cases l with
      | nil => simp
      | cons b l =>
          rw [List.forall_mem_cons] at hlen
          have hskip : (a + 1) * n = (f b).length + a * n := by
            rw [hlen.1, Nat.succ_mul, Nat.add_comm]
          rw [List.flatMap_cons, hskip, ← List.drop_drop, List.drop_left, ih hlen.2,
            List.drop_succ_cons]

/-- Taking whole pieces of one length. -/
theorem take_flatMap (hlen : ∀ b ∈ l, (f b).length = n) :
    (l.flatMap f).take (k * n) = (l.take k).flatMap f := by
  induction k generalizing l with
  | zero => simp
  | succ k ih =>
      cases l with
      | nil => simp
      | cons b l =>
          rw [List.forall_mem_cons] at hlen
          have hmore : (k + 1) * n = (f b).length + k * n := by
            rw [hlen.1, Nat.succ_mul, Nat.add_comm]
          rw [List.flatMap_cons, hmore, List.take_length_add_append, ih hlen.2, List.take_succ_cons,
            List.flatMap_cons]

/-- Whole pieces of a list put together from pieces of one length. -/
theorem slice_flatMap (hlen : ∀ b ∈ l, (f b).length = n) :
    slice (l.flatMap f) (a * n) (k * n) = (slice l a k).flatMap f := by
  rw [slice, drop_flatMap hlen, take_flatMap fun b hb => hlen b (List.mem_of_mem_drop hb)]
  rfl

/-- One of the pieces. -/
theorem slice_flatMap_one {i : Nat} (hlen : ∀ b ∈ l, (f b).length = n) (hi : i < l.length) :
    slice (l.flatMap f) (i * n) n = f l[i] := by
  have hone := slice_flatMap (a := i) (k := 1) hlen
  rw [Nat.one_mul] at hone
  rw [hone, slice, List.drop_eq_getElem_cons hi, List.take_succ_cons, List.take_zero,
    List.flatMap_singleton]

theorem length_flatMap_const (hlen : ∀ b ∈ l, (f b).length = n) :
    (l.flatMap f).length = l.length * n := by
  induction l with
  | nil => exact (Nat.zero_mul n).symm
  | cons b l ih =>
      rw [List.forall_mem_cons] at hlen
      rw [List.flatMap_cons, List.length_append, ih hlen.2, hlen.1, List.length_cons, Nat.succ_mul,
        Nat.add_comm]

/-- One element of one of the pieces. -/
theorem getElem?_flatMap {i j : Nat} (hlen : ∀ b ∈ l, (f b).length = n) (hi : i < l.length)
    (hj : j < n) : (l.flatMap f)[i * n + j]? = (f l[i])[j]? := by
  rw [← slice_flatMap_one hlen hi, getElem?_slice, if_pos hj]

end Pieces

/-- Elements set to one value or another, where those set at `i` are all `x`. -/
theorem getElem?_foldl_set {writes : List (Nat × α)} (hsame : ∀ w ∈ writes, w.1 = i → w.2 = x)
    (h : xs[i]? = some x ∨ i < xs.length ∧ ∃ w ∈ writes, w.1 = i) :
    (writes.foldl (fun xs w => xs.set w.1 w.2) xs)[i]? = some x := by
  induction writes generalizing xs with
  | nil => simpa using h
  | cons w writes ih =>
      rw [List.forall_mem_cons] at hsame
      rw [List.foldl_cons]
      apply ih hsame.2
      by_cases hw : w.1 = i
      · have hlt : i < xs.length := by
          rcases h with h | h
          · exact (List.getElem?_eq_some_iff.mp h).1
          · exact h.1
        rw [hw, hsame.1 hw, List.getElem?_set_self hlt]
        exact Or.inl rfl
      · rw [List.getElem?_set_ne hw, List.length_set]
        refine h.imp_right ?_
        intro h
        obtain ⟨hlt, w', hmem, hw'⟩ := h
        rcases List.mem_cons.mp hmem with rfl | hmem
        · exact absurd hw' hw
        · exact ⟨hlt, w', hmem, hw'⟩

theorem length_foldl_set {writes : List (Nat × α)} :
    (writes.foldl (fun xs w => xs.set w.1 w.2) xs).length = xs.length := by
  induction writes generalizing xs with
  | nil => rfl
  | cons w writes ih => rw [List.foldl_cons, ih, List.length_set]

/-- Of what there is at most one of, any two are the same. -/
theorem eq_of_countP_le_one {p : α → Bool} {y : α} (h : xs.countP p ≤ 1) (hx : x ∈ xs) (hy : y ∈ xs)
    (hpx : p x = true) (hpy : p y = true) : x = y := by
  have hone : (xs.filter p).length ≤ 1 := by rwa [← List.countP_eq_length_filter]
  have hx' : x ∈ xs.filter p := List.mem_filter.mpr ⟨hx, hpx⟩
  have hy' : y ∈ xs.filter p := List.mem_filter.mpr ⟨hy, hpy⟩
  cases hfilter : xs.filter p with
  | nil =>
      rw [hfilter] at hx'
      cases hx'
  | cons z more =>
      rw [hfilter, List.length_cons] at hone
      obtain rfl : more = [] := List.length_eq_zero_iff.mp (by omega)
      rw [hfilter, List.mem_singleton] at hx' hy'
      rw [hx', hy']

/-! ## Arrays of one length -/

variable {m : Nat} {ys : Vector α m} {j : Fin m}

@[simp] theorem get_map {f : α → β} : (ys.map f).get j = f (ys.get j) := by
  change (ys.map f)[(j : Nat)] = f ys[(j : Nat)]
  rw [Vector.getElem_map]

theorem get_set {k : Nat} (hk : k < m) : (ys.set k x hk).get j = if k = j then x else ys.get j := by
  change (ys.set k x hk)[(j : Nat)] = if k = j then x else ys[(j : Nat)]
  rw [Vector.getElem_set]

end Vec
