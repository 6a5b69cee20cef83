import Mathlib.Algebra.BigOperators.Group.List.Basic
import Mathlib.Data.List.Forall2
import Mathlib.Tactic.Ring

/-!
# Positions in C order

A position in a box has one coordinate per dimension.  The positions are numbered
with the last coordinate varying fastest.
-/

namespace Radix

/-- The number of a position. -/
def flat : List Nat → List Nat → Nat
  | c :: coords, _ :: dims => c * dims.prod + flat coords dims
  | _, _ => 0

/-- The position of a number, which counts up to the size of the box. -/
def coords : List Nat → Nat → List Nat
  | [], _ => []
  | d :: dims, n => n / dims.prod % d :: coords dims n

/-- The coordinates lie inside the box. -/
abbrev Within (coords dims : List Nat) : Prop := List.Forall₂ (· < ·) coords dims

variable {dims more pos cs : List Nat} {n m acc : Nat}

@[simp] theorem flat_nil : flat [] dims = 0 := by
  cases dims <;> rfl

@[simp] theorem coords_nil : coords [] n = [] := rfl

@[simp] theorem length_coords : (coords dims n).length = dims.length := by
  induction dims with
  | nil => rfl
  | cons d dims ih => simp [coords, ih]

theorem prod_pos (hdims : ∀ d ∈ dims, 0 < d) : 0 < dims.prod := by
  induction dims with
  | nil => simp
  | cons d dims ih =>
      rw [List.forall_mem_cons] at hdims
      rw [List.prod_cons]
      exact Nat.mul_pos hdims.1 (ih hdims.2)

theorem coords_within (hdims : ∀ d ∈ dims, 0 < d) : Within (coords dims n) dims := by
  induction dims with
  | nil => exact .nil
  | cons d dims ih =>
      rw [List.forall_mem_cons] at hdims
      exact .cons (Nat.mod_lt _ hdims.1) (ih hdims.2)

theorem Within.dims_pos (h : Within pos dims) : ∀ d ∈ dims, 0 < d := by
  induction h with
  | nil => simp
  | cons hlt _ ih => exact List.forall_mem_cons.mpr ⟨by omega, ih⟩

theorem flat_lt (h : Within pos dims) : flat pos dims < dims.prod := by
  induction h with
  | nil => simp
  | @cons c d pos dims hlt _ ih =>
      have := Nat.mul_le_mul_right dims.prod hlt
      rw [flat, List.prod_cons]
      rw [Nat.succ_mul] at this
      omega

/-- Whole boxes before it do not change a position. -/
theorem coords_add_mul : coords dims (m * dims.prod + n) = coords dims n := by
  induction dims generalizing m with
  | nil => rfl
  | cons d dims ih =>
      rw [List.prod_cons, ← Nat.mul_assoc]
      unfold coords
      rw [ih]
      congr 1
      rcases Nat.eq_zero_or_pos dims.prod with hzero | hpos
      · simp [hzero]
      · rw [Nat.add_comm, Nat.add_mul_div_right _ _ hpos, Nat.add_mul_mod_self_right]

theorem flat_coords : flat (coords dims n) dims = n % dims.prod := by
  induction dims with
  | nil => simp [Nat.mod_one]
  | cons d dims ih =>
      rw [coords, flat, ih, List.prod_cons, Nat.mul_comm d, Nat.mod_mul, Nat.mul_comm dims.prod]
      omega

theorem coords_flat (h : Within pos dims) : coords dims (flat pos dims) = pos := by
  induction h with
  | nil => rfl
  | @cons c d pos dims hlt hwithin ih =>
      have hflat := flat_lt hwithin
      rw [flat, coords, coords_add_mul, ih, Nat.add_comm, Nat.add_mul_div_right _ _ (by omega),
        Nat.div_eq_of_lt hflat, Nat.zero_add, Nat.mod_eq_of_lt hlt]

/-! ## Leading and trailing dimensions -/

theorem coords_append :
    coords (dims ++ more) n = coords dims (n / more.prod) ++ coords more n := by
  induction dims with
  | nil => rfl
  | cons d dims ih =>
      rw [List.cons_append, coords, coords, ih, List.prod_append, Nat.mul_comm,
        Nat.div_div_eq_div_mul, List.cons_append]

theorem flat_append (h : pos.length = dims.length) :
    flat (pos ++ cs) (dims ++ more) = flat pos dims * more.prod + flat cs more := by
  induction pos generalizing dims with
  | nil =>
      obtain rfl : dims = [] := List.length_eq_zero_iff.mp h.symm
      simp
  | cons c pos ih =>
      cases dims with
      | nil => cases h
      | cons d dims =>
          rw [List.cons_append, List.cons_append, flat, flat, ih (Nat.succ.inj h), List.prod_append]
          ring

/-- Counting a position one coordinate at a time. -/
theorem foldl_flat (h : pos.length = dims.length) :
    (pos.zip dims).foldl (fun n (c, d) => n * d + c) acc = acc * dims.prod + flat pos dims := by
  induction pos generalizing dims acc with
  | nil =>
      obtain rfl : dims = [] := List.length_eq_zero_iff.mp h.symm
      simp
  | cons c pos ih =>
      cases dims with
      | nil => cases h
      | cons d dims =>
          rw [List.zip_cons_cons, List.foldl_cons, ih (Nat.succ.inj h), List.prod_cons, flat]
          ring

/-! ## Dimensions of length 1 -/

/-- The position in a box whose position without the dimensions of length 1 is `pos`. -/
def spread : List Nat → List Nat → List Nat
  | [], _ => []
  | d :: dims, pos => if 1 < d then pos.headD 0 :: spread dims pos.tail else 0 :: spread dims pos

theorem spread_within (hdims : ∀ d ∈ dims, 0 < d) (h : Within pos (dims.filter (1 < ·))) :
    Within (spread dims pos) dims := by
  induction dims generalizing pos with
  | nil => exact .nil
  | cons d dims ih =>
      rw [List.forall_mem_cons] at hdims
      by_cases hd : 1 < d
      · rw [List.filter_cons_of_pos (by simpa using hd)] at h
        cases h with
        | cons hlt hrest =>
            rw [spread, if_pos hd]
            exact .cons hlt (ih hdims.2 hrest)
      · rw [List.filter_cons_of_neg (by simpa using hd)] at h
        rw [spread, if_neg hd]
        exact .cons hdims.1 (ih hdims.2 h)

theorem prod_filter_one_lt (hdims : ∀ d ∈ dims, 0 < d) : (dims.filter (1 < ·)).prod = dims.prod := by
  induction dims with
  | nil => rfl
  | cons d dims ih =>
      rw [List.forall_mem_cons] at hdims
      by_cases hd : 1 < d
      · rw [List.filter_cons_of_pos (by simpa using hd), List.prod_cons, List.prod_cons, ih hdims.2]
      · obtain rfl : d = 1 := by omega
        rw [List.filter_cons_of_neg (by simp), List.prod_cons, Nat.one_mul, ih hdims.2]

/-- Dropping the dimensions of length 1 leaves the numbers of the positions alone. -/
theorem flat_spread (hdims : ∀ d ∈ dims, 0 < d) (h : Within pos (dims.filter (1 < ·))) :
    flat (spread dims pos) dims = flat pos (dims.filter (1 < ·)) := by
  induction dims generalizing pos with
  | nil =>
      cases h
      rfl
  | cons d dims ih =>
      rw [List.forall_mem_cons] at hdims
      by_cases hd : 1 < d
      · rw [List.filter_cons_of_pos (by simpa using hd)] at h ⊢
        cases h with
        | cons hlt hrest =>
            rw [spread, if_pos hd, flat, flat, prod_filter_one_lt hdims.2]
            exact congrArg _ (ih hdims.2 hrest)
      · rw [List.filter_cons_of_neg (by simpa using hd)] at h ⊢
        rw [spread, if_neg hd, flat, Nat.zero_mul, Nat.zero_add]
        exact ih hdims.2 h

/-- A step along a dimension that is kept is a step along one dimension of the
box, no earlier than it. -/
theorem spread_modify {k : Nat} (hk : k < (dims.filter (1 < ·)).length) (f : Nat → Nat) :
    ∃ i, k ≤ i ∧ i < dims.length ∧ ∀ pos, pos.length = (dims.filter (1 < ·)).length →
      spread dims (pos.modify k f) = (spread dims pos).modify i f := by
  induction dims generalizing k with
  | nil => cases hk
  | cons d dims ih =>
      by_cases hd : 1 < d
      · rw [List.filter_cons_of_pos (by simpa using hd), List.length_cons] at hk ⊢
        cases k with
        | zero =>
            refine ⟨0, le_rfl, by simp, ?_⟩
            intro pos hpos
            cases pos with
            | nil => cases hpos
            | cons c pos => simp [spread, hd]
        | succ k =>
            obtain ⟨i, hle, hlt, hi⟩ := ih (Nat.lt_of_succ_lt_succ hk)
            refine ⟨i + 1, by omega, by simpa using hlt, ?_⟩
            intro pos hpos
            cases pos with
            | nil => cases hpos
            | cons c pos => simp [spread, hd, hi pos (Nat.succ.inj hpos)]
      · rw [List.filter_cons_of_neg (by simpa using hd)] at hk ⊢
        obtain ⟨i, hle, hlt, hi⟩ := ih hk
        refine ⟨i + 1, by omega, by simpa using hlt, ?_⟩
        intro pos hpos
        simp [spread, hd, hi pos hpos]

/-! ## Counting -/

theorem coords_zero : coords dims 0 = List.replicate dims.length 0 := by
  induction dims with
  | nil => rfl
  | cons d dims ih => simp [coords, ih, List.replicate_succ]

theorem coords_of_dvd (h : dims.prod ∣ n) : coords dims n = List.replicate dims.length 0 := by
  obtain ⟨m, rfl⟩ := h
  rw [← coords_zero, Nat.mul_comm, ← Nat.add_zero (m * dims.prod)]
  exact coords_add_mul

section Succ

variable {d : Nat}

/-- The last dimensions have not started over. -/
theorem coords_succ_of_not_dvd (h : ¬ dims.prod ∣ n + 1) :
    coords (d :: dims) (n + 1) = n / dims.prod % d :: coords dims (n + 1) := by
  rw [coords, Nat.succ_div_of_not_dvd h]

theorem coords_succ_of_lt (h : dims.prod ∣ n + 1) (hlt : n / dims.prod % d + 1 < d) :
    coords (d :: dims) (n + 1) = (n / dims.prod % d + 1) :: coords dims (n + 1) := by
  rw [coords, Nat.succ_div_of_dvd h, ← Nat.mod_add_mod, Nat.mod_eq_of_lt hlt]

theorem coords_succ_of_last (h : dims.prod ∣ n + 1) (hlast : n / dims.prod % d + 1 = d) :
    coords (d :: dims) (n + 1) = 0 :: coords dims (n + 1) := by
  rw [coords, Nat.succ_div_of_dvd h, ← Nat.mod_add_mod, hlast, Nat.mod_self]

/-- A box starts over when its last dimensions do, after the last coordinate of the first. -/
theorem prod_cons_dvd_succ_iff (hd : 0 < d) :
    (d :: dims).prod ∣ n + 1 ↔ dims.prod ∣ n + 1 ∧ n / dims.prod % d + 1 = d := by
  rw [List.prod_cons, Nat.mul_comm]
  have hlt := Nat.mod_lt (n / dims.prod) hd
  have hsucc : d ∣ n / dims.prod + 1 ↔ n / dims.prod % d + 1 = d := by
    rw [Nat.dvd_iff_mod_eq_zero, ← Nat.mod_add_mod]
    constructor
    · intro h
      by_contra hne
      rw [Nat.mod_eq_of_lt (by omega)] at h
      omega
    · intro h
      rw [h, Nat.mod_self]
  constructor
  · intro h
    have hdvd : dims.prod ∣ n + 1 := Nat.dvd_trans (Nat.dvd_mul_right _ _) h
    have hquot := (Nat.dvd_div_iff_mul_dvd hdvd).mpr h
    rw [Nat.succ_div_of_dvd hdvd] at hquot
    exact ⟨hdvd, hsucc.mp hquot⟩
  · rintro ⟨hdvd, h⟩
    apply (Nat.dvd_div_iff_mul_dvd hdvd).mp
    rw [Nat.succ_div_of_dvd hdvd]
    exact hsucc.mpr h

end Succ

/-! ## Some of the dimensions -/

/-- What a mask does not drop. -/
def keep : List Bool → List Nat → List Nat
  | true :: mask, _ :: xs => keep mask xs
  | false :: mask, x :: xs => x :: keep mask xs
  | _, _ => []

section Keep

variable {mask : List Bool}

@[simp] theorem keep_nil : keep mask [] = [] := by
  rcases mask with _ | ⟨_ | _, mask⟩ <;> rfl

theorem keep_within (h : Within pos dims) : Within (keep mask pos) (keep mask dims) := by
  induction h generalizing mask with
  | nil => simp
  | cons hlt _ ih =>
      match mask with
      | [] => exact .nil
      | true :: mask => exact ih
      | false :: mask => exact .cons hlt ih

theorem flat_keep_replicate : flat (keep mask (List.replicate m 0)) dims = 0 := by
  induction m generalizing mask dims with
  | zero => simp
  | succ m ih =>
      rw [List.replicate_succ]
      match mask, dims with
      | [], _ => simp [keep]
      | true :: mask, dims => exact ih
      | false :: mask, [] => rfl
      | false :: mask, d :: dims => rw [keep, flat, Nat.zero_mul, ih]

end Keep

end Radix
