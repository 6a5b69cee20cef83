import Mathlib.Algebra.BigOperators.Group.List.Basic
import Mathlib.Algebra.GroupWithZero.Nat
import Mathlib.Data.List.Perm.Basic

/-!
# Threads of a program

A list of thread states, of which one moves at a time: what the move does to the
properties of all threads, to those of some, and to sums over them.
-/

namespace Threads

universe u
variable {α : Type u} {threads : List α} {i : Nat} {a b x : α}

theorem mem_of_getElem? (h : threads[i]? = some a) : a ∈ threads := List.mem_of_getElem? h

/-- The thread that moves, and the others. -/
theorem perm_of_getElem? (h : threads[i]? = some a) :
    threads.Perm (a :: threads.eraseIdx i) := by
  obtain ⟨hi, rfl⟩ := List.getElem?_eq_some_iff.mp h
  exact (List.getElem_cons_eraseIdx_perm hi).symm

/-- The thread that moved, and the others. -/
theorem set_perm (h : threads[i]? = some a) (b : α) :
    (threads.set i b).Perm (b :: threads.eraseIdx i) :=
  List.set_perm_cons_eraseIdx (List.getElem?_eq_some_iff.mp h).1 b

theorem modify_eq_set (h : threads[i]? = some a) (f : α → α) : threads.modify i f = threads.set i (f a) := by
  apply List.ext_getElem?
  intro j
  rw [List.getElem?_modify, List.getElem?_set]
  by_cases hij : i = j
  · subst hij
    rw [h, if_pos rfl, if_pos (List.getElem?_eq_some_iff.mp h).1]
    simp
  · simp [hij]

theorem forall_mem_set {P : α → Prop} (hall : ∀ x ∈ threads, P x) (hb : P b) :
    ∀ x ∈ threads.set i b, P x := by
  intro x hx
  rcases List.mem_or_eq_of_mem_set hx with hx | rfl
  · exact hall x hx
  · exact hb

/-- Threads paired with what belongs to each, when one pair changes. -/
theorem forall_pairs_set {β : Type u} {others : List β} {c : β} {R : α → β → Prop}
    (hall : ∀ (j : Nat) (x : α) (y : β), threads[j]? = some x → others[j]? = some y → R x y)
    (hb : R b c) (j : Nat) (x : α) (y : β) (hx : (threads.set i b)[j]? = some x)
    (hy : (others.set i c)[j]? = some y) : R x y := by
  rw [List.getElem?_set] at hx hy
  by_cases hij : i = j
  · rw [if_pos hij] at hx hy
    split at hx
    · cases hx
      split at hy
      · cases hy
        exact hb
      · cases hy
    · cases hx
  · rw [if_neg hij] at hx hy
    exact hall j x y hx hy

/-- A thread told apart from the one that moves is still there. -/
theorem mem_set_of_ne (h : threads[i]? = some a) (hx : x ∈ threads) (hne : x ≠ a) (b : α) :
    x ∈ threads.set i b := by
  rw [(set_perm h b).mem_iff]
  exact List.mem_cons_of_mem _
    ((List.mem_cons.mp ((perm_of_getElem? h).mem_iff.mp hx)).resolve_left hne)

theorem self_mem_set (h : threads[i]? = some a) (b : α) : b ∈ threads.set i b :=
  (set_perm h b).mem_iff.mpr List.mem_cons_self

/-- A sum over the threads changes as the moving thread's share does. -/
theorem sum_set (h : threads[i]? = some a) (f : α → Nat) (b : α) :
    ((threads.set i b).map f).sum + f a = (threads.map f).sum + f b := by
  rw [((set_perm h b).map f).sum_eq, ((perm_of_getElem? h).map f).sum_eq]
  simp only [List.map_cons, List.sum_cons]
  omega

theorem le_sum (h : threads[i]? = some a) (f : α → Nat) : f a ≤ (threads.map f).sum := by
  rw [((perm_of_getElem? h).map f).sum_eq]
  simp

/-- Sums over two kinds of data of the same threads. -/
theorem sum_le_sum_add {β : Type u} {others : List β} (hlength : threads.length = others.length)
    {f g : α → Nat} {k : β → Nat}
    (hle : ∀ (i : Nat) a b, threads[i]? = some a → others[i]? = some b → f a ≤ g a + k b) :
    (threads.map f).sum ≤ (threads.map g).sum + (others.map k).sum := by
  induction threads generalizing others with
  | nil => simp
  | cons a threads ih =>
      cases others with
      | nil => cases hlength
      | cons b others =>
          have hhead := hle 0 a b rfl rfl
          have htail := ih (Nat.succ.inj hlength) fun i x y hx hy => hle (i + 1) x y hx hy
          simp only [List.map_cons, List.sum_cons]
          omega

theorem countP_set (h : threads[i]? = some a) (p : α → Bool) (b : α) :
    (threads.set i b).countP p + (p a).toNat = threads.countP p + (p b).toNat := by
  rw [(set_perm h b).countP_eq, (perm_of_getElem? h).countP_eq]
  cases ha : p a <;> cases hb : p b <;> simp [ha, hb]

theorem countP_eraseIdx (h : threads[i]? = some a) (p : α → Bool) :
    (threads.eraseIdx i).countP p + (p a).toNat = threads.countP p := by
  rw [(perm_of_getElem? h).countP_eq]
  cases ha : p a <;> simp [ha]

theorem countP_concat (p : α → Bool) (a : α) :
    (threads ++ [a]).countP p = threads.countP p + (p a).toNat := by
  cases ha : p a <;> simp [ha]

/-- Threads that contribute nothing can be left out of a sum. -/
theorem sum_filter {p : α → Bool} {f : α → Nat} (h : ∀ x ∈ threads, p x = false → f x = 0) :
    ((threads.filter p).map f).sum = (threads.map f).sum := by
  induction threads with
  | nil => rfl
  | cons x threads ih =>
      have ih := ih fun y hy => h y (List.mem_cons_of_mem _ hy)
      cases hp : p x with
      | true => simp [hp, ih]
      | false => simp [hp, ih, h x List.mem_cons_self hp]

/-- The only thread with a property carries all of a sum to which the others
contribute nothing. -/
theorem sum_of_countP_eq_one {p : α → Bool} {f : α → Nat} (h : threads[i]? = some a)
    (hp : p a = true) (hone : threads.countP p = 1)
    (hzero : ∀ x ∈ threads, p x = false → f x = 0) : (threads.map f).sum = f a := by
  have hperm := perm_of_getElem? h
  rw [hperm.countP_eq, List.countP_cons_of_pos hp] at hone
  have hothers : ∀ x ∈ threads.eraseIdx i, p x = false := by
    have : (threads.eraseIdx i).countP p = 0 := by omega
    simpa using List.countP_eq_zero.mp this
  rw [(hperm.map f).sum_eq, List.map_cons, List.sum_cons, List.sum_eq_zero, Nat.add_zero]
  intro m hm
  obtain ⟨x, hx, rfl⟩ := List.mem_map.mp hm
  exact hzero x (List.mem_of_mem_eraseIdx hx) (hothers x hx)

end Threads
