import Mathlib.Data.List.MinMax
import Mathlib.Data.List.Nodup
import Mathlib.Logic.Function.Basic

/-!
# Recency

Things are used one after the other.  How long ago one was last used orders them.  A
clock that stamps the uses orders them too, except for those between two of its ticks.
-/

namespace Recency

universe u
variable {α : Type u} [DecidableEq α]

/-- How many uses ago something was last used; all of them, if it never was. -/
def age (uses : List α) (a : α) : Nat := uses.reverse.idxOf a

/-- Listed by their last use, the least recent first. -/
def Sorted (uses keys : List α) : Prop := keys.Pairwise fun a b => age uses b < age uses a

variable {uses keys more : List α} {a b : α}

@[simp] theorem age_concat_self : age (uses ++ [a]) a = 0 := by
  simp [age]

theorem age_concat_of_ne (h : a ≠ b) : age (uses ++ [b]) a = age uses a + 1 := by
  rw [age, List.reverse_append, List.reverse_singleton, List.singleton_append,
    List.idxOf_cons_ne _ h.symm]
  rfl

theorem Sorted.nodup (h : Sorted uses keys) : keys.Nodup := by
  refine List.Pairwise.imp ?_ h
  intro a b hlt heq
  rw [heq] at hlt
  exact Nat.lt_irrefl _ hlt

theorem Sorted.sublist (h : Sorted uses keys) (hsub : more.Sublist keys) : Sorted uses more :=
  List.Pairwise.sublist hsub h

/-- What is used now comes last. -/
theorem Sorted.use (h : Sorted uses keys) (ha : a ∉ keys) : Sorted (uses ++ [a]) (keys ++ [a]) := by
  refine List.pairwise_append.mpr ⟨?_, List.pairwise_singleton _ _, ?_⟩
  · refine List.Pairwise.imp_of_mem ?_ h
    intro b c hb hc hlt
    rw [age_concat_of_ne (ne_of_mem_of_not_mem hb ha), age_concat_of_ne (ne_of_mem_of_not_mem hc ha)]
    exact Nat.succ_lt_succ hlt
  · intro b hb c hc
    obtain rfl := List.mem_singleton.mp hc
    rw [age_concat_self, age_concat_of_ne (ne_of_mem_of_not_mem hb ha)]
    exact Nat.succ_pos _

/-- Used again, it moves to the end. -/
theorem Sorted.reuse {i : Nat} (h : Sorted uses keys) (hi : keys[i]? = some a) :
    Sorted (uses ++ [a]) (keys.eraseIdx i ++ [a]) := by
  apply (h.sublist (List.eraseIdx_sublist _ _)).use
  intro hmem
  obtain ⟨j, hj, hja⟩ := List.mem_eraseIdx_iff_getElem?.mp hmem
  obtain ⟨hilt, hia⟩ := List.getElem?_eq_some_iff.mp hi
  obtain ⟨hjlt, hja⟩ := List.getElem?_eq_some_iff.mp hja
  exact hj (h.nodup.getElem_inj_iff.mp (hja.trans hia.symm))

theorem age_inj (ha : a ∈ uses) (h : age uses a = age uses b) : a = b :=
  (List.idxOf_inj (List.mem_reverse.mpr ha)).mp h

/-! ## Stamps -/

/-- Each thing carries the time of its last use, on a clock that does not go back. -/
structure Stamped (uses : List α) (stamp : α → Nat) (now : Nat) : Prop where
  past : ∀ a ∈ uses, stamp a ≤ now
  ordered : ∀ a ∈ uses, ∀ b ∈ uses, age uses a < age uses b → stamp b ≤ stamp a

section Stamped

variable {stamp : α → Nat} {now later : Nat}

theorem stamped_nil : Stamped ([] : List α) stamp now where
  past a ha := by cases ha
  ordered a ha := by cases ha

theorem Stamped.wait (h : Stamped uses stamp now) (hnow : now ≤ later) :
    Stamped uses stamp later where
  past a ha := (h.past a ha).trans hnow
  ordered := h.ordered

theorem Stamped.congr (h : Stamped uses stamp now) {stamp' : α → Nat}
    (heq : ∀ a ∈ uses, stamp' a = stamp a) : Stamped uses stamp' now where
  past a ha := heq a ha ▸ h.past a ha
  ordered a ha b hb hlt := by
    rw [heq a ha, heq b hb]
    exact h.ordered a ha b hb hlt

/-- A use is stamped with the time it is made at. -/
theorem Stamped.use (h : Stamped uses stamp now) (hnow : now ≤ later) :
    Stamped (uses ++ [a]) (Function.update stamp a later) later where
  past b hb := by
    by_cases hba : b = a
    · rw [hba, Function.update_self]
    · rw [Function.update_of_ne hba]
      exact (h.past b (by simpa [hba] using hb)).trans hnow
  ordered b hb c hc hlt := by
    by_cases hca : c = a
    · rw [hca, age_concat_self] at hlt
      exact absurd hlt (Nat.not_lt_zero _)
    have hc : c ∈ uses := by simpa [hca] using hc
    rw [Function.update_of_ne hca]
    by_cases hba : b = a
    · rw [hba, Function.update_self]
      exact (h.past c hc).trans hnow
    · rw [age_concat_of_ne hba, age_concat_of_ne hca] at hlt
      rw [Function.update_of_ne hba]
      exact h.ordered b (by simpa [hba] using hb) c hc (Nat.lt_of_succ_lt_succ hlt)

/-- Nothing listed before what was used longest ago shares its stamp. -/
def Untied (uses keys : List α) (stamp : α → Nat) : Prop :=
  ∀ front b back, keys = front ++ b :: back → (∀ c ∈ keys, age uses c ≤ age uses b) →
    ∀ c ∈ front, stamp c ≠ stamp b

theorem untied_congr {stamp' : α → Nat} (heq : ∀ a ∈ keys, stamp' a = stamp a) :
    Untied uses keys stamp' ↔ Untied uses keys stamp := by
  have himp : ∀ f g : α → Nat, (∀ a ∈ keys, f a = g a) → Untied uses keys f →
      Untied uses keys g := by
    intro f g hfg h front b back hkeys hb c hc
    rw [← hfg c (hkeys ▸ List.mem_append_left _ hc),
      ← hfg b (hkeys ▸ List.mem_append_right _ List.mem_cons_self)]
    exact h front b back hkeys hb c hc
  exact ⟨himp _ _ heq, himp _ _ fun a ha => (heq a ha).symm⟩

/-- The first of the least stamps belongs to what was used longest ago exactly when
nothing listed before that one shares its stamp. -/
theorem Stamped.argmin_oldest_iff (h : Stamped uses stamp now) (hkeys : ∀ b ∈ keys, b ∈ uses)
    (hnodup : keys.Nodup) (ha : a ∈ keys.argmin stamp) :
    (∀ b ∈ keys, b ≠ a → age uses b < age uses a) ↔ Untied uses keys stamp := by
  obtain ⟨hmem, hmin, hfirst⟩ := List.mem_argmin_iff.mp ha
  constructor
  · intro holdest front b back heq hb c hc hsame
    have hba : b = a := by
      by_contra hne
      have hlt := holdest b (heq ▸ List.mem_append_right _ List.mem_cons_self) hne
      exact Nat.not_le.mpr hlt (hb a hmem)
    have hidx := hfirst c (heq ▸ List.mem_append_left _ hc) (by rw [hsame, hba])
    rw [heq] at hnodup hidx
    have hout : a ∉ front := fun hin =>
      (List.nodup_append.mp hnodup).2.2 a hin b List.mem_cons_self hba.symm
    rw [List.idxOf_append_of_mem hc, List.idxOf_append_of_notMem hout] at hidx
    have hlt := List.idxOf_lt_length_of_mem hc
    omega
  · intro huntied
    obtain ⟨b, hb⟩ : ∃ b, b ∈ keys.argmax (age uses) := by
      cases hmax : keys.argmax (age uses) with
      | none =>
          rw [List.argmax_eq_none] at hmax
          rw [hmax] at hmem
          cases hmem
      | some b => exact ⟨b, rfl⟩
    have hbmem := List.argmax_mem hb
    have hbmax : ∀ c ∈ keys, age uses c ≤ age uses b := fun c hc => List.le_of_mem_argmax hc hb
    have hba : b = a := by
      by_contra hne
      have hlt : age uses a < age uses b := by
        rcases (hbmax a hmem).lt_or_eq with hlt | heq
        · exact hlt
        · exact absurd (age_inj (hkeys a hmem) heq).symm hne
      have hsame : stamp a = stamp b :=
        Nat.le_antisymm (hmin b hbmem) (h.ordered a (hkeys a hmem) b (hkeys b hbmem) hlt)
      obtain ⟨front, back, heq, hout⟩ := List.eq_append_cons_of_mem hbmem
      have hidx := hfirst b hbmem hsame.symm.le
      have hin : a ∈ front := by
        by_contra hnotin
        rw [heq, List.idxOf_append_of_notMem hout, List.idxOf_append_of_notMem hnotin,
          List.idxOf_cons_self, List.idxOf_cons_ne _ hne] at hidx
        omega
      exact huntied front b back heq hbmax a hin hsame
    intro c hc hne
    rcases (hbmax c hc).lt_or_eq with hlt | heq
    · exact hba ▸ hlt
    · exact absurd (hba ▸ age_inj (hkeys c hc) heq) hne

end Stamped

end Recency
