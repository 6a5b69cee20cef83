import Mathlib.Data.List.Forall2

/-!
# Computations that fail

What it takes for a computation in `Except` or `Option` to succeed.
-/

namespace Fallible

universe u v
variable {ε : Type u} {α β : Type v} {x : Except ε α} {b : β}

theorem bind_eq_ok {f : α → Except ε β} :
    x >>= f = .ok b ↔ ∃ a, x = .ok a ∧ f a = .ok b := by
  cases x with
  | error e => simp [bind, Except.bind]
  | ok a => simp [bind, Except.bind]

theorem map_eq_ok {f : α → β} : x.map f = .ok b ↔ ∃ a, x = .ok a ∧ f a = b := by
  cases x with
  | error e => simp [Except.map]
  | ok a => simp [Except.map]

/-- A check that may refuse. -/
theorem ite_eq_ok {c : Prop} [Decidable c] {y : Except ε α} {e : ε} {a : α} :
    (if c then y else .error e) = .ok a ↔ c ∧ y = .ok a := by
  by_cases hc : c
  · rw [if_pos hc, and_iff_right hc]
  · rw [if_neg hc]
    constructor
    · intro h
      cases h
    · exact fun h => absurd h.1 hc

/-- A list goes through when every one of its elements does. -/
theorem mapM_isOk {f : α → Except ε β} {as : List α} :
    (∃ bs, as.mapM f = .ok bs) ↔ ∀ a ∈ as, ∃ b, f a = .ok b := by
  induction as with
  | nil => simp [pure, Except.pure]
  | cons a as ih =>
      rw [List.mapM_cons, List.forall_mem_cons, ← ih]
      constructor
      · intro h
        obtain ⟨bs, h⟩ := h
        obtain ⟨b, hb, h⟩ := bind_eq_ok.mp h
        obtain ⟨more, hmore, -⟩ := bind_eq_ok.mp h
        exact ⟨⟨b, hb⟩, more, hmore⟩
      · intro h
        obtain ⟨⟨b, hb⟩, more, hmore⟩ := h
        exact ⟨b :: more, bind_eq_ok.mpr ⟨b, hb, bind_eq_ok.mpr ⟨more, hmore, rfl⟩⟩⟩

theorem mapM_congr {f g : α → Option β} {as : List α} (h : ∀ a ∈ as, f a = g a) :
    as.mapM f = as.mapM g := by
  induction as with
  | nil => rfl
  | cons a as ih =>
      rw [List.forall_mem_cons] at h
      rw [List.mapM_cons, List.mapM_cons, h.1, ih h.2]

/-- What a list goes to, element by element. -/
theorem mapM_eq_some {f : α → Option β} {as : List α} {bs : List β} :
    as.mapM f = some bs ↔ List.Forall₂ (fun a b => f a = some b) as bs := by
  induction as generalizing bs with
  | nil =>
      rw [List.mapM_nil, List.forall₂_nil_left_iff]
      exact ⟨fun h => (Option.some.inj h).symm, fun h => congrArg some h.symm⟩
  | cons a as ih =>
      simp only [List.mapM_cons, Option.bind_eq_bind, Option.bind_eq_some_iff, ih,
        List.forall₂_cons_left_iff]
      constructor
      · intro h
        obtain ⟨b, hb, more, hmore, heq⟩ := h
        exact ⟨b, more, hb, hmore, (Option.some.inj heq).symm⟩
      · intro h
        obtain ⟨b, more, hb, hmore, rfl⟩ := h
        exact ⟨b, hb, more, hmore, rfl⟩

theorem mapM_isSome {f : α → Option β} {as : List α} (h : ∀ a ∈ as, ∃ b, f a = some b) :
    ∃ bs, as.mapM f = some bs := by
  induction as with
  | nil => exact ⟨[], rfl⟩
  | cons a as ih =>
      rw [List.forall_mem_cons] at h
      obtain ⟨⟨b, hb⟩, hmore⟩ := h
      obtain ⟨bs, hbs⟩ := ih hmore
      exact ⟨b :: bs, by rw [List.mapM_cons, hb, hbs]; rfl⟩

/-- A list whose elements are only checked. -/
theorem mapM_ite_eq_some {p : α → Prop} [DecidablePred p] {f : α → β} {as : List α} {bs : List β} :
    as.mapM (fun a => if p a then some (f a) else none) = some bs ↔
      (∀ a ∈ as, p a) ∧ bs = as.map f := by
  rw [mapM_eq_some]
  induction as generalizing bs with
  | nil => simp [List.forall₂_nil_left_iff]
  | cons a as ih =>
      rw [List.forall₂_cons_left_iff]
      simp only [ih]
      simp only [List.forall_mem_cons, List.map_cons, Option.ite_none_right_eq_some,
        Option.some.injEq]
      constructor
      · intro h
        obtain ⟨b, more, ⟨ha, rfl⟩, ⟨hmore, rfl⟩, rfl⟩ := h
        exact ⟨⟨ha, hmore⟩, rfl⟩
      · intro h
        obtain ⟨⟨ha, hmore⟩, rfl⟩ := h
        exact ⟨f a, as.map f, ⟨ha, rfl⟩, ⟨hmore, rfl⟩, rfl⟩

/-- What every step of a loop keeps, the loop does. -/
theorem foldlM_invariant {f : α → β → Except ε α} {bs : List β} {a c : α} {P : α → Prop}
    (hstep : ∀ b ∈ bs, ∀ a c, P a → f a b = .ok c → P c) (ha : P a)
    (h : bs.foldlM f a = .ok c) : P c := by
  induction bs generalizing a with
  | nil =>
      cases h
      exact ha
  | cons b bs ih =>
      rw [List.forall_mem_cons] at hstep
      rw [List.foldlM_cons] at h
      obtain ⟨next, hnext, h⟩ := bind_eq_ok.mp h
      exact ih hstep.2 (hstep.1 a next ha hnext) h

/-- A loop that fills a table from the front, `width` places at a time, fills it with
what its steps have to put there, if each has something. -/
theorem foldlM_fill {γ : Type v} {front next : List γ} (x : γ) (f : List γ → Nat → Except ε (List γ))
    (g : Nat → Option (List γ)) (width base i k m : Nat)
    (hwidth : ∀ i entries, g i = some entries → entries.length = width)
    (hstep : ∀ j < i + k, ∀ front m next, front.length = base + j * width →
      (f (front ++ List.replicate (width + m) x) j = .ok next ↔
        ∃ entries, g j = some entries ∧ next = front ++ entries ++ List.replicate m x))
    (hfront : front.length = base + i * width) :
    (List.range' i k).foldlM f (front ++ List.replicate (k * width + m) x) = .ok next ↔
      ∃ tables, (List.range' i k).mapM g = some tables ∧
        next = front ++ tables.flatten ++ List.replicate m x := by
  induction k generalizing i front with
  | zero =>
      rw [List.range'_zero, List.foldlM_nil, List.mapM_nil, Nat.zero_mul, Nat.zero_add]
      constructor
      · intro h
        cases h
        exact ⟨[], rfl, by simp⟩
      · intro h
        obtain ⟨tables, htables, rfl⟩ := h
        cases htables
        simp [pure, Except.pure]
  | succ k ih =>
      have hsplit : (k + 1) * width + m = width + (k * width + m) := by
        rw [Nat.succ_mul]
        omega
      have hnext : ∀ entries, g i = some entries →
          (front ++ entries).length = base + (i + 1) * width := by
        intro entries hentries
        rw [List.length_append, hwidth i entries hentries, hfront, Nat.succ_mul, Nat.add_assoc]
      have htail : ∀ j < i + 1 + k, ∀ front m next, front.length = base + j * width →
          (f (front ++ List.replicate (width + m) x) j = .ok next ↔
            ∃ entries, g j = some entries ∧ next = front ++ entries ++ List.replicate m x) :=
        fun j hj => hstep j (by omega)
      rw [List.range'_succ, List.foldlM_cons, bind_eq_ok, hsplit]
      simp only [hstep i (by omega) front (k * width + m) _ hfront, List.mapM_cons,
        Option.bind_eq_bind, Option.bind_eq_some_iff]
      constructor
      · intro h
        obtain ⟨_, ⟨entries, hentries, rfl⟩, h⟩ := h
        obtain ⟨tables, htables, rfl⟩ := (ih (i + 1) htail (hnext entries hentries)).mp h
        exact ⟨entries :: tables, ⟨entries, hentries, tables, htables, rfl⟩, by simp⟩
      · intro h
        obtain ⟨_, ⟨entries, hentries, tables, htables, heq⟩, rfl⟩ := h
        cases heq
        refine ⟨_, ⟨entries, hentries, rfl⟩, ?_⟩
        exact (ih (i + 1) htail (hnext entries hentries)).mpr ⟨tables, htables, by simp⟩

/-- A missing value is an error. -/
theorem elim_eq_ok {y : Option α} {e : ε} {a : α} :
    y.elim (.error e) Except.ok = Except.ok a ↔ y = some a := by
  cases y <;> simp

/-- A fold of which every step goes on or fails in one of some ways. -/
theorem foldlM_cases {f : α → β → Except ε α} {bs : List β} {a : α} {P : α → Prop} {Q : ε → Prop}
    (hstep : ∀ b ∈ bs, ∀ a, P a → (∃ c, f a b = .ok c ∧ P c) ∨ ∃ e, Q e ∧ f a b = .error e)
    (ha : P a) : (∃ c, bs.foldlM f a = .ok c ∧ P c) ∨ ∃ e, Q e ∧ bs.foldlM f a = .error e := by
  induction bs generalizing a with
  | nil => exact .inl ⟨a, rfl, ha⟩
  | cons b bs ih =>
      rw [List.forall_mem_cons] at hstep
      rw [List.foldlM_cons]
      cases hstep.1 a ha with
      | inl hok =>
          obtain ⟨c, hc, hP⟩ := hok
          rw [hc]
          exact ih hstep.2 hP
      | inr hfail =>
          obtain ⟨e, he, hfail⟩ := hfail
          rw [hfail]
          exact .inr ⟨e, he, rfl⟩

/-! ## Failing more often -/

/-- The same outcome, unless the first fails in one of some ways. -/
def AgreesOr (P : ε → Prop) (x y : Except ε α) : Prop := x = y ∨ ∃ e, P e ∧ x = .error e

variable {P : ε → Prop}

theorem AgreesOr.refl (x : Except ε α) : AgreesOr P x x := .inl rfl

theorem AgreesOr.bind {y : Except ε α} {f g : α → Except ε β} (h : AgreesOr P x y)
    (hf : ∀ a, AgreesOr P (f a) (g a)) : AgreesOr P (x >>= f) (y >>= g) := by
  cases h with
  | inl heq =>
      subst heq
      cases x with
      | error e => exact .inl rfl
      | ok a => exact hf a
  | inr hfail =>
      obtain ⟨e, he, rfl⟩ := hfail
      exact .inr ⟨e, he, rfl⟩

theorem AgreesOr.ite {c : Prop} [Decidable c] {x' y y' : Except ε α} (h : AgreesOr P x y)
    (h' : AgreesOr P x' y') : AgreesOr P (if c then x else x') (if c then y else y') := by
  by_cases hc : c
  · rw [if_pos hc, if_pos hc]
    exact h
  · rw [if_neg hc, if_neg hc]
    exact h'

/-- A loop whose steps fail more often does. -/
theorem AgreesOr.foldlM {f g : α → β → Except ε α} (h : ∀ a b, AgreesOr P (f a b) (g a b))
    (bs : List β) (a : α) : AgreesOr P (bs.foldlM f a) (bs.foldlM g a) := by
  induction bs generalizing a with
  | nil => exact AgreesOr.refl _
  | cons b bs ih =>
      rw [List.foldlM_cons, List.foldlM_cons]
      exact (h a b).bind ih

end Fallible
