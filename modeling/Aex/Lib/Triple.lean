import Mathlib.Tactic.Basic

/-!
# Computations with a state that may fail

What it takes for such a computation to return, with facts about what it returns and
the state it leaves.
-/

namespace Triple

universe u
variable {σ ε α β : Type u}

/-- From `s` the computation returns, and `post` holds of the value and the state after. -/
def Yields (x : StateT σ (Except ε) α) (s : σ) (post : α → σ → Prop) : Prop :=
  ∃ a s', x s = .ok (a, s') ∧ post a s'

/-- From `s` the computation returns so, or fails in one of some ways. -/
def YieldsOr (fail : ε → Prop) (x : StateT σ (Except ε) α) (s : σ) (post : α → σ → Prop) : Prop :=
  Yields x s post ∨ ∃ e, fail e ∧ x s = .error e

variable {x : StateT σ (Except ε) α} {f : α → StateT σ (Except ε) β} {s s' : σ} {a : α} {e : ε}
  {fail : ε → Prop} {mid post : α → σ → Prop} {last : β → σ → Prop} {inv : σ → Prop} {as : List α}

theorem yields_pure (h : post a s) : Yields (pure a : StateT σ (Except ε) α) s post := ⟨a, s, rfl, h⟩

theorem yields_lift {y : Except ε α} (hy : y = .ok a) :
    Yields (liftM y : StateT σ (Except ε) α) s fun b s' => b = a ∧ s' = s := by
  subst hy
  exact ⟨a, s, rfl, rfl, rfl⟩

theorem Yields.bind (hx : Yields x s mid) (hf : ∀ a s', mid a s' → Yields (f a) s' last) :
    Yields (x >>= f) s last := by
  obtain ⟨a, s', hrun, hmid⟩ := hx
  obtain ⟨b, s'', hrest, hlast⟩ := hf a s' hmid
  refine ⟨b, s'', ?_, hlast⟩
  show (x s >>= fun p => f p.1 p.2) = _
  rw [hrun]
  exact hrest

theorem Yields.map {g : α → β} (hx : Yields x s mid) (hg : ∀ a s', mid a s' → last (g a) s') :
    Yields (g <$> x) s last := by
  rw [map_eq_pure_bind]
  exact hx.bind fun a s' hmid => yields_pure (hg a s' hmid)

theorem Yields.mono (hx : Yields x s mid) (h : ∀ a s', mid a s' → post a s') : Yields x s post := by
  obtain ⟨a, s', hrun, hmid⟩ := hx
  exact ⟨a, s', hrun, h a s' hmid⟩

/-- A list goes through, and an invariant with it, when every one of its elements does. -/
theorem yields_mapM {g : α → β} (hs : inv s)
    (hf : ∀ a ∈ as, ∀ s, inv s → Yields (f a) s fun b s' => b = g a ∧ inv s') :
    Yields (as.mapM f) s fun bs s' => bs = as.map g ∧ inv s' := by
  induction as generalizing s with
  | nil =>
      rw [List.mapM_nil]
      exact yields_pure ⟨rfl, hs⟩
  | cons a as ih =>
      rw [List.forall_mem_cons] at hf
      rw [List.mapM_cons]
      apply (hf.1 s hs).bind
      intro b s' hb
      obtain ⟨rfl, hs'⟩ := hb
      apply (ih hs' hf.2).bind
      intro bs s'' hbs
      obtain ⟨rfl, hs''⟩ := hbs
      exact yields_pure ⟨rfl, hs''⟩

theorem YieldsOr.bind (hx : YieldsOr fail x s mid)
    (hf : ∀ a s', mid a s' → YieldsOr fail (f a) s' last) : YieldsOr fail (x >>= f) s last := by
  cases hx with
  | inl hx =>
      obtain ⟨a, s', hrun, hmid⟩ := hx
      have heq : (x >>= f) s = f a s' := by
        show (x s >>= fun p => f p.1 p.2) = _
        rw [hrun]
        rfl
      unfold YieldsOr Yields
      rw [heq]
      exact hf a s' hmid
  | inr hx =>
      obtain ⟨e, he, hrun⟩ := hx
      refine .inr ⟨e, he, ?_⟩
      show (x s >>= fun p => f p.1 p.2) = _
      rw [hrun]
      rfl

theorem YieldsOr.map {g : α → β} (hx : YieldsOr fail x s mid) (hg : ∀ a s', mid a s' → last (g a) s') :
    YieldsOr fail (g <$> x) s last := by
  rw [map_eq_pure_bind]
  exact hx.bind fun a s' hmid => .inl (yields_pure (hg a s' hmid))

/-- A list goes through, or one of its elements fails. -/
theorem yieldsOr_mapM {g : α → β} (hs : inv s)
    (hf : ∀ a ∈ as, ∀ s, inv s → YieldsOr fail (f a) s fun b s' => b = g a ∧ inv s') :
    YieldsOr fail (as.mapM f) s fun bs s' => bs = as.map g ∧ inv s' := by
  induction as generalizing s with
  | nil =>
      rw [List.mapM_nil]
      exact .inl (yields_pure ⟨rfl, hs⟩)
  | cons a as ih =>
      rw [List.forall_mem_cons] at hf
      rw [List.mapM_cons]
      apply (hf.1 s hs).bind
      intro b s' hb
      apply (ih hb.2 hf.2).bind
      intro bs s'' hbs
      exact .inl (yields_pure ⟨by rw [hb.1, hbs.1, List.map_cons], hbs.2⟩)

end Triple
