import Mathlib.Data.List.AList

/-!
# Tables

Association lists with distinct keys, and the bulk update that maps tables
with in-place retention offer: every value is rewritten or dropped.
-/

namespace Table

universe u v
variable {α : Type u} {β : Type v}

/-- A finite map from `α` to `β`. -/
abbrev Map (α : Type u) (β : Type v) := AList fun _ : α => β

/-- Rewrite every value, dropping those sent to `none`. -/
def retain (f : α → β → Option β) (m : Map α β) : Map α β where
  entries := m.entries.filterMap fun e => (f e.1 e.2).map fun b => ⟨e.1, b⟩
  nodupKeys := by
    have hkeys : List.Sublist (m.entries.filterMap fun e =>
        (f e.1 e.2).map fun b => (⟨e.1, b⟩ : Sigma fun _ : α => β)).keys m.entries.keys := by
      generalize m.entries = es
      induction es with
      | nil => exact .slnil
      | cons e es ih =>
          cases he : f e.1 e.2 with
          | none => simpa [he] using ih.trans (List.sublist_cons_self _ _)
          | some b => simpa [he] using ih.cons_cons e.1
    exact List.Nodup.sublist hkeys m.nodupKeys

theorem length_keys_retain_le (f : α → β → Option β) (m : Map α β) :
    (retain f m).keys.length ≤ m.keys.length := by
  simp only [AList.keys, List.keys, List.length_map]
  exact List.length_filterMap_le _ _

variable [DecidableEq α]

theorem length_keys_erase_le (a : α) (m : Map α β) : (m.erase a).keys.length ≤ m.keys.length := by
  rw [AList.keys_erase]
  exact List.length_erase_le

theorem length_keys_insert_le (a : α) (b : β) (m : Map α β) :
    (m.insert a b).keys.length ≤ m.keys.length + 1 := by
  rw [AList.keys_insert, List.length_cons]
  exact Nat.succ_le_succ List.length_erase_le

@[simp] theorem lookup_retain (f : α → β → Option β) (m : Map α β) (a : α) :
    (retain f m).lookup a = (m.lookup a).bind (f a) := by
  ext b
  rw [← Option.mem_def, AList.mem_lookup_iff, Option.bind_eq_some_iff]
  simp only [retain, List.mem_filterMap, Option.map_eq_some_iff, Sigma.mk.injEq]
  constructor
  · rintro ⟨⟨a', b'⟩, hmem, c, hc, rfl, hcb⟩
    cases hcb
    exact ⟨b', AList.mem_lookup_iff.mpr hmem, hc⟩
  · rintro ⟨b', hb', hb⟩
    exact ⟨⟨a, b'⟩, AList.mem_lookup_iff.mp hb', b, hb, rfl, HEq.rfl⟩

end Table
