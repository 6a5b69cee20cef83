import Mathlib.Algebra.Order.Floor.Div
import Aex.Core.Backends.ChunkWalk
import Aex.Core.Backends.ZarrArray

/-!
# Chunks have names of their own

A chunk's number and its coordinates say the same thing, and a file is named after the
coordinates.  The separator is no digit, so a name can be taken apart again: no two
chunks of an array share a file.
-/

namespace Aex

/-! ## Numbers and coordinates -/

namespace ChunkGrid

/-- The C-order number of the chunk at `coords`, if it lies inside. -/
def chunkOf (g : ChunkGrid) (coords : List Nat) : Option Nat := linear coords g.grid

section Names

variable {g : ChunkGrid} {coords : List Nat} {n : Nat}

theorem coordsOf_eq (hgrid : 0 ∉ g.grid) : g.coordsOf n = some (Radix.coords g.grid n) := by
  rw [coordsOf, if_neg hgrid, unravel_eq]

theorem Sound.chunks_eq (h : g.Sound) : g.chunks = g.grid.prod := by
  rw [chunks, Word.foldl_wrappingMul (by decide), Nat.one_mul, Nat.mod_eq_of_lt h.gridFits]

theorem dims_pos (hgrid : 0 ∉ g.grid) : ∀ d ∈ g.grid, 0 < d := by
  intro d hd
  apply Nat.pos_of_ne_zero
  intro hzero
  exact hgrid (hzero ▸ hd)

theorem Sound.chunkOf_within (h : g.Sound) (hwithin : Radix.Within coords g.grid) :
    g.chunkOf coords = some (Radix.flat coords g.grid) :=
  linear_eq hwithin (Nat.le_of_lt h.gridFits)

theorem Sound.coordsOf_chunkOf (h : g.Sound) (hwithin : Radix.Within coords g.grid) :
    ∃ n < g.chunks, g.chunkOf coords = some n ∧ g.coordsOf n = some coords := by
  have hgrid : 0 ∉ g.grid := fun hzero => Nat.lt_irrefl 0 (hwithin.dims_pos 0 hzero)
  refine ⟨Radix.flat coords g.grid, ?_, h.chunkOf_within hwithin, ?_⟩
  · rw [h.chunks_eq]
    exact Radix.flat_lt hwithin
  · rw [coordsOf_eq hgrid, Radix.coords_flat hwithin]

theorem Sound.chunkOf_coordsOf (h : g.Sound) (hgrid : 0 ∉ g.grid) (hn : n < g.chunks) :
    ∃ coords, g.coordsOf n = some coords ∧ Radix.Within coords g.grid ∧
      g.chunkOf coords = some n := by
  have hwithin := Radix.coords_within (n := n) (dims_pos hgrid)
  refine ⟨Radix.coords g.grid n, coordsOf_eq hgrid, hwithin, ?_⟩
  rw [h.chunkOf_within hwithin, Radix.flat_coords, ← h.chunks_eq, Nat.mod_eq_of_lt hn]

end Names

end ChunkGrid

/-! ## Names and coordinates -/

section Digits

variable {sep : Char} {as bs : List Nat}

theorem not_mem_toDigits (hsep : sep.isDigit = false) (n : Nat) : sep ∉ Nat.toDigits 10 n := by
  intro hmem
  have := Nat.isDigit_of_mem_toDigits (by decide) (by decide) hmem
  rw [hsep] at this
  cases this

theorem map_toDigits_injective (h : as.map (Nat.toDigits 10) = bs.map (Nat.toDigits 10)) :
    as = bs := by
  have hread := congrArg (List.map fun digits => Nat.ofDigitChars 10 digits 0) h
  simpa only [List.map_map, Function.comp_def, Nat.ofDigitChars_ten_toDigits, List.map_id'] using hread

/-- A word and then numbers, each after a separator. -/
theorem intercalate_cons (word : List Char) (words : List (List Char)) :
    [sep].intercalate (word :: words) = word ++ words.flatMap ([sep] ++ ·) := by
  induction words generalizing word with
  | nil => simp
  | cons next words ih =>
      rw [List.intercalate_cons_cons, ih, List.flatMap_cons, List.append_assoc, List.append_assoc]

/-- Words without the separator can be told apart once they are joined by it. -/
theorem intercalate_injective {words more : List (List Char)} (hwords : ∀ w ∈ words, sep ∉ w)
    (hmore : ∀ w ∈ more, sep ∉ w) (hne : words ≠ []) (hmoreNe : more ≠ [])
    (h : [sep].intercalate words = [sep].intercalate more) : words = more := by
  rw [← List.splitOn_intercalate sep hwords hne, h, List.splitOn_intercalate sep hmore hmoreNe]

end Digits

/-- A separator between coordinates is a slash or a dot. -/
theorem keyEncoding_separator {w : Wording} {pfx : String} {named : Option Named}
    {key : KeyEncoding} (h : keyEncoding w pfx named = .ok key) :
    key.separator = '/' ∨ key.separator = '.' := by
  have hchosen : ∀ {configuration usual separator}, usual = '/' ∨ usual = '.' →
      separatorOf w pfx configuration usual = .ok separator → separator = '/' ∨ separator = '.' := by
    intro configuration usual separator husual h
    unfold separatorOf at h
    split at h
    · cases h
      exact husual
    · cases h
      exact .inl rfl
    · cases h
      exact .inr rfl
    · cases h
  cases named with
  | none =>
      cases h
      exact .inl rfl
  | some named =>
      simp only [keyEncoding] at h
      split at h
      · obtain ⟨chosen, husual, h⟩ := Fallible.bind_eq_ok.mp h
        cases husual
        obtain ⟨separator, hseparator, h⟩ := Fallible.bind_eq_ok.mp h
        cases h
        exact hchosen (.inl rfl) hseparator
      · obtain ⟨chosen, husual, h⟩ := Fallible.bind_eq_ok.mp h
        cases husual
        obtain ⟨separator, hseparator, h⟩ := Fallible.bind_eq_ok.mp h
        cases h
        exact hchosen (.inr rfl) hseparator
      · cases h

namespace ZarrArray

variable {array : ZarrArray} {grid : ChunkGrid} {as bs coords : List Nat} {n : Nat}

/-- The words of a chunk's name after the array's path. -/
def nameWords (prefixed : Bool) (coords : List Nat) : List (List Char) :=
  if prefixed then ['c'] :: coords.map (Nat.toDigits 10)
  else if coords = [] then [['0']]
  else coords.map (Nat.toDigits 10)

theorem nameWords_ne_nil {prefixed : Bool} : nameWords prefixed coords ≠ [] := by
  unfold nameWords
  split
  · simp
  split
  · simp
  · simpa

theorem not_mem_nameWords {prefixed : Bool} {sep : Char} (hsep : sep.isDigit = false)
    (hc : sep ≠ 'c') : ∀ w ∈ nameWords prefixed coords, sep ∉ w := by
  have hnumbers : ∀ w ∈ coords.map (Nat.toDigits 10), sep ∉ w := by
    intro w hw
    obtain ⟨c, -, rfl⟩ := List.mem_map.mp hw
    exact not_mem_toDigits hsep c
  unfold nameWords
  split
  · exact List.forall_mem_cons.mpr ⟨by simpa using hc, hnumbers⟩
  split
  · simpa using not_mem_toDigits hsep 0
  · exact hnumbers

/-- Coordinates of one grid are told apart by the words of their names. -/
theorem nameWords_injective {prefixed : Bool} (hlen : as.length = bs.length)
    (h : nameWords prefixed as = nameWords prefixed bs) : as = bs := by
  unfold nameWords at h
  split at h
  · exact map_toDigits_injective (List.cons.inj h).2
  · by_cases hnil : as = []
    · subst hnil
      exact (List.length_eq_zero_iff.mp hlen.symm).symm
    · have hne : bs ≠ [] := by
        intro hbs
        subst hbs
        exact hnil (List.length_eq_zero_iff.mp hlen)
      rw [if_neg hnil, if_neg hne] at h
      exact map_toDigits_injective h

/-- The path of an array, as its chunks' names begin. -/
def path (array : ZarrArray) : String := if array.pfx = "" then "" else array.pfx ++ "/"

theorem keyOf_eq (hcoords : grid.coordsOf n = some coords) :
    ∃ key, array.keyOf grid n = some key ∧ key.toList = array.path.toList ++
      [array.key.separator].intercalate (nameWords array.key.prefixed coords) := by
  have hdigits : ∀ c : Nat, (toString c).toList = Nat.toDigits 10 c := fun c => Nat.toList_repr
  simp only [keyOf, hcoords, Option.bind_eq_bind, Option.bind_some]
  by_cases hprefixed : array.key.prefixed = true
  · rw [if_pos hprefixed]
    refine ⟨_, rfl, ?_⟩
    rw [nameWords, if_pos hprefixed, intercalate_cons, List.flatMap_map, String.toList_append,
      String.toList_append, String.toList_join, List.flatMap_map, List.append_assoc]
    simp only [String.toList_append, String.toList_singleton, hdigits]
    rfl
  rw [if_neg hprefixed, nameWords, if_neg hprefixed]
  by_cases hnil : coords = []
  · rw [if_pos hnil, if_pos hnil]
    exact ⟨_, rfl, String.toList_append⟩
  · rw [if_neg hnil, if_neg hnil]
    refine ⟨_, rfl, ?_⟩
    simp only [String.toList_append, String.toList_intercalate, String.toList_singleton,
      List.map_map, Function.comp_def, hdigits]
    rfl

end ZarrArray

namespace ChunkGrid

/-- Numbers and coordinates are inverse to each other, and no two chunks of an array are
named alike. -/
theorem chunks_named_apart {shape chunkShape : List Nat} {itemsize : Nat} {g : ChunkGrid}
    (hnew : new shape chunkShape itemsize = some g) (hgrid : 0 ∉ g.grid) :
    (∀ n < g.chunks, ∃ coords, g.coordsOf n = some coords ∧ Radix.Within coords g.grid ∧
      g.chunkOf coords = some n) ∧
    (∀ coords, Radix.Within coords g.grid →
      ∃ n < g.chunks, g.chunkOf coords = some n ∧ g.coordsOf n = some coords) ∧
    ∀ array : ZarrArray, array.key.separator = '/' ∨ array.key.separator = '.' →
      ∀ n < g.chunks, ∃ key, array.keyOf g n = some key ∧
        ∀ m < g.chunks, array.keyOf g m = some key → m = n := by
  have hsound := (new_sound hnew).1
  refine ⟨fun n hn => hsound.chunkOf_coordsOf hgrid hn,
    fun coords hwithin => hsound.coordsOf_chunkOf hwithin, ?_⟩
  intro array hseparator n hn
  obtain ⟨coords, hcoords, hwithin, hchunk⟩ := hsound.chunkOf_coordsOf hgrid hn
  obtain ⟨key, hkey, hname⟩ := array.keyOf_eq hcoords
  refine ⟨key, hkey, ?_⟩
  intro m hm hsame
  obtain ⟨others, hothers, hinside, hother⟩ := hsound.chunkOf_coordsOf hgrid hm
  obtain ⟨also, halso, hcalled⟩ := array.keyOf_eq hothers
  obtain rfl : also = key := Option.some.inj (halso.symm.trans hsame)
  have hsep : array.key.separator.isDigit = false ∧ array.key.separator ≠ 'c' := by
    rcases hseparator with h | h <;> rw [h] <;> decide
  have hjoined := List.append_cancel_left (hcalled.symm.trans hname)
  have hwords := intercalate_injective (ZarrArray.not_mem_nameWords hsep.1 hsep.2)
    (ZarrArray.not_mem_nameWords hsep.1 hsep.2) ZarrArray.nameWords_ne_nil
    ZarrArray.nameWords_ne_nil hjoined
  have hlen : others.length = coords.length := hinside.length_eq.trans hwithin.length_eq.symm
  obtain rfl := ZarrArray.nameWords_injective hlen hwords
  exact Option.some.inj (hother.symm.trans hchunk)

/-- Coordinates of one and of two digits, with a chunk hanging over an edge. -/
theorem chunks_named_apart_v2 : ∃ g, new [25, 7] [2, 3] 4 = some g ∧ 0 ∉ g.grid ∧
    ∀ array : ZarrArray, array.key.separator = '/' ∨ array.key.separator = '.' →
      ∀ n < g.chunks, ∃ key, array.keyOf g n = some key ∧
        ∀ m < g.chunks, array.keyOf g m = some key → m = n := by
  have hnew : new [25, 7] [2, 3] 4 = some ⟨[25, 7], [2, 3], [13, 3], 4, 24, 1⟩ := by decide
  exact ⟨_, hnew, by decide, (chunks_named_apart hnew (by decide)).2.2⟩

end ChunkGrid

end Aex
