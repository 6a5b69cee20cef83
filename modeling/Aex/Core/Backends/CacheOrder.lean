import Aex.Lib.Recency
import Aex.Lib.System
import Aex.Core.Backends.DecodeCache

/-!
# What a cache holds, and in which order

The steps that hold the lock of a cache, of any threads in any order, with chunks of
any sizes.  The bytes are counted, no key is there twice, and the entries stand in
the order of their last use, so that an eviction takes the least recently used.
-/

namespace Aex

open Lts Recency

/-- What a step does to a key. -/
inductive CacheUse where
  | hit (key : ChunkKey)
  | stored (key : ChunkKey)
  /-- Another thread decoded it too. -/
  | raced (key : ChunkKey)
  deriving Repr, DecidableEq

def CacheUse.key : CacheUse → ChunkKey
  | .hit key | .stored key | .raced key => key

/-- Whether the entry of the key is then the most recently used. -/
def CacheUse.moves : CacheUse → Bool
  | .hit _ | .stored _ => true
  | .raced _ => false

/-- The keys that were hit or stored, one use after the other. -/
def CacheUse.moved (uses : List CacheUse) : List ChunkKey := (uses.filter CacheUse.moves).map key

/-- A cache, and what its hits and inserts did, the first one first.  No code reads
`uses`. -/
structure UsedCache where
  cache : DecodeCache
  uses : List CacheUse

/-- One step under the lock.  `held` says which of the chunks are still being read. -/
inductive CacheOp where
  | look (key : ChunkKey)
  | lend
  | insert (held : ChunkKey → Bool) (key : ChunkKey) (chunk : List UInt8)

namespace DecodeCache

/-- Whether a decoded chunk is one to keep. -/
def stores (cache : DecodeCache) (key : ChunkKey) (chunk : List UInt8) : Bool :=
  cache.capacity ≠ 0 && chunk.length ≤ cache.capacity && !cache.lru.contains key

end DecodeCache

namespace UsedCache

/-- What an insert is recorded as. -/
def useOf (cache : DecodeCache) (key : ChunkKey) (chunk : List UInt8) : List CacheUse :=
  if cache.stores key chunk then [.stored key]
  else if cache.lru.contains key then [.raced key]
  else []

/-- A look at the chunk at `key`. -/
def look (s : UsedCache) (key : ChunkKey) : UsedCache :=
  match s.cache.lru.get key with
  | some (_, lru) =>
      ⟨{ s.cache with lru, hits := Word.wrappingAdd 64 s.cache.hits 1 }, s.uses ++ [.hit key]⟩
  | none => { s with cache := { s.cache with misses := Word.wrappingAdd 64 s.cache.misses 1 } }

/-- A buffer is lent out. -/
def lend (s : UsedCache) : UsedCache :=
  { s with cache := { s.cache with lru := s.cache.lru.takeSpare.2 } }

/-- A step; none where the thread panics. -/
def step (s : UsedCache) : CacheOp → Option UsedCache
  | .look key => some (s.look key)
  | .lend => some s.lend
  | .insert held key chunk =>
      (s.cache.insert held key chunk).map fun cache => ⟨cache, s.uses ++ useOf s.cache key chunk⟩

def system (capacity : Nat) : System UsedCache CacheOp := .ofFn ⟨.new capacity, []⟩ step

/-- The keys of a cache, as its entries stand. -/
def keys (s : UsedCache) : List ChunkKey := s.cache.lru.entries.map Prod.fst

/-- What holds outside the lock. -/
structure Kept (capacity : Nat) (s : UsedCache) : Prop where
  bounded : s.cache.capacity = capacity
  counted : s.cache.lru.bytes = Lru.total s.cache.lru.entries
  fits : s.cache.lru.bytes ≤ capacity
  sorted : Sorted (CacheUse.moved s.uses) s.keys
  spares : s.cache.lru.spare.length ≤ maxSpares

end UsedCache

/-! ## Eviction -/

namespace Lru

variable {entries : List (ChunkKey × List UInt8)} {spare : List (List UInt8)} {capacity : Nat}
  {held : ChunkKey → Bool} {lru next : Lru} {key : ChunkKey}

/-- Eviction takes out no more entries than it has to, from the front. -/
theorem evict_drop (hspare : spare.length ≤ maxSpares)
    (h : evict capacity held entries (total entries) spare = some next) :
    (∃ k, next.entries = entries.drop k ∧ ∀ j < k, capacity < total (entries.drop j)) ∧
      next.spare.length ≤ maxSpares := by
  induction entries generalizing spare with
  | nil =>
      unfold evict at h
      rw [if_pos (show total [] ≤ capacity by simp [total])] at h
      cases h
      exact ⟨⟨0, rfl, by simp⟩, hspare⟩
  | cons entry entries ih =>
      unfold evict at h
      by_cases hfits : total (entry :: entries) ≤ capacity
      · rw [if_pos hfits] at h
        cases h
        exact ⟨⟨0, rfl, by simp⟩, hspare⟩
      · rw [if_neg hfits] at h
        have hrest : total (entry :: entries) - entry.2.length = total entries := by
          simp [total]
        dsimp only at h
        rw [hrest] at h
        have hmore : (if spare.length < maxSpares ∧ !held entry.1 then spare ++ [entry.2]
            else spare).length ≤ maxSpares := by
          split
          · rename_i hkeep
            rw [List.length_append, List.length_singleton]
            exact hkeep.1
          · exact hspare
        obtain ⟨⟨k, hdrop, hmin⟩, hspares⟩ := ih hmore h
        refine ⟨⟨k + 1, hdrop, ?_⟩, hspares⟩
        intro j hj
        cases j with
        | zero => exact Nat.lt_of_not_le hfits
        | succ j => exact hmin j (Nat.lt_of_succ_lt_succ hj)

/-- A hit is taken out of its place and put at the end. -/
theorem get_move {chunk : List UInt8} (h : lru.get key = some (chunk, next)) :
    ∃ i, (lru.entries.map Prod.fst)[i]? = some key ∧
      next = { lru with entries := lru.entries.eraseIdx i ++ [(key, chunk)] } := by
  simp only [get, Option.bind_eq_bind, Option.bind_eq_some_iff] at h
  obtain ⟨i, hi, entry, hentry, h⟩ := h
  cases h
  obtain ⟨hlt, hkey, -⟩ := List.findIdx?_eq_some_iff_getElem.mp hi
  obtain rfl := Option.some.inj ((List.getElem?_eq_getElem hlt).symm.trans hentry)
  have hkey : lru.entries[i].1 = key := of_decide_eq_true hkey
  refine ⟨i, ?_, ?_⟩
  · rw [List.getElem?_map, hentry]
    exact congrArg some hkey
  · rw [← hkey]

end Lru

/-! ## Steps -/

namespace UsedCache

variable {s t : UsedCache} {capacity : Nat} {held : ChunkKey → Bool} {key : ChunkKey}
  {chunk : List UInt8}

theorem moved_append {uses more : List CacheUse} :
    CacheUse.moved (uses ++ more) = CacheUse.moved uses ++ CacheUse.moved more := by
  simp [CacheUse.moved]

theorem not_mem_keys (h : s.cache.lru.contains key = false) : key ∉ s.keys := by
  intro hmem
  obtain ⟨entry, hentry, rfl⟩ := List.mem_map.mp hmem
  have htrue : s.cache.lru.contains entry.1 = true :=
    List.any_eq_true.mpr ⟨entry, hentry, by simp⟩
  rw [h] at htrue
  cases htrue

theorem kept_new : Kept capacity ⟨.new capacity, []⟩ where
  bounded := rfl
  counted := rfl
  fits := Nat.zero_le _
  sorted := .nil
  spares := Nat.zero_le _

theorem Kept.look (h : s.Kept capacity) : (s.look key).Kept capacity ∧ (s.look key).keys.Perm s.keys := by
  unfold UsedCache.look
  cases hget : s.cache.lru.get key with
  | none => exact ⟨⟨h.bounded, h.counted, h.fits, h.sorted, h.spares⟩, .refl _⟩
  | some found =>
      obtain ⟨i, hi, hnext⟩ := Lru.get_move hget
      obtain ⟨-, hperm, hbytes⟩ := Lru.get_spec hget
      refine ⟨⟨h.bounded, ?_, hbytes.trans_le h.fits, ?_, ?_⟩, hperm.map _⟩
      · dsimp only
        rw [Lru.total_perm hperm, hbytes]
        exact h.counted
      · have hkeys : found.2.entries.map Prod.fst = s.keys.eraseIdx i ++ [key] := by
          rw [hnext, List.map_append, ← List.eraseIdx_map]
          rfl
        rw [moved_append, keys, hkeys]
        exact h.sorted.reuse hi
      · dsimp only
        rw [hnext]
        exact h.spares

theorem Kept.lend (h : s.Kept capacity) : s.lend.Kept capacity where
  bounded := h.bounded
  counted := h.counted
  fits := h.fits
  sorted := h.sorted
  spares := by
    have hlength : s.cache.lru.spare.dropLast.length = s.cache.lru.spare.length - 1 :=
      List.length_dropLast
    exact hlength.trans_le ((Nat.sub_le _ _).trans h.spares)

/-- A chunk that is stored goes to the end, and no more of the others go than have
to for it to fit. -/
theorem Kept.store (h : s.Kept capacity) (hstores : s.cache.stores key chunk = true) :
    ∃ lru k, s.cache.insert held key chunk = some { s.cache with lru } ∧
      Kept capacity ⟨{ s.cache with lru }, s.uses ++ [.stored key]⟩ ∧
      lru.entries = s.cache.lru.entries.drop k ++ [(key, chunk)] ∧
      ∀ j < k, capacity < Lru.total (s.cache.lru.entries.drop j ++ [(key, chunk)]) := by
  obtain rfl := h.bounded
  simp only [DecodeCache.stores, Bool.and_eq_true, Bool.not_eq_true', decide_eq_true_eq] at hstores
  obtain ⟨⟨hcapacity, hlen⟩, habsent⟩ := hstores
  have htotal : s.cache.lru.bytes + chunk.length =
      Lru.total (s.cache.lru.entries ++ [(key, chunk)]) := by
    simp [h.counted, Lru.total]
  obtain ⟨lru, hevict, hcounted, hle, -⟩ := @Lru.evict_spec held
    (s.cache.lru.entries ++ [(key, chunk)]) s.cache.lru.spare s.cache.capacity
  obtain ⟨⟨k, hdrop, hmin⟩, hspares⟩ := Lru.evict_drop h.spares hevict
  have hk : k ≤ s.cache.lru.entries.length := by
    by_contra hlong
    have hall := hmin s.cache.lru.entries.length (by omega)
    rw [List.drop_left] at hall
    simp [Lru.total] at hall
    omega
  rw [List.drop_append_of_le_length hk] at hdrop
  refine ⟨lru, k, ?_, ⟨rfl, hcounted, hle, ?_, hspares⟩, hdrop, ?_⟩
  · rw [DecodeCache.insert, if_neg (by omega), if_neg (by simp [habsent]), Lru.push, htotal, hevict]
    rfl
  · have hkeys : lru.entries.map Prod.fst = s.keys.drop k ++ [key] := by
      rw [hdrop, List.map_append, List.map_drop]
      rfl
    rw [moved_append, keys, hkeys]
    apply (h.sorted.sublist (List.drop_sublist _ _)).use
    exact fun hmem => not_mem_keys habsent (List.mem_of_mem_drop hmem)
  · intro j hj
    have := hmin j hj
    rwa [List.drop_append_of_le_length (by omega)] at this

/-- Any other insert leaves the entries alone. -/
theorem Kept.refuse (h : s.Kept capacity) (hstores : s.cache.stores key chunk = false) :
    ∃ cache, s.cache.insert held key chunk = some cache ∧
      Kept capacity ⟨cache, s.uses ++ useOf s.cache key chunk⟩ ∧
      cache.lru.entries = s.cache.lru.entries := by
  have hmoved : CacheUse.moved (useOf s.cache key chunk) = [] := by
    unfold useOf
    rw [if_neg (by simp [hstores])]
    split <;> rfl
  have hkept : ∀ cache : DecodeCache, cache.capacity = s.cache.capacity → cache.lru = s.cache.lru →
      Kept capacity ⟨cache, s.uses ++ useOf s.cache key chunk⟩ := by
    intro cache hcapacity hlru
    constructor
    · exact hcapacity.trans h.bounded
    · rw [hlru]
      exact h.counted
    · rw [hlru]
      exact h.fits
    · rw [moved_append, hmoved, List.append_nil, keys, hlru]
      exact h.sorted
    · rw [hlru]
      exact h.spares
  unfold DecodeCache.insert
  split
  · exact ⟨_, rfl, hkept _ rfl rfl, rfl⟩
  split
  · exact ⟨_, rfl, hkept _ rfl rfl, rfl⟩
  · rename_i hsize hpresent
    rw [not_or] at hsize
    simp [DecodeCache.stores, hsize.1, Nat.le_of_not_lt hsize.2, hpresent] at hstores

/-- What a step does to the entries.  Only a chunk that is stored evicts others: the
first ones, and no more of them than have to go for it to fit. -/
def Evicts (s t : UsedCache) : CacheOp → Prop
  | .look _ | .lend => t.keys.Perm s.keys
  | .insert _ key chunk =>
      if s.cache.stores key chunk then
        ∃ k, t.cache.lru.entries = s.cache.lru.entries.drop k ++ [(key, chunk)] ∧
          ∀ j < k, s.cache.capacity < Lru.total (s.cache.lru.entries.drop j ++ [(key, chunk)])
      else t.cache.lru.entries = s.cache.lru.entries

/-- Every step goes through, evicts as it should and keeps what holds. -/
theorem Kept.step (h : s.Kept capacity) (op : CacheOp) :
    ∃ t, s.step op = some t ∧ t.Kept capacity ∧ s.Evicts t op := by
  cases op with
  | look key => exact ⟨_, rfl, h.look⟩
  | lend => exact ⟨_, rfl, h.lend, .refl _⟩
  | insert held key chunk =>
      cases hstores : s.cache.stores key chunk with
      | true =>
          obtain ⟨lru, k, hinsert, hkept, hentries, hmin⟩ := @Kept.store s capacity held key _ h hstores
          refine ⟨_, by rw [UsedCache.step, hinsert]; rfl, ?_, ?_⟩
          · rw [useOf, if_pos hstores]
            exact hkept
          · rw [Evicts, if_pos hstores, h.bounded]
            exact ⟨k, hentries, hmin⟩
      | false =>
          obtain ⟨cache, hinsert, hkept, hentries⟩ := @Kept.refuse s capacity held key _ h hstores
          refine ⟨_, by rw [UsedCache.step, hinsert]; rfl, hkept, ?_⟩
          rw [Evicts, if_neg (by simp [hstores])]
          exact hentries

theorem inductive_kept (capacity : Nat) :
    (system capacity).Inductive (fun _ _ => True) (Kept capacity) where
  init := by
    rintro s rfl
    exact kept_new
  step := by
    intro s t op hs _ hstep
    obtain ⟨t', hstep', hkept, -⟩ := hs.step op
    have hsame : some t = some t' := hstep.symm.trans hstep'
    cases hsame
    exact hkept

/-- Outside the lock, whatever was done under it, the bytes are those of the entries
and fit, no key is there twice, the entries stand in the order of their last hit or
of the insert that stored them, and no more buffers are kept than may be; and no
step panics or evicts more than it has to. -/
theorem kept_of_reachable (capacity : Nat) (s : UsedCache) (h : (system capacity).Reachable s) :
    (s.cache.lru.bytes = Lru.total s.cache.lru.entries ∧ s.cache.lru.bytes ≤ capacity) ∧
      s.keys.Nodup ∧ Sorted (CacheUse.moved s.uses) s.keys ∧
      s.cache.lru.spare.length ≤ maxSpares ∧
      ∀ op, ∃ t, s.step op = some t ∧ s.Evicts t op := by
  have hkept := (inductive_kept capacity).holds h
  refine ⟨⟨hkept.counted, hkept.fits⟩, hkept.sorted.nodup, hkept.sorted, hkept.spares, ?_⟩
  intro op
  obtain ⟨t, hstep, -, hevicts⟩ := hkept.step op
  exact ⟨t, hstep, hevicts⟩

/-- Two chunks, the first of which two threads decoded at once. -/
def racedTwice : UsedCache where
  cache := { DecodeCache.new 4 with
    lru   := ⟨[((0, 0), [1, 1]), ((0, 1), [2])], 3, []⟩
    races := 1 }
  uses := [.stored (0, 0), .stored (0, 1), .raced (0, 0)]

theorem racedTwice_reachable : (system 4).Reachable racedTwice :=
  System.reachable_of_run [.insert (fun _ => false) (0, 0) [1, 1],
    .insert (fun _ => false) (0, 1) [2], .insert (fun _ => false) (0, 0) [1, 1]] rfl

theorem kept_of_reachable_raced :
    (racedTwice.cache.lru.bytes = Lru.total racedTwice.cache.lru.entries ∧
        racedTwice.cache.lru.bytes ≤ 4) ∧
      racedTwice.keys.Nodup ∧ Sorted (CacheUse.moved racedTwice.uses) racedTwice.keys ∧
      racedTwice.cache.lru.spare.length ≤ maxSpares ∧
      ∀ op, ∃ t, racedTwice.step op = some t ∧ racedTwice.Evicts t op :=
  kept_of_reachable 4 racedTwice racedTwice_reachable

/-- An insert of a chunk that is already there does not move it: the entries are not
in the order of the last hit or insert of any kind. -/
theorem raced_insert_unmoved : ¬ ∀ capacity s, (system capacity).Reachable s →
    Sorted (s.uses.map CacheUse.key) s.keys := by
  intro h
  have hsorted := h 4 racedTwice racedTwice_reachable
  have hage := (List.pairwise_cons.mp hsorted).1 (0, 1) (by decide)
  exact absurd hage (by decide)

end UsedCache

end Aex
