import Aex.Lib.Triple
import Aex.Lib.Vec
import Aex.Core.Backends.Chunks

/-!
# Decoded chunks kept between reads

A byte-bounded list of decoded chunks, the least recently used first.  The buffer of
an evicted chunk is kept and lent to the next decode.
-/

namespace Aex

/-- Identifies one storage chunk: which dataset, and which chunk of it. -/
abbrev ChunkKey := Nat × Nat

/-- Buffers kept back for the next decode. -/
def maxSpares : Nat := 32

/-- What the lock of a cache guards. -/
structure Lru where
  /-- Least recently used first. -/
  entries : List (ChunkKey × List UInt8)
  /-- Different buffers of one address space, so their sizes add up without wrapping. -/
  bytes : Nat
  /-- Buffers of evicted chunks, waiting to be lent out again. -/
  spare : List (List UInt8)

namespace Lru

/-- The chunk at `key`, which is then the most recently used. -/
def get (lru : Lru) (key : ChunkKey) : Option (List UInt8 × Lru) := do
  let i ← lru.entries.findIdx? fun entry => entry.1 = key
  let entry ← lru.entries[i]?
  some (entry.2, { lru with entries := lru.entries.eraseIdx i ++ [entry] })

/-- A buffer for the next decode: an evicted chunk's, or a new one. -/
def takeSpare (lru : Lru) : List UInt8 × Lru :=
  (lru.spare.getLast?.getD [], { lru with spare := lru.spare.dropLast })

/-- Evict until the bytes fit, unless there is nothing left to evict.  A chunk that is
`held` is still being read, and its buffer is not kept. -/
def evict (capacity : Nat) (held : ChunkKey → Bool) :
    List (ChunkKey × List UInt8) → Nat → List (List UInt8) → Option Lru
  | entries, bytes, spare =>
      if bytes ≤ capacity then some ⟨entries, bytes, spare⟩
      else
        match entries with
        | [] => none
        | (key, evicted) :: entries =>
            evict capacity held entries (bytes - evicted.length)
              (if spare.length < maxSpares ∧ !held key then spare ++ [evicted] else spare)

/-- Whether a chunk is there. -/
def contains (lru : Lru) (key : ChunkKey) : Bool := lru.entries.any fun entry => entry.1 = key

/-- Add a chunk that is not there yet. -/
def push (capacity : Nat) (held : ChunkKey → Bool) (lru : Lru) (key : ChunkKey)
    (chunk : List UInt8) : Option Lru :=
  evict capacity held (lru.entries ++ [(key, chunk)]) (lru.bytes + chunk.length) lru.spare

end Lru

/-- A cache holding at most `capacity` decoded bytes.  Zero disables it. -/
structure DecodeCache where
  capacity : Nat
  lru : Lru
  hits : Nat
  misses : Nat
  /-- Chunks two threads decoded at once. -/
  races : Nat
  /-- Hands out dataset keys. -/
  nextKey : Nat

namespace DecodeCache

def new (capacity : Nat) : DecodeCache := ⟨capacity, ⟨[], 0, []⟩, 0, 0, 0, 0⟩

/-- A key no other dataset using this cache has. -/
def newKey (cache : DecodeCache) : Nat × DecodeCache :=
  (cache.nextKey, { cache with nextKey := Word.wrappingAdd 64 cache.nextKey 1 })

/-- Keep a chunk that was decoded. -/
def insert (held : ChunkKey → Bool) (cache : DecodeCache) (key : ChunkKey) (chunk : List UInt8) :
    Option DecodeCache :=
  if cache.capacity = 0 ∨ cache.capacity < chunk.length then some cache
  -- Another thread decoded it too.
  else if cache.lru.contains key then
    some { cache with races := Word.wrappingAdd 64 cache.races 1 }
  else do
    let lru ← cache.lru.push cache.capacity held key chunk
    some { cache with lru }

/-- The decoded chunk at `key`, decoding it with `decode` on a miss. -/
def getOrDecode (held : ChunkKey → Bool) (key : ChunkKey)
    (decode : List UInt8 → Except Halt (List UInt8)) : Run DecodeCache (List UInt8) := do
  let cache ← get
  match cache.lru.get key with
  | some (hit, lru) => do
      set { cache with lru, hits := Word.wrappingAdd 64 cache.hits 1 }
      pure hit
  | none => do
      let (spare, lru) := cache.lru.takeSpare
      let cache := { cache with lru, misses := Word.wrappingAdd 64 cache.misses 1 }
      set cache
      let chunk ← liftM (decode spare)
      match cache.insert held key chunk with
      | none => throw .panic
      | some cache => do
          set cache
          pure chunk

/-- The `len` bytes from `start` on of the decoded chunk at `key`. -/
def readInto (held : ChunkKey → Bool) (key : ChunkKey) (start len : Nat)
    (decode : List UInt8 → Except Halt (List UInt8)) : Run DecodeCache (List UInt8) := do
  let decoded ← getOrDecode held key decode
  if decoded.length < start + len then throw .panic
  else pure (Vec.slice decoded start len)

end DecodeCache

/-! ## What a cache keeps to -/

/-- The bytes of some entries. -/
def Lru.total (entries : List (ChunkKey × List UInt8)) : Nat :=
  (entries.map fun entry => entry.2.length).sum

/-- The bytes are counted and fit, and every chunk is a `valid` one for its key. -/
structure DecodeCache.Consistent (valid : ChunkKey → List UInt8 → Prop) (cache : DecodeCache) :
    Prop where
  counted : cache.lru.bytes = Lru.total cache.lru.entries
  fits : cache.lru.bytes ≤ cache.capacity
  valid : ∀ entry ∈ cache.lru.entries, valid entry.1 entry.2

section Cache

variable {valid : ChunkKey → List UInt8 → Prop} {held : ChunkKey → Bool} {cache : DecodeCache}
  {lru : Lru} {entries : List (ChunkKey × List UInt8)} {spare : List (List UInt8)}
  {key : ChunkKey} {chunk : List UInt8} {capacity start len : Nat}
  {decode : List UInt8 → Except Halt (List UInt8)}

namespace Lru

/-- A hit is the entry of its key, and only moves it. -/
theorem get_spec {next : Lru} (h : lru.get key = some (chunk, next)) :
    (key, chunk) ∈ lru.entries ∧ next.entries.Perm lru.entries ∧ next.bytes = lru.bytes := by
  simp only [get, Option.bind_eq_bind, Option.bind_eq_some_iff] at h
  obtain ⟨i, hi, entry, hentry, h⟩ := h
  cases h
  obtain ⟨hlt, hkey, -⟩ := List.findIdx?_eq_some_iff_getElem.mp hi
  obtain rfl := Option.some.inj ((List.getElem?_eq_getElem hlt).symm.trans hentry)
  refine ⟨?_, ?_, rfl⟩
  · rw [← of_decide_eq_true hkey]
    exact List.getElem_mem hlt
  · exact (List.perm_append_singleton _ _).trans (List.getElem_cons_eraseIdx_perm hlt)

theorem total_perm {more : List (ChunkKey × List UInt8)} (h : entries.Perm more) :
    total entries = total more :=
  (h.map _).sum_eq

/-- Eviction stops with the bytes inside the capacity, and only takes entries out. -/
theorem evict_spec :
    ∃ next, evict capacity held entries (total entries) spare = some next ∧
      next.bytes = total next.entries ∧ next.bytes ≤ capacity ∧ next.entries <:+ entries := by
  induction entries generalizing spare with
  | nil => exact ⟨⟨[], 0, spare⟩, by simp [evict, total], rfl, Nat.zero_le _, List.suffix_rfl⟩
  | cons entry entries ih =>
      unfold evict
      by_cases hfits : total (entry :: entries) ≤ capacity
      · exact ⟨_, if_pos hfits, rfl, hfits, List.suffix_rfl⟩
      · rw [if_neg hfits]
        have hrest : total (entry :: entries) - entry.2.length = total entries := by
          simp [total]
        dsimp only
        rw [hrest]
        obtain ⟨next, hevict, hcounted, hle, hsuffix⟩ := ih
        exact ⟨next, hevict, hcounted, hle, hsuffix.trans (List.suffix_cons _ _)⟩

end Lru

namespace DecodeCache

/-- An empty cache. -/
theorem new_consistent : (new capacity).Consistent valid := ⟨rfl, Nat.zero_le _, by simp [new]⟩

theorem Consistent.insert (h : cache.Consistent valid) (hchunk : valid key chunk) :
    ∃ next, cache.insert held key chunk = some next ∧ next.Consistent valid := by
  unfold DecodeCache.insert
  split
  · exact ⟨cache, rfl, h⟩
  split
  · exact ⟨_, rfl, h.counted, h.fits, h.valid⟩
  · have htotal : cache.lru.bytes + chunk.length = Lru.total (cache.lru.entries ++ [(key, chunk)]) := by
      simp [h.counted, Lru.total]
    obtain ⟨next, hevict, hcounted, hle, hsuffix⟩ := @Lru.evict_spec held
      (cache.lru.entries ++ [(key, chunk)]) cache.lru.spare cache.capacity
    refine ⟨{ cache with lru := next }, ?_, hcounted, hle, ?_⟩
    · unfold Lru.push
      rw [htotal, hevict]
      rfl
    · intro entry hentry
      rcases List.mem_append.mp (hsuffix.subset hentry) with hold | hnew
      · exact h.valid entry hold
      · obtain rfl := List.mem_singleton.mp hnew
        exact hchunk

/-- A chunk comes out as one that is valid for its key, whether it was there or not. -/
theorem Consistent.getOrDecode (h : cache.Consistent valid)
    (hdecode : ∀ spare, ∃ out, decode spare = .ok out ∧ valid key out) :
    Triple.Yields (getOrDecode held key decode) cache fun out next =>
      valid key out ∧ next.Consistent valid := by
  cases hget : cache.lru.get key with
  | some hit =>
      obtain ⟨hmem, hperm, hbytes⟩ := Lru.get_spec hget
      refine ⟨hit.1, { cache with lru := hit.2, hits := Word.wrappingAdd 64 cache.hits 1 }, ?_,
        h.valid _ hmem, ?_, hbytes ▸ h.fits, ?_⟩
      · simp only [DecodeCache.getOrDecode, bind, StateT.bind, get, getThe, MonadStateOf.get,
          StateT.get, set, pure, Except.pure, Except.bind, hget]
        rfl
      · rw [Lru.total_perm hperm]
        exact hbytes.trans h.counted
      · intro entry hentry
        exact h.valid entry (hperm.subset hentry)
  | none =>
      obtain ⟨out, hout, hvalid⟩ := hdecode cache.lru.takeSpare.1
      have hmissed : Consistent valid { cache with
          lru := cache.lru.takeSpare.2, misses := Word.wrappingAdd 64 cache.misses 1 } :=
        ⟨h.counted, h.fits, h.valid⟩
      obtain ⟨next, hinsert, hnext⟩ := @Consistent.insert _ held _ _ _ hmissed hvalid
      refine ⟨out, next, ?_, hvalid, hnext⟩
      simp only [DecodeCache.getOrDecode, bind, StateT.bind, get, getThe, MonadStateOf.get,
        StateT.get, set, pure, Except.pure, Except.bind, hget, liftM, monadLift,
        MonadLift.monadLift, StateT.lift, hout]
      have hset : ∀ c : DecodeCache, (StateT.set c : Run DecodeCache PUnit) cache = .ok (⟨⟩, c) :=
        fun _ => rfl
      rw [hset]
      dsimp only
      rw [hinsert]
      rfl

/-- The bytes of a read are those of the chunk, when the chunk has them. -/
theorem Consistent.readInto {decoded : List UInt8} (h : cache.Consistent valid)
    (hvalid : ∀ out, valid key out ↔ out = decoded)
    (hdecode : ∀ spare, decode spare = .ok decoded) (hlen : start + len ≤ decoded.length) :
    Triple.Yields (readInto held key start len decode) cache fun out next =>
      out = Vec.slice decoded start len ∧ next.Consistent valid := by
  apply Triple.Yields.bind (h.getOrDecode fun spare => ⟨decoded, hdecode spare, (hvalid _).mpr rfl⟩)
  intro out next hout
  obtain ⟨hout, hnext⟩ := hout
  obtain rfl := (hvalid out).mp hout
  rw [if_neg (Nat.not_lt.mpr hlen)]
  exact Triple.yields_pure ⟨rfl, hnext⟩

end DecodeCache

end Cache

end Aex
