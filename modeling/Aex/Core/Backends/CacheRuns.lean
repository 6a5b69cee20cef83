import Aex.Core.Backends.DecodeCache
import Aex.Lib.System
import Aex.Lib.Threads

/-!
# Threads that share a cache

The reads of any number of threads, with their steps apart.  Chunks are buffers in a
heap, so that one can be lent out or evicted while another thread copies from it.
Only the look at a cache and the insert hold its lock.
-/

namespace Aex

open Lts

namespace SharedCache

/-- A buffer, by where it is in the heap. -/
abbrev Buffer := Nat

/-- What the lock of a cache guards. -/
structure Shelf where
  /-- Least recently used first. -/
  entries : List (ChunkKey × Buffer)
  bytes : Nat
  spare : List Buffer
  deriving Repr, DecidableEq

namespace Shelf

/-- The chunk at `key`, which is then the most recently used. -/
def get (shelf : Shelf) (key : ChunkKey) : Option (Buffer × Shelf) := do
  let i ← shelf.entries.findIdx? fun entry => entry.1 = key
  let entry ← shelf.entries[i]?
  some (entry.2, { shelf with entries := shelf.entries.eraseIdx i ++ [entry] })

/-- Evict until the bytes fit.  `held` says which buffers threads hold handles of; one
that is in no other hands is kept. -/
def evict (capacity : Nat) (size : Buffer → Nat) (held : Buffer → Bool) :
    List (ChunkKey × Buffer) → Nat → List Buffer → Option Shelf
  | entries, bytes, spare =>
      if bytes ≤ capacity then some ⟨entries, bytes, spare⟩
      else
        match entries with
        | [] => none
        | (_, evicted) :: entries =>
            evict capacity size held entries (bytes - size evicted)
              (if spare.length < maxSpares ∧ !held evicted ∧ ∀ entry ∈ entries, entry.2 ≠ evicted
                then spare ++ [evicted] else spare)

end Shelf

/-- A read of `len` bytes from `start` on of the chunk at `key`. -/
structure Call where
  key : ChunkKey
  start : Nat
  len : Nat
  deriving Repr, DecidableEq

/-- Where a thread is. -/
inductive Pc where
  | called (call : Call)
  | missed (call : Call)
  /-- Decoding, with a buffer that was lent. -/
  | decoding (call : Call) (lent : Buffer)
  | inserting (call : Call) (chunk : Buffer)
  /-- With the bytes copied so far. -/
  | copying (call : Call) (chunk : Buffer) (out : List UInt8)
  | returned (call : Call) (out : List UInt8)
  | failed (call : Call) (e : AexError)
  | panicked (call : Call)
  deriving Repr, DecidableEq

/-- A cache and the threads using it.  No code reads `failures`, the errors of the
decodes that failed, by thread. -/
structure State where
  heap : List (List UInt8)
  shelf : Shelf
  hits : Nat
  misses : Nat
  races : Nat
  threads : List Pc
  failures : List (Nat × AexError)
  deriving Repr, DecidableEq

inductive Label where
  | call (call : Call)
  /-- The next step of a thread that is not decoding. -/
  | act (thread : Nat)
  /-- A decode writes into the buffer it was lent, in any way. -/
  | write (thread : Nat) (bytes : List UInt8)
  | fail (thread : Nat) (e : AexError)
  /-- A decode ends, with the chunk in the buffer it was lent or in one of its own. -/
  | decoded (thread : Nat) (elsewhere : Bool)
  deriving Repr, DecidableEq

/-- The buffer a thread may write to. -/
def Pc.lent : Pc → Option Buffer
  | .decoding _ lent => some lent
  | _ => none

/-- The chunk a thread holds a handle of, and what for. -/
def Pc.reads : Pc → Option (Call × Buffer)
  | .inserting call chunk | .copying call chunk _ => some (call, chunk)
  | _ => none

namespace State

variable (s : State)

def new : State := ⟨[], ⟨[], 0, []⟩, 0, 0, 0, [], []⟩

def size (b : Buffer) : Nat := (s.heap.getD b []).length

def held (b : Buffer) : Bool := s.threads.any fun pc => pc.reads.any (·.2 = b)

def goTo (i : Nat) (pc : Pc) : State := { s with threads := s.threads.set i pc }

/-- A buffer for the next decode: an evicted chunk's, or a new one. -/
def takeSpare : Buffer × State :=
  match s.shelf.spare.getLast? with
  | some b => (b, { s with shelf := { s.shelf with spare := s.shelf.spare.dropLast } })
  | none => (s.heap.length, { s with heap := s.heap ++ [[]] })

/-- Keep a chunk that was decoded. -/
def insert (capacity : Nat) (key : ChunkKey) (chunk : Buffer) : Option State :=
  if capacity = 0 ∨ capacity < s.size chunk then some s
  else if s.shelf.entries.any fun entry => entry.1 = key then
    some { s with races := Word.wrappingAdd 64 s.races 1 }
  else
    (Shelf.evict capacity s.size s.held (s.shelf.entries ++ [(key, chunk)])
      (s.shelf.bytes + s.size chunk) s.shelf.spare).map fun shelf => { s with shelf }

/-- One step of a copy: the range is checked, then it goes byte by byte. -/
def copy (call : Call) (chunk : Buffer) (out : List UInt8) : Pc :=
  let bytes := s.heap.getD chunk []
  if bytes.length < call.start + call.len then .panicked call
  else if call.len ≤ out.length then .returned call out
  else .copying call chunk (out ++ [bytes.getD (call.start + out.length) 0])

/-- The next step of a thread that is not decoding. -/
def act (capacity i : Nat) : Pc → Option State
  | .called call =>
      match s.shelf.get call.key with
      | some (chunk, shelf) =>
          some ({ s with shelf, hits := Word.wrappingAdd 64 s.hits 1 }.goTo i (.copying call chunk []))
      | none => some
          ({ s with misses := Word.wrappingAdd 64 s.misses 1 }.goTo i (.missed call))
  | .missed call =>
      let (lent, t) := s.takeSpare
      some (t.goTo i (.decoding call lent))
  | .inserting call chunk =>
      match s.insert capacity call.key chunk with
      | some t => some (t.goTo i (.copying call chunk []))
      | none => some (s.goTo i (.panicked call))
  | .copying call chunk out => some (s.goTo i (s.copy call chunk out))
  | _ => none

end State

/-- The steps on a cache of a capacity.  Whatever buffer a decode is lent, it fails or
ends with the content of its chunk. -/
def next (capacity : Nat) (content : ChunkKey → List UInt8) (s : State) : Label → Option State
  | .call call => some { s with threads := s.threads ++ [.called call] }
  | .act i => s.threads[i]?.bind (s.act capacity i)
  | .write i bytes =>
      match s.threads[i]? with
      | some (.decoding _ lent) => some { s with heap := s.heap.set lent bytes }
      | _ => none
  | .fail i e =>
      match s.threads[i]? with
      | some (.decoding call _) =>
          some ({ s with failures := (i, e) :: s.failures }.goTo i (.failed call e))
      | _ => none
  | .decoded i elsewhere =>
      match s.threads[i]? with
      | some (.decoding call lent) =>
          if elsewhere then
            some ({ s with heap := s.heap ++ [content call.key] }.goTo i
              (.inserting call s.heap.length))
          else
            some ({ s with heap := s.heap.set lent (content call.key) }.goTo i (.inserting call lent))
      | _ => none

def system (capacity : Nat) (content : ChunkKey → List UInt8) : System State Label :=
  .ofFn .new (next capacity content)

/-! ## Without the other threads -/

/-- The cache as one thread sees it, with the content of each buffer in its place. -/
def State.contents (s : State) : Lru where
  entries := s.shelf.entries.map fun entry => (entry.1, s.heap.getD entry.2 [])
  bytes := s.shelf.bytes
  spare := s.shelf.spare.map fun b => s.heap.getD b []

section Contents

variable {heap : List (List UInt8)} {capacity bytes : Nat} {held : Buffer → Bool}
  {entries : List (ChunkKey × Buffer)} {spare : List Buffer} {s : State} {key : ChunkKey}

/-- Evicting buffers evicts their contents, when no buffer is there twice. -/
theorem evict_contents {heldKey : ChunkKey → Bool}
    (hheld : ∀ entry ∈ entries, heldKey entry.1 = held entry.2)
    (hnodup : (entries.map Prod.snd).Nodup) :
    (Shelf.evict capacity (fun b => (heap.getD b []).length) held entries bytes spare).map
        (fun shelf => (⟨shelf.entries.map fun entry => (entry.1, heap.getD entry.2 []), shelf.bytes,
          shelf.spare.map fun b => heap.getD b []⟩ : Lru)) =
      Lru.evict capacity heldKey (entries.map fun entry => (entry.1, heap.getD entry.2 [])) bytes
        (spare.map fun b => heap.getD b []) := by
  induction entries generalizing bytes spare with
  | nil =>
      unfold Shelf.evict Lru.evict
      split
      · rfl
      · rfl
  | cons entry entries ih =>
      rw [List.forall_mem_cons] at hheld
      rw [List.map_cons, List.nodup_cons] at hnodup
      have hrest : ∀ other ∈ entries, other.2 ≠ entry.2 := fun other hother heq =>
        hnodup.1 (List.mem_map.mpr ⟨other, hother, heq⟩)
      unfold Shelf.evict Lru.evict
      split
      · rfl
      · rw [List.map_cons]
        dsimp only
        rw [ih hheld.2 hnodup.2, hheld.1, List.length_map]
        congr 1
        by_cases hkeep : spare.length < maxSpares ∧ !held entry.2
        · rw [if_pos ⟨hkeep.1, hkeep.2, hrest⟩, if_pos hkeep, List.map_append]
          rfl
        · rw [if_neg fun h => hkeep ⟨h.1, h.2.1⟩, if_neg hkeep]

theorem get_contents : (s.shelf.get key).map (fun found =>
    (s.heap.getD found.1 [], ({ s with shelf := found.2 } : State).contents)) =
      s.contents.get key := by
  simp only [Shelf.get, Lru.get, State.contents, List.findIdx?_map, Function.comp_def,
    Option.bind_eq_bind]
  cases s.shelf.entries.findIdx? fun entry => decide (entry.1 = key) with
  | none => rfl
  | some i =>
      simp only [Option.bind_some, List.getElem?_map]
      cases s.shelf.entries[i]? with
      | none => rfl
      | some entry => simp [List.eraseIdx_map]

end Contents

end SharedCache

end Aex
