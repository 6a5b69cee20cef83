import Aex.Core.Backends.ChunkWalk
import Aex.Core.Backends.DecodeCache
import Aex.Core.Selection.Faults

/-!
# Reads of chunks that may not decode

A chunk that does not decode fails every read that needs it, whatever is in the cache,
and leaves the other chunks as they are.
-/

namespace Aex

open Triple (Yields YieldsOr)

/-! ## A chunk through the cache -/

/-- The bytes of a chunk, if it decodes. -/
def blockOf (decoded : Nat → Except Halt (List UInt8)) (chunk k : Nat) : UInt8 :=
  ((decoded chunk).toOption.getD []).getD k 0

section Cache

variable {valid : ChunkKey → List UInt8 → Prop} {held : ChunkKey → Bool} {cache : DecodeCache}
  {key : ChunkKey} {start len : Nat} {decode : List UInt8 → Except Halt (List UInt8)}

theorem DecodeCache.getOrDecode_error {e : Halt} (hmiss : cache.lru.get key = none)
    (hdecode : ∀ spare, decode spare = .error e) : getOrDecode held key decode cache = .error e := by
  have hset : ∀ c : DecodeCache, (StateT.set c : Run DecodeCache PUnit) cache = .ok (⟨⟩, c) :=
    fun _ => rfl
  simp only [DecodeCache.getOrDecode, bind, StateT.bind, get, getThe, MonadStateOf.get, StateT.get,
    set, pure, Except.pure, Except.bind, hmiss, liftM, monadLift, MonadLift.monadLift, StateT.lift,
    hdecode]
  rw [hset]

/-- A chunk is cached only if it decodes, and a read of it gives what it decodes to or fails
as it does. -/
theorem DecodeCache.Consistent.readIntoOr {decoded : Except Halt (List UInt8)} {size : Nat}
    {P : AexError → Prop} (h : cache.Consistent valid) (hvalid : ∀ out, valid key out ↔ decoded = .ok out)
    (hdecode : ∀ spare, decode spare = decoded)
    (hcases : (∃ chunk, decoded = .ok chunk ∧ chunk.length = size) ∨ ∃ e, decoded = .error (.error e))
    (hinside : start + len ≤ size) (hfails : ∀ e, decoded = .error (.error e) → P e) :
    YieldsOr (fun halt => ∃ e, P e ∧ halt = .error e)
      (DecodeCache.readInto held key start len decode) cache fun out next =>
        out = (List.range' start len).map (fun k => (decoded.toOption.getD []).getD k 0) ∧
          next.Consistent valid := by
  cases hcases with
  | inl hok =>
      obtain ⟨chunk, rfl, rfl⟩ := hok
      left
      have hiff : ∀ out, valid key out ↔ out = chunk := by
        intro out
        rw [hvalid, Except.ok.injEq]
        exact eq_comm
      apply (h.readInto hiff hdecode hinside).mono
      intro out next hout
      refine ⟨?_, hout.2⟩
      rw [hout.1, Vec.slice_eq_map hinside]
      rfl
  | inr hfail =>
      obtain ⟨e, rfl⟩ := hfail
      right
      refine ⟨.error e, ⟨e, hfails e rfl, rfl⟩, ?_⟩
      have hmiss : cache.lru.get key = none := by
        cases hget : cache.lru.get key with
        | none => rfl
        | some hit =>
            have hmem := (Lru.get_spec hget).1
            have hcached := (hvalid hit.1).mp (h.valid _ hmem)
            cases hcached
      show (DecodeCache.getOrDecode held key decode cache >>= fun p => _) = _
      rw [getOrDecode_error hmiss hdecode]
      rfl

end Cache

/-! ## A walk over such chunks -/

/-- A walk reads what the places of its range hold, or fails as one of its pieces does. -/
theorem ChunkGrid.Sound.walk_readsOr {g : ChunkGrid} (h : g.Sound) (block : Nat → Nat → UInt8)
    {offset len : Nat} (hfits : 0 < len → g.itemsize < Word.size 64)
    (hrange : offset + len ≤ g.shape.prod * g.itemsize) (hend : offset + len ≤ Word.size 64)
    {σ : Type} {inv : σ → Prop} {fail : Halt → Prop} {read : Piece → Run σ (List UInt8)}
    {fuel : Nat} {s : σ} (hfuel : len ≤ fuel) (hs : inv s)
    (hread : ∀ p s, p.chunk < g.chunks → p.start + p.len ≤ g.chunkBytes → p.len ≤ len → inv s →
      YieldsOr fail (read p) s fun out s' =>
        out = (List.range' p.start p.len).map (block p.chunk) ∧ inv s') :
    YieldsOr fail (g.walk read fuel offset len) s fun out s' =>
      out = ((List.range' offset len).map fun j => block (g.place j).1 (g.place j).2) ∧ inv s' := by
  obtain ⟨pieces, hfollows, hinside, -, hwalk⟩ := h.walk_eq hfits hrange hend
  rw [hwalk read fuel hfuel]
  apply Triple.YieldsOr.map (Triple.yieldsOr_mapM
    (g := fun p : Piece => (List.range' p.start p.len).map (block p.chunk)) hs ?_)
  · intro outs s' houts
    refine ⟨?_, houts.2⟩
    rw [houts.1, Follows.bytes hfollows, Nat.add_sub_cancel_left]
  · intro p hp s hs
    have hpiece := hinside p hp
    have hlen := Follows.len_le hfollows p hp
    exact hread p s hpiece.1 hpiece.2 (by omega) hs

/-! ## A source that is read so -/

/-- The reads of a range by code with a state, which every read finds as others left it.  A
read of a range that is not served stands for a panic. -/
def ReadSrc.ofRun {σ : Type} (read : Nat → Nat → Run σ (List UInt8)) (found : Nat → Nat → σ) :
    ReadSrc UInt8 := fun offset len =>
  match read offset len (found offset len) with
  | .ok (bytes, _) =>
      if h : bytes.length = len then .ok ⟨bytes.toArray, h⟩
      else .error (.badSelection "a read changed the length of its buffer")
  | .error (.error e) => .error e
  | .error _ => .error (.badSelection "a read panicked")

theorem ReadSrc.ofRun_servesOr {σ : Type} {read : Nat → Nat → Run σ (List UInt8)}
    {found : Nat → Nat → σ} {src : Nat → UInt8} {size : Nat} {P : AexError → Prop}
    {post : σ → Prop}
    (h : ∀ offset len, offset + len ≤ size → offset + len < Word.size 64 →
      YieldsOr (fun halt => ∃ e, P e ∧ halt = .error e) (read offset len) (found offset len)
        fun out s => out = bytesAt src offset len ∧ post s) :
    (ReadSrc.ofRun read found).ServesOr src size P := by
  intro offset len hsize hword
  unfold ofRun
  cases h offset len hsize hword with
  | inl hok =>
      obtain ⟨out, s, hrun, hout, -⟩ := hok
      have hlen : out.length = len := by rw [hout, bytesAt, List.length_map, List.length_range']
      left
      rw [hrun]
      dsimp only
      rw [dif_pos hlen]
      exact ⟨_, rfl, hout⟩
  | inr hfail =>
      obtain ⟨_, ⟨e, he, rfl⟩, hrun⟩ := hfail
      right
      rw [hrun]
      exact ⟨e, he, rfl⟩

end Aex
