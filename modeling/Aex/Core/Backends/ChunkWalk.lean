import Mathlib.Algebra.BigOperators.Ring.List
import Mathlib.Tactic.Linarith
import Aex.Lib.Triple
import Aex.Core.Backends.Chunks

/-!
# A walk reassembles the array

Every byte of the array has a place: the chunk that holds its element, and an offset
in that chunk's padded block.  A walk calls back with runs of places that follow the
array's bytes one by one.
-/

namespace Aex

/-! ## The index arithmetic is exact -/

section Linear

variable {pos dims : List Nat} {n acc : Nat}

theorem linear_step (h : Radix.Within pos dims) (hacc : (acc + 1) * dims.prod ≤ Word.size 64) :
    (pos.zip dims).foldlM (fun n (c, d) => if d ≤ c then none
      else some (Word.wrappingAdd 64 (Word.wrappingMul 64 n d) c)) acc =
        some (acc * dims.prod + Radix.flat pos dims) ∧
    (pos.zip dims).foldl (fun n (c, d) => Word.wrappingAdd 64 (Word.wrappingMul 64 n d) c) acc =
        acc * dims.prod + Radix.flat pos dims := by
  induction h generalizing acc with
  | nil => simp
  | @cons c d pos dims hlt hwithin ih =>
      have hpos := Radix.prod_pos (Radix.Within.dims_pos hwithin)
      rw [List.prod_cons, ← Nat.mul_assoc] at hacc
      have hroom : (acc + 1) * d ≤ Word.size 64 := le_trans (Nat.le_mul_of_pos_right _ hpos) hacc
      have hnext : acc * d + c + 1 ≤ (acc + 1) * d := by
        rw [Nat.succ_mul]
        omega
      have hexact : Word.wrappingAdd 64 (Word.wrappingMul 64 acc d) c = acc * d + c := by
        rw [Word.wrappingMul_of_lt (by omega), Word.wrappingAdd_of_lt (by omega)]
      have hrest := @ih (acc * d + c) (le_trans (Nat.mul_le_mul_right _ hnext) hacc)
      have hflat : (acc * d + c) * dims.prod + Radix.flat pos dims =
          acc * (d * dims.prod) + (c * dims.prod + Radix.flat pos dims) := by
        ring
      rw [List.zip_cons_cons, List.foldlM_cons, List.foldl_cons, List.prod_cons, Radix.flat]
      simp only [if_neg (Nat.not_le.mpr hlt), hexact, Option.bind_eq_bind, Option.bind_some]
      rwa [← hflat]

theorem linear_eq (h : Radix.Within pos dims) (hprod : dims.prod ≤ Word.size 64) :
    linear pos dims = some (Radix.flat pos dims) := by
  have := (linear_step h (show (0 + 1) * dims.prod ≤ Word.size 64 by simpa using hprod)).1
  simpa [linear] using this

theorem linearUnchecked_eq (h : Radix.Within pos dims) (hprod : dims.prod ≤ Word.size 64) :
    linearUnchecked pos dims = Radix.flat pos dims := by
  have := (linear_step h (show (0 + 1) * dims.prod ≤ Word.size 64 by simpa using hprod)).2
  simpa [linearUnchecked] using this

theorem unravel_eq : unravel dims n = (Radix.coords dims n, n / dims.prod) := by
  induction dims with
  | nil => simp [unravel]
  | cons d dims ih =>
      simp only [unravel, ih, Radix.coords, List.prod_cons]
      rw [Nat.mul_comm d, Nat.div_div_eq_div_mul]

end Linear

/-! ## The places of an array's bytes -/

/-- The number of the chunk that holds an element. -/
def chunkOf (shape chunkShape : List Nat) (element : Nat) : Nat :=
  Radix.flat (List.zipWith (· / ·) (Radix.coords shape element) chunkShape)
    (List.zipWith (fun n c : Nat => n ⌈/⌉ c) shape chunkShape)

/-- The number of an element in the padded chunk that holds it. -/
def withinOf (shape chunkShape : List Nat) (element : Nat) : Nat :=
  Radix.flat (List.zipWith (· % ·) (Radix.coords shape element) chunkShape) chunkShape

/-- The chunk that holds a byte's element, and the byte's offset in it. -/
def placeOf (shape chunkShape : List Nat) (itemsize byte : Nat) : Nat × Nat :=
  (chunkOf shape chunkShape (byte / itemsize),
    withinOf shape chunkShape (byte / itemsize) * itemsize + byte % itemsize)

section Place

variable {shape chunkShape pos pre cpre post : List Nat} {n c element i : Nat}

theorem within_mod (hchunks : ∀ c ∈ chunkShape, 0 < c) (h : pos.length = chunkShape.length) :
    Radix.Within (List.zipWith (· % ·) pos chunkShape) chunkShape := by
  induction chunkShape generalizing pos with
  | nil => simp
  | cons c chunkShape ih =>
      rw [List.forall_mem_cons] at hchunks
      cases pos with
      | nil => cases h
      | cons p pos => exact .cons (Nat.mod_lt p hchunks.1) (ih hchunks.2 (Nat.succ.inj h))

theorem div_lt_ceilDiv {p : Nat} (hc : 0 < c) (h : p < n) : p / c < n ⌈/⌉ c := by
  by_contra hle
  rw [Nat.not_lt, ceilDiv_le_iff_le_mul hc] at hle
  have := Nat.mul_div_le p c
  omega

theorem within_div (hchunks : ∀ c ∈ chunkShape, 0 < c) (h : shape.length = chunkShape.length)
    (hpos : Radix.Within pos shape) :
    Radix.Within (List.zipWith (· / ·) pos chunkShape)
      (List.zipWith (fun n c : Nat => n ⌈/⌉ c) shape chunkShape) := by
  induction hpos generalizing chunkShape with
  | nil => simp
  | cons hlt _ ih =>
      cases chunkShape with
      | nil => cases h
      | cons c chunkShape =>
          rw [List.forall_mem_cons] at hchunks
          exact .cons (div_lt_ceilDiv hchunks.1 hlt) (ih hchunks.2 (Nat.succ.inj h))

theorem chunkOf_lt (hshape : ∀ n ∈ shape, 0 < n) (hchunks : ∀ c ∈ chunkShape, 0 < c)
    (h : shape.length = chunkShape.length) :
    chunkOf shape chunkShape element <
      (List.zipWith (fun n c : Nat => n ⌈/⌉ c) shape chunkShape).prod :=
  Radix.flat_lt (within_div hchunks h (Radix.coords_within hshape))

theorem withinOf_lt (hchunks : ∀ c ∈ chunkShape, 0 < c) (h : shape.length = chunkShape.length) :
    withinOf shape chunkShape element < chunkShape.prod :=
  Radix.flat_lt (within_mod hchunks (by simpa using h))

/-- One chunk covers an axis: every position is in chunk 0, where it is. -/
theorem covered_axes (h : Radix.Within pos post) :
    Radix.flat (List.zipWith (· / ·) pos post)
        (List.zipWith (fun n c : Nat => n ⌈/⌉ c) post post) = 0 ∧
      List.zipWith (· % ·) pos post = pos := by
  induction h with
  | nil => exact ⟨rfl, rfl⟩
  | @cons p n pos post hlt _ ih =>
      simp only [List.zipWith_cons_cons, Radix.flat, ih.1, ih.2, Nat.div_eq_of_lt hlt,
        Nat.mod_eq_of_lt hlt, Nat.zero_mul, Nat.add_zero, and_self]

/-- The place of an element when one chunk covers the axes after `pre`'s. -/
theorem chunkOf_split (hpre : pre.length = cpre.length) (hpost : ∀ n ∈ post, 0 < n) :
    chunkOf (pre ++ n :: post) (cpre ++ c :: post) element =
        chunkOf pre cpre (element / (n * post.prod)) *
          (n ⌈/⌉ c * (List.zipWith (fun n c : Nat => n ⌈/⌉ c) post post).prod) +
        element / post.prod % n / c * (List.zipWith (fun n c : Nat => n ⌈/⌉ c) post post).prod ∧
      withinOf (pre ++ n :: post) (cpre ++ c :: post) element =
        withinOf pre cpre (element / (n * post.prod)) * (c * post.prod) +
          (element / post.prod % n % c * post.prod + element % post.prod) := by
  have hcovered := covered_axes (Radix.coords_within (n := element) hpost)
  have hlen : (Radix.coords pre (element / (n * post.prod))).length = cpre.length := by simpa using hpre
  unfold chunkOf withinOf
  simp only [Radix.coords_append, Radix.coords, List.prod_cons]
  rw [List.zipWith_append hlen, List.zipWith_append hlen, List.zipWith_append hpre,
    List.zipWith_cons_cons, List.zipWith_cons_cons, List.zipWith_cons_cons,
    Radix.flat_append (by simp [hpre]), Radix.flat_append (by simp [hpre]), Radix.flat, Radix.flat,
    hcovered.1, hcovered.2, Radix.flat_coords, List.prod_cons, List.prod_cons]
  exact ⟨rfl, rfl⟩

/-- Moving on inside a block of `n` moves the position in it. -/
theorem add_div_mod {a q n : Nat} (h : a % n + q < n) :
    (a + q) / n = a / n ∧ (a + q) % n = a % n + q := by
  have hpos : 0 < n := by omega
  have heq : a + q = a % n + q + n * (a / n) := by
    have := Nat.div_add_mod a n
    omega
  rw [heq, Nat.add_mul_div_left _ _ hpos, Nat.add_mul_mod_self_left, Nat.div_eq_of_lt h,
    Nat.mod_eq_of_lt h]
  omega

/-- Moving on across blocks of `n`, counted from the start of the first. -/
theorem add_div_mod_add {a q n : Nat} (hn : 0 < n) :
    (a + q) / n = a / n + (a % n + q) / n ∧ (a + q) % n = (a % n + q) % n := by
  have heq : a + q = a % n + q + n * (a / n) := by
    have := Nat.div_add_mod a n
    omega
  rw [heq, Nat.add_mul_div_left _ _ hn, Nat.add_mul_mod_self_left, Nat.add_comm]
  exact ⟨rfl, rfl⟩

/-- A run stays in its chunk and goes through it element by element. -/
theorem run_places (hpre : pre.length = cpre.length) (hpost : ∀ n ∈ post, 0 < n)
    (hi : element % post.prod + i <
      min (c - element / post.prod % n % c) (n - element / post.prod % n) * post.prod) :
    chunkOf (pre ++ n :: post) (cpre ++ c :: post) (element + i) =
        chunkOf (pre ++ n :: post) (cpre ++ c :: post) element ∧
      withinOf (pre ++ n :: post) (cpre ++ c :: post) (element + i) =
        withinOf (pre ++ n :: post) (cpre ++ c :: post) element + i := by
  have htrailing := Radix.prod_pos hpost
  obtain ⟨hchunk, hwithin⟩ := @chunkOf_split pre cpre post n c element hpre hpost
  obtain ⟨hchunk', hwithin'⟩ := @chunkOf_split pre cpre post n c (element + i) hpre hpost
  rw [hchunk, hchunk', hwithin, hwithin', Nat.mul_comm n, ← Nat.div_div_eq_div_mul,
    ← Nat.div_div_eq_div_mul]
  generalize post.prod = trailing at *
  have hq : (element % trailing + i) / trailing <
      min (c - element / trailing % n % c) (n - element / trailing % n) :=
    (Nat.div_lt_iff_lt_mul htrailing).mpr hi
  have hsplit := Nat.div_add_mod (element % trailing + i) trailing
  obtain ⟨hdiv, hmod⟩ := add_div_mod_add (a := element) (q := i) htrailing
  rw [hdiv, hmod]
  generalize (element % trailing + i) / trailing = q at *
  generalize element / trailing = row at *
  obtain ⟨hrow, hp⟩ := add_div_mod (a := row) (q := q) (n := n) (by omega)
  obtain ⟨hcell, hrest⟩ := add_div_mod (a := row % n) (q := q) (n := c) (by omega)
  rw [hrow, hp, hcell, hrest]
  refine ⟨rfl, ?_⟩
  rw [Nat.add_mul, Nat.mul_comm q]
  omega

/-- The same for the bytes of the run's elements. -/
theorem run_bytes {itemsize offset run k : Nat} (hitem : 0 < itemsize)
    (hrun : ∀ i < run, chunkOf shape chunkShape (offset / itemsize + i) =
        chunkOf shape chunkShape (offset / itemsize) ∧
      withinOf shape chunkShape (offset / itemsize + i) =
        withinOf shape chunkShape (offset / itemsize) + i)
    (hk : offset % itemsize + k < run * itemsize) :
    placeOf shape chunkShape itemsize (offset + k) =
      (chunkOf shape chunkShape (offset / itemsize),
        withinOf shape chunkShape (offset / itemsize) * itemsize + offset % itemsize + k) := by
  obtain ⟨hdiv, hmod⟩ := add_div_mod_add (a := offset) (q := k) hitem
  have hsplit := Nat.div_add_mod (offset % itemsize + k) itemsize
  obtain ⟨hchunk, hwithin⟩ := hrun _ ((Nat.div_lt_iff_lt_mul hitem).mpr hk)
  unfold placeOf
  rw [hdiv, hmod, hchunk, hwithin, Nat.add_mul, Nat.mul_comm (_ / itemsize)]
  simp only [Prod.mk.injEq, true_and]
  omega

theorem placeOf_lt {itemsize byte : Nat} (hshape : ∀ n ∈ shape, 0 < n)
    (hchunks : ∀ c ∈ chunkShape, 0 < c) (h : shape.length = chunkShape.length)
    (hitem : 0 < itemsize) :
    (placeOf shape chunkShape itemsize byte).1 <
        (List.zipWith (fun n c : Nat => n ⌈/⌉ c) shape chunkShape).prod ∧
      (placeOf shape chunkShape itemsize byte).2 < chunkShape.prod * itemsize := by
  refine ⟨chunkOf_lt hshape hchunks h, ?_⟩
  have hwithin := Nat.mul_le_mul_right itemsize (@withinOf_lt _ _ (byte / itemsize) hchunks h)
  have hskip := Nat.mod_lt byte hitem
  rw [Nat.succ_mul] at hwithin
  show _ * itemsize + byte % itemsize < _
  omega

end Place

/-! ## The grid -/

namespace ChunkGrid

/-- What `new` checks and computes. -/
structure Sound (g : ChunkGrid) : Prop where
  rank : g.shape.length = g.chunkShape.length
  chunkPos : ∀ c ∈ g.chunkShape, 0 < c
  grid : g.grid = List.zipWith (fun n c : Nat => n ⌈/⌉ c) g.shape g.chunkShape
  gridFits : g.grid.prod < Word.size 64
  bytes : g.chunkBytes = g.chunkShape.prod * g.itemsize
  bytesFit : g.itemsize < Word.size 64 → g.chunkBytes < Word.size 64
  axis : g.shape ≠ [] → g.runAxis < g.shape.length
  trailing : g.shape.drop (g.runAxis + 1) = g.chunkShape.drop (g.runAxis + 1)

section Grid

variable {g : ChunkGrid} {shape chunkShape : List Nat} {itemsize j : Nat}

theorem runAxisFrom_spec (h : shape.length = chunkShape.length)
    (hdrop : shape.drop (j + 1) = chunkShape.drop (j + 1)) :
    runAxisFrom shape chunkShape j ≤ j ∧
      shape.drop (runAxisFrom shape chunkShape j + 1) =
        chunkShape.drop (runAxisFrom shape chunkShape j + 1) := by
  induction j with
  | zero => exact ⟨Nat.le_refl 0, hdrop⟩
  | succ j ih =>
      unfold runAxisFrom
      split
      · rename_i heq
        have hstep : shape.drop (j + 1) = chunkShape.drop (j + 1) := by
          by_cases hj : j + 1 < shape.length
          · have hj' : j + 1 < chunkShape.length := h ▸ hj
            rw [List.getElem?_eq_getElem hj, List.getElem?_eq_getElem hj', Option.some.injEq] at heq
            rw [List.drop_eq_getElem_cons hj, List.drop_eq_getElem_cons hj', hdrop, heq]
          · rw [List.drop_eq_nil_of_le (by omega), List.drop_eq_nil_of_le (by omega)]
        obtain ⟨hle, hspec⟩ := ih hstep
        exact ⟨by omega, hspec⟩
      · exact ⟨Nat.le_refl _, hdrop⟩

theorem new_sound (h : new shape chunkShape itemsize = some g) :
    g.Sound ∧ g.shape = shape ∧ g.chunkShape = chunkShape ∧ g.itemsize = itemsize := by
  unfold new at h
  split at h
  · cases h
  rename_i hguard
  rw [not_or, Decidable.not_not] at hguard
  simp only [Option.bind_eq_bind, Option.bind_eq_some_iff] at h
  obtain ⟨product, hproduct, chunkBytes, hbytes, h⟩ := h
  cases h
  obtain ⟨hprod, hfits⟩ := Word.foldlM_checkedMul hproduct
  obtain ⟨hchunk, hchunkFits⟩ := Word.foldlM_checkedMul hbytes
  rw [Nat.one_mul] at hprod
  have haxis := runAxisFrom_spec (j := shape.length - 1) hguard.1.symm (by
    rw [List.drop_eq_nil_of_le (by omega), List.drop_eq_nil_of_le (by omega)])
  refine ⟨⟨hguard.1.symm, ?_, rfl, ?_, ?_, hchunkFits, ?_, haxis.2⟩, rfl, rfl, rfl⟩
  · intro c hc
    apply Nat.pos_of_ne_zero
    rintro rfl
    exact hguard.2 hc
  · rw [← hprod]
    exact hfits (by decide)
  · rw [hchunk, Nat.mul_comm]
  · intro hne
    have hpos : 0 < shape.length := List.length_pos_of_ne_nil hne
    have := haxis.1
    show runAxisFrom shape chunkShape (shape.length - 1) < shape.length
    omega

/-- The axes before the run axis, that axis, and those one chunk covers. -/
theorem Sound.split (h : g.Sound) (hne : g.shape ≠ []) :
    ∃ pre n cpre c post, g.shape = pre ++ n :: post ∧ g.chunkShape = cpre ++ c :: post ∧
      pre.length = g.runAxis ∧ cpre.length = g.runAxis := by
  have haxis := h.axis hne
  have haxis' : g.runAxis < g.chunkShape.length := h.rank ▸ haxis
  refine ⟨g.shape.take g.runAxis, g.shape[g.runAxis], g.chunkShape.take g.runAxis,
    g.chunkShape[g.runAxis], g.shape.drop (g.runAxis + 1), ?_, ?_, ?_, ?_⟩
  · rw [← List.drop_eq_getElem_cons haxis, List.take_append_drop]
  · rw [h.trailing, ← List.drop_eq_getElem_cons haxis', List.take_append_drop]
  · rw [List.length_take]
    omega
  · rw [List.length_take]
    omega

/-- Where a byte of the array is. -/
def place (g : ChunkGrid) (byte : Nat) : Nat × Nat := placeOf g.shape g.chunkShape g.itemsize byte

variable {offset left : Nat}

theorem pos_of_lt_total (h : offset < g.shape.prod * g.itemsize) :
    0 < g.itemsize ∧ ∀ n ∈ g.shape, 0 < n := by
  refine ⟨?_, ?_⟩
  · apply Nat.pos_of_ne_zero
    intro hzero
    rw [hzero] at h
    omega
  · intro n hn
    apply Nat.pos_of_ne_zero
    rintro rfl
    rw [List.prod_eq_zero hn] at h
    omega

theorem Sound.place_lt (h : g.Sound) (hoffset : offset < g.shape.prod * g.itemsize) :
    (g.place offset).1 < g.chunks ∧ (g.place offset).2 < g.chunkBytes := by
  obtain ⟨hitem, hshape⟩ := pos_of_lt_total hoffset
  have := @placeOf_lt _ _ _ offset hshape h.chunkPos h.rank hitem
  rw [← h.grid, ← h.bytes] at this
  unfold chunks
  rw [Word.foldl_wrappingMul (by decide), Nat.one_mul, Nat.mod_eq_of_lt h.gridFits]
  exact this

/-- How many elements the run of an element has, the axes after `n`'s being whole. -/
def runLen (n c : Nat) (post : List Nat) (element : Nat) : Nat :=
  min (c - element / post.prod % n % c) (n - element / post.prod % n) * post.prod -
    element % post.prod

theorem runLen_bounds {n c element : Nat} {post : List Nat} (hc : 0 < c) (hn : 0 < n)
    (hpost : ∀ n ∈ post, 0 < n) :
    0 < runLen n c post element ∧ element % post.prod <
      min (c - element / post.prod % n % c) (n - element / post.prod % n) * post.prod ∧
      min (c - element / post.prod % n % c) (n - element / post.prod % n) * post.prod ≤
        c * post.prod := by
  have hbehind := Nat.mod_lt element (Radix.prod_pos hpost)
  have hp := Nat.mod_lt (element / post.prod) hn
  have hcell := Nat.mod_lt (element / post.prod % n) hc
  have halong : 1 * post.prod ≤
      min (c - element / post.prod % n % c) (n - element / post.prod % n) * post.prod :=
    Nat.mul_le_mul_right _ (by omega)
  refine ⟨?_, by omega, Nat.mul_le_mul_right _ (by omega)⟩
  unfold runLen
  omega

variable {n c : Nat} {pre cpre post : List Nat}

theorem drop_split {l : List Nat} (hl : l = pre ++ n :: post) (hpre : pre.length = j) :
    l.drop (j + 1) = post ∧ l.getD j 0 = n := by
  subst hl hpre
  simp

/-- The piece at a byte, in unbounded arithmetic. -/
theorem Sound.pieceAt_eq (h : g.Sound) (hfits : g.itemsize < Word.size 64)
    (hoffset : offset < g.shape.prod * g.itemsize) (hs : g.shape = pre ++ n :: post)
    (hcs : g.chunkShape = cpre ++ c :: post) (hpre : pre.length = g.runAxis)
    (hcpre : cpre.length = g.runAxis) :
    g.pieceAt offset left = some ⟨chunkOf g.shape g.chunkShape (offset / g.itemsize),
      withinOf g.shape g.chunkShape (offset / g.itemsize) * g.itemsize + offset % g.itemsize,
      min (runLen n c post (offset / g.itemsize) * g.itemsize - offset % g.itemsize) left⟩ := by
  obtain ⟨hitem, hshape⟩ := pos_of_lt_total hoffset
  have hplace := h.place_lt hoffset
  have hskip := Nat.mod_lt offset hitem
  have hbytes := h.bytesFit hfits
  have hchunkBytes : g.chunkShape.prod * g.itemsize < Word.size 64 := by rwa [← h.bytes]
  have hchunkProd : g.chunkShape.prod < Word.size 64 :=
    lt_of_le_of_lt (Nat.le_mul_of_pos_right _ hitem) hchunkBytes
  have hcoords := Radix.coords_within (n := offset / g.itemsize) hshape
  have hchunk : linear (List.zipWith (· / ·) (Radix.coords g.shape (offset / g.itemsize)) g.chunkShape)
      g.grid = some (chunkOf g.shape g.chunkShape (offset / g.itemsize)) := by
    rw [linear_eq (h.grid ▸ within_div h.chunkPos h.rank hcoords) (Nat.le_of_lt h.gridFits), h.grid]
    rfl
  have hwithin : linearUnchecked
      (List.zipWith (· % ·) (Radix.coords g.shape (offset / g.itemsize)) g.chunkShape) g.chunkShape =
        withinOf g.shape g.chunkShape (offset / g.itemsize) :=
    linearUnchecked_eq (within_mod h.chunkPos (by simpa using h.rank)) (Nat.le_of_lt hchunkProd)
  have hmem : n ∈ g.shape ∧ ∀ m ∈ post, m ∈ g.shape := by
    rw [hs]
    simp +contextual
  have hn := hshape n hmem.1
  have hc := h.chunkPos c (hcs ▸ by simp)
  have hpost := fun m hm => hshape m (hmem.2 m hm)
  obtain ⟨hrun, hbehind, halong⟩ := @runLen_bounds n c (offset / g.itemsize) post hc hn hpost
  have hwhole : c * post.prod ≤ g.chunkShape.prod := by
    rw [hcs, List.prod_append, List.prod_cons]
    exact Nat.le_mul_of_pos_left _ (Radix.prod_pos fun m hm => h.chunkPos m (hcs ▸ by simp [hm]))
  have hpostProd : post.prod < Word.size 64 :=
    lt_of_le_of_lt (le_trans (Nat.le_mul_of_pos_left _ hc) hwhole) hchunkProd
  have hscale := Nat.mul_le_mul_right g.itemsize (le_trans halong hwhole)
  obtain ⟨hshapeDrop, hshapeAt⟩ := drop_split hs hpre
  obtain ⟨-, hchunkAt⟩ := drop_split hcs hcpre
  have hposSplit : Radix.coords g.shape (offset / g.itemsize) =
      Radix.coords pre (offset / g.itemsize / (n * post.prod)) ++
        offset / g.itemsize / post.prod % n :: Radix.coords post (offset / g.itemsize) := by
    rw [hs, Radix.coords_append]
    rfl
  obtain ⟨hposDrop, hposAt⟩ := drop_split hposSplit (by rw [Radix.length_coords, hpre])
  have htrailing : post.foldl (Word.wrappingMul 64) 1 = post.prod := by
    rw [Word.foldl_wrappingMul (by decide), Nat.one_mul, Nat.mod_eq_of_lt hpostProd]
  have hbehindEq : linearUnchecked (Radix.coords post (offset / g.itemsize)) post =
      offset / g.itemsize % post.prod := by
    rw [linearUnchecked_eq (Radix.coords_within hpost) (Nat.le_of_lt hpostProd), Radix.flat_coords]
  have hstart : withinOf g.shape g.chunkShape (offset / g.itemsize) * g.itemsize +
      offset % g.itemsize < Word.size 64 := by
    have := hplace.2
    exact lt_trans this hbytes
  have hrunLt : runLen n c post (offset / g.itemsize) * g.itemsize < Word.size 64 :=
    lt_of_le_of_lt (le_trans (Nat.mul_le_mul_right _ (Nat.sub_le _ _)) hscale) hchunkBytes
  have hrunGe := Nat.le_mul_of_pos_left g.itemsize hrun
  have halongLt := lt_of_le_of_lt (le_trans halong hwhole) hchunkProd
  unfold pieceAt
  rw [if_neg]
  · simp only [unravel_eq, hchunk, hwithin, hshapeDrop, hposDrop, hshapeAt, hchunkAt, hposAt,
      htrailing, hbehindEq, Option.bind_eq_bind, Option.bind_some]
    rw [Word.wrappingMul_of_lt halongLt, Word.wrappingSub_of_le (Nat.le_of_lt hbehind) halongLt,
      ← runLen, Word.wrappingMul_of_lt hrunLt,
      Word.wrappingSub_of_le (le_trans (Nat.le_of_lt hskip) hrunGe) hrunLt,
      Word.wrappingMul_of_lt (lt_of_le_of_lt (Nat.le_add_right _ _) hstart),
      Word.wrappingAdd_of_lt hstart]
  · intro hbad
    rcases hbad with hbad | hbad
    · omega
    · exact Nat.lt_irrefl 0 (hshape 0 hbad)

/-- A piece is a run of places, as long as its chunk and `dst` allow. -/
theorem Sound.pieceAt_spec (h : g.Sound) (hne : g.shape ≠ []) (hfits : g.itemsize < Word.size 64)
    (hoffset : offset < g.shape.prod * g.itemsize) (hleft : 0 < left) :
    ∃ piece, g.pieceAt offset left = some piece ∧ 0 < piece.len ∧ piece.len ≤ left ∧
      ∀ k < piece.len, g.place (offset + k) = (piece.chunk, piece.start + k) := by
  obtain ⟨hitem, hshape⟩ := pos_of_lt_total hoffset
  obtain ⟨pre, n, cpre, c, post, hs, hcs, hpre, hcpre⟩ := h.split hne
  have hn := hshape n (hs ▸ by simp)
  have hc := h.chunkPos c (hcs ▸ by simp)
  have hpost : ∀ m ∈ post, 0 < m := fun m hm => hshape m (hs ▸ by simp [hm])
  have hskip := Nat.mod_lt offset hitem
  obtain ⟨hrun, hbehind, -⟩ := @runLen_bounds n c (offset / g.itemsize) post hc hn hpost
  have hrunGe := Nat.le_mul_of_pos_left g.itemsize hrun
  refine ⟨_, h.pieceAt_eq hfits hoffset hs hcs hpre hcpre, ?_, Nat.min_le_right _ _, ?_⟩
  · dsimp only
    omega
  · intro k hk
    dsimp only at hk
    have hplaces : ∀ i < runLen n c post (offset / g.itemsize),
        chunkOf g.shape g.chunkShape (offset / g.itemsize + i) =
            chunkOf g.shape g.chunkShape (offset / g.itemsize) ∧
          withinOf g.shape g.chunkShape (offset / g.itemsize + i) =
            withinOf g.shape g.chunkShape (offset / g.itemsize) + i := by
      intro i hi
      rw [hs, hcs]
      apply run_places (hpre.trans hcpre.symm) hpost
      unfold runLen at hi
      omega
    exact run_bytes hitem hplaces (by omega)

end Grid

end ChunkGrid

/-! ## The whole walk -/

/-- The pieces name the places of the bytes from `offset` to `stop`, in order. -/
def Follows (place : Nat → Nat × Nat) : Nat → List Piece → Nat → Prop
  | offset, [], stop => offset = stop
  | offset, piece :: pieces, stop =>
      (∀ k < piece.len, place (offset + k) = (piece.chunk, piece.start + k)) ∧
        Follows place (offset + piece.len) pieces stop

namespace ChunkGrid

variable {g : ChunkGrid} {shape chunkShape : List Nat} {itemsize offset left len : Nat}

theorem walkFrom_zero {σ : Type} {read : Piece → Run σ (List UInt8)} {fuel : Nat} :
    g.walkFrom read fuel offset 0 = pure [] := by
  cases fuel <;> simp [walkFrom]

/-- The loop goes through the pieces, once `fuel` reaches the bytes left. -/
theorem Sound.walkFrom_eq (h : g.Sound) (hne : g.shape ≠ [])
    (hfits : 0 < left → g.itemsize < Word.size 64)
    (hrange : offset + left ≤ g.shape.prod * g.itemsize) (hend : offset + left ≤ Word.size 64) :
    ∃ pieces, Follows g.place offset pieces (offset + left) ∧ (∀ p ∈ pieces, 0 < p.len) ∧
      ∀ {σ : Type} (read : Piece → Run σ (List UInt8)) (fuel : Nat), left ≤ fuel →
        g.walkFrom read fuel offset left = List.flatten <$> pieces.mapM read := by
  induction left using Nat.strong_induction_on generalizing offset with
  | _ left ih =>
      rcases Nat.eq_zero_or_pos left with rfl | hleft
      · refine ⟨[], rfl, by simp, ?_⟩
        intro σ read fuel _
        exact walkFrom_zero
      · obtain ⟨piece, hpiece, hpos, hle, hplaces⟩ := h.pieceAt_spec hne (hfits hleft)
          (show offset < _ by omega) hleft
        rcases Nat.eq_or_lt_of_le hle with heq | hlt
        · -- the offset may wrap here, and the loop is over
          refine ⟨[piece], ⟨hplaces, by rw [heq]; rfl⟩, by simpa using hpos, ?_⟩
          intro σ read fuel hfuel
          obtain ⟨fuel, rfl⟩ : ∃ more, fuel = more + 1 := ⟨fuel - 1, by omega⟩
          rw [walkFrom, if_neg (by omega), hpiece]
          simp [heq, walkFrom_zero]
        · obtain ⟨pieces, hfollows, hall, hwalk⟩ := ih (left - piece.len) (by omega)
            (fun _ => hfits hleft) (show offset + piece.len + (left - piece.len) ≤ _ by omega)
            (by omega)
          rw [show offset + piece.len + (left - piece.len) = offset + left by omega] at hfollows
          refine ⟨piece :: pieces, ⟨hplaces, hfollows⟩, List.forall_mem_cons.mpr ⟨hpos, hall⟩, ?_⟩
          intro σ read fuel hfuel
          obtain ⟨fuel, rfl⟩ : ∃ more, fuel = more + 1 := ⟨fuel - 1, by omega⟩
          rw [walkFrom, if_neg (by omega), hpiece]
          dsimp only
          rw [Word.wrappingAdd_of_lt (by omega), hwalk read fuel (by omega)]
          simp

/-- A piece of places lies inside one chunk's block. -/
theorem Sound.piece_inside (h : g.Sound) {piece : Piece} (hpos : 0 < piece.len)
    (hrange : offset + piece.len ≤ g.shape.prod * g.itemsize)
    (hplaces : ∀ k < piece.len, g.place (offset + k) = (piece.chunk, piece.start + k)) :
    piece.chunk < g.chunks ∧ piece.start + piece.len ≤ g.chunkBytes := by
  have hlast := h.place_lt (show offset + (piece.len - 1) < _ by omega)
  rw [hplaces _ (by omega)] at hlast
  exact ⟨hlast.1, by have := hlast.2; dsimp only at this; omega⟩

theorem Follows.le {place : Nat → Nat × Nat} {stop : Nat} {pieces : List Piece}
    (h : Follows place offset pieces stop) : offset ≤ stop := by
  induction pieces generalizing offset with
  | nil => exact Nat.le_of_eq h
  | cons piece pieces ih =>
      have := ih h.2
      omega

theorem Sound.pieces_inside (h : g.Sound) {pieces : List Piece} {stop : Nat}
    (hfollows : Follows g.place offset pieces stop) (hstop : stop ≤ g.shape.prod * g.itemsize)
    (hpos : ∀ p ∈ pieces, 0 < p.len) :
    ∀ p ∈ pieces, p.chunk < g.chunks ∧ p.start + p.len ≤ g.chunkBytes := by
  induction pieces generalizing offset with
  | nil => simp
  | cons piece pieces ih =>
      rw [List.forall_mem_cons] at hpos ⊢
      have hle := Follows.le hfollows.2
      exact ⟨h.piece_inside hpos.1 (by omega) hfollows.1, ih hfollows.2 hpos.2⟩

theorem Sound.chunkShape_nil (h : g.Sound) (hne : g.shape = []) : g.chunkShape = [] := by
  apply List.length_eq_zero_iff.mp
  rw [← h.rank, hne, List.length_nil]

/-- The bytes of a scalar are where they are in its one chunk. -/
theorem Sound.place_scalar (h : g.Sound) (hne : g.shape = []) (hoffset : offset < g.itemsize) :
    g.place offset = (0, offset) := by
  simp only [place, placeOf, chunkOf, withinOf, hne, h.chunkShape_nil hne, Radix.coords_nil,
    List.zipWith_nil_left, Radix.flat_nil, Nat.zero_mul, Nat.zero_add, Nat.mod_eq_of_lt hoffset]

/-- A walk goes through the pieces of its range. -/
theorem Sound.walk_eq (h : g.Sound) (hfits : 0 < len → g.itemsize < Word.size 64)
    (hrange : offset + len ≤ g.shape.prod * g.itemsize) (hend : offset + len ≤ Word.size 64) :
    ∃ pieces, Follows g.place offset pieces (offset + len) ∧
      (∀ p ∈ pieces, p.chunk < g.chunks ∧ p.start + p.len ≤ g.chunkBytes) ∧
      (g.shape ≠ [] → ∀ p ∈ pieces, 0 < p.len) ∧
      ∀ {σ : Type} (read : Piece → Run σ (List UInt8)) (fuel : Nat), len ≤ fuel →
        g.walk read fuel offset len = List.flatten <$> pieces.mapM read := by
  by_cases hne : g.shape = []
  · have hgrid := h.grid
    have hbytes := h.bytes
    rw [hne, h.chunkShape_nil hne] at hgrid
    rw [hne, List.prod_nil, Nat.one_mul] at hrange
    rw [h.chunkShape_nil hne, List.prod_nil, Nat.one_mul] at hbytes
    refine ⟨[⟨0, offset, len⟩], ⟨?_, rfl⟩, ?_, fun h => absurd hne h, ?_⟩
    · intro k hk
      dsimp only at hk
      exact h.place_scalar hne (by omega)
    · intro p hp
      obtain rfl := List.mem_singleton.mp hp
      simp [chunks, hgrid, hbytes, hrange]
    · intro σ read fuel _
      simp [walk, hne]
  · obtain ⟨pieces, hfollows, hpos, hwalk⟩ := h.walkFrom_eq hne hfits hrange hend
    refine ⟨pieces, hfollows, h.pieces_inside hfollows hrange hpos, fun _ => hpos, ?_⟩
    intro σ read fuel hfuel
    rw [walk, if_neg hne, hwalk read fuel hfuel]

/-- What the pieces hold, one after the other, is what the places of the range do. -/
theorem Follows.bytes {place : Nat → Nat × Nat} {stop : Nat} {pieces : List Piece}
    (h : Follows place offset pieces stop) (block : Nat → Nat → UInt8) :
    (pieces.map fun p => (List.range' p.start p.len).map (block p.chunk)).flatten =
      (List.range' offset (stop - offset)).map fun j => block (place j).1 (place j).2 := by
  induction pieces generalizing offset with
  | nil =>
      obtain rfl : offset = stop := h
      simp
  | cons piece pieces ih =>
      have hle := Follows.le h.2
      have hcut : stop - offset = piece.len + (stop - (offset + piece.len)) := by omega
      have hfirst : (List.range' piece.start piece.len).map (block piece.chunk) =
          (List.range' offset piece.len).map fun j => block (place j).1 (place j).2 := by
        rw [List.range'_eq_map_range, List.range'_eq_map_range, List.map_map, List.map_map]
        apply List.map_congr_left
        intro k hk
        simp only [Function.comp, h.1 k (List.mem_range.mp hk)]
      rw [List.map_cons, List.flatten_cons, ih h.2, hfirst, hcut, ← List.range'_append_1,
        List.map_append]

theorem Follows.len_le {place : Nat → Nat × Nat} {stop : Nat} {pieces : List Piece}
    (h : Follows place offset pieces stop) : ∀ p ∈ pieces, p.len ≤ stop - offset := by
  induction pieces generalizing offset with
  | nil => simp
  | cons piece pieces ih =>
      have hle := Follows.le h.2
      refine List.forall_mem_cons.mpr ⟨by omega, ?_⟩
      intro p hp
      have := ih h.2 p hp
      omega

/-- Where every piece is read as its chunk holds it, a walk reads what the places of its
range hold, and keeps what the reads keep. -/
theorem Sound.walk_reads (h : g.Sound) (block : Nat → Nat → UInt8)
    (hfits : 0 < len → g.itemsize < Word.size 64)
    (hrange : offset + len ≤ g.shape.prod * g.itemsize) (hend : offset + len ≤ Word.size 64)
    {σ : Type} {inv : σ → Prop} {read : Piece → Run σ (List UInt8)}
    {fuel : Nat} {s : σ} (hfuel : len ≤ fuel) (hs : inv s)
    (hread : ∀ p s, p.chunk < g.chunks → p.start + p.len ≤ g.chunkBytes → p.len ≤ len → inv s →
      Triple.Yields (read p) s fun out s' =>
        out = (List.range' p.start p.len).map (block p.chunk) ∧ inv s') :
    Triple.Yields (g.walk read fuel offset len) s fun out s' =>
      out = ((List.range' offset len).map fun j => block (g.place j).1 (g.place j).2) ∧ inv s' := by
  obtain ⟨pieces, hfollows, hinside, -, hwalk⟩ := h.walk_eq hfits hrange hend
  rw [hwalk read fuel hfuel]
  apply Triple.Yields.map (Triple.yields_mapM
    (g := fun p : Piece => (List.range' p.start p.len).map (block p.chunk)) hs ?_)
  · intro outs s' houts
    obtain ⟨rfl, hs'⟩ := houts
    refine ⟨?_, hs'⟩
    rw [Follows.bytes hfollows, Nat.add_sub_cancel_left]
  · intro p hp s hs
    obtain ⟨hchunk, hblock⟩ := hinside p hp
    have hlen := Follows.len_le hfollows p hp
    exact hread p s hchunk hblock (by omega) hs

/-- A walk calls back with the places of its bytes in order, each piece inside one
chunk's padded block. -/
theorem walk_reassembles (hnew : new shape chunkShape itemsize = some g)
    (htotal : shape.prod * itemsize < 2 ^ 64) (hrange : offset + len ≤ shape.prod * itemsize) :
    ∃ pieces, Follows (placeOf shape chunkShape itemsize) offset pieces (offset + len) ∧
      (∀ p ∈ pieces, p.chunk < g.chunks ∧ p.start + p.len ≤ g.chunkBytes) ∧
      (shape ≠ [] → ∀ p ∈ pieces, 0 < p.len) ∧
      ∀ {σ : Type} (read : Piece → Run σ (List UInt8)) (fuel : Nat), len ≤ fuel →
        g.walk read fuel offset len = List.flatten <$> pieces.mapM read := by
  obtain ⟨hsound, rfl, rfl, rfl⟩ := new_sound hnew
  refine hsound.walk_eq ?_ hrange (le_trans hrange (Nat.le_of_lt htotal))
  intro hlen
  obtain ⟨-, hshape⟩ := pos_of_lt_total (show offset < g.shape.prod * g.itemsize by omega)
  exact lt_of_le_of_lt (Nat.le_mul_of_pos_left _ (Radix.prod_pos hshape)) htotal

/-- A range that starts and stops inside an element, over a padded edge chunk. -/
theorem walk_reassembles_edge : ∃ g, new [5, 7] [2, 3] 4 = some g ∧
    ∃ pieces, Follows (placeOf [5, 7] [2, 3] 4) 17 pieces (17 + 30) ∧
      ∀ p ∈ pieces, p.chunk < g.chunks ∧ p.start + p.len ≤ g.chunkBytes := by
  refine ⟨⟨[5, 7], [2, 3], [3, 3], 4, 24, 1⟩, by decide, ?_⟩
  obtain ⟨pieces, hfollows, hinside, -⟩ := walk_reassembles
    (show new [5, 7] [2, 3] 4 = some ⟨[5, 7], [2, 3], [3, 3], 4, 24, 1⟩ by decide) (by decide)
    (show 17 + 30 ≤ [5, 7].prod * 4 by decide)
  exact ⟨pieces, hfollows, hinside⟩

end ChunkGrid

end Aex
