import Aex.Lib.Fallible
import Aex.Core.Backends.Hdf5Filters

/-!
# Which pipelines of filters are undone

Inflating stops one byte past a whole chunk at every stage, so a deflate that was
applied to more than that cannot be undone.
-/

namespace Aex

/-! ## Shuffling -/

/-- HDF5's shuffle: byte `b` of every element goes to block `b`, and what is left of
the last element stays at the end. -/
def shuffle (bytes : List UInt8) (itemsize : Nat) : List UInt8 :=
  if 1 < itemsize then
    let elements := bytes.length / itemsize
    ((List.range (itemsize * elements)).map fun k =>
      bytes.getD (k % elements * itemsize + k / elements) 0) ++ bytes.drop (elements * itemsize)
  else bytes

section Shuffle

variable {bytes : List UInt8} {itemsize : Nat}

/-- What unshuffling sets, and where. -/
def unshuffleWrites (bytes : List UInt8) (itemsize : Nat) : List (Nat × UInt8) :=
  (List.range itemsize).flatMap fun b =>
    (Vec.slice bytes (b * (bytes.length / itemsize)) (bytes.length / itemsize)).zipIdx.map
      fun (byte, e) => (e * itemsize + b, byte)

theorem unshuffle_eq (h : 1 < itemsize) : unshuffle bytes itemsize =
    (unshuffleWrites bytes itemsize).foldl (fun out w => out.set w.1 w.2) bytes := by
  rw [unshuffle, if_pos h, unshuffleWrites, List.foldl_flatMap]
  simp only [List.foldl_map]

@[simp] theorem length_unshuffle : (unshuffle bytes itemsize).length = bytes.length := by
  by_cases h : 1 < itemsize
  · rw [unshuffle_eq h, Vec.length_foldl_set]
  · rw [unshuffle, if_neg h]

@[simp] theorem length_shuffle : (shuffle bytes itemsize).length = bytes.length := by
  unfold shuffle
  split
  · have := Nat.div_mul_le_self bytes.length itemsize
    rw [Nat.mul_comm] at this
    simp only [List.length_append, List.length_map, List.length_range, List.length_drop]
    rw [Nat.mul_comm (bytes.length / itemsize)]
    omega
  · rfl

/-- A byte of an element in its block. -/
theorem getElem?_shuffle {b e : Nat} (h : 1 < itemsize) (hb : b < itemsize)
    (he : e < bytes.length / itemsize) :
    (shuffle bytes itemsize)[b * (bytes.length / itemsize) + e]? = bytes[e * itemsize + b]? := by
  have hin : b * (bytes.length / itemsize) + e < itemsize * (bytes.length / itemsize) := by
    have := Nat.mul_le_mul_right (bytes.length / itemsize) (Nat.succ_le_of_lt hb)
    rw [Nat.succ_mul] at this
    omega
  have hlt : e * itemsize + b < bytes.length := by
    have := Nat.mul_le_mul_right itemsize (Nat.succ_le_of_lt he)
    have := Nat.div_mul_le_self bytes.length itemsize
    rw [Nat.succ_mul] at *
    omega
  have hmod : (b * (bytes.length / itemsize) + e) % (bytes.length / itemsize) = e := by
    rw [Nat.add_comm, Nat.add_mul_mod_self_right, Nat.mod_eq_of_lt he]
  have hdiv : (b * (bytes.length / itemsize) + e) / (bytes.length / itemsize) = b := by
    rw [Nat.add_comm, Nat.add_mul_div_right _ _ (by omega), Nat.div_eq_of_lt he, Nat.zero_add]
  unfold shuffle
  rw [if_pos h]
  dsimp only
  rw [List.getElem?_append_left (by simpa using hin), List.getElem?_map, List.getElem?_range hin,
    Option.map_some, hmod, hdiv, List.getD_eq_getElem?_getD, List.getElem?_eq_getElem hlt]
  rfl

/-- What is left of the last element is where it was. -/
theorem getElem?_shuffle_tail {i : Nat} (hi : bytes.length / itemsize * itemsize ≤ i) :
    (shuffle bytes itemsize)[i]? = bytes[i]? := by
  unfold shuffle
  split
  · rw [List.getElem?_append_right (by simpa [Nat.mul_comm] using hi)]
    simp only [List.length_map, List.length_range, List.getElem?_drop]
    congr 1
    rw [Nat.mul_comm itemsize]
    omega
  · rfl

theorem mem_unshuffleWrites {w : Nat × UInt8} : w ∈ unshuffleWrites bytes itemsize ↔
    ∃ b < itemsize, ∃ e < bytes.length / itemsize,
      bytes[b * (bytes.length / itemsize) + e]? = some w.2 ∧ e * itemsize + b = w.1 := by
  simp only [unshuffleWrites, List.mem_flatMap, List.mem_range, List.mem_map, Prod.exists,
    List.mk_mem_zipIdx_iff_getElem?, Vec.getElem?_slice]
  constructor
  · intro h
    obtain ⟨b, hb, byte, e, hbyte, rfl⟩ := h
    split at hbyte
    · rename_i he
      exact ⟨b, hb, e, he, hbyte, rfl⟩
    · cases hbyte
  · intro h
    obtain ⟨b, hb, e, he, hbyte, hi⟩ := h
    exact ⟨b, hb, w.2, e, by rwa [if_pos he], Prod.ext hi rfl⟩

/-- Unshuffling gives back what was shuffled. -/
theorem unshuffle_shuffle : unshuffle (shuffle bytes itemsize) itemsize = bytes := by
  by_cases h : 1 < itemsize
  · have hlen : (unshuffle (shuffle bytes itemsize) itemsize).length = (shuffle bytes itemsize).length :=
      length_unshuffle
    rw [length_shuffle] at hlen
    apply List.ext_getElem?
    intro i
    by_cases hi : i < bytes.length
    · rw [List.getElem?_eq_getElem hi, unshuffle_eq h]
      apply Vec.getElem?_foldl_set
      · intro w hw hwi
        obtain ⟨b, hb, e, he, hbyte, hat⟩ := mem_unshuffleWrites.mp hw
        rw [length_shuffle] at he hbyte
        rw [getElem?_shuffle h hb he, hat, hwi, List.getElem?_eq_getElem hi] at hbyte
        exact (Option.some.inj hbyte).symm
      · by_cases hblock : i < bytes.length / itemsize * itemsize
        · right
          refine ⟨by rwa [length_shuffle], (i, bytes[i]), mem_unshuffleWrites.mpr ?_, rfl⟩
          have he : i / itemsize < bytes.length / itemsize :=
            (Nat.div_lt_iff_lt_mul (by omega)).mpr hblock
          have hb := Nat.mod_lt i (show itemsize > 0 by omega)
          have hsplit : i / itemsize * itemsize + i % itemsize = i := Nat.div_add_mod' i itemsize
          rw [length_shuffle]
          refine ⟨i % itemsize, hb, i / itemsize, he, ?_, hsplit⟩
          rw [getElem?_shuffle h hb he, hsplit, List.getElem?_eq_getElem hi]
        · left
          rw [getElem?_shuffle_tail (by omega), List.getElem?_eq_getElem hi]
    · rw [List.getElem?_eq_none (by omega), List.getElem?_eq_none (by omega)]
  · rw [unshuffle, if_neg h, shuffle, if_neg h]

end Shuffle

/-! ## Writing -/

/-- zlib at both ends. -/
structure Zlib where
  deflate : UInt8 → List UInt8 → List UInt8
  inflate : List UInt8 → List UInt8 × Bool
  inverts : ∀ level bytes, inflate (deflate level bytes) = (bytes, true)

/-- The checksum as it is stored: by libhdf5 before 1.6.3 with swapped halves. -/
def storedSum (old : Bool) (bytes : List UInt8) : Nat :=
  if old then (swapHalves (UInt32.ofNat (fletcherReference bytes))).toNat
  else fletcherReference bytes

/-- Apply one filter. -/
def runFilter (zlib : Zlib) (old : Bool) (itemsize : Nat) : Filter → List UInt8 → List UInt8
  | .deflate level, bytes => zlib.deflate level bytes
  | .shuffle, bytes => shuffle bytes itemsize
  | .fletcher32, bytes => bytes ++ Endian.toLE 4 (storedSum old bytes)
  | .other _, bytes => bytes

/-- Apply one filter, unless the chunk's mask skips it. -/
def applyFilter (zlib : Zlib) (old : Bool) (mask itemsize : Nat) (stage : Filter × Nat)
    (bytes : List UInt8) : List UInt8 :=
  if mask.testBit stage.2 then bytes else runFilter zlib old itemsize stage.1 bytes

/-- A chunk through the pipeline. -/
def writeChunk (zlib : Zlib) (old : Bool) (mask itemsize : Nat) (filters : List Filter)
    (chunk : List UInt8) : List UInt8 :=
  Pipeline.forward (applyFilter zlib old mask itemsize) filters.zipIdx chunk

/-- The file holds some bytes where a chunk's entry says. -/
def Stored (raw : List UInt8) (entry : ChunkEntry) (bytes : List UInt8) : Prop :=
  entry.addr + entry.size ≤ raw.length ∧ Vec.slice raw entry.addr entry.size = bytes

/-- A filter that is decoded, at a place the mask has a bit for. -/
def FilterValid (stage : Filter × Nat) : Prop := stage.1.isDecoded = true ∧ stage.2 < 32

/-- A content that a filter can be undone to, where a chunk has `n` bytes. -/
def FilterFits (mask n : Nat) : Filter × Nat → List UInt8 → Prop
  | (.deflate _, i), content => mask.testBit i = true ∨ content.length ≤ n + 1
  | _, _ => True

section Undo

variable {zlib : Zlib} {old : Bool} {mask itemsize n : Nat} {name : String} {filters : List Filter}
  {raw chunk content spare : List UInt8} {entry : ChunkEntry}

theorem applyFilter_skipped {stage : Filter × Nat} (h : mask.testBit stage.2 = true) :
    applyFilter zlib old mask itemsize stage content = content := if_pos h

theorem applyFilter_run {stage : Filter × Nat} (h : ¬mask.testBit stage.2 = true) :
    applyFilter zlib old mask itemsize stage content = runFilter zlib old itemsize stage.1 content :=
  if_neg h

theorem storedSum_lt : storedSum old content < 256 ^ 4 := by
  unfold storedSum
  split
  · exact UInt32.toNat_lt _
  · rw [← fletcher32_toNat]
    exact UInt32.toNat_lt _

/-- Either spelling of the checksum is accepted. -/
theorem stripFletcher32_append :
    stripFletcher32 (content ++ Endian.toLE 4 (storedSum old content)) = some content := by
  unfold stripFletcher32
  rw [if_neg (by simp)]
  simp only [List.length_append, Endian.length_toLE, Nat.add_sub_cancel, List.take_left,
    List.drop_left, Endian.ofLE_toLE_of_lt storedSum_lt]
  rw [if_neg]
  unfold storedSum
  rw [← fletcher32_toNat, UInt32.ofNat_toNat]
  cases old <;> simp

/-- Undoing one filter, whatever the spare buffer holds. -/
theorem undoFilter_inverts : Pipeline.Inverts (applyFilter zlib old entry.filterMask itemsize)
    (undoFilter zlib.inflate entry itemsize n) FilterValid (FilterFits entry.filterMask n) := by
  intro stage content spare hvalid hfits
  obtain ⟨filter, i⟩ := stage
  obtain ⟨hdecoded, hi⟩ := hvalid
  dsimp only at hi
  unfold undoFilter
  dsimp only
  rw [Nat.mod_eq_of_lt hi]
  by_cases hmask : entry.filterMask.testBit i = true
  · rw [if_pos hmask, applyFilter_skipped hmask]
    exact ⟨spare, rfl⟩
  rw [if_neg hmask, applyFilter_run hmask]
  cases filter with
  | deflate level =>
      refine ⟨zlib.deflate level content, ?_⟩
      have hlen : content.length ≤ n + 1 := hfits.resolve_left hmask
      have hout : inflateUpTo zlib.inflate (zlib.deflate level content) n = some content := by
        unfold inflateUpTo
        rw [zlib.inverts]
        dsimp only
        split
        · rename_i hle
          rw [← Nat.le_antisymm hlen hle, List.take_length]
        · rfl
      simp only [runFilter, hout]
  | shuffle => exact ⟨shuffle content itemsize, by simp only [runFilter, unshuffle_shuffle]⟩
  | fletcher32 => exact ⟨spare, by simp only [runFilter, stripFletcher32_append]⟩
  | other debug => cases hdecoded

/-- A dataset is opened only with filters that are decoded. -/
theorem isDecoded_of_checked {checked : List Filter} (h : checkFilters name filters = .ok checked) :
    checked = filters ∧ ∀ filter ∈ filters, filter.isDecoded = true := by
  unfold checkFilters at h
  split at h
  · cases h
  · rename_i hnone
    cases h
    exact ⟨rfl, fun filter hmem => by simpa using List.find?_eq_none.mp hnone filter hmem⟩

theorem zipIdx_valid (hopen : checkFilters name filters = .ok filters) (hlen : filters.length ≤ 32) :
    ∀ stage ∈ filters.zipIdx, FilterValid stage := by
  intro stage hstage
  obtain ⟨filter, i⟩ := stage
  rw [List.mk_mem_zipIdx_iff_getElem?] at hstage
  have hi := (List.getElem?_eq_some_iff.mp hstage).1
  exact ⟨(isDecoded_of_checked hopen).2 filter (List.mem_of_getElem? hstage), by omega⟩

/-- A chunk comes back when every deflate was applied to at most a byte more than it. -/
theorem decode_writeChunk (hopen : checkFilters name filters = .ok filters)
    (hlen : filters.length ≤ 32)
    (hstored : Stored raw entry (writeChunk zlib old entry.filterMask itemsize filters chunk))
    (hfits : Pipeline.Admits (applyFilter zlib old entry.filterMask itemsize)
      (FilterFits entry.filterMask chunk.length) filters.zipIdx chunk) :
    decode zlib.inflate filters itemsize chunk.length raw entry spare = .ok chunk := by
  obtain ⟨spare', hback⟩ := Pipeline.backward_forward (b := spare) undoFilter_inverts
    (zipIdx_valid hopen hlen) hfits
  unfold decode
  rw [if_pos hstored.1, hstored.2]
  refine Fallible.bind_eq_ok.mpr ⟨_, rfl, Fallible.bind_eq_ok.mpr ⟨_, hback, ?_⟩⟩
  exact if_neg (not_not_intro rfl)

end Undo

/-! ## What is inflated too far -/

/-- A deflate that adds zeros, so many that a stream cut to one byte more than `n` has
lost some of them. -/
def padded (n : Nat) : Zlib where
  deflate _ bytes := bytes ++ List.replicate (n + 2) 0
  inflate bytes :=
    if n + 2 ≤ bytes.length then (bytes.take (bytes.length - (n + 2)), true) else ([], false)
  inverts _ bytes := by simp

/-- Filters that may come one before the other: before a deflate, only shuffles. -/
def Before (mask : Nat) (first later : Filter × Nat) : Prop :=
  (∃ level, later.1 = .deflate level) → mask.testBit later.2 = false →
    mask.testBit first.2 = false → first.1 = .shuffle

/-- Bytes too short to be the content, and to be a padded stream. -/
def Short (mask itemsize n : Nat) (chunk : List UInt8) (stages : List (Filter × Nat))
    (bytes : List UInt8) : Prop :=
  bytes.length ≤ n + 1 ∧
    bytes.length < (Pipeline.forward (applyFilter (padded n) false mask itemsize) stages chunk).length

section Padded

variable {zlib : Zlib} {old : Bool} {mask itemsize n : Nat} {stages : List (Filter × Nat)}
  {stage : Filter × Nat} {chunk content spare : List UInt8} {entry : ChunkEntry}

theorem length_applyFilter_shuffle (h : mask.testBit stage.2 = false → stage.1 = .shuffle) :
    (applyFilter zlib old mask itemsize stage content).length = content.length := by
  unfold applyFilter
  split
  · rfl
  · rename_i hmask
    rw [h (by simpa using hmask)]
    exact length_shuffle

theorem length_forward_shuffles
    (h : ∀ stage ∈ stages, mask.testBit stage.2 = false → stage.1 = .shuffle) :
    (Pipeline.forward (applyFilter zlib old mask itemsize) stages chunk).length = chunk.length := by
  induction stages using List.reverseRecOn with
  | nil => rfl
  | append_singleton stages stage ih =>
      obtain ⟨hstages, hlast⟩ := Pipeline.forall_mem_concat.mp h
      rw [Pipeline.forward_concat, length_applyFilter_shuffle hlast, ih hstages]

/-- Nothing shrinks, and what is not shuffled grows by more than one byte. -/
theorem length_applyFilter_padded (hvalid : FilterValid stage) :
    content.length ≤ (applyFilter (padded n) old mask itemsize stage content).length ∧
      (mask.testBit stage.2 = false → stage.1 ≠ .shuffle →
        content.length + 2 ≤ (applyFilter (padded n) old mask itemsize stage content).length) := by
  obtain ⟨filter, i⟩ := stage
  unfold applyFilter
  split
  · rename_i hmask
    simp [hmask]
  · cases filter with
    | deflate level => simp [runFilter, padded]
    | shuffle => simp [runFilter]
    | fletcher32 => simp [runFilter]
    | other debug => cases hvalid.1

theorem length_forward_padded (hvalid : ∀ stage ∈ stages, FilterValid stage) :
    chunk.length ≤ (Pipeline.forward (applyFilter (padded n) old mask itemsize) stages chunk).length ∧
      ((∃ stage ∈ stages, mask.testBit stage.2 = false ∧ stage.1 ≠ .shuffle) → chunk.length + 2 ≤
        (Pipeline.forward (applyFilter (padded n) old mask itemsize) stages chunk).length) := by
  induction stages using List.reverseRecOn with
  | nil => exact ⟨Nat.le_refl _, by simp⟩
  | append_singleton stages stage ih =>
      obtain ⟨hbefore, hlast⟩ := Pipeline.forall_mem_concat.mp hvalid
      obtain ⟨hle, hgrown⟩ := ih hbefore
      obtain ⟨hstep, hstepGrown⟩ := @length_applyFilter_padded old mask itemsize n stage
        (Pipeline.forward (applyFilter (padded n) old mask itemsize) stages chunk) hlast
      rw [Pipeline.forward_concat]
      refine ⟨le_trans hle hstep, ?_⟩
      intro h
      obtain ⟨first, hfirst, hmask, hne⟩ := h
      rcases List.mem_append.mp hfirst with hfirst | hfirst
      · exact le_trans (hgrown ⟨first, hfirst, hmask, hne⟩) hstep
      · obtain rfl := List.mem_singleton.mp hfirst
        exact le_trans (Nat.add_le_add_right hle 2) (hstepGrown hmask hne)

/-- With only shuffles before each deflate, all of them fit. -/
theorem admits_of_before (h : stages.Pairwise (Before mask)) :
    Pipeline.Admits (applyFilter zlib old mask itemsize) (FilterFits mask chunk.length) stages
      chunk := by
  induction stages using List.reverseRecOn with
  | nil => trivial
  | append_singleton stages stage ih =>
      rw [List.pairwise_append] at h
      obtain ⟨hstages, -, hlast⟩ := h
      refine Pipeline.admits_concat.mpr ⟨ih hstages, ?_⟩
      obtain ⟨filter, i⟩ := stage
      cases filter with
      | deflate level =>
          cases hmask : mask.testBit i with
          | true => exact Or.inl hmask
          | false =>
              right
              rw [length_forward_shuffles]
              · omega
              · intro first hfirst hunmasked
                exact hlast first hfirst _ List.mem_cons_self ⟨level, rfl⟩ hmask hunmasked
      | shuffle | fletcher32 | other _ => trivial

/-- And with padding no others do. -/
theorem before_of_admits (hvalid : ∀ stage ∈ stages, FilterValid stage)
    (h : Pipeline.Admits (applyFilter (padded chunk.length) old mask itemsize)
      (FilterFits mask chunk.length) stages chunk) : stages.Pairwise (Before mask) := by
  induction stages using List.reverseRecOn with
  | nil => exact .nil
  | append_singleton stages stage ih =>
      obtain ⟨hbefore, -⟩ := Pipeline.forall_mem_concat.mp hvalid
      obtain ⟨hstages, hlast⟩ := Pipeline.admits_concat.mp h
      rw [List.pairwise_append]
      refine ⟨ih hbefore hstages, List.pairwise_singleton _ _, ?_⟩
      intro first hfirst later hlater hdeflate hmask hunmasked
      obtain rfl := List.mem_singleton.mp hlater
      obtain ⟨filter, i⟩ := later
      obtain ⟨level, rfl⟩ := hdeflate
      by_contra hne
      have hgrown := (@length_forward_padded old mask itemsize chunk.length stages chunk hbefore).2
        ⟨first, hfirst, hunmasked, hne⟩
      rcases hlast with hmasked | hle
      · rw [hmask] at hmasked
        cases hmasked
      · omega

/-- A filter whose content does not fit leaves it short. -/
theorem padded_breaks : Pipeline.Breaks (applyFilter (padded n) false entry.filterMask itemsize)
    (undoFilter (padded n).inflate entry itemsize n) FilterValid (FilterFits entry.filterMask n)
    (Short entry.filterMask itemsize n chunk) chunk := by
  intro stages stage spare out hvalid hfits h
  obtain ⟨filter, i⟩ := stage
  cases filter with
  | deflate level =>
      obtain ⟨hmask, hlen⟩ := not_or.mp hfits
      have hi : i < 32 := hvalid.2
      unfold undoFilter at h
      dsimp only at h
      rw [Nat.mod_eq_of_lt hi, if_neg hmask, applyFilter_run hmask] at h
      generalize hcontent : Pipeline.forward (applyFilter (padded n) false entry.filterMask itemsize)
        stages chunk = content at h hlen
      have hout : inflateUpTo (padded n).inflate ((padded n).deflate level content) n =
          some (content.take (n + 1)) := by
        unfold inflateUpTo
        rw [(padded n).inverts]
        exact if_pos (by omega)
      simp only [runFilter, hout] at h
      cases h
      refine ⟨List.length_take_le _ _, ?_⟩
      rw [hcontent, List.length_take]
      omega
  | shuffle | fletcher32 | other _ => exact absurd trivial hfits

/-- What is short stays so. -/
theorem padded_keeps : Pipeline.Keeps (undoFilter (padded n).inflate entry itemsize n) FilterValid
    (Short entry.filterMask itemsize n chunk) := by
  intro stages stage bytes spare out hvalid hshort h
  obtain ⟨filter, i⟩ := stage
  obtain ⟨hle, hlt⟩ := hshort
  have hi : i < 32 := hvalid.2
  rw [Pipeline.forward_concat] at hlt
  unfold undoFilter at h
  dsimp only at h
  rw [Nat.mod_eq_of_lt hi] at h
  by_cases hmask : entry.filterMask.testBit i = true
  · rw [if_pos hmask] at h
    rw [applyFilter_skipped hmask] at hlt
    cases h
    exact ⟨hle, hlt⟩
  rw [if_neg hmask] at h
  rw [applyFilter_run hmask] at hlt
  cases filter with
  | deflate level =>
      have hout : inflateUpTo (padded n).inflate bytes n = none := by
        have hyield : (padded n).inflate bytes = ([], false) := if_neg (by omega)
        unfold inflateUpTo
        rw [hyield]
        rfl
      simp only [hout] at h
      cases h
  | shuffle =>
      cases h
      rw [runFilter, length_shuffle] at hlt
      exact ⟨by rwa [length_unshuffle], by rwa [length_unshuffle]⟩
  | fletcher32 =>
      dsimp only at h
      split at h
      · rename_i body hbody
        cases h
        rw [runFilter, List.length_append, Endian.length_toLE] at hlt
        unfold stripFletcher32 at hbody
        split at hbody
        · cases hbody
        · rename_i hlong
          dsimp only at hbody
          split at hbody
          · cases hbody
          · cases hbody
            unfold Short
            rw [List.length_take]
            omega
      · cases h
  | other debug => cases hvalid.1

end Padded

section Exact

variable {name : String} {filters : List Filter} {chunk : List UInt8} {itemsize mask : Nat}

/-- Every zlib gives every chunk back through a pipeline if and only if, among the
filters not skipped, only shuffles were applied before a deflate. -/
theorem decode_writeChunk_iff (hopen : checkFilters name filters = .ok filters)
    (hlen : filters.length ≤ 32) :
    (∀ (zlib : Zlib) (old : Bool) (raw : List UInt8) (entry : ChunkEntry), entry.filterMask = mask →
      Stored raw entry (writeChunk zlib old mask itemsize filters chunk) → ∀ spare,
        decode zlib.inflate filters itemsize chunk.length raw entry spare = .ok chunk) ↔
      filters.zipIdx.Pairwise (Before mask) := by
  have hvalid := zipIdx_valid hopen hlen
  constructor
  · intro h
    by_contra hbefore
    have hfits : ¬Pipeline.Admits (applyFilter (padded chunk.length) false mask itemsize)
        (FilterFits mask chunk.length) filters.zipIdx chunk :=
      fun hadmits => hbefore (before_of_admits hvalid hadmits)
    have hentry : Stored (writeChunk (padded chunk.length) false mask itemsize filters chunk)
        ⟨0, (writeChunk (padded chunk.length) false mask itemsize filters chunk).length, mask⟩
        (writeChunk (padded chunk.length) false mask itemsize filters chunk) := by
      simp [Stored, Vec.slice]
    have hdecode := h (padded chunk.length) false _ _ rfl hentry []
    unfold decode at hdecode
    rw [if_pos hentry.1, hentry.2] at hdecode
    obtain ⟨bytes, hbytes, hdecode⟩ := Fallible.bind_eq_ok.mp hdecode
    cases hbytes
    obtain ⟨out, hback, hdecode⟩ := Fallible.bind_eq_ok.mp hdecode
    have hshort := Pipeline.backward_breaks undoFilter_inverts padded_breaks padded_keeps hvalid hfits
      hback
    have hlt : out.1.length < chunk.length := hshort.2
    dsimp only at hdecode
    rw [if_pos (by omega)] at hdecode
    cases hdecode
  · intro hbefore zlib old raw entry hmask hstored spare
    subst hmask
    exact decode_writeChunk hopen hlen hstored (admits_of_before hbefore)

end Exact

/-- The usual pipeline, for a chunk whose last element is cut. -/
theorem decode_writeChunk_iff_usual :
    decode (padded 5).inflate [.shuffle, .deflate 9, .fletcher32] 2 5
      (writeChunk (padded 5) false 0 2 [.shuffle, .deflate 9, .fletcher32] [1, 2, 3, 4, 5])
      ⟨0, (writeChunk (padded 5) false 0 2 [.shuffle, .deflate 9, .fletcher32]
        [1, 2, 3, 4, 5]).length, 0⟩ [] = .ok [1, 2, 3, 4, 5] := by
  have hopen : checkFilters "d" [.shuffle, .deflate 9, .fletcher32] =
      .ok [.shuffle, .deflate 9, .fletcher32] := rfl
  have hall := (@decode_writeChunk_iff "d" _ [1, 2, 3, 4, 5] 2 0 hopen (by decide)).mpr
    (by simp [Before])
  exact hall (padded 5) false _ _ rfl (by simp [Stored, Vec.slice]) []

/-- A checksum under a deflate: five bytes to inflate to, where a chunk has one. -/
theorem checksum_under_deflate_lost :
    checkFilters "d" [.fletcher32, .deflate 6] = .ok [.fletcher32, .deflate 6] ∧
    Stored (writeChunk (padded 1) false 0 1 [.fletcher32, .deflate 6] [7]) ⟨0, 8, 0⟩
      (writeChunk (padded 1) false 0 1 [.fletcher32, .deflate 6] [7]) ∧
    decode (padded 1).inflate [.fletcher32, .deflate 6] 1 1
      (writeChunk (padded 1) false 0 1 [.fletcher32, .deflate 6] [7]) ⟨0, 8, 0⟩ [] =
        .error (.error (.malformedHdf5 "chunk at byte 0: fletcher32 checksum mismatch")) := by
  refine ⟨rfl, ⟨by decide, by decide⟩, by rfl⟩

end Aex
