import Aex.Lib.Crc32c
import Aex.Core.Backends.ZarrRead

/-!
# The index of a shard

What the index codecs of an array's metadata declare is how an index was written:
the order of the bytes of its numbers, and the checksums behind them.  A reader
keeps a byte count and two booleans of it.
-/

namespace Aex

/-! ## Writing -/

/-- The order of the bytes of a number. -/
inductive Endianness where
  | little
  | big
  deriving Repr, DecidableEq

def Endianness.bytes : Endianness → Nat → List UInt8
  | .little, n => Endian.toLE 8 n
  | .big, n => (Endian.toLE 8 n).reverse

/-- An entry of the index, as written. -/
def ShardEntry.bytes (endian : Endianness) (entry : ShardEntry) : List UInt8 :=
  endian.bytes entry.offset ++ endian.bytes entry.nbytes

/-- Put checksums behind some bytes, each over all that comes before it. -/
def withChecksums (crc32c : List UInt8 → UInt32) : Nat → List UInt8 → List UInt8
  | 0, bytes => bytes
  | count + 1, bytes => withChecksums crc32c count (bytes ++ Endian.toLE 4 (crc32c bytes).toNat)

/-- How the codecs of an index write it. -/
structure IndexChain where
  endian : Endianness
  checksums : Nat
  deriving Repr, DecidableEq

namespace IndexChain

/-- What index codecs declare: one that makes bytes of the numbers, then checksums. -/
def declared : List Named → Option IndexChain
  | [] => none
  | codec :: rest =>
      if codec.name = "bytes" ∧ ∀ other ∈ rest, other.name = "crc32c" then
        match codec.configuration.lookup "endian" with
        | none => some ⟨.little, rest.length⟩
        | some (.string "little") => some ⟨.little, rest.length⟩
        | some (.string "big") => some ⟨.big, rest.length⟩
        | some _ => none
      else none

def encode (chain : IndexChain) (crc32c : List UInt8 → UInt32) (entries : List ShardEntry) :
    List UInt8 :=
  withChecksums crc32c chain.checksums (entries.flatMap (ShardEntry.bytes chain.endian))

end IndexChain

namespace Sharded

/-- What an entry may be in a file of so many bytes. -/
def Allowed (fileLen : Nat) (entry : ShardEntry) : Prop :=
  entry = .missing ∨ entry.offset + entry.nbytes < Word.size 64 ∧ entry.offset + entry.nbytes ≤ fileLen

instance (fileLen : Nat) (entry : ShardEntry) : Decidable (Allowed fileLen entry) :=
  inferInstanceAs (Decidable (_ ∨ _))

/-- A shard as a writer leaves it: no file and nothing written, or a file with the
index at its end or start and every inner chunk that was written inside it. -/
def Shelved (sharded : Sharded) (lib : Library) (chain : IndexChain) (root : StoreRoot)
    (keyOf : Nat → Option String) (shard : Nat) (entries : List ShardEntry) : Prop :=
  entries.length = sharded.inner.chunks ∧ ∃ key, keyOf shard = some key ∧
    (root key = .ok none ∧ entries = List.replicate sharded.inner.chunks .missing ∨
      ∃ file rest, root key = .ok (some file) ∧
        file = (if sharded.indexAtStart then chain.encode lib.crc32c entries ++ rest
          else rest ++ chain.encode lib.crc32c entries) ∧
        ∀ entry ∈ entries, Allowed file.length entry)

/-! ## Reading -/

/-- Entry `i` of an index without its checksum. -/
def entryAt (raw : List UInt8) (i : Nat) : ShardEntry :=
  ⟨Endian.ofLE ((Vec.slice raw (i * 16) 16).take 8), Endian.ofLE ((Vec.slice raw (i * 16) 16).drop 8)⟩

/-- The entries of one shard, if they can be read. -/
def shardEntries (sharded : Sharded) (lib : Library) (root : StoreRoot)
    (keyOf : Nat → Option String) (shard : Nat) : Option (List ShardEntry) := do
  let key ← keyOf shard
  match root key with
  | .error _ => none
  | .ok none => some (List.replicate sharded.inner.chunks .missing)
  | .ok (some file) =>
      match sharded.rawIndex lib key file with
      | .error _ => none
      | .ok raw =>
          let entries := (List.range sharded.inner.chunks).map (entryAt raw)
          if ∀ entry ∈ entries, Allowed file.length entry then some entries else none

/-- The room the index takes is that of its entries and one checksum. -/
def Roomy (sharded : Sharded) : Prop :=
  sharded.indexBytes = sharded.inner.chunks * 16 + if sharded.indexCrc32c then 4 else 0

variable {sharded : Sharded} {lib : Library} {root : StoreRoot} {keyOf : Nat → Option String}
  {key : String} {file raw : List UInt8} {entries index next : List ShardEntry}
  {itemsize shard i m : Nat}

theorem isMissing_iff {entry : ShardEntry} : entry.isMissing = true ↔ entry = .missing := by
  cases entry
  simp [ShardEntry.isMissing, ShardEntry.missing]

theorem length_rawIndex (hroomy : sharded.Roomy) (h : sharded.rawIndex lib key file = .ok raw) :
    raw.length = sharded.inner.chunks * 16 := by
  unfold rawIndex at h
  split at h
  · cases h
  rename_i hlong
  generalize hat : (if sharded.indexAtStart then 0 else file.length - sharded.indexBytes) = at_ at h
  have hslice : (Vec.slice file at_ sharded.indexBytes).length = sharded.indexBytes := by
    apply Vec.length_slice
    rw [← hat]
    split <;> omega
  rw [Roomy] at hroomy
  dsimp only at h
  split at h
  · rename_i hcrc
    rw [if_pos hcrc] at hroomy
    obtain ⟨-, rfl⟩ := Library.stripCrc32c_eq_some (Fallible.elim_eq_ok.mp h)
    rw [List.length_take, hslice, hroomy]
    omega
  · rename_i hcrc
    rw [if_neg hcrc] at hroomy
    cases h
    rw [hslice, hroomy, Nat.add_zero]

theorem length_shardEntries (h : sharded.shardEntries lib root keyOf shard = some entries) :
    entries.length = sharded.inner.chunks := by
  unfold shardEntries at h
  obtain ⟨key, -, h⟩ := Option.bind_eq_some_iff.mp h
  split at h
  · cases h
  · cases h
    exact List.length_replicate
  split at h
  · cases h
  dsimp only at h
  split at h
  · cases h
    simp
  · cases h

theorem addEntry_eq : sharded.addEntry key shard m raw index i =
    if raw.length < (i + 1) * 16 then .error .panic
    else if (entryAt raw i).isMissing then .ok index
    else if Word.size 64 ≤ (entryAt raw i).offset + (entryAt raw i).nbytes ∨
        m < (entryAt raw i).offset + (entryAt raw i).nbytes then
      .error (.error (.malformedZarr
        s!"shard {key}: an inner chunk of {(entryAt raw i).nbytes} bytes at {(entryAt raw i).offset} does not fit {m} bytes"))
    else if sharded.number shard i < index.length then
      .ok (index.set (sharded.number shard i) (entryAt raw i))
    else .error .panic := rfl

/-- Putting one entry in its place in a table that is missing from there on. -/
theorem Sound.addEntry_eq_ok {front : List ShardEntry} (h : sharded.Sound itemsize)
    (hshard : shard < sharded.shards.chunks) (hi : i < sharded.inner.chunks)
    (hraw : raw.length = sharded.inner.chunks * 16)
    (hfront : front.length = shard * sharded.inner.chunks + i) :
    sharded.addEntry key shard file.length raw (front ++ List.replicate (1 + m) .missing) i = .ok next ↔
      ∃ entries, (if Allowed file.length (entryAt raw i) then some [entryAt raw i] else none) =
        some entries ∧ next = front ++ entries ++ List.replicate m .missing := by
  have hset : (front ++ List.replicate (1 + m) ShardEntry.missing).set front.length (entryAt raw i) =
      front ++ [entryAt raw i] ++ List.replicate m .missing := by
    rw [Nat.add_comm, List.replicate_succ, List.set_append_right _ _ (Nat.le_refl _), Nat.sub_self,
      List.set_cons_zero, List.append_assoc]
    rfl
  have hkeep : entryAt raw i = .missing → front ++ List.replicate (1 + m) ShardEntry.missing =
      front ++ [entryAt raw i] ++ List.replicate m .missing := by
    intro hmissing
    rw [hmissing, Nat.add_comm, List.replicate_succ, List.append_assoc]
    rfl
  rw [addEntry_eq, if_neg (by omega), (h.number_eq hshard hi).1, ← hfront,
    if_pos (show front.length < (front ++ List.replicate (1 + m) ShardEntry.missing).length by simp),
    hset]
  by_cases hmissing : (entryAt raw i).isMissing = true
  · have hallowed : Allowed file.length (entryAt raw i) := Or.inl (isMissing_iff.mp hmissing)
    rw [if_pos hmissing, if_pos hallowed, hkeep (isMissing_iff.mp hmissing)]
    simp [eq_comm]
  · rw [if_neg hmissing]
    rw [isMissing_iff] at hmissing
    have hallowed : Allowed file.length (entryAt raw i) ↔
        ¬(Word.size 64 ≤ (entryAt raw i).offset + (entryAt raw i).nbytes ∨
          file.length < (entryAt raw i).offset + (entryAt raw i).nbytes) := by
      unfold Allowed
      rw [not_or, Nat.not_le, Nat.not_lt]
      simp [hmissing]
    by_cases hbad : Word.size 64 ≤ (entryAt raw i).offset + (entryAt raw i).nbytes ∨
        file.length < (entryAt raw i).offset + (entryAt raw i).nbytes
    · rw [if_pos hbad, if_neg (fun h => hallowed.mp h hbad)]
      simp
    · rw [if_neg hbad, if_pos (hallowed.mpr hbad)]
      simp [eq_comm]

/-- Reading one shard's index into a table that is missing from there on. -/
theorem Sound.addShard_eq_ok {front : List ShardEntry} (h : sharded.Sound itemsize)
    (hroomy : sharded.Roomy) (hshard : shard < sharded.shards.chunks)
    (hfront : front.length = 0 + shard * sharded.inner.chunks) :
    sharded.addShard lib root keyOf (front ++ List.replicate (sharded.inner.chunks + m) .missing)
        shard = .ok next ↔
      ∃ entries, sharded.shardEntries lib root keyOf shard = some entries ∧
        next = front ++ entries ++ List.replicate m .missing := by
  unfold addShard shardEntries
  cases keyOf shard with
  | none => simp
  | some key =>
      simp only [Option.bind_eq_bind, Option.bind_some]
      cases root key with
      | error e => simp
      | ok file =>
          cases file with
          | none => simp [eq_comm]
          | some file =>
              dsimp only
              cases hraw : sharded.rawIndex lib key file with
              | error e => simp
              | ok raw =>
                  have hlen := length_rawIndex hroomy hraw
                  have hfill := @Fallible.foldlM_fill _ _ front next .missing
                    (sharded.addEntry key shard file.length raw)
                    (fun i => if Allowed file.length (entryAt raw i) then some [entryAt raw i] else none)
                    1 (shard * sharded.inner.chunks) 0 sharded.inner.chunks m
                    (by
                      intro i entries hentries
                      rw [← Option.some.inj (Option.ite_none_right_eq_some.mp hentries).2]
                      rfl)
                    (by
                      intro i hi front m next hfront
                      rw [Nat.mul_one] at hfront
                      exact h.addEntry_eq_ok hshard (by omega) hlen hfront)
                    (by omega)
                  dsimp only
                  rw [Nat.mul_one] at hfill
                  rw [List.range_eq_range', hfill]
                  simp only [Fallible.mapM_ite_eq_some]
                  constructor
                  · intro h
                    obtain ⟨_, ⟨hall, rfl⟩, rfl⟩ := h
                    refine ⟨_, if_pos ?_, ?_⟩
                    · simpa using hall
                    · rw [← List.flatMap_def, ← List.map_eq_flatMap]
                  · intro h
                    obtain ⟨entries, hentries, rfl⟩ := h
                    have hall := (Option.ite_none_right_eq_some.mp hentries).1
                    rw [← Option.some.inj (Option.ite_none_right_eq_some.mp hentries).2]
                    refine ⟨_, ⟨by simpa using hall, rfl⟩, ?_⟩
                    rw [← List.flatMap_def, ← List.map_eq_flatMap]

/-- The table is what each shard's entries come to, one shard after another. -/
theorem Sound.index_eq_ok (h : sharded.Sound itemsize) (hroomy : sharded.Roomy) :
    sharded.index lib root keyOf = .ok index ↔
      ∃ tables, (List.range sharded.shards.chunks).mapM (sharded.shardEntries lib root keyOf) =
        some tables ∧ index = tables.flatten := by
  have hfill := @Fallible.foldlM_fill _ _ [] index .missing (sharded.addShard lib root keyOf)
    (sharded.shardEntries lib root keyOf) sharded.inner.chunks 0 0 sharded.shards.chunks 0
    (fun i entries hentries => length_shardEntries hentries)
    (by
      intro shard hshard front m next hfront
      exact h.addShard_eq_ok hroomy (by omega) hfront)
    (by simp)
  unfold Sharded.index
  rw [Word.wrappingMul_of_lt h.few_lt, List.range_eq_range']
  simpa using hfill

/-! ## What was written is read -/

/-- Bytes with checksums behind them start with themselves and their own checksum. -/
theorem withChecksums_succ (crc32c : List UInt8 → UInt32) (count : Nat) (bytes : List UInt8) :
    ∃ tail, withChecksums crc32c (count + 1) bytes =
      bytes ++ Endian.toLE 4 (crc32c bytes).toNat ++ tail := by
  induction count generalizing bytes with
  | zero => exact ⟨[], by rw [List.append_nil]; rfl⟩
  | succ count ih =>
      obtain ⟨tail, htail⟩ := ih (bytes ++ Endian.toLE 4 (crc32c bytes).toNat)
      exact ⟨_, by rw [withChecksums, htail, List.append_assoc]⟩

theorem length_bytes (endian : Endianness) (entry : ShardEntry) : (entry.bytes endian).length = 16 := by
  cases endian <;> simp [ShardEntry.bytes, Endianness.bytes]

theorem length_flatMap_bytes (endian : Endianness) (entries : List ShardEntry) :
    (entries.flatMap (ShardEntry.bytes endian)).length = entries.length * 16 := by
  induction entries with
  | nil => rfl
  | cons entry entries ih =>
      rw [List.flatMap_cons, List.length_append, length_bytes, ih, List.length_cons]
      omega

theorem parseIndexCodecs_checksums {codecs : List Named} (pfx : String) (checked : Bool)
    (h : ∀ codec ∈ codecs, codec.name = "crc32c") :
    codecs.foldlM (fun checked codec =>
        match codec.name with
        | "bytes" => .ok checked
        | "crc32c" => .ok true
        | other => .error (.unsupportedZarr
            s!"{pfx}: the shard index uses the {other.quote} codec, which would move it")) checked =
      (Except.ok (checked || decide (0 < codecs.length)) : Except AexError Bool) := by
  induction codecs generalizing checked with
  | nil => simp [pure, Except.pure]
  | cons codec codecs ih =>
      rw [List.forall_mem_cons] at h
      rw [List.foldlM_cons, h.1]
      simpa [Bind.bind, Except.bind] using ih true h.2

/-- Codecs that an index can be written with are accepted. -/
theorem parseIndexCodecs_declared {pfx : String} {codecs : List Named} {chain : IndexChain}
    (h : IndexChain.declared codecs = some chain) :
    parseIndexCodecs pfx codecs = .ok (decide (0 < chain.checksums)) := by
  cases codecs with
  | nil => cases h
  | cons codec rest =>
      rw [IndexChain.declared] at h
      split at h
      · rename_i hnames
        have hcount : chain.checksums = rest.length := by
          split at h <;> cases h <;> rfl
        have hrest := parseIndexCodecs_checksums pfx false hnames.2
        rw [Bool.false_or, ← hcount] at hrest
        rw [parseIndexCodecs, List.foldlM_cons, hnames.1]
        exact hrest
      · cases h

variable {chain : IndexChain} {rest : List UInt8}

/-- The part of an index that is read: its entries and the first checksum. -/
def kept (chain : IndexChain) (crc32c : List UInt8 → UInt32) (entries : List ShardEntry) :
    List UInt8 :=
  let body := entries.flatMap (ShardEntry.bytes chain.endian)
  if 0 < chain.checksums then body ++ Endian.toLE 4 (crc32c body).toNat else body

theorem encode_eq (chain : IndexChain) (crc32c : List UInt8 → UInt32) (entries : List ShardEntry) :
    ∃ tail, chain.encode crc32c entries = kept chain crc32c entries ++ tail ∧
      (chain.checksums ≤ 1 → tail = []) := by
  unfold IndexChain.encode kept
  cases hcount : chain.checksums with
  | zero => exact ⟨[], by simp [withChecksums], fun _ => rfl⟩
  | succ count =>
      dsimp only
      rw [if_pos (Nat.succ_pos count)]
      cases count with
      | zero => exact ⟨[], by simp [withChecksums], fun _ => rfl⟩
      | succ count =>
          obtain ⟨tail, htail⟩ := withChecksums_succ crc32c (count + 1)
            (entries.flatMap (ShardEntry.bytes chain.endian))
          exact ⟨tail, htail, fun h => by omega⟩

/-- An index with at most one checksum, or at the start, is found where it was put. -/
theorem rawIndex_encode (hroomy : sharded.Roomy)
    (hcrc : sharded.indexCrc32c = decide (0 < chain.checksums))
    (hplace : chain.checksums ≤ 1 ∨ sharded.indexAtStart = true)
    (hlen : entries.length = sharded.inner.chunks)
    (hfile : file = if sharded.indexAtStart then chain.encode lib.crc32c entries ++ rest
      else rest ++ chain.encode lib.crc32c entries) :
    sharded.rawIndex lib key file = .ok (entries.flatMap (ShardEntry.bytes chain.endian)) := by
  have hbody := length_flatMap_bytes chain.endian entries
  rw [hlen] at hbody
  have hkept : (kept chain lib.crc32c entries).length = sharded.indexBytes := by
    rw [hroomy, hcrc, kept]
    by_cases hcount : 0 < chain.checksums
    · simp [hcount, hbody]
    · simp [hcount, hbody]
  obtain ⟨tail, htail, hnil⟩ := encode_eq chain lib.crc32c entries
  have hslice : Vec.slice file (if sharded.indexAtStart then 0 else file.length - sharded.indexBytes)
      sharded.indexBytes = kept chain lib.crc32c entries ∧ ¬file.length < sharded.indexBytes := by
    rw [hfile, htail, ← hkept]
    cases hstart : sharded.indexAtStart with
    | true =>
        rw [if_pos rfl, if_pos rfl, List.append_assoc, Vec.slice_append_left (by omega),
          Vec.slice_of_length_le (Nat.le_refl _)]
        simp
    | false =>
        rw [hstart] at hplace
        rw [if_neg Bool.false_ne_true, if_neg Bool.false_ne_true, hnil (by simpa using hplace),
          List.append_nil, List.length_append, Nat.add_sub_cancel, ← Nat.add_zero rest.length,
          Vec.slice_append_right, Vec.slice_of_length_le (Nat.le_refl _)]
        simp
  unfold rawIndex
  rw [if_neg hslice.2]
  dsimp only
  rw [hslice.1, hcrc, kept]
  by_cases hcount : 0 < chain.checksums
  · rw [decide_eq_true hcount, if_pos rfl, if_pos hcount, Library.stripCrc32c_append]
    rfl
  · rw [decide_eq_false hcount, if_neg Bool.false_ne_true, if_neg hcount]

/-- An entry read from where one was written little-endian. -/
theorem entryAt_flatMap {endian : Endianness} (hi : i < entries.length) :
    entryAt (entries.flatMap (ShardEntry.bytes endian)) i =
      ⟨Endian.ofLE (endian.bytes entries[i].offset), Endian.ofLE (endian.bytes entries[i].nbytes)⟩ := by
  have hoffset : (endian.bytes entries[i].offset).length = 8 := by
    cases endian <;> simp [Endianness.bytes]
  rw [entryAt, Vec.slice_flatMap_one (fun entry _ => length_bytes endian entry) hi, ShardEntry.bytes,
    List.take_left' hoffset, List.drop_left' hoffset]

/-- A shard whose index was written little-endian where it is looked for is read back. -/
theorem shardEntries_of_shelved (hroomy : sharded.Roomy)
    (hcrc : sharded.indexCrc32c = decide (0 < chain.checksums)) (hlittle : chain.endian = .little)
    (hplace : chain.checksums ≤ 1 ∨ sharded.indexAtStart = true)
    (h : sharded.Shelved lib chain root keyOf shard entries) :
    sharded.shardEntries lib root keyOf shard = some entries := by
  obtain ⟨hlen, key, hkey, h⟩ := h
  unfold shardEntries
  rw [hkey]
  simp only [Option.bind_eq_bind, Option.bind_some]
  rcases h with h | h
  · rw [h.1, h.2]
  · obtain ⟨file, rest, hroot, hfile, hinside⟩ := h
    rw [hroot]
    dsimp only
    rw [rawIndex_encode hroomy hcrc hplace hlen hfile]
    have hfits : ∀ entry ∈ entries, entry.offset < 256 ^ 8 ∧ entry.nbytes < 256 ^ 8 := by
      intro entry hentry
      rcases hinside entry hentry with rfl | hallowed
      · decide
      · have : Word.size 64 = 256 ^ 8 := by decide
        omega
    have hread : (List.range sharded.inner.chunks).map
        (entryAt (entries.flatMap (ShardEntry.bytes chain.endian))) = entries := by
      apply List.ext_getElem
      · rw [List.length_map, List.length_range, hlen]
      · intro i _ hi
        have hentry := hfits entries[i] (List.getElem_mem hi)
        rw [List.getElem_map, List.getElem_range, entryAt_flatMap hi, hlittle]
        simp only [Endianness.bytes]
        rw [Endian.ofLE_toLE_of_lt hentry.1, Endian.ofLE_toLE_of_lt hentry.2]
    dsimp only
    rw [hread, if_pos hinside]

/-! ## What is not read -/

/-- The checksums behind the first one, which are all the same. -/
def repeated (count : Nat) : List UInt8 :=
  (List.replicate count ()).flatMap fun _ => Endian.toLE 4 0x48674BC7

theorem length_repeated {count : Nat} : (repeated count).length = count * 4 := by
  simp [repeated, List.length_flatMap]

/-- The low byte of any of them. -/
theorem getElem?_repeated {count : Nat} (hi : i < count) : (repeated count)[i * 4]? = some 0xC7 := by
  have hslice := Vec.slice_flatMap_one (f := fun _ : Unit => Endian.toLE 4 0x48674BC7)
    (l := List.replicate count ()) (i := i) (n := 4) (fun _ _ => Endian.length_toLE)
    (by rw [List.length_replicate]; exact hi)
  have hlow := congrArg (·[0]?) hslice
  simp only [Vec.getElem?_slice] at hlow
  rw [if_pos (by decide), Nat.add_zero] at hlow
  exact hlow.trans (by decide)

theorem withChecksums_crc32c (count : Nat) (bytes : List UInt8) :
    withChecksums Crc32c.crc32c (count + 1) bytes =
      bytes ++ Endian.toLE 4 (Crc32c.crc32c bytes).toNat ++ repeated count := by
  induction count generalizing bytes with
  | zero => simp [withChecksums, repeated]
  | succ count ih =>
      rw [withChecksums, ih, Crc32c.crc32c_checked, repeated, repeated, List.replicate_succ,
        List.flatMap_cons, List.append_assoc]
      rfl

/-- The first entry read from some bytes says what they are. -/
theorem slice_of_entryAt (h : 16 ≤ raw.length) :
    Vec.slice raw 0 16 = (entryAt raw 0).bytes .little := by
  have hlen : (Vec.slice raw (0 * 16) 16).length = 16 := Vec.length_slice (by omega)
  unfold entryAt ShardEntry.bytes Endianness.bytes
  dsimp only
  rw [Endian.toLE_ofLE (by rw [List.length_take, hlen]; rfl),
    Endian.toLE_ofLE (by rw [List.length_drop, hlen]), List.take_append_drop]

/-- What is read of an index at the end of its file with more than one checksum. -/
theorem getElem?_rawIndex (hroomy : sharded.Roomy) (hcrc : sharded.indexCrc32c = true)
    (hend : sharded.indexAtStart = false) (h : sharded.rawIndex lib key file = .ok raw)
    (hi : i < sharded.inner.chunks * 16) :
    raw[i]? = file[file.length - (sharded.inner.chunks * 16 + 4) + i]? := by
  unfold rawIndex at h
  split at h
  · cases h
  rw [Roomy, hcrc, if_pos rfl] at hroomy
  dsimp only at h
  rw [hend, if_neg Bool.false_ne_true, hroomy] at h
  obtain ⟨-, rfl⟩ := Library.stripCrc32c_eq_some (Fallible.elim_eq_ok.mp h)
  rw [Vec.length_slice (by omega), List.getElem?_take_of_lt (by omega), Vec.getElem?_slice,
    if_pos (by omega)]

/-- A table whose first entry is `first` and whose others are empty. -/
def firstOnly (first : ShardEntry) (n : Nat) : List ShardEntry :=
  first :: List.replicate (n - 1) ⟨0, 0⟩

theorem length_firstOnly {first : ShardEntry} {n : Nat} (hn : 0 < n) :
    (firstOnly first n).length = n := by
  rw [firstOnly, List.length_cons, List.length_replicate]
  omega

theorem allowed_firstOnly {fileLen offset n : Nat} (h : offset ≤ fileLen) (hsmall : offset ≤ 1) :
    ∀ entry ∈ firstOnly ⟨offset, 0⟩ n, Allowed fileLen entry := by
  intro entry hentry
  rcases List.mem_cons.mp hentry with rfl | hentry
  · exact Or.inr ⟨Nat.lt_of_le_of_lt hsmall (by decide), h⟩
  · rw [List.eq_of_mem_replicate hentry]
    exact Or.inr ⟨by decide, Nat.zero_le _⟩

theorem getElem?_small (endian : Endianness) : ∀ offset < 2, ∀ i < 16, offset = 0 ∨ 0 < i ∧ i ≠ 7 →
    ((⟨offset, 0⟩ : ShardEntry).bytes endian)[i]? = some 0 := by
  cases endian <;> decide

/-- Past the number in the first entry, such a table is written as zeros. -/
theorem getElem?_firstOnly {endian : Endianness} {offset n : Nat} (hoffset : offset ≤ 1)
    (hi : i < n * 16) (hplace : offset = 0 ∨ 0 < i ∧ i ≠ 7) :
    ((firstOnly ⟨offset, 0⟩ n).flatMap (ShardEntry.bytes endian))[i]? = some 0 := by
  have hzeros : (List.replicate (n - 1) (⟨0, 0⟩ : ShardEntry)).flatMap (ShardEntry.bytes endian) =
      List.replicate ((n - 1) * 16) 0 := by
    have hzero : (⟨0, 0⟩ : ShardEntry).bytes endian = List.replicate 16 0 := by
      cases endian <;> rfl
    rw [List.flatMap_replicate, hzero, List.flatten_replicate_replicate]
  rw [firstOnly, List.flatMap_cons, hzeros]
  by_cases hfirst : i < 16
  · rw [List.getElem?_append_left (by rw [length_bytes]; exact hfirst)]
    exact getElem?_small endian offset (by omega) i hfirst hplace
  · rw [List.getElem?_append_right (by rw [length_bytes]; omega), length_bytes,
      List.getElem?_replicate, if_pos (by omega)]

/-- The first entry of a table that is read back is read from the index. -/
theorem rawIndex_of_firstOnly {first : ShardEntry} (hpos : 0 < sharded.inner.chunks)
    (hkey : keyOf shard = some key) (hroot : root key = .ok (some file))
    (h : sharded.shardEntries lib root keyOf shard =
      some (firstOnly first sharded.inner.chunks)) :
    ∃ raw, sharded.rawIndex lib key file = .ok raw ∧ entryAt raw 0 = first := by
  unfold shardEntries at h
  rw [hkey] at h
  simp only [Option.bind_eq_bind, Option.bind_some, hroot] at h
  split at h
  · cases h
  rename_i raw hraw
  have hfirst := congrArg (·[0]?) (Option.some.inj (Option.ite_none_right_eq_some.mp h).2)
  exact ⟨raw, hraw, by simpa [firstOnly, hpos] using hfirst⟩

/-- The number one, written big-endian, is read with its bytes the other way round. -/
theorem unread_big (hroomy : sharded.Roomy) (hcrc : sharded.indexCrc32c = decide (0 < chain.checksums))
    (hpos : 0 < sharded.inner.chunks) (hplace : chain.checksums ≤ 1 ∨ sharded.indexAtStart = true)
    (hbig : chain.endian = .big) (hkey : keyOf shard = some key)
    (hroot : root key =
      .ok (some (chain.encode lib.crc32c (firstOnly ⟨1, 0⟩ sharded.inner.chunks)))) :
    sharded.shardEntries lib root keyOf shard ≠ some (firstOnly ⟨1, 0⟩ sharded.inner.chunks) := by
  intro h
  obtain ⟨raw, hraw, hentry⟩ := rawIndex_of_firstOnly hpos hkey hroot h
  have hlen : (firstOnly ⟨1, 0⟩ sharded.inner.chunks).length = sharded.inner.chunks :=
    length_firstOnly hpos
  rw [@rawIndex_encode _ _ _ _ _ _ [] hroomy hcrc hplace hlen (by simp)] at hraw
  cases hraw
  rw [entryAt_flatMap (by rw [length_firstOnly hpos]; exact hpos), hbig] at hentry
  simp only [firstOnly, List.getElem_cons_zero] at hentry
  exact absurd hentry (by decide)

/-- Where there are several checksums at the end, every byte read of an entry lies as
far behind its place as those that are not counted take. -/
theorem getElem?_behind {count offset : Nat} (hroomy : sharded.Roomy)
    (hlib : lib.crc32c = Crc32c.crc32c) (hchecked : sharded.indexCrc32c = true)
    (hend : sharded.indexAtStart = false) (hpos : 0 < sharded.inner.chunks)
    (hcount : chain.checksums = count + 1) (hkey : keyOf shard = some key)
    (hroot : root key =
      .ok (some (chain.encode lib.crc32c (firstOnly ⟨offset, 0⟩ sharded.inner.chunks))))
    (h : sharded.shardEntries lib root keyOf shard = some (firstOnly ⟨offset, 0⟩ sharded.inner.chunks))
    (hi : i < 16) :
    ∃ sum : List UInt8, sum.length = 4 ∧
      ((firstOnly ⟨offset, 0⟩ sharded.inner.chunks).flatMap (ShardEntry.bytes chain.endian) ++ sum ++
        repeated count)[count * 4 + i]? = ((⟨offset, 0⟩ : ShardEntry).bytes .little)[i]? := by
  obtain ⟨raw, hraw, hentry⟩ := rawIndex_of_firstOnly hpos hkey hroot h
  have hlen := length_rawIndex hroomy hraw
  have hbyte := getElem?_rawIndex hroomy hchecked hend hraw (i := i) (by omega)
  rw [IndexChain.encode, hlib, hcount, withChecksums_crc32c, List.length_append, List.length_append,
    length_flatMap_bytes, length_firstOnly hpos, Endian.length_toLE, length_repeated,
    show sharded.inner.chunks * 16 + 4 + count * 4 - (sharded.inner.chunks * 16 + 4) =
      count * 4 by omega] at hbyte
  refine ⟨_, Endian.length_toLE, hbyte.symm.trans ?_⟩
  rw [← hentry, ← slice_of_entryAt (by omega), Vec.getElem?_slice, if_pos hi, Nat.zero_add]

/-- Some table is not read back from an index written big-endian, or written with
several checksums at the end of the file. -/
theorem exists_unread (hroomy : sharded.Roomy) (hlib : lib.crc32c = Crc32c.crc32c)
    (hcrc : sharded.indexCrc32c = decide (0 < chain.checksums)) (hpos : 0 < sharded.inner.chunks)
    (hbad : ¬(chain.endian = .little ∧ (chain.checksums ≤ 1 ∨ sharded.indexAtStart = true))) :
    ∃ offset ≤ 1, ∀ root keyOf shard, keyOf shard = some key →
      root key = .ok (some (chain.encode lib.crc32c (firstOnly ⟨offset, 0⟩ sharded.inner.chunks))) →
        sharded.shardEntries lib root keyOf shard ≠
          some (firstOnly ⟨offset, 0⟩ sharded.inner.chunks) := by
  by_cases hplace : chain.checksums ≤ 1 ∨ sharded.indexAtStart = true
  · have hbig : chain.endian = .big := by
      cases hendian : chain.endian with
      | little => exact absurd ⟨hendian, hplace⟩ hbad
      | big => rfl
    exact ⟨1, Nat.le_refl _, fun _ _ _ hkey hroot =>
      unread_big hroomy hcrc hpos hplace hbig hkey hroot⟩
  rw [not_or, Nat.not_le, Bool.not_eq_true] at hplace
  obtain ⟨count, hcount⟩ := Nat.exists_eq_add_of_lt hplace.1
  have hchecked : sharded.indexCrc32c = true := by rw [hcrc, decide_eq_true (by omega)]
  have hcount : chain.checksums = count + 1 + 1 := by omega
  by_cases hshift : (count + 1) * 4 < sharded.inner.chunks * 16
  · -- What is read as the first byte is a zero of the table.
    refine ⟨1, Nat.le_refl _, fun root keyOf shard hkey hroot h => ?_⟩
    obtain ⟨sum, hsum, hbyte⟩ := getElem?_behind (i := 0) hroomy hlib hchecked hplace.2 hpos hcount
      hkey hroot h (by decide)
    rw [List.append_assoc, List.getElem?_append_left
        (by rw [length_flatMap_bytes, length_firstOnly hpos]; exact hshift),
      getElem?_firstOnly (Nat.le_refl _) (show (count + 1) * 4 + 0 < _ from hshift)
        (Or.inr (by omega))] at hbyte
    exact absurd hbyte (by decide)
  · -- What is read as the fifth byte is one of a checksum.
    refine ⟨0, Nat.zero_le _, fun root keyOf shard hkey hroot h => ?_⟩
    obtain ⟨sum, hsum, hbyte⟩ := getElem?_behind (i := 4) hroomy hlib hchecked hplace.2 hpos hcount
      hkey hroot h (by decide)
    rw [List.getElem?_append_right (by
        rw [List.length_append, length_flatMap_bytes, length_firstOnly hpos, hsum]
        omega), List.length_append, length_flatMap_bytes, length_firstOnly hpos, hsum,
      show (count + 1) * 4 + 4 - (sharded.inner.chunks * 16 + 4) =
        (count + 1 - sharded.inner.chunks * 4) * 4 by omega, getElem?_repeated (by omega)] at hbyte
    exact absurd hbyte (by decide)

/-! ## Which declarations are inverted -/

/-- What `Sharded.new` makes of the index codecs and of where the index is. -/
theorem new_index {w : MetaWording} {pfx : String} {shards : ChunkGrid} {dtype : DType} {named : Named}
    (h : new w pfx shards dtype named = .ok sharded) :
    ∃ codecs, namedUnder w pfx "index_codecs" "index_codecs" named.configuration = .ok codecs ∧
      parseIndexCodecs pfx codecs = .ok sharded.indexCrc32c ∧
      parseIndexLocation w.toWording pfx named.configuration = .ok sharded.indexAtStart ∧
      sharded.indexBytes = Word.wrappingAdd 64 (Word.wrappingMul 64 sharded.inner.chunks 16)
        (if sharded.indexCrc32c then 4 else 0) := by
  unfold new at h
  obtain ⟨chunkShape, -, h⟩ := Fallible.bind_eq_ok.mp h
  obtain ⟨inner, -, h⟩ := Fallible.bind_eq_ok.mp h
  split at h
  · cases h
  obtain ⟨_, -, h⟩ := Fallible.bind_eq_ok.mp h
  obtain ⟨codecs, -, h⟩ := Fallible.bind_eq_ok.mp h
  obtain ⟨indexCodecs, hcodecs, h⟩ := Fallible.bind_eq_ok.mp h
  obtain ⟨indexCrc32c, hcrc, h⟩ := Fallible.bind_eq_ok.mp h
  obtain ⟨indexAtStart, hstart, h⟩ := Fallible.bind_eq_ok.mp h
  obtain ⟨entries, -, h⟩ := Fallible.bind_eq_ok.mp h
  split at h
  · cases h
  · cases h
    exact ⟨indexCodecs, hcodecs, hcrc, hstart, rfl⟩

theorem parseIndexLocation_iff {w : Wording} {pfx : String} {configuration : List (String × Value)}
    {atStart : Bool} (h : parseIndexLocation w pfx configuration = .ok atStart) :
    atStart = true ↔ configuration.lookup "index_location" = some (.string "start") := by
  unfold parseIndexLocation at h
  split at h
  · rename_i hlookup
    cases h
    simp [hlookup]
  · rename_i hlookup
    cases h
    simp [hlookup]
  · rename_i hlookup
    cases h
    simp [hlookup]
  · cases h

theorem roomy_of_new (h : sharded.Sound itemsize) (hpos : 0 < sharded.shards.chunks)
    (hbytes : sharded.indexBytes = Word.wrappingAdd 64 (Word.wrappingMul 64 sharded.inner.chunks 16)
      (if sharded.indexCrc32c then 4 else 0)) : sharded.Roomy := by
  have hfew : sharded.inner.chunks ≤ 2 ^ 26 :=
    le_trans (Nat.le_mul_of_pos_left _ hpos) h.few
  have hsize : Word.size 64 = 2 ^ 64 := rfl
  rw [Roomy, hbytes, Word.wrappingMul_of_lt (by omega), Word.wrappingAdd_of_lt]
  split <;> omega

theorem inner_chunks_pos (h : sharded.Sound itemsize) : 0 < sharded.inner.chunks := by
  have hpos : 0 < sharded.inner.grid.prod := by
    rw [h.inner.grid, h.nested]
    apply Radix.prod_pos
    intro n hn
    obtain ⟨i, hi, rfl⟩ := List.getElem_of_mem hn
    rw [List.getElem_zipWith]
    have hshape := h.shards.chunkPos _ (List.getElem_mem (by simp at hi; exact hi.1))
    have hchunk := h.inner.chunkPos _ (List.getElem_mem (by simp at hi; exact hi.2))
    exact Nat.pos_of_ne_zero fun hzero => by
      have := (ceilDiv_le_iff_le_mul hchunk).mp (Nat.le_of_eq hzero)
      omega
  unfold ChunkGrid.chunks
  rw [Word.foldl_wrappingMul (by decide), Nat.one_mul, Nat.mod_eq_of_lt h.inner.gridFits]
  exact hpos

/-- Every table that shelves a store is read back. -/
def Recovers (sharded : Sharded) (lib : Library) (chain : IndexChain) (keyOf : Nat → Option String) :
    Prop :=
  ∀ (root : StoreRoot) (table : Nat → List ShardEntry),
    (∀ shard < sharded.shards.chunks, sharded.Shelved lib chain root keyOf shard (table shard)) →
      sharded.index lib root keyOf = .ok ((List.range sharded.shards.chunks).flatMap table)

theorem recovers_of_little (h : sharded.Sound itemsize) (hroomy : sharded.Roomy)
    (hcrc : sharded.indexCrc32c = decide (0 < chain.checksums)) (hlittle : chain.endian = .little)
    (hplace : chain.checksums ≤ 1 ∨ sharded.indexAtStart = true) :
    sharded.Recovers lib chain keyOf := by
  intro root table hshelved
  rw [h.index_eq_ok hroomy]
  refine ⟨(List.range sharded.shards.chunks).map table, ?_, List.flatMap_def⟩
  rw [Fallible.mapM_eq_some, List.forall₂_map_right_iff, List.forall₂_same]
  intro shard hshard
  exact shardEntries_of_shelved hroomy hcrc hlittle hplace (hshelved shard (List.mem_range.mp hshard))

theorem not_recovers (h : sharded.Sound itemsize) (hroomy : sharded.Roomy)
    (hlib : lib.crc32c = Crc32c.crc32c) (hcrc : sharded.indexCrc32c = decide (0 < chain.checksums))
    (hpos : 0 < sharded.shards.chunks)
    (hkeys : ∀ shard < sharded.shards.chunks, ∃ key, keyOf shard = some key)
    (hbad : ¬(chain.endian = .little ∧ (chain.checksums ≤ 1 ∨ sharded.indexAtStart = true))) :
    ¬sharded.Recovers lib chain keyOf := by
  intro hrecovers
  have hinner := inner_chunks_pos h
  obtain ⟨key, hkey⟩ := hkeys 0 hpos
  obtain ⟨offset, hoffset, hunread⟩ := @exists_unread _ _ key _ hroomy hlib hcrc hinner hbad
  -- Every shard is the same file, and nothing but its index.
  let file := chain.encode lib.crc32c (firstOnly ⟨offset, 0⟩ sharded.inner.chunks)
  have hfile : offset ≤ file.length := by
    obtain ⟨tail, htail, -⟩ := encode_eq chain lib.crc32c (firstOnly ⟨offset, 0⟩ sharded.inner.chunks)
    have hbody := length_flatMap_bytes chain.endian (firstOnly ⟨offset, 0⟩ sharded.inner.chunks)
    rw [length_firstOnly hinner] at hbody
    have hkept : sharded.inner.chunks * 16 ≤
        (kept chain lib.crc32c (firstOnly ⟨offset, 0⟩ sharded.inner.chunks)).length := by
      unfold kept
      dsimp only
      split
      · rw [List.length_append, hbody]
        omega
      · exact Nat.le_of_eq hbody.symm
    show offset ≤ (chain.encode _ _).length
    rw [htail, List.length_append]
    omega
  have hindex := hrecovers (fun _ => .ok (some file))
    (fun _ => firstOnly ⟨offset, 0⟩ sharded.inner.chunks) (by
      intro shard hshard
      obtain ⟨key, hkey⟩ := hkeys shard hshard
      refine ⟨length_firstOnly hinner, key, hkey, Or.inr ⟨file, [], rfl, ?_, ?_⟩⟩
      · simp [file]
      · exact allowed_firstOnly hfile hoffset)
  obtain ⟨tables, htables, heq⟩ := (h.index_eq_ok hroomy).mp hindex
  obtain ⟨rest, hrest⟩ := Nat.exists_eq_add_of_lt hpos
  have hrange : List.range sharded.shards.chunks = 0 :: List.range' 1 rest := by
    rw [show sharded.shards.chunks = rest + 1 by omega, List.range_eq_range', List.range'_succ]
  rw [hrange, List.mapM_cons, Option.bind_eq_bind, Option.bind_eq_some_iff] at htables
  obtain ⟨entries, hentries, htables⟩ := htables
  obtain ⟨others, -, htables⟩ := Option.bind_eq_some_iff.mp htables
  cases htables
  rw [hrange, List.flatMap_cons, List.flatten_cons] at heq
  have hfirst := (List.append_inj heq (by
    rw [length_firstOnly hinner, length_shardEntries hentries])).1
  rw [← hfirst] at hentries
  exact hunread _ _ 0 hkey rfl hentries

/-- Of the configurations that are accepted, those whose index is little-endian and has
at most one checksum or lies at the start are read back whatever they hold, and no others
of an array that is not empty.  An entry that does not fit its file is never let through. -/
theorem index_recovers_iff {array : ZarrArray} {w : MetaWording} {pfx : String}
    {shape chunkShape : List Nat} {shards : ChunkGrid} {dtype : DType} {named : Named}
    (hlib : lib.crc32c = Crc32c.crc32c)
    (hgrid : ChunkGrid.new shape chunkShape dtype.itemsize = some shards)
    (hnew : new w pfx shards dtype named = .ok sharded) :
    (∀ codecs chain, namedUnder w pfx "index_codecs" "index_codecs" named.configuration = .ok codecs →
        IndexChain.declared codecs = some chain →
        (sharded.Recovers lib chain (array.keyOf sharded.shards) ↔
          shards.chunks = 0 ∨ chain.endian = .little ∧ (chain.checksums ≤ 1 ∨
            named.configuration.lookup "index_location" = some (.string "start")))) ∧
      ∀ root index, sharded.index lib root (array.keyOf sharded.shards) = .ok index →
        sharded.Located root (array.keyOf sharded.shards) index ∧
        ∀ shard < shards.chunks, ∀ key file raw,
          array.keyOf sharded.shards shard = some key → root key = .ok (some file) →
          sharded.rawIndex lib key file = .ok raw →
          ∀ i < sharded.inner.chunks, Allowed file.length (entryAt raw i) := by
  obtain ⟨hgridSound, -, -, hitem⟩ := ChunkGrid.new_sound hgrid
  obtain ⟨hsound, hshards⟩ := new_sound hgridSound hitem hnew
  obtain ⟨codecs', hcodecs', hparse, hlocation, hbytes⟩ := new_index hnew
  rw [← hshards]
  constructor
  · intro codecs chain hcodecs hdeclared
    rw [hcodecs'] at hcodecs
    cases hcodecs
    rw [parseIndexCodecs_declared hdeclared] at hparse
    have hcrc : sharded.indexCrc32c = decide (0 < chain.checksums) := (Except.ok.inj hparse).symm
    rw [← parseIndexLocation_iff hlocation]
    by_cases hzero : sharded.shards.chunks = 0
    · have hrecovers : sharded.Recovers lib chain (array.keyOf sharded.shards) := by
        intro root table _
        simp [Sharded.index, hzero, Word.wrappingMul, pure, Except.pure]
      exact ⟨fun _ => Or.inl hzero, fun _ => hrecovers⟩
    · have hroomy := roomy_of_new hsound (Nat.pos_of_ne_zero hzero) hbytes
      constructor
      · intro hrecovers
        apply Or.inr
        apply Decidable.by_contra
        intro hbad
        exact not_recovers hsound hroomy hlib hcrc (Nat.pos_of_ne_zero hzero)
          (fun _ hshard => keyOf_isSome hshard) hbad hrecovers
      · intro h
        rcases h with h | h
        · exact absurd h hzero
        · exact recovers_of_little hsound hroomy hcrc h.1 h.2
  · intro root index hindex
    refine ⟨hsound.index_located hindex, ?_⟩
    intro shard hshard key file raw hkey hroot hraw i hi
    have hroomy := roomy_of_new hsound (by omega) hbytes
    obtain ⟨tables, htables, -⟩ := (hsound.index_eq_ok hroomy).mp hindex
    rw [Fallible.mapM_eq_some] at htables
    have hlt : shard < (List.range sharded.shards.chunks).length := by
      rw [List.length_range]
      exact hshard
    have hentries := List.forall₂_iff_get.mp htables
    have hread := hentries.2 shard hlt (by rw [← hentries.1]; exact hlt)
    rw [List.get_eq_getElem, List.getElem_range, shardEntries, hkey] at hread
    simp only [Option.bind_eq_bind, Option.bind_some, hroot, hraw] at hread
    have hall := (Option.ite_none_right_eq_some.mp hread).1
    exact hall _ (List.mem_map.mpr ⟨i, List.mem_range.mpr hi, rfl⟩)

/-- A shard of one inner chunk of one byte, whose index is written with `endian` numbers. -/
def oneByteShard (endian : String) : Named :=
  ⟨"sharding_indexed", [("chunk_shape", .array [.number (.posInt 1)]), ("codecs", .array []),
    ("index_codecs", .array [.object [("name", .string "bytes"),
      ("configuration", .object [("endian", .string endian)])]])]⟩

/-- What is made of it, which does not depend on the order of the bytes. -/
def oneByte : Sharded :=
  ⟨⟨[1], [1], [1], 1, 1, 0⟩, ⟨[1], [1], [1], 1, 1, 0⟩, [], 16, false, false⟩

def plainWording : MetaWording := ⟨⟨fun _ => "", fun _ => ""⟩, fun _ => ""⟩

def checksumOnly : Library := ⟨fun _ => ([], true), fun _ _ => .ok [], Crc32c.crc32c⟩

theorem index_recovers_iff_oneByte :
    oneByte.Recovers checksumOnly ⟨.little, 0⟩
        ((⟨"a", .uint8, [1], ⟨true, '/'⟩, .sharded oneByte, [0], 0⟩ : ZarrArray).keyOf oneByte.shards) ↔
      oneByte.shards.chunks = 0 ∨ Endianness.little = .little ∧ (0 ≤ 1 ∨
        (oneByteShard "little").configuration.lookup "index_location" = some (.string "start")) :=
  (@index_recovers_iff oneByte checksumOnly _ plainWording "a" [1] [1] _ .uint8
    (oneByteShard "little") rfl (by decide) rfl).1 _ ⟨.little, 0⟩ rfl rfl

/-- One byte at the start of a file whose index is written big-endian, as it may be. -/
theorem index_misreads_big :
    let keyOf : Nat → Option String := fun _ => some "a/c/0"
    let file : List UInt8 := 7 :: ShardEntry.bytes .big ⟨0, 1⟩
    let root : StoreRoot := fun _ => .ok (some file)
    let table : Nat → List ShardEntry := fun _ => [⟨0, 1⟩]
    new plainWording "a" oneByte.shards .uint8 (oneByteShard "big") = .ok oneByte ∧
      (namedUnder plainWording "a" "index_codecs" "index_codecs" (oneByteShard "big").configuration).map
        IndexChain.declared = .ok (some ⟨.big, 0⟩) ∧
      oneByte.Shelved checksumOnly ⟨.big, 0⟩ root keyOf 0 (table 0) ∧
      oneByte.index checksumOnly root keyOf ≠
        .ok ((List.range oneByte.shards.chunks).flatMap table) := by
  refine ⟨rfl, rfl, ⟨rfl, _, rfl, Or.inr ⟨_, [7], rfl, rfl, by decide⟩⟩, by decide⟩

end Sharded

end Aex
