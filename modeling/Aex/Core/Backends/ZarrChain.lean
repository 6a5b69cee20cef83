import Aex.Lib.Fallible
import Aex.Core.Backends.ZarrCodecs

/-!
# Which chains of codecs are undone

Every stage is undone into at most one chunk, gzip into one byte more, so a
compressor whose content was larger than that cannot be.
-/

namespace Aex

/-! ## Writing -/

/-- A compressed format.  Its streams say where they end. -/
structure Compressor where
  compress : List UInt8 → List UInt8
  delimited : ∀ x y, compress x <+: compress y → x = y

theorem Compressor.injective (c : Compressor) {x y : List UInt8} (h : c.compress x = c.compress y) :
    x = y :=
  c.delimited x y (h ▸ List.prefix_rfl)

/-- What writers make of a chunk. -/
structure Formats where
  gzip : Compressor
  zstd : Compressor
  crc32c : List UInt8 → UInt32

namespace Formats

/-- Apply one codec. -/
def apply (f : Formats) : ChunkCodec → List UInt8 → List UInt8
  | .gzip, bytes => f.gzip.compress bytes
  | .zstd, bytes => f.zstd.compress bytes
  | .crc32c, bytes => bytes ++ Endian.toLE 4 (f.crc32c bytes).toNat

/-- Apply a codec of the metadata, where only these three change the bytes. -/
def applyNamed (f : Formats) (codec : Named) (bytes : List UInt8) : List UInt8 :=
  match codec.name with
  | "gzip" => f.apply .gzip bytes
  | "zstd" => f.apply .zstd bytes
  | "crc32c" => f.apply .crc32c bytes
  | _ => bytes

/-- A chunk through the codecs of the metadata. -/
def write (f : Formats) (codecs : List Named) (chunk : List UInt8) : List UInt8 :=
  Pipeline.forward f.applyNamed codecs chunk

end Formats

/-- The decoders invert what the writers make. -/
structure Library.Inverts (lib : Library) (f : Formats) : Prop where
  gzip : ∀ x, lib.gunzip (f.gzip.compress x) = (x, true)
  zstd : ∀ x capacity, x.length ≤ capacity → lib.unzstd (f.zstd.compress x) capacity = .ok x
  crc32c : lib.crc32c = f.crc32c

/-- A content that a codec can be undone to, where a chunk has `n` bytes. -/
def ChunkCodec.Fits (n : Nat) : ChunkCodec → List UInt8 → Prop
  | .gzip, content => content.length ≤ n + 1
  | .zstd, content => content.length ≤ n
  | .crc32c, _ => True

section Undo

variable {f : Formats} {lib : Library} {w : Wording} {pfx key : String} {n : Nat}
  {codecs : List Named} {chain chain' : List ChunkCodec} {content chunk spare : List UInt8}

/-- A codec that is accepted does to the bytes what it adds to the chain. -/
theorem parseCodec_forward {named : Named} (h : parseCodec w pfx chain named = .ok chain') :
    Pipeline.forward f.apply chain' content =
      f.applyNamed named (Pipeline.forward f.apply chain content) := by
  unfold parseCodec at h
  split at h
  · rename_i hname
    have hsame : chain = chain' := by
      split at h <;> cases h <;> rfl
    simp [Formats.applyNamed, hname, hsame]
  · rename_i hname
    have hsame : chain = chain' := by
      dsimp only at h
      split at h
      · cases h
      · split at h <;> cases h
        rfl
    simp [Formats.applyNamed, hname, hsame]
  · rename_i hname
    cases h
    simp [Formats.applyNamed, hname]
  · rename_i hname
    cases h
    simp [Formats.applyNamed, hname]
  · rename_i hname
    cases h
    simp [Formats.applyNamed, hname]
  · cases h

theorem parseCodecs_write (h : parseCodecs w pfx codecs = .ok chain) :
    f.write codecs chunk = Pipeline.forward f.apply chain chunk := by
  suffices hgen : ∀ start, codecs.foldlM (parseCodec w pfx) start = .ok chain →
      Pipeline.forward f.applyNamed codecs (Pipeline.forward f.apply start chunk) =
        Pipeline.forward f.apply chain chunk from hgen [] h
  clear h
  induction codecs with
  | nil =>
      intro start h
      cases h
      rfl
  | cons codec codecs ih =>
      intro start h
      rw [List.foldlM_cons] at h
      obtain ⟨next, hnext, h⟩ := Fallible.bind_eq_ok.mp h
      have hrest := ih next h
      rw [parseCodec_forward hnext] at hrest
      exact hrest

namespace Library

/-! ## The lent buffer -/

theorem undoCodec_spare {codec : ChunkCodec} {spare' : List UInt8} :
    (lib.undoCodec key n codec (content, spare)).map Prod.fst =
      (lib.undoCodec key n codec (content, spare')).map Prod.fst := by
  cases codec with
  | gzip => rfl
  | zstd =>
      have hsame : ∀ out, lib.decompress content n out = lib.unzstd content n := by
        intro out
        unfold decompress
        cases lib.unzstd content n with
        | error e => rfl
        | ok written => exact congrArg Except.ok Vec.take_write
      simp only [undoCodec, hsame]
  | crc32c =>
      simp only [undoCodec]
      split <;> rfl

/-- What the lent buffer held does not show. -/
theorem undo_spare {spare' : List UInt8} :
    lib.undo key chain content n spare = lib.undo key chain content n spare' := by
  have hsame : (Pipeline.backward (lib.undoCodec key n) chain (content, spare)).map Prod.fst =
      (Pipeline.backward (lib.undoCodec key n) chain (content, spare')).map Prod.fst :=
    Pipeline.backward_scratch fun _ _ _ _ => undoCodec_spare
  unfold undo
  cases hx : Pipeline.backward (lib.undoCodec key n) chain (content, spare) with
  | error e =>
      cases hz : Pipeline.backward (lib.undoCodec key n) chain (content, spare') with
      | error e' =>
          rw [hx, hz] at hsame
          cases hsame
          rfl
      | ok z =>
          rw [hx, hz] at hsame
          cases hsame
  | ok z =>
      cases hz : Pipeline.backward (lib.undoCodec key n) chain (content, spare') with
      | error e =>
          rw [hx, hz] at hsame
          cases hsame
      | ok z' =>
          rw [hx, hz] at hsame
          have hfst : z.1 = z'.1 := Except.ok.inj hsame
          simp only [bind, Except.bind, hfst]

theorem length_undo (h : lib.undo key chain content n spare = .ok chunk) : chunk.length = n := by
  obtain ⟨out, -, h⟩ := Fallible.bind_eq_ok.mp h
  dsimp only at h
  split at h
  · cases h
  · rename_i hlen
    cases h
    exact Decidable.not_not.mp hlen

/-! ## What fits is undone -/

theorem stripCrc32c_append (content : List UInt8) :
    lib.stripCrc32c (content ++ Endian.toLE 4 (lib.crc32c content).toNat) = some content := by
  have hlen : (content ++ Endian.toLE 4 (lib.crc32c content).toNat).length - 4 = content.length := by
    simp
  unfold stripCrc32c
  rw [if_neg (by simp), hlen, List.take_left, List.drop_left]
  dsimp only
  rw [Endian.ofLE_toLE_of_lt (lib.crc32c content).toNat_lt, if_pos rfl]

/-- What is left is all but the last four bytes. -/
theorem stripCrc32c_eq_some {bytes body : List UInt8} (h : lib.stripCrc32c bytes = some body) :
    4 ≤ bytes.length ∧ body = bytes.take (bytes.length - 4) := by
  unfold stripCrc32c at h
  split at h
  · cases h
  rename_i hlong
  dsimp only at h
  split at h
  · exact ⟨Nat.le_of_not_lt hlong, (Option.some.inj h).symm⟩
  · cases h

theorem stripCrc32c_apply (hcrc : lib.crc32c = f.crc32c) :
    lib.stripCrc32c (f.apply .crc32c content) = some content := by
  rw [Formats.apply, ← hcrc]
  exact stripCrc32c_append content

/-- Undoing one codec, whatever the spare buffer holds. -/
theorem undoCodec_inverts (hlib : lib.Inverts f) :
    Pipeline.Inverts f.apply (lib.undoCodec key n) (fun _ => True) (ChunkCodec.Fits n) := by
  intro codec content spare _ hfits
  cases codec with
  | gzip =>
      refine ⟨f.gzip.compress content, ?_⟩
      have hout : lib.ungzip (f.gzip.compress content) n = some content := by
        unfold ungzip
        rw [hlib.gzip]
        dsimp only
        split
        · rename_i hle
          have hlen : content.length = n + 1 := Nat.le_antisymm hfits hle
          rw [← hlen, List.take_length]
        · rfl
      simp only [undoCodec, Formats.apply, hout]
  | zstd =>
      refine ⟨f.zstd.compress content, ?_⟩
      have hout : lib.decompress (f.zstd.compress content) n spare = .ok content := by
        unfold decompress
        rw [hlib.zstd content n hfits]
        exact congrArg Except.ok Vec.take_write
      simp only [undoCodec, Formats.apply, hout]
  | crc32c =>
      refine ⟨spare, ?_⟩
      simp only [undoCodec, stripCrc32c_apply hlib.crc32c]

/-- A chain whose stages all fit gives the chunk back. -/
theorem undo_forward (hlib : lib.Inverts f)
    (hfits : Pipeline.Admits f.apply (ChunkCodec.Fits chunk.length) chain chunk) :
    lib.undo key chain (Pipeline.forward f.apply chain chunk) chunk.length spare = .ok chunk := by
  obtain ⟨spare', hback⟩ := Pipeline.backward_forward (b := spare)
    (@undoCodec_inverts _ _ key _ hlib) (fun _ _ => trivial) hfits
  unfold undo
  rw [hback]
  exact if_neg (not_not_intro rfl)

end Library

/-! ## What does not fit is lost -/

namespace Formats

open Classical in
/-- Decoders that accept nothing but whole streams of the writers. -/
noncomputable def strict (f : Formats) : Library where
  gunzip bytes := if h : ∃ x, f.gzip.compress x = bytes then (h.choose, true) else ([], false)
  unzstd bytes capacity :=
    if h : ∃ x, f.zstd.compress x = bytes ∧ x.length ≤ capacity then .ok h.choose
    else .error "Destination buffer is too small"
  crc32c := f.crc32c

theorem strict_inverts : f.strict.Inverts f where
  gzip x := by
    have h : ∃ y, f.gzip.compress y = f.gzip.compress x := ⟨x, rfl⟩
    have hchosen := f.gzip.injective h.choose_spec
    simp only [strict, dif_pos h, hchosen]
  zstd x capacity hx := by
    have h : ∃ y, f.zstd.compress y = f.zstd.compress x ∧ y.length ≤ capacity := ⟨x, rfl, hx⟩
    have hchosen := f.zstd.injective h.choose_spec.1
    simp only [strict, dif_pos h, hchosen]
  crc32c := rfl

theorem strict_gunzip_take {m : Nat} (hm : m < (f.gzip.compress content).length) :
    f.strict.gunzip ((f.gzip.compress content).take m) = ([], false) := by
  refine dif_neg ?_
  intro h
  obtain ⟨x, hx⟩ := h
  obtain rfl := f.gzip.delimited x content (hx ▸ List.take_prefix m _)
  have := congrArg List.length hx
  rw [List.length_take] at this
  omega

theorem strict_unzstd_take {m capacity : Nat} (hm : m < (f.zstd.compress content).length) :
    ∃ e, f.strict.unzstd ((f.zstd.compress content).take m) capacity = .error e := by
  refine ⟨_, dif_neg ?_⟩
  intro h
  obtain ⟨x, hx, -⟩ := h
  obtain rfl := f.zstd.delimited x content (hx ▸ List.take_prefix m _)
  have := congrArg List.length hx
  rw [List.length_take] at this
  omega

theorem strict_unzstd_full {capacity : Nat} (h : capacity < content.length) :
    ∃ e, f.strict.unzstd (f.zstd.compress content) capacity = .error e := by
  refine ⟨_, dif_neg ?_⟩
  intro hfits
  obtain ⟨x, hx, hle⟩ := hfits
  obtain rfl := f.zstd.injective hx
  omega

end Formats

/-- The bytes are a content cut short. -/
def Cut (f : Formats) (chunk : List UInt8) (chain : List ChunkCodec) (bytes : List UInt8) : Prop :=
  ∃ m < (Pipeline.forward f.apply chain chunk).length,
    bytes = (Pipeline.forward f.apply chain chunk).take m

/-- A codec whose content does not fit yields the content cut short, if anything. -/
theorem strict_breaks : Pipeline.Breaks f.apply (f.strict.undoCodec key n) (fun _ => True)
    (ChunkCodec.Fits n) (Cut f chunk) chunk := by
  intro chain codec spare out _ hfits h
  cases codec with
  | gzip =>
      have hlen : n + 1 < (Pipeline.forward f.apply chain chunk).length := Nat.not_le.mp hfits
      have hout : f.strict.ungzip (f.gzip.compress (Pipeline.forward f.apply chain chunk)) n =
          some ((Pipeline.forward f.apply chain chunk).take (n + 1)) := by
        unfold Library.ungzip
        rw [f.strict_inverts.gzip]
        exact if_pos (Nat.le_of_lt hlen)
      simp only [Library.undoCodec, Formats.apply, hout] at h
      cases h
      exact ⟨n + 1, hlen, rfl⟩
  | zstd =>
      obtain ⟨e, he⟩ := f.strict_unzstd_full (Nat.not_le.mp hfits)
      simp only [Library.undoCodec, Library.decompress, Formats.apply, he] at h
      cases h
  | crc32c => exact absurd trivial hfits

/-- What is cut short stays so. -/
theorem strict_keeps :
    Pipeline.Keeps (f.strict.undoCodec key n) (fun _ => True) (Cut f chunk) := by
  intro chain codec bytes spare out _ hcut h
  obtain ⟨m, hm, rfl⟩ := hcut
  rw [Pipeline.forward_concat] at hm h
  cases codec with
  | gzip =>
      have hout : f.strict.ungzip ((f.gzip.compress (Pipeline.forward f.apply chain chunk)).take m) n =
          none := by
        unfold Library.ungzip
        rw [Formats.strict_gunzip_take hm]
        rfl
      simp only [Library.undoCodec, Formats.apply, hout] at h
      cases h
  | zstd =>
      obtain ⟨e, he⟩ := @Formats.strict_unzstd_take _ _ _ n hm
      simp only [Library.undoCodec, Library.decompress, Formats.apply, he] at h
      cases h
  | crc32c =>
      simp only [Library.undoCodec] at h
      split at h
      · rename_i body hbody
        cases h
        unfold Library.stripCrc32c at hbody
        split at hbody
        · cases hbody
        rename_i hlen
        dsimp only at hbody
        split at hbody
        · cases hbody
          simp only [Formats.apply, List.length_append, Endian.length_toLE, List.length_take] at hm hlen
          refine ⟨m - 4, by omega, ?_⟩
          simp only [Formats.apply, List.length_take, List.length_append, Endian.length_toLE]
          rw [Nat.min_eq_left (by omega), List.take_take, Nat.min_eq_left (by omega),
            List.take_append_of_le_length (by omega)]
        · cases hbody
      · cases h

/-- A chain one of whose stages does not fit loses the chunk. -/
theorem undo_of_not_fits
    (hfits : ¬Pipeline.Admits f.apply (ChunkCodec.Fits chunk.length) chain chunk) :
    f.strict.undo key chain (Pipeline.forward f.apply chain chunk) chunk.length spare ≠ .ok chunk := by
  intro h
  obtain ⟨out, hback, h⟩ := Fallible.bind_eq_ok.mp h
  obtain ⟨m, hm, hout⟩ := Pipeline.backward_breaks
    (Library.undoCodec_inverts Formats.strict_inverts) strict_breaks strict_keeps
    (fun _ _ => trivial) hfits hback
  have hlen : out.1.length < chunk.length := by
    rw [hout, List.length_take]
    exact lt_of_le_of_lt (Nat.min_le_left _ _) hm
  dsimp only at h
  rw [if_pos (by omega)] at h
  cases h

/-- A chunk comes back from every chain the reader accepts if and only if no codec of
it was applied to more than the reader expands a chunk to. -/
theorem undo_write_iff (hparse : parseCodecs w pfx codecs = .ok chain) :
    (∀ lib : Library, lib.Inverts f → ∀ spare,
      lib.undo key chain (f.write codecs chunk) chunk.length spare = .ok chunk) ↔
      Pipeline.Admits f.apply (ChunkCodec.Fits chunk.length) chain chunk := by
  rw [parseCodecs_write hparse]
  constructor
  · intro h
    by_contra hfits
    exact undo_of_not_fits hfits (h f.strict Formats.strict_inverts [])
  · intro hfits lib hlib spare
    exact Library.undo_forward hlib hfits

end Undo

/-! ## A format that spells its bytes out -/

/-- Every byte after a mark, and another mark at the end. -/
def spell : List UInt8 → List UInt8
  | [] => [0]
  | b :: bytes => 1 :: b :: spell bytes

/-- Read what was spelled out. -/
def unspell : List UInt8 → List UInt8 × Bool
  | 1 :: b :: bytes => (b :: (unspell bytes).1, (unspell bytes).2)
  | 0 :: _ => ([], true)
  | _ => ([], false)

theorem unspell_spell (x : List UInt8) : unspell (spell x) = (x, true) := by
  induction x with
  | nil => rfl
  | cons b x ih => simp [spell, unspell, ih]

theorem spell_delimited (x y : List UInt8) (h : spell x <+: spell y) : x = y := by
  induction x generalizing y with
  | nil =>
      cases y with
      | nil => rfl
      | cons b y => simp [spell] at h
  | cons b x ih =>
      cases y with
      | nil => simp [spell] at h
      | cons c y =>
          simp only [spell, List.cons_prefix_cons, true_and] at h
          rw [h.1, ih y h.2]

/-- Spelled-out streams for gzip's and zstd's, with a checksum of nothing. -/
def spelledFormats : Formats := ⟨⟨spell, spell_delimited⟩, ⟨spell, spell_delimited⟩, fun _ => 0⟩

/-- The decoders of spelled-out streams. -/
def spelledLibrary : Library where
  gunzip := unspell
  unzstd bytes capacity :=
    if (unspell bytes).1.length ≤ capacity then .ok (unspell bytes).1
    else .error "Destination buffer is too small"
  crc32c _ := 0

theorem spelledLibrary_inverts : spelledLibrary.Inverts spelledFormats where
  gzip := unspell_spell
  zstd x capacity hx := by simp [spelledLibrary, spelledFormats, unspell_spell, hx]
  crc32c := rfl

/-- A checksum outside the compressor. -/
theorem undo_write_iff_outside : spelledLibrary.undo "a/c/0" [.gzip, .crc32c]
    (spelledFormats.write [⟨"bytes", []⟩, ⟨"gzip", []⟩, ⟨"crc32c", []⟩] [7]) 1 [] = .ok [7] := by
  have hparse : parseCodecs ⟨fun _ => "", fun _ => ""⟩ "a"
      [⟨"bytes", []⟩, ⟨"gzip", []⟩, ⟨"crc32c", []⟩] = .ok [.gzip, .crc32c] := by
    rfl
  have hfits : Pipeline.Admits spelledFormats.apply (ChunkCodec.Fits 1) [.gzip, .crc32c] [7] :=
    ⟨by simp [ChunkCodec.Fits], trivial, trivial⟩
  exact (undo_write_iff hparse).mpr hfits spelledLibrary spelledLibrary_inverts []

/-- A checksum inside the compressor: five bytes to expand to, where a chunk has one. -/
theorem checksum_inside_lost : spelledLibrary.Inverts spelledFormats ∧
    parseCodecs ⟨fun _ => "", fun _ => ""⟩ "a" [⟨"bytes", []⟩, ⟨"crc32c", []⟩, ⟨"gzip", []⟩] =
      .ok [.crc32c, .gzip] ∧
    spelledLibrary.undo "a/c/0" [.crc32c, .gzip]
      (spelledFormats.write [⟨"bytes", []⟩, ⟨"crc32c", []⟩, ⟨"gzip", []⟩] [7]) 1 [] =
        .error (.malformedZarr "chunk a/c/0: CRC-32C mismatch") := by
  refine ⟨spelledLibrary_inverts, by rfl, by rfl⟩

end Aex
