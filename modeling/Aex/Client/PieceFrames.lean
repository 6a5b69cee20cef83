import Aex.Client.DataConn
import Aex.Client.Plan
import Aex.Server.Dataplane

/-!
# Encoded pieces

The frame a server sends for a piece of a transfer, as the client that prepared
the transfer receives it: it passes every check and expands in its place.
-/

namespace Aex

/-- What a server reads a request to ask for; the codec has a field of its own. -/
def requestedQuality (request : Proto.PrepareSelectionRequest) : QualitySpec :=
  { qualityFromProto request.requestedQuality with codec := Codec.fromU32 request.requestedCodec }

/-- Expanding on a build, as its connections use it. -/
def Expanders.toExpander (expanders : Expanders) (build : Build) (display : F64 → String) :
    Expander :=
  ⟨decompressInto build display expanders, fun _ _ _ => length_decompressInto⟩

/-! ## What a client asks for -/

section Request

variable {build server : Build} {selection : ClientSelection} {dtype : DType} {q : QualitySpec}

@[simp] theorem Encoding.fromI32_asU8 (e : Encoding) : fromI32 e.asU8.toNat = some e := by
  cases e <;> rfl

@[simp] theorem Codec.fromU32_asU8 (c : Codec) : fromU32 c.asU8.toNat = some c := by
  cases c <;> rfl

/-- A server reads the quality a client sent, with the client's codec named. -/
theorem requestedQuality_prepareRequest : requestedQuality (prepareRequest build selection) =
    { expandable build selection.quality with
      codec := some ((expandable build selection.quality).codecFor build) } := by
  simp only [requestedQuality, prepareRequest, qualityToProto, qualityFromProto,
    Encoding.fromI32_asU8, Codec.fromU32_asU8]
  cases (expandable build selection.quality).castDtype with
  | none => rfl
  | some cast =>
      rw [Option.map_some, Option.bind_some, DType.fromI32_asI32]
      rfl

theorem codecFor_expandable_isSupported :
    ((expandable build q).codecFor build).isSupported build = true := by
  unfold expandable
  split
  · rename_i h
    exact (Bool.and_eq_true_iff.mp h).2
  · rfl

/-- An error-bounded quality is carried by an error-bounded codec. -/
theorem QualitySpec.codecFor_isErrorBounded (h : q.encoding = .errorBound) :
    (q.codecFor build).isErrorBounded = true := by
  simp only [codecFor, h]
  cases hc : q.codec.filter Codec.isErrorBounded with
  | none =>
      rw [Option.getD_none, Codec.defaultLossy]
      split <;> rfl
  | some c =>
      rw [Option.filter_eq_some_iff] at hc
      exact hc.2

/-- A codec named in a quality carries it, or nothing does. -/
theorem QualitySpec.codecFor_named {c : Codec} (h : q.encoding = .errorBound → c.isErrorBounded) :
    { q with codec := some c }.codecFor build = c ∨ { q with codec := some c }.codecFor build = .raw := by
  cases he : q.encoding with
  | errorBound =>
      apply Or.inl
      simp [codecFor, Option.filter, h he]
  | exact | dtypeCast =>
      simp only [codecFor, Option.filter]
      split
      · exact Or.inl rfl
      · exact Or.inr rfl

/-- Whatever a server makes of a client's request, it sends nothing the client
could not expand. -/
theorem codecFor_requested_isSupported :
    (((requestedQuality (prepareRequest build selection)).applied server dtype).codecFor
      server).isSupported build = true := by
  have hclient := @codecFor_expandable_isSupported build selection.quality
  rw [requestedQuality_prepareRequest]
  generalize expandable build selection.quality = q at hclient
  unfold QualitySpec.applied
  split
  · rcases @QualitySpec.codecFor_named server q (q.codecFor build) q.codecFor_isErrorBounded with h | h
    · rw [h]
      exact hclient
    · rw [h]
      rfl
  · rfl

end Request

/-! ## The frame of a piece -/

section Pieces

variable {ctx : Context} {client : Build} {selection : ClientSelection} {shape : List Nat}
  {dtype : DType} {indices : List Index} {L : SelectionLayout} {requestId offset : Nat}
  {bytes : List UInt8} {frame : Frame} {spec : BlockSpec}

/-- The bound a plan's blocks are described with is one that a header can carry. -/
theorem bound_of_applied {q : QualitySpec} (h : q.canApply client dtype = true) :
    (q.eps.getD 0).isFinite = true ∧ (q.eps.getD 0).isNegative = false := by
  by_cases he : q.encoding = .errorBound
  · obtain ⟨-, bound, hbound, hfinite, hpositive⟩ := QualitySpec.eps_of_canApply h he
    rw [hbound, Option.getD_some]
    refine ⟨hfinite, ?_⟩
    simp only [F64.isPositive, Bool.and_eq_true, decide_eq_true_eq] at hpositive
    simp only [F64.isNegative, Bool.and_eq_false_iff, decide_eq_false_iff_not]
    omega
  · rw [QualitySpec.eps, if_neg he]
    decide

/-- An error-bounded codec carries floats only. -/
theorem float_of_applied {build : Build} {q : QualitySpec} (h : q.canApply build dtype = true)
    (hcodec : (q.codecFor build).isErrorBounded = true) :
    q.wireDtype build dtype = .float32 ∨ q.wireDtype build dtype = .float64 := by
  cases he : q.encoding with
  | errorBound =>
      rw [QualitySpec.wireDtype, he]
      exact (QualitySpec.eps_of_canApply h he).1
  | exact | dtypeCast =>
      simp only [QualitySpec.codecFor, he] at hcodec
      cases hc : q.codec.filter fun c => !c.isErrorBounded && c.isSupported build with
      | none =>
          rw [hc] at hcodec
          cases hcodec
      | some c =>
          rw [hc, Option.getD_some] at hcodec
          rw [Option.filter_eq_some_iff, hcodec] at hc
          exact absurd hc.2 (by simp)

/-- A piece goes raw, or as the block its codec made of it when that is shorter. -/
theorem pieceFrame_cases (h : pieceFrame ctx requestId L offset bytes = .ok frame) :
    frame = ⟨.data requestId offset bytes.length, bytes⟩ ∨
      ∃ spec stream, L.block ctx.build offset bytes.length = .ok (some spec) ∧
        compressStream ctx.build ctx.compressors (L.quality.codecFor ctx.build) spec bytes =
          .ok stream ∧
        (spec.encode ++ stream).length < bytes.length ∧
        frame = ⟨.dataEncoded requestId offset (L.quality.codecFor ctx.build) L.quality.encoding
          (spec.encode ++ stream).length bytes.length, spec.encode ++ stream⟩ := by
  obtain ⟨block, hblock, h⟩ := Fallible.bind_eq_ok.mp h
  cases block with
  | none =>
      cases h
      exact Or.inl rfl
  | some spec =>
      obtain ⟨packed, hpacked, h⟩ := Fallible.bind_eq_ok.mp h
      unfold compress at hpacked
      split at hpacked
      · cases hpacked
      obtain ⟨stream, hstream, hpacked⟩ := Fallible.bind_eq_ok.mp hpacked
      cases hpacked
      split at h
      · rename_i hshorter
        split at hshorter
        · cases hshorter
        rename_i hlen
        cases hshorter
        cases h
        exact Or.inr ⟨spec, stream, hblock, hstream, Nat.lt_of_not_le hlen, rfl⟩
      · cases h
        exact Or.inl rfl

/-- What describes a piece of a plan. -/
theorem block_eq_some {len : Nat} (h : L.block client offset len = .ok (some spec)) :
    L.quality.codecFor client ≠ .raw ∧
      BlockSpec.forRange L.outShape L.dtype (L.quality.eps.getD 0) offset len = .ok spec := by
  unfold SelectionLayout.block at h
  split at h
  · cases h
  · rename_i hraw
    refine ⟨hraw, ?_⟩
    cases hrange : BlockSpec.forRange L.outShape L.dtype (L.quality.eps.getD 0) offset len with
    | error e =>
        rw [hrange] at h
        cases h
    | ok found =>
        rw [hrange] at h
        cases h
        rfl

/-- What an error-bounded expander makes of a block, in the slice of a fetch. -/
def expandedInto (dst : List UInt8) (start : Nat) :
    Except String (List UInt8) → Except ClientError Unit × List UInt8
  | .ok values => (.ok (), Vec.write dst start values)
  | .error text => (.error (.protocol (AexError.badBlock text).message), dst)

/-- Inflating gives back what was deflated, into room of exactly its length. -/
def Inverse (compressors : Compressors) (expanders : Expanders) : Prop :=
  ∀ src stream, compressors.gzip src = .ok stream → expanders.inflate stream src.length = (none, src)

/-- Receiving a whole frame in the slice of a fetch. -/
def receiveFrame (client : Build) (expanders : Expanders) (display : F64 → String)
    (requestId fetchOffset : Nat) (dst : List UInt8) (frame : Frame) :
    Except ClientError Unit × List UInt8 :=
  DataConn.receiveData client (expanders.toExpander client display) frame.header requestId
    fetchOffset dst frame.payload none

/-- What becomes of the frame of a piece in the slice of a fetch that contains it. -/
structure Delivered (ctx : Context) (client : Build) (expanders : Expanders)
    (display : F64 → String) (L : SelectionLayout) (requestId fetchOffset offset : Nat)
    (bytes dst : List UInt8) (frame : Frame) : Prop where
  /-- It passes the checks made before any of it is read. -/
  placed : DataConn.place client frame.header requestId fetchOffset dst.length =
    .ok (offset - fetchOffset)
  expanded :
    match frame.header.codec with
    | .raw => receiveFrame client expanders display requestId fetchOffset dst frame =
        (.ok (), Vec.write dst (offset - fetchOffset) bytes)
    | .gzip => Inverse ctx.compressors expanders →
        receiveFrame client expanders display requestId fetchOffset dst frame =
          (.ok (), Vec.write dst (offset - fetchOffset) bytes)
    | .sz => ∃ spec stream, L.block ctx.build offset bytes.length = .ok (some spec) ∧
        ctx.compressors.sz spec bytes = .ok stream ∧
        receiveFrame client expanders display requestId fetchOffset dst frame =
          expandedInto dst (offset - fetchOffset) (expanders.sz spec stream)
    | .zfp => ∃ spec stream, L.block ctx.build offset bytes.length = .ok (some spec) ∧
        ctx.compressors.zfp spec bytes = .ok stream ∧
        receiveFrame client expanders display requestId fetchOffset dst frame =
          expandedInto dst (offset - fetchOffset) (expanders.zfp spec stream)
  shorter : frame.header.codec ≠ .raw → frame.payload.length < bytes.length

/-- An expansion put in its place, with its error as the client reports it. -/
def putBlock (dst : List UInt8) (start : Nat) (expansion : Except AexError Unit × List UInt8) :
    Except ClientError Unit × List UInt8 :=
  (expansion.1.mapError fun e => .protocol e.message, Vec.write dst start expansion.2)

/-- The expansion of a block whose header says what its stream was made with. -/
theorem receiveFrame_block {expanders : Expanders} {display : F64 → String} {codec : Codec}
    {stream dst : List UInt8} {header : FrameHeader} {fetchOffset start : Nat}
    (hplace : DataConn.place client header requestId fetchOffset dst.length = .ok start)
    (hcodec : header.codec = codec) (hraw : codec ≠ .raw) (hspec : spec.Describable)
    (hbytes : spec.bytes = header.logicalLen) :
    receiveFrame client expanders display requestId fetchOffset dst ⟨header, spec.encode ++ stream⟩ =
      putBlock dst start
        (expandStream client expanders codec spec stream (Vec.slice dst start spec.bytes)) := by
  obtain ⟨-, -, -, hfits⟩ := DataConn.place_spec hplace
  rw [← hbytes] at hfits
  have hlen : (Vec.slice dst start spec.bytes).length = spec.bytes := Vec.length_slice hfits
  have hdrop : (spec.encode ++ stream).drop blockHeaderLen = stream := by
    rw [← BlockSpec.length_encode, List.drop_left]
  have hdecompress : decompressInto client display expanders codec (spec.encode ++ stream)
      (Vec.slice dst start spec.bytes) =
        expandStream client expanders codec spec stream (Vec.slice dst start spec.bytes) := by
    rw [decompressInto, BlockSpec.decode_encode hspec]
    dsimp only
    rw [if_neg (not_not.mpr hlen.symm), hdrop]
  rw [receiveFrame, DataConn.receiveData, hplace]
  dsimp only
  rw [hcodec, if_neg hraw, ← hbytes, ← hdecompress]
  rfl

/-- Expanding a block of floats in a slice of its length. -/
theorem putBlock_expandAs {unsupported : DType → String}
    {expand : BlockSpec → List UInt8 → Except String (List UInt8)}
    (hexpand : ∀ spec src values, expand spec src = .ok values → values.length = spec.bytes)
    (hfloat : spec.dtype = .float32 ∨ spec.dtype = .float64) {stream dst : List UInt8} {start : Nat}
    (hfits : start + spec.bytes ≤ dst.length) :
    putBlock dst start (expandAs unsupported expand spec stream (Vec.slice dst start spec.bytes)) =
      expandedInto dst start (expand spec stream) := by
  rw [expandAs, if_pos hfloat]
  cases hvalues : expand spec stream with
  | error text =>
      rw [putBlock, Vec.write_slice hfits]
      rfl
  | ok values =>
      have hlen : values.length = (Vec.slice dst start spec.bytes).length := by
        rw [hexpand _ _ _ hvalues, Vec.length_slice hfits]
      rw [putBlock]
      dsimp only
      rw [Vec.write_whole hlen]
      rfl

/-- Inflating what was deflated in a slice of its length. -/
theorem putBlock_gzip {expanders : Expanders} {stream dst : List UInt8} {start : Nat}
    (hinflate : expanders.inflate stream bytes.length = (none, bytes))
    (hfits : start + bytes.length ≤ dst.length) :
    putBlock dst start (gzipDecompressInto expanders stream (Vec.slice dst start bytes.length)) =
      (.ok (), Vec.write dst start bytes) := by
  have hlen : (Vec.slice dst start bytes.length).length = bytes.length := Vec.length_slice hfits
  rw [gzipDecompressInto, hlen, hinflate]
  dsimp only
  rw [if_neg (Nat.lt_irrefl _), putBlock, Vec.write_whole hlen.symm]
  rfl

/-- Every piece of a plan a client asked for, if it can be sent at all, is received
by that client in a fetch that contains it, whichever codec carries it. -/
theorem pieceFrame_delivered
    (hplan : SelectionLayout.resolve ctx.build shape dtype indices
      ((requestedQuality (prepareRequest client selection)).applied ctx.build dtype) = .ok L)
    {fetchOffset : Nat} {dst : List UInt8} (hfetch : fetchOffset + dst.length ≤ L.totalBytes)
    (hinside : fetchOffset ≤ offset ∧ offset + bytes.length ≤ fetchOffset + dst.length)
    (hsent : pieceFrame ctx requestId L offset bytes = .ok frame) (expanders : Expanders)
    (display : F64 → String) :
    Delivered ctx client expanders display L requestId fetchOffset offset bytes dst frame ∧
      ∀ offset len spec, L.block ctx.build offset len = .ok (some spec) →
        BlockSpec.decode display spec.encode = .ok spec := by
  have htotal := SelectionLayout.totalBytes_lt hplan
  have happlied := QualitySpec.applied_canApply ctx.build
    (requestedQuality (prepareRequest client selection)) dtype
  have hsupported := @codecFor_requested_isSupported client ctx.build selection dtype
  obtain ⟨_, _, -, -, hL, -⟩ := SelectionLayout.resolve_spec hplan
  have hdtype : L.dtype = L.quality.wireDtype ctx.build dtype := by rw [hL]
  rw [← SelectionLayout.quality_eq hplan] at happlied hsupported
  have hdescribable : ∀ offset len spec, L.block ctx.build offset len = .ok (some spec) →
      spec.Describable := fun _ _ _ hblock =>
    BlockSpec.forRange_describable (block_eq_some hblock).2 (bound_of_applied happlied)
  refine ⟨?_, fun offset len spec hblock => ?_⟩
  · obtain ⟨start, rfl⟩ := Nat.exists_eq_add_of_le hinside.1
    have hfits : start + bytes.length ≤ dst.length := by omega
    have hplace : ∀ header : FrameHeader, header.requestId = requestId →
        header.codec.isSupported client = true → DataConn.sane header = true →
        header.offset = fetchOffset + start → header.logicalLen = bytes.length →
        DataConn.place client header requestId fetchOffset dst.length = .ok start :=
      fun header hid hcodec hsane hoffset hlen =>
        DataConn.place_eq_ok hid hcodec hsane hoffset (by rw [hlen]; exact hfits) (by omega)
    rcases pieceFrame_cases hsent with rfl | ⟨spec, stream, hblock, hstream, hshorter, rfl⟩
    · have hplaced := hplace (.data requestId (fetchOffset + start) bytes.length) rfl rfl
        (by simp [DataConn.sane, FrameHeader.data]) rfl rfl
      constructor
      · rw [Nat.add_sub_cancel_left]
        exact hplaced
      · rw [Nat.add_sub_cancel_left]
        dsimp only
        rw [receiveFrame, DataConn.receiveData, hplaced]
        rfl
      · exact fun hraw => absurd rfl hraw
    · obtain ⟨hraw, hrange⟩ := block_eq_some hblock
      have hspec := hdescribable _ _ _ hblock
      have hbytes : spec.bytes = bytes.length := BlockSpec.forRange_bytes (by omega) hrange
      have hfloat : (L.quality.codecFor ctx.build).isErrorBounded = true →
          spec.dtype = .float32 ∨ spec.dtype = .float64 := by
        intro hcodec
        rw [BlockSpec.forRange_spec hrange, hdtype]
        exact float_of_applied happlied hcodec
      generalize L.quality.codecFor ctx.build = codec at *
      have hplaced := hplace (.dataEncoded requestId (fetchOffset + start) codec L.quality.encoding
        (spec.encode ++ stream).length bytes.length) rfl hsupported
        (by simpa [DataConn.sane, FrameHeader.dataEncoded, hraw] using hshorter) rfl rfl
      constructor
      · rw [Nat.add_sub_cancel_left]
        exact hplaced
      · rw [Nat.add_sub_cancel_left, receiveFrame_block hplaced rfl hraw hspec hbytes, hbytes]
        cases codec with
        | raw => exact absurd rfl hraw
        | gzip => exact fun hinverse => putBlock_gzip (hinverse bytes stream hstream) hfits
        | sz =>
            refine ⟨spec, stream, hblock, ?_, ?_⟩
            · exact (Fallible.ite_eq_ok.mp hstream).2
            · have hbuild : client.sz = true := hsupported
              rw [expandStream.eq_def, ← hbytes, if_pos hbuild]
              exact putBlock_expandAs expanders.length_sz (hfloat rfl) (by rwa [hbytes])
        | zfp =>
            refine ⟨spec, stream, hblock, ?_, ?_⟩
            · exact (Fallible.ite_eq_ok.mp hstream).2
            · have hbuild : client.zfp = true := hsupported
              rw [expandStream.eq_def, ← hbytes, if_pos hbuild]
              exact putBlock_expandAs expanders.length_zfp (hfloat rfl) (by rwa [hbytes])
      · exact fun _ => hshorter
  · have := @BlockSpec.decode_encode spec [] display (hdescribable _ _ _ hblock)
    rwa [List.append_nil] at this

/-! ### A row of zeros, deflated -/

/-- Sixty-four zeros and their deflate stream. -/
def zeros : List UInt8 := List.replicate 64 0

def zerosDeflated : List UInt8 := [99, 96, 160, 12, 0, 0]

/-- A server that can deflate the zeros. -/
def zerosContext (config : ValidConfig) : Context where
  build := ⟨false, false⟩
  config
  compressors :=
    { gzip := fun src => if src = zeros then .ok zerosDeflated else .error (.badBlock "deflate")
      sz := fun _ _ => .error (.badBlock "Sz")
      zfp := fun _ _ => .error (.badBlock "zfp") }

/-- And a client that can inflate them. -/
def zerosExpanders : Expanders where
  inflate src room := if src = zerosDeflated then (none, zeros.take room) else (some "corrupt", [])
  sz _ _ := .error "Sz"
  zfp _ _ := .error "zfp"
  length_inflate := by
    intro src room
    split
    · exact List.length_take_le _ _
    · exact Nat.zero_le _
  length_sz := by
    intro _ _ _ h
    cases h
  length_zfp := by
    intro _ _ _ h
    cases h

def zerosSelection : ClientSelection := ⟨1, "zeros", [], { codec := some .gzip }⟩

def zerosLayout : SelectionLayout :=
  ⟨[64], .uint8, .uint8, 64, { codec := some .gzip }, .contiguous 0 64⟩

/-- The frame of all of the zeros: thirty bytes for sixty-four. -/
def zerosFrame : Frame :=
  ⟨.dataEncoded 1 0 .gzip .exact 30 64, BlockSpec.encode ⟨.uint8, [64], 0⟩ ++ zerosDeflated⟩

theorem pieceFrame_delivered_zeros :
    Delivered (zerosContext .builtIn) ⟨false, true⟩ zerosExpanders (fun _ => "") zerosLayout 1 0 0
        zeros (List.replicate 64 7) zerosFrame ∧
      ∀ offset len spec, zerosLayout.block ⟨false, false⟩ offset len = .ok (some spec) →
        BlockSpec.decode (fun _ => "") spec.encode = .ok spec :=
  pieceFrame_delivered
    (show SelectionLayout.resolve ⟨false, false⟩ [64] .uint8 [] ((requestedQuality
      (prepareRequest ⟨false, true⟩ zerosSelection)).applied ⟨false, false⟩ .uint8) = .ok _ by decide)
    (by decide) (by decide)
    (show pieceFrame (zerosContext .builtIn) 1 zerosLayout 0 zeros = .ok zerosFrame by rfl) _ _

end Pieces

end Aex
