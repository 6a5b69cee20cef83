import Aex.Lib.Endian
import Aex.Lib.Fallible
import Aex.Lib.Vec
import Aex.Lib.Vectored
import Aex.Lib.Word
import Aex.Wire.Frame

/-!
# Frames on a stream

The 32 bytes of a frame header, the write that hands a header and its payload
over together and resumes wherever it was cut short, and the reads that take
them off again.
-/

namespace Aex

open Vectored

def headerLen : Nat := 32

namespace FrameType

def asU8 : FrameType → UInt8
  | .fetch => 0x01
  | .data => 0x02
  | .error => 0x03
  | .ping => 0x05
  | .pong => 0x06

/-- From the wire; `none` for a type this build does not know. -/
def fromU8 : UInt8 → Option FrameType
  | 0x01 => some .fetch
  | 0x02 => some .data
  | 0x03 => some .error
  | 0x05 => some .ping
  | 0x06 => some .pong
  | _ => none

theorem fromU8_eq_some {v : UInt8} {t : FrameType} : fromU8 v = some t ↔ v = t.asU8 := by
  constructor
  · unfold fromU8
    intro h
    split at h <;> cases h <;> rfl
  · rintro rfl
    cases t <;> rfl

end FrameType

/-- A byte in hexadecimal, as `{:#04x}` prints it. -/
def hexByte (b : UInt8) : String :=
  let digits := Nat.toDigits 16 b.toNat
  "0x" ++ String.ofList (if digits.length < 2 then '0' :: digits else digits)

namespace FrameHeader

/-- Every field fits the width it has in the header. -/
structure Fits (h : FrameHeader) : Prop where
  flags : h.flags < Word.size 8
  requestId : h.requestId < Word.size 32
  offset : h.offset < Word.size 64
  wireLen : h.wireLen < Word.size 64
  logicalLen : h.logicalLen < Word.size 64

def encode (h : FrameHeader) : List UInt8 :=
  [h.frameType.asU8, h.codec.asU8, h.encoding.asU8, UInt8.ofNat h.flags] ++
    Endian.toLE 4 h.requestId ++ Endian.toLE 8 h.offset ++ Endian.toLE 8 h.wireLen ++
    Endian.toLE 8 h.logicalLen

/-- Parse a header.  Only the three tag bytes can be wrong. -/
def decode (bytes : List UInt8) : Except WireError FrameHeader :=
  match FrameType.fromU8 (bytes.getD 0 0) with
  | none => .error (.protocol s!"frame type {hexByte (bytes.getD 0 0)} is not defined")
  | some frameType =>
      match Codec.fromU8 (bytes.getD 1 0) with
      | none => .error (.protocol s!"codec {bytes.getD 1 0} is not defined")
      | some codec =>
          match Encoding.fromU8 (bytes.getD 2 0) with
          | none => .error (.protocol s!"encoding {bytes.getD 2 0} is not defined")
          | some encoding => .ok
              { frameType, codec, encoding
                flags := (bytes.getD 3 0).toNat
                requestId := Endian.ofLE (Vec.slice bytes 4 4)
                offset := Endian.ofLE (Vec.slice bytes 8 8)
                wireLen := Endian.ofLE (Vec.slice bytes 16 8)
                logicalLen := Endian.ofLE (Vec.slice bytes 24 8) }

variable {h : FrameHeader} {bytes : List UInt8}

@[simp] theorem length_encode : h.encode.length = headerLen := by
  simp [encode, headerLen]

/-- A header of the right length, field by field. -/
theorem bytes_eq (hlen : bytes.length = headerLen) :
    bytes = [bytes.getD 0 0, bytes.getD 1 0, bytes.getD 2 0, bytes.getD 3 0] ++ Vec.slice bytes 4 4 ++
      Vec.slice bytes 8 8 ++ Vec.slice bytes 16 8 ++ Vec.slice bytes 24 8 := by
  have htags : [bytes.getD 0 0, bytes.getD 1 0, bytes.getD 2 0, bytes.getD 3 0] =
      Vec.slice bytes 0 4 := by
    rw [Vec.slice_eq_map (x := 0) (by rw [hlen]; decide)]
    rfl
  have hall : Vec.slice bytes 0 32 = bytes := Vec.slice_of_length_le (by rw [hlen, headerLen])
  rw [htags]
  calc bytes = Vec.slice bytes 0 (4 + 4 + 8 + 8 + 8) := hall.symm
    _ = _ := by simp only [← Vec.slice_append_slice, Nat.zero_add]

/-- What the reads of a header find where its fields were written. -/
theorem fields_eq {tags a b c d : List UInt8} (hlen : bytes.length = headerLen)
    (heq : bytes = tags ++ a ++ b ++ c ++ d) (htags : tags.length = 4) (ha : a.length = 4)
    (hb : b.length = 8) (hc : c.length = 8) :
    [bytes.getD 0 0, bytes.getD 1 0, bytes.getD 2 0, bytes.getD 3 0] = tags ∧
      Vec.slice bytes 4 4 = a ∧ Vec.slice bytes 8 8 = b ∧ Vec.slice bytes 16 8 = c ∧
        Vec.slice bytes 24 8 = d := by
  have hslice : ∀ i n, i + n ≤ 32 → (Vec.slice bytes i n).length = n := fun i n h =>
    Vec.length_slice (by rw [hlen]; exact h)
  have h := (bytes_eq hlen).symm.trans heq
  have h4 := List.append_inj h (by simp [htags, ha, hb, hc, hslice])
  have h3 := List.append_inj h4.1 (by simp [htags, ha, hb, hslice])
  have h2 := List.append_inj h3.1 (by simp [htags, ha, hslice])
  have h1 := List.append_inj h2.1 (by simp [htags])
  exact ⟨h1.1, h1.2, h2.2, h3.2, h4.2⟩

/-- A header decodes when, and to what, it is the image of. -/
theorem decode_eq_ok (hlen : bytes.length = headerLen) :
    decode bytes = .ok h ↔ h.Fits ∧ h.encode = bytes := by
  have hslice : ∀ i n, i + n ≤ 32 → (Vec.slice bytes i n).length = n := fun i n h =>
    Vec.length_slice (by rw [hlen]; exact h)
  constructor
  · intro hdecode
    unfold decode at hdecode
    split at hdecode
    · cases hdecode
    rename_i frameType htype
    split at hdecode
    · cases hdecode
    rename_i codec hcodec
    split at hdecode
    · cases hdecode
    rename_i encoding hencoding
    cases hdecode
    rw [FrameType.fromU8_eq_some] at htype
    rw [Codec.fromU8_eq_some] at hcodec
    rw [Encoding.fromU8_eq_some] at hencoding
    constructor
    · constructor
      · exact UInt8.toNat_lt _
      · exact Endian.ofLE_lt (hslice 4 4 (by decide))
      · exact Endian.ofLE_lt (hslice 8 8 (by decide))
      · exact Endian.ofLE_lt (hslice 16 8 (by decide))
      · exact Endian.ofLE_lt (hslice 24 8 (by decide))
    · rw [encode]
      dsimp only
      rw [Endian.toLE_ofLE (hslice 4 4 (by decide)), Endian.toLE_ofLE (hslice 8 8 (by decide)),
        Endian.toLE_ofLE (hslice 16 8 (by decide)), Endian.toLE_ofLE (hslice 24 8 (by decide)),
        ← htype, ← hcodec, ← hencoding, UInt8.ofNat_toNat]
      exact (bytes_eq hlen).symm
  · rintro ⟨hfits, hencode⟩
    obtain ⟨htags, hid, hoffset, hwire, hlogical⟩ := fields_eq hlen
      (by rw [← hencode, encode]) (by simp) (by simp) (by simp) (by simp)
    simp only [List.cons.injEq, and_true] at htags
    obtain ⟨htype, hcodec, hencoding, hflags⟩ := htags
    unfold decode
    rw [htype, hcodec, hencoding, hflags, hid, hoffset, hwire, hlogical,
      FrameType.fromU8_eq_some.mpr rfl, Codec.fromU8_eq_some.mpr rfl, Encoding.fromU8_eq_some.mpr rfl]
    dsimp only
    rw [Endian.ofLE_toLE_of_lt hfits.requestId, Endian.ofLE_toLE_of_lt hfits.offset,
      Endian.ofLE_toLE_of_lt hfits.wireLen, Endian.ofLE_toLE_of_lt hfits.logicalLen,
      UInt8.toNat_ofNat_of_lt' hfits.flags]

end FrameHeader

/-! ## Writing -/

/-- How writing some buffers ended. -/
inductive Written where
  | done
  /-- The writer has not been heard of again. -/
  | pending
  | failed (kind : IoKind) (text : String)
  deriving Repr, DecidableEq

/-- The answers of a writer, one a call. -/
abbrev Attempts := List (Attempt (IoKind × String))

/-- What came of some buffers: the bytes that went out and the answers left over. -/
structure Sent where
  written : Written
  bytes : List UInt8
  attempts : Attempts

/-- Hand over buffers until none is left, from wherever the writer stopped. -/
def writeSlices : Attempts → List (List UInt8) → Sent
  | attempts, [] => ⟨.done, [], attempts⟩
  | [], _ :: _ => ⟨.pending, [], []⟩
  | .interrupted :: attempts, buf :: bufs => writeSlices attempts (buf :: bufs)
  | .fails e :: attempts, _ :: _ => ⟨.failed e.1 e.2, [], attempts⟩
  | .takes most :: attempts, buf :: bufs =>
      let offered := (buf :: bufs).flatten
      let n := min most offered.length
      if n = 0 then ⟨.failed .other "write zero", [], attempts⟩
      else
        let sent := writeSlices attempts (advance (buf :: bufs) n)
        { sent with bytes := offered.take n ++ sent.bytes }

/-- Write a header and its payload together. -/
def writeFrame (attempts : Attempts) (header : FrameHeader) (payload : List UInt8) : Sent :=
  writeSlices attempts [header.encode, payload]

/-- Write frames one after another, up to the first that fails. -/
def writeFrames : Attempts → List Frame → Sent
  | attempts, [] => ⟨.done, [], attempts⟩
  | attempts, frame :: frames =>
      let first := writeFrame attempts frame.header frame.payload
      match first.written with
      | .done =>
          let rest := writeFrames first.attempts frames
          { rest with bytes := first.bytes ++ rest.bytes }
      | _ => first

/-! ## Reading -/

/-- Take exactly `n` bytes off a stream. -/
def readExact (n : Nat) (stream : List UInt8) : Except WireError (List UInt8 × List UInt8) :=
  if stream.length < n then .error (.io .unexpectedEof "failed to fill whole buffer")
  else .ok (stream.take n, stream.drop n)

def readFrameHeader (stream : List UInt8) : Except WireError (FrameHeader × List UInt8) := do
  let (bytes, stream) ← readExact headerLen stream
  let header ← FrameHeader.decode bytes
  .ok (header, stream)

/-- Read a header and the payload that follows it. -/
def readFrame (stream : List UInt8) : Except WireError (Frame × List UInt8) := do
  let (header, stream) ← readFrameHeader stream
  let (payload, stream) ← readExact header.wireLen stream
  .ok (⟨header, payload⟩, stream)

def readFrames : Nat → List UInt8 → Except WireError (List Frame × List UInt8)
  | 0, stream => .ok ([], stream)
  | count + 1, stream => do
      let (frame, stream) ← readFrame stream
      let (frames, stream) ← readFrames count stream
      .ok (frame :: frames, stream)

/-! ## What is on the stream -/

namespace Frame

/-- The fields fit their widths and the payload is as long as the header says. -/
structure WellFormed (frame : Frame) : Prop where
  fits : frame.header.Fits
  wireLen : frame.header.wireLen = frame.payload.length

/-- A frame on the wire. -/
def bytes (frame : Frame) : List UInt8 := frame.header.encode ++ frame.payload

end Frame

/-- How many times a writer takes something. -/
def takesCount (attempts : Attempts) : Nat := attempts.countP Attempt.isTakes

variable {attempts : Attempts} {bufs : List (List UInt8)}

/-- A writer that keeps taking something takes everything, in order. -/
theorem writeSlices_spec (hready : Ready bufs) (hprogress : ∀ a ∈ attempts, a.Progresses)
    (henough : bufs.flatten.length ≤ takesCount attempts) :
    (writeSlices attempts bufs).written = .done ∧
      (writeSlices attempts bufs).bytes = bufs.flatten ∧
      (∀ a ∈ (writeSlices attempts bufs).attempts, a.Progresses) ∧
      takesCount attempts ≤
        takesCount (writeSlices attempts bufs).attempts + bufs.flatten.length := by
  induction attempts generalizing bufs with
  | nil =>
      have hnil : bufs.flatten = [] := List.length_eq_zero_iff.mp (Nat.le_zero.mp henough)
      rw [hready.eq_nil_iff] at hnil
      subst hnil
      simp [writeSlices]
  | cons attempt attempts ih =>
      rw [List.forall_mem_cons] at hprogress
      cases bufs with
      | nil => simpa [writeSlices] using hprogress
      | cons buf bufs =>
          have hne : (buf :: bufs).flatten ≠ [] := by
            rw [ne_eq, hready.eq_nil_iff]
            exact List.cons_ne_nil _ _
          have hpos := List.length_pos_iff.mpr hne
          cases attempt with
          | interrupted => exact ih hready hprogress.2 henough
          | fails e => exact hprogress.1.elim
          | takes most =>
              have hmost : 0 < most := hprogress.1
              have hn : min most (buf :: bufs).flatten.length ≠ 0 := by omega
              have hcount : takesCount (.takes most :: attempts) = takesCount attempts + 1 :=
                List.countP_cons_of_pos rfl
              have hrest : (advance (buf :: bufs) (min most (buf :: bufs).flatten.length)).flatten =
                  (buf :: bufs).flatten.drop (min most (buf :: bufs).flatten.length) :=
                flatten_advance
              have hlength := congrArg List.length hrest
              rw [List.length_drop] at hlength
              have h := ih ready_advance hprogress.2
                (by rw [hlength]; omega)
              rw [writeSlices, if_neg hn, hcount]
              dsimp only
              refine ⟨h.1, ?_, h.2.2.1, ?_⟩
              · rw [h.2.1, hrest, List.take_append_drop]
              · have := h.2.2.2
                omega

theorem writeFrame_spec (frame : Frame) (hprogress : ∀ a ∈ attempts, a.Progresses)
    (henough : frame.bytes.length ≤ takesCount attempts) :
    (writeFrame attempts frame.header frame.payload).written = .done ∧
      (writeFrame attempts frame.header frame.payload).bytes = frame.bytes ∧
      (∀ a ∈ (writeFrame attempts frame.header frame.payload).attempts, a.Progresses) ∧
      takesCount attempts ≤
        takesCount (writeFrame attempts frame.header frame.payload).attempts + frame.bytes.length := by
  have hbytes : [frame.header.encode, frame.payload].flatten = frame.bytes := by simp [Frame.bytes]
  have hready : Ready [frame.header.encode, frame.payload] := by
    intro buf hbuf
    cases hbuf
    intro hnil
    have := congrArg List.length hnil
    rw [FrameHeader.length_encode] at this
    exact absurd this (by decide)
  rw [← hbytes] at henough ⊢
  exact writeSlices_spec hready hprogress henough

theorem writeFrames_spec {frames : List Frame} (hprogress : ∀ a ∈ attempts, a.Progresses)
    (henough : (frames.flatMap Frame.bytes).length ≤ takesCount attempts) :
    (writeFrames attempts frames).written = .done ∧
      (writeFrames attempts frames).bytes = frames.flatMap Frame.bytes := by
  induction frames generalizing attempts with
  | nil => exact ⟨rfl, rfl⟩
  | cons frame frames ih =>
      rw [List.flatMap_cons, List.length_append] at henough
      have hfirst := writeFrame_spec frame hprogress (by omega)
      have hrest := ih hfirst.2.2.1 (by have := hfirst.2.2.2; omega)
      rw [writeFrames]
      dsimp only
      rw [hfirst.1]
      dsimp only
      rw [hrest.1, hrest.2, hfirst.2.1, List.flatMap_cons]
      exact ⟨rfl, rfl⟩

theorem readExact_append {n : Nat} {bytes rest : List UInt8} (h : bytes.length = n) :
    readExact n (bytes ++ rest) = .ok (bytes, rest) := by
  subst h
  simp [readExact]

theorem readFrame_append {frame : Frame} {rest : List UInt8} (h : frame.WellFormed) :
    readFrame (frame.bytes ++ rest) = .ok (frame, rest) := by
  have hdecode := (FrameHeader.decode_eq_ok FrameHeader.length_encode).mpr ⟨h.fits, rfl⟩
  have hheader : readFrameHeader (frame.bytes ++ rest) =
      .ok (frame.header, frame.payload ++ rest) := by
    rw [readFrameHeader, Frame.bytes, List.append_assoc,
      readExact_append FrameHeader.length_encode]
    simp only [Bind.bind, Except.bind, hdecode]
  rw [readFrame, hheader]
  simp only [Bind.bind, Except.bind, readExact_append h.wireLen.symm]

theorem readFrames_append {frames : List Frame} (rest : List UInt8)
    (h : ∀ frame ∈ frames, frame.WellFormed) :
    readFrames frames.length (frames.flatMap Frame.bytes ++ rest) = .ok (frames, rest) := by
  induction frames with
  | nil => rfl
  | cons frame frames ih =>
      rw [List.forall_mem_cons] at h
      rw [List.length_cons, readFrames, List.flatMap_cons, List.append_assoc,
        readFrame_append h.1]
      simp only [Bind.bind, Except.bind, ih h.2]

/-- Frames written to a stream that keeps taking something are on it one after
another and are read back as they were; a header decodes exactly when it is the
image of one, and is encoded to the same bytes again. -/
theorem framing_roundtrip {frames : List Frame} (hframes : ∀ frame ∈ frames, frame.WellFormed)
    (hprogress : ∀ a ∈ attempts, a.Progresses)
    (henough : (frames.flatMap Frame.bytes).length ≤ takesCount attempts) :
    ((writeFrames attempts frames).written = .done ∧
        (writeFrames attempts frames).bytes = frames.flatMap Frame.bytes ∧
        readFrames frames.length (writeFrames attempts frames).bytes = .ok (frames, [])) ∧
      ∀ bytes : List UInt8, bytes.length = headerLen → ∀ header,
        FrameHeader.decode bytes = .ok header ↔ header.Fits ∧ header.encode = bytes := by
  have hsent := writeFrames_spec hprogress henough
  have hread := readFrames_append [] hframes
  rw [List.append_nil] at hread
  rw [hsent.2]
  exact ⟨⟨hsent.1, rfl, hread⟩, fun _ hlen _ => FrameHeader.decode_eq_ok hlen⟩

/-- A raw data frame of three bytes, cut in its header and in its payload. -/
theorem framing_roundtrip_cut :
    let frames : List Frame := [⟨.data 7 4096 3, [1, 2, 3]⟩]
    let attempts : Attempts := [.takes 5, .interrupted, .takes 28] ++ List.replicate 35 (.takes 1)
    ((writeFrames attempts frames).written = .done ∧
        (writeFrames attempts frames).bytes = frames.flatMap Frame.bytes ∧
        readFrames frames.length (writeFrames attempts frames).bytes = .ok (frames, [])) ∧
      ∀ bytes : List UInt8, bytes.length = headerLen → ∀ header,
        FrameHeader.decode bytes = .ok header ↔ header.Fits ∧ header.encode = bytes :=
  framing_roundtrip
    (by
      simp only [List.mem_singleton, forall_eq]
      constructor
      · constructor <;> decide
      · rfl)
    (by decide) (by decide)

end Aex
