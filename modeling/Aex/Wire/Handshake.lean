import Aex.Lib.Utf8
import Aex.Wire.FrameCodec

/-!
# Opening a data connection

One exchange before any frame: the client names its session and proves that it is its
own, and the server accepts or says which class of thing was wrong.  How Rust prints a
string for debugging is a parameter.
-/

namespace Aex

open Endian

/-- The first eight bytes of both messages. -/
def magic : List UInt8 := [0x41, 0x45, 0x58, 0x44, 0x41, 0x54, 0x41, 0x01]

/-- The data plane protocol version this build speaks. -/
def protocolVersion : Nat := 2

def helloLen : Nat := 48

def readyLen : Nat := 16

/-- Sixteen bytes of a message. -/
def sixteen (bytes : List UInt8) : Vector UInt8 16 := Vector.ofFn fun i : Fin 16 => bytes.getD i 0

def checkMagic (debug : String → String) (bytes : List UInt8) : Except WireError Unit :=
  if bytes ≠ magic then
    .error (.protocol
      s!"expected the data plane magic {debug (Utf8.lossy magic)}, got {debug (Utf8.lossy bytes)}")
  else .ok ()

/-- Client to server, once per connection. -/
structure Hello where
  version : Nat
  flags : Nat
  sessionId : Vector UInt8 16
  sessionToken : Vector UInt8 16
  deriving Repr, DecidableEq

namespace Hello

def new (sessionId sessionToken : Vector UInt8 16) : Hello := ⟨protocolVersion, 0, sessionId, sessionToken⟩

/-- Every field fits the width it has in the message. -/
structure Fits (hello : Hello) : Prop where
  version : hello.version < Word.size 16
  flags : hello.flags < Word.size 32

/-- The bytes of a message whose reserved bytes are these. -/
def bytes (hello : Hello) (reserved : List UInt8) : List UInt8 :=
  magic ++ toLE 2 hello.version ++ reserved ++ toLE 4 hello.flags ++ hello.sessionId.toList ++
    hello.sessionToken.toList

def encode (hello : Hello) : List UInt8 := hello.bytes [0, 0]

/-- The version is carried through rather than checked: a server has to answer one it
refuses. -/
def decode (debug : String → String) (bytes : List UInt8) : Except WireError Hello := do
  checkMagic debug (Vec.slice bytes 0 8)
  .ok ⟨ofLE (Vec.slice bytes 8 2), ofLE (Vec.slice bytes 12 4), sixteen (Vec.slice bytes 16 16),
    sixteen (Vec.slice bytes 32 16)⟩

end Hello

/-- Server to client, in reply to a `HELLO`. -/
structure Ready where
  /-- `ok` to accept. -/
  status : ErrorClass
  version : Nat
  flags : Nat
  deriving Repr, DecidableEq

namespace Ready

def accepted : Ready := ⟨.ok, protocolVersion, 0⟩

def refused (status : ErrorClass) : Ready := ⟨status, protocolVersion, 0⟩

def isAccepted (ready : Ready) : Bool := ready.status = .ok

def encode (ready : Ready) : List UInt8 :=
  magic ++ toLE 2 ready.status.asU8 ++ toLE 2 ready.version ++ toLE 4 ready.flags

def decode (debug : String → String) (bytes : List UInt8) : Except WireError Ready := do
  checkMagic debug (Vec.slice bytes 0 8)
  let status := ofLE (Vec.slice bytes 8 2)
  if Word.size 8 ≤ status then .error (.protocol s!"status {status} is not an error class")
  -- An unknown class fails safe.
  else .ok ⟨.fromU8 status, ofLE (Vec.slice bytes 10 2), ofLE (Vec.slice bytes 12 4)⟩

end Ready

/-! ## Messages read back -/

variable {debug : String → String}

theorem sixteen_toList (v : Vector UInt8 16) : sixteen v.toList = v := by
  apply Vector.ext
  intro i hi
  rw [sixteen, Vector.getElem_ofFn, List.getD_eq_getElem?_getD,
    List.getElem?_eq_getElem (by rw [Vector.length_toList]; exact hi), Option.getD_some,
    Vector.getElem_toList]

theorem toList_sixteen {bytes : List UInt8} (h : bytes.length = 16) : (sixteen bytes).toList = bytes := by
  have hofFn : (sixteen bytes).toList = List.ofFn fun i : Fin 16 => bytes.getD i 0 :=
    Vector.toList_ofFn
  rw [hofFn]
  apply List.ext_getElem
  · rw [List.length_ofFn, h]
  · intro i _ hi
    rw [List.getElem_ofFn, List.getD_eq_getElem?_getD, List.getElem?_eq_getElem hi, Option.getD_some]

theorem checkMagic_eq_ok {bytes : List UInt8} : checkMagic debug bytes = .ok () ↔ bytes = magic := by
  unfold checkMagic
  split
  · rename_i hne
    exact iff_of_false (by simp) hne
  · rename_i heq
    exact iff_of_true rfl (not_not.mp heq)

theorem checkMagic_error {bytes : List UInt8} {e : WireError} (h : checkMagic debug bytes = .error e) :
    e.errorClass = .protocol := by
  unfold checkMagic at h
  split at h
  · cases h
    rfl
  · cases h

namespace Hello

variable {hello : Hello} {bytes reserved : List UInt8}

theorem length_bytes (h : reserved.length = 2) : (hello.bytes reserved).length = helloLen := by
  simp only [Hello.bytes, List.length_append, length_toLE, Vector.length_toList, h]
  rfl

/-- A message of the right length, field by field. -/
theorem split_bytes (hlen : bytes.length = helloLen) :
    bytes = Vec.slice bytes 0 8 ++ Vec.slice bytes 8 2 ++ Vec.slice bytes 10 2 ++
      Vec.slice bytes 12 4 ++ Vec.slice bytes 16 16 ++ Vec.slice bytes 32 16 := by
  have hall : Vec.slice bytes 0 48 = bytes := Vec.slice_of_length_le (by rw [hlen, helloLen])
  calc bytes = Vec.slice bytes 0 (8 + 2 + 2 + 4 + 16 + 16) := hall.symm
    _ = _ := by simp only [← Vec.slice_append_slice, Nat.zero_add]

/-- A message decodes when, and to what, it is the image of; the reserved bytes are not
looked at. -/
theorem decode_eq_ok (hlen : bytes.length = helloLen) :
    decode debug bytes = .ok hello ↔
      hello.Fits ∧ ∃ reserved, reserved.length = 2 ∧ bytes = hello.bytes reserved := by
  have hslice : ∀ i n, i + n ≤ 48 → (Vec.slice bytes i n).length = n := fun i n h =>
    Vec.length_slice (by rw [hlen]; exact h)
  have hsplit := split_bytes hlen
  constructor
  · intro hdecode
    obtain ⟨⟨⟩, hmagic, hfields⟩ := Fallible.bind_eq_ok.mp hdecode
    rw [checkMagic_eq_ok] at hmagic
    cases hfields
    constructor
    · constructor
      · exact ofLE_lt (hslice 8 2 (by decide))
      · exact ofLE_lt (hslice 12 4 (by decide))
    · refine ⟨Vec.slice bytes 10 2, hslice 10 2 (by decide), ?_⟩
      rw [Hello.bytes]
      dsimp only
      rw [toLE_ofLE (hslice 8 2 (by decide)), toLE_ofLE (hslice 12 4 (by decide)),
        toList_sixteen (hslice 16 16 (by decide)), toList_sixteen (hslice 32 16 (by decide)), ← hmagic]
      exact hsplit
  · rintro ⟨hfits, reserved, hreserved, hbytes⟩
    have heq := hsplit.symm.trans hbytes
    rw [Hello.bytes] at heq
    have h5 := List.append_inj heq (by simp [hslice, magic, hreserved])
    have h4 := List.append_inj h5.1 (by simp [hslice, magic, hreserved])
    have h3 := List.append_inj h4.1 (by simp [hslice, magic, hreserved])
    have h2 := List.append_inj h3.1 (by simp [hslice, magic])
    have h1 := List.append_inj h2.1 (by simp [hslice, magic])
    unfold decode
    rw [h1.1, h1.2, h3.2, h4.2, h5.2, checkMagic_eq_ok.mpr rfl, sixteen_toList, sixteen_toList,
      ofLE_toLE_of_lt hfits.version, ofLE_toLE_of_lt hfits.flags]
    rfl

end Hello

namespace Ready

@[simp] theorem length_encode (ready : Ready) : ready.encode.length = readyLen := by
  simp only [encode, List.length_append, length_toLE]
  rfl

theorem asU8_lt (c : ErrorClass) : c.asU8 < Word.size 8 := by
  cases c <;> decide

theorem decode_encode {ready : Ready} (hversion : ready.version < Word.size 16)
    (hflags : ready.flags < Word.size 32) : decode debug ready.encode = .ok ready := by
  have hstatus : ready.status.asU8 < Word.size 16 := (asU8_lt _).trans (by decide)
  have hmagic : Vec.slice ready.encode 0 8 = magic := rfl
  have h8 : Vec.slice ready.encode 8 2 = toLE 2 ready.status.asU8 := rfl
  have h10 : Vec.slice ready.encode 10 2 = toLE 2 ready.version := rfl
  have h12 : Vec.slice ready.encode 12 4 = toLE 4 ready.flags := rfl
  unfold decode
  rw [hmagic, h8, h10, h12, checkMagic_eq_ok.mpr rfl, ofLE_toLE_of_lt hstatus,
    ofLE_toLE_of_lt hversion, ofLE_toLE_of_lt hflags]
  dsimp only [Bind.bind, Except.bind]
  rw [if_neg (Nat.not_le.mpr (asU8_lt _)), ErrorClass.fromU8_asU8]

theorem fromU8_eq_ok {n : Nat} : ErrorClass.fromU8 n = .ok ↔ n = 0 := by
  constructor
  · intro h
    unfold ErrorClass.fromU8 at h
    split at h
    · rfl
    all_goals cases h
  · rintro rfl
    rfl

/-- No class but the one it is stands for success, and neither does one this build does
not know. -/
theorem isAccepted_iff {bytes : List UInt8} {ready : Ready} (h : decode debug bytes = .ok ready) :
    ready.isAccepted = true ↔ ofLE (Vec.slice bytes 8 2) = 0 := by
  obtain ⟨⟨⟩, -, hfields⟩ := Fallible.bind_eq_ok.mp h
  dsimp only at hfields
  split at hfields
  · cases hfields
  · cases hfields
    rw [isAccepted, decide_eq_true_iff]
    exact fromU8_eq_ok

end Ready

end Aex
