import ClassStamp.Blake3
import ClassStamp.Bytes.Hex

/-!
# Content hashes

The digest that identifies the exact bytes of a written class file.

* `compute` is the digest of bytes, `text` its hexadecimal form of 64 digits
  and `short` the first sixteen of them;
* `ofText?` reads that form.
-/

namespace ClassStamp

/-- A digest of 32 bytes. -/
structure ContentHash where
  /-- The bytes of the digest. -/
  bytes : Vector UInt8 32
  deriving DecidableEq

namespace ContentHash

/-- Why a text is not the form of a digest. -/
inductive Malformed
  /-- The text holds that many bytes and not 32. -/
  | invalidLength (length : Nat)
  /-- The text is not hexadecimal. -/
  | hexDecode (reason : Bytes.Hex.Malformed)
  deriving DecidableEq

/-- The text shown for the error. -/
def Malformed.message : Malformed → String
  | invalidLength length => s!"invalid hash length: expected 32 bytes, got {length}"
  | hexDecode reason => s!"hex decode error: {reason.message}"

instance : ToString Malformed := ⟨Malformed.message⟩

/-- The digest of the bytes. -/
def compute (data : Bytes) : ContentHash := ⟨Blake3.hash data⟩

/-- The digest as text. -/
def text (h : ContentHash) : String := Bytes.Hex.encode h.bytes.toList

/-- The first eight bytes of the digest as text. -/
def short (h : ContentHash) : String := Bytes.Hex.encode (h.bytes.toList.take 8)

/-- Reads a digest from its text. -/
def ofText? (s : String) : Except Malformed ContentHash :=
  match Bytes.Hex.decode s with
  | .error reason => .error (.hexDecode reason)
  | .ok bytes =>
    if h : bytes.length = 32 then .ok ⟨⟨bytes.toArray, by simpa using h⟩⟩
    else .error (.invalidLength bytes.length)

end ContentHash

end ClassStamp
