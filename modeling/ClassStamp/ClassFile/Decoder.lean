import ClassStamp.ClassFile.Error

/-!
# Reading bytes

A decoder takes values off the front of a byte string and keeps the place it
has reached, so that a byte string that ends too early is reported with the
place and the number of bytes that were needed there.

* `u8`, `u16`, `u32`, `u64` read integers, `bytes` a run of bytes, `many` a
  list of known length;
* `run` is a decoder on a whole byte string.
-/

namespace ClassStamp

/-- A place in a byte string that is being read. -/
structure Cursor where
  /-- The number of bytes already read. -/
  offset : Nat
  /-- The bytes still to read. -/
  rest : Bytes

/-- A step that reads a value. -/
abbrev Decoder := StateT Cursor (Except ClassFileError)

namespace Decoder

/-- Reads one byte. -/
def u8 : Decoder UInt8 := fun c =>
  match c.rest with
  | b :: rest => .ok (b, ⟨c.offset + 1, rest⟩)
  | _ => .error (.truncated c.offset 1)

/-- Reads an integer of two bytes. -/
def u16 : Decoder UInt16 := fun c =>
  match c.rest with
  | a :: b :: rest => .ok (Bytes.toUInt16 a b, ⟨c.offset + 2, rest⟩)
  | _ => .error (.truncated c.offset 2)

/-- Reads an integer of four bytes. -/
def u32 : Decoder UInt32 := fun c =>
  match c.rest with
  | a :: b :: d :: e :: rest =>
    .ok (Bytes.toUInt32 (Bytes.toUInt16 a b) (Bytes.toUInt16 d e), ⟨c.offset + 4, rest⟩)
  | _ => .error (.truncated c.offset 4)

/-- Reads an integer of eight bytes as two of four. -/
def u64 : Decoder UInt64 := do
  let high ← u32
  let low ← u32
  return Bytes.toUInt64 high low

/-- Reads `n` bytes. -/
def bytes (n : Nat) : Decoder Bytes := fun c =>
  let taken := c.rest.take n
  if taken.length = n then .ok (taken, ⟨c.offset + n, c.rest.drop n⟩)
  else .error (.truncated c.offset n)

/-- Reads `n` values of a kind. -/
def many {α : Type} (d : Decoder α) : Nat → Decoder (List α)
  | 0 => return []
  | n + 1 => do
    let a ← d
    let rest ← many d n
    return a :: rest

/-- Reads a list whose length stands before it in two bytes. -/
def counted {α : Type} (d : Decoder α) : Decoder (List α) := do
  let n ← u16
  many d n.toNat

/-- Runs a decoder from the front of a byte string. -/
def run {α : Type} (d : Decoder α) (input : Bytes) : Except ClassFileError (α × Cursor) :=
  StateT.run d ⟨0, input⟩

end Decoder

end ClassStamp
