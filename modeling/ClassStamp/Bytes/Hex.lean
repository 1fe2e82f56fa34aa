import ClassStamp.Bytes
import ClassStamp.Text.Quoted

/-!
# Hexadecimal text

A byte string as text, two digits a byte. Writing uses small letters; reading
takes both cases and says which digit is wrong.

* `decode_encode`: reading what was written gives the byte string back.
-/

namespace ClassStamp.Bytes.Hex

/-- Why a text is not the hexadecimal form of a byte string. -/
inductive Malformed
  /-- The text has an odd number of bytes. -/
  | oddLength
  /-- The byte at the index is no hexadecimal digit. -/
  | invalidDigit (byte : UInt8) (index : Nat)
  deriving DecidableEq

/-- The text shown for the error; the offending byte stands for the character
of its number. -/
def Malformed.message : Malformed → String
  | oddLength => "Odd number of digits"
  | invalidDigit byte index =>
    s!"Invalid character {Text.quoted (Char.ofNat byte.toNat)} at position {index}"

/-- The digit of a number below sixteen. -/
def digit (n : Nat) : UInt8 := UInt8.ofNat (if n < 10 then 0x30 + n else 0x57 + n)

/-- The number of a digit. -/
def value? (b : UInt8) : Option Nat :=
  let n := b.toNat
  if 0x30 ≤ n ∧ n ≤ 0x39 then some (n - 0x30)
  else if 0x41 ≤ n ∧ n ≤ 0x46 then some (n - 0x37)
  else if 0x61 ≤ n ∧ n ≤ 0x66 then some (n - 0x57)
  else none

/-- The digits of a byte string. -/
def digits (bytes : Bytes) : Bytes :=
  bytes.flatMap fun b => [digit (b.toNat / 16), digit (b.toNat % 16)]

/-- A byte string as text. -/
def encode (bytes : Bytes) : String :=
  String.ofList ((digits bytes).map fun b => Char.ofNat b.toNat)

/-- The byte string with the given digits, the first of which has the given
index. -/
def ofDigits (index : Nat) : Bytes → Except Malformed Bytes
  | high :: low :: rest =>
    match value? high, value? low with
    | none, _ => .error (.invalidDigit high index)
    | some _, none => .error (.invalidDigit low (index + 1))
    | some h, some l => (ofDigits (index + 2) rest).map (UInt8.ofNat (16 * h + l) :: ·)
  | _ => .ok []

/-- Reads the digits of a byte string; an odd number of them is refused
first. -/
def decodeDigits (ds : Bytes) : Except Malformed Bytes :=
  if ds.length % 2 = 1 then .error .oddLength else ofDigits 0 ds

/-- Reads a byte string from text, of which the UTF-8 bytes count. -/
def decode (s : String) : Except Malformed Bytes := decodeDigits s.toUTF8.toList

theorem value?_digit {n : Nat} (h : n < 16) : value? (digit n) = some n := by
  have : ∀ n < 16, value? (digit n) = some n := by decide
  exact this n h

theorem length_digits (bytes : Bytes) : (digits bytes).length = 2 * bytes.length := by
  induction bytes with
  | nil => rfl
  | cons b bytes ih => simp [digits] at ih ⊢; omega

theorem ofDigits_digits (index : Nat) (bytes : Bytes) :
    ofDigits index (digits bytes) = .ok bytes := by
  induction bytes generalizing index with
  | nil => rfl
  | cons b bytes ih =>
    have hb := b.toNat_lt
    have h : UInt8.ofNat (16 * (b.toNat / 16) + b.toNat % 16) = b := by
      rw [Nat.div_add_mod, UInt8.ofNat_toNat]
    rw [show digits (b :: bytes) =
      digit (b.toNat / 16) :: digit (b.toNat % 16) :: digits bytes from rfl, ofDigits,
      value?_digit (by omega), value?_digit (by omega)]
    simp [ih, Except.map, h]

theorem decode_encode (bytes : Bytes) : decodeDigits (digits bytes) = .ok bytes := by
  have : (digits bytes).length % 2 = 0 := by rw [length_digits]; omega
  simp [decodeDigits, this, ofDigits_digits]

end ClassStamp.Bytes.Hex
