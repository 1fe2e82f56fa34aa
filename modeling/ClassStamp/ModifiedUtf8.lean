import ClassStamp.Bytes
import ClassStamp.Text.Utf16

/-!
# Modified UTF-8

The text encoding of class files. Each UTF-16 unit of a text is written in one
to three bytes: a unit from 1 to 7F in one byte, zero and a unit below 800 in
two, any other in three. So the byte 0 never occurs, and a character above
U+FFFF takes six bytes, three for each of its surrogates.

* `encode` writes each unit in its shortest form, zero excepted;
* `decode` also reads longer forms, and names the first byte that is wrong.
-/

namespace ClassStamp.ModifiedUtf8

/-- A byte string that is no modified UTF-8 text. -/
structure Malformed where
  /-- The place of the first byte that is wrong, or the length of the byte
  string if its units are no UTF-16 text. -/
  offset : Nat
  deriving DecidableEq

/-- The bytes of one unit. -/
def ofUnit (u : UInt16) : Bytes :=
  let n := u.toNat
  if 1 ≤ n ∧ n ≤ 0x7F then [UInt8.ofNat n]
  else if n ≤ 0x7FF then [UInt8.ofNat (0xC0 + n / 0x40), UInt8.ofNat (0x80 + n % 0x40)]
  else [UInt8.ofNat (0xE0 + n / 0x1000), UInt8.ofNat (0x80 + n / 0x40 % 0x40),
    UInt8.ofNat (0x80 + n % 0x40)]

/-- The bytes of a text. -/
def encode (s : String) : Bytes := (Text.Utf16.encode s.toList).flatMap ofUnit

/-- Whether a byte may follow the first one of a unit. -/
def isContinuation (b : UInt8) : Bool := 0x80 ≤ b && b ≤ 0xBF

/-- The unit of two bytes. -/
def unit2 (a b : UInt8) : UInt16 := UInt16.ofNat ((a.toNat - 0xC0) * 0x40 + (b.toNat - 0x80))

/-- The unit of three bytes. -/
def unit3 (a b c : UInt8) : UInt16 :=
  UInt16.ofNat ((a.toNat - 0xE0) * 0x1000 + (b.toNat - 0x80) * 0x40 + (c.toNat - 0x80))

/-- The units of a byte string that begins at `offset`. -/
def units (offset : Nat) : Bytes → Except Malformed (List UInt16)
  | [] => .ok []
  | a :: rest =>
    if 0x01 ≤ a && a ≤ 0x7F then (units (offset + 1) rest).map (a.toUInt16 :: ·)
    else if 0xC0 ≤ a && a ≤ 0xDF then
      match rest with
      | b :: rest =>
        if isContinuation b then (units (offset + 2) rest).map (unit2 a b :: ·)
        else .error ⟨offset + 1⟩
      | [] => .error ⟨offset + 1⟩
    else if 0xE0 ≤ a && a ≤ 0xEF then
      match rest with
      | b :: c :: rest =>
        if !isContinuation b then .error ⟨offset + 1⟩
        else if isContinuation c then (units (offset + 3) rest).map (unit3 a b c :: ·)
        else .error ⟨offset + 2⟩
      | [b] => .error ⟨if isContinuation b then offset + 2 else offset + 1⟩
      | [] => .error ⟨offset + 1⟩
    else .error ⟨offset⟩

/-- The text of a byte string. -/
def decode (bytes : Bytes) : Except Malformed String :=
  match units 0 bytes with
  | .error e => .error e
  | .ok us => match Text.Utf16.decode? us with
    | some cs => .ok (String.ofList cs)
    | none => .error ⟨bytes.length⟩

end ClassStamp.ModifiedUtf8
