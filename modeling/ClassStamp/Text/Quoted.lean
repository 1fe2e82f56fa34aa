/-!
# Characters between quotes

How an error shows one offending character: between single quotes, with a
backslash form for the characters that have no shape of their own.

Only the characters below U+0100 occur there, because the offending character
is always one byte.
-/

namespace ClassStamp.Text

/-- Whether a character below U+0100 has a shape of its own: it is neither a
control character nor a blank other than the space, nor the soft hyphen. -/
def hasShape (c : Char) : Bool :=
  let n := c.toNat
  (0x20 ≤ n && n < 0x7F) || (0xA0 < n && n != 0xAD)

/-- The character between single quotes. -/
def quoted (c : Char) : String :=
  let body :=
    if c = '\x00' then "\\0"
    else if c = '\t' then "\\t"
    else if c = '\n' then "\\n"
    else if c = '\x0d' then "\\r"
    else if c = '\'' then "\\'"
    else if c = '\\' then "\\\\"
    else if hasShape c then c.toString
    else "\\u\x7b" ++ String.ofList (Nat.toDigits 16 c.toNat) ++ "\x7d"
  "'" ++ body ++ "'"

end ClassStamp.Text
