/-!
# Blank characters

The characters with the Unicode property White_Space, and trimming by them.
Names and paths that are blank count as not given.
-/

namespace ClassStamp.Text

/-- Whether a character has the Unicode property White_Space. -/
def isBlank (c : Char) : Bool :=
  let n := c.toNat
  (0x09 ≤ n && n ≤ 0x0D) || n == 0x20 || n == 0x85 || n == 0xA0 || n == 0x1680 ||
    (0x2000 ≤ n && n ≤ 0x200A) || n == 0x2028 || n == 0x2029 || n == 0x202F || n == 0x205F ||
    n == 0x3000

/-- The text without the blanks at its end. -/
def trimEnd (isDropped : Char → Bool) (cs : List Char) : List Char :=
  (cs.reverse.dropWhile isDropped).reverse

/-- The text without the blanks at both ends. -/
def trim (s : String) : String :=
  String.ofList (trimEnd isBlank (s.toList.dropWhile isBlank))

end ClassStamp.Text
