/-!
# JSON text

Values with ordered fields, and the indented text of a value: two spaces a
level, one line a field or member, an empty list or object without a break.

* `Json.pretty` is the indented text.
-/

namespace ClassStamp

/-- A value. Numbers are natural, because nothing else is counted. -/
inductive Json
  | number (n : Nat)
  | string (s : String)
  | array (members : List Json)
  | object (fields : List (String × Json))

namespace Json

/-- A character inside a string: the quote, the backslash and the control
characters are escaped. -/
def escape (c : Char) : String :=
  if c = '"' then "\\\""
  else if c = '\\' then "\\\\"
  else if c = '\n' then "\\n"
  else if c = '\x0d' then "\\r"
  else if c = '\t' then "\\t"
  else if c = '\x08' then "\\b"
  else if c = '\x0c' then "\\f"
  else if c.toNat < 0x20 then
    let digits := String.ofList (Nat.toDigits 16 c.toNat)
    "\\u" ++ "".pushn '0' (4 - digits.length) ++ digits
  else c.toString

/-- A text as a string. -/
def quote (s : String) : String := "\"" ++ String.join (s.toList.map escape) ++ "\""

/-- A new line, indented by the given number of levels. -/
def newLine (level : Nat) : String := "\n" ++ "".pushn ' ' (2 * level)

/-- The parts between two brackets, one line each; just the brackets if there
are none. -/
def block (level : Nat) (opening closing : String) (parts : List String) : String :=
  match parts with
  | [] => opening ++ closing
  | _ => opening ++ newLine (level + 1) ++ (("," ++ newLine (level + 1)).intercalate parts) ++
    newLine level ++ closing

mutual

/-- The indented text of a value that stands at the given level. -/
def prettyAt (level : Nat) : Json → String
  | number n => toString n
  | string s => quote s
  | array members => block level "[" "]" (prettyMembers (level + 1) members)
  | object fields => block level "\x7b" "\x7d" (prettyFields (level + 1) fields)

/-- The indented texts of some values. -/
def prettyMembers (level : Nat) : List Json → List String
  | [] => []
  | v :: rest => prettyAt level v :: prettyMembers level rest

/-- The indented texts of some fields. -/
def prettyFields (level : Nat) : List (String × Json) → List String
  | [] => []
  | (key, v) :: rest => (quote key ++ ": " ++ prettyAt level v) :: prettyFields level rest

end

/-- The indented text of a value. -/
def pretty (v : Json) : String := prettyAt 0 v

end Json

end ClassStamp
