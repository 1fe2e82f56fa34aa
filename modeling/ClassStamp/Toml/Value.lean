/-!
# TOML values

What a TOML document says: values under keys, in the order in which the keys
were first written. Numbers that are not whole, dates and times are kept as text,
because nothing here computes with them.
-/

namespace ClassStamp.Toml

/-- A value. -/
inductive Value
  /-- A text between quotes. -/
  | text (s : String)
  /-- `true` or `false`. -/
  | boolean (b : Bool)
  /-- A whole number. -/
  | integer (n : Int)
  /-- A number with a fraction or an exponent, an infinity, or no number. -/
  | float (literal : String)
  /-- A date, a time of day, or both, in the usual form. -/
  | moment (text : String)
  /-- Values in order. -/
  | array (members : List Value)
  /-- Values under keys. -/
  | table (entries : List (String × Value))

namespace Value

/-- The text, if the value is one. -/
def text? : Value → Option String
  | text s => some s
  | _ => none

/-- The truth value, if the value is one. -/
def boolean? : Value → Option Bool
  | boolean b => some b
  | _ => none

/-- The members, if the value is an array. -/
def array? : Value → Option (List Value)
  | array members => some members
  | _ => none

/-- The key of a date or time that is read as a table. -/
def momentKey : String := "$__toml_private_datetime"

/-- The entries, if the value is a table. A date or time counts as a table
with its text under a key of its own. -/
def table? : Value → Option (List (String × Value))
  | table entries => some entries
  | moment s => some [(momentKey, text s)]
  | _ => none

end Value

end ClassStamp.Toml
