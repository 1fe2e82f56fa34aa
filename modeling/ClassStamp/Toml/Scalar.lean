import ClassStamp.Text.Blank
import ClassStamp.Text.Split
import ClassStamp.Toml.Value

/-!
# Numbers, dates and truth values

A value that is neither quoted nor made of parts is a word: the longest run of
letters, digits and the signs `+`, `-`, `.`, `_` and `:`. Only the blank
between a date and a time joins two words to one value.

* `Value.ofWord?` is the value of a word;
* `scalar` reads one from the start of a text.
-/

namespace ClassStamp.Toml

/-! ## Digits -/

/-- The value of a hexadecimal digit. -/
def digitValue? (c : Char) : Option Nat :=
  if c.isDigit then some (c.toNat - '0'.toNat)
  else if 'a' ≤ c && c ≤ 'f' then some (c.toNat - 'a'.toNat + 10)
  else if 'A' ≤ c && c ≤ 'F' then some (c.toNat - 'A'.toNat + 10)
  else none

/-- Whether a character is a digit to the given base. -/
def isDigitOf (base : Nat) (c : Char) : Bool :=
  match digitValue? c with
  | some n => decide (n < base)
  | none => false

/-- The number that some digits write to the given base. -/
def ofDigits (base : Nat) (digits : List Char) : Nat :=
  digits.foldl (fun n c => base * n + (digitValue? c).getD 0) 0

/-- The number that some digits write to the given base, or `most` if it is
greater than that. No number gets much longer than `most` on the way. -/
def ofDigitsUpTo (most base : Nat) (digits : List Char) : Nat :=
  digits.foldl (fun n c => min most (base * n + (digitValue? c).getD 0)) 0

/-- Whether a text is made of decimal digits, at least one. -/
def isDigits (cs : List Char) : Bool := !cs.isEmpty && cs.all Char.isDigit

/-- Digits without the underscores between them. An underscore has to stand
between two digits. -/
def ungroup? (base : Nat) (cs : List Char) : Option (List Char) :=
  let groups := Text.split '_' cs
  if groups.all fun g => !g.isEmpty && g.all (isDigitOf base) then some groups.flatten else none

/-- A sign, if there is one, with whether it is a minus, and what is behind
it. -/
def takeSign : List Char → Bool × List Char
  | '-' :: cs => (true, cs)
  | '+' :: cs => (false, cs)
  | cs => (false, cs)

/-! ## Whole numbers -/

/-- The digits of a decimal number, which begins with `0` only if that is
all. -/
def decimal? (cs : List Char) : Option (List Char) :=
  match ungroup? 10 cs with
  | some ('0' :: _ :: _) => none
  | digits => digits

/-- The greatest distance from zero of a number of 64 bits with a sign. -/
def int64Bound : Nat := 0x8000000000000000

/-- A number of 64 bits with a sign. -/
def int64? (n : Int) : Option Value :=
  if -int64Bound ≤ n && n < int64Bound then some (.integer n) else none

/-- The number that some digits write to the given base, as far as it matters
whether it has 64 bits. -/
def distance (base : Nat) (digits : List Char) : Int := ofDigitsUpTo (int64Bound + 1) base digits

/-- A whole number to the given base. -/
def unsigned? (base : Nat) (cs : List Char) : Option Value :=
  (ungroup? base cs).bind fun digits => int64? (distance base digits)

/-- A whole number: decimal with or without a sign, or to another base behind
a mark. -/
def integer? : List Char → Option Value
  | '0' :: 'x' :: cs => unsigned? 16 cs
  | '0' :: 'o' :: cs => unsigned? 8 cs
  | '0' :: 'b' :: cs => unsigned? 2 cs
  | cs =>
    let (isNegative, cs) := takeSign cs
    (decimal? cs).bind fun digits =>
      let n := distance 10 digits
      int64? (if isNegative then -n else n)

/-! ## Other numbers -/

/-- The greatest exponent that counts. No text has so many digits that they
make up for it. -/
def maxExponent : Nat := 1000000000000000000

/-- The digits before the point, those behind it, and the exponent of a number
that has a point or an exponent. -/
def floatParts? (cs : List Char) : Option (List Char × List Char × Int) := do
  let isMark (c : Char) : Bool := c == 'e' || c == 'E'
  let exponent : Option Int ← match cs.dropWhile (!isMark ·) with
    | [] => pure none
    | _ :: behind => do
      let (isNegative, behind) := takeSign behind
      let digits ← ungroup? 10 behind
      let n : Int := ofDigitsUpTo maxExponent 10 digits
      pure (some (if isNegative then -n else n))
  match Text.split '.' (cs.takeWhile (!isMark ·)), exponent with
  | [whole], some e => return (← decimal? whole, [], e)
  | [whole, fraction], e => return (← decimal? whole, ← ungroup? 10 fraction, e.getD 0)
  | _, _ => none

/-- Whether the number `digits · 10 ^ e` is so large that the nearest number
of 64 bits is infinity. The least such number is whole and has 309 digits, so
no more digits than that are compared. -/
def overflows (digits : List Char) (e : Int) : Bool :=
  let digits := digits.dropWhile (· == '0')
  let limit : Nat := 0x3FFFFFFFFFFFFF <<< 970
  if digits.isEmpty then false
  else if digits.length + e < 309 then false
  else if 309 < digits.length + e then true
  else decide (limit ≤ ofDigits 10 (digits.take 309) * Nat.pow 10 (309 - digits.length))

/-- A number with a point or an exponent, an infinity, or no number. What is
too large is refused, except below zero. -/
def float? (cs : List Char) : Option Value :=
  let (isNegative, unsigned) := takeSign cs
  let literal := Value.float (String.ofList cs)
  if unsigned = ['i', 'n', 'f'] || unsigned = ['n', 'a', 'n'] then some literal
  else (floatParts? unsigned).bind fun (whole, fraction, e) =>
    if !isNegative && overflows (whole ++ fraction) (e - fraction.length) then none
    else some literal

/-! ## Dates and times -/

/-- The number that exactly two digits write, if it is within bounds. -/
def twoDigits? (least greatest : Nat) : List Char → Option Nat
  | [a, b] =>
    let n := ofDigits 10 [a, b]
    if isDigits [a, b] && least ≤ n && n ≤ greatest then some n else none
  | _ => none

/-- The number of days of a month. -/
def daysIn (year month : Nat) : Nat :=
  let isLeap := year % 4 = 0 ∧ (year % 100 ≠ 0 ∨ year % 400 = 0)
  if month = 2 then (if isLeap then 29 else 28)
  else if month = 4 ∨ month = 6 ∨ month = 9 ∨ month = 11 then 30
  else 31

/-- Whether a text is a date. -/
def isDate (cs : List Char) : Bool :=
  match Text.split '-' cs with
  | [year, month, day] =>
    isDigits year && year.length == 4 &&
      match twoDigits? 1 12 month with
      | some m => (twoDigits? 1 (daysIn (ofDigits 10 year) m) day).isSome
      | none => false
  | _ => false

/-- Whether a text is an hour and a minute. -/
def isHourMinute : List (List Char) → Bool
  | [hour, minute] => (twoDigits? 0 23 hour).isSome && (twoDigits? 0 59 minute).isSome
  | _ => false

/-- Whether a text is a time of day. -/
def isTime (cs : List Char) : Bool :=
  match Text.split ':' cs with
  | [hour, minute, second] =>
    isHourMinute [hour, minute] &&
      match Text.split '.' second with
      | [whole] => (twoDigits? 0 60 whole).isSome
      | [whole, fraction] => (twoDigits? 0 60 whole).isSome && isDigits fraction
      | _ => false
  | _ => false

/-- Whether a text is a time of day, with or without the distance of its zone
from the zero meridian. -/
def isZonedTime (cs : List Char) : Bool :=
  let isSign (c : Char) : Bool := c == '+' || c == '-'
  match cs.getLast? with
  | some 'Z' | some 'z' => isTime cs.dropLast
  | _ => match cs.dropWhile (!isSign ·) with
    | [] => isTime cs
    | _ :: offset => isTime (cs.takeWhile (!isSign ·)) && isHourMinute (Text.split ':' offset)

/-- Whether a text is a date, a time of day, or a date and a time. -/
def isMoment (cs : List Char) : Bool :=
  let isMark (c : Char) : Bool := c == 'T' || c == 't'
  match cs.dropWhile (!isMark ·) with
  | [] => isDate cs || isTime cs
  | _ :: time => isDate (cs.takeWhile (!isMark ·)) && isZonedTime time

/-- The fraction of a second in the usual form: at most nine digits, and no
zeros at the end. -/
def usualFraction (digits : List Char) : List Char :=
  match Text.trimEnd (· == '0') (digits.take 9) with
  | [] => []
  | digits => '.' :: digits

/-- A time of day in the usual form. -/
def usualTime (cs : List Char) : List Char :=
  match Text.split '.' cs with
  | [whole, fraction] => whole ++ usualFraction fraction
  | _ => cs

/-- The zone of a time in the usual form. -/
def usualZone : List Char → List Char
  | ['z'] => ['Z']
  | ['-', '0', '0', ':', '0', '0'] => ['+', '0', '0', ':', '0', '0']
  | cs => cs

/-- A date, a time of day, or both in the usual form, with a `T` between the
date and the time. -/
def usualMoment (cs : List Char) : List Char :=
  let isMark (c : Char) : Bool := c == 'T' || c == 't' || c == ' '
  let inTime (c : Char) : Bool := c.isDigit || c == ':' || c == '.'
  match cs.dropWhile (!isMark ·) with
  | [] => if isDate cs then cs else usualTime cs
  | _ :: time =>
    cs.takeWhile (!isMark ·) ++ 'T' :: usualTime (time.takeWhile inTime) ++
      usualZone (time.dropWhile inTime)

/-- The value of a date, a time of day, or both. -/
def Value.ofMoment (cs : List Char) : Value := .moment (String.ofList (usualMoment cs))

/-! ## Words -/

/-- Whether a character belongs to a word. -/
def isWordChar (c : Char) : Bool :=
  c.isAlphanum || c == '+' || c == '-' || c == '.' || c == '_' || c == ':'

/-- The value of a word. -/
def Value.ofWord? (cs : List Char) : Option Value :=
  if cs = ['t', 'r', 'u', 'e'] then some (.boolean true)
  else if cs = ['f', 'a', 'l', 's', 'e'] then some (.boolean false)
  else if isMoment cs then some (.ofMoment cs)
  else (integer? cs).or (float? cs)

/-- Reads a word, or a date and a time with a blank between them. -/
def scalar (s : List Char) : Option (Value × List Char) :=
  let word := s.takeWhile isWordChar
  let rest := s.dropWhile isWordChar
  let single := (Value.ofWord? word).map (·, rest)
  match rest with
  | ' ' :: behind =>
    let time := behind.takeWhile isWordChar
    if isDate word && time.any Char.isDigit then
      if isZonedTime time then
        some (.ofMoment (word ++ ' ' :: time), behind.dropWhile isWordChar)
      else none
    else single
  | _ => single

theorem length_dropWhile_le (p : Char → Bool) (s : List Char) :
    (s.dropWhile p).length ≤ s.length :=
  (List.dropWhile_suffix p).sublist.length_le

theorem length_of_scalar {s rest : List Char} {v : Value} (h : scalar s = some (v, rest)) :
    rest.length ≤ s.length := by
  have hrest := length_dropWhile_le isWordChar s
  have single {w : Value} {r : List Char}
      (h : (Value.ofWord? (s.takeWhile isWordChar)).map (·, s.dropWhile isWordChar) =
        some (w, r)) : r.length ≤ s.length := by
    obtain ⟨_, _, h⟩ := Option.map_eq_some_iff.1 h
    simp only [Prod.mk.injEq] at h
    rwa [← h.2]
  simp only [scalar] at h
  split at h
  · rename_i behind hbehind
    have hbehind' := length_dropWhile_le isWordChar behind
    rw [hbehind, List.length_cons] at hrest
    split at h
    · split at h
      · simp only [Option.some.injEq, Prod.mk.injEq] at h
        rw [← h.2]
        omega
      · simp at h
    · exact single h
  · exact single h

end ClassStamp.Toml
