/-!
# UTF-16 code units

A character below U+10000 is one unit of its own number, any other is a pair
of surrogates: a high one from D800 and a low one from DC00, each with ten
bits of the number less U+10000.

* `decode?_encode`: reading the units of a text gives the text back.
-/

namespace ClassStamp.Text.Utf16

/-- Whether a unit is the first of a surrogate pair. -/
def isHigh (u : UInt16) : Bool := 0xD800 ≤ u && u ≤ 0xDBFF

/-- Whether a unit is the second of a surrogate pair. -/
def isLow (u : UInt16) : Bool := 0xDC00 ≤ u && u ≤ 0xDFFF

/-- The units of one character. -/
def ofChar (c : Char) : List UInt16 :=
  let n := c.toNat
  if n < 0x10000 then [UInt16.ofNat n]
  else [UInt16.ofNat (0xD800 + (n - 0x10000) / 0x400),
    UInt16.ofNat (0xDC00 + (n - 0x10000) % 0x400)]

/-- The units of a text. -/
def encode (cs : List Char) : List UInt16 := cs.flatMap ofChar

/-- The character of a surrogate pair. -/
def ofPair (high low : UInt16) : Char :=
  Char.ofNat (0x10000 + (high.toNat - 0xD800) * 0x400 + (low.toNat - 0xDC00))

/-- The text with the given units, if each surrogate stands in a pair. -/
def decode? : List UInt16 → Option (List Char)
  | [] => some []
  | u :: rest =>
    if isHigh u then
      match rest with
      | v :: rest => if isLow v then (decode? rest).map (ofPair u v :: ·) else none
      | [] => none
    else if isLow u then none
    else (decode? rest).map (Char.ofNat u.toNat :: ·)

theorem decode?_single {u : UInt16} (us : List UInt16) (hh : isHigh u = false)
    (hl : isLow u = false) : decode? (u :: us) = (decode? us).map (Char.ofNat u.toNat :: ·) := by
  rw [decode?.eq_def]
  simp [hh, hl]

theorem decode?_pair {u v : UInt16} (us : List UInt16) (hh : isHigh u = true)
    (hl : isLow v = true) : decode? (u :: v :: us) = (decode? us).map (ofPair u v :: ·) := by
  rw [decode?]
  simp [hh, hl]

theorem decode?_ofChar_append (c : Char) (us : List UInt16) :
    decode? (ofChar c ++ us) = (decode? us).map (c :: ·) := by
  have hv : c.toNat < 0xD800 ∨ 0xDFFF < c.toNat ∧ c.toNat < 0x110000 := c.valid
  unfold ofChar
  by_cases h : c.toNat < 0x10000
  · have hn : (UInt16.ofNat c.toNat).toNat = c.toNat := by simp; omega
    rw [if_pos h, List.singleton_append, decode?_single, hn, Char.ofNat_toNat]
    · simp [isHigh, UInt16.le_iff_toNat_le, hn]; omega
    · simp [isLow, UInt16.le_iff_toNat_le, hn]; omega
  · have hh : (UInt16.ofNat (0xD800 + (c.toNat - 0x10000) / 0x400)).toNat =
        0xD800 + (c.toNat - 0x10000) / 0x400 := by simp; omega
    have hl : (UInt16.ofNat (0xDC00 + (c.toNat - 0x10000) % 0x400)).toNat =
        0xDC00 + (c.toNat - 0x10000) % 0x400 := by simp; omega
    rw [if_neg h, List.cons_append, List.singleton_append, decode?_pair, ofPair, hh, hl,
      show 0x10000 + (0xD800 + (c.toNat - 0x10000) / 0x400 - 0xD800) * 0x400 +
        (0xDC00 + (c.toNat - 0x10000) % 0x400 - 0xDC00) = c.toNat by omega, Char.ofNat_toNat]
    · simp only [isHigh, UInt16.le_iff_toNat_le, hh, Bool.and_eq_true, decide_eq_true_eq]
      simp; omega
    · simp only [isLow, UInt16.le_iff_toNat_le, hl, Bool.and_eq_true, decide_eq_true_eq]
      simp; omega

theorem decode?_encode (cs : List Char) : decode? (encode cs) = some cs := by
  induction cs with
  | nil => rfl
  | cons c cs ih =>
    simp only [encode, List.flatMap_cons] at ih ⊢
    rw [decode?_ofChar_append, ih]
    rfl

end ClassStamp.Text.Utf16
