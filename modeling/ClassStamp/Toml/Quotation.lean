import ClassStamp.Toml.Scalar

/-!
# Texts between quotes

Four ways to write a text: between double quotes with escapes, between single
quotes without, and each of both between three quotes, where it may run over
several lines.

* `quoted` reads a text on one line, `quotation` a text of any of the four
  kinds.
-/

namespace ClassStamp.Toml

/-- Whether a character may stand for itself in a text or a comment: no
control character but the tab. -/
def isPlain (c : Char) : Bool := c == '\t' || (0x20 ≤ c.toNat && c.toNat != 0x7F)

/-- Whether a character is a blank on a line. -/
def isSpace (c : Char) : Bool := c == ' ' || c == '\t'

/-! ## Escapes -/

/-- The character with the number that some hexadecimal digits write. -/
def charOfHex? (digits : List Char) : Option Char :=
  let n := ofDigits 16 digits
  if digits.all (isDigitOf 16) && n.isValidChar then some (Char.ofNat n) else none

/-- The character that a letter behind a backslash stands for. -/
def simpleEscape? : Char → Option Char
  | 'b' => some '\x08'
  | 't' => some '\t'
  | 'n' => some '\n'
  | 'f' => some '\x0c'
  | 'r' => some '\x0d'
  | '"' => some '"'
  | '\\' => some '\\'
  | _ => none

/-- The number of hexadecimal digits behind a letter behind a backslash. -/
def escapeDigits : Char → Nat
  | 'u' => 4
  | 'U' => 8
  | _ => 0

/-- Reads what is behind a backslash. -/
def escape? : List Char → Option (Char × List Char)
  | [] => none
  | c :: s =>
    let n := escapeDigits c
    let digits := s.take n
    if n = 0 then (simpleEscape? c).map (·, s)
    else if digits.length < n then none
    else (charOfHex? digits).map (·, s.drop n)

theorem length_of_escape? {s rest : List Char} {c : Char} (h : escape? s = some (c, rest)) :
    rest.length < s.length := by
  cases s with
  | nil => simp [escape?] at h
  | cons d s =>
    simp only [escape?] at h
    split at h
    · obtain ⟨_, _, h⟩ := Option.map_eq_some_iff.1 h
      simp only [Prod.mk.injEq] at h
      simp [← h.2]
    · split at h
      · simp at h
      · obtain ⟨_, _, h⟩ := Option.map_eq_some_iff.1 h
        simp only [Prod.mk.injEq] at h
        simp only [← h.2, List.length_drop, List.length_cons]
        omega

/-! ## Texts on one line -/

/-- Reads a text up to the closing double quote. -/
def basic (s : List Char) : Option (List Char × List Char) :=
  match s with
  | [] => none
  | '"' :: rest => some ([], rest)
  | '\\' :: rest =>
    match h : escape? rest with
    | none => none
    | some (c, rest') =>
      have := length_of_escape? h
      (basic rest').map fun (cs, r) => (c :: cs, r)
  | c :: rest => if isPlain c then (basic rest).map fun (cs, r) => (c :: cs, r) else none
termination_by s.length
decreasing_by all_goals simp only [List.length_cons]; omega

/-- Reads a text up to the closing single quote. -/
def literal : List Char → Option (List Char × List Char)
  | [] => none
  | '\'' :: rest => some ([], rest)
  | c :: rest => if isPlain c then (literal rest).map fun (cs, r) => (c :: cs, r) else none

/-- Reads a text on one line. -/
def quoted : List Char → Option (List Char × List Char)
  | '"' :: rest => basic rest
  | '\'' :: rest => literal rest
  | _ => none

/-- What is left of the text does not hang on what is made of the part that was
read. -/
theorem exists_of_map {α β : Type} {f : α × List Char → β × List Char}
    {read : Option (α × List Char)} {b : β} {rest : List Char}
    (h : read.map f = some (b, rest)) (hf : ∀ e, (f e).2 = e.2) :
    ∃ a, read = some (a, rest) := by
  obtain ⟨⟨a, r⟩, h', h⟩ := Option.map_eq_some_iff.1 h
  have hr : rest = r := by simpa [h] using hf (a, r)
  exact ⟨a, by rw [h', hr]⟩

theorem length_of_basic {s cs rest : List Char} (h : basic s = some (cs, rest)) :
    rest.length ≤ s.length := by
  fun_induction basic s generalizing cs with
  | case1 => simp at h
  | case2 => simp_all
  | case3 => simp at h
  | case4 behind c behind' hesc hlen ih =>
    obtain ⟨cs, h⟩ := exists_of_map h fun _ => rfl
    have := ih h
    simp only [List.length_cons]; omega
  | case5 c behind _ _ _ ih =>
    obtain ⟨cs, h⟩ := exists_of_map h fun _ => rfl
    have := ih h
    simp only [List.length_cons]; omega
  | case6 => simp at h

theorem length_of_literal {s cs rest : List Char} (h : literal s = some (cs, rest)) :
    rest.length ≤ s.length := by
  fun_induction literal s generalizing cs with
  | case1 => simp at h
  | case2 => simp_all
  | case3 c behind _ _ ih =>
    obtain ⟨cs, h⟩ := exists_of_map h fun _ => rfl
    have := ih h
    simp only [List.length_cons]; omega
  | case4 => simp at h

theorem length_of_quoted {s cs rest : List Char} (h : quoted s = some (cs, rest)) :
    rest.length ≤ s.length := by
  unfold quoted at h
  split at h
  · have := length_of_basic h
    simp only [List.length_cons]; omega
  · have := length_of_literal h
    simp only [List.length_cons]; omega
  · simp at h

/-! ## Texts on several lines -/

/-- What is behind the first line break, if the text begins with one. -/
def newline? : List Char → Option (List Char)
  | '\n' :: rest => some rest
  | '\x0d' :: '\n' :: rest => some rest
  | _ => none

/-- The text without the line break that it may begin with. -/
def dropNewline (s : List Char) : List Char := (newline? s).getD s

/-- The text without the blanks and line breaks that it begins with. -/
def dropLines : List Char → List Char
  | '\n' :: rest | ' ' :: rest | '\t' :: rest => dropLines rest
  | '\x0d' :: '\n' :: rest => dropLines rest
  | s => s

theorem length_dropLines_le (s : List Char) : (dropLines s).length ≤ s.length := by
  fun_induction dropLines s <;> simp_all <;> omega

/-- What goes on behind a backslash at the end of a line: blanks and line
breaks are left out. -/
def continuation? (s : List Char) : Option (List Char) :=
  (newline? (s.dropWhile isSpace)).map dropLines

theorem length_of_newline? {s rest : List Char} (h : newline? s = some rest) :
    rest.length ≤ s.length := by
  unfold newline? at h
  split at h <;> simp_all
  omega

theorem length_of_continuation? {s rest : List Char} (h : continuation? s = some rest) :
    rest.length ≤ s.length := by
  obtain ⟨behind, hb, rfl⟩ := Option.map_eq_some_iff.1 h
  have h₁ := length_dropLines_le behind
  have h₂ := length_of_newline? hb
  have h₃ := length_dropWhile_le isSpace s
  omega

/-- Reads a text up to three closing quotes; up to two more in front of them
belong to it. A backslash at the end of a line, where escapes are read, takes
the break and all blanks behind it away. -/
def lines (quote : Char) (escapes : Bool) (s : List Char) : Option (List Char × List Char) :=
  match s with
  | [] => none
  | '\x0d' :: '\n' :: rest => (lines quote escapes rest).map fun (cs, r) => ('\n' :: cs, r)
  | c :: rest =>
    if c = quote then
      have := length_dropWhile_le (· == quote) rest
      let n := (rest.takeWhile (· == quote)).length + 1
      if n < 3 then
        (lines quote escapes (rest.dropWhile (· == quote))).map fun (cs, r) =>
          (List.replicate n quote ++ cs, r)
      else if n ≤ 5 then some (List.replicate (n - 3) quote, rest.dropWhile (· == quote))
      else none
    else if escapes && c = '\\' then
      match h : continuation? rest with
      | some rest' =>
        have := length_of_continuation? h
        lines quote escapes rest'
      | none => match h : escape? rest with
        | none => none
        | some (c, rest') =>
          have := length_of_escape? h
          (lines quote escapes rest').map fun (cs, r) => (c :: cs, r)
    else if c = '\n' || isPlain c then (lines quote escapes rest).map fun (cs, r) => (c :: cs, r)
    else none
termination_by s.length
decreasing_by all_goals simp only [List.length_cons]; omega

theorem length_of_lines {quote : Char} {escapes : Bool} {s cs rest : List Char}
    (h : lines quote escapes s = some (cs, rest)) : rest.length ≤ s.length := by
  fun_induction lines quote escapes s generalizing cs with
  | case1 => simp at h
  | case2 _ ih =>
    obtain ⟨cs, h⟩ := exists_of_map h fun _ => rfl
    have := ih h
    simp only [List.length_cons]; omega
  | case3 =>
    rename_i ih
    obtain ⟨cs, h⟩ := exists_of_map h fun _ => rfl
    have := ih h
    simp only [List.length_cons]; omega
  | case4 =>
    simp only [Option.some.injEq, Prod.mk.injEq] at h
    simp only [← h.2, List.length_cons]; omega
  | case5 => simp at h
  | case6 _ _ _ _ _ _ _ _ ih =>
    have := ih h
    simp only [List.length_cons]; omega
  | case7 => simp at h
  | case8 _ _ _ _ _ _ _ _ _ _ ih =>
    obtain ⟨cs, h⟩ := exists_of_map h fun _ => rfl
    have := ih h
    simp only [List.length_cons]; omega
  | case9 _ _ _ _ _ _ ih =>
    obtain ⟨cs, h⟩ := exists_of_map h fun _ => rfl
    have := ih h
    simp only [List.length_cons]; omega
  | case10 => simp at h

/-- Reads a text of any kind. -/
def quotation : List Char → Option (List Char × List Char)
  | '"' :: '"' :: '"' :: rest => lines '"' true (dropNewline rest)
  | '\'' :: '\'' :: '\'' :: rest => lines '\'' false (dropNewline rest)
  | s => quoted s

theorem length_dropNewline_le (s : List Char) : (dropNewline s).length ≤ s.length := by
  unfold dropNewline
  cases h : newline? s with
  | none => simp
  | some rest => exact length_of_newline? h

theorem length_of_quotation {s cs rest : List Char} (h : quotation s = some (cs, rest)) :
    rest.length ≤ s.length := by
  unfold quotation at h
  split at h
  · rename_i behind
    have := length_of_lines h
    have := length_dropNewline_le behind
    simp only [List.length_cons]; omega
  · rename_i behind
    have := length_of_lines h
    have := length_dropNewline_le behind
    simp only [List.length_cons]; omega
  · exact length_of_quoted h

end ClassStamp.Toml
