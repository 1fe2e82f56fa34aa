import ClassStamp.Toml.Definition
import ClassStamp.Toml.Quotation

/-!
# TOML documents

Reading a document: lines that give a key its value, and headers that open the
table which the keys below them belong to.

* a `Reader` never leaves more of a text than there was;
* `value` reads a value, whose parts may have parts themselves to a certain
  depth;
* `parse?` reads a whole document.
-/

namespace ClassStamp.Toml

/-- A way to read something from the start of a text. What is left of the text
is never longer than the text was, so reading one thing after the other comes
to an end. -/
structure Reader (α : Type) where
  /-- What is read, and the rest of the text. -/
  read : List Char → Option (α × List Char)
  length_le {s rest : List Char} {a : α} :
    read s = some (a, rest) → rest.length ≤ s.length

/-- How deep arrays and tables may be inside one another, and how many parts a
key may have. -/
def maxDepth : Nat := 79

/-! ## Blanks and comments -/

/-- The text without the blanks that it begins with. -/
def skipSpaces (s : List Char) : List Char := s.dropWhile isSpace

/-- The text without the blanks, line breaks and comments that it begins
with. -/
def skipTrivia (inComment : Bool) : List Char → List Char
  | [] => []
  | '\n' :: rest => skipTrivia false rest
  | '\x0d' :: '\n' :: rest => skipTrivia false rest
  | c :: rest =>
    if inComment then (if isPlain c then skipTrivia true rest else c :: rest)
    else if isSpace c then skipTrivia false rest
    else if c = '#' then skipTrivia true rest
    else c :: rest

theorem length_skipTrivia_le (inComment : Bool) (s : List Char) :
    (skipTrivia inComment s).length ≤ s.length := by
  fun_induction skipTrivia inComment s <;> simp_all <;> omega

/-- The text without the comment that it begins with. -/
def skipComment : List Char → List Char
  | '#' :: rest => rest.dropWhile isPlain
  | s => s

theorem length_skipComment_le (s : List Char) : (skipComment s).length ≤ s.length := by
  unfold skipComment
  split
  · rename_i rest
    have := length_dropWhile_le isPlain rest
    simp only [List.length_cons]; omega
  · exact Nat.le_refl _

/-- What is behind the end of a line, in front of which there may be blanks
and a comment. -/
def endLine (s : List Char) : Option (List Char) :=
  match skipComment (skipSpaces s) with
  | [] => some []
  | rest => newline? rest

theorem length_of_endLine {s rest : List Char} (h : endLine s = some rest) :
    rest.length ≤ s.length := by
  have h₁ := length_dropWhile_le isSpace s
  have h₂ := length_skipComment_le (skipSpaces s)
  unfold endLine at h
  split at h
  · simp_all
  · have := length_of_newline? h
    rw [skipSpaces] at h₂
    simp only [skipSpaces] at this
    omega

/-! ## Keys -/

/-- Whether a character may be in a key without quotes. -/
def isBare (c : Char) : Bool := c.isAlphanum || c == '_' || c == '-'

/-- Reads one part of a key. -/
def simpleKey (s : List Char) : Option (String × List Char) :=
  match s.takeWhile isBare with
  | [] => (quoted s).map fun (cs, rest) => (String.ofList cs, rest)
  | bare => some (String.ofList bare, s.dropWhile isBare)

theorem length_of_simpleKey {s rest : List Char} {part : String}
    (h : simpleKey s = some (part, rest)) : rest.length ≤ s.length := by
  unfold simpleKey at h
  split at h
  · obtain ⟨_, h⟩ := exists_of_map h fun _ => rfl
    exact length_of_quoted h
  · simp only [Option.some.injEq, Prod.mk.injEq] at h
    exact h.2 ▸ length_dropWhile_le isBare s

theorem length_of_keyPart {s behind rest : List Char} {part : String} {c : Char}
    (h : simpleKey (skipSpaces s) = some (part, behind)) (hc : skipSpaces behind = c :: rest) :
    rest.length < s.length := by
  have h₁ := length_dropWhile_le isSpace s
  have h₂ := length_of_simpleKey h
  have h₃ := length_dropWhile_le isSpace behind
  simp only [skipSpaces] at h₂ hc
  rw [hc, List.length_cons] at h₃
  omega

/-- Reads the parts of a key, which have dots between them, and the blanks
around them. -/
def keyParts (s : List Char) : Option (List String × List Char) :=
  match h : simpleKey (skipSpaces s) with
  | none => none
  | some (part, behind) => match hc : skipSpaces behind with
    | '.' :: rest =>
      have := length_of_keyPart h hc
      (keyParts rest).map fun (parts, rest) => (part :: parts, rest)
    | rest => some ([part], rest)
termination_by s.length

theorem length_of_keyParts {s rest : List Char} {parts : List String}
    (h : keyParts s = some (parts, rest)) : rest.length ≤ s.length := by
  fun_induction keyParts s generalizing parts with
  | case1 => simp at h
  | case2 =>
    rename_i ih
    obtain ⟨parts, h⟩ := exists_of_map h fun _ => rfl
    have := ih h
    omega
  | case3 x part behind hpart _ =>
    have h₁ := length_dropWhile_le isSpace x
    have h₂ := length_of_simpleKey hpart
    have h₃ := length_dropWhile_le isSpace behind
    simp only [Option.some.injEq, Prod.mk.injEq] at h
    rw [skipSpaces] at h₂
    rw [← h.2, skipSpaces]
    omega

/-- Reads a key: all parts but the last, and the last. -/
def key (s : List Char) : Option ((List String × String) × List Char) :=
  match keyParts s with
  | none => none
  | some (parts, rest) =>
    if parts.length ≤ maxDepth then
      parts.getLast?.map fun last => ((parts.dropLast, last), rest)
    else none

theorem length_of_key {s rest : List Char} {k : List String × String}
    (h : key s = some (k, rest)) : rest.length ≤ s.length := by
  unfold key at h
  split at h
  · simp at h
  · rename_i hparts
    split at h
    · obtain ⟨_, _, h⟩ := Option.map_eq_some_iff.1 h
      simp only [Prod.mk.injEq] at h
      exact h.2 ▸ length_of_keyParts hparts
    · simp at h

/-! ## Values -/

theorem length_of_skipTrivia {s rest : List Char} {c : Char}
    (h : skipTrivia false s = c :: rest) : rest.length < s.length := by
  have := length_skipTrivia_le false s
  rw [h, List.length_cons] at this
  omega

/-- Reads members of an array up to the closing bracket. -/
def members (member : Reader Value) (s : List Char) : Option (List Value × List Char) :=
  match h : skipTrivia false s with
  | ']' :: rest => some ([], rest)
  | s' => match hv : member.read s' with
    | none => none
    | some (v, behind) => match hc : skipTrivia false behind with
      | ']' :: rest => some ([v], rest)
      | ',' :: rest =>
        have : rest.length < s.length := by
          have h₁ := length_skipTrivia_le false s
          have h₂ := member.length_le hv
          have h₃ := length_of_skipTrivia hc
          rw [h] at h₁
          omega
        (members member rest).map fun (vs, rest) => (v :: vs, rest)
      | _ => none
termination_by s.length

theorem length_of_members {member : Reader Value} {s rest : List Char} {vs : List Value}
    (h : members member s = some (vs, rest)) : rest.length ≤ s.length := by
  fun_induction members member s generalizing vs with
  | case1 _ _ hc =>
    have := length_of_skipTrivia hc
    simp only [Option.some.injEq, Prod.mk.injEq] at h
    rw [← h.2]
    omega
  | case2 => simp at h
  | case3 x _ behind _ hc _ hv =>
    have h₁ := length_skipTrivia_le false x
    have h₂ := member.length_le hv
    have h₃ := length_of_skipTrivia hc
    simp only [Option.some.injEq, Prod.mk.injEq] at h
    rw [← h.2]
    omega
  | case4 =>
    rename_i ih
    obtain ⟨vs, h⟩ := exists_of_map h fun _ => rfl
    have := ih h
    omega
  | case5 => simp at h

/-- Reads a key and its value, which have an equals sign between them. -/
def assignment (value : Reader Value) (s : List Char) :
    Option ((List String × String × Value) × List Char) :=
  match key s with
  | none => none
  | some ((path, last), rest) => match rest with
    | '=' :: rest =>
      (value.read (skipSpaces rest)).map fun (v, rest) => ((path, last, v), rest)
    | _ => none

theorem length_of_assignment {value : Reader Value} {s rest : List Char}
    {a : List String × String × Value} (h : assignment value s = some (a, rest)) :
    rest.length < s.length := by
  unfold assignment at h
  split at h
  · simp at h
  · rename_i hkey
    split at h
    · rename_i behind
      obtain ⟨_, h⟩ := exists_of_map h fun _ => rfl
      have h₁ := length_of_key hkey
      have h₂ := length_dropWhile_le isSpace behind
      have h₃ := value.length_le h
      rw [List.length_cons] at h₁
      rw [skipSpaces] at h₃
      omega
    · simp at h

/-- Reads the entries of a table on one line up to the closing brace. -/
def entries (value : Reader Value) (found : Definition.Entries) (s : List Char) :
    Option (Definition.Entries × List Char) :=
  match h : assignment value s with
  | none => none
  | some ((path, last, v), behind) => match Definition.setDotted path last v found with
    | none => none
    | some found => match hc : skipSpaces behind with
      | '\x7d' :: rest => some (found, rest)
      | ',' :: rest =>
        have : rest.length < s.length := by
          have h₁ := length_of_assignment h
          have h₂ := length_dropWhile_le isSpace behind
          rw [skipSpaces] at hc
          rw [hc, List.length_cons] at h₂
          omega
        entries value found rest
      | _ => none
termination_by s.length

theorem length_of_entries {value : Reader Value} {found all : Definition.Entries}
    {s rest : List Char} (h : entries value found s = some (all, rest)) :
    rest.length ≤ s.length := by
  fun_induction entries value found s with
  | case1 => simp at h
  | case2 => simp at h
  | case3 _ _ _ _ _ behind hassign _ _ _ hc =>
    have h₁ := length_of_assignment hassign
    have h₂ := length_dropWhile_le isSpace behind
    simp only [Option.some.injEq, Prod.mk.injEq] at h
    rw [skipSpaces] at hc
    rw [hc, List.length_cons] at h₂
    rw [← h.2]
    omega
  | case4 =>
    rename_i ih
    have := ih h
    omega
  | case5 => simp at h

/-- Reads an array behind the opening bracket. -/
def array (member : Reader Value) (s : List Char) : Option (Value × List Char) :=
  (members member s).map fun (vs, rest) => (.array vs, rest)

/-- Reads a table on one line behind the opening brace. -/
def inlineTable (value : Reader Value) (s : List Char) : Option (Value × List Char) :=
  match skipSpaces s with
  | '\x7d' :: rest => some (.table [], rest)
  | s => (entries value [] s).map fun (found, rest) => (.table (Definition.toValues found), rest)

/-- Reads a value without parts. -/
def simple (s : List Char) : Option (Value × List Char) :=
  match s.head? with
  | some '"' | some '\'' => (quotation s).map fun (cs, rest) => (.text (String.ofList cs), rest)
  | _ => scalar s

theorem length_of_array {member : Reader Value} {s rest : List Char} {v : Value}
    (h : array member s = some (v, rest)) : rest.length ≤ s.length := by
  obtain ⟨_, h⟩ := exists_of_map h fun _ => rfl
  exact length_of_members h

theorem length_of_inlineTable {value : Reader Value} {s rest : List Char} {v : Value}
    (h : inlineTable value s = some (v, rest)) : rest.length ≤ s.length := by
  have hs := length_dropWhile_le isSpace s
  unfold inlineTable at h
  rw [← skipSpaces] at hs
  split at h
  · rename_i hc
    simp only [Option.some.injEq, Prod.mk.injEq] at h
    rw [hc, List.length_cons] at hs
    rw [← h.2]
    omega
  · obtain ⟨_, h⟩ := exists_of_map h fun _ => rfl
    have := length_of_entries h
    omega

theorem length_of_simple {s rest : List Char} {v : Value} (h : simple s = some (v, rest)) :
    rest.length ≤ s.length := by
  unfold simple at h
  split at h
  · obtain ⟨_, h⟩ := exists_of_map h fun _ => rfl
    exact length_of_quotation h
  · obtain ⟨_, h⟩ := exists_of_map h fun _ => rfl
    exact length_of_quotation h
  · exact length_of_scalar h

/-- Reads a value with parts inside one another at most `depth` deep. -/
def value : Nat → Reader Value
  | 0 => { read := simple, length_le := length_of_simple }
  | depth + 1 => {
      read := fun
        | '[' :: rest => array (value depth) rest
        | '\x7b' :: rest => inlineTable (value depth) rest
        | s => simple s
      length_le := by
        intro s rest v h
        split at h
        · have := length_of_array h
          simp only [List.length_cons]; omega
        · have := length_of_inlineTable h
          simp only [List.length_cons]; omega
        · exact length_of_simple h }

/-! ## Documents -/

/-- What was read of a document. -/
structure State where
  /-- What is defined. -/
  defined : Definition.Entries
  /-- The header that the next keys belong to. -/
  header : List String

/-- Opens a table under a header. -/
def State.enter (s : State) (change : List String → String → Definition.Entries →
    Option Definition.Entries) (above : List String) (last : String) : Option State :=
  (change above last s.defined).map fun defined => { defined, header := above ++ [last] }

/-- Reads a header behind its opening brackets. -/
def header (closing : List Char) (open_ : List String → String → Definition.Entries →
    Option Definition.Entries) (state : State) (s : List Char) : Option (State × List Char) :=
  match key s with
  | none => none
  | some ((above, last), rest) =>
    if closing.isPrefixOf rest then
      match endLine (rest.drop closing.length) with
      | none => none
      | some rest => (state.enter open_ above last).map (·, rest)
    else none

theorem length_of_header {closing : List Char} {open_ : List String → String →
    Definition.Entries → Option Definition.Entries} {state after : State} {s rest : List Char}
    (h : header closing open_ state s = some (after, rest)) : rest.length ≤ s.length := by
  unfold header at h
  split at h
  · simp at h
  · rename_i hkey
    split at h
    · split at h
      · simp at h
      · rename_i hend
        obtain ⟨_, _, h⟩ := Option.map_eq_some_iff.1 h
        simp only [Prod.mk.injEq] at h
        have h₁ := length_of_key hkey
        have h₂ := length_of_endLine hend
        rw [List.length_drop] at h₂
        rw [← h.2]
        omega
    · simp at h

/-- Reads one header or one line with a key and its value. -/
def statement (state : State) : List Char → Option (State × List Char)
  | '[' :: '[' :: s => header [']', ']'] Definition.openMember state s
  | '[' :: s => header [']'] Definition.openTable state s
  | s => match assignment (value maxDepth) s with
    | none => none
    | some ((path, last, v), rest) => match endLine rest with
      | none => none
      | some rest =>
        (Definition.setAt state.header path last v state.defined).map fun defined =>
          ({ state with defined }, rest)

theorem length_of_statement {state after : State} {s rest : List Char}
    (h : statement state s = some (after, rest)) : rest.length < s.length := by
  unfold statement at h
  split at h
  · have := length_of_header h
    simp only [List.length_cons]; omega
  · have := length_of_header h
    simp only [List.length_cons]; omega
  · split at h
    · simp at h
    · rename_i hassign
      split at h
      · simp at h
      · rename_i hend
        obtain ⟨_, _, h⟩ := Option.map_eq_some_iff.1 h
        simp only [Prod.mk.injEq] at h
        have h₁ := length_of_assignment hassign
        have h₂ := length_of_endLine hend
        rw [← h.2]
        omega

/-- Reads headers and lines up to the end of the text. -/
def statements (state : State) (s : List Char) : Option State :=
  match h : skipTrivia false s with
  | [] => some state
  | s' => match hs : statement state s' with
    | none => none
    | some (state, rest) =>
      have : rest.length < s.length := by
        have h₁ := length_skipTrivia_le false s
        have h₂ := length_of_statement hs
        rw [h] at h₁
        omega
      statements state rest
termination_by s.length

/-- The entries of a document; nothing if the text is none. -/
def parse? (text : String) : Option (List (String × Value)) :=
  let s := match text.toList with
    | '\ufeff' :: rest => rest
    | s => s
  (statements { defined := [], header := [] } s).map fun state =>
    Definition.toValues state.defined

end ClassStamp.Toml
