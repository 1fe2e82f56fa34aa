import ClassStamp.Text.Split
import ClassStamp.Text.Blank

/-!
# Paths

A path is a text read as names between slashes. It is kept and shown exactly
as it was written; comparing, splitting and shortening paths ignore repeated
slashes, a `.` that is not the first component, and a slash at the end.

* `Path.components` is that reading, and `Path.sameAs` compares by it;
* `Path.join`, `Path.parent?` and `Path.stripRoot?` work on the text, so that
  a path built from others keeps their spelling.
-/

namespace ClassStamp

/-- A path as written. -/
structure Path where
  /-- The text of the path. -/
  text : String
  deriving DecidableEq, Inhabited

namespace Path

/-- One step of a path. -/
inductive Component
  /-- The slash that an absolute path begins with. -/
  | root
  /-- The `.` that a relative path may begin with. -/
  | here
  /-- The step `..`. -/
  | parent
  /-- A step into the entry of that name. -/
  | name (text : String)
  deriving DecidableEq

/-- A text between slashes, with the component it stands for, if any. -/
abbrev Piece := String × Option Component

/-- Whether the path begins at the root. -/
def isAbsolute (p : Path) : Bool := p.text.toList.head? == some '/'

/-- The texts between the slashes. -/
def slashed (p : Path) : List String := (Text.split '/' p.text.toList).map String.ofList

/-- What a text between slashes stands for when it is not the first one. -/
def Component.ofText (s : String) : Option Component :=
  if s = "" ∨ s = "." then none else if s = ".." then some .parent else some (.name s)

/-- The texts between the slashes, each with the component it stands for. -/
def pieces (p : Path) : List Piece :=
  match p.slashed with
  | [] => []
  | first :: rest =>
    let head :=
      if p.isAbsolute then some .root
      else if first = "." then some .here
      else Component.ofText first
    (first, head) :: rest.map fun s => (s, Component.ofText s)

/-- The steps of the path. -/
def components (p : Path) : List Component := p.pieces.filterMap (·.2)

/-- Whether two paths have the same steps. -/
def sameAs (p q : Path) : Bool := p.components == q.components

/-- The path written with the given pieces. -/
def ofPieces : List Piece → Path
  | [(_, some .root)] => ⟨"/"⟩
  | pieces => ⟨String.ofList (Text.join '/' (pieces.map (·.1.toList)))⟩

/-- The pieces without those at the end that stand for nothing. -/
def trimPieces (pieces : List Piece) : List Piece :=
  (pieces.reverse.dropWhile (·.2.isNone)).reverse

/-- The pieces after the first `n` components. -/
def dropComponents : Nat → List Piece → List Piece
  | 0, pieces => pieces
  | _, [] => []
  | n + 1, (_, none) :: pieces => dropComponents (n + 1) pieces
  | 1, (_, some _) :: pieces => pieces.dropWhile (·.2.isNone)
  | n + 2, (_, some _) :: pieces => dropComponents (n + 1) pieces

/-- `q` seen from `p`: an absolute `q` replaces `p`, any other is written
behind it, after a slash if `p` needs one. -/
def join (p q : Path) : Path :=
  if q.isAbsolute then q
  else match p.text.toList.getLast? with
    | none | some '/' => ⟨p.text ++ q.text⟩
    | some _ => ⟨p.text ++ "/" ++ q.text⟩

/-- The path without its last step; the root and the empty path have none. -/
def parent? (p : Path) : Option Path :=
  let pieces := trimPieces p.pieces
  match pieces.getLast? with
  | none | some (_, some .root) => none
  | some _ => some (ofPieces (trimPieces pieces.dropLast))

/-- The rest of `p` behind `root`, if `p` begins with all steps of `root`. -/
def stripRoot? (p root : Path) : Option Path :=
  if root.components.isPrefixOf p.components then
    some (ofPieces (trimPieces (dropComponents root.components.length p.pieces)))
  else none

/-- Whether the path consists of blanks only. -/
def isBlank (p : Path) : Bool := p.text.toList.all Text.isBlank

end Path

end ClassStamp
