import ClassStamp.Toml.Value

/-!
# Defining tables

A document defines its tables bit by bit: headers open tables, and keys with
dots define tables on their way. Who defined a table decides who may still add
to it.

* `Definition.setAt` gives a key in an open table its value;
* `Definition.openTable` and `openMember` open a table and a member of an array
  of tables;
* `Definition.value` is what was defined in the end.
-/

namespace ClassStamp.Toml

/-- How a table came about. -/
inductive Origin
  /-- A header names it. -/
  | header
  /-- It is on the way to a table that a header names. -/
  | above
  /-- It is on the way to a value whose key has dots. -/
  | dotted
  deriving DecidableEq

/-- Something defined under a key. -/
inductive Definition
  /-- A value, to which nothing can be added. -/
  | value (v : Value)
  /-- A table. -/
  | table (origin : Origin) (entries : List (String × Definition))
  /-- An array of tables: the last one, to which can still be added, and those
  in front of it, nearest first. -/
  | tables (last : List (String × Definition)) (before : List (List (String × Definition)))

namespace Definition

/-- What is defined under some keys, in order. -/
abbrev Entries := List (String × Definition)

/-- Changes what is under a key; a new key comes last. -/
def alter (key : String) (change : Option Definition → Option Definition) :
    Entries → Option Entries
  | [] => (change none).map fun d => [(key, d)]
  | (k, d) :: rest =>
    if k = key then (change (some d)).map fun d => (k, d) :: rest
    else (alter key change rest).map ((k, d) :: ·)

/-- Changes the table that some keys lead to from a table of the given origin.
Tables that are missing are made with the origin `made`, one that `isClosed`
is not entered, and of an array of tables the last one is meant. -/
def descend (made : Origin) (isClosed : Origin → Bool)
    (change : Origin → Entries → Option Entries) :
    List String → Origin → Entries → Option Entries
  | [], origin, entries => change origin entries
  | key :: path, _, entries => alter key (fun
      | none => (descend made isClosed change path made []).map (table made)
      | some (value _) => none
      | some (table origin entries) =>
        if isClosed origin then none
        else (descend made isClosed change path origin entries).map (table origin)
      | some (tables last before) =>
        (descend made isClosed change path .header last).map (tables · before)) entries

/-- Defines a key that is not there. -/
def setNew (key : String) (v : Value) : Entries → Option Entries :=
  alter key fun
    | none => some (value v)
    | some _ => none

/-- Gives a key with dots its value, in a table that is open. Dots lead only
through tables that no header names, and to a table that dots made. -/
def setDotted (path : List String) (key : String) (v : Value) : Entries → Option Entries :=
  descend .dotted (· == .header) (fun origin entries =>
    if path ≠ [] && origin != .dotted then none else setNew key v entries) path .header

/-- Changes the table that some keys of a header lead to. -/
def onHeader (path : List String) (change : Entries → Option Entries) :
    Entries → Option Entries :=
  descend .above (fun _ => false) (fun _ entries => change entries) path .header

/-- Gives a key with dots its value in the table that a header opened. -/
def setAt (header path : List String) (key : String) (v : Value) : Entries → Option Entries :=
  onHeader header (setDotted path key v)

/-- Opens a table. It may be there only as a table on the way to others. -/
def openTable (above : List String) (key : String) : Entries → Option Entries :=
  onHeader above (alter key fun
    | none => some (table .header [])
    | some (table .above entries) => some (table .header entries)
    | some _ => none)

/-- Opens a new member of an array of tables. -/
def openMember (above : List String) (key : String) : Entries → Option Entries :=
  onHeader above (alter key fun
    | none => some (tables [] [])
    | some (tables last before) => some (tables [] (last :: before))
    | some _ => none)

mutual

/-- The value that was defined. -/
def toValue : Definition → Value
  | value v => v
  | table _ entries => .table (toValues entries)
  | tables last before => .array (toMembers before [.table (toValues last)])

/-- The values that were defined under some keys. -/
def toValues : Entries → List (String × Value)
  | [] => []
  | (key, d) :: rest => (key, toValue d) :: toValues rest

/-- The values of some tables, nearest first, in front of the values that come
behind them. -/
def toMembers : List Entries → List Value → List Value
  | [], behind => behind
  | entries :: rest, behind => toMembers rest (.table (toValues entries) :: behind)

end

end Definition

end ClassStamp.Toml
