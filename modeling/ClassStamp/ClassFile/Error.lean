import ClassStamp.ClassName
import ClassStamp.ModifiedUtf8

/-!
# Class file errors

Why bytes are no class file, why a class file has no bytes, and why an edit of
one is refused.
-/

namespace ClassStamp

/-- The kinds of constant that other parts of a class file point to. -/
inductive ReferencedKind
  | utf8
  | classRef
  deriving DecidableEq

/-- The name of the kind in a class file. -/
def ReferencedKind.text : ReferencedKind → String
  | utf8 => "Utf8"
  | classRef => "Class"

/-- The lists of a class file whose length is written in two bytes. -/
inductive CountedList
  | interfaces
  | fields
  | methods
  | attributes
  | innerClasses
  deriving DecidableEq

/-- What the members of the list are called. -/
def CountedList.text : CountedList → String
  | interfaces => "interfaces"
  | fields => "fields"
  | methods => "methods"
  | attributes => "attributes"
  | innerClasses => "inner classes"

/-- Why reading, writing or editing a class file fails. -/
inductive ClassFileError
  /-- Fewer than `needed` bytes are left at `offset`. -/
  | truncated (offset needed : Nat)
  /-- The first four bytes are not those of a class file. -/
  | badMagic (magic : UInt32)
  /-- That many bytes follow the end of the class file. -/
  | trailingBytes (count : Nat)
  /-- A text of the class file is malformed. -/
  | invalidUtf8 (reason : ModifiedUtf8.Malformed)
  /-- No kind of constant has the tag of the constant at `index`. -/
  | unknownConstantTag (index : Nat) (tag : UInt8)
  /-- The constant at `index` is absent or of another kind. -/
  | invalidConstantIndex (index : UInt16) (expected : ReferencedKind)
  /-- The constant pool is full. -/
  | constantPoolOverflow
  /-- A list is longer than its length field can say. -/
  | tooManyMembers (what : CountedList)
  /-- An attribute or a text is longer than its length field can say. -/
  | attributeTooLarge (length : Nat)
  /-- The class has a field of that name already. -/
  | duplicateField (name : String)
  /-- A text that should name a class does not. -/
  | invalidName (reason : NameError)
  deriving DecidableEq

namespace ClassFileError

/-- The four bytes of a number as eight digits. -/
def hexWord (v : UInt32) : String :=
  let digits := String.ofList (Nat.toDigits 16 v.toNat)
  "0x" ++ "".pushn '0' (8 - digits.length) ++ digits

/-- The text shown for the error. -/
def message : ClassFileError → String
  | truncated offset needed => s!"truncated class file: needed {needed} bytes at offset {offset}"
  | badMagic magic => s!"bad magic number {hexWord magic}"
  | trailingBytes count => s!"{count} trailing bytes after class file end"
  | invalidUtf8 reason => s!"invalid modified UTF-8 at byte {reason.offset}"
  | unknownConstantTag index tag => s!"unknown constant pool tag {tag.toNat} at index {index}"
  | invalidConstantIndex index expected =>
    s!"constant pool index {index.toNat} is not a valid {expected.text} entry"
  | constantPoolOverflow => "constant pool overflow"
  | tooManyMembers what => s!"too many {what.text} for the class file format"
  | attributeTooLarge length => s!"attribute body too large: {length} bytes"
  | duplicateField name => s!"duplicate field: {name}"
  | invalidName reason => s!"invalid class name: {reason.message}"

instance : ToString ClassFileError := ⟨message⟩

end ClassFileError

end ClassStamp
