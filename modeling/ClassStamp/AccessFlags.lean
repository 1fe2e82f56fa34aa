/-!
# Access flags

The sixteen property bits of a class, a field or a method.

* `contains`, `insert` and `remove` treat the bits as a set;
* `modifiers` lists the modifiers among them in source order.
-/

namespace ClassStamp

/-- The property bits of a class or member. -/
structure AccessFlags where
  /-- The bits as they stand in a class file. -/
  bits : UInt16
  deriving DecidableEq, Inhabited

namespace AccessFlags

/-- No property. -/
def empty : AccessFlags := ⟨0⟩

/-- Visible everywhere. -/
def publicFlag : AccessFlags := ⟨0x0001⟩

/-- Visible in the declaring class only. -/
def privateFlag : AccessFlags := ⟨0x0002⟩

/-- Visible in the package and in subclasses. -/
def protectedFlag : AccessFlags := ⟨0x0004⟩

/-- Belongs to the class, not to an instance. -/
def staticFlag : AccessFlags := ⟨0x0008⟩

/-- Never assigned, overridden or extended. -/
def finalFlag : AccessFlags := ⟨0x0010⟩

/-- Calls of superclass methods look them up the modern way. -/
def superFlag : AccessFlags := ⟨0x0020⟩

/-- A field that is never cached. -/
def volatileFlag : AccessFlags := ⟨0x0040⟩

/-- A field that is not stored with the object. -/
def transientFlag : AccessFlags := ⟨0x0080⟩

/-- An interface, not a class. -/
def interfaceFlag : AccessFlags := ⟨0x0200⟩

/-- Not to be instantiated. -/
def abstractFlag : AccessFlags := ⟨0x0400⟩

/-- Made by the compiler. -/
def syntheticFlag : AccessFlags := ⟨0x1000⟩

/-- An annotation type. -/
def annotationFlag : AccessFlags := ⟨0x2000⟩

/-- An enumeration type or one of its values. -/
def enumFlag : AccessFlags := ⟨0x4000⟩

/-- Whether all of `other` are among the flags. -/
def contains (flags other : AccessFlags) : Bool := flags.bits &&& other.bits == other.bits

/-- The flags with those of `other` added. -/
def insert (flags other : AccessFlags) : AccessFlags := ⟨flags.bits ||| other.bits⟩

/-- The flags without those of `other`. -/
def remove (flags other : AccessFlags) : AccessFlags := ⟨flags.bits &&& ~~~other.bits⟩

instance : OrOp AccessFlags := ⟨insert⟩

/-- The flags that are modifiers, with their words, in source order. -/
def modifierWords : List (AccessFlags × String) :=
  [(publicFlag, "public"), (privateFlag, "private"), (protectedFlag, "protected"),
    (abstractFlag, "abstract"), (staticFlag, "static"), (finalFlag, "final"),
    (transientFlag, "transient"), (volatileFlag, "volatile")]

/-- The modifiers among the flags, with a space between each two. -/
def modifiers (flags : AccessFlags) : String :=
  " ".intercalate ((modifierWords.filter fun w => flags.contains w.1).map (·.2))

end AccessFlags

end ClassStamp
