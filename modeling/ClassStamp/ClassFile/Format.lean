import ClassStamp.ClassFile.Basic
import ClassStamp.ClassFile.Decoder

/-!
# The class file format

How a class file and its parts stand in bytes: each part has a reader and a
writer, one beside the other, with the fields in the same order.

* `ClassFile.parse` reads a whole byte string;
* `ClassFile.toBytes` writes a class file, and fails only where a length does
  not fit its field.
-/

namespace ClassStamp

/-- The two bytes of a list's length. -/
def encodeCount (what : CountedList) (n : Nat) : Except ClassFileError Bytes :=
  if n ≤ 65535 then .ok (Bytes.ofUInt16 (UInt16.ofNat n)) else .error (.tooManyMembers what)

/-- The bytes of a list: its length, then its members. -/
def encodeCounted {α : Type} (what : CountedList) (encode : α → Except ClassFileError Bytes)
    (members : List α) : Except ClassFileError Bytes := do
  let count ← encodeCount what members.length
  let parts ← members.mapM encode
  return count ++ parts.flatten

/-! ## Constants -/

namespace Constant

/-- Reads the constant that gets the given index. -/
def read (index : Nat) : Decoder Constant := do
  let tag ← Decoder.u8
  match tag.toNat with
  | 1 =>
    let length ← Decoder.u16
    return utf8 (← Decoder.bytes length.toNat)
  | 3 => return integer (← Decoder.u32).toInt32
  | 4 => return float (← Decoder.u32)
  | 5 => return long (← Decoder.u64).toInt64
  | 6 => return double (← Decoder.u64)
  | 7 => return classRef (← Decoder.u16)
  | 8 => return string (← Decoder.u16)
  | 9 => return fieldRef (← Decoder.u16) (← Decoder.u16)
  | 10 => return methodRef (← Decoder.u16) (← Decoder.u16)
  | 11 => return interfaceMethodRef (← Decoder.u16) (← Decoder.u16)
  | 12 => return nameAndType (← Decoder.u16) (← Decoder.u16)
  | 15 => return methodHandle (← Decoder.u8) (← Decoder.u16)
  | 16 => return methodType (← Decoder.u16)
  | 17 => return dynamic (← Decoder.u16) (← Decoder.u16)
  | 18 => return invokeDynamic (← Decoder.u16) (← Decoder.u16)
  | 19 => return moduleRef (← Decoder.u16)
  | 20 => return packageRef (← Decoder.u16)
  | _ => throw (.unknownConstantTag index tag)

/-- The bytes of two indices. -/
def encodePair (a b : UInt16) : Bytes := Bytes.ofUInt16 a ++ Bytes.ofUInt16 b

/-- The bytes of a constant. -/
def encode : Constant → Except ClassFileError Bytes
  | utf8 bytes =>
    if bytes.length ≤ 65535 then
      .ok (1 :: Bytes.ofUInt16 (UInt16.ofNat bytes.length) ++ bytes)
    else .error (.attributeTooLarge bytes.length)
  | integer value => .ok (3 :: Bytes.ofUInt32 value.toUInt32)
  | float bits => .ok (4 :: Bytes.ofUInt32 bits)
  | long value => .ok (5 :: Bytes.ofUInt64 value.toUInt64)
  | double bits => .ok (6 :: Bytes.ofUInt64 bits)
  | classRef nameIndex => .ok (7 :: Bytes.ofUInt16 nameIndex)
  | string stringIndex => .ok (8 :: Bytes.ofUInt16 stringIndex)
  | fieldRef classIndex nameAndTypeIndex => .ok (9 :: encodePair classIndex nameAndTypeIndex)
  | methodRef classIndex nameAndTypeIndex => .ok (10 :: encodePair classIndex nameAndTypeIndex)
  | interfaceMethodRef classIndex nameAndTypeIndex =>
    .ok (11 :: encodePair classIndex nameAndTypeIndex)
  | nameAndType nameIndex descriptorIndex => .ok (12 :: encodePair nameIndex descriptorIndex)
  | methodHandle referenceKind referenceIndex =>
    .ok (15 :: referenceKind :: Bytes.ofUInt16 referenceIndex)
  | methodType descriptorIndex => .ok (16 :: Bytes.ofUInt16 descriptorIndex)
  | dynamic bootstrapMethodIndex nameAndTypeIndex =>
    .ok (17 :: encodePair bootstrapMethodIndex nameAndTypeIndex)
  | invokeDynamic bootstrapMethodIndex nameAndTypeIndex =>
    .ok (18 :: encodePair bootstrapMethodIndex nameAndTypeIndex)
  | moduleRef nameIndex => .ok (19 :: Bytes.ofUInt16 nameIndex)
  | packageRef nameIndex => .ok (20 :: Bytes.ofUInt16 nameIndex)

end Constant

namespace ConstantPool

/-- Reads the slots from `index` on, up to the declared count. A constant of
eight bytes that begins in the last slot is read with both its slots. -/
def readSlots (count index : Nat) : Decoder (List (Option Constant)) := do
  if _h : index < count then
    let c ← Constant.read index
    let rest ← readSlots count (index + c.slots.length)
    return c.slots ++ rest
  else return []
termination_by count - index
decreasing_by
  have : 0 < c.slots.length := by unfold Constant.slots; split <;> simp
  omega

/-- Reads a pool: the count, then the constants. -/
def read : Decoder ConstantPool := do
  let count ← Decoder.u16
  let slots ← readSlots count.toNat 1
  return ⟨slots.toArray⟩

/-- The bytes of a slot; an unusable one has none. -/
def encodeSlot : Option Constant → Except ClassFileError Bytes
  | none => .ok []
  | some c => c.encode

/-- The bytes of a pool. -/
def encode (p : ConstantPool) : Except ClassFileError Bytes :=
  if p.count ≤ maxCount then do
    let parts ← p.slots.toList.mapM encodeSlot
    return Bytes.ofUInt16 (UInt16.ofNat p.count) ++ parts.flatten
  else .error .constantPoolOverflow

end ConstantPool

/-! ## Members and attributes -/

namespace Attribute

/-- Reads an attribute. -/
def read : Decoder Attribute := do
  let nameIndex ← Decoder.u16
  let length ← Decoder.u32
  let info ← Decoder.bytes length.toNat
  return { nameIndex, info }

/-- The bytes of an attribute. -/
def encode (a : Attribute) : Except ClassFileError Bytes :=
  if a.info.length < 0x100000000 then
    .ok (Bytes.ofUInt16 a.nameIndex ++ Bytes.ofUInt32 (UInt32.ofNat a.info.length) ++ a.info)
  else .error (.attributeTooLarge a.info.length)

end Attribute

namespace Member

/-- Reads a field or method. -/
def read : Decoder Member := do
  let accessFlags ← Decoder.u16
  let nameIndex ← Decoder.u16
  let descriptorIndex ← Decoder.u16
  let attributes ← Decoder.counted Attribute.read
  return { accessFlags := ⟨accessFlags⟩, nameIndex, descriptorIndex, attributes }

/-- The bytes of a field or method. -/
def encode (m : Member) : Except ClassFileError Bytes := do
  let attributes ← encodeCounted .attributes Attribute.encode m.attributes
  return Bytes.ofUInt16 m.accessFlags.bits ++ Bytes.ofUInt16 m.nameIndex ++
    Bytes.ofUInt16 m.descriptorIndex ++ attributes

end Member

/-! ## The whole class file -/

namespace ClassFile

/-- Reads a class file. -/
def read : Decoder ClassFile := do
  let first ← Decoder.u32
  if first ≠ magic then throw (.badMagic first)
  let minorVersion ← Decoder.u16
  let majorVersion ← Decoder.u16
  let pool ← ConstantPool.read
  let accessFlags ← Decoder.u16
  let thisClass ← Decoder.u16
  let superClass ← Decoder.u16
  let interfaces ← Decoder.counted Decoder.u16
  let fields ← Decoder.counted Member.read
  let methods ← Decoder.counted Member.read
  let attributes ← Decoder.counted Attribute.read
  return {
    minorVersion, majorVersion, pool, accessFlags := ⟨accessFlags⟩, thisClass, superClass,
    interfaces, fields, methods, attributes }

/-- The class file that the bytes are, with nothing before or after it. -/
def parse (input : Bytes) : Except ClassFileError ClassFile :=
  match read.run input with
  | .error e => .error e
  | .ok (c, cursor) => match cursor.rest with
    | [] => .ok c
    | rest => .error (.trailingBytes rest.length)

/-- The bytes of a class file. -/
def toBytes (c : ClassFile) : Except ClassFileError Bytes := do
  let pool ← c.pool.encode
  let interfaces ← encodeCounted .interfaces (fun i => .ok (Bytes.ofUInt16 i)) c.interfaces
  let fields ← encodeCounted .fields Member.encode c.fields
  let methods ← encodeCounted .methods Member.encode c.methods
  let attributes ← encodeCounted .attributes Attribute.encode c.attributes
  return Bytes.ofUInt32 magic ++ Bytes.ofUInt16 c.minorVersion ++
    Bytes.ofUInt16 c.majorVersion ++ pool ++ Bytes.ofUInt16 c.accessFlags.bits ++
    Bytes.ofUInt16 c.thisClass ++ Bytes.ofUInt16 c.superClass ++ interfaces ++ fields ++
    methods ++ attributes

end ClassFile

end ClassStamp
