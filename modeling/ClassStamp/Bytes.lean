/-!
# Bytes

Byte strings and the big-endian form of the integers that class files hold:
an integer of two, four or eight bytes is the high half, then the low half.

* `toUInt16_ofUInt16`, `toUInt32_ofUInt32`, `toUInt64_ofUInt64`: putting the
  halves of an integer together gives the integer back;
* `high_toUInt16`, `low_toUInt16` and their like: the halves of what was put
  together are the parts.
-/

namespace ClassStamp

/-- A string of bytes, first byte first. -/
abbrev Bytes := List UInt8

namespace Bytes

/-- The high byte of an integer of two bytes. -/
def high16 (v : UInt16) : UInt8 := UInt8.ofNat (v.toNat / 0x100)

/-- The low byte of an integer of two bytes. -/
def low16 (v : UInt16) : UInt8 := UInt8.ofNat v.toNat

/-- The high half of an integer of four bytes. -/
def high32 (v : UInt32) : UInt16 := UInt16.ofNat (v.toNat / 0x10000)

/-- The low half of an integer of four bytes. -/
def low32 (v : UInt32) : UInt16 := UInt16.ofNat v.toNat

/-- The high half of an integer of eight bytes. -/
def high64 (v : UInt64) : UInt32 := UInt32.ofNat (v.toNat / 0x100000000)

/-- The low half of an integer of eight bytes. -/
def low64 (v : UInt64) : UInt32 := UInt32.ofNat v.toNat

/-- The two bytes of an integer, high byte first. -/
def ofUInt16 (v : UInt16) : Bytes := [high16 v, low16 v]

/-- The four bytes of an integer, high byte first. -/
def ofUInt32 (v : UInt32) : Bytes := ofUInt16 (high32 v) ++ ofUInt16 (low32 v)

/-- The eight bytes of an integer, high byte first. -/
def ofUInt64 (v : UInt64) : Bytes := ofUInt32 (high64 v) ++ ofUInt32 (low64 v)

/-- The integer with the given two bytes. -/
def toUInt16 (high low : UInt8) : UInt16 := UInt16.ofNat (high.toNat * 0x100 + low.toNat)

/-- The integer with the given two halves. -/
def toUInt32 (high low : UInt16) : UInt32 := UInt32.ofNat (high.toNat * 0x10000 + low.toNat)

/-- The integer with the given two halves. -/
def toUInt64 (high low : UInt32) : UInt64 := UInt64.ofNat (high.toNat * 0x100000000 + low.toNat)

theorem toUInt16_ofUInt16 (v : UInt16) : toUInt16 (high16 v) (low16 v) = v := by
  apply UInt16.toNat_inj.1
  have := v.toNat_lt
  simp [toUInt16, high16, low16]
  omega

theorem toUInt32_ofUInt32 (v : UInt32) : toUInt32 (high32 v) (low32 v) = v := by
  apply UInt32.toNat_inj.1
  have := v.toNat_lt
  simp [toUInt32, high32, low32]
  omega

theorem toUInt64_ofUInt64 (v : UInt64) : toUInt64 (high64 v) (low64 v) = v := by
  apply UInt64.toNat_inj.1
  have := v.toNat_lt
  simp [toUInt64, high64, low64]
  omega

theorem high_toUInt16 (high low : UInt8) : high16 (toUInt16 high low) = high := by
  apply UInt8.toNat_inj.1
  have := high.toNat_lt
  have := low.toNat_lt
  simp [toUInt16, high16]
  omega

theorem low_toUInt16 (high low : UInt8) : low16 (toUInt16 high low) = low := by
  apply UInt8.toNat_inj.1
  simp [toUInt16, low16]

theorem high_toUInt32 (high low : UInt16) : high32 (toUInt32 high low) = high := by
  apply UInt16.toNat_inj.1
  have := high.toNat_lt
  have := low.toNat_lt
  simp [toUInt32, high32]
  omega

theorem low_toUInt32 (high low : UInt16) : low32 (toUInt32 high low) = low := by
  apply UInt16.toNat_inj.1
  simp [toUInt32, low32]

theorem high_toUInt64 (high low : UInt32) : high64 (toUInt64 high low) = high := by
  apply UInt32.toNat_inj.1
  have := high.toNat_lt
  have := low.toNat_lt
  simp [toUInt64, high64]
  omega

theorem low_toUInt64 (high low : UInt32) : low64 (toUInt64 high low) = low := by
  apply UInt32.toNat_inj.1
  simp [toUInt64, low64]

theorem length_ofUInt16 (v : UInt16) : (ofUInt16 v).length = 2 := rfl

end Bytes

end ClassStamp
