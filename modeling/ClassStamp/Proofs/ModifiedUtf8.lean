import Mathlib.Logic.Function.Basic
import ClassStamp.ModifiedUtf8

/-!
# Modified UTF-8 and back

What was written as modified UTF-8 is read as the same text, so that two texts
have the same bytes only if they are equal.

* `units_ofUnit_append`: a unit is read from its bytes, whatever follows;
* `decode_encode`, `encode_injective`: whole texts.
-/

namespace ClassStamp.ModifiedUtf8

theorem units_single {a : UInt8} (offset : Nat) (rest : Bytes) (h₁ : 1 ≤ a.toNat)
    (h₂ : a.toNat ≤ 0x7F) :
    units offset (a :: rest) = (units (offset + 1) rest).map (a.toUInt16 :: ·) := by
  rw [units.eq_def]
  simp [UInt8.le_iff_toNat_le, h₁, h₂]

theorem units_pair {a b : UInt8} (offset : Nat) (rest : Bytes) (h₁ : 0xC0 ≤ a.toNat)
    (h₂ : a.toNat ≤ 0xDF) (hb : isContinuation b = true) :
    units offset (a :: b :: rest) = (units (offset + 2) rest).map (unit2 a b :: ·) := by
  rw [units.eq_def]
  have hlow : ¬ a.toNat ≤ 0x7F := by omega
  simp [UInt8.le_iff_toNat_le, h₁, h₂, hlow, hb]

theorem units_triple {a b c : UInt8} (offset : Nat) (rest : Bytes) (h₁ : 0xE0 ≤ a.toNat)
    (h₂ : a.toNat ≤ 0xEF) (hb : isContinuation b = true) (hc : isContinuation c = true) :
    units offset (a :: b :: c :: rest) = (units (offset + 3) rest).map (unit3 a b c :: ·) := by
  rw [units.eq_def]
  have hlow : ¬ a.toNat ≤ 0x7F := by omega
  have hmid : ¬ a.toNat ≤ 0xDF := by omega
  simp [UInt8.le_iff_toNat_le, h₁, h₂, hlow, hmid, hb, hc]

theorem isContinuation_ofNat {n : Nat} (h : n < 0x40) :
    isContinuation (UInt8.ofNat (0x80 + n)) = true := by
  simp [isContinuation, UInt8.le_iff_toNat_le]
  omega

/-- A unit is read from its bytes. -/
theorem units_ofUnit_append (u : UInt16) (offset : Nat) (rest : Bytes) :
    units offset (ofUnit u ++ rest) =
      (units (offset + (ofUnit u).length) rest).map (u :: ·) := by
  have hu := u.toNat_lt
  unfold ofUnit
  dsimp only
  split
  · rename_i h
    have ha : (UInt8.ofNat u.toNat).toNat = u.toNat := by simp; omega
    have hback : (UInt8.ofNat u.toNat).toUInt16 = u := by
      apply UInt16.toNat_inj.1
      rw [UInt8.toNat_toUInt16, ha]
    rw [List.singleton_append, units_single _ _ (by omega) (by omega), hback]
    rfl
  · split
    · rename_i h
      have ha : (UInt8.ofNat (0xC0 + u.toNat / 0x40)).toNat = 0xC0 + u.toNat / 0x40 := by
        simp; omega
      have hb : (UInt8.ofNat (0x80 + u.toNat % 0x40)).toNat = 0x80 + u.toNat % 0x40 := by
        simp; omega
      have hback : unit2 (UInt8.ofNat (0xC0 + u.toNat / 0x40))
          (UInt8.ofNat (0x80 + u.toNat % 0x40)) = u := by
        apply UInt16.toNat_inj.1
        rw [unit2, ha, hb, UInt16.toNat_ofNat']
        omega
      rw [List.cons_append, List.singleton_append, units_pair _ _ (by omega) (by omega)
        (isContinuation_ofNat (Nat.mod_lt _ (by decide))), hback]
      rfl
    · rename_i h
      have ha : (UInt8.ofNat (0xE0 + u.toNat / 0x1000)).toNat = 0xE0 + u.toNat / 0x1000 := by
        simp; omega
      have hb : (UInt8.ofNat (0x80 + u.toNat / 0x40 % 0x40)).toNat =
          0x80 + u.toNat / 0x40 % 0x40 := by simp; omega
      have hc : (UInt8.ofNat (0x80 + u.toNat % 0x40)).toNat = 0x80 + u.toNat % 0x40 := by
        simp; omega
      have hback : unit3 (UInt8.ofNat (0xE0 + u.toNat / 0x1000))
          (UInt8.ofNat (0x80 + u.toNat / 0x40 % 0x40))
          (UInt8.ofNat (0x80 + u.toNat % 0x40)) = u := by
        apply UInt16.toNat_inj.1
        rw [unit3, ha, hb, hc, UInt16.toNat_ofNat']
        omega
      rw [List.cons_append, List.cons_append, List.singleton_append,
        units_triple _ _ (by omega) (by omega)
          (isContinuation_ofNat (Nat.mod_lt _ (by decide)))
          (isContinuation_ofNat (Nat.mod_lt _ (by decide))), hback]
      rfl

theorem units_flatMap_ofUnit (us : List UInt16) (offset : Nat) :
    units offset (us.flatMap ofUnit) = .ok us := by
  induction us generalizing offset with
  | nil => rfl
  | cons u us ih =>
    rw [List.flatMap_cons, units_ofUnit_append, ih]
    rfl

theorem decode_encode (s : String) : decode (encode s) = .ok s := by
  rw [decode, encode, units_flatMap_ofUnit]
  dsimp only
  rw [Text.Utf16.decode?_encode]
  dsimp only
  rw [String.ofList_toList]

theorem encode_injective : Function.Injective encode := by
  intro s t h
  have hs := decode_encode s
  rw [h, decode_encode t] at hs
  exact (Except.ok.inj hs).symm

end ClassStamp.ModifiedUtf8
