import Mathlib.Data.List.Forall2
import ClassStamp.ClassFile.Format

/-!
# Readers against writers

Each part of a class file has a reader and a writer. They belong together
(`Decoder.Coded`) if the reader, on any bytes that begin with what the writer
made of a value, gives the value and leaves the other bytes, and if the writer
makes of any value that was read exactly the bytes that were taken for it.

* `reads_many`, `Coded.taken_many`, `coded_counted`: lists, from their
  members;
* `reads_constant` and `constant_taken`, `coded_attribute`, `coded_member`: the
  parts of a class file, the constant pool excepted, whose count can disagree
  with its slots.
-/

namespace ClassStamp

theorem except_bind_eq_ok {ε α β : Type} {x : Except ε α} {f : α → Except ε β} {b : β}
    (h : (x >>= f) = .ok b) : ∃ a, x = .ok a ∧ f a = .ok b := by
  cases x with
  | error e => cases h
  | ok a => exact ⟨a, rfl, h⟩

theorem exists_eq_ok_of_isOk {ε α : Type} {x : Except ε α} (h : x.isOk = true) :
    ∃ a, x = .ok a := by
  cases x with
  | error e => cases h
  | ok a => exact ⟨a, rfl⟩

theorem mapM_eq_ok_iff {ε α β : Type} {f : α → Except ε β} {xs : List α} {ys : List β} :
    xs.mapM f = .ok ys ↔ List.Forall₂ (fun x y => f x = .ok y) xs ys := by
  induction xs generalizing ys with
  | nil =>
    constructor
    · intro h; cases h; exact .nil
    · intro h; cases h; rfl
  | cons x xs ih =>
    rw [List.mapM_cons]
    constructor
    · intro h
      obtain ⟨y, hy, h⟩ := except_bind_eq_ok h
      obtain ⟨ys, hys, h⟩ := except_bind_eq_ok h
      cases h
      exact .cons hy (ih.1 hys)
    · intro h
      cases h with
      | cons hy hys => rw [hy, ih.2 hys]; rfl

theorem exists_mapM_iff {ε α β : Type} {f : α → Except ε β} {xs : List α} :
    (∃ ys, xs.mapM f = .ok ys) ↔ ∀ x ∈ xs, ∃ y, f x = .ok y := by
  simp only [mapM_eq_ok_iff]
  induction xs with
  | nil => exact ⟨fun _ x hx => (nomatch hx), fun _ => ⟨[], .nil⟩⟩
  | cons x xs ih =>
    rw [List.forall_mem_cons, ← ih]
    constructor
    · rintro ⟨ys, h⟩
      cases h with | cons hx h => exact ⟨⟨_, hx⟩, _, h⟩
    · rintro ⟨⟨y, hx⟩, ys, h⟩
      exact ⟨_, .cons hx h⟩

theorem mem_of_mapM {ε α β : Type} {f : α → Except ε β} {xs : List α} {ys : List β}
    (h : xs.mapM f = .ok ys) {y : β} : y ∈ ys ↔ ∃ x ∈ xs, f x = .ok y := by
  replace h := mapM_eq_ok_iff.1 h
  induction h with
  | nil => simp
  | cons hx _ ih =>
    simp only [List.mem_cons, exists_eq_or_imp, hx, Except.ok.injEq, eq_comm (a := y), ih]

/-- Values that are kept one by one are kept together. -/
theorem mapM_eq_ok_of_kept {ε α β : Type} {f g : α → Except ε β} {xs : List α} {ys : List β}
    (h : xs.mapM f = .ok ys) (hkept : ∀ x y, f x = .ok y → g x = .ok y) :
    xs.mapM g = .ok ys := by
  rw [mapM_eq_ok_iff] at *
  exact h.imp hkept

theorem mapM_append_eq_ok {ε α β : Type} {f : α → Except ε β} {xs xs' : List α} {ys ys' : List β}
    (h : xs.mapM f = .ok ys) (h' : xs'.mapM f = .ok ys') :
    (xs ++ xs').mapM f = .ok (ys ++ ys') := by
  rw [mapM_eq_ok_iff] at *
  exact List.rel_append h h'

/-- The bytes that a writer makes of each of some values. -/
abbrev Encodes {α : Type} (encode : α → Except ClassFileError Bytes) : List α → List Bytes → Prop :=
  List.Forall₂ fun a bytes => encode a = .ok bytes

namespace Decoder

variable {α β : Type}

theorem bind_apply (d : Decoder α) (f : α → Decoder β) (c : Cursor) :
    (d >>= f) c = match d c with
      | .error e => .error e
      | .ok (a, c') => f a c' := by
  show Except.bind (d c) _ = _
  cases d c <;> rfl

theorem bind_eq_ok {d : Decoder α} {f : α → Decoder β} {c c' : Cursor} {b : β}
    (h : (d >>= f) c = .ok (b, c')) : ∃ a c₁, d c = .ok (a, c₁) ∧ f a c₁ = .ok (b, c') := by
  obtain ⟨⟨a, c₁⟩, hd, hf⟩ := except_bind_eq_ok (x := d c) h
  exact ⟨a, c₁, hd, hf⟩

/-! ## Reading what is known to be there -/

/-- On all bytes that begin with the given ones the decoder gives the value
and takes no others. -/
def Reads (d : Decoder α) (a : α) (bytes : Bytes) : Prop :=
  ∀ offset rest, d ⟨offset, bytes ++ rest⟩ = .ok (a, ⟨offset + bytes.length, rest⟩)

theorem reads_pure (a : α) : Reads (pure a) a [] := fun _ _ => rfl

theorem Reads.bind {d : Decoder α} {f : α → Decoder β} {a : α} {b : β} {xs ys : Bytes}
    (h : Reads d a xs) (hf : Reads (f a) b ys) : Reads (d >>= f) b (xs ++ ys) := by
  intro offset rest
  rw [bind_apply, List.append_assoc, h, List.length_append, ← Nat.add_assoc]
  exact hf _ rest

/-- The last step of a decoder, which takes nothing. -/
theorem Reads.map {d : Decoder α} {a : α} {xs : Bytes} (h : Reads d a xs) (f : α → β) :
    Reads (d >>= fun a => pure (f a)) (f a) xs := by
  rw [← List.append_nil xs]
  exact h.bind (f := fun a => pure (f a)) (reads_pure (f a))

theorem reads_u8 (b : UInt8) : Reads u8 b [b] := fun _ _ => rfl

theorem reads_u16 (v : UInt16) : Reads u16 v (Bytes.ofUInt16 v) := fun offset rest => by
  show Except.ok (Bytes.toUInt16 (Bytes.high16 v) (Bytes.low16 v), _) = _
  rw [Bytes.toUInt16_ofUInt16]
  rfl

theorem reads_u32 (v : UInt32) : Reads u32 v (Bytes.ofUInt32 v) := fun offset rest => by
  show Except.ok (Bytes.toUInt32 (Bytes.toUInt16 (Bytes.high16 _) (Bytes.low16 _))
    (Bytes.toUInt16 (Bytes.high16 _) (Bytes.low16 _)), _) = _
  rw [Bytes.toUInt16_ofUInt16, Bytes.toUInt16_ofUInt16, Bytes.toUInt32_ofUInt32]
  rfl

theorem reads_u64 (v : UInt64) : Reads u64 v (Bytes.ofUInt64 v) := by
  conv => arg 2; rw [← Bytes.toUInt64_ofUInt64 v]
  exact (reads_u32 _).bind (f := fun high => u32 >>= fun low => pure (Bytes.toUInt64 high low))
    ((reads_u32 _).map _)

theorem reads_bytes {n : Nat} {xs : Bytes} (h : xs.length = n) : Reads (bytes n) xs xs :=
  fun offset rest => by simp [bytes, ← h]

theorem reads_many {d : Decoder α} {xs : List α} {parts : List Bytes}
    (h : List.Forall₂ d.Reads xs parts) : Reads (many d xs.length) xs parts.flatten := by
  induction h with
  | nil => exact reads_pure []
  | cons hx _ ih => exact hx.bind (ih.map (List.cons _))

theorem reads_counted {d : Decoder α} {xs : List α} {parts : List Bytes}
    (hn : xs.length ≤ 65535) (h : List.Forall₂ d.Reads xs parts) :
    Reads (counted d) xs (Bytes.ofUInt16 (UInt16.ofNat xs.length) ++ parts.flatten) := by
  refine (reads_u16 _).bind ?_
  rw [UInt16.toNat_ofNat_of_lt' (by simpa [UInt16.size] using Nat.lt_succ_of_le hn)]
  exact reads_many h

/-! ## What was taken -/

theorem u8_eq_ok {c c' : Cursor} {b : UInt8} (h : u8 c = .ok (b, c')) :
    c.rest = [b] ++ c'.rest := by
  unfold u8 at h
  split at h <;> cases h
  simp only [*]
  rfl

theorem u16_eq_ok {c c' : Cursor} {v : UInt16} (h : u16 c = .ok (v, c')) :
    c.rest = Bytes.ofUInt16 v ++ c'.rest := by
  unfold u16 at h
  split at h <;> cases h
  simp only [*, Bytes.ofUInt16, Bytes.high_toUInt16, Bytes.low_toUInt16]
  rfl

theorem u32_eq_ok {c c' : Cursor} {v : UInt32} (h : u32 c = .ok (v, c')) :
    c.rest = Bytes.ofUInt32 v ++ c'.rest := by
  unfold u32 at h
  split at h <;> cases h
  simp only [*, Bytes.ofUInt32, Bytes.ofUInt16, Bytes.high_toUInt32, Bytes.low_toUInt32,
    Bytes.high_toUInt16, Bytes.low_toUInt16]
  rfl

theorem u64_eq_ok {c c' : Cursor} {v : UInt64} (h : u64 c = .ok (v, c')) :
    c.rest = Bytes.ofUInt64 v ++ c'.rest := by
  obtain ⟨high, c₁, h₁, h⟩ := bind_eq_ok h
  obtain ⟨low, c₂, h₂, h⟩ := bind_eq_ok h
  cases h
  rw [u32_eq_ok h₁, u32_eq_ok h₂, Bytes.ofUInt64, Bytes.high_toUInt64, Bytes.low_toUInt64,
    List.append_assoc]

theorem bytes_eq_ok {n : Nat} {c c' : Cursor} {xs : Bytes} (h : bytes n c = .ok (xs, c')) :
    xs.length = n ∧ c.rest = xs ++ c'.rest := by
  simp only [bytes] at h
  split at h <;> cases h
  exact ⟨by assumption, (List.take_append_drop n c.rest).symm⟩

/-! ## Readers with their writers -/

/-- A reader and a writer that belong together. -/
structure Coded (d : Decoder α) (encode : α → Except ClassFileError Bytes) : Prop where
  reads {a : α} {bytes : Bytes} : encode a = .ok bytes → d.Reads a bytes
  taken {c c' : Cursor} {a : α} :
    d c = .ok (a, c') → ∃ bytes, encode a = .ok bytes ∧ c.rest = bytes ++ c'.rest

theorem coded_u16 : Coded u16 fun v => .ok (Bytes.ofUInt16 v) where
  reads h := by cases h; exact reads_u16 _
  taken h := ⟨_, rfl, u16_eq_ok h⟩

variable {d : Decoder α} {encode : α → Except ClassFileError Bytes}

theorem Coded.taken_many (h : Coded d encode) {n : Nat} {c c' : Cursor} {xs : List α}
    (hd : many d n c = .ok (xs, c')) :
    xs.length = n ∧ ∃ parts, Encodes encode xs parts ∧ c.rest = parts.flatten ++ c'.rest := by
  induction n generalizing c xs with
  | zero => cases hd; exact ⟨rfl, [], .nil, rfl⟩
  | succ n ih =>
    obtain ⟨x, c₁, hx, hd⟩ := bind_eq_ok hd
    obtain ⟨rest, c₂, hrest, hd⟩ := bind_eq_ok hd
    cases hd
    obtain ⟨bytes, hbytes, hc⟩ := h.taken hx
    obtain ⟨hlen, parts, hparts, hc₁⟩ := ih hrest
    refine ⟨by rw [List.length_cons, hlen], bytes :: parts, .cons hbytes hparts, ?_⟩
    rw [hc, hc₁, List.flatten_cons, List.append_assoc]

end Decoder

theorem encodeCount_eq_ok_iff {what : CountedList} {n : Nat} {bytes : Bytes} :
    encodeCount what n = .ok bytes ↔ n ≤ 65535 ∧ bytes = Bytes.ofUInt16 (UInt16.ofNat n) := by
  unfold encodeCount
  split
  · rename_i hn
    simp only [Except.ok.injEq, hn, true_and, eq_comm]
  · rename_i hn
    simp only [reduceCtorEq, hn, false_and]

theorem encodeCounted_eq_ok_iff {α : Type} {what : CountedList}
    {encode : α → Except ClassFileError Bytes} {xs : List α} {bytes : Bytes} :
    encodeCounted what encode xs = .ok bytes ↔ xs.length ≤ 65535 ∧
      ∃ parts, Encodes encode xs parts ∧
        bytes = Bytes.ofUInt16 (UInt16.ofNat xs.length) ++ parts.flatten := by
  constructor
  · intro h
    obtain ⟨count, hcount, h⟩ := except_bind_eq_ok h
    obtain ⟨parts, hparts, h⟩ := except_bind_eq_ok h
    obtain ⟨hn, rfl⟩ := encodeCount_eq_ok_iff.1 hcount
    cases h
    exact ⟨hn, parts, mapM_eq_ok_iff.1 hparts, rfl⟩
  · rintro ⟨hn, parts, hparts, rfl⟩
    rw [encodeCounted, encodeCount_eq_ok_iff.2 ⟨hn, rfl⟩, mapM_eq_ok_iff.2 hparts]
    rfl

namespace Decoder

theorem coded_counted {α : Type} {d : Decoder α} {encode : α → Except ClassFileError Bytes}
    (h : Coded d encode) (what : CountedList) :
    Coded (counted d) (encodeCounted what encode) where
  reads {xs bytes} hb := by
    obtain ⟨hn, parts, hparts, rfl⟩ := encodeCounted_eq_ok_iff.1 hb
    exact reads_counted hn (hparts.imp fun _ _ hx => h.reads hx)
  taken {c c' xs} hd := by
    obtain ⟨n, c₁, hn, hd⟩ := bind_eq_ok hd
    obtain ⟨hlen, parts, hparts, hc₁⟩ := h.taken_many hd
    have hlt := n.toNat_lt
    refine ⟨_, encodeCounted_eq_ok_iff.2 ⟨by omega, parts, hparts, rfl⟩, ?_⟩
    rw [u16_eq_ok hn, hc₁, hlen, UInt16.ofNat_toNat, List.append_assoc]

end Decoder

/-! ## Constants, attributes and members -/

namespace Decoder

variable {α : Type}

theorem reads_pair (f : UInt16 → UInt16 → α) (i j : UInt16) :
    Reads (do return f (← u16) (← u16)) (f i j) (Constant.encodePair i j) :=
  (reads_u16 i).bind ((reads_u16 j).map (f i))

theorem index_eq_ok {f : UInt16 → α} {c c' : Cursor} {a : α}
    (h : (do return f (← u16) : Decoder α) c = .ok (a, c')) :
    ∃ i, a = f i ∧ c.rest = Bytes.ofUInt16 i ++ c'.rest := by
  obtain ⟨i, c₁, hi, h⟩ := bind_eq_ok h
  cases h
  exact ⟨i, rfl, u16_eq_ok hi⟩

theorem pair_eq_ok {f : UInt16 → UInt16 → α} {c c' : Cursor} {a : α}
    (h : (do return f (← u16) (← u16) : Decoder α) c = .ok (a, c')) :
    ∃ i j, a = f i j ∧ c.rest = Constant.encodePair i j ++ c'.rest := by
  obtain ⟨i, c₁, hi, h⟩ := bind_eq_ok h
  obtain ⟨j, rfl, hj⟩ := index_eq_ok h
  exact ⟨i, j, rfl, by rw [u16_eq_ok hi, hj, Constant.encodePair, List.append_assoc]⟩

end Decoder

open Decoder

theorem reads_constant (index : Nat) {x : Constant} {bytes : Bytes} (h : x.encode = .ok bytes) :
    Reads (Constant.read index) x bytes := by
  cases x <;> simp only [Constant.encode] at h
  case utf8 text =>
    split at h <;> cases h
    rename_i hlen
    refine (reads_u8 1).bind ((reads_u16 _).bind ((reads_bytes ?_).map Constant.utf8))
    rw [UInt16.toNat_ofNat_of_lt' (by simpa [UInt16.size] using Nat.lt_succ_of_le hlen)]
  all_goals cases h
  case integer value =>
    exact (reads_u8 3).bind ((reads_u32 value.toUInt32).map fun v => Constant.integer v.toInt32)
  case float bits => exact (reads_u8 4).bind ((reads_u32 _).map Constant.float)
  case long value =>
    exact (reads_u8 5).bind ((reads_u64 value.toUInt64).map fun v => Constant.long v.toInt64)
  case double bits => exact (reads_u8 6).bind ((reads_u64 _).map Constant.double)
  case classRef i => exact (reads_u8 7).bind ((reads_u16 _).map Constant.classRef)
  case string i => exact (reads_u8 8).bind ((reads_u16 _).map Constant.string)
  case fieldRef i j => exact (reads_u8 9).bind (reads_pair Constant.fieldRef i j)
  case methodRef i j => exact (reads_u8 10).bind (reads_pair Constant.methodRef i j)
  case interfaceMethodRef i j =>
    exact (reads_u8 11).bind (reads_pair Constant.interfaceMethodRef i j)
  case nameAndType i j => exact (reads_u8 12).bind (reads_pair Constant.nameAndType i j)
  case methodHandle k i =>
    exact (reads_u8 15).bind ((reads_u8 k).bind ((reads_u16 i).map (Constant.methodHandle k)))
  case methodType i => exact (reads_u8 16).bind ((reads_u16 _).map Constant.methodType)
  case dynamic i j => exact (reads_u8 17).bind (reads_pair Constant.dynamic i j)
  case invokeDynamic i j => exact (reads_u8 18).bind (reads_pair Constant.invokeDynamic i j)
  case moduleRef i => exact (reads_u8 19).bind ((reads_u16 _).map Constant.moduleRef)
  case packageRef i => exact (reads_u8 20).bind ((reads_u16 _).map Constant.packageRef)

theorem constant_taken {index : Nat} {c c' : Cursor} {x : Constant}
    (h : Constant.read index c = .ok (x, c')) :
    ∃ bytes, x.encode = .ok bytes ∧ c.rest = bytes ++ c'.rest := by
  obtain ⟨tag, c₁, htag, h⟩ := bind_eq_ok h
  have tag_eq {n : Nat} (hn : tag.toNat = n) : tag = UInt8.ofNat n := by
    rw [← hn, UInt8.ofNat_toNat]
  rw [u8_eq_ok htag]
  generalize hn : tag.toNat = n at h
  split at h
  case h_1 hn =>
    obtain ⟨n, c₂, hlen, h⟩ := bind_eq_ok h
    obtain ⟨text, c₃, htext, h⟩ := bind_eq_ok h
    cases h
    obtain ⟨hn', hrest⟩ := bytes_eq_ok htext
    have hlt := n.toNat_lt
    refine ⟨_, by rw [Constant.encode, if_pos (by omega)], ?_⟩
    rw [tag_eq hn, u16_eq_ok hlen, hrest, hn', UInt16.ofNat_toNat]
    simp
  case h_2 hn =>
    obtain ⟨v, c₂, hv, h⟩ := bind_eq_ok h
    cases h
    exact ⟨_, rfl, by rw [tag_eq hn, u32_eq_ok hv]; rfl⟩
  case h_3 hn =>
    obtain ⟨v, c₂, hv, h⟩ := bind_eq_ok h
    cases h
    exact ⟨_, rfl, by rw [tag_eq hn, u32_eq_ok hv]; rfl⟩
  case h_4 hn =>
    obtain ⟨v, c₂, hv, h⟩ := bind_eq_ok h
    cases h
    exact ⟨_, rfl, by rw [tag_eq hn, u64_eq_ok hv]; rfl⟩
  case h_5 hn =>
    obtain ⟨v, c₂, hv, h⟩ := bind_eq_ok h
    cases h
    exact ⟨_, rfl, by rw [tag_eq hn, u64_eq_ok hv]; rfl⟩
  case h_12 hn =>
    obtain ⟨k, c₂, hk, h⟩ := bind_eq_ok h
    obtain ⟨i, rfl, hi⟩ := index_eq_ok h
    exact ⟨_, rfl, by rw [tag_eq hn, u8_eq_ok hk, hi]; rfl⟩
  case h_18 => cases h
  all_goals rename_i hn
  case h_6 | h_7 | h_13 | h_16 | h_17 =>
    obtain ⟨i, rfl, hi⟩ := index_eq_ok h
    exact ⟨_, rfl, by rw [tag_eq hn, hi]; rfl⟩
  all_goals
    obtain ⟨i, j, rfl, hij⟩ := pair_eq_ok h
    exact ⟨_, rfl, by rw [tag_eq hn, hij]; rfl⟩

theorem encode_attribute_eq_ok_iff {a : Attribute} {bytes : Bytes} :
    a.encode = .ok bytes ↔ a.info.length < 0x100000000 ∧
      bytes = Bytes.ofUInt16 a.nameIndex ++ Bytes.ofUInt32 (UInt32.ofNat a.info.length) ++
        a.info := by
  unfold Attribute.encode
  split
  · rename_i hn
    simp only [Except.ok.injEq, hn, true_and, eq_comm]
  · rename_i hn
    simp only [reduceCtorEq, hn, false_and]

theorem coded_attribute : Coded Attribute.read Attribute.encode where
  reads {a bytes} h := by
    obtain ⟨hn, rfl⟩ := encode_attribute_eq_ok_iff.1 h
    rw [List.append_assoc]
    refine (reads_u16 _).bind ((reads_u32 _).bind ((reads_bytes ?_).map (Attribute.mk _)))
    rw [UInt32.toNat_ofNat_of_lt' hn]
  taken {c c' a} h := by
    obtain ⟨nameIndex, c₁, h₁, h⟩ := bind_eq_ok h
    obtain ⟨n, c₂, h₂, h⟩ := bind_eq_ok h
    obtain ⟨info, c₃, h₃, h⟩ := bind_eq_ok h
    cases h
    obtain ⟨hlen, hinfo⟩ := bytes_eq_ok h₃
    have hlt := n.toNat_lt
    refine ⟨_, encode_attribute_eq_ok_iff.2 ⟨by dsimp only; omega, rfl⟩, ?_⟩
    rw [u16_eq_ok h₁, u32_eq_ok h₂, hinfo, hlen, UInt32.ofNat_toNat, List.append_assoc,
      List.append_assoc]

theorem encode_member_eq_ok_iff {m : Member} {bytes : Bytes} :
    m.encode = .ok bytes ↔ ∃ listed,
      encodeCounted .attributes Attribute.encode m.attributes = .ok listed ∧
      bytes = Bytes.ofUInt16 m.accessFlags.bits ++ Bytes.ofUInt16 m.nameIndex ++
        Bytes.ofUInt16 m.descriptorIndex ++ listed := by
  constructor
  · intro h
    obtain ⟨listed, hlisted, h⟩ := except_bind_eq_ok h
    cases h
    exact ⟨listed, hlisted, rfl⟩
  · rintro ⟨listed, hlisted, rfl⟩
    rw [Member.encode, hlisted]
    rfl

theorem coded_member : Coded Member.read Member.encode where
  reads {m bytes} h := by
    obtain ⟨listed, hlisted, rfl⟩ := encode_member_eq_ok_iff.1 h
    rw [List.append_assoc, List.append_assoc]
    exact (reads_u16 _).bind ((reads_u16 _).bind ((reads_u16 _).bind
      (((coded_counted coded_attribute .attributes).reads hlisted).map
        (Member.mk m.accessFlags m.nameIndex m.descriptorIndex))))
  taken {c c' m} h := by
    obtain ⟨accessFlags, c₁, h₁, h⟩ := bind_eq_ok h
    obtain ⟨nameIndex, c₂, h₂, h⟩ := bind_eq_ok h
    obtain ⟨descriptorIndex, c₃, h₃, h⟩ := bind_eq_ok h
    obtain ⟨attributes, c₄, h₄, h⟩ := bind_eq_ok h
    cases h
    obtain ⟨listed, hlisted, hrest⟩ := (coded_counted coded_attribute .attributes).taken h₄
    refine ⟨_, encode_member_eq_ok_iff.2 ⟨listed, hlisted, rfl⟩, ?_⟩
    rw [u16_eq_ok h₁, u16_eq_ok h₂, u16_eq_ok h₃, hrest]
    simp only [List.append_assoc]

end ClassStamp
