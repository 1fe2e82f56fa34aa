import Mathlib.Algebra.Group.Nat.Defs
import ClassStamp.Proofs.ClassFile.PoolGrowth

/-!
# Reading back what was written

A class file has bytes exactly if all its lengths fit their fields
(`ClassFile.Fits`), and reading these bytes gives the class file back, as long
as the slots of its constant pool are those of a list of constants.

* `toBytes_eq_ok_iff`: the bytes of a class file, part by part;
* `exists_toBytes_iff`: when there are any;
* `parse_toBytes`: they are read as the class file;
* `encodes_iff_fits_and_parses_back`: both, for every pool that reading and
  adding constants lead to.
-/

namespace ClassStamp

open Decoder

theorem exists_encodes_iff {α : Type} {encode : α → Except ClassFileError Bytes} {xs : List α} :
    (∃ parts, Encodes encode xs parts) ↔ ∀ x ∈ xs, ∃ bytes, encode x = .ok bytes := by
  induction xs with
  | nil => exact ⟨fun _ x hx => by simp at hx, fun _ => ⟨[], .nil⟩⟩
  | cons x xs ih =>
    rw [List.forall_mem_cons, ← ih]
    constructor
    · rintro ⟨parts, h⟩
      cases h with | cons hx h => exact ⟨⟨_, hx⟩, _, h⟩
    · rintro ⟨⟨bytes, hx⟩, parts, h⟩
      exact ⟨_, .cons hx h⟩

theorem exists_encodeCounted_iff {α : Type} {what : CountedList}
    {encode : α → Except ClassFileError Bytes} {xs : List α} :
    (∃ bytes, encodeCounted what encode xs = .ok bytes) ↔
      xs.length ≤ 65535 ∧ ∀ x ∈ xs, ∃ bytes, encode x = .ok bytes := by
  rw [← exists_encodes_iff]
  simp only [encodeCounted_eq_ok_iff]
  constructor
  · rintro ⟨bytes, hn, parts, h, -⟩
    exact ⟨hn, parts, h⟩
  · rintro ⟨hn, parts, h⟩
    exact ⟨_, hn, parts, h, rfl⟩

theorem exists_encode_attribute_iff {a : Attribute} :
    (∃ bytes, a.encode = .ok bytes) ↔ a.info.length < 0x100000000 := by
  simp only [encode_attribute_eq_ok_iff, exists_and_left, exists_eq, and_true]

theorem exists_encode_member_iff {m : Member} :
    (∃ bytes, m.encode = .ok bytes) ↔
      m.attributes.length ≤ 65535 ∧ ∀ a ∈ m.attributes, a.info.length < 0x100000000 := by
  have hlist : (∃ listed, encodeCounted .attributes Attribute.encode m.attributes = .ok listed) ↔
      m.attributes.length ≤ 65535 ∧ ∀ a ∈ m.attributes, a.info.length < 0x100000000 := by
    simp only [exists_encodeCounted_iff, exists_encode_attribute_iff]
  rw [← hlist]
  simp only [encode_member_eq_ok_iff]
  constructor
  · rintro ⟨bytes, listed, h, -⟩
    exact ⟨listed, h⟩
  · rintro ⟨listed, h⟩
    exact ⟨_, listed, h, rfl⟩

/-! ## Pools -/

namespace ConstantPool

theorem encode_eq_ok_iff {p : ConstantPool} {bytes : Bytes} :
    p.encode = .ok bytes ↔ p.count ≤ maxCount ∧ ∃ parts, Encodes encodeSlot p.slots.toList parts ∧
      bytes = Bytes.ofUInt16 (UInt16.ofNat p.count) ++ parts.flatten := by
  unfold encode
  split
  · rename_i hle
    constructor
    · intro h
      obtain ⟨parts, hparts, h⟩ := except_bind_eq_ok h
      cases h
      exact ⟨hle, parts, mapM_eq_ok_iff.1 hparts, rfl⟩
    · rintro ⟨-, parts, hparts, rfl⟩
      rw [mapM_eq_ok_iff.2 hparts]
      rfl
  · rename_i hle
    simp only [reduceCtorEq, hle, false_and]

theorem exists_encode_slot_iff {slot : Option Constant} :
    (∃ bytes, encodeSlot slot = .ok bytes) ↔
      ∀ text, slot = some (.utf8 text) → text.length ≤ 65535 := by
  cases slot with
  | none => exact ⟨fun _ _ h => (by cases h), fun _ => ⟨[], rfl⟩⟩
  | some x =>
    cases x
    case utf8 text =>
      simp only [encodeSlot, Constant.encode, Option.some.injEq, Constant.utf8.injEq,
        forall_eq']
      split <;> simp_all
    all_goals exact ⟨fun _ _ h => (by cases h), fun _ => ⟨_, rfl⟩⟩

theorem exists_encode_iff {p : ConstantPool} :
    (∃ bytes, p.encode = .ok bytes) ↔
      p.count ≤ maxCount ∧ ∀ text, some (.utf8 text) ∈ p.slots → text.length ≤ 65535 := by
  have hslots : (∃ parts, Encodes encodeSlot p.slots.toList parts) ↔
      ∀ text, some (.utf8 text) ∈ p.slots → text.length ≤ 65535 := by
    rw [exists_encodes_iff]
    simp only [exists_encode_slot_iff, Array.mem_toList_iff]
    exact ⟨fun h text ht => h _ ht text rfl, fun h slot hs text e => h text (e ▸ hs)⟩
  rw [← hslots]
  simp only [encode_eq_ok_iff]
  constructor
  · rintro ⟨bytes, hle, parts, h, -⟩
    exact ⟨hle, parts, h⟩
  · rintro ⟨hle, parts, h⟩
    exact ⟨_, hle, parts, h, rfl⟩

theorem reads_pool {p : ConstantPool} {bytes : Bytes} (hp : p.Paired) (h : p.encode = .ok bytes) :
    Reads read p bytes := by
  obtain ⟨hle, parts, hparts, rfl⟩ := encode_eq_ok_iff.1 h
  obtain ⟨xs, hxs⟩ := hp
  rw [hxs] at hparts
  obtain ⟨parts', hparts', hflat⟩ := encode_slots hparts
  have hn : 1 + (xs.flatMap Constant.slots).length = p.count := by
    rw [← hxs, Array.length_toList, count, Nat.add_comm]
  have hread := (reads_slots hparts' hn).map fun slots => ConstantPool.mk slots.toArray
  rw [← hxs, Array.toArray_toList, hflat] at hread
  refine (reads_u16 _).bind ?_
  rw [UInt16.toNat_ofNat_of_lt' (Nat.lt_succ_of_le hle)]
  exact hread

/-- The pools that reading class files and adding constants lead to. -/
inductive Built : ConstantPool → Prop
  | empty : Built .empty
  | parsed {input : Bytes} {c : ClassFile} : ClassFile.parse input = .ok c → Built c.pool
  | push {p : ConstantPool} (x : Constant) : Built p → Built (leaves (push x) p)
  | utf8Index {p : ConstantPool} (s : String) : Built p → Built (leaves (utf8Index s) p)
  | integerIndex {p : ConstantPool} (v : Int32) : Built p → Built (leaves (integerIndex v) p)
  | classIndex {p : ConstantPool} (n : ClassName) : Built p → Built (leaves (classIndex n) p)

end ConstantPool

/-! ## Class files -/

namespace ClassFile

/-- All lengths of a class file fit their fields. -/
structure Fits (c : ClassFile) : Prop where
  pool : c.pool.count ≤ 65535
  texts : ∀ text, some (.utf8 text) ∈ c.pool.slots → text.length ≤ 65535
  interfaces : c.interfaces.length ≤ 65535
  fields : c.fields.length ≤ 65535
  methods : c.methods.length ≤ 65535
  attributes : c.attributes.length ≤ 65535
  memberAttributes : ∀ m ∈ c.fields ++ c.methods, m.attributes.length ≤ 65535
  bodies : ∀ a ∈ c.attributes, a.info.length < 2 ^ 32
  memberBodies : ∀ m ∈ c.fields ++ c.methods, ∀ a ∈ m.attributes, a.info.length < 2 ^ 32

/-- The bytes before the pool. -/
def head (c : ClassFile) : Bytes :=
  Bytes.ofUInt32 magic ++ Bytes.ofUInt16 c.minorVersion ++ Bytes.ofUInt16 c.majorVersion

/-- The bytes are those of everything behind the pool. -/
def Tail (c : ClassFile) (bytes : Bytes) : Prop :=
  ∃ interfaces fields methods attributes,
    encodeCounted .interfaces (fun i => .ok (Bytes.ofUInt16 i)) c.interfaces = .ok interfaces ∧
    encodeCounted .fields Member.encode c.fields = .ok fields ∧
    encodeCounted .methods Member.encode c.methods = .ok methods ∧
    encodeCounted .attributes Attribute.encode c.attributes = .ok attributes ∧
    bytes = Bytes.ofUInt16 c.accessFlags.bits ++ (Bytes.ofUInt16 c.thisClass ++
      (Bytes.ofUInt16 c.superClass ++ (interfaces ++ (fields ++ (methods ++ attributes)))))

theorem toBytes_eq_ok_iff {c : ClassFile} {bytes : Bytes} :
    c.toBytes = .ok bytes ↔ ∃ pool tail, c.pool.encode = .ok pool ∧ Tail c tail ∧
      bytes = c.head ++ (pool ++ tail) := by
  constructor
  · intro h
    obtain ⟨pool, h₁, h⟩ := except_bind_eq_ok h
    obtain ⟨interfaces, h₂, h⟩ := except_bind_eq_ok h
    obtain ⟨fields, h₃, h⟩ := except_bind_eq_ok h
    obtain ⟨methods, h₄, h⟩ := except_bind_eq_ok h
    obtain ⟨attributes, h₅, h⟩ := except_bind_eq_ok h
    cases h
    exact ⟨pool, _, h₁, ⟨_, _, _, _, h₂, h₃, h₄, h₅, rfl⟩, by simp only [head, List.append_assoc]⟩
  · rintro ⟨pool, tail, h₁, ⟨interfaces, fields, methods, attributes, h₂, h₃, h₄, h₅, rfl⟩, rfl⟩
    rw [toBytes, h₁, h₂, h₃, h₄, h₅]
    simp only [head, bind, Except.bind, pure, Except.pure, List.append_assoc]

theorem exists_toBytes_iff {c : ClassFile} : (∃ bytes, c.toBytes = .ok bytes) ↔ c.Fits := by
  constructor
  · rintro ⟨bytes, h⟩
    obtain ⟨pool, tail, h₁, ⟨interfaces, fields, methods, attributes, h₂, h₃, h₄, h₅, -⟩, -⟩ :=
      toBytes_eq_ok_iff.1 h
    have hpool := ConstantPool.exists_encode_iff.1 ⟨_, h₁⟩
    have hinterfaces := exists_encodeCounted_iff.1 ⟨_, h₂⟩
    have hfields := exists_encodeCounted_iff.1 ⟨_, h₃⟩
    have hmethods := exists_encodeCounted_iff.1 ⟨_, h₄⟩
    have hattributes := exists_encodeCounted_iff.1 ⟨_, h₅⟩
    simp only [exists_encode_member_iff] at hfields hmethods
    simp only [exists_encode_attribute_iff] at hattributes
    refine ⟨hpool.1, hpool.2, hinterfaces.1, hfields.1, hmethods.1, hattributes.1, ?_,
      hattributes.2, ?_⟩
    · intro m hm
      rcases List.mem_append.1 hm with hm | hm
      · exact (hfields.2 m hm).1
      · exact (hmethods.2 m hm).1
    · intro m hm
      rcases List.mem_append.1 hm with hm | hm
      · exact (hfields.2 m hm).2
      · exact (hmethods.2 m hm).2
  · intro h
    have hmember : ∀ m ∈ c.fields ++ c.methods, ∃ bytes, m.encode = .ok bytes := fun m hm =>
      exists_encode_member_iff.2 ⟨h.memberAttributes m hm, h.memberBodies m hm⟩
    obtain ⟨pool, h₁⟩ := ConstantPool.exists_encode_iff.2 ⟨h.pool, h.texts⟩
    obtain ⟨interfaces, h₂⟩ : ∃ interfaces,
        encodeCounted .interfaces (fun i => .ok (Bytes.ofUInt16 i)) c.interfaces = .ok interfaces :=
      exists_encodeCounted_iff.2 ⟨h.interfaces, fun i _ => ⟨_, rfl⟩⟩
    obtain ⟨fields, h₃⟩ : ∃ fields, encodeCounted .fields Member.encode c.fields = .ok fields :=
      exists_encodeCounted_iff.2
        ⟨h.fields, fun m hm => hmember m (List.mem_append_left _ hm)⟩
    obtain ⟨methods, h₄⟩ : ∃ methods,
        encodeCounted .methods Member.encode c.methods = .ok methods :=
      exists_encodeCounted_iff.2
        ⟨h.methods, fun m hm => hmember m (List.mem_append_right _ hm)⟩
    obtain ⟨attributes, h₅⟩ : ∃ attributes,
        encodeCounted .attributes Attribute.encode c.attributes = .ok attributes :=
      exists_encodeCounted_iff.2
        ⟨h.attributes, fun a ha => exists_encode_attribute_iff.2 (h.bodies a ha)⟩
    exact ⟨_, toBytes_eq_ok_iff.2 ⟨pool, _, h₁, ⟨_, _, _, _, h₂, h₃, h₄, h₅, rfl⟩, rfl⟩⟩

theorem reads_classFile {c : ClassFile} {bytes : Bytes} (hp : c.pool.Paired)
    (h : c.toBytes = .ok bytes) : Reads read c bytes := by
  obtain ⟨pool, tail, h₁, ⟨interfaces, fields, methods, attributes, h₂, h₃, h₄, h₅, rfl⟩, rfl⟩ :=
    toBytes_eq_ok_iff.1 h
  rw [head, List.append_assoc, List.append_assoc]
  refine (reads_u32 magic).bind ?_
  rw [if_neg (not_not_intro rfl)]
  exact (reads_u16 _).bind ((reads_u16 _).bind ((ConstantPool.reads_pool hp h₁).bind
    ((reads_u16 _).bind ((reads_u16 _).bind ((reads_u16 _).bind
    (((coded_counted coded_u16 .interfaces).reads h₂).bind
    (((coded_counted coded_member .fields).reads h₃).bind
    (((coded_counted coded_member .methods).reads h₄).bind
    (((coded_counted coded_attribute .attributes).reads h₅).map
      (ClassFile.mk _ _ _ _ _ _ _ _ _))))))))))

theorem parse_toBytes {c : ClassFile} {bytes : Bytes} (hp : c.pool.Paired)
    (h : c.toBytes = .ok bytes) : parse bytes = .ok c := by
  have hr := reads_classFile hp h 0 []
  rw [List.append_nil] at hr
  have hrun : read.run bytes = .ok (c, ⟨0 + bytes.length, []⟩) := hr
  rw [parse, hrun]

/-! ## What was read -/

/-- The parts of a byte string that was read as a class file: what stands
before the declared count of its pool, that count, the constants, and what
stands behind them. -/
structure Parts (c : ClassFile) (input : Bytes) (count : UInt16) (xs : List Constant)
    (parts : List Bytes) (tail : Bytes) : Prop where
  input : input = c.head ++ (Bytes.ofUInt16 count ++ (parts.flatten ++ tail))
  slots : c.pool.slots.toList = xs.flatMap Constant.slots
  constants : Encodes Constant.encode xs parts
  filled : count.toNat < 1 ∧ xs = [] ∨ ConstantPool.Filled count.toNat 1 xs
  tail : Tail c tail

theorem exists_parts {input : Bytes} {c : ClassFile} (h : parse input = .ok c) :
    ∃ count xs parts tail, Parts c input count xs parts tail := by
  unfold parse at h
  split at h
  · cases h
  rename_i c' cursor hread
  split at h <;> cases h
  rename_i hend
  obtain ⟨first, c₁, h₁, hread⟩ := bind_eq_ok hread
  by_cases hmagic : first = magic
  case neg => rw [if_pos hmagic] at hread; cases hread
  rw [if_neg (not_not_intro hmagic)] at hread
  subst hmagic
  obtain ⟨minorVersion, c₂, h₂, hread⟩ := bind_eq_ok hread
  obtain ⟨majorVersion, c₃, h₃, hread⟩ := bind_eq_ok hread
  obtain ⟨pool, c₄, h₄, hread⟩ := bind_eq_ok hread
  obtain ⟨accessFlags, c₅, h₅, hread⟩ := bind_eq_ok hread
  obtain ⟨thisClass, c₆, h₆, hread⟩ := bind_eq_ok hread
  obtain ⟨superClass, c₇, h₇, hread⟩ := bind_eq_ok hread
  obtain ⟨interfaces, c₈, h₈, hread⟩ := bind_eq_ok hread
  obtain ⟨fields, c₉, h₉, hread⟩ := bind_eq_ok hread
  obtain ⟨methods, c₁₀, h₁₀, hread⟩ := bind_eq_ok hread
  obtain ⟨attributes, c₁₁, h₁₁, hread⟩ := bind_eq_ok hread
  cases hread
  obtain ⟨count, c₄', hcount, h₄⟩ := bind_eq_ok h₄
  obtain ⟨slots, c₄'', hslots, h₄⟩ := bind_eq_ok h₄
  cases h₄
  obtain ⟨xs, parts, rfl, hparts, hrest, hfilled⟩ := ConstantPool.slots_taken hslots
  obtain ⟨b₈, hb₈, hr₈⟩ := (coded_counted coded_u16 .interfaces).taken h₈
  obtain ⟨b₉, hb₉, hr₉⟩ := (coded_counted coded_member .fields).taken h₉
  obtain ⟨b₁₀, hb₁₀, hr₁₀⟩ := (coded_counted coded_member .methods).taken h₁₀
  obtain ⟨b₁₁, hb₁₁, hr₁₁⟩ := (coded_counted coded_attribute .attributes).taken h₁₁
  refine ⟨count, xs, parts, _, ?_, by simp, hparts, hfilled,
    b₈, b₉, b₁₀, b₁₁, hb₈, hb₉, hb₁₀, hb₁₁, rfl⟩
  have hinput := u32_eq_ok h₁
  rw [u16_eq_ok h₂, u16_eq_ok h₃, u16_eq_ok hcount, hrest, u16_eq_ok h₅, u16_eq_ok h₆,
    u16_eq_ok h₇, hr₈, hr₉, hr₁₀, hr₁₁, hend, List.append_nil] at hinput
  simpa only [head, List.append_assoc] using hinput

theorem Parts.length_le {c : ClassFile} {input : Bytes} {count : UInt16} {xs : List Constant}
    {parts : List Bytes} {tail : Bytes} (h : Parts c input count xs parts tail) :
    c.pool.slots.size ≤ ConstantPool.maxCount := by
  rw [← Array.length_toList, h.slots]
  exact ConstantPool.length_le_of_filled h.filled

theorem paired_of_parse {input : Bytes} {c : ClassFile} (h : parse input = .ok c) :
    c.pool.Paired := by
  obtain ⟨count, xs, parts, tail, hc⟩ := exists_parts h
  exact ⟨xs, hc.slots⟩

theorem size_of_parse {input : Bytes} {c : ClassFile} (h : parse input = .ok c) :
    c.pool.slots.size ≤ ConstantPool.maxCount := by
  obtain ⟨count, xs, parts, tail, hc⟩ := exists_parts h
  exact hc.length_le

end ClassFile

theorem ConstantPool.Built.paired {p : ConstantPool} (h : Built p) : p.Paired := by
  induction h with
  | empty => exact paired_empty
  | parsed h => exact ClassFile.paired_of_parse h
  | push x _ ih => exact (appends_push x _).paired ih
  | utf8Index s _ ih => exact (appends_utf8Index s _).paired ih
  | integerIndex v _ ih => exact (appends_integerIndex v _).paired ih
  | classIndex n _ ih => exact (appends_classIndex n _).paired ih

/-- A class file over a pool that reading and adding constants lead to has
bytes exactly if its lengths fit, and these are read as the class file. -/
theorem ClassFile.encodes_iff_fits_and_parses_back {c : ClassFile} (h : c.pool.Built) :
    ((∃ bytes, c.toBytes = .ok bytes) ↔ c.Fits) ∧
      ∀ bytes, c.toBytes = .ok bytes → parse bytes = .ok c :=
  ⟨exists_toBytes_iff, fun _ => parse_toBytes h.paired⟩

namespace ClassFile

/-- A class file with a constant of eight bytes, a text, an interface, and a field with an
attribute. -/
def wideSample : ClassFile :=
  { empty with
    pool := leaves (ConstantPool.utf8Index "a") (leaves (ConstantPool.push (.long 1)) .empty)
    interfaces := [3]
    fields := [{ accessFlags := .empty, nameIndex := 3, descriptorIndex := 3,
                 attributes := [{ nameIndex := 3, info := [0, 1] }] }] }

/-- Its bytes: the versions and the pool, the header and the interface, the field, and
neither methods nor attributes. -/
def wideBytes : Bytes :=
  [0xCA, 0xFE, 0xBA, 0xBE, 0, 0, 0, 0, 0, 4, 5, 0, 0, 0, 0, 0, 0, 0, 1, 1, 0, 1, 97] ++
    [0, 0, 0, 0, 0, 0, 0, 1, 0, 3] ++
    [0, 1, 0, 0, 0, 3, 0, 3, 0, 1, 0, 3, 0, 0, 0, 2, 0, 1] ++
    [0, 0, 0, 0]

theorem wideSample_parses_back : wideSample.pool.Built ∧ wideSample.Fits ∧
    wideSample.toBytes = .ok wideBytes ∧ parse wideBytes = .ok wideSample :=
  have h : wideSample.pool.Built := .utf8Index "a" (.push (.long 1) .empty)
  have hbytes : wideSample.toBytes = .ok wideBytes := by decide +kernel
  ⟨h, (encodes_iff_fits_and_parses_back h).1.1 ⟨_, hbytes⟩, hbytes,
    (encodes_iff_fits_and_parses_back h).2 _ hbytes⟩

end ClassFile

end ClassStamp
