import ClassStamp.ClassFile.Error

/-!
# The constant pool

The table of constants that the rest of a class file points into. Indices
begin at one. A constant of eight bytes takes two slots, of which the second
is unusable, and constants are only ever added at the end, so an index stays
valid once it was given out.

* `ConstantPool.get?` looks an index up, and `utf8`, `utf8Bytes` and
  `className` look up what it stands for;
* `ConstantPool.holders` looks for one text in all slots at once, and
  `ConstantPool.cells` keeps what was looked up, for when many indices are the
  same; `isMarked_holders` and `valueAt_cells` say that nothing else changes;
* `ConstantPool.push` adds a constant, and `utf8Index`, `integerIndex` and
  `classIndex` add one only if no equal one is there.
-/

namespace ClassStamp

/-- A constant of a class file. -/
inductive Constant
  | utf8 (bytes : Bytes)
  | integer (value : Int32)
  | float (bits : UInt32)
  | long (value : Int64)
  | double (bits : UInt64)
  | classRef (nameIndex : UInt16)
  | string (stringIndex : UInt16)
  | fieldRef (classIndex nameAndTypeIndex : UInt16)
  | methodRef (classIndex nameAndTypeIndex : UInt16)
  | interfaceMethodRef (classIndex nameAndTypeIndex : UInt16)
  | nameAndType (nameIndex descriptorIndex : UInt16)
  | methodHandle (referenceKind : UInt8) (referenceIndex : UInt16)
  | methodType (descriptorIndex : UInt16)
  | dynamic (bootstrapMethodIndex nameAndTypeIndex : UInt16)
  | invokeDynamic (bootstrapMethodIndex nameAndTypeIndex : UInt16)
  | moduleRef (nameIndex : UInt16)
  | packageRef (nameIndex : UInt16)
  deriving DecidableEq

namespace Constant

/-- Whether the constant takes two slots. -/
def isWide : Constant → Bool
  | long _ | double _ => true
  | _ => false

/-- The slots that the constant takes. -/
def slots (c : Constant) : List (Option Constant) :=
  if c.isWide then [some c, none] else [some c]

end Constant

/-- The constants of a class file in file order. -/
structure ConstantPool where
  /-- The slots from index one on; an unusable slot holds no constant. -/
  slots : Array (Option Constant)
  deriving DecidableEq

namespace ConstantPool

/-- The largest value of the count of a pool in a class file. -/
def maxCount : Nat := 65535

/-- The pool without constants. -/
def empty : ConstantPool := ⟨#[]⟩

instance : Inhabited ConstantPool := ⟨empty⟩

/-- The number of slots and one, which is the index of the next constant. -/
def count (p : ConstantPool) : Nat := p.slots.size + 1

/-- The constant at an index. -/
def get? (p : ConstantPool) (index : UInt16) : Option Constant :=
  if index = 0 then none else p.slots.getD (index.toNat - 1) none

/-- The constants with their indices, in file order. -/
def toList (p : ConstantPool) : List (UInt16 × Constant) :=
  p.slots.toList.zipIdx.filterMap fun (slot, i) => slot.map fun c => (UInt16.ofNat (i + 1), c)

/-- The bytes of the text at an index. -/
def utf8Bytes (p : ConstantPool) (index : UInt16) : Except ClassFileError Bytes :=
  match p.get? index with
  | some (.utf8 bytes) => .ok bytes
  | _ => .error (.invalidConstantIndex index .utf8)

/-- The text at an index. -/
def utf8 (p : ConstantPool) (index : UInt16) : Except ClassFileError String :=
  match p.utf8Bytes index with
  | .error e => .error e
  | .ok bytes => match ModifiedUtf8.decode bytes with
    | .error reason => .error (.invalidUtf8 reason)
    | .ok s => .ok s

/-- The class name at an index. -/
def className (p : ConstantPool) (index : UInt16) : Except ClassFileError ClassName :=
  match p.get? index with
  | some (.classRef nameIndex) => match p.utf8 nameIndex with
    | .error e => .error e
    | .ok s => match ClassName.ofInternal? s with
      | .error reason => .error (.invalidName reason)
      | .ok n => .ok n
  | _ => .error (.invalidConstantIndex index .classRef)

/-! ## Many look-ups in one pool -/

/-- Whether a slot holds the text with the given bytes. -/
def holdsText (text : Bytes) : Option Constant → Bool
  | some (.utf8 bytes) => bytes == text
  | _ => false

/-- For every slot, whether it holds the text with the given bytes. -/
def holders (p : ConstantPool) (text : Bytes) : Array Bool := p.slots.map (holdsText text)

/-- Whether the slot at an index is marked. -/
def isMarked (marks : Array Bool) (index : UInt16) : Bool :=
  index != 0 && marks.getD (index.toNat - 1) false

theorem holdsText_eq (text : Bytes) (slot : Option Constant) :
    holdsText text slot = (slot == some (.utf8 text)) := by
  unfold holdsText
  split
  · rename_i bytes
    by_cases h : bytes = text
    · simp [h]
    · simp [h, beq_false_of_ne (fun e : some (Constant.utf8 bytes) = some (.utf8 text) =>
        h (by simpa using e))]
  · rename_i h
    exact (beq_false_of_ne fun e => h text e).symm

/-- The marked slots are those at whose index the text is. -/
theorem isMarked_holders (p : ConstantPool) (text : Bytes) (index : UInt16) :
    isMarked (p.holders text) index = (p.get? index == some (.utf8 text)) := by
  unfold isMarked holders get?
  by_cases h : index = 0
  · simp [h]
  · simp only [h, if_false, Array.getD_eq_getD_getElem?, Array.getElem?_map]
    cases hs : p.slots[index.toNat - 1]? with
    | none => simp
    | some slot => simp [h, holdsText_eq]

/-- The values of a function of the indices of the pool. Each is computed when
it is first asked for, and then kept. -/
def cells {α : Type} (p : ConstantPool) (f : UInt16 → α) : Array (Thunk α) :=
  Array.ofFn (n := p.count) fun i => Thunk.mk fun _ => f (UInt16.ofNat i)

/-- The value of a function at an index, from the values that were kept if it
is among them. -/
def valueAt {α : Type} (cells : Array (Thunk α)) (f : UInt16 → α) (index : UInt16) : α :=
  match cells[index.toNat]? with
  | some cell => cell.get
  | none => f index

theorem valueAt_cells {α : Type} (p : ConstantPool) (f : UInt16 → α) :
    valueAt (p.cells f) f = f := by
  funext index
  unfold valueAt cells
  by_cases h : index.toNat < p.count
  · simp [h, Thunk.get]
  · simp [h]

/-! ## Looking for constants -/

/-- Whether a slot holds the given constant. -/
def holds : Constant → Option Constant → Bool
  | .utf8 text, slot => holdsText text slot
  | c, slot => slot == some c

theorem holds_eq (c : Constant) (slot : Option Constant) : holds c slot = (slot == some c) := by
  unfold holds
  split
  · exact holdsText_eq _ slot
  · rfl

/-- The index of the first constant equal to `c`. -/
def find? (p : ConstantPool) (c : Constant) : Option UInt16 :=
  (p.slots.findIdx? (holds c)).map fun i => UInt16.ofNat (i + 1)

/-- The index of the first constant with the given text. -/
def findUtf8? (p : ConstantPool) (s : String) : Option UInt16 :=
  p.find? (.utf8 (ModifiedUtf8.encode s))

/-- A change of the pool. What was added before a change failed stays. -/
abbrev Edit := EStateM ClassFileError ConstantPool

/-- Adds slots at the end, if the pool has room for them, and gives the index
of the first one. -/
def append (slots : List (Option Constant)) : Edit UInt16 := fun p =>
  if maxCount < p.count + slots.length then .error .constantPoolOverflow p
  else .ok (UInt16.ofNat p.count) ⟨slots.foldl Array.push p.slots⟩

/-- Adds a constant at the end and gives its index. -/
def push (c : Constant) : Edit UInt16 := append c.slots

/-- Adds an unusable slot at the end and gives its index. -/
def pushUnusable : Edit UInt16 := append [none]

/-- The index of a constant, which is added unless the pool has it. -/
def indexOf (c : Constant) : Edit UInt16 := fun p =>
  match p.find? c with
  | some index => .ok index p
  | none => push c p

/-- The index of a text, which is added unless the pool has it. -/
def utf8Index (s : String) : Edit UInt16 := indexOf (.utf8 (ModifiedUtf8.encode s))

/-- The index of an integer, which is added unless the pool has it. -/
def integerIndex (value : Int32) : Edit UInt16 := indexOf (.integer value)

/-- The index of a class, which is added unless the pool has it. -/
def classIndex (n : ClassName) : Edit UInt16 := do
  let nameIndex ← utf8Index n.internal
  indexOf (.classRef nameIndex)

/-! ## Doing an edit again -/

/-- Whether a pool begins with all slots of another one. -/
def Extends (q p : ConstantPool) : Prop := ∃ added, q.slots = p.slots ++ added

theorem Extends.refl (p : ConstantPool) : Extends p p := ⟨#[], by simp⟩

theorem Extends.trans {p q r : ConstantPool} (h : Extends q p) (h' : Extends r q) :
    Extends r p := by
  obtain ⟨xs, hxs⟩ := h
  obtain ⟨ys, hys⟩ := h'
  exact ⟨xs ++ ys, by rw [hys, hxs, Array.append_assoc]⟩

/-- What was found is found at the same index in every longer pool. -/
theorem find?_of_extends {p q : ConstantPool} {c : Constant} {index : UInt16}
    (h : p.find? c = some index) (hq : Extends q p) : q.find? c = some index := by
  obtain ⟨added, hadded⟩ := hq
  obtain ⟨i, hi, rfl⟩ := Option.map_eq_some_iff.1 h
  simp [find?, hadded, Array.findIdx?_append, hi]

/-- An edit that, once it went well, changes no longer pool and gives the same
answer there. -/
def Settles {α : Type} (edit : Edit α) : Prop :=
  ∀ p a q, edit p = .ok a q → Extends q p ∧ ∀ r, Extends r q → edit r = .ok a r

theorem settles_pure {α : Type} (a : α) : Settles (pure a) := by
  rintro p b q h
  cases h
  exact ⟨.refl p, fun r _ => rfl⟩

theorem settles_bind {α β : Type} {edit : Edit α} {next : α → Edit β} (h : Settles edit)
    (hnext : ∀ a, Settles (next a)) : Settles (edit >>= next) := by
  intro p b r hr
  simp only [bind, EStateM.bind] at hr
  split at hr
  · rename_i a q hq
    obtain ⟨hqp, hq'⟩ := h p a q hq
    obtain ⟨hrq, hr'⟩ := hnext a q b r hr
    refine ⟨hqp.trans hrq, fun s hs => ?_⟩
    simp only [bind, EStateM.bind, hq' s (hrq.trans hs), hr' s hs]
  · cases hr

theorem find?_push {p q : ConstantPool} {c : Constant} {index : UInt16} (hc : p.find? c = none)
    (h : push c p = .ok index q) : Extends q p ∧ q.find? c = some index := by
  unfold push append at h
  split at h
  · cases h
  · cases h
    have hslots : c.slots.foldl Array.push p.slots = p.slots ++ c.slots.toArray := by simp
    refine ⟨⟨c.slots.toArray, hslots⟩, ?_⟩
    have hnone : p.slots.findIdx? (holds c) = none := Option.map_eq_none_iff.1 hc
    have hfirst : c.slots.toArray.findIdx? (holds c) = some 0 := by
      unfold Constant.slots
      split <;> simp [List.findIdx?_cons, holds_eq]
    simp only [find?, hslots, Array.findIdx?_append, hnone, hfirst]
    simp [count]

theorem settles_indexOf (c : Constant) : Settles (indexOf c) := by
  intro p index q h
  unfold indexOf at h
  have key : Extends q p ∧ q.find? c = some index := by
    split at h
    · cases h
      exact ⟨.refl _, by assumption⟩
    · exact find?_push (by assumption) h
  refine ⟨key.1, fun r hr => ?_⟩
  simp [indexOf, find?_of_extends key.2 hr]

theorem settles_utf8Index (s : String) : Settles (utf8Index s) := settles_indexOf _

theorem settles_classIndex (n : ClassName) : Settles (classIndex n) :=
  settles_bind (settles_utf8Index _) fun _ => settles_indexOf _

end ConstantPool

end ClassStamp
