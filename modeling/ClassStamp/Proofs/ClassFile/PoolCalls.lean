import ClassStamp.Proofs.ClassFile.Interning

/-!
# The calls on a constant pool

A pool begins empty or is read from bytes, and then constants are asked for one after the
other. Some of them are added, some are there already, and some find no room. Whatever was
asked for, the pool is in order, and an index that was given out stands for the same for good.

* `Trailed` and `Paired.trailed`: the slots that hold nothing are those just behind a constant
  of eight bytes;
* `push_eq_error`, `exists_push_iff`: a constant is added exactly if there is room for it;
* `Call`, `after`, `Reached`: what is asked for, and the pools that it leads to;
* `Call.FoundAt`: what the index leads to, `foundAt_of_run` and `foundAt_after`: it does so,
  and goes on to;
* `run_again`: what was looked for once is found ever after;
* `pool_in_order`: all that together.
-/

namespace ClassStamp

namespace ConstantPool

variable {p q : ConstantPool} {index : UInt16}

/-! ## Unusable slots -/

/-- A slot holds nothing exactly if the one before it holds a constant of eight bytes. -/
def Trailed (slots : List (Option Constant)) : Prop :=
  slots[0]? ≠ some none ∧
    ∀ i, slots[i + 1]? = some none ↔ ∃ x, slots[i]? = some (some x) ∧ x.isWide = true

theorem trailed_flatMap (xs : List Constant) : Trailed (xs.flatMap Constant.slots) := by
  induction xs with
  | nil => exact ⟨by simp, by simp⟩
  | cons x xs ih =>
    obtain ⟨hfirst, hnext⟩ := ih
    rw [List.flatMap_cons]
    by_cases hwide : x.isWide = true
    · rw [Constant.slots, if_pos hwide]
      refine ⟨by simp, fun i => ?_⟩
      match i with
      | 0 => simp [hwide]
      | 1 => simpa using hfirst
      | i + 2 => exact hnext i
    · rw [Constant.slots, if_neg hwide]
      refine ⟨by simp, fun i => ?_⟩
      match i with
      | 0 => simpa [hwide] using hfirst
      | i + 1 => exact hnext i

theorem Paired.trailed (h : Paired p) : Trailed p.slots.toList := by
  obtain ⟨xs, hxs⟩ := h
  rw [hxs]
  exact trailed_flatMap xs

/-! ## Pools that were read -/

theorem paired_of_read {c c' : Cursor} (h : read c = .ok (p, c')) :
    Paired p ∧ p.slots.size ≤ maxCount := by
  obtain ⟨count, c₁, -, h⟩ := Decoder.bind_eq_ok h
  obtain ⟨slots, c₂, hslots, h⟩ := Decoder.bind_eq_ok h
  cases h
  obtain ⟨xs, parts, rfl, -, -, hfilled⟩ := slots_taken hslots
  refine ⟨⟨xs, List.toList_toArray⟩, ?_⟩
  rw [List.size_toArray]
  exact length_le_of_filled hfilled

/-! ## Room -/

theorem push_eq_error {x : Constant} {e : ClassFileError} (h : push x p = .error e q) :
    e = .constantPoolOverflow ∧ q = p := by
  unfold push append at h
  split at h <;> cases h
  exact ⟨rfl, rfl⟩

theorem exists_push_iff {x : Constant} : (∃ index q, push x p = .ok index q) ↔
    p.count + (if x.isWide = true then 2 else 1) ≤ 65535 := by
  rw [← x.length_slots]
  constructor
  · rintro ⟨index, q, h⟩
    exact (push_eq_ok h).1
  · intro hroom
    obtain ⟨index, q, h, -⟩ := takesAtMost_push x p hroom
    exact ⟨index, q, h⟩

/-! ## Calls -/

/-- What a pool is asked for: to add a constant, or to look for a text, an integer or a class
and add it only if it is not there. -/
inductive Call
  | push (x : Constant)
  | text (s : String)
  | integer (v : Int32)
  | classRef (n : ClassName)

namespace Call

/-- The index that is asked for. -/
def run : Call → ConstantPool.Edit UInt16
  | push x => ConstantPool.push x
  | text s => utf8Index s
  | integer v => integerIndex v
  | classRef n => classIndex n

/-- Whether the pool is looked through first. -/
def looksFirst : Call → Bool
  | push _ => false
  | _ => true

/-- The index leads to what was asked for. -/
def FoundAt (p : ConstantPool) (index : UInt16) : Call → Prop
  | push x => p.get? index = some x
  | text s => p.get? index = some (.utf8 (ModifiedUtf8.encode s)) ∧ p.utf8 index = .ok s
  | integer v => p.get? index = some (.integer v)
  | classRef n => p.className index = .ok n ∧ ∃ textIndex,
      p.get? index = some (.classRef textIndex) ∧
        p.get? textIndex = some (.utf8 (ModifiedUtf8.encode n.internal))

end Call

variable {call : Call}

theorem appends_run (call : Call) : Keeps Appends call.run := by
  cases call with
  | push x => exact appends_push x
  | text s => exact appends_utf8Index s
  | integer v => exact appends_integerIndex v
  | classRef n => exact appends_classIndex n

/-- The pool after some calls, of which some may have failed. -/
def after (calls : List Call) (p : ConstantPool) : ConstantPool :=
  calls.foldl (fun p call => leaves call.run p) p

theorem appends_after (calls : List Call) (p : ConstantPool) : Appends p (after calls p) := by
  induction calls generalizing p with
  | nil => exact .refl p
  | cons call calls ih => exact (appends_run call p).trans (ih _)

/-- The pools that calls lead to, from an empty pool or from one that was read. -/
inductive Reached : ConstantPool → Prop
  | empty : Reached .empty
  | read {c c' : Cursor} {p : ConstantPool} (h : ConstantPool.read c = .ok (p, c')) : Reached p
  | called {p : ConstantPool} (call : Call) (h : Reached p) : Reached (leaves call.run p)

theorem Reached.paired (h : Reached p) : Paired p ∧ p.slots.size ≤ maxCount := by
  induction h with
  | empty => exact ⟨paired_empty, Nat.zero_le _⟩
  | read h => exact paired_of_read h
  | @called p call _ ih =>
    have happends := appends_run call p
    exact ⟨happends.paired ih.1, happends.size_le_maxCount ih.2⟩

/-! ## Where it is found -/

theorem foundAt_of_appends (h : call.FoundAt p index) (hq : Appends p q) :
    call.FoundAt q index := by
  cases call with
  | push x => exact get?_of_appends h hq
  | text s => exact ⟨get?_of_appends h.1 hq, utf8_of_appends h.2 hq⟩
  | integer v => exact get?_of_appends h hq
  | classRef n =>
    obtain ⟨hname, textIndex, hclass, htext⟩ := h
    exact ⟨className_of_appends hname hq, textIndex, get?_of_appends hclass hq,
      get?_of_appends htext hq⟩

theorem foundAt_of_run (hle : p.slots.size ≤ maxCount) (h : call.run p = .ok index q) :
    call.FoundAt q index := by
  cases call with
  | push x => exact get?_of_push h
  | text s =>
    have htext : q.get? index = some (.utf8 (ModifiedUtf8.encode s)) := get?_of_indexOf hle h
    exact ⟨htext, utf8_of_get? htext⟩
  | integer v => exact get?_of_indexOf hle h
  | classRef n =>
    obtain ⟨textIndex, between, htext, hclass⟩ := estate_bind_eq_ok h
    have hbetween := (appends_utf8Index _).ok htext
    have hq := (appends_indexOf _).ok hclass
    exact ⟨className_of_classIndex hle h, textIndex,
      get?_of_indexOf (hbetween.size_le_maxCount hle) hclass,
      get?_of_appends (get?_of_indexOf hle htext) hq⟩

theorem foundAt_after (hle : p.slots.size ≤ maxCount) (h : call.run p = .ok index q)
    (later : List Call) : call.FoundAt (after later q) index :=
  foundAt_of_appends (foundAt_of_run hle h) (appends_after later q)

theorem settles_run (h : call.looksFirst = true) : Settles call.run := by
  cases call with
  | push x => cases h
  | text s => exact settles_utf8Index s
  | integer v => exact settles_indexOf (.integer v)
  | classRef n => exact settles_classIndex n

/-- What was looked for once is found there whenever it is looked for again, and nothing is
added. -/
theorem run_again (hlooks : call.looksFirst = true) (h : call.run p = .ok index q)
    (later : List Call) : call.run (after later q) = .ok index (after later q) :=
  (settles_run hlooks p index q h).2 _ (extends_of_appends (appends_after later q))

/-- Whatever was asked for, the unusable slots are those behind constants of eight bytes, a
constant is added exactly if it has room and else nothing changes, and an index that is given
out leads to what it was given for, then and after any later calls. Looking for it again
gives the same index and adds nothing. -/
theorem pool_in_order (h : Reached p) :
    Trailed p.slots.toList ∧
    (∀ x, (∃ index q, push x p = .ok index q) ↔
      p.count + (if x.isWide = true then 2 else 1) ≤ 65535) ∧
    (∀ x e q, push x p = .error e q → e = .constantPoolOverflow ∧ q = p) ∧
    ∀ (call : Call) index q, call.run p = .ok index q → ∀ later,
      call.FoundAt (after later q) index ∧
      (call.looksFirst = true → call.run (after later q) = .ok index (after later q)) := by
  obtain ⟨hpaired, hle⟩ := h.paired
  refine ⟨hpaired.trailed, fun x => exists_push_iff, fun x e q => push_eq_error, ?_⟩
  intro call index q hrun later
  exact ⟨foundAt_after hle hrun later, fun hlooks => run_again hlooks hrun later⟩

/-! ## A constant that overhangs -/

/-- The bytes of a pool of one slot, in which a constant of eight bytes begins. -/
def overhangingPoolBytes : Bytes := [0, 2, 5, 0, 0, 0, 0, 0, 0, 0, 1]

/-- The pool that they are read as, which has both slots of the constant. -/
def overhangingPool : ConstantPool := leaves (push (.long 1)) .empty

theorem reached_overhangingPool : Reached overhangingPool := by
  have hread : (read ⟨0, overhangingPoolBytes⟩).map Prod.fst = .ok overhangingPool := by
    decide +kernel
  cases h : read ⟨0, overhangingPoolBytes⟩ with
  | error e =>
    rw [h] at hread
    cases hread
  | ok result =>
    obtain ⟨p, c'⟩ := result
    rw [h] at hread
    obtain rfl : p = overhangingPool := Except.ok.inj hread
    exact .read h

/-- The name `Shape`. -/
def shapeName : ClassName :=
  ⟨"Shape", by constructor <;> simp [Text.split, ClassName.isForbidden]⟩

/-- The name of a class that is asked for comes into the slot behind the overhanging constant,
and the class behind its name, where both are found from then on. -/
theorem class_behind_overhang : Reached overhangingPool ∧ Trailed overhangingPool.slots.toList ∧
    ∃ q, (Call.classRef shapeName).run overhangingPool = .ok 4 q ∧ ∀ later,
      (Call.classRef shapeName).FoundAt (after later q) 4 ∧
      (Call.classRef shapeName).run (after later q) = .ok 4 (after later q) := by
  have hfour : (match (Call.classRef shapeName).run overhangingPool with
      | .ok index _ => index == 4
      | .error _ _ => false) = true := by
    decide +kernel
  obtain ⟨htrailed, -, -, hcalls⟩ := pool_in_order reached_overhangingPool
  cases hrun : (Call.classRef shapeName).run overhangingPool with
  | error e q =>
    rw [hrun] at hfour
    cases hfour
  | ok index q =>
    rw [hrun] at hfour
    obtain rfl := beq_iff_eq.1 hfour
    refine ⟨reached_overhangingPool, htrailed, q, rfl, fun later => ?_⟩
    obtain ⟨hfound, hagain⟩ := hcalls _ _ _ hrun later
    exact ⟨hfound, hagain rfl⟩

end ConstantPool

end ClassStamp
