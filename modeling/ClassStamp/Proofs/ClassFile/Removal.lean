import ClassStamp.Proofs.ClassFile.Growth

/-!
# Class files without some fields

Removing a field takes away the first one of its name. If no two fields have the
same name, that is all of them, and what is left of a class file when one field
after the other was removed depends on their names only.

* `DistinctFields`: no two fields have the same name;
* `without`: a class file without the fields of some names;
* `withoutFirst`: a class file without the first field of each name;
* `removeField_eq_eraseP`: what removing a field leaves, and `withoutFirst_eq`: if no two
  fields have the same name, all fields of the names are gone.
-/

namespace ClassStamp

/-- Of elements no two of which are wanted, all wanted ones are gone with the first
one. -/
theorem eraseP_eq_filter {α : Type} {p : α → Bool} {xs : List α}
    (h : xs.Pairwise fun a b => p a = true → ¬ p b = true) : xs.eraseP p = xs.filter (!p ·) := by
  induction xs with
  | nil => rfl
  | cons x xs ih =>
    obtain ⟨hx, hxs⟩ := List.pairwise_cons.1 h
    cases hp : p x with
    | true =>
      rw [List.eraseP_cons_of_pos hp,
        List.filter_cons_of_neg (by rw [hp]; exact Bool.false_ne_true)]
      refine (List.filter_eq_self.2 fun b hb => ?_).symm
      rw [Bool.not_eq_true', Bool.eq_false_iff]
      exact hx b hb hp
    | false =>
      rw [List.eraseP_cons_of_neg (by rw [hp]; exact Bool.false_ne_true),
        List.filter_cons_of_pos (by rw [hp]; rfl), ih hxs]

namespace ClassFile

open ModifiedUtf8 (encode)

/-- No two fields have the same name. -/
def DistinctFields (c : ClassFile) : Prop :=
  c.fields.Pairwise fun m m' => ∀ text,
    c.pool.get? m.nameIndex = some (.utf8 text) → c.pool.get? m'.nameIndex ≠ some (.utf8 text)

/-- Whether the field has one of the names. -/
def hasName (c : ClassFile) (names : List String) (m : Member) : Bool :=
  names.any fun name => c.pool.get? m.nameIndex == some (.utf8 (encode name))

/-- The class file without the fields of the given names. -/
def without (names : List String) (c : ClassFile) : ClassFile :=
  { c with fields := c.fields.filter fun m => !c.hasName names m }

variable {c : ClassFile} {names names' : List String} {name : String}

theorem hasName_iff {m : Member} : c.hasName names m = true ↔
    ∃ name ∈ names, c.pool.get? m.nameIndex = some (.utf8 (encode name)) := by
  rw [hasName, List.any_eq_true]
  simp only [beq_iff_eq]

@[simp] theorem pool_without : (without names c).pool = c.pool := rfl

@[simp] theorem without_nil : without [] c = c := by
  have hall : c.fields.filter (fun m => !c.hasName [] m) = c.fields :=
    List.filter_eq_self.2 fun _ _ => rfl
  rw [without, hall]

/-- It does not matter whether the fields go at once or in two steps. -/
theorem without_without : without names' (without names c) = without (names ++ names') c := by
  have hfields : (c.fields.filter fun m => !c.hasName names m).filter
      (fun m => !c.hasName names' m) = c.fields.filter fun m => !c.hasName (names ++ names') m := by
    rw [List.filter_filter]
    refine List.filter_congr fun m _ => ?_
    rw [hasName, hasName, hasName, List.any_append, Bool.not_or, Bool.and_comm]
  exact congrArg (fun fields => { c with fields }) hfields

/-- The fields that are left were there before, and have other names. -/
theorem declares_without :
    (without names c).Declares name ↔ name ∉ names ∧ c.Declares name := by
  rw [declares_iff, declares_iff]
  constructor
  · rintro ⟨m, hm, hname⟩
    obtain ⟨hm, hkept⟩ := List.mem_filter.1 hm
    rw [Bool.not_eq_true', ← Bool.not_eq_true, hasName_iff] at hkept
    exact ⟨fun hmem => hkept ⟨name, hmem, hname⟩, m, hm, hname⟩
  · rintro ⟨hnot, m, hm, hname⟩
    refine ⟨m, List.mem_filter.2 ⟨hm, ?_⟩, hname⟩
    rw [Bool.not_eq_true', ← Bool.not_eq_true, hasName_iff]
    rintro ⟨other, hother, hsame⟩
    have htext := hname.symm.trans hsame
    simp only [Option.some.injEq, Constant.utf8.injEq] at htext
    exact hnot (ModifiedUtf8.encode_injective htext ▸ hother)

theorem DistinctFields.without (h : c.DistinctFields) : (without names c).DistinctFields :=
  List.Pairwise.filter _ h

/-- The class file without the first field of each of the names, one after the other. -/
def withoutFirst (names : List String) (c : ClassFile) : ClassFile :=
  names.foldl (fun c name => { c with fields := c.fields.eraseP (c.hasName [name]) }) c

@[simp] theorem withoutFirst_nil : withoutFirst [] c = c := rfl

theorem withoutFirst_append :
    withoutFirst (names ++ names') c = withoutFirst names' (withoutFirst names c) :=
  List.foldl_append

@[simp] theorem pool_withoutFirst : (withoutFirst names c).pool = c.pool := by
  induction names generalizing c with
  | nil => rfl
  | cons name names ih => exact ih

/-- The fields that are left were there before. -/
theorem declares_of_withoutFirst (h : (withoutFirst names c).Declares name) :
    c.Declares name := by
  induction names generalizing c with
  | nil => exact h
  | cons first names ih =>
    obtain ⟨m, hm, hname⟩ := declares_iff.1 (ih h)
    exact declares_iff.2 ⟨m, List.mem_of_mem_eraseP hm, hname⟩

theorem eraseP_hasName (h : c.DistinctFields) (name : String) :
    c.fields.eraseP (c.hasName [name]) = c.fields.filter fun m => !c.hasName [name] m := by
  refine eraseP_eq_filter (h.imp fun hne hm hm' => ?_)
  obtain ⟨_, hmem, hname⟩ := hasName_iff.1 hm
  obtain ⟨_, hmem', hname'⟩ := hasName_iff.1 hm'
  rw [List.mem_singleton.1 hmem] at hname
  rw [List.mem_singleton.1 hmem'] at hname'
  exact hne _ hname hname'

/-- Of fields with distinct names none of the given names is left. -/
theorem withoutFirst_eq (h : c.DistinctFields) : withoutFirst names c = without names c := by
  induction names generalizing c with
  | nil => rw [withoutFirst_nil, without_nil]
  | cons name names ih =>
    have hfirst : withoutFirst [name] c = without [name] c :=
      congrArg (fun fields => { c with fields }) (eraseP_hasName h name)
    rw [← List.singleton_append, withoutFirst_append, hfirst, ih h.without, without_without]

/-- To remove a field takes the first one of the name away, if there is one. -/
theorem removeField_eq_eraseP (name : String) (c : ClassFile) :
    removeField name c = .ok (c.declaredField? name).isSome
      { c with fields := c.fields.eraseP (c.hasName [name]) } := by
  have hnamed : (fun m : Member => ConstantPool.isMarked (c.named name) m.nameIndex) =
      c.hasName [name] := by
    funext m
    rw [named, ConstantPool.isMarked_holders, hasName, List.any_cons, List.any_nil, Bool.or_false]
  unfold removeField declaredField?
  simp only [bind, EStateM.bind, get_eq]
  rw [hnamed, List.isSome_find?, ← List.findIdx?_isSome, List.eraseP_eq_eraseIdx]
  cases c.fields.findIdx? (c.hasName [name]) with
  | none => rfl
  | some i => rfl

theorem removeField_eq (name : String) (c : ClassFile) :
    removeField name c = .ok (c.declaredField? name).isSome (withoutFirst [name] c) :=
  removeField_eq_eraseP name c

end ClassFile

end ClassStamp
