import ClassStamp.Fixture
import ClassStamp.Proofs.ClassFile.AddedField

/-!
# Names in a list, and how they are looked for

Interfaces and fields are listed by name, but neither is looked for by name: an interface
is known by the index of the first constant for it, a field by the bytes of its name. So
a name can be in the list and be overlooked, and then it comes in a second time. Where no
name is overlooked, the lists behave as sets of names, however many calls there are.

* `AddsNames`, `exists_added`: what a run of calls adds to a list of names, from what one
  call does;
* `ClassFile.ListsFirst`, `ClassFile.ListsElsewhere`: an interface is listed under the
  first constant for it, or under another one;
* `ClassFile.interface_names_added`: what adding interfaces does to their names;
* `ClassFile.SpelledPlainly`: the first field that is read as a name has its bytes;
* `ClassFile.field_names_looked_up`: what a look-up finds, and what adding fields does to
  their names.
-/

namespace ClassStamp

open ConstantPool (Appends maxCount)
open ModifiedUtf8 (encode)

/-! ## Searching -/

/-- A stricter test finds the same as a looser one if and only if what that one finds
passes it. -/
theorem find?_eq_find?_iff {α : Type} {p q : α → Bool} {xs : List α}
    (h : ∀ x, p x = true → q x = true) :
    xs.find? p = xs.find? q ↔ ∀ x ∈ xs.find? q, p x = true := by
  induction xs with
  | nil => simp
  | cons x xs ih =>
    rw [List.find?_cons, List.find?_cons]
    cases hp : p x with
    | true => simp [h x hp, hp]
    | false =>
      cases hq : q x with
      | true =>
        simp only [Option.mem_some_iff, forall_eq', hp, Bool.false_eq_true, iff_false]
        intro hfind
        rw [List.find?_some hfind] at hp
        cases hp
      | false => exact ih

/-- The first that has a value is where the value is first in the list of values. -/
theorem find?_of_mapM {α ε β : Type} [DecidableEq β] [DecidableEq ε] {f : α → Except ε β}
    {xs : List α} {ys : List β} (h : xs.mapM f = .ok ys) (y : β) :
    xs.find? (fun x => f x = .ok y) = (ys.idxOf? y).bind (xs[·]?) := by
  replace h := mapM_eq_ok_iff.1 h
  induction h with
  | nil => rfl
  | @cons x z xs ys hx _ ih =>
    rw [List.find?_cons, List.idxOf?_cons, hx, ih]
    by_cases hz : z = y
    · simp [hz]
    · cases ys.idxOf? y <;> simp [hz]

/-! ## Lists of names that calls add to -/

/-- The added names were asked for and come once each. One that was there before is one
that was overlooked. -/
structure AddsNames {ν : Type} (asked : List ν) (overlooked : ν → Prop) (names added : List ν) :
    Prop where
  nodup : added.Nodup
  asked : ∀ n ∈ added, n ∈ asked
  mem_iff : ∀ n ∈ added, n ∈ names ↔ overlooked n

theorem AddsNames.nodup_iff {ν : Type} {asked names added : List ν} {overlooked : ν → Prop}
    (h : AddsNames asked overlooked names added) (hnames : names.Nodup) :
    (names ++ added).Nodup ↔ ∀ n ∈ added, ¬ overlooked n := by
  rw [List.nodup_append]
  constructor
  · rintro ⟨-, -, hdisjoint⟩ n hn hover
    exact hdisjoint n ((h.mem_iff n hn).2 hover) n hn rfl
  · intro hnone
    refine ⟨hnames, h.nodup, fun n hn n' hn' he => ?_⟩
    subst he
    exact hnone n hn' ((h.mem_iff n hn').1 hn)

section Runs

variable {σ κ ν : Type} (step : σ → κ → σ) (name : κ → ν) (Named : σ → List ν → Prop)
  (Known : σ → ν → Prop)

/-- Calls that add a name only if it is not known, and make it known then, add each name
once. -/
theorem exists_added (hkept : ∀ s k n, Known s n → Known (step s k) n)
    (hstep : ∀ s k names, Named s names → Named (step s k) names ∨
      ¬ Known s (name k) ∧ Known (step s k) (name k) ∧ Named (step s k) (names ++ [name k]))
    {overlooked : ν → Prop} (calls : List κ) {s : σ} {names : List ν} (hs : Named s names)
    (hnames : ∀ n, ¬ Known s n → (n ∈ names ↔ overlooked n)) :
    ∃ added, Named (calls.foldl step s) (names ++ added) ∧
      AddsNames (calls.map name) overlooked names added := by
  -- what a later call adds was not known when the run began
  have hrun : ∃ added, Named (calls.foldl step s) (names ++ added) ∧ added.Nodup ∧
      ∀ n ∈ added, n ∈ calls.map name ∧ ¬ Known s n := by
    clear hnames
    induction calls generalizing s names with
    | nil => exact ⟨[], by rwa [List.append_nil], List.nodup_nil, fun _ hn => nomatch hn⟩
    | cons k calls ih =>
      have hearlier : ∀ n, ¬ Known (step s k) n → ¬ Known s n := fun n => mt (hkept s k n)
      rcases hstep s k names hs with hsame | ⟨hnew, hknown, hadded⟩
      · obtain ⟨added, hnamed, hnodup, hasked⟩ := ih hsame
        exact ⟨added, hnamed, hnodup, fun n hn =>
          ⟨List.mem_cons_of_mem _ (hasked n hn).1, hearlier n (hasked n hn).2⟩⟩
      · obtain ⟨added, hnamed, hnodup, hasked⟩ := ih hadded
        refine ⟨name k :: added, by rwa [List.append_cons], ?_, ?_⟩
        · exact List.nodup_cons.2 ⟨fun hmem => (hasked _ hmem).2 hknown, hnodup⟩
        · refine List.forall_mem_cons.2 ⟨⟨List.mem_cons_self, hnew⟩, fun n hn => ?_⟩
          exact ⟨List.mem_cons_of_mem _ (hasked n hn).1, hearlier n (hasked n hn).2⟩
  obtain ⟨added, hnamed, hnodup, hadded⟩ := hrun
  exact ⟨added, hnamed, hnodup, fun n hn => (hadded n hn).1, fun n hn => hnames n (hadded n hn).2⟩

end Runs

namespace ClassFile

variable {c d : ClassFile} {n : ClassName} {names : List ClassName}

/-! ## Interfaces -/

/-- The interface is listed under the first constant for it. -/
def ListsFirst (c : ClassFile) (n : ClassName) : Prop :=
  ∃ index ∈ c.interfaces, c.pool.findClass? n = some index

/-- The interface is listed under a constant that is not the first one for it. -/
def ListsElsewhere (c : ClassFile) (n : ClassName) : Prop :=
  ∃ index ∈ c.interfaces, c.pool.className index = .ok n ∧ c.pool.findClass? n ≠ some index

theorem mem_interfaceNames (hnames : c.interfaceNames = .ok names) :
    n ∈ names ↔ ∃ index ∈ c.interfaces, c.pool.className index = .ok n := by
  rw [interfaceNames_eq] at hnames
  exact mem_of_mapM hnames

/-- An interface that is not listed under the first constant for it is listed under
another one, or not at all. -/
theorem mem_iff_listsElsewhere (hnames : c.interfaceNames = .ok names) (hn : ¬ c.ListsFirst n) :
    n ∈ names ↔ c.ListsElsewhere n := by
  rw [mem_interfaceNames hnames]
  constructor
  · rintro ⟨index, hmem, hname⟩
    exact ⟨index, hmem, hname, fun hfirst => hn ⟨index, hmem, hfirst⟩⟩
  · rintro ⟨index, hmem, hname, -⟩
    exact ⟨index, hmem, hname⟩

/-- An interface that is not added is there, and no constant is added for it. -/
theorem addInterface_known (hle : c.pool.slots.size ≤ maxCount)
    (hnames : c.interfaceNames = .ok names) (h : addInterface n c = .ok false d) :
    n ∈ names ∧ d = c := by
  obtain ⟨index, hindex, ⟨-, hmem, hd⟩ | ⟨hadded, -⟩⟩ := addInterface_eq_ok h
  · rw [interfaceNames_eq] at hnames
    obtain ⟨m, hm⟩ := exists_mapM_iff.1 ⟨names, hnames⟩ index hmem
    have hpool := ConstantPool.classIndex_of_className hle hm hindex
    have hname := ConstantPool.className_of_classIndex hle hindex
    rw [hpool] at hname hd
    exact ⟨(mem_of_mapM hnames).2 ⟨index, hmem, hname⟩, hd⟩
  · cases hadded

/-- An interface that is added comes last. It was not listed under the first constant for
it, and is now. -/
theorem addInterface_new (hle : c.pool.slots.size ≤ maxCount)
    (hnames : c.interfaceNames = .ok names) (h : addInterface n c = .ok true d) :
    d.interfaceNames = .ok (names ++ [n]) ∧ ¬ c.ListsFirst n ∧ d.ListsFirst n := by
  obtain ⟨index, hindex, ⟨hadded, -⟩ | ⟨-, hmem, hd⟩⟩ := addInterface_eq_ok h
  · cases hadded
  · have hinterfaces : d.interfaces = c.interfaces ++ [index] := by rw [hd]
    have hpool := (ConstantPool.appends_classIndex n).ok hindex
    refine ⟨?_, ?_, index, ?_, ConstantPool.findClass?_of_classIndex hindex⟩
    · rw [interfaceNames_eq, hinterfaces]
      refine mapM_append_eq_ok (interfaceNames_of_appends hnames hpool) ?_
      rw [mapM_eq_ok_iff]
      exact .cons (ConstantPool.className_of_classIndex hle hindex) .nil
    · rintro ⟨first, hfirst, hfind⟩
      have hsame := (ConstantPool.classIndex_of_findClass? hfind).symm.trans hindex
      rw [EStateM.Result.ok.injEq] at hsame
      exact hmem (hsame.1 ▸ hfirst)
    · rw [hinterfaces]
      exact List.mem_append_right _ (List.mem_singleton_self index)

theorem grows_leaves_addInterface (n : ClassName) (c : ClassFile) :
    Grows (fun _ => False) c (leaves (addInterface n) c) := grows_addInterface n c

theorem listsFirst_leaves (n : ClassName) {m : ClassName} (hm : c.ListsFirst m) :
    (leaves (addInterface n) c).ListsFirst m := by
  obtain ⟨index, hmem, hfind⟩ := hm
  have h := grows_leaves_addInterface n c
  exact ⟨index, h.interfaces.subset hmem,
    ConstantPool.findClass?_of_extends hfind (ConstantPool.extends_of_appends h.pool)⟩

theorem leaves_run_addInterface (n : ClassName) (c : ClassFile) :
    leaves (Change.addInterface n).run c = leaves (addInterface n) c := by
  unfold leaves
  simp only [Change.run, bind, EStateM.bind]
  cases addInterface n c <;> rfl

/-- One call keeps the names, or adds an interface that was not listed under the first
constant for it. -/
theorem interfaceNames_leaves (n : ClassName)
    (hc : c.pool.Obtained ∧ c.interfaceNames = .ok names) :
    ((leaves (addInterface n) c).pool.Obtained ∧
      (leaves (addInterface n) c).interfaceNames = .ok names) ∨
    ¬ c.ListsFirst n ∧ (leaves (addInterface n) c).ListsFirst n ∧
      (leaves (addInterface n) c).pool.Obtained ∧
      (leaves (addInterface n) c).interfaceNames = .ok (names ++ [n]) := by
  obtain ⟨hpool, hnames⟩ := hc
  have hgrown : (leaves (addInterface n) c).pool.Obtained :=
    hpool.of_appends (grows_leaves_addInterface n c).pool
  cases h : addInterface n c with
  | ok added d =>
    rw [leaves_of_ok h] at hgrown ⊢
    cases added with
    | false =>
      rw [(addInterface_known hpool.size_le hnames h).2]
      exact .inl ⟨hpool, hnames⟩
    | true =>
      obtain ⟨hadded, hbefore, hafter⟩ := addInterface_new hpool.size_le hnames h
      exact .inr ⟨hbefore, hafter, hgrown, hadded⟩
  | error reason d =>
    have herror : (Change.addInterface n).run c = .error reason d := by
      simp only [Change.run, bind, EStateM.bind, h]
    obtain ⟨happends, hd⟩ := run_eq_error herror
    rw [leaves_of_error h] at hgrown ⊢
    refine .inl ⟨hgrown, ?_⟩
    have hkept : c.interfaces.mapM d.pool.className = .ok names :=
      interfaceNames_of_appends hnames happends
    rwa [interfaceNames_eq, congrArg ClassFile.interfaces hd]

/-- What adding interfaces does to their names. A call that adds nothing leaves all as it
is, with the name in the list; one that adds puts the name last, which was there before if
and only if it was listed under another constant than the first one for it; and this is
also what decides whether distinct names stay distinct, however many calls there are. -/
theorem interface_names_added (hc : c.pool.Obtained) (hnames : c.interfaceNames = .ok names) :
    (∀ n d, addInterface n c = .ok false d → n ∈ names ∧ d = c) ∧
    (∀ n d, addInterface n c = .ok true d →
      d.interfaceNames = .ok (names ++ [n]) ∧ (n ∈ names ↔ c.ListsElsewhere n)) ∧
    ∀ calls : List ClassName, ∃ added,
      (c.after (calls.map .addInterface)).interfaceNames = .ok (names ++ added) ∧
      AddsNames calls c.ListsElsewhere names added ∧
      (names.Nodup → ((names ++ added).Nodup ↔ ∀ n ∈ added, ¬ c.ListsElsewhere n)) := by
  refine ⟨fun n d => addInterface_known hc.size_le hnames, fun n d h => ?_, fun calls => ?_⟩
  · obtain ⟨hadded, hbefore, -⟩ := addInterface_new hc.size_le hnames h
    exact ⟨hadded, mem_iff_listsElsewhere hnames hbefore⟩
  · have hrun := exists_added (fun c n => leaves (addInterface n) c) id
      (fun c names => c.pool.Obtained ∧ c.interfaceNames = .ok names) ListsFirst
      (fun _ n _ => listsFirst_leaves n) (fun _ n _ => interfaceNames_leaves n) calls
      ⟨hc, hnames⟩ (fun _ => mem_iff_listsElsewhere hnames)
    obtain ⟨added, ⟨-, hadded⟩, hadds⟩ := hrun
    rw [List.map_id] at hadds
    refine ⟨added, ?_, hadds, hadds.nodup_iff⟩
    rw [after, List.foldl_map]
    simp only [leaves_run_addInterface]
    exact hadded

/-- A class file with two constants for one class that lists the one at the index. -/
def implementing (index : UInt16) : ClassFile :=
  { empty with
    pool := leaves (do
      let _ ← ConstantPool.classIndex Fixture.objectName
      ConstantPool.push (.classRef 1)) .empty
    interfaces := [index] }

theorem obtained_implementing (index : UInt16) : (implementing index).pool.Obtained :=
  ConstantPool.Obtained.empty.of_appends
    (Keeps.bind (ConstantPool.appends_classIndex _) (fun _ => ConstantPool.appends_push _) _)

/-- Listed under the first constant for it, the interface stays the only one of its name. -/
theorem interface_listed_once : (implementing 2).pool.Obtained ∧
    (implementing 2).interfaceNames = .ok [Fixture.objectName] ∧
    ∀ calls : List ClassName, ∃ names, names.Nodup ∧
      ((implementing 2).after (calls.map .addInterface)).interfaceNames = .ok names := by
  have hnames : (implementing 2).interfaceNames = .ok [Fixture.objectName] := by decide +kernel
  have hfirst : (implementing 2).pool.findClass? Fixture.objectName = some 2 := by decide +kernel
  have hnone : ∀ n, ¬ (implementing 2).ListsElsewhere n := by
    rintro n ⟨index, hmem, hname, helsewhere⟩
    rw [List.mem_singleton.1 hmem] at hname helsewhere
    have hn : n ∈ [Fixture.objectName] :=
      (mem_interfaceNames hnames).2 ⟨2, List.mem_singleton_self 2, hname⟩
    rw [List.mem_singleton.1 hn] at helsewhere
    exact helsewhere hfirst
  obtain ⟨-, -, hrun⟩ := interface_names_added (obtained_implementing 2) hnames
  refine ⟨obtained_implementing 2, hnames, fun calls => ?_⟩
  obtain ⟨added, hadded, -, hnodup⟩ := hrun calls
  exact ⟨_, (hnodup (List.pairwise_singleton _ _)).2 fun n _ => hnone n, hadded⟩

/-- Listed under the second constant for it, the interface is listed once more. -/
theorem interface_listed_twice : (implementing 3).pool.Obtained ∧
    (implementing 3).interfaceNames = .ok [Fixture.objectName] ∧
    ∃ d, addInterface Fixture.objectName (implementing 3) = .ok true d ∧
      d.interfaceNames = .ok [Fixture.objectName, Fixture.objectName] := by
  have hfirst : (implementing 3).pool.findClass? Fixture.objectName = some 2 := by decide +kernel
  refine ⟨obtained_implementing 3, by decide +kernel,
    { implementing 3 with interfaces := [3, 2] }, ?_, by decide +kernel⟩
  rw [addInterface_eq, ConstantPool.classIndex_of_findClass? hfirst]
  rfl

/-! ## Fields -/

section Fields

variable {spec : FieldSpec} {fields : List String} {s : String}

/-- If some field is read as the name, the first one that is has the bytes of the name. -/
def SpelledPlainly (c : ClassFile) (s : String) : Prop :=
  ∀ m ∈ c.fields.find? fun m => c.memberName m = .ok s,
    c.pool.get? m.nameIndex = some (.utf8 (encode s))

/-- All names are spelled plainly if the texts of the fields are in the bytes that they
would be written in. -/
theorem spelledPlainly_of_encoded
    (h : ∀ m ∈ c.fields, ∃ t, c.pool.get? m.nameIndex = some (.utf8 (encode t))) (s : String) :
    c.SpelledPlainly s := by
  intro m hm
  obtain ⟨t, ht⟩ := h m (List.mem_of_find?_eq_some hm)
  have hread := List.find?_some hm
  have hname : c.memberName m = .ok s := of_decide_eq_true hread
  have hsame : t = s := Except.ok.inj ((ConstantPool.utf8_of_get? ht).symm.trans hname)
  rw [ht, hsame]

theorem declaredField?_eq_iff (hnames : c.declaredFieldNames = .ok fields) :
    c.declaredField? s = (fields.idxOf? s).bind (c.fields[·]?) ↔ c.SpelledPlainly s := by
  rw [declaredFieldNames_eq] at hnames
  rw [declaredField?_eq, ← find?_of_mapM hnames, find?_eq_find?_iff fun m hm => ?_]
  · simp only [SpelledPlainly, beq_iff_eq]
  · exact decide_eq_true (ConstantPool.utf8_of_get? (beq_iff_eq.1 hm))

theorem mem_declaredFieldNames (hnames : c.declaredFieldNames = .ok fields) :
    s ∈ fields ↔ ∃ m ∈ c.fields, c.memberName m = .ok s := by
  rw [declaredFieldNames_eq] at hnames
  exact mem_of_mapM hnames

theorem mem_of_declares (hnames : c.declaredFieldNames = .ok fields) (h : c.Declares s) :
    s ∈ fields := by
  obtain ⟨m, hm, hname⟩ := declares_iff.1 h
  exact (mem_declaredFieldNames hnames).2 ⟨m, hm, ConstantPool.utf8_of_get? hname⟩

/-- A name that no look-up finds is in the list if and only if it is spelled otherwise. -/
theorem mem_iff_not_spelledPlainly (hnames : c.declaredFieldNames = .ok fields)
    (h : ¬ c.Declares s) : s ∈ fields ↔ ¬ c.SpelledPlainly s := by
  have hnone : c.declaredField? s = none := Option.not_isSome_iff_eq_none.1 h
  rw [← declaredField?_eq_iff hnames, hnone, ← find?_of_mapM (declaredFieldNames_eq c ▸ hnames),
    eq_comm, List.find?_eq_none, mem_declaredFieldNames hnames]
  simp

theorem declares_iff_mem (hnames : c.declaredFieldNames = .ok fields) (h : c.SpelledPlainly s) :
    c.Declares s ↔ s ∈ fields := by
  constructor
  · exact mem_of_declares hnames
  · intro hmem
    by_contra hnot
    exact (mem_iff_not_spelledPlainly hnames hnot).1 hmem h

/-- The names of the fields are kept in a longer pool. -/
theorem fieldNames_of_appends (hnames : c.declaredFieldNames = .ok fields)
    (h : Appends c.pool d.pool) : c.fields.mapM d.memberName = .ok fields := by
  rw [declaredFieldNames_eq] at hnames
  exact mapM_eq_ok_of_kept hnames fun _ _ hs => ConstantPool.utf8_of_appends hs h

/-- A field that is added comes last, with its name. -/
theorem declaredFieldNames_addField (hle : c.pool.slots.size ≤ maxCount)
    (hnames : c.declaredFieldNames = .ok fields) (h : addField spec c = .ok () d) :
    d.declaredFieldNames = .ok (fields ++ [spec.name]) := by
  obtain ⟨-, -, m, hm, hd⟩ := addField_eq_ok h
  have hpool := (appends_memberOf spec).ok hm
  rw [declaredFieldNames_eq, congrArg ClassFile.fields hd]
  refine mapM_append_eq_ok (fieldNames_of_appends hnames hpool) ?_
  rw [mapM_eq_ok_iff]
  exact .cons (ConstantPool.utf8_of_get? (memberOf_describes hle hm).name) .nil

theorem grows_leaves_addField (spec : FieldSpec) (c : ClassFile) :
    Grows (fun _ => True) c (leaves (addField spec) c) := grows_addField trivial c

/-- One call keeps the names, or adds a field that was not found before. -/
theorem declaredFieldNames_leaves (spec : FieldSpec)
    (hc : c.pool.Obtained ∧ c.declaredFieldNames = .ok fields) :
    ((leaves (addField spec) c).pool.Obtained ∧
      (leaves (addField spec) c).declaredFieldNames = .ok fields) ∨
    ¬ c.Declares spec.name ∧ (leaves (addField spec) c).Declares spec.name ∧
      (leaves (addField spec) c).pool.Obtained ∧
      (leaves (addField spec) c).declaredFieldNames = .ok (fields ++ [spec.name]) := by
  obtain ⟨hpool, hnames⟩ := hc
  have hgrown : (leaves (addField spec) c).pool.Obtained :=
    hpool.of_appends (grows_leaves_addField spec c).pool
  cases h : addField spec c with
  | ok _ d =>
    rw [leaves_of_ok h] at hgrown ⊢
    obtain ⟨hbefore, hafter⟩ := declared_addField hpool.size_le h
    exact .inr ⟨hbefore, hafter, hgrown, declaredFieldNames_addField hpool.size_le hnames h⟩
  | error reason d =>
    have herror : (Change.addField spec).run c = .error reason d := h
    obtain ⟨happends, hd⟩ := run_eq_error herror
    rw [leaves_of_error h] at hgrown ⊢
    refine .inl ⟨hgrown, ?_⟩
    have hkept : c.fields.mapM d.memberName = .ok fields := fieldNames_of_appends hnames happends
    rwa [declaredFieldNames_eq, congrArg ClassFile.fields hd]

/-- What a look-up finds, and what adding fields does to their names. A look-up finds the
field at the first place of the name, and a field is refused as declared if the name is in
the list, for every name that is spelled plainly; for any other name the look-up misses
that place, and this is also what decides whether distinct names stay distinct, however
many fields are added. -/
theorem field_names_looked_up (hc : c.pool.Obtained) (hnames : c.declaredFieldNames = .ok fields) :
    (∀ s, (c.declaredField? s = (fields.idxOf? s).bind (c.fields[·]?) ↔ c.SpelledPlainly s) ∧
      (c.SpelledPlainly s → (c.declaredField? s = none ↔ s ∉ fields))) ∧
    (∀ spec, c.SpelledPlainly spec.name →
      ((∃ name d, addField spec c = .error (.duplicateField name) d) ↔ spec.name ∈ fields)) ∧
    (∀ spec d, addField spec c = .ok () d →
      d.declaredFieldNames = .ok (fields ++ [spec.name]) ∧
        (spec.name ∈ fields ↔ ¬ c.SpelledPlainly spec.name)) ∧
    ∀ specs : List FieldSpec, ∃ added,
      (c.after (specs.map .addField)).declaredFieldNames = .ok (fields ++ added) ∧
      AddsNames (specs.map FieldSpec.name) (fun s => ¬ c.SpelledPlainly s) fields added ∧
      (fields.Nodup → ((fields ++ added).Nodup ↔ ∀ s ∈ added, c.SpelledPlainly s)) := by
  refine ⟨fun s => ⟨declaredField?_eq_iff hnames, fun hs => ?_⟩, fun spec hs => ?_,
    fun spec d h => ⟨declaredFieldNames_addField hc.size_le hnames h, ?_⟩, fun specs => ?_⟩
  · rw [← declares_iff_mem hnames hs, Declares, Option.not_isSome_iff_eq_none]
  · rw [← declares_iff_mem hnames hs]
    constructor
    · rintro ⟨name, d, h⟩
      exact declares_of_duplicate h
    · intro h
      exact ⟨_, _, addField_of_declares h⟩
  · exact mem_iff_not_spelledPlainly hnames (declared_addField hc.size_le h).1
  · have hrun := exists_added (fun c spec => leaves (addField spec) c) FieldSpec.name
      (fun c names => c.pool.Obtained ∧ c.declaredFieldNames = .ok names) Declares
      (fun c spec _ => declared_of_grows (grows_leaves_addField spec c))
      (fun _ spec _ => declaredFieldNames_leaves spec) specs ⟨hc, hnames⟩
      (fun _ => mem_iff_not_spelledPlainly hnames)
    obtain ⟨added, ⟨-, hadded⟩, hadds⟩ := hrun
    refine ⟨added, ?_, hadds, fun hnodup => ?_⟩
    · rw [after, List.foldl_map]
      exact hadded
    · rw [hadds.nodup_iff hnodup]
      simp only [not_not]

end Fields

/-- A class file with two texts that are read as the same name, and a field that has the
one at the index. -/
def namedAt (index : UInt16) : ClassFile :=
  { empty with
    pool := leaves (do
      let _ ← ConstantPool.push (.utf8 [0xC1, 0x81])
      ConstantPool.utf8Index "A") .empty
    fields := [{ accessFlags := .empty, nameIndex := index, descriptorIndex := 2,
                 attributes := [] }] }

theorem appends_namedAt (index : UInt16) : Appends .empty (namedAt index).pool :=
  Keeps.bind (ConstantPool.appends_push _) (fun _ => ConstantPool.appends_utf8Index _) _

/-- A field with the bytes of its name is found, and is the only one of its name. -/
theorem field_named_once : (namedAt 2).pool.Obtained ∧
    (namedAt 2).declaredFieldNames = .ok ["A"] ∧
    (namedAt 2).declaredField? "A" = (namedAt 2).fields[0]? ∧
    ∀ specs : List FieldSpec, ∃ names, names.Nodup ∧
      ((namedAt 2).after (specs.map .addField)).declaredFieldNames = .ok names := by
  have hpool := ConstantPool.Obtained.empty.of_appends (appends_namedAt 2)
  have hnames : (namedAt 2).declaredFieldNames = .ok ["A"] := by decide +kernel
  have hplain : ∀ s, (namedAt 2).SpelledPlainly s :=
    spelledPlainly_of_encoded fun m hm => ⟨"A", by
      rw [List.mem_singleton.1 hm]
      decide +kernel⟩
  obtain ⟨hfinds, -, -, hrun⟩ := field_names_looked_up hpool hnames
  refine ⟨hpool, hnames, (hfinds "A").1.2 (hplain "A"), fun specs => ?_⟩
  obtain ⟨added, hadded, -, hnodup⟩ := hrun specs
  exact ⟨_, (hnodup (List.pairwise_singleton _ _)).2 fun s _ => hplain s, hadded⟩

/-- A field with other bytes for its name is read back from a file, but not found, and a
second one of its name is added. -/
theorem field_named_twice : (∃ input, parse input = .ok (namedAt 1)) ∧
    (namedAt 1).declaredFieldNames = .ok ["A"] ∧ (namedAt 1).declaredField? "A" = none ∧
    ∃ d, addField (Fixture.fieldSpec "A") (namedAt 1) = .ok () d ∧
      d.declaredFieldNames = .ok ["A", "A"] := by
  obtain ⟨input, hinput⟩ : ∃ bytes, (namedAt 1).toBytes = .ok bytes :=
    exists_eq_ok_of_isOk (by decide +kernel)
  have hpaired := (appends_namedAt 1).paired ConstantPool.paired_empty
  have hadd : succeeds (addField (Fixture.fieldSpec "A")) (namedAt 1) = true := by decide +kernel
  exact ⟨⟨input, parse_toBytes hpaired hinput⟩, by decide +kernel, by decide +kernel,
    _, eq_ok_of_succeeds hadd, by decide +kernel⟩

end ClassFile

end ClassStamp
