import Mathlib.Data.List.Find
import Mathlib.Data.List.Induction
import ClassStamp.Proofs.ClassFile.Removal
import ClassStamp.Proofs.ClassFile.RoundTrip
import ClassStamp.Proofs.ClassName.Internal

/-!
# Any number of edits

A class file that is edited again and again, with edits that go well and edits that
fail, only ever gains: constants behind the old ones, interfaces and fields behind the
old ones, and one list of inner classes for another. What the indices in it stood for
they still stand for, so a look-up that went well and was not about what was edited goes
well and finds the same.

* `Change`, `after`: edits, and what is left after some;
* `Change.Makes`: what one edit makes of a class file, `makes_of_run` and
  `run_eq_error`;
* `Appended`: what is left after some edits, `Appended.makes` for one more edit that goes
  well and `Appended.constants` for one that fails;
* `appended_after`: any edits, and `edits_only_append`: what they leave and the look-ups.
-/

namespace ClassStamp

open ConstantPool (Appends maxCount)
open ModifiedUtf8 (encode)

theorem eraseP_congr {α : Type} {p q : α → Bool} {xs : List α} (h : ∀ x ∈ xs, p x = q x) :
    xs.eraseP p = xs.eraseP q := by
  induction xs with
  | nil => rfl
  | cons x xs ih =>
    rw [List.eraseP_cons, List.eraseP_cons, h x List.mem_cons_self,
      ih fun y hy => h y (List.mem_cons_of_mem x hy)]

/-- To take away what is not wanted does not change what is found. -/
theorem find?_eraseP {α : Type} {p q : α → Bool} {xs : List α}
    (h : ∀ x, p x = true → ¬ q x = true) : (xs.eraseP q).find? p = xs.find? p := by
  induction xs with
  | nil => rfl
  | cons x xs ih =>
    by_cases hq : q x = true
    · rw [List.eraseP_cons_of_pos hq, List.find?_cons_of_neg fun hp => h x hp hq]
    · rw [List.eraseP_cons_of_neg hq, List.find?_cons, List.find?_cons, ih]

/-! ## Pools -/

namespace ConstantPool

/-- The pools that there are: reading and adding constants and unusable slots lead to
them. -/
inductive Obtained : ConstantPool → Prop
  | empty : Obtained .empty
  | parsed {input : Bytes} {c : ClassFile} : ClassFile.parse input = .ok c → Obtained c.pool
  | push {p : ConstantPool} (x : Constant) : Obtained p → Obtained (leaves (push x) p)
  | pushUnusable {p : ConstantPool} : Obtained p → Obtained (leaves pushUnusable p)

/-- No pool is larger than the format allows, but for the one slot too many of a long
constant that was read at the very end. -/
theorem Obtained.size_le {p : ConstantPool} (h : Obtained p) : p.slots.size ≤ maxCount := by
  induction h with
  | empty => exact Nat.zero_le _
  | parsed h => exact ClassFile.size_of_parse h
  | push x _ ih => exact (appends_push x _).size_le_maxCount ih
  | @pushUnusable p _ ih =>
    unfold leaves ConstantPool.pushUnusable append
    by_cases hfull : maxCount < p.count + [none (α := Constant)].length
    · rw [if_pos hfull]
      exact ih
    · rw [if_neg hfull]
      simp only [count, List.length_singleton] at hfull
      simp only [List.foldl_cons, List.foldl_nil, Array.size_push]
      omega

/-- Whatever edit adds constants, adding them one by one leads to the same pool. -/
theorem Obtained.of_appends {p q : ConstantPool} (hp : Obtained p) (h : Appends p q) :
    Obtained q := by
  obtain ⟨⟨xs, hxs⟩, hcount⟩ := h
  rcases hcount with hcount | rfl
  · induction xs generalizing p with
    | nil =>
      rw [List.flatMap_nil, List.append_nil] at hxs
      have hsame : q = p := congrArg ConstantPool.mk (Array.toList_inj.1 hxs)
      exact hsame ▸ hp
    | cons x xs ih =>
      have hroom : ¬ maxCount < p.count + x.slots.length := by
        have hlength := congrArg List.length hxs
        simp only [List.flatMap_cons, List.length_append, Array.length_toList] at hlength
        unfold count at hcount ⊢
        omega
      refine ih (hp.push x) ?_
      unfold leaves ConstantPool.push append
      rw [if_neg hroom]
      dsimp only
      rw [toList_foldl_push, hxs, List.flatMap_cons, List.append_assoc]
  · exact hp

/-- The index of a class leads to its name. -/
theorem className_of_classIndex {p q : ConstantPool} {n : ClassName} {index : UInt16}
    (hle : p.slots.size ≤ maxCount) (h : classIndex n p = .ok index q) :
    q.className index = .ok n := by
  obtain ⟨nameIndex, p₁, h₁, h₂⟩ := estate_bind_eq_ok h
  have hname := get?_of_indexOf hle h₁
  have hclass := get?_of_indexOf (((appends_utf8Index _).ok h₁).size_le_maxCount hle) h₂
  have hutf8 : q.utf8 nameIndex = .ok n.internal :=
    utf8_of_get? (get?_of_appends hname ((appends_indexOf _).ok h₂))
  unfold className
  rw [hclass]
  dsimp only
  rw [hutf8]
  dsimp only
  rw [n.ofInternal?_internal]

end ConstantPool

namespace ClassFile

/-! ## Edits -/

/-- An edit of a class file. -/
inductive Change
  | addField (spec : FieldSpec)
  | removeField (name : String)
  | addInterface (name : ClassName)
  | setInnerClasses (rows : List InnerClass)
  deriving DecidableEq

/-- Makes the edit, whatever it answers. -/
def Change.run : Change → Edit Unit
  | addField spec => ClassFile.addField spec
  | removeField name => do
    let _ ← ClassFile.removeField name
  | addInterface name => do
    let _ ← ClassFile.addInterface name
  | setInnerClasses rows => ClassFile.setInnerClasses rows

/-- What is left of a class file after some edits, whether they went well or not. -/
def after (changes : List Change) (c : ClassFile) : ClassFile :=
  changes.foldl (fun c change => leaves change.run c) c

theorem after_concat (changes : List Change) (change : Change) (c : ClassFile) :
    after (changes ++ [change]) c = leaves change.run (after changes c) := by
  rw [after, List.foldl_append]
  rfl

/-- The names of the fields that are to go. -/
def removals (changes : List Change) : List String :=
  changes.filterMap fun
    | .removeField name => some name
    | _ => none

/-- What an edit that goes well makes of a class file. -/
inductive Change.Makes (c : ClassFile) : Change → ClassFile → Prop
  | field {spec : FieldSpec} {m : Member} {pool : ConstantPool}
    (h : memberOf spec c.pool = .ok m pool) :
    Makes c (.addField spec) { c with pool, fields := c.fields ++ [m] }
  | removed (name : String) :
    Makes c (.removeField name) { c with fields := c.fields.eraseP (c.hasName [name]) }
  | known {n : ClassName} {index : UInt16} {pool : ConstantPool}
    (h : ConstantPool.classIndex n c.pool = .ok index pool) (hknown : index ∈ c.interfaces) :
    Makes c (.addInterface n) { c with pool }
  | interface {n : ClassName} {index : UInt16} {pool : ConstantPool}
    (h : ConstantPool.classIndex n c.pool = .ok index pool) :
    Makes c (.addInterface n) { c with pool, interfaces := c.interfaces ++ [index] }
  | listing {rows : List InnerClass} {listing : Attribute} {pool : ConstantPool}
    (h : innerClassesAttribute rows c.pool = .ok listing pool) :
    Makes c (.setInnerClasses rows) { c with
      pool
      attributes := c.attributes.filter (fun a => a.nameIndex != listing.nameIndex) ++ [listing] }

variable {c d e : ClassFile} {change : Change} {changes : List Change}

theorem makes_of_run (h : change.run c = .ok () d) : change.Makes c d := by
  cases change with
  | addField spec =>
    obtain ⟨-, -, m, hm, hd⟩ := addField_eq_ok h
    rw [hd]
    exact .field hm
  | removeField name =>
    obtain ⟨_, _, hremoved, h⟩ := estate_bind_eq_ok h
    rw [removeField_eq_eraseP] at hremoved
    cases hremoved
    cases h
    exact .removed name
  | addInterface n =>
    obtain ⟨_, _, hadded, h⟩ := estate_bind_eq_ok h
    cases h
    obtain ⟨index, hi, ⟨-, hknown, hd⟩ | ⟨-, -, hd⟩⟩ := addInterface_eq_ok hadded
    · rw [hd]
      exact .known hi hknown
    · rw [hd]
      exact .interface hi
  | setInnerClasses rows =>
    rw [Change.run, setInnerClasses_eq] at h
    split_ifs at h
    cases hl : innerClassesAttribute rows c.pool with
    | error e pool => rw [hl] at h; cases h
    | ok listing pool =>
      rw [hl] at h
      cases h
      exact .listing hl

/-- An edit that fails leaves constants behind, and nothing else. -/
theorem run_eq_error {reason : ClassFileError} (h : change.run c = .error reason d) :
    Appends c.pool d.pool ∧ d = { c with pool := d.pool } := by
  cases change with
  | addField spec =>
    rw [Change.run, addField_eq] at h
    split_ifs at h
    · cases h
      exact ⟨.refl _, rfl⟩
    · cases hm : memberOf spec c.pool with
      | ok m pool => rw [hm] at h; cases h
      | error e pool =>
        rw [hm] at h
        cases h
        exact ⟨(appends_memberOf spec).error hm, rfl⟩
    · cases h
      exact ⟨.refl _, rfl⟩
  | removeField name =>
    simp only [Change.run, bind, EStateM.bind, removeField_eq_eraseP] at h
    cases h
  | addInterface n =>
    simp only [Change.run, bind, EStateM.bind, addInterface_eq] at h
    cases hi : ConstantPool.classIndex n c.pool with
    | error e pool =>
      rw [hi] at h
      cases h
      exact ⟨(ConstantPool.appends_classIndex n).error hi, rfl⟩
    | ok index pool =>
      have hpool := (ConstantPool.appends_classIndex n).ok hi
      rw [hi] at h
      dsimp only at h
      by_cases hknown : c.interfaces.contains index = true
      · rw [if_pos hknown] at h
        cases h
      · by_cases hfull : c.interfaces.length + 1 ≤ 65535
        · rw [if_neg hknown, if_pos hfull] at h
          cases h
        · rw [if_neg hknown, if_neg hfull] at h
          cases h
          exact ⟨hpool, rfl⟩
  | setInnerClasses rows =>
    rw [Change.run, setInnerClasses_eq] at h
    split_ifs at h
    · cases hl : innerClassesAttribute rows c.pool with
      | ok listing pool => rw [hl] at h; cases h
      | error e pool =>
        rw [hl] at h
        cases h
        exact ⟨(appends_innerClassesAttribute rows).error hl, rfl⟩
    · cases h
      exact ⟨.refl _, rfl⟩

/-- To remove a field never fails. -/
theorem removals_of_error {reason : ClassFileError} (h : change.run c = .error reason d) :
    removals [change] = [] := by
  cases change with
  | removeField name =>
    simp only [Change.run, bind, EStateM.bind, removeField_eq_eraseP] at h
    cases h
  | _ => rfl

theorem Change.Makes.pool (h : change.Makes c d) : Appends c.pool d.pool := by
  cases h with
  | field h => exact (appends_memberOf _).ok h
  | removed name => exact .refl _
  | known h _ | interface h => exact (ConstantPool.appends_classIndex _).ok h
  | listing h => exact (appends_innerClassesAttribute _).ok h

theorem Change.Makes.thisClass (h : change.Makes c d) : d.thisClass = c.thisClass := by
  cases h <;> rfl

theorem name_run {n : ClassName} (hn : c.name = .ok n) : (leaves change.run c).name = .ok n := by
  cases hrun : change.run c with
  | error reason d =>
    obtain ⟨hpool, hd⟩ := run_eq_error hrun
    rw [leaves_of_error hrun, hd]
    exact ConstantPool.className_of_appends hn hpool
  | ok _ d =>
    have hmakes := makes_of_run hrun
    rw [leaves_of_ok hrun, name, hmakes.thisClass]
    exact ConstantPool.className_of_appends hn hmakes.pool

/-- No edit changes the name of a class. -/
theorem name_after {n : ClassName} (hn : c.name = .ok n) (changes : List Change) :
    (c.after changes).name = .ok n := by
  induction changes using List.reverseRecOn with
  | nil => exact hn
  | append_singleton changes change ih =>
    rw [after_concat]
    exact name_run ih

/-! ## What some edits leave -/

/-- The fields that are left of a class file once the first one of each name went. -/
def survivors (names : List String) (c : ClassFile) : List Member :=
  names.foldl (fun fields name => fields.eraseP (c.hasName [name])) c.fields

/-- The attributes that are no lists of inner classes. -/
def otherAttributes (c : ClassFile) : List Attribute :=
  c.attributes.filter fun a => c.pool.get? a.nameIndex != some (.utf8 (encode innerClassesName))

/-- Some edit lists inner classes and goes well. -/
def Relists (changes : List Change) (c : ClassFile) : Prop :=
  ∃ before rows rest d, changes = before ++ .setInnerClasses rows :: rest ∧
    setInnerClasses rows (after before c) = .ok () d

/-- The class file is one whose names of fields and attributes are looked up inside its
pool. -/
structure Closed (c : ClassFile) : Prop where
  pool : c.pool.Obtained
  fields : c.IndicesInside
  attributes : ∀ a ∈ c.attributes, a.nameIndex.toNat < c.pool.count

/-- The later class file is the earlier one with additions that were asked for, without
the fields that had to go, and with another list of inner classes if there is a new
one. -/
structure Appended (changes : List Change) (c d : ClassFile) : Prop where
  rest : { d with pool := c.pool, interfaces := c.interfaces, fields := c.fields,
                  attributes := c.attributes } = c
  pool : Appends c.pool d.pool
  interfaces : ∃ added, d.interfaces = c.interfaces ++ added ∧
    ∀ index ∈ added, ∃ n, .addInterface n ∈ changes ∧ d.pool.className index = .ok n
  fields : ∃ added, d.fields = c.survivors (removals changes) ++ added ∧
    ∀ m ∈ added, ∃ spec, .addField spec ∈ changes ∧ Describes d.pool spec m
  otherAttributes : d.otherAttributes = c.otherAttributes
  listings : ∀ a ∈ d.attributes, a ∈ c.attributes ∨ ListsInner d.pool a
  attributes : ¬ c.Relists changes → d.attributes = c.attributes

theorem removals_concat (changes : List Change) (change : Change) :
    removals (changes ++ [change]) = removals changes ++ removals [change] :=
  List.filterMap_append

theorem survivors_concat (names : List String) (name : String) (c : ClassFile) :
    c.survivors (names ++ [name]) = (c.survivors names).eraseP (c.hasName [name]) := by
  rw [survivors, List.foldl_append]
  rfl

theorem survivors_sublist (names : List String) (c : ClassFile) :
    (c.survivors names).Sublist c.fields := by
  induction names using List.reverseRecOn with
  | nil => exact .refl _
  | append_singleton names name ih =>
    rw [survivors_concat]
    exact List.eraseP_sublist.trans ih

theorem hasName_of_appends {names : List String} {m : Member}
    (hin : m.nameIndex.toNat < c.pool.count) (h : Appends c.pool d.pool) :
    d.hasName names m = c.hasName names m := by
  rw [hasName, hasName, ConstantPool.get?_eq_of_appends hin h]

theorem Relists.mono {more : List Change} (h : c.Relists changes) :
    c.Relists (changes ++ more) := by
  obtain ⟨before, rows, rest, d, rfl, hd⟩ := h
  exact ⟨before, rows, rest ++ more, d, by rw [List.append_assoc, List.cons_append], hd⟩

namespace Appended

variable {pool : ConstantPool}

theorem nil (c : ClassFile) : Appended [] c c :=
  ⟨rfl, .refl _, ⟨[], by simp, fun _ hi => nomatch hi⟩, ⟨[], by simp [removals, survivors],
    fun _ hm => nomatch hm⟩, rfl, fun _ ha => .inl ha, fun _ => rfl⟩

/-- The names of the attributes go on to be what they are. -/
theorem get?_attribute (h : Appended changes c d) (hc : c.Closed) (hpool : Appends d.pool pool)
    {a : Attribute} (ha : a ∈ d.attributes) :
    pool.get? a.nameIndex = d.pool.get? a.nameIndex := by
  rcases h.listings a ha with ha | ha
  · rw [ConstantPool.get?_eq_of_appends (hc.attributes a ha) (h.pool.trans hpool),
      ConstantPool.get?_eq_of_appends (hc.attributes a ha) h.pool]
  · rw [ha, ConstantPool.get?_of_appends ha hpool]

/-- An edit that adds constants alone. -/
theorem constants (h : Appended changes c d) (hc : c.Closed) (hchange : removals [change] = [])
    (hpool : Appends d.pool pool) : Appended (changes ++ [change]) c { d with pool } := by
  obtain ⟨interfaces, hinterfaces, hnames⟩ := h.interfaces
  obtain ⟨fields, hfields, hspecs⟩ := h.fields
  refine ⟨h.rest, h.pool.trans hpool, ⟨interfaces, hinterfaces, fun index hi => ?_⟩,
    ⟨fields, ?_, fun m hm => ?_⟩, ?_, fun a ha => ?_, fun hnot => ?_⟩
  · obtain ⟨n, hn, hname⟩ := hnames index hi
    exact ⟨n, List.mem_append_left _ hn, ConstantPool.className_of_appends hname hpool⟩
  · rw [removals_concat, hchange, List.append_nil]
    exact hfields
  · obtain ⟨spec, hspec, hm⟩ := hspecs m hm
    exact ⟨spec, List.mem_append_left _ hspec, hm.of_appends hpool⟩
  · rw [← h.otherAttributes]
    exact List.filter_congr fun a ha => by rw [h.get?_attribute hc hpool ha]
  · rcases h.listings a ha with ha | ha
    · exact .inl ha
    · exact .inr (ConstantPool.get?_of_appends ha hpool)
  · exact h.attributes fun hlists => hnot hlists.mono

theorem removed (h : Appended changes c d) (hc : c.Closed) (name : String) :
    Appended (changes ++ [.removeField name]) c
      { d with fields := d.fields.eraseP (d.hasName [name]) } := by
  obtain ⟨interfaces, hinterfaces, hnames⟩ := h.interfaces
  obtain ⟨added, hfields, hspecs⟩ := h.fields
  have hsame : ∀ m ∈ c.survivors (removals changes), d.hasName [name] m = c.hasName [name] m :=
    fun m hm => hasName_of_appends (hc.fields m ((survivors_sublist _ c).mem hm)) h.pool
  have hleft : ∃ left, d.fields.eraseP (d.hasName [name]) =
      c.survivors (removals (changes ++ [.removeField name])) ++ left ∧ ∀ m ∈ left, m ∈ added := by
    rw [removals_concat, show removals [.removeField name] = [name] from rfl, survivors_concat,
      hfields, List.eraseP_append, ← eraseP_congr hsame]
    by_cases hold : (c.survivors (removals changes)).any (d.hasName [name]) = true
    · rw [if_pos hold]
      exact ⟨added, rfl, fun _ => id⟩
    · -- no old field has the name, so it can only be one that was added
      rw [if_neg hold, List.eraseP_of_forall_not fun m hm hname =>
        hold (List.any_eq_true.2 ⟨m, hm, hname⟩)]
      exact ⟨_, rfl, fun _ => List.mem_of_mem_eraseP⟩
  obtain ⟨left, hleft, hkept⟩ := hleft
  refine ⟨h.rest, h.pool, ⟨interfaces, hinterfaces, fun index hi => ?_⟩,
    ⟨left, hleft, fun m hm => ?_⟩, h.otherAttributes, h.listings, fun hnot => ?_⟩
  · obtain ⟨n, hn, hname⟩ := hnames index hi
    exact ⟨n, List.mem_append_left _ hn, hname⟩
  · obtain ⟨spec, hspec, hm⟩ := hspecs m (hkept m hm)
    exact ⟨spec, List.mem_append_left _ hspec, hm⟩
  · exact h.attributes fun hlists => hnot hlists.mono

/-- A new list of inner classes takes the place of an old one, and of no other
attribute. -/
theorem otherAttributes_listing (h : Appended changes c d) (hc : c.Closed) {listing : Attribute}
    (hpool : Appends d.pool pool) (hlists : ListsInner pool listing) :
    ClassFile.otherAttributes { d with
      pool
      attributes := d.attributes.filter (fun a => a.nameIndex != listing.nameIndex) ++
        [listing] } = c.otherAttributes := by
  have hnew : (pool.get? listing.nameIndex != some (.utf8 (encode innerClassesName))) = false := by
    rw [hlists, bne_self_eq_false]
  rw [← h.otherAttributes, ClassFile.otherAttributes, List.filter_append,
    List.filter_cons_of_neg (by rw [hnew]; exact Bool.false_ne_true), List.filter_nil,
    List.append_nil, List.filter_filter]
  refine List.filter_congr fun a ha => ?_
  rw [h.get?_attribute hc hpool ha]
  by_cases hindex : a.nameIndex = listing.nameIndex
  · rw [← h.get?_attribute hc hpool ha, hindex, hnew, Bool.false_and]
  · rw [bne_iff_ne.2 hindex, Bool.and_true]

/-- One more edit that goes well. -/
theorem makes (h : Appended changes c d) (hd : d = c.after changes) (hc : c.Closed)
    (hrun : change.run d = .ok () e) : Appended (changes ++ [change]) c e := by
  have hle := h.pool.size_le_maxCount hc.pool.size_le
  have hmakes := makes_of_run hrun
  have hpool := hmakes.pool
  have hlast : change ∈ changes ++ [change] :=
    List.mem_append_right _ (List.mem_singleton_self change)
  cases hmakes with
  | @field spec m pool hm =>
    have hbase : Appended (changes ++ [.addField spec]) c { d with pool } :=
      h.constants hc rfl hpool
    obtain ⟨added, hfields, hspecs⟩ := hbase.fields
    refine { hbase with fields := ⟨added ++ [m], ?_, fun m' hm' => ?_⟩ }
    · rw [← List.append_assoc, ← hfields]
    · rcases List.mem_append.1 hm' with hm' | hm'
      · exact hspecs m' hm'
      · rw [List.mem_singleton.1 hm']
        exact ⟨spec, hlast, memberOf_describes hle hm⟩
  | removed name => exact h.removed hc name
  | known _ _ => exact h.constants hc rfl hpool
  | @interface n index pool hi =>
    have hbase : Appended (changes ++ [.addInterface n]) c { d with pool } :=
      h.constants hc rfl hpool
    obtain ⟨added, hinterfaces, hnames⟩ := hbase.interfaces
    refine { hbase with interfaces := ⟨added ++ [index], ?_, fun index' hi' => ?_⟩ }
    · rw [← List.append_assoc, ← hinterfaces]
    · rcases List.mem_append.1 hi' with hi' | hi'
      · exact hnames index' hi'
      · rw [List.mem_singleton.1 hi']
        exact ⟨n, hlast, ConstantPool.className_of_classIndex hle hi⟩
  | @listing rows listing pool hl =>
    have hlists := innerClassesAttribute_lists hle hl
    have hbase : Appended (changes ++ [.setInnerClasses rows]) c { d with pool } :=
      h.constants hc rfl hpool
    refine { hbase with
      otherAttributes := h.otherAttributes_listing hc hpool hlists
      listings := fun a ha => ?_
      attributes := fun hnot => absurd ⟨changes, rows, [], _, rfl, hd ▸ hrun⟩ hnot }
    rcases List.mem_append.1 ha with ha | ha
    · exact hbase.listings a (List.mem_filter.1 ha).1
    · rw [List.mem_singleton.1 ha]
      exact .inr hlists

end Appended

theorem appended_after (hc : c.Closed) (changes : List Change) :
    Appended changes c (c.after changes) := by
  induction changes using List.reverseRecOn with
  | nil => exact .nil c
  | append_singleton changes change ih =>
    rw [after_concat]
    cases hrun : change.run (c.after changes) with
    | ok _ d =>
      rw [leaves_of_ok hrun]
      exact ih.makes rfl hc hrun
    | error reason d =>
      rw [leaves_of_error hrun]
      obtain ⟨hpool, hd⟩ := run_eq_error hrun
      rw [hd]
      exact ih.constants hc (removals_of_error hrun) hpool

/-! ## Look-ups -/

/-- Whoever asked the earlier class file and got an answer gets the same one from the
later class file, unless the question was about what had to change. -/
structure Answers (changes : List Change) (c d : ClassFile) : Prop where
  name : ∀ n, c.name = .ok n → d.name = .ok n
  superName : ∀ n, c.superName? = .ok n → d.superName? = .ok n
  interfaceNames : ∀ names, c.interfaceNames = .ok names → ∃ more,
    d.interfaceNames = .ok (names ++ more) ∧ ∀ n ∈ more, .addInterface n ∈ changes
  memberName : ∀ m s, c.memberName m = .ok s → d.memberName m = .ok s
  memberDescriptor : ∀ m s, c.memberDescriptor m = .ok s → d.memberDescriptor m = .ok s
  declaredField : ∀ name m, c.declaredField? name = some m → name ∉ removals changes →
    d.declaredField? name = some m
  attributes : ∀ name, (name = innerClassesName → ¬ c.Relists changes) →
    d.attribute? name = c.attribute? name

theorem declaredField?_eq_find? (name : String) (c : ClassFile) :
    c.declaredField? name = c.fields.find? (c.hasName [name]) := by
  rw [declaredField?_eq]
  refine List.find?_congr fun m _ => ?_
  rw [hasName, List.any_cons, List.any_nil, Bool.or_false]

/-- The names of the interfaces are kept in a longer pool. -/
theorem interfaceNames_of_appends {names : List ClassName} {pool : ConstantPool}
    (hnames : c.interfaceNames = .ok names) (h : Appends c.pool pool) :
    c.interfaces.mapM pool.className = .ok names := by
  rw [interfaceNames_eq] at hnames
  exact mapM_eq_ok_of_kept hnames fun _ _ hn => ConstantPool.className_of_appends hn h

theorem find?_survivors {names : List String} {name : String} (h : name ∉ names) :
    (c.survivors names).find? (c.hasName [name]) = c.declaredField? name := by
  rw [declaredField?_eq_find?]
  induction names using List.reverseRecOn with
  | nil => rfl
  | append_singleton names other ih =>
    rw [survivors_concat, find?_eraseP fun m hm hother => ?_]
    · exact ih fun hname => h (List.mem_append_left _ hname)
    · obtain ⟨_, hmem, hname⟩ := hasName_iff.1 hm
      obtain ⟨_, hmem', hname'⟩ := hasName_iff.1 hother
      rw [List.mem_singleton.1 hmem] at hname
      rw [List.mem_singleton.1 hmem', hname] at hname'
      simp only [Option.some.injEq, Constant.utf8.injEq] at hname'
      have hsame := ModifiedUtf8.encode_injective hname'
      exact h (List.mem_append_right _ (List.mem_singleton.2 hsame))

namespace Appended

theorem thisClass (h : Appended changes c d) : d.thisClass = c.thisClass := by
  rw [← h.rest]

theorem superClass (h : Appended changes c d) : d.superClass = c.superClass := by
  rw [← h.rest]

theorem interfaceNames (h : Appended changes c d) {names : List ClassName}
    (hnames : c.interfaceNames = .ok names) : ∃ more,
      d.interfaceNames = .ok (names ++ more) ∧ ∀ n ∈ more, .addInterface n ∈ changes := by
  obtain ⟨added, hinterfaces, hadded⟩ := h.interfaces
  have hold := interfaceNames_of_appends hnames h.pool
  have hnew : ∃ more, added.mapM d.pool.className = .ok more ∧
      ∀ n ∈ more, .addInterface n ∈ changes := by
    simp only [mapM_eq_ok_iff]
    clear hinterfaces
    induction added with
    | nil => exact ⟨[], .nil, fun _ hn => nomatch hn⟩
    | cons index added ih =>
      obtain ⟨more, hmore, hasked⟩ := ih fun i hi => hadded i (List.mem_cons_of_mem index hi)
      obtain ⟨n, hn, hindex⟩ := hadded index List.mem_cons_self
      exact ⟨n :: more, .cons hindex hmore, List.forall_mem_cons.2 ⟨hn, hasked⟩⟩
  obtain ⟨more, hmore, hasked⟩ := hnew
  refine ⟨more, ?_, hasked⟩
  rw [interfaceNames_eq, hinterfaces]
  exact mapM_append_eq_ok hold hmore

theorem declaredField (h : Appended changes c d) (hc : c.Closed) {name : String} {m : Member}
    (hfound : c.declaredField? name = some m) (hkept : name ∉ removals changes) :
    d.declaredField? name = some m := by
  obtain ⟨added, hfields, -⟩ := h.fields
  have hsame : (c.survivors (removals changes)).find? (d.hasName [name]) = some m := by
    rw [← hfound, ← find?_survivors hkept]
    exact List.find?_congr fun m hm =>
      hasName_of_appends (hc.fields m ((survivors_sublist _ c).mem hm)) h.pool
  rw [declaredField?_eq_find?, hfields, List.find?_append, hsame, Option.some_or]

theorem attribute_other (h : Appended changes c d) (hc : c.Closed) {name : String}
    (hname : name ≠ innerClassesName) : d.attribute? name = c.attribute? name := by
  -- what has the name is no list of inner classes
  have hother : ∀ x : ClassFile, x.attribute? name = x.otherAttributes.find? fun a =>
      x.pool.get? a.nameIndex == some (.utf8 (encode name)) := by
    intro x
    rw [attribute?_eq, ClassFile.otherAttributes, List.find?_filter]
    refine List.find?_congr fun a _ => ?_
    by_cases ha : x.pool.get? a.nameIndex = some (.utf8 (encode name))
    · have hne : encode name ≠ encode innerClassesName :=
        fun he => hname (ModifiedUtf8.encode_injective he)
      simp [ha, hne]
    · simp [ha]
  rw [hother, hother, h.otherAttributes]
  refine List.find?_congr fun a ha => ?_
  rw [ConstantPool.get?_eq_of_appends (hc.attributes a (List.mem_filter.1 ha).1) h.pool]

theorem attribute_eq (h : Appended changes c d) (hc : c.Closed) {name : String}
    (hkept : name = innerClassesName → ¬ c.Relists changes) :
    d.attribute? name = c.attribute? name := by
  by_cases hname : name = innerClassesName
  · rw [attribute?_eq, attribute?_eq, h.attributes (hkept hname)]
    refine List.find?_congr fun a ha => ?_
    rw [ConstantPool.get?_eq_of_appends (hc.attributes a ha) h.pool]
  · exact h.attribute_other hc hname

theorem answers (h : Appended changes c d) (hc : c.Closed) : Answers changes c d where
  name n hn := by
    rw [ClassFile.name, h.thisClass]
    exact ConstantPool.className_of_appends hn h.pool
  superName n hn := by
    unfold ClassFile.superName? at hn ⊢
    rw [h.superClass]
    by_cases hzero : c.superClass = 0
    · rw [if_pos hzero] at hn ⊢
      exact hn
    · rw [if_neg hzero] at hn ⊢
      cases hsuper : c.pool.className c.superClass with
      | error e => rw [hsuper] at hn; cases hn
      | ok n' =>
        rw [ConstantPool.className_of_appends hsuper h.pool, ← hsuper]
        exact hn
  interfaceNames _ := h.interfaceNames
  memberName _ _ hs := ConstantPool.utf8_of_appends hs h.pool
  memberDescriptor _ _ hs := ConstantPool.utf8_of_appends hs h.pool
  declaredField _ _ hfound hkept := h.declaredField hc hfound hkept
  attributes _ hkept := h.attribute_eq hc hkept

end Appended

/-- However often a class file is edited, and whether the edits go well or not, what they
leave is the class file with additions that were asked for, without the fields that had
to go; one more edit that fails adds constants at most; and whoever asked before gets
the same answers. -/
theorem edits_only_append (hc : c.Closed) (changes : List Change) :
    Appended changes c (c.after changes) ∧
      (∀ change reason d, Change.run change (c.after changes) = .error reason d →
        Appends (c.after changes).pool d.pool ∧ d = { c.after changes with pool := d.pool }) ∧
      Answers changes c (c.after changes) := by
  have h := appended_after hc changes
  exact ⟨h, fun _ _ _ => run_eq_error, h.answers hc⟩

/-- A class file with a field, a list of inner classes and an attribute of another
name. -/
def listingSample : ClassFile :=
  { empty with
    pool := leaves (do
      let _ ← ConstantPool.utf8Index "x"
      let _ ← ConstantPool.utf8Index innerClassesName
      ConstantPool.utf8Index "SourceFile") .empty
    fields := [{ accessFlags := .empty, nameIndex := 1, descriptorIndex := 1, attributes := [] }]
    attributes := [{ nameIndex := 2, info := [0, 0] }, { nameIndex := 3, info := [0, 1] }] }

/-- The second edit fails, as the field is there already. -/
def sampleChanges : List Change :=
  [.setInnerClasses [], .addField (.booleanConstant "x" .publicFlag true), .removeField "x",
    .addField (.booleanConstant "x" .publicFlag true)]

theorem listingSample_appends : listingSample.Closed ∧
    Appended sampleChanges listingSample (listingSample.after sampleChanges) ∧
    (listingSample.after sampleChanges).attribute? "SourceFile" =
      some { nameIndex := 3, info := [0, 1] } := by
  have happends : Appends .empty listingSample.pool :=
    Keeps.bind (ConstantPool.appends_utf8Index _) (fun _ =>
      .bind (ConstantPool.appends_utf8Index _) fun _ => ConstantPool.appends_utf8Index _) _
  have hpool : listingSample.pool.Obtained := ConstantPool.Obtained.empty.of_appends happends
  have hfields : listingSample.IndicesInside := by
    unfold IndicesInside
    decide +kernel
  have hclosed : listingSample.Closed := ⟨hpool, hfields, by decide +kernel⟩
  obtain ⟨happended, -, hanswers⟩ := edits_only_append hclosed sampleChanges
  exact ⟨hclosed, happended,
    (hanswers.attributes "SourceFile" fun h => absurd h (by decide)).trans (by decide +kernel)⟩

end ClassFile

end ClassStamp
