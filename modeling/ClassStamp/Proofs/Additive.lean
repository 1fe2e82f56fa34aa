import Mathlib.Data.List.Forall2
import ClassStamp.Proofs.ClassFile.Growth
import ClassStamp.Transformer.MarkerField

/-!
# Additive transformers

An additive transformer touches a class, and the classes held with it, only by
adding fields and interfaces and by listing inner classes; it may open, freeze
and defrost them, but neither takes one in nor lets one go (`Artifact.Adds`).

* `Adds.with`: what it does to a class is growth of its class file, and the
  same for each class held with it;
* `Transformer.Makes`: what a transformer made of a class file, which is growth too if the
  transformer is additive (`Additive.grows`);
* `AddsOpenly`: the same without hiding that a class was opened, so that a class
  that does not count as opened was not changed (`AddsOpenly.classFile_eq`);
* `Stamp.apply_eq_ok`: stamping a class adds the field of the stamp to it;
* `MarkerField.additive`, `Transformer.opener_additive`: transformers that are additive.
-/

namespace ClassStamp

namespace Artifact

/-- The later artifact is what some additive edits make of the earlier one,
whether they go well or not, with no other field added than the allowed
ones. -/
inductive Adds (allowed : FieldSpec → Prop) : Artifact → Artifact → Prop
  | refl (a : Artifact) : Adds allowed a a
  | addField {a b : Artifact} (spec : FieldSpec) (hspec : allowed spec) :
    Adds allowed a b → Adds allowed a (leaves (edit (ClassFile.addField spec)) b)
  | addInterface {a b : Artifact} (n : ClassName) :
    Adds allowed a b → Adds allowed a (leaves (edit (ClassFile.addInterface n)) b)
  | setInnerClasses {a b : Artifact} (rows : List InnerClass) :
    Adds allowed a b → Adds allowed a (leaves (edit (ClassFile.setInnerClasses rows)) b)
  | beginEdit {a b : Artifact} : Adds allowed a b → Adds allowed a (leaves beginEdit b)
  | clearModified {a b : Artifact} : Adds allowed a b → Adds allowed a b.clearModified
  | freeze {a b : Artifact} : Adds allowed a b → Adds allowed a (leaves freeze b)
  | defrost {a b : Artifact} : Adds allowed a b → Adds allowed a b.defrost
  | inside {a b n n' : Artifact} {i : Nat} : Adds allowed a b → b.nested[i]? = some n →
    Adds allowed n n' → Adds allowed a { b with nested := b.nested.set i n' }

theorem edit_of_frozen {α : Type} {change : ClassFile.Edit α} {a : Artifact}
    (h : a.isFrozen = true) : edit change a = .error (.frozen a.name) a := by
  simp only [edit, bind, EStateM.bind, beginEdit]
  rw [if_pos h]

theorem edit_of_not_frozen {α : Type} {change : ClassFile.Edit α} {a : Artifact}
    (h : ¬ a.isFrozen = true) : edit change a = match change a.classFile with
      | .ok r classFile => .ok r { a with isModified := true, classFile }
      | .error e classFile => .error (.classFile e) { a with isModified := true, classFile } := by
  cases hc : change a.classFile with
  | ok r classFile => simp only [edit, bind, EStateM.bind, beginEdit, if_neg h, hc]
  | error e classFile => simp only [edit, bind, EStateM.bind, beginEdit, if_neg h, hc]

/-- An edit changes the class file, and nothing else but that it counts as a
modification. -/
theorem leaves_edit {α : Type} (change : ClassFile.Edit α) (a : Artifact) :
    leaves (edit change) a = a ∨
      leaves (edit change) a =
        { a with isModified := true, classFile := leaves change a.classFile } := by
  unfold leaves
  by_cases h : a.isFrozen = true
  · rw [edit_of_frozen h]
    exact .inl rfl
  · rw [edit_of_not_frozen h]
    cases change a.classFile <;> exact .inr rfl

theorem edit_eq_ok {α : Type} {change : ClassFile.Edit α} {a b : Artifact} {r : α}
    (h : edit change a = .ok r b) : a.frozen = none ∧ ∃ classFile,
      change a.classFile = .ok r classFile ∧ b = { a with isModified := true, classFile } := by
  by_cases hf : a.isFrozen = true
  · rw [edit_of_frozen hf] at h
    cases h
  · rw [edit_of_not_frozen hf] at h
    refine ⟨Option.not_isSome_iff_eq_none.1 hf, ?_⟩
    cases hc : change a.classFile with
    | error e classFile => rw [hc] at h; cases h
    | ok r' classFile =>
      rw [hc] at h
      cases h
      exact ⟨classFile, rfl, rfl⟩

variable {allowed : FieldSpec → Prop} {a b c : Artifact}

namespace Adds

theorem trans (h : Adds allowed a b) (h' : Adds allowed b c) : Adds allowed a c := by
  induction h' with
  | refl => exact h
  | addField spec hspec _ ih => exact (ih h).addField spec hspec
  | addInterface n _ ih => exact (ih h).addInterface n
  | setInnerClasses rows _ ih => exact (ih h).setInnerClasses rows
  | beginEdit _ ih => exact (ih h).beginEdit
  | clearModified _ ih => exact (ih h).clearModified
  | freeze _ ih => exact (ih h).freeze
  | defrost _ ih => exact (ih h).defrost
  | inside _ hi hn ih => exact (ih h).inside hi hn

end Adds

theorem leaves_beginEdit (a : Artifact) :
    leaves beginEdit a = a ∨ leaves beginEdit a = { a with isModified := true } := by
  unfold leaves beginEdit
  by_cases h : a.isFrozen = true
  · rw [if_pos h]
    exact .inl rfl
  · rw [if_neg h]
    exact .inr rfl

theorem leaves_freeze (a : Artifact) :
    leaves freeze a = a ∨ ∃ bytes, leaves freeze a = { a with frozen := some bytes } := by
  unfold leaves freeze
  cases a.toBytes with
  | error e => exact .inl rfl
  | ok bytes => exact .inr ⟨bytes, rfl⟩

/-- The bytes of an artifact that is not frozen are those of its class file. -/
theorem toBytes_of_not_frozen {bytes : Bytes} (h : a.toBytes = .ok bytes)
    (hfrozen : a.frozen = none) : a.classFile.toBytes = .ok bytes := by
  unfold toBytes at h
  rw [hfrozen] at h
  dsimp only at h
  cases hc : a.classFile.toBytes with
  | error e =>
    rw [hc] at h
    cases h
  | ok bytes' =>
    rw [hc] at h
    cases h
    rfl

/-! ## What additive edits do -/

/-- The later artifact is of the same class, its class file has grown, and the
classes held with it are those that the relation allows. -/
structure AddsWith (allowed : FieldSpec → Prop) (R : Artifact → Artifact → Prop)
    (a b : Artifact) : Prop where
  name : b.name = a.name
  classFile : ClassFile.Grows allowed a.classFile b.classFile
  nested : List.Forall₂ R a.nested b.nested

theorem AddsWith.then {R : Artifact → Artifact → Prop} (h : AddsWith allowed R a b)
    (hname : c.name = b.name) (hclass : ClassFile.Grows allowed b.classFile c.classFile)
    (hnested : c.nested = b.nested) : AddsWith allowed R a c :=
  ⟨hname.trans h.name, h.classFile.trans hclass, hnested ▸ h.nested⟩

theorem AddsWith.edit {α : Type} {change : ClassFile.Edit α} {R : Artifact → Artifact → Prop}
    (h : AddsWith allowed R a b) (hchange : Keeps (ClassFile.Grows allowed) change) :
    AddsWith allowed R a (leaves (Artifact.edit change) b) := by
  rcases leaves_edit change b with he | he
  · rwa [he]
  · rw [he]
    exact h.then rfl (hchange b.classFile) rfl

/-- Classes that keep their names one by one have the same names. -/
theorem map_name_of_forall₂ {R : Artifact → Artifact → Prop} {as bs : List Artifact}
    (hname : ∀ {a b}, R a b → b.name = a.name) (h : List.Forall₂ R as bs) :
    bs.map (·.name) = as.map (·.name) := by
  induction h with
  | nil => rfl
  | cons hab _ ih => rw [List.map_cons, List.map_cons, hname hab, ih]

/-- To each member of the second list belongs one of the first. -/
theorem exists_of_forall₂ {α β : Type} {R : α → β → Prop} {xs : List α} {ys : List β} {y : β}
    (h : List.Forall₂ R xs ys) (hy : y ∈ ys) : ∃ x ∈ xs, R x y := by
  induction h with
  | nil => cases hy
  | cons hx _ ih =>
    rcases List.mem_cons.1 hy with rfl | hy
    · exact ⟨_, List.mem_cons_self, hx⟩
    · obtain ⟨x, hmem, hxy⟩ := ih hy
      exact ⟨x, List.mem_cons_of_mem _ hmem, hxy⟩

theorem forall₂_set {α β : Type} {R : α → β → Prop} {xs : List α} {ys : List β} {y y' : β} {i : Nat}
    (h : List.Forall₂ R xs ys) (hi : ys[i]? = some y) (hy : ∀ x, R x y → R x y') :
    List.Forall₂ R xs (ys.set i y') := by
  induction h generalizing i with
  | nil => cases hi
  | cons hx hxs ih =>
    cases i with
    | zero =>
      cases hi
      exact .cons (hy _ hx) hxs
    | succ i => exact .cons hx (ih hi)

/-- Additive edits of some classes held with a class, behind others that stay. -/
theorem Adds.behind {xs ys : List Artifact} (h : List.Forall₂ (Adds allowed) xs ys)
    (before : List Artifact) :
    Adds allowed { a with nested := before ++ xs } { a with nested := before ++ ys } := by
  induction h generalizing before with
  | nil => exact .refl _
  | @cons x y xs ys hxy _ ih =>
    have hx : (before ++ x :: xs)[before.length]? = some x := by
      rw [List.getElem?_append_right (Nat.le_refl _), Nat.sub_self, List.getElem?_cons_zero]
    have hfirst := (Adds.refl { a with nested := before ++ x :: xs }).inside hx hxy
    have hset : (before ++ x :: xs).set before.length y = before ++ y :: xs := by
      rw [List.set_append_right _ _ (Nat.le_refl _), Nat.sub_self, List.set_cons_zero]
    dsimp only at hfirst
    rw [hset] at hfirst
    have hrest := ih (before ++ [y])
    rw [← List.append_cons, ← List.append_cons] at hrest
    exact hfirst.trans hrest

/-- Additive edits of the classes held with a class are such edits of the class. -/
theorem Adds.of_nested {nested : List Artifact}
    (h : List.Forall₂ (Adds allowed) a.nested nested) : Adds allowed a { a with nested } := by
  have hall := Adds.behind (a := a) h []
  rw [List.nil_append, List.nil_append] at hall
  cases a
  exact hall

theorem Adds.with (h : Adds allowed a b) : AddsWith allowed (Adds allowed) a b := by
  induction h with
  | refl a => exact ⟨rfl, .refl allowed _, List.forall₂_same.2 fun n _ => .refl n⟩
  | addField spec hspec _ ih => exact ih.edit (ClassFile.grows_addField hspec)
  | addInterface n _ ih => exact ih.edit (ClassFile.grows_addInterface n)
  | setInnerClasses rows _ ih => exact ih.edit (ClassFile.grows_setInnerClasses rows)
  | @beginEdit a b _ ih =>
    rcases leaves_beginEdit b with he | he
    · rwa [he]
    · rw [he]
      exact ih.then rfl (.refl allowed _) rfl
  | clearModified _ ih => exact ih.then rfl (.refl allowed _) rfl
  | @freeze a b _ ih =>
    rcases leaves_freeze b with he | ⟨bytes, he⟩
    · rwa [he]
    · rw [he]
      exact ih.then rfl (.refl allowed _) rfl
  | defrost _ ih => exact ih.then rfl (.refl allowed _) rfl
  | @inside a b n n' i _ hi hn ih =>
    exact ⟨ih.name, ih.classFile, forall₂_set ih.nested hi fun m hm => hm.trans hn⟩

/-! ## Edits that count -/

/-- The change of a class file adds an allowed field, adds an interface, or lists
inner classes. -/
inductive Adding (allowed : FieldSpec → Prop) : {α : Type} → ClassFile.Edit α → Prop
  | addField (spec : FieldSpec) (hspec : allowed spec) : Adding allowed (ClassFile.addField spec)
  | addInterface (n : ClassName) : Adding allowed (ClassFile.addInterface n)
  | setInnerClasses (rows : List InnerClass) : Adding allowed (ClassFile.setInnerClasses rows)

/-- The later artifact is what some additive edits make of the earlier one, and
none of them makes a class look as if it had not been opened. -/
inductive AddsOpenly (allowed : FieldSpec → Prop) : Artifact → Artifact → Prop
  | refl (a : Artifact) : AddsOpenly allowed a a
  | edit {a b : Artifact} {α : Type} {change : ClassFile.Edit α} (hchange : Adding allowed change) :
    AddsOpenly allowed a b → AddsOpenly allowed a (leaves (Artifact.edit change) b)
  | beginEdit {a b : Artifact} :
    AddsOpenly allowed a b → AddsOpenly allowed a (leaves Artifact.beginEdit b)
  | freeze {a b : Artifact} :
    AddsOpenly allowed a b → AddsOpenly allowed a (leaves Artifact.freeze b)
  | defrost {a b : Artifact} : AddsOpenly allowed a b → AddsOpenly allowed a b.defrost
  | inside {a b n n' : Artifact} {i : Nat} : AddsOpenly allowed a b → b.nested[i]? = some n →
    AddsOpenly allowed n n' → AddsOpenly allowed a { b with nested := b.nested.set i n' }

namespace AddsOpenly

theorem adds (h : AddsOpenly allowed a b) : Adds allowed a b := by
  induction h with
  | refl a => exact .refl a
  | edit hchange _ ih =>
    cases hchange with
    | addField spec hspec => exact ih.addField spec hspec
    | addInterface n => exact ih.addInterface n
    | setInnerClasses rows => exact ih.setInnerClasses rows
  | beginEdit _ ih => exact ih.beginEdit
  | freeze _ ih => exact ih.freeze
  | defrost _ ih => exact ih.defrost
  | inside _ hi _ ih ihn => exact ih.inside hi ihn

theorem trans (h : AddsOpenly allowed a b) (h' : AddsOpenly allowed b c) :
    AddsOpenly allowed a c := by
  induction h' with
  | refl => exact h
  | edit hchange _ ih => exact (ih h).edit hchange
  | beginEdit _ ih => exact (ih h).beginEdit
  | freeze _ ih => exact (ih h).freeze
  | defrost _ ih => exact (ih h).defrost
  | inside _ hi hn ih => exact (ih h).inside hi hn

/-- A class that does not count as opened in the end was not changed. -/
theorem classFile_eq (h : AddsOpenly allowed a b) (hb : b.isModified = false) :
    b.classFile = a.classFile := by
  induction h with
  | refl a => rfl
  | @edit a b α change _ _ ih =>
    rcases leaves_edit change b with he | he <;> rw [he] at hb ⊢
    · exact ih hb
    · cases hb
  | @beginEdit a b _ ih =>
    rcases leaves_beginEdit b with he | he <;> rw [he] at hb ⊢
    · exact ih hb
    · cases hb
  | @freeze a b _ ih =>
    rcases leaves_freeze b with he | ⟨bytes, he⟩ <;> rw [he] at hb ⊢ <;> exact ih hb
  | defrost _ ih => exact ih hb
  | inside _ _ _ ih => exact ih hb

/-- The classes held with a class are edited in the same way. -/
theorem nested (h : AddsOpenly allowed a b) :
    List.Forall₂ (AddsOpenly allowed) a.nested b.nested := by
  induction h with
  | refl a => exact List.forall₂_same.2 fun n _ => .refl n
  | @edit a b α change _ _ ih =>
    rcases leaves_edit change b with he | he <;> rw [he] <;> exact ih
  | @beginEdit a b _ ih =>
    rcases leaves_beginEdit b with he | he <;> rw [he] <;> exact ih
  | @freeze a b _ ih =>
    rcases leaves_freeze b with he | ⟨bytes, he⟩ <;> rw [he] <;> exact ih
  | defrost _ ih => exact ih
  | inside _ hi hn ih => exact forall₂_set ih hi fun m hm => hm.trans hn

end AddsOpenly

end Artifact

/-- Whenever the transformer does its work, it does so by additive edits. -/
def Transformer.Additive (allowed : FieldSpec → Prop) (t : Transformer) : Prop :=
  ∀ a b, t.apply a = .ok () b → Artifact.Adds allowed a b

/-- The transformer made the one class file into the other, when it acted on the
class or on one that the class is inside of. -/
inductive Transformer.Makes (t : Transformer) (n : ClassName) : ClassFile → ClassFile → Prop
  | own {a b : Artifact} (applied : t.apply a = .ok () b) (name : a.name = n) :
    t.Makes n a.classFile b.classFile
  | inside {a b x y : Artifact} (applied : t.apply a = .ok () b)
    (pair : (x, y) ∈ a.nested.zip b.nested) (name : x.name = n) :
    t.Makes n x.classFile y.classFile

/-- What an additive transformer makes of a class file has grown out of it. -/
theorem Transformer.Additive.grows {allowed : FieldSpec → Prop} {t : Transformer} {n : ClassName}
    {c d : ClassFile} (h : t.Additive allowed) (hmakes : t.Makes n c d) :
    ClassFile.Grows allowed c d := by
  cases hmakes with
  | own applied _ => exact (h _ _ applied).with.classFile
  | inside applied pair _ =>
    obtain ⟨-, hpairs⟩ := List.forall₂_iff_zip.1 (h _ _ applied).with.nested
    exact (hpairs pair).with.classFile

/-- Whenever the transformer does its work, it does so by additive edits that all
count. -/
def Transformer.AddsOpenly (t : Transformer) : Prop :=
  ∀ a b, t.apply a = .ok () b → Artifact.AddsOpenly (fun _ => True) a b

theorem Transformer.AddsOpenly.additive {t : Transformer} (h : t.AddsOpenly) :
    t.Additive fun _ => True :=
  fun a b happly => (h a b happly).adds

namespace Stamp

/-- The field of a stamp in a class or an interface. -/
def spec (s : Stamp) (inInterface : Bool) : FieldSpec :=
  .booleanConstant s.field ((if inInterface then AccessFlags.publicFlag else .privateFlag) |||
    .staticFlag ||| .finalFlag) true

theorem apply_eq_ok {s : Stamp} {a b : Artifact} (h : s.apply a = .ok () b) :
    a.frozen = none ∧ ∃ classFile,
      ClassFile.addField (s.spec a.classFile.isInterface) a.classFile = .ok () classFile ∧
      b = { a with isModified := true, classFile } := by
  unfold apply at h
  split at h
  · cases h
  dsimp only at h
  split at h
  · rename_i a' hedit
    cases h
    exact Artifact.edit_eq_ok hedit
  · cases h

/-- Stamping a class adds the field of the stamp to it, if anything. -/
theorem leaves_apply (s : Stamp) (a : Artifact) : leaves s.apply a = a ∨
    leaves s.apply a =
      leaves (Artifact.edit (ClassFile.addField (s.spec a.classFile.isInterface))) a := by
  unfold leaves apply
  by_cases hpresent : s.isPresent a = true
  · rw [if_pos hpresent]
    exact .inl rfl
  · rw [if_neg hpresent]
    refine .inr ?_
    have hspec : s.spec a.classFile.isInterface =
        .booleanConstant s.field (accessFlags a) true := rfl
    rw [hspec]
    dsimp only
    cases Artifact.edit (ClassFile.addField (.booleanConstant s.field (accessFlags a) true)) a <;>
      rfl

/-- Taking a stamp away removes the field of the stamp, if anything. -/
theorem leaves_remove (s : Stamp) (a : Artifact) : leaves s.remove a = a ∨
    leaves s.remove a = leaves (Artifact.edit (ClassFile.removeField s.field)) a := by
  unfold leaves remove
  by_cases hpresent : s.isPresent a = true
  · rw [if_pos hpresent]
    refine .inr ?_
    cases Artifact.edit (ClassFile.removeField s.field) a <;> rfl
  · rw [if_neg hpresent]
    exact .inl rfl

end Stamp

theorem Transformer.onArtifact_eq_ok {α : Type} {edit : Artifact.Edit α} {a b : Artifact} {r : α}
    (h : onArtifact edit a = .ok r b) : edit a = .ok r b := by
  unfold onArtifact at h
  cases hedit : edit a with
  | error e a' => rw [hedit] at h; cases h
  | ok r' a' =>
    rw [hedit] at h
    cases h
    rfl

namespace MarkerField

/-- When the transformer has acted on a class, the field was added to it and nothing else
happened. -/
theorem apply_eq_ok {m : MarkerField} {a b : Artifact} (h : m.transformer.apply a = .ok () b) :
    ∃ classFile, ClassFile.addField m.spec a.classFile = .ok () classFile ∧
      b = { a with isModified := true, classFile } :=
  (Artifact.edit_eq_ok (Transformer.onArtifact_eq_ok h)).2

/-- The transformer adds its field, and nothing else. -/
theorem additive (m : MarkerField) {allowed : FieldSpec → Prop} (hm : allowed m.spec) :
    m.transformer.Additive allowed := by
  intro a b h
  have hedit : Artifact.edit (ClassFile.addField m.spec) a = .ok () b :=
    Transformer.onArtifact_eq_ok h
  rw [← leaves_of_ok hedit]
  exact .addField m.spec hm (.refl a)

/-- It does not hide that it opened the class. -/
theorem addsOpenly (m : MarkerField) : m.transformer.AddsOpenly := by
  intro a b h
  have hedit : Artifact.edit (ClassFile.addField m.spec) a = .ok () b :=
    Transformer.onArtifact_eq_ok h
  rw [← leaves_of_ok hedit]
  exact .edit (.addField m.spec trivial) (.refl a)

end MarkerField

namespace Transformer

/-- A transformer that adds a field to some of the classes inside the one it acts on. -/
def opener (identity : String) (opened : List ClassName) : Transformer where
  identity
  shouldTransform _ := .ok true
  apply a :=
    let spec := FieldSpec.booleanConstant identity .staticFlag true
    .ok () { a with nested := a.nested.map fun m =>
      if opened.contains m.name then leaves (Artifact.edit (ClassFile.addField spec)) m else m }

theorem opener_additive {identity : String} {allowed : FieldSpec → Prop}
    (h : allowed (.booleanConstant identity .staticFlag true)) (opened : List ClassName) :
    (opener identity opened).Additive allowed := by
  intro a b happly
  cases happly
  refine .of_nested ?_
  rw [List.forall₂_map_right_iff]
  refine List.forall₂_same.2 fun m _ => ?_
  split
  · exact .addField _ h (.refl m)
  · exact .refl m

end Transformer

end ClassStamp
