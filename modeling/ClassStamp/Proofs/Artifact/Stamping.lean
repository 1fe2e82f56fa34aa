import ClassStamp.Fixture
import ClassStamp.Proofs.Additive
import ClassStamp.Proofs.ClassFile.AddedField

/-!
# Stamping, and stamping again

A stamp that is removed again leaves the constants of its field at the end of the pool,
and nothing else. These are found when the stamp is applied once more, so the class is then
the same as after the first time, whatever its pool and its fields are, also if the pool
is full by now. Other stamps do not notice.

* `Stamp.apply_of_addField`, `Stamp.remove_of_removeField`: stamping and unstamping, from
  the edits of the class file;
* `Stamp.apply_remove_apply`: there and back and there again.
-/

namespace ClassStamp

open ConstantPool (Appends)

namespace Stamp

variable {s : Stamp} {a b : Artifact} {c : ClassFile}

/-- A class that is not frozen can be stamped if the field can be added. -/
theorem apply_of_addField (hfrozen : a.frozen = none)
    (h : ClassFile.addField (s.spec a.classFile.isInterface) a.classFile = .ok () c) :
    s.apply a = .ok () { a with isModified := true, classFile := c } := by
  have hnew : ¬ s.isPresent a = true := (ClassFile.addField_eq_ok h).1
  have hunfrozen : ¬ a.isFrozen = true := Option.not_isSome_iff_eq_none.2 hfrozen
  have hspec : s.spec a.classFile.isInterface =
      .booleanConstant s.field (accessFlags a) true := rfl
  unfold apply
  rw [if_neg hnew, ← hspec]
  dsimp only
  rw [Artifact.edit_of_not_frozen hunfrozen, h]

theorem remove_of_removeField {removed : Bool} (hfrozen : a.frozen = none)
    (hpresent : s.isPresent a = true)
    (h : ClassFile.removeField s.field a.classFile = .ok removed c) :
    s.remove a = .ok removed { a with isModified := true, classFile := c } := by
  have hunfrozen : ¬ a.isFrozen = true := Option.not_isSome_iff_eq_none.2 hfrozen
  unfold remove
  rw [if_pos hpresent, Artifact.edit_of_not_frozen hunfrozen, h]

theorem apply_of_isPresent (h : s.isPresent a = true) :
    s.apply a = .error (.alreadyPresent a.name s.field) a := by
  unfold apply
  rw [if_pos h]

/-- The value of the field of a stamp is looked up, and added only if it is not there. -/
theorem settles_value (inInterface : Bool) : ∀ value ∈ (s.spec inInterface).value,
    ConstantPool.Settles (ClassFile.valueIndex value) := by
  rintro value ⟨⟩
  exact ConstantPool.settles_indexOf _

/-- A class that was stamped loses the stamp again, but for the constants of its field, and
then takes it again, as the same class as before; while it has the stamp it is refused
another time; and all this changes nothing for stamps with another field. Only a class that
is not frozen and does not carry the stamp takes it at all. -/
theorem apply_remove_apply (hc : a.classFile.pool.Obtained) (hin : a.classFile.IndicesInside)
    (h : s.apply a = .ok () b) :
    s.apply b = .error (.alreadyPresent b.name s.field) b ∧
    ∃ left, s.remove b = .ok true left ∧
      left.classFile = { a.classFile with pool := left.classFile.pool } ∧
      Appends a.classFile.pool left.classFile.pool ∧
      s.apply left = .ok () b ∧
      ∀ t : Stamp, t.field ≠ s.field →
        t.isPresent b = t.isPresent a ∧ t.isPresent left = t.isPresent a := by
  obtain ⟨hfrozen, c, hadd, rfl⟩ := apply_eq_ok h
  obtain ⟨-, -, m, hm, -⟩ := ClassFile.addField_eq_ok hadd
  have hpool : Appends a.classFile.pool c.pool := (ClassFile.appends_memberOf _).ok hm
  have hpresent := (ClassFile.declared_addField hc.size_le hadd).2
  have hremoved := ClassFile.removeField_addField hin hc.size_le hadd
  have hagain := ClassFile.addField_again hin (settles_value _) hadd
  have hleft := ClassFile.declaredField?_of_appends
    (d := { a.classFile with pool := c.pool }) hin hpool rfl
  refine ⟨apply_of_isPresent hpresent, _, remove_of_removeField hfrozen hpresent hremoved, rfl,
    hpool, apply_of_addField hfrozen hagain, fun t ht => ⟨?_, ?_⟩⟩
  · exact congrArg Option.isSome (ClassFile.declaredField?_addField hin hc.size_le hadd ht)
  · exact congrArg Option.isSome (hleft t.field)

/-- A class that carries another stamp, of the field `x`. -/
def sampleArtifact : Artifact where
  name := Fixture.objectName
  classFile := ClassFile.listingSample
  isModified := false
  frozen := none
  nested := []

theorem general_stamp_comes_back : ClassFile.listingSample.pool.Obtained ∧
    ClassFile.listingSample.IndicesInside ∧ ∃ b left, general.apply sampleArtifact = .ok () b ∧
      general.remove b = .ok true left ∧ general.apply left = .ok () b ∧
      isPresent ⟨"x"⟩ left = true := by
  have hclosed := ClassFile.listingSample_appends.1
  have happly : succeeds general.apply sampleArtifact = true := by decide +kernel
  have hother : isPresent ⟨"x"⟩ sampleArtifact = true := by decide +kernel
  obtain ⟨-, left, hremoved, -, -, hagain, hothers⟩ :=
    apply_remove_apply hclosed.pool hclosed.fields (eq_ok_of_succeeds happly)
  exact ⟨hclosed.pool, hclosed.fields, _, left, eq_ok_of_succeeds happly, hremoved, hagain,
    (hothers ⟨"x"⟩ (by decide)).2.trans hother⟩

end Stamp

end ClassStamp
