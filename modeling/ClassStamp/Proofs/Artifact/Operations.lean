import ClassStamp.Proofs.ClassFile.Changes
import ClassStamp.Proofs.Classpath.Everywhere
import ClassStamp.Proofs.Output

/-!
# What the operations of artifacts keep

An artifact is made of a class file and then opened and edited, frozen and defrosted,
stamped and written; it takes in other artifacts, to which the same is done, and lets
them go. Whatever of this happens to it and in which order, the bytes that it is frozen
as are those of its class file, and it holds classes that are inside it, each once.

* `Becomes`, `Reached`: the artifacts that there are;
* `InOrder`: what is true of an artifact at every moment. `Kept` says that one operation
  keeps it, with what it takes to say so of the next one (`Sound`), and `Becomes.kept`
  that any do;
* `Reached.includes`: those held with an artifact are of the same kind;
* `AnswersWith`, `FailsSafely`: what the operations answer, and what they leave when they
  fail;
* `reached_in_order`: all that, and that an artifact has the name that its class file
  declares, if it was edited by the edits there are for class files.
-/

namespace ClassStamp

/-- What an edit may make of which class file. -/
abbrev ClassFile.Allowance := ClassFile → ClassFile → Prop

/-- The later class file is what the edits there are for class files make of the earlier
one, whether they go well or not. -/
def ClassFile.ByChanges : ClassFile.Allowance := fun c d => ∃ changes, d = c.after changes

namespace Artifact

/-! ## Artifacts -/

/-- The artifact was just made, of a class file or of its bytes. -/
inductive Made : Artifact → Prop
  | new {c : ClassFile} {a : Artifact} : Artifact.new c = .ok a → Made a
  | ofBytes {n : ClassName} {bytes : Bytes} {a : Artifact} :
    Artifact.ofBytes n bytes = .ok a → Made a

/-- The later artifact is what operations make of the earlier one, whether they go well
or not. Of its class file an edit makes what `own` allows, and what `inner` allows of the
class file of an artifact that is held with it or was to be taken in. A stamp is applied
and removed by edits of the class file that are always allowed. -/
inductive Becomes (inner : ClassFile.Allowance) :
    ClassFile.Allowance → Artifact → Artifact → Prop
  | refl {own : ClassFile.Allowance} (a : Artifact) : Becomes inner own a a
  | edit {own : ClassFile.Allowance} {a b : Artifact} {α : Type} (change : ClassFile.Edit α)
    (hchange : own b.classFile (leaves change b.classFile)) :
    Becomes inner own a b → Becomes inner own a (leaves (Artifact.edit change) b)
  | beginEdit {own : ClassFile.Allowance} {a b : Artifact} :
    Becomes inner own a b → Becomes inner own a (leaves Artifact.beginEdit b)
  | clearModified {own : ClassFile.Allowance} {a b : Artifact} :
    Becomes inner own a b → Becomes inner own a b.clearModified
  | freeze {own : ClassFile.Allowance} {a b : Artifact} :
    Becomes inner own a b → Becomes inner own a (leaves Artifact.freeze b)
  | defrost {own : ClassFile.Allowance} {a b : Artifact} :
    Becomes inner own a b → Becomes inner own a b.defrost
  | attachNested {own : ClassFile.Allowance} {a b start m : Artifact}
    (hstart : Made start) (hm : Becomes inner inner start m) :
    Becomes inner own a b → Becomes inner own a (leaves (Artifact.attachNested m) b)
  | withoutNested {own : ClassFile.Allowance} {a b : Artifact} :
    Becomes inner own a b → Becomes inner own a b.withoutNested
  | stamp {own : ClassFile.Allowance} {a b : Artifact} (s : Stamp) :
    Becomes inner own a b → Becomes inner own a (leaves s.apply b)
  | unstamp {own : ClassFile.Allowance} {a b : Artifact} (s : Stamp) :
    Becomes inner own a b → Becomes inner own a (leaves s.remove b)
  | write {own : ClassFile.Allowance} {a b : Artifact} (o : Output) (files : FileTree) :
    Becomes inner own a b → Becomes inner own a (leaves o.write (b, files)).1
  | inside {own : ClassFile.Allowance} {a b n n' : Artifact} {i : Nat} :
    Becomes inner own a b → b.nested[i]? = some n → Becomes inner inner n n' →
    Becomes inner own a { b with nested := b.nested.set i n' }

/-- Operations lead to the artifact. -/
def Reached (inner own : ClassFile.Allowance) (a : Artifact) : Prop :=
  ∃ start, Made start ∧ Becomes inner own start a

variable {inner own : ClassFile.Allowance} {a b c n n' m : Artifact} {bytes : Bytes}

/-- Nothing has happened yet to an artifact that was just made. -/
theorem Made.fresh (h : Made a) :
    a.classFile.name = .ok a.name ∧ a.frozen = none ∧ a.nested = [] := by
  have hnew : ∀ {c : ClassFile} {b : Artifact}, Artifact.new c = .ok b →
      b.classFile.name = .ok b.name ∧ b.frozen = none ∧ b.nested = [] := by
    intro c b hb
    unfold Artifact.new at hb
    split at hb <;> cases hb
    rename_i hname
    exact ⟨hname, rfl, rfl⟩
  cases h with
  | new h => exact hnew h
  | ofBytes h =>
    unfold Artifact.ofBytes at h
    split at h
    · cases h
    · rename_i c _
      cases hc : Artifact.new c with
      | error e => rw [hc] at h; cases h
      | ok b =>
        rw [hc] at h
        dsimp only at h
        split_ifs at h
        cases h
        exact hnew hc

theorem Becomes.trans (h : Becomes inner own a b) (h' : Becomes inner own b c) :
    Becomes inner own a c := by
  induction h' with
  | refl => exact h
  | edit change hchange _ ih => exact (ih h).edit change hchange
  | beginEdit _ ih => exact (ih h).beginEdit
  | clearModified _ ih => exact (ih h).clearModified
  | freeze _ ih => exact (ih h).freeze
  | defrost _ ih => exact (ih h).defrost
  | attachNested hstart hm _ _ ih => exact .attachNested hstart hm (ih h)
  | withoutNested _ ih => exact (ih h).withoutNested
  | stamp s _ ih => exact (ih h).stamp s
  | unstamp s _ ih => exact (ih h).unstamp s
  | write o files _ ih => exact (ih h).write o files
  | inside _ hi hn ih => exact (ih h).inside hi hn

/-! ## What is true at every moment -/

/-- An artifact is frozen as the bytes of its class file, and holds classes directly inside
it, of every name one at most. -/
structure InOrder (a : Artifact) : Prop where
  encoded : ∀ bytes, a.frozen = some bytes → a.classFile.toBytes = .ok bytes
  members : ∀ m ∈ a.nested, m.name.isImmediateMemberOf a.name = true
  distinct : (a.nested.map (·.name)).Nodup

/-- The artifact is in order, holds what operations lead to, and has the name that its
class file declares if nothing but `ByChanges` is allowed. -/
structure Sound (inner own : ClassFile.Allowance) (a : Artifact) : Prop where
  order : a.InOrder
  held : ∀ m ∈ a.nested, Reached inner inner m
  declared : (∀ c d, own c d → ClassFile.ByChanges c d) → a.classFile.name = .ok a.name

/-- The artifact keeps its name, and stays sound. -/
structure Kept (inner own : ClassFile.Allowance) (a b : Artifact) : Prop where
  name : b.name = a.name
  sound : Sound inner own a → Sound inner own b

instance : IsPreorder Artifact (Kept inner own) where
  refl _ := ⟨rfl, id⟩
  trans _ _ _ h h' := ⟨h'.name.trans h.name, h'.sound ∘ h.sound⟩

/-- Whether the artifact is frozen or not, its bytes are those of its class file. -/
theorem InOrder.toBytes (h : a.InOrder) (hbytes : a.toBytes = .ok bytes) :
    a.classFile.toBytes = .ok bytes := by
  cases hfrozen : a.frozen with
  | none => exact toBytes_of_not_frozen hbytes hfrozen
  | some fixed =>
    unfold Artifact.toBytes at hbytes
    rw [hfrozen] at hbytes
    cases hbytes
    exact h.encoded _ hfrozen

theorem Made.sound (h : Made a) : Sound inner own a := by
  obtain ⟨hdeclared, hfrozen, halone⟩ := h.fresh
  refine ⟨⟨fun bytes hb => ?_, fun m hm => ?_, ?_⟩, fun m hm => ?_, fun _ => hdeclared⟩
  · rw [hfrozen] at hb
    cases hb
  · rw [halone] at hm
    cases hm
  · rw [halone]
    exact List.nodup_nil
  · rw [halone] at hm
    cases hm

/-- Only an artifact that is not frozen is opened. -/
theorem kept_edit {α : Type} {change : ClassFile.Edit α}
    (hname : (∀ c d, own c d → ClassFile.ByChanges c d) → a.classFile.name = .ok a.name →
      (leaves change a.classFile).name = .ok a.name) :
    Kept inner own a (leaves (Artifact.edit change) a) := by
  by_cases hfrozen : a.isFrozen = true
  · rw [leaves_of_error (edit_of_frozen hfrozen)]
    exact refl_of (Kept inner own) a
  · have hnone : a.frozen = none := Option.not_isSome_iff_eq_none.1 hfrozen
    have hleaves : leaves (Artifact.edit change) a =
        { a with isModified := true, classFile := leaves change a.classFile } := by
      unfold leaves
      rw [edit_of_not_frozen hfrozen]
      cases change a.classFile <;> rfl
    rw [hleaves]
    refine ⟨rfl, fun h => ⟨⟨fun bytes hb => ?_, h.order.members, h.order.distinct⟩, h.held,
      fun hown => hname hown (h.declared hown)⟩⟩
    exact absurd (hnone.symm.trans hb) (by simp)

theorem kept_beginEdit (a : Artifact) : Kept inner own a (leaves Artifact.beginEdit a) := by
  rcases leaves_beginEdit a with he | he <;> rw [he]
  · exact refl_of (Kept inner own) a
  · exact ⟨rfl, fun h =>
      ⟨⟨h.order.encoded, h.order.members, h.order.distinct⟩, h.held, h.declared⟩⟩

theorem kept_clearModified (a : Artifact) : Kept inner own a a.clearModified :=
  ⟨rfl, fun h => ⟨⟨h.order.encoded, h.order.members, h.order.distinct⟩, h.held, h.declared⟩⟩

theorem kept_defrost (a : Artifact) : Kept inner own a a.defrost :=
  ⟨rfl, fun h => ⟨⟨fun _ hb => (nomatch hb), h.order.members, h.order.distinct⟩, h.held,
    h.declared⟩⟩

theorem kept_withoutNested (a : Artifact) : Kept inner own a a.withoutNested :=
  ⟨rfl, fun h => ⟨⟨h.order.encoded, fun _ hm => (nomatch hm), List.nodup_nil⟩,
    fun _ hm => (nomatch hm), h.declared⟩⟩

theorem kept_freeze (a : Artifact) : Kept inner own a (leaves Artifact.freeze a) := by
  cases hbytes : a.toBytes with
  | error e =>
    rw [leaves_of_error (freeze_of_error hbytes)]
    exact refl_of (Kept inner own) a
  | ok bytes =>
    rw [leaves_of_ok (freeze_of_ok hbytes)]
    refine ⟨rfl, fun h => ⟨⟨fun fixed hfixed => ?_, h.order.members, h.order.distinct⟩, h.held,
      h.declared⟩⟩
    rw [← Option.some.inj hfixed]
    exact h.order.toBytes hbytes

theorem kept_attachNested (hm : Reached inner inner m) :
    Kept inner own a (leaves (Artifact.attachNested m) a) := by
  unfold leaves Artifact.attachNested
  by_cases himm : m.name.isImmediateMemberOf a.name = true
  · rw [if_pos himm]
    refine ⟨rfl, fun h => ⟨⟨h.order.encoded, fun x hx => ?_, nodup_takenIn m h.order.distinct⟩,
      fun x hx => ?_, h.declared⟩⟩
    · rcases List.mem_append.1 hx with hx | hx
      · exact h.order.members x (List.mem_filter.1 hx).1
      · rw [List.mem_singleton.1 hx]
        exact himm
    · rcases List.mem_append.1 hx with hx | hx
      · exact h.held x (List.mem_filter.1 hx).1
      · rw [List.mem_singleton.1 hx]
        exact hm
  · rw [if_neg himm]
    exact refl_of (Kept inner own) a

theorem kept_inside {i : Nat} (hi : a.nested[i]? = some n) (hn : Becomes inner inner n n')
    (hname : n'.name = n.name) : Kept inner own a { a with nested := a.nested.set i n' } := by
  have hmem := List.mem_of_getElem? hi
  have hnames : (a.nested.set i n').map (·.name) = a.nested.map (·.name) :=
    map_name_of_forall₂ (R := fun x y => y.name = x.name) id
      (forall₂_set (List.forall₂_same.2 fun _ _ => rfl) hi fun _ hx => hname.trans hx)
  refine ⟨rfl, fun h => ⟨⟨h.order.encoded, fun x hx => ?_, ?_⟩, fun x hx => ?_, h.declared⟩⟩
  · rcases List.mem_or_eq_of_mem_set hx with hx | rfl
    · exact h.order.members x hx
    · rw [hname]
      exact h.order.members _ hmem
  · rw [hnames]
    exact h.order.distinct
  · rcases List.mem_or_eq_of_mem_set hx with hx | rfl
    · exact h.held x hx
    · obtain ⟨start, hstart, hsteps⟩ := h.held _ hmem
      exact ⟨start, hstart, hsteps.trans hn⟩

theorem Becomes.kept (h : Becomes inner own a b) : Kept inner own a b := by
  induction h with
  | refl a => exact refl_of (Kept _ _) a
  | edit change hchange _ ih =>
    refine trans_of (Kept _ _) ih (kept_edit fun hown hname => ?_)
    obtain ⟨changes, hchanges⟩ := hown _ _ hchange
    rw [hchanges]
    exact ClassFile.name_after hname changes
  | beginEdit _ ih => exact trans_of (Kept _ _) ih (kept_beginEdit _)
  | clearModified _ ih => exact trans_of (Kept _ _) ih (kept_clearModified _)
  | freeze _ ih => exact trans_of (Kept _ _) ih (kept_freeze _)
  | defrost _ ih => exact trans_of (Kept _ _) ih (kept_defrost _)
  | attachNested hstart hm _ _ ih =>
    exact trans_of (Kept _ _) ih (kept_attachNested ⟨_, hstart, hm⟩)
  | withoutNested _ ih => exact trans_of (Kept _ _) ih (kept_withoutNested _)
  | @stamp _ _ b s _ ih =>
    refine trans_of (Kept _ _) ih ?_
    rcases s.leaves_apply b with he | he <;> rw [he]
    · exact refl_of (Kept _ _) b
    · have hrun : ∀ c n, c.name = .ok n →
          (leaves (ClassFile.Change.run (.addField (s.spec b.classFile.isInterface))) c).name =
            .ok n := fun c n hn => ClassFile.name_run hn
      exact kept_edit fun _ hname => hrun _ _ hname
  | @unstamp _ _ b s _ ih =>
    refine trans_of (Kept _ _) ih ?_
    rcases s.leaves_remove b with he | he <;> rw [he]
    · exact refl_of (Kept _ _) b
    · refine kept_edit fun _ hname => ?_
      rw [leaves_of_ok (ClassFile.removeField_eq_eraseP _ _)]
      exact hname
  | write o files _ ih =>
    rw [o.leaves_write]
    exact trans_of (Kept _ _) ih (kept_freeze _)
  | inside _ hi hn ih ihn => exact trans_of (Kept _ _) ih (kept_inside hi hn ihn.name)

theorem Reached.sound (h : Reached inner own a) : Sound inner own a := by
  obtain ⟨start, hstart, hsteps⟩ := h
  exact hsteps.kept.sound hstart.sound

/-- What is held with an artifact, at any depth, came about by operations as well. -/
theorem Reached.includes (h : Reached inner own a) {x : Artifact} (hx : a.Includes x) :
    x = a ∨ Reached inner inner x := by
  induction hx generalizing own with
  | self a => exact .inl rfl
  | inside hm _ ih =>
    have hreached := h.sound.held _ hm
    rcases ih hreached with rfl | hx
    · exact .inr hreached
    · exact .inr hx

/-! ## What the operations answer -/

/-- Whoever wants the bytes of the artifact gets these, and nobody opens it. -/
structure AnswersWith (a : Artifact) (bytes : Bytes) : Prop where
  toBytes : a.toBytes = .ok bytes
  freeze : Artifact.freeze a = .ok bytes a
  contentHash : a.contentHash = .ok (ContentHash.compute bytes)
  edit : ∀ (α : Type) (change : ClassFile.Edit α),
    Artifact.edit change a = .error (.frozen a.name) a
  written : ∀ o files file b files', Output.write o (a, files) = .ok file (b, files') →
    b = a ∧ file = o.record a.name bytes ∧ files'.read (o.pathFor a.name) = .ok bytes
  unwritten : ∀ o files e b files', Output.write o (a, files) = .error e (b, files') →
    b = a ∧ ∃ path reason, e = .io path reason

/-- An operation that fails leaves the artifact frozen as it was, or not at all; only
bytes that could not be written stay fixed. -/
structure FailsSafely (a : Artifact) : Prop where
  beginEdit : ∀ e b, Artifact.beginEdit a = .error e b → b = a
  edit : ∀ (α : Type) (change : ClassFile.Edit α) e b,
    Artifact.edit change a = .error e b → b.frozen = a.frozen
  freeze : ∀ e b, Artifact.freeze a = .error e b → b = a
  attachNested : ∀ m e b, Artifact.attachNested m a = .error e b → b = a
  stamp : ∀ s e b, Stamp.apply s a = .error e b → b.frozen = a.frozen
  unstamp : ∀ s e b, Stamp.remove s a = .error e b → b.frozen = a.frozen
  write : ∀ o files e b files', Output.write o (a, files) = .error e (b, files') →
    (∃ reason, e = .encode a.name reason ∧ b = a) ∨
      ∃ path reason bytes, e = .io path reason ∧ a.classFile.toBytes = .ok bytes ∧
        b = { a with frozen := some bytes }

theorem answersWith_of_frozen (h : a.frozen = some bytes) : a.AnswersWith bytes := by
  have hsame : { a with frozen := some bytes } = a := by
    cases a
    cases h
    rfl
  have hbytes : a.toBytes = .ok bytes := by
    unfold Artifact.toBytes
    rw [h]
  refine ⟨hbytes, ?_, ?_, fun α change => edit_of_frozen ?_, fun o files file b files' hw => ?_,
    fun o files e b files' hw => ?_⟩
  · rw [freeze_of_ok hbytes, hsame]
  · rw [contentHash, hbytes]
    rfl
  · rw [isFrozen, h]
    rfl
  · obtain ⟨fixed, hfixed, rfl, hfile, -, hread, -⟩ := Output.write_eq_ok hw
    rw [hbytes] at hfixed
    cases hfixed
    exact ⟨hsame, hfile, hread⟩
  · obtain ⟨⟨_, -, hnone, -⟩ | ⟨_, _, fixed, he, hfixed, rfl⟩, -⟩ := Output.write_eq_error_cases hw
    · rw [hbytes] at hnone
      cases hnone
    · rw [hbytes] at hfixed
      cases hfixed
      exact ⟨hsame, _, _, he⟩

theorem frozen_edit {α : Type} (change : ClassFile.Edit α) (a : Artifact) :
    (leaves (Artifact.edit change) a).frozen = a.frozen := by
  rcases leaves_edit change a with he | he <;> rw [he]

theorem InOrder.failsSafely (h : a.InOrder) : a.FailsSafely := by
  refine ⟨fun e b hb => ?_, fun α change e b hb => ?_, fun e b hb => ?_, fun m e b hb => ?_,
    fun s e b hb => ?_, fun s e b hb => ?_, fun o files e b files' hb => ?_⟩
  · unfold Artifact.beginEdit at hb
    split_ifs at hb
    cases hb
    rfl
  · rw [← leaves_of_error hb]
    exact frozen_edit change a
  · unfold Artifact.freeze at hb
    split at hb <;> cases hb
    rfl
  · unfold Artifact.attachNested at hb
    split_ifs at hb
    cases hb
    rfl
  · rw [← leaves_of_error hb]
    rcases s.leaves_apply a with he | he <;> rw [he]
    exact frozen_edit _ a
  · rw [← leaves_of_error hb]
    rcases s.leaves_remove a with he | he <;> rw [he]
    exact frozen_edit _ a
  · obtain ⟨⟨_, he, -, hb⟩ | ⟨_, _, _, he, hbytes, hb⟩, -⟩ := Output.write_eq_error_cases hb
    · exact .inl ⟨_, he, hb⟩
    · exact .inr ⟨_, _, _, he, h.toBytes hbytes, hb⟩

/-! ## Any operations -/

/-- Whatever was done to an artifact and to those held with it: each of them is frozen as
the bytes of its class file or not at all, and holds classes directly inside it, of every
name one at most; while it is frozen all that asks for its bytes answers from those; and an
operation that fails does not change as what it is frozen. If its class file was only edited
by the edits there are for class files, its name is the one that its class file declares. -/
theorem reached_in_order (h : Reached inner own a) :
    (∀ x, a.Includes x → x.InOrder ∧ (∀ bytes, x.frozen = some bytes → x.AnswersWith bytes) ∧
      x.FailsSafely) ∧
    ((∀ c d, own c d → ClassFile.ByChanges c d) → a.classFile.name = .ok a.name) ∧
    ((∀ c d, own c d → ClassFile.ByChanges c d) → (∀ c d, inner c d → ClassFile.ByChanges c d) →
      ∀ x, a.Includes x → x.classFile.name = .ok x.name) := by
  refine ⟨fun x hx => ?_, h.sound.declared, fun hown hinner x hx => ?_⟩
  · have horder : x.InOrder := by
      rcases h.includes hx with rfl | hreached
      · exact h.sound.order
      · exact hreached.sound.order
    exact ⟨horder, fun _ => answersWith_of_frozen, horder.failsSafely⟩
  · rcases h.includes hx with rfl | hreached
    · exact h.sound.declared hown
    · exact hreached.sound.declared hinner

/-! ## An artifact that is stamped and frozen -/

/-- The name `Shell`. -/
def outerName : ClassName :=
  ⟨"Shell", by constructor <;> simp [Text.split, ClassName.isForbidden]⟩

/-- The name `Shell$Core`. -/
def innerName : ClassName :=
  ⟨"Shell$Core", by constructor <;> simp [Text.split, ClassName.isForbidden]⟩

/-- The artifact of a class without members. -/
def bare (n : ClassName) : Artifact :=
  { name := n, isModified := false, frozen := none, nested := []
    classFile := { ClassFile.empty with
      pool := leaves (ConstantPool.classIndex n) .empty, thisClass := 2 } }

/-- A class that took in another one, was stamped and frozen, and refuses another
stamp. -/
def sealedOuter : Artifact :=
  leaves (Stamp.forIdentity "late").apply
    (leaves Artifact.freeze
      (leaves (Stamp.forIdentity "early").apply
        (leaves (Artifact.attachNested (bare innerName)) (bare outerName))))

theorem made_bare (n : ClassName) (h : (bare n).classFile.name = .ok n) : Made (bare n) := by
  refine .new (c := (bare n).classFile) ?_
  unfold Artifact.new
  rw [h]
  rfl

theorem sealedOuter_in_order :
    sealedOuter.isFrozen = true ∧ sealedOuter.nested.map (·.name) = [innerName] ∧
    (∃ bytes, sealedOuter.frozen = some bytes ∧ sealedOuter.classFile.toBytes = .ok bytes) ∧
    ∀ x, sealedOuter.Includes x → x.InOrder ∧ x.classFile.name = .ok x.name := by
  have houter : Made (bare outerName) := made_bare outerName (by decide +kernel)
  have hinner : Made (bare innerName) := made_bare innerName (by decide +kernel)
  have hreached : Reached ClassFile.ByChanges ClassFile.ByChanges sealedOuter :=
    ⟨_, houter, .stamp _ (.freeze (.stamp _ (.attachNested hinner (.refl _) (.refl _))))⟩
  obtain ⟨hincluded, -, hnames⟩ := reached_in_order hreached
  have hfrozen : sealedOuter.isFrozen = true := by decide +kernel
  obtain ⟨bytes, hbytes⟩ := Option.isSome_iff_exists.1 hfrozen
  exact ⟨hfrozen, by decide +kernel,
    ⟨bytes, hbytes, (hincluded _ (.self _)).1.encoded bytes hbytes⟩,
    fun x hx => ⟨(hincluded x hx).1, hnames (fun _ _ => id) (fun _ _ => id) x hx⟩⟩

end Artifact

end ClassStamp
