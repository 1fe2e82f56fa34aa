import ClassStamp.Proofs.Run.Failure
import ClassStamp.Proofs.Run.Finding
import ClassStamp.Proofs.Run.Hiding

/-!
# The step of a marker

A marker edits no class but the one that it acts on. So its step writes this class alone,
with the field and the stamp, or comes to nothing.

* `MarkerField.Marks`: a class file before and after;
* `writeNested_of_idle`: classes that need not be written;
* `transform_marker`: the step;
* `Marking`: what holds between two steps of a run of markers, and `marking_transform`:
  a step keeps it.
-/

namespace ClassStamp

open ClassFile (Grows)
open ConstantPool (maxCount)

/-! ## Class files that are marked -/

namespace MarkerField

/-- A class file in scope that had neither the field nor the stamp got both. -/
structure Marks (m : MarkerField) (n : ClassName) (c d : ClassFile) : Prop where
  inScope : m.inScope n = true
  unmarked : ¬ c.Declares m.field
  unstamped : ¬ c.Declares m.transformer.stamp.field
  added : ∃ between, ClassFile.addField m.spec c = .ok () between ∧
    ClassFile.addField (m.transformer.stamp.spec between.isInterface) between = .ok () d

variable {m : MarkerField} {n : ClassName} {c d : ClassFile}

namespace Marks

theorem grows (h : m.Marks n c d) : Grows (fun _ => True) c d := by
  obtain ⟨between, hfield, hstamp⟩ := h.added
  have hfirst : Grows (fun _ => True) c between := (ClassFile.grows_addField trivial).ok hfield
  exact hfirst.trans ((ClassFile.grows_addField trivial).ok hstamp)

theorem declares (h : m.Marks n c d) (hsize : c.pool.slots.size ≤ maxCount) :
    d.Declares m.field := by
  obtain ⟨between, hfield, hstamp⟩ := h.added
  have hsecond : Grows (fun _ => True) between d := (ClassFile.grows_addField trivial).ok hstamp
  exact ClassFile.declared_of_grows hsecond (ClassFile.declared_addField hsize hfield).2

/-- A stamp that is there then was there before, or it is that of the marker or has the
name of the field. -/
theorem declared_before (h : m.Marks n c d) (hsize : c.pool.slots.size ≤ maxCount)
    {identity : String} (hd : d.Declares (Stamp.forIdentity identity).field) :
    c.Declares (Stamp.forIdentity identity).field ∨
      (Stamp.forIdentity identity).field = m.field ∨
      (Stamp.forIdentity identity).field = m.transformer.stamp.field := by
  obtain ⟨between, hfield, hstamp⟩ := h.added
  have hgrows : Grows (fun _ => True) c between := (ClassFile.grows_addField trivial).ok hfield
  rcases Stamp.declared_before (hgrows.pool.size_le_maxCount hsize) hstamp hd with hd | hsame
  · exact (Stamp.declared_before hsize hfield hd).imp_right .inl
  · exact .inr (.inr hsame)

end Marks

end MarkerField

namespace Run

open Classpath (Context)

variable {p : Pass} {n : ClassName} {s s' : State} {a d : Artifact}

/-! ## Classes that need not be written -/

theorem writePending_of_idle {xs : List Artifact} (h : ∀ x ∈ xs, ¬ State.isPending p x = true)
    (s : State) : State.writePending p xs s = (xs, [], s) := by
  induction xs with
  | nil => rfl
  | cons x xs ih =>
    obtain ⟨hx, hxs⟩ := List.forall_mem_cons.1 h
    rw [State.writePending, if_neg hx, ih hxs]

/-- If none of the classes inside a transformed one has to be written, nothing happens. -/
theorem writeNested_of_idle (h : ∀ x ∈ a.nested, ¬ State.isPending p x = true) (s : State)
    (pristine : Artifact) : s.writeNested p pristine a = (a, s) := by
  unfold State.writeNested
  rw [writePending_of_idle h]
  dsimp only
  rw [if_pos (show ([] : List ClassName).isEmpty = true from rfl)]
  cases a
  rfl

/-- None of them has to be as the transformer gets them. -/
theorem not_pending_of_prepare (p : Pass) (a : Artifact) :
    ∀ x ∈ (State.prepare a).nested, ¬ State.isPending p x = true := by
  intro x hx
  obtain ⟨y, -, rfl⟩ := List.mem_map.1 hx
  exact fun hpending => nomatch hpending

/-! ## The step -/

variable {m : MarkerField}

/-- A marker that leaves a class in its scope alone finds the field or the stamp there. -/
theorem declares_of_declines (ht : p.transformer = m.transformer) (h : p.Declines a)
    (hin : m.inScope a.name = true) :
    a.classFile.Declares m.field ∨ a.classFile.Declares m.transformer.stamp.field := by
  rcases h with hmarked | hdeclined
  · rw [Pass.stamp, ht] at hmarked
    exact .inr hmarked
  · rw [ht] at hdeclined
    have hnone : (m.inScope a.name && (a.classFile.declaredField? m.field).isNone) = false :=
      Except.ok.inj hdeclined
    rw [hin, Bool.true_and] at hnone
    exact .inl (Option.isSome_iff_ne_none.2 fun he => by rw [he] at hnone; cases hnone)

/-- A class was taken out, marked and written. -/
structure MarksClass (m : MarkerField) (p : Pass) (n : ClassName) (s : State) (a d : Artifact)
    (context : Context) : Prop where
  taken : Context.checkout s.files n s.context = .ok a context
  marks : m.Marks a.name a.classFile d.classFile
  name : d.name = a.name
  nested : d.nested = (State.prepare a).nested

/-- The step of a marker writes the class with the field and the stamp, or comes to
nothing. -/
theorem transform_marker (ht : p.transformer = m.transformer) (n : ClassName) (s : State) :
    ComesToNothing p n s (State.transform p n s) ∨
      ∃ a d context file files log, MarksClass m p n s a d context ∧
        State.transform p n s = (s.transformed p n context file files log).giveBack d := by
  rcases transform_decided p n s with
    h | ⟨a, b, c, d, context, file, files, log, h, hwanted, heq⟩
  · exact .inl h
  have happlied := h.applied
  rw [ht] at happlied hwanted
  obtain ⟨between, hfield, rfl⟩ := MarkerField.apply_eq_ok happlied
  obtain ⟨bytes, hstamp, -, -, hname, hname', hnested, -⟩ :=
    stamp_write_eq_ok h.stamped h.written
  have hunstamped := h.unmarked
  rw [Pass.stamp, ht] at hstamp hunstamped
  have hwants : m.inScope a.name = true ∧ (a.classFile.declaredField? m.field).isNone = true :=
    Bool.and_eq_true_iff.1 (Except.ok.inj hwanted)
  have hunmarked : ¬ a.classFile.Declares m.field := by
    rw [ClassFile.Declares, Option.isNone_iff_eq_none.1 hwants.2]
    exact Bool.false_ne_true
  refine .inr ⟨a, d, context, file, files, log, ⟨h.taken,
    ⟨hwants.1, hunmarked, hunstamped, between, hfield, hstamp⟩, hname', hnested⟩, ?_⟩
  rw [heq, writeNested_of_idle]
  rw [hnested]
  exact not_pending_of_prepare p a

/-! ## What every step keeps -/

/-- The markers have distinct stamps, and none of them adds a field that is named like
one. -/
structure MarkersApart (ms : List MarkerField) : Prop where
  stamps : (ms.map fun m => m.transformer.stamp.field).Nodup
  fields : ∀ m ∈ ms, ∀ m' ∈ ms, m.field ≠ m'.transformer.stamp.field

/-- The class file goes back to one that the classpath supplied. It is that one as long as
the class was not written, and no stamp came to it without the field. -/
def Outset.Explains (g : Outset) (ms : List MarkerField) (os : List Outcome) (n : ClassName)
    (c : ClassFile) : Prop :=
  ∃ b, g.Supplies n b ∧ ((∀ o ∈ os, ¬ o.Writes n) → c = b) ∧
    ∀ m ∈ ms, c.Declares m.transformer.stamp.field →
      b.Declares m.transformer.stamp.field ∨ c.Declares m.field

/-- What holds between two steps of a run of markers: where each class in memory comes
from, what is true of the class when a marker was done with it, and what made a marker
write it. -/
structure Marking (g : Outset) (input : Path) (ms : List MarkerField) (s : State) : Prop where
  sound : s.files.Sound
  memory : ∀ n a, s.context.cache.get? n = some a →
    g.Explains ms s.report.outcomes n a.classFile
  told : ∀ o ∈ s.report.outcomes, o.isFailure = false → ∀ m ∈ ms, o.transformer = m.identity →
    m.inScope o.name = true → ∃ a, s.context.cache.get? o.name = some a ∧
      (a.classFile.Declares m.field ∨ a.classFile.Declares m.transformer.stamp.field)
  fresh : ∀ o ∈ s.report.outcomes, o.state = .written →
    Finds g.files input o.name ∧ ∃ m ∈ ms, m.inScope o.name = true ∧
      ∃ b, g.Supplies o.name b ∧ ¬ b.Declares m.field ∧
        ¬ b.Declares m.transformer.stamp.field

variable {g : Outset} {input : Path} {ms : List MarkerField} {os os' : List Outcome}
  {k : ClassName} {o : Outcome} {c : ClassFile} {x y : Artifact} {context : Context}

namespace Outset.Explains

theorem mono (h : g.Explains ms os n c) (hos : os ⊆ os') : g.Explains ms os' n c := by
  obtain ⟨b, hb, hsame, hstamps⟩ := h
  exact ⟨b, hb, fun hn => hsame fun o ho => hn o (hos ho), hstamps⟩

theorem of_supplied (h : g.Supplies n c) : g.Explains ms os n c :=
  ⟨c, h, fun _ => rfl, fun _ _ => .inl⟩

/-- A marker wrote the class. -/
theorem marks (hapart : MarkersApart ms) (hm : m ∈ ms) (h : g.Explains ms os n c)
    (hsize : c.pool.slots.size ≤ ConstantPool.maxCount) {d : ClassFile} (hd : m.Marks k c d)
    (hwritten : ∃ o ∈ os', o.Writes n) : g.Explains ms os' n d := by
  obtain ⟨b, hb, -, hstamps⟩ := h
  obtain ⟨o, ho, hw⟩ := hwritten
  refine ⟨b, hb, fun hn => absurd hw (hn o ho), fun m' hm' hdeclared => ?_⟩
  rcases hd.declared_before hsize hdeclared with hold | hsame | hsame
  · exact (hstamps m' hm' hold).imp_right (ClassFile.declared_of_grows hd.grows)
  · exact absurd hsame.symm (hapart.fields m hm m' hm')
  · obtain rfl := List.inj_on_of_nodup_map hapart.stamps hm' hm hsame
    exact .inr (hd.declares hsize)

end Outset.Explains

/-- A class that a step took out and that comes to nothing is in memory as it was taken
out. -/
theorem Withdraws.keepsTaken (h : Withdraws p n s o s') (htidy : s.context.Tidy)
    (hout : Context.checkout s.files n s.context = .ok a context) :
    ∃ y, s'.context.cache.get? n = some y ∧ y.classFile = a.classFile := by
  rcases h.context with ⟨e, herror⟩ | ⟨a', context', b, hout', hb, hback⟩
  · cases hout.symm.trans herror
  cases hout.symm.trans hout'
  have hself := Context.get?_restore context b
  rw [hb.name, (Context.checkout_eq_ok htidy hout).name, ← hback] at hself
  exact ⟨b.withoutNested, hself, hb.classFile⟩

namespace Marking

theorem explains_of_found (hinv : Inv g [] s) (h : Marking g input ms s) {requested : ClassName}
    (hfound : Context.Found s.files s.context requested a) :
    g.Explains ms s.report.outcomes a.name a.classFile := by
  rcases hfound with hcached | ⟨hnone, hread⟩
  · exact h.memory _ a hcached
  · have hnot := hinv.memory.not_written hnone fun hn => (nomatch hn)
    exact .of_supplied (supplies_of_read hinv.disk hinv.memory.entries hnot hread)

/-- A class was taken out and came back: memory holds what it has to. -/
theorem memory_restore (hinv : Inv g [] s) (h : Marking g input ms s)
    (ha : Context.CheckedOut s.files s.context n a context) (hname : x.name = n)
    (hnested : List.Forall₂ Alike a.nested x.nested) (hos : s.report.outcomes ⊆ os)
    (hx : g.Explains ms os n x.classFile) (hy : (context.restore x).cache.get? k = some y) :
    g.Explains ms os k y.classFile := by
  rcases Context.mem_of_get?_restore hy with ⟨hmem, rfl⟩ | hold
  · rcases List.mem_cons.1 hmem with rfl | hmem
    · show g.Explains ms os x.name x.classFile
      rw [hname]
      exact hx
    · obtain ⟨z, hz, hsame⟩ := Artifact.exists_of_forall₂ hnested hmem
      rw [hsame.name, hsame.classFile]
      exact (h.explains_of_found hinv (ha.found z (List.mem_cons_of_mem _ hz))).mono hos
  · exact (h.memory k y (ha.left hold).2).mono hos

/-- What was said about classes in memory is still right if they only grow. -/
theorem told_of_grows (h : Marking g input ms s)
    (hgrows : ∀ k x, s.context.cache.get? k = some x → ∃ y, context.cache.get? k = some y ∧
      ClassFile.Grows (fun _ => True) x.classFile y.classFile)
    (ho : o ∈ s.report.outcomes) (hfine : o.isFailure = false) (hm : m ∈ ms)
    (hidentity : o.transformer = m.identity) (hin : m.inScope o.name = true) :
    ∃ y, context.cache.get? o.name = some y ∧
      (y.classFile.Declares m.field ∨ y.classFile.Declares m.transformer.stamp.field) := by
  obtain ⟨x, hx, hdeclared⟩ := h.told o ho hfine m hm hidentity hin
  obtain ⟨y, hy, hxy⟩ := hgrows _ x hx
  exact ⟨y, hy, hdeclared.imp (ClassFile.declared_of_grows hxy) (ClassFile.declared_of_grows hxy)⟩

/-- A marker of the run is known by its identity. -/
theorem eq_of_identity {m' : MarkerField} (hapart : MarkersApart ms) (hm : m ∈ ms) (hm' : m' ∈ ms)
    (h : m.identity = m'.identity) : m' = m := by
  refine List.inj_on_of_nodup_map hapart.stamps hm' hm ?_
  show (Stamp.forIdentity m'.identity).field = (Stamp.forIdentity m.identity).field
  rw [h]

/-- A step that comes to nothing. -/
theorem comesToNothing (hapart : MarkersApart ms) (hm : m ∈ ms)
    (ht : p.transformer = m.transformer) (hinv : Inv g [] s) (h : Marking g input ms s)
    (hsound : s'.files.Sound) (hs' : ComesToNothing p n s s') : Marking g input ms s' := by
  obtain ⟨o, hw, hcause⟩ := hs'
  have htidy := hinv.memory.tidy
  have houtcomes : s'.report.outcomes = s.report.outcomes ++ [o] := by
    rw [hw.report]
    rfl
  have hmore : s.report.outcomes ⊆ s.report.outcomes ++ [o] := List.subset_append_left _ _
  refine ⟨hsound, fun k y hy => ?_, fun o' ho' hfine m' hm' hidentity hin => ?_,
    fun o' ho' hstate => ?_⟩
  · rw [houtcomes]
    rcases hw.context with ⟨e, hout⟩ | ⟨a, context, b, hout, hb, hback⟩
    · rw [(Context.checkout_eq_error htidy hout).2] at hy
      exact (h.memory k y hy).mono hmore
    · have ha := Context.checkout_eq_ok htidy hout
      have hself := h.explains_of_found hinv (ha.found a.withoutNested List.mem_cons_self)
      change g.Explains ms _ a.name a.classFile at hself
      rw [ha.name, ← hb.classFile] at hself
      rw [hback] at hy
      exact h.memory_restore hinv ha (hb.name.trans ha.name) hb.nested hmore (hself.mono hmore) hy
  · rw [houtcomes] at ho'
    rcases List.mem_append.1 ho' with ho' | ho'
    · refine h.told_of_grows (fun k x hx => ?_) ho' hfine hm' hidentity hin
      obtain ⟨y, hy, hsame⟩ := hw.keepsCached htidy k x hx
      exact ⟨y, hy, hsame ▸ .refl _ _⟩
    · -- the marker looked at the class and left it alone
      obtain rfl := List.mem_singleton.1 ho'
      rw [hw.transformer, ht] at hidentity
      obtain rfl := eq_of_identity hapart hm hm' hidentity
      rcases hcause with hfailed | ⟨a, context, hout, hdeclines⟩
      · rw [hfine] at hfailed
        cases hfailed
      obtain ⟨y, hy, hsame⟩ := hw.keepsTaken htidy hout
      rw [hw.name, ← (Context.checkout_eq_ok htidy hout).name] at hin
      rw [hw.name]
      exact ⟨y, hy, hsame ▸ declares_of_declines ht hdeclines hin⟩
  · rw [houtcomes] at ho'
    rcases List.mem_append.1 ho' with ho' | ho'
    · exact h.fresh o' ho' hstate
    · exact absurd hstate (List.mem_singleton.1 ho' ▸ hw.idle.not_written)

/-- A step that writes the class. -/
theorem marksClass (hapart : MarkersApart ms) (hm : m ∈ ms) (ht : p.transformer = m.transformer)
    (hinv : Inv g [] s) (h : Marking g input ms s) (hn : Finds g.files input n)
    {file : WrittenFile} {files : FileTree} {log : List Event} (hsound : files.Sound)
    (hw : MarksClass m p n s a d context) :
    Marking g input ms ((s.transformed p n context file files log).giveBack d) := by
  have ha := Context.checkout_eq_ok hinv.memory.tidy hw.taken
  have hname : d.name = n := hw.name.trans ha.name
  have hself : (context.restore d).cache.get? n = some d.withoutNested :=
    hname ▸ Context.get?_restore context d
  have hnested : List.Forall₂ Alike a.nested d.nested := by
    rw [hw.nested]
    exact (unedited_prepare a).nested
  have hkept : Kept g s.log a.withoutNested :=
    (hinv.memory.checkedOut hinv.disk ha).out _ List.mem_cons_self
  let o : Outcome := p.success n file
  have houtcomes : ((s.transformed p n context file files log).giveBack d).report.outcomes =
      s.report.outcomes ++ [o] := rfl
  have hmore : s.report.outcomes ⊆ s.report.outcomes ++ [o] := List.subset_append_left _ _
  refine ⟨hsound, fun k y hy => ?_, fun o' ho' hfine m' hm' hidentity hin => ?_,
    fun o' ho' hstate => ?_⟩
  · rw [houtcomes]
    have hold := h.explains_of_found hinv (ha.found a.withoutNested List.mem_cons_self)
    change g.Explains ms _ a.name a.classFile at hold
    rw [ha.name] at hold
    refine h.memory_restore hinv ha hname hnested hmore ?_ hy
    exact hold.marks hapart hm hkept.traced.size hw.marks
      ⟨o, List.mem_append_right _ (List.mem_singleton_self o), rfl, rfl⟩
  · rw [houtcomes] at ho'
    rcases List.mem_append.1 ho' with ho' | ho'
    · refine h.told_of_grows (fun k x hx => ?_) ho' hfine hm' hidentity hin
      by_cases hk : k = n
      · rw [hk] at hx ⊢
        rw [← ha.name] at hx
        have hsame := (ha.found a.withoutNested List.mem_cons_self).eq_of_cached hx
        exact ⟨_, hself, hsame ▸ hw.marks.grows⟩
      · obtain ⟨y, hy, hsame⟩ := cached_restore ha (hw.name) hnested hk hx
        exact ⟨y, hy, hsame ▸ .refl _ _⟩
    · obtain rfl := List.mem_singleton.1 ho'
      have hidentity' : m.identity = m'.identity := by
        rw [← hidentity]
        exact congrArg Transformer.identity ht.symm
      obtain rfl := eq_of_identity hapart hm hm' hidentity'
      exact ⟨_, hself, .inl (hw.marks.declares hkept.traced.size)⟩
  · rw [houtcomes] at ho'
    rcases List.mem_append.1 ho' with ho' | ho'
    · exact h.fresh o' ho' hstate
    · obtain rfl := List.mem_singleton.1 ho'
      obtain ⟨b, hb, hgrows⟩ := hkept.traced.origin
      have hin := hw.marks.inScope
      change g.Supplies a.name b at hb
      rw [ha.name] at hb hin
      exact ⟨hn, m, hm, hin, b, hb,
        fun hd => hw.marks.unmarked (ClassFile.declared_of_grows hgrows hd),
        fun hd => hw.marks.unstamped (ClassFile.declared_of_grows hgrows hd)⟩

end Marking

/-- The step of a marker for a class that was found keeps all that. -/
theorem marking_transform (hapart : MarkersApart ms) (hm : m ∈ ms)
    (ht : p.transformer = m.transformer) (hinv : Inv g [] s) (h : Marking g input ms s)
    (hn : Finds g.files input n) : Marking g input ms (State.transform p n s) := by
  have hsound : (State.transform p n s).files.Sound :=
    keeps_transform p.output.keepsSound_write n s h.sound
  rcases transform_marker ht n s with hs' | ⟨a, d, context, file, files, log, hw, heq⟩
  · exact h.comesToNothing hapart hm ht hinv hsound hs'
  · rw [heq] at hsound ⊢
    exact h.marksClass hapart hm ht hinv hn hsound hw

end Run

end ClassStamp
