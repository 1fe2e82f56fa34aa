import ClassStamp.Proofs.Run.Exits
import ClassStamp.Proofs.Run.History

/-!
# A step that fails changes nothing

A step may fail at six points, some of which come after the class and those
inside it were taken out of memory and edited. Whichever it is, the step leaves
the files and the classes in memory as they were.

* `Transformer.KeepsNames`: all that a transformer has to respect, and only
  when it succeeds;
* `tidy_transform`, `tidy_unstamp`: memory stays in order;
* `failed_step_changes_nothing`: the main result.
-/

namespace ClassStamp

open Classpath (Context)

/-- The class and those held with it go by the names that their class files
declare, and the latter are directly inside the class and hold no others. -/
structure Artifact.Whole (a : Artifact) : Prop where
  declared : a.classFile.name = .ok a.name
  members : ∀ m ∈ a.nested, m.name.isImmediateMemberOf a.name = true ∧ m.Plain

/-- If the transformer succeeds, the names of the class and of those held with it
stay what they were, and the latter hold no others. A transformer that fails may
have done anything before. -/
def Transformer.KeepsNames (t : Transformer) : Prop :=
  ∀ a b, a.Whole → t.apply a = .ok () b → b.name = a.name ∧ b.Whole

theorem Artifact.Same.whole {a b : Artifact} (h : Same a b) (ha : a.Whole) : b.Whole := by
  refine ⟨h.name ▸ h.declared _ ha.declared, fun m hm => ?_⟩
  rw [h.nested] at hm
  rw [h.name]
  exact ha.members m hm

namespace Run

open FileTree (SameFiles)

variable {p : Pass} {n : ClassName} {s s' : State} {a b : Artifact} {context context' : Context}
  {o : Outcome}

/-! ## Memory in order -/

theorem whole_of_checkedOut {files : FileTree}
    (h : Context.CheckedOut files context n a context') : a.Whole := by
  refine ⟨h.name ▸ h.declared, fun m hm => ⟨?_, h.plain m hm⟩⟩
  rw [h.name]
  exact h.isImmediateMemberOf hm

theorem Unedited.whole (h : Unedited a b) (ha : a.Whole) : b.Whole := by
  refine ⟨by rw [h.classFile, h.name]; exact ha.declared, fun m hm => ?_⟩
  obtain ⟨x, hx, hxm⟩ := h.mem hm
  obtain ⟨himm, hplain⟩ := ha.members x hx
  refine ⟨by rw [hxm.name, h.name]; exact himm, ?_, hxm.nested.trans hplain.alone⟩
  rw [hxm.classFile, hxm.name]
  exact hplain.declared

theorem tidy_restore (h : context.Tidy) (ha : a.Whole) : (context.restore a).Tidy :=
  h.restore (List.forall_mem_cons.2 ⟨⟨ha.declared, rfl⟩, fun m hm => (ha.members m hm).2⟩)

theorem Withdraws.tidy (h : Withdraws p n s o s') (htidy : s.context.Tidy) : s'.context.Tidy := by
  rcases h.context with ⟨e, hout⟩ | ⟨a, context, b, hout, hb, hback⟩
  · obtain ⟨-, hcache⟩ := Context.checkout_eq_error htidy hout
    intro k a ha
    rw [hcache] at ha
    exact htidy k a ha
  · have ha := Context.checkout_eq_ok htidy hout
    rw [hback]
    exact tidy_restore (ha.tidy htidy) (hb.whole (whole_of_checkedOut ha))

/-- A class that was transformed and written is whole, if the transformer keeps
names. -/
theorem Transforms.whole {c d : Artifact} {file : WrittenFile} {files : FileTree}
    (h : Transforms p n s a b c d context file files) (hp : p.transformer.KeepsNames)
    (htidy : s.context.Tidy) : d.name = n ∧ (State.prepare a).Whole ∧ d.Whole := by
  have ha := Context.checkout_eq_ok htidy h.taken
  have hprepared := (unedited_prepare a).whole (whole_of_checkedOut ha)
  obtain ⟨hname, hb⟩ := hp _ b hprepared h.applied
  exact ⟨h.same.name.trans (hname.trans ha.name), hprepared, h.same.whole hb⟩

theorem tidy_transform (hp : p.transformer.KeepsNames) (htidy : s.context.Tidy) (n : ClassName) :
    (State.transform p n s).context.Tidy := by
  rcases transform_cases p n s with ⟨o, h⟩ | ⟨a, b, c, d, context, file, files, log, h, heq⟩
  · exact h.tidy htidy
  obtain ⟨hname, hpristine, hd⟩ := h.whole hp htidy
  rcases hnested : (s.transformed p n context file files log).writeNested p (State.prepare a) d
    with ⟨a', s'⟩
  obtain ⟨hclass, hmembers, os, hos⟩ := writeNested_spec hnested
  have ha := Context.checkout_eq_ok htidy h.taken
  have hwhole : a'.Whole := by
    obtain ⟨hself, hfile⟩ := Artifact.eq_of_withoutNested hclass
    refine ⟨by rw [hfile, hself]; exact hd.declared, fun m hm => ?_⟩
    rw [hself]
    rcases hmembers m hm with ⟨x, hx, hxm⟩ | hm
    · obtain ⟨himm, hplain⟩ := hd.members x hx
      exact ⟨hxm.name ▸ himm, hxm.plain hplain⟩
    · obtain ⟨himm, hplain⟩ := hpristine.members m hm
      refine ⟨?_, hplain⟩
      rw [hname, ← ha.name]
      exact himm
  rw [heq, hnested]
  show (s'.context.restore a').Tidy
  rw [hos.context]
  exact tidy_restore (ha.tidy htidy) hwhole

theorem tidy_unstamp (htidy : s.context.Tidy) (p : Pass) (n : ClassName) :
    (State.unstamp p n s).context.Tidy := by
  rcases unstamp_cases p n s with ⟨o, h⟩ | ⟨a, b, c, context, file, files, h, heq⟩
  · exact h.tidy htidy
  have ha := Context.checkout_eq_ok htidy h.taken
  obtain ⟨r, hremoved⟩ := h.removed
  have hab := (p.stamp.same_remove).ok hremoved
  have hbc := Output.same_write p.output b s.files
  rw [leaves_of_ok h.written] at hbc
  rw [heq]
  exact tidy_restore (ha.tidy htidy)
    (hbc.whole (hab.whole ((unedited_defrost a).whole (whole_of_checkedOut ha))))

/-! ## Failures -/

/-- The class is in memory in both contexts with the same class file, if it was
in the first. -/
def KeepsCached (context context' : Context) : Prop :=
  ∀ k a, context.cache.get? k = some a →
    ∃ b, context'.cache.get? k = some b ∧ b.classFile = a.classFile

/-- When a class comes back with those that were held with it, all others are in
memory as before. -/
theorem cached_restore {files : FileTree} (ha : Context.CheckedOut files context n a context')
    (hname : b.name = a.name) (hnested : List.Forall₂ Alike a.nested b.nested) {k : ClassName}
    (hk : k ≠ n) {x : Artifact} (hx : context.cache.get? k = some x) :
    ∃ y, (context'.restore b).cache.get? k = some y ∧ y.classFile = x.classFile := by
  have hmembers : b.memberNames = a.memberNames := Artifact.map_name_of_forall₂ Alike.name hnested
  have hdistinct : (b.name :: b.memberNames).Nodup := by
    rw [hname, hmembers]
    exact ha.distinct
  simp only [Context.get?_restore_eq_some_iff hdistinct]
  by_cases hmember : k ∈ b.memberNames
  · obtain ⟨m, hm, rfl⟩ := Artifact.mem_memberNames.1 hmember
    obtain ⟨y, hy, hym⟩ := Artifact.exists_of_forall₂ hnested hm
    rw [hym.name] at hx
    have hsame := (ha.found y (List.mem_cons_of_mem _ hy)).eq_of_cached hx
    exact ⟨m, .inl ⟨List.mem_cons_of_mem _ hm, rfl⟩, hym.classFile.trans (by rw [hsame])⟩
  · refine ⟨x, .inr ⟨?_, ?_⟩, rfl⟩
    · rw [List.mem_cons, not_or, hname, ha.name]
      exact ⟨hk, hmember⟩
    · rw [hmembers] at hmember
      rw [ha.cache, if_neg (not_or.2 ⟨hk, hmember⟩)]
      exact hx

/-- A step that comes to nothing leaves every class in memory. -/
theorem Withdraws.keepsCached (h : Withdraws p n s o s') (htidy : s.context.Tidy) :
    KeepsCached s.context s'.context := by
  intro k x hx
  rcases h.context with ⟨e, hout⟩ | ⟨a, context, b, hout, hb, hback⟩
  · obtain ⟨-, hcache⟩ := Context.checkout_eq_error htidy hout
    exact ⟨x, (hcache k).trans hx, rfl⟩
  have ha := Context.checkout_eq_ok htidy hout
  rw [hback]
  by_cases hk : k = n
  · have hname : b.name = n := hb.name.trans ha.name
    have hself := Context.get?_restore context b
    rw [hname] at hself
    rw [hk, ← ha.name] at hx
    have hsame := (ha.found a.withoutNested List.mem_cons_self).eq_of_cached hx
    exact ⟨b.withoutNested, by rw [hk, hself], hb.classFile.trans (by rw [← hsame]; rfl)⟩
  · exact cached_restore ha hb.name hb.nested hk hx

/-- What a step that failed left: one more outcome in the report, the same files,
and the same classes in memory. -/
structure NothingChanged (s : State) (o : Outcome) (s' : State) : Prop where
  report : s'.report = s.report.add o
  files : SameFiles s.files s'.files
  memory : KeepsCached s.context s'.context

theorem transform_of_failed (hp : p.transformer.KeepsNames) (htidy : s.context.Tidy)
    {new : List Outcome}
    (hnew : (State.transform p n s).report.outcomes = s.report.outcomes ++ new) (ho : o ∈ new)
    (hname : o.name = n) (hfailed : o.isFailure = true) :
    NothingChanged s o (State.transform p n s) := by
  rcases transform_cases p n s with ⟨o', h⟩ | ⟨a, b, c, d, context, file, files, log, h, heq⟩
  · rw [h.report] at hnew
    rw [← List.append_cancel_left hnew, List.mem_singleton] at ho
    rw [ho]
    exact ⟨h.report, h.files, h.keepsCached htidy⟩
  -- the class was written; what failed then is inside it and has another name
  exfalso
  obtain ⟨hself, -, hd⟩ := h.whole hp htidy
  rcases hnested : (s.transformed p n context file files log).writeNested p (State.prepare a) d
    with ⟨a', s'⟩
  obtain ⟨-, -, os, hos⟩ := writeNested_spec hnested
  have hreport : (State.transform p n s).report = s'.report := by
    rw [heq, hnested]
    rfl
  rw [hreport, hos.report] at hnew
  change (s.report.outcomes ++ [_]) ++ os = _ at hnew
  rw [List.append_assoc] at hnew
  rw [← List.append_cancel_left hnew, List.singleton_append] at ho
  rcases List.mem_cons.1 ho with rfl | ho
  · cases hfailed
  · obtain ⟨-, ⟨x, hx, hxname⟩, -⟩ := hos.members o ho
    refine isImmediateMemberOf_ne (hd.members x hx).1 ?_
    rw [hxname, hname, hself]

theorem unstamp_of_failed (htidy : s.context.Tidy) {new : List Outcome}
    (hnew : (State.unstamp p n s).report.outcomes = s.report.outcomes ++ new) (ho : o ∈ new)
    (hfailed : o.isFailure = true) : NothingChanged s o (State.unstamp p n s) := by
  rcases unstamp_cases p n s with ⟨o', h⟩ | ⟨a, b, c, context, file, files, h, heq⟩
  · rw [h.report] at hnew
    rw [← List.append_cancel_left hnew, List.mem_singleton] at ho
    rw [ho]
    exact ⟨h.report, h.files, h.keepsCached htidy⟩
  exfalso
  rw [heq] at hnew
  rw [← List.append_cancel_left hnew, List.mem_singleton] at ho
  rw [ho] at hfailed
  cases hfailed

/-! ## Runs -/

section Runs

variable {step : Pass → ClassName → State → State} {config : Config}
  {transformers : List Transformer} {ambient : List Path} {files : FileTree}

/-- At every moment of a run memory is in order. -/
theorem tidy_of_mem_moments (hstep : step = State.transform ∨ step = State.unstamp)
    (hkeeps : ∀ t ∈ transformers, t.KeepsNames)
    (hs : s ∈ moments step config transformers ambient files) : s.context.Tidy := by
  obtain ⟨before, after, hsplit⟩ := List.append_of_mem hs
  let P : List State → State → Prop := fun _ s => s.context.Tidy
  refine moments_keep (P := P) (fun setup files' hsetup => ?_)
    (fun setup files' hsetup p hp n _ s htidy => ?_) hsplit
  · obtain ⟨-, -, -, hcontext⟩ := setUp_eq_ok hsetup
    rw [hcontext]
    exact fun k a ha => (nomatch ha)
  · obtain ⟨⟨t, i⟩, ht, rfl⟩ := List.mem_map.1 hp
    rcases hstep with rfl | rfl
    · exact tidy_transform (hkeeps t (List.fst_mem_of_mem_zipIdx ht)) htidy n
    · exact tidy_unstamp htidy _ n

/-- At every moment of a run that transforms or removes stamps, for any class and
any transformer that keeps names when it succeeds: if the step notes that it
failed for the class itself, then that is all it does. -/
theorem failed_step_changes_nothing (hstep : step = State.transform ∨ step = State.unstamp)
    (hkeeps : ∀ t ∈ transformers, t.KeepsNames)
    (hs : s ∈ moments step config transformers ambient files)
    (hp : p.transformer.KeepsNames) {new : List Outcome}
    (hnew : (step p n s).report.outcomes = s.report.outcomes ++ new) (ho : o ∈ new)
    (hname : o.name = n) (hfailed : o.isFailure = true) :
    NothingChanged s o (step p n s) := by
  have htidy := tidy_of_mem_moments hstep hkeeps hs
  rcases hstep with rfl | rfl
  · exact transform_of_failed hp htidy hnew ho hname hfailed
  · exact unstamp_of_failed htidy hnew ho hfailed

end Runs

/-- A transformer that never wants to act. -/
def bystander : Transformer where
  identity := "bystander"
  shouldTransform _ := .ok false
  apply := pure ()

/-- A transformer that renames a class, lets go what is inside it, and fails. -/
def spoiler : Transformer where
  identity := "spoiler"
  shouldTransform _ := .ok true
  apply a :=
    let classFile := { a.classFile with thisClass := 0 }
    .error (.ofMessage "spoiled") { a.withoutNested with classFile }

theorem bystander_keepsNames : bystander.KeepsNames := by
  intro a b ha h
  cases h
  exact ⟨rfl, ha⟩

theorem spoiler_keepsNames : spoiler.KeepsNames := by
  intro a b ha h
  cases h

/-- Where the classes that the spoiler acts on go. -/
def spoilerPass : Pass := { position := 1, transformer := spoiler, output := ⟨⟨"classes"⟩⟩ }

/-- The moments of a run of the two. -/
def spoilerMoments : List State :=
  moments State.transform (.new ⟨"classes"⟩) [bystander, spoiler] [] plainFiles

theorem length_spoilerMoments : spoilerMoments.length = 3 := by decide +kernel

/-- The moment between their two steps. -/
def beforeSpoiler : State :=
  spoilerMoments.get ⟨1, by rw [length_spoilerMoments]; decide⟩

/-- The spoiler leaves the class that is in memory since the pass before. -/
theorem spoiler_changes_nothing :
    beforeSpoiler.context.isCached plainName = true ∧
      ∃ o, o.state = .failed .transform ∧
        NothingChanged beforeSpoiler o (State.transform spoilerPass plainName beforeSpoiler) := by
  let o : Outcome :=
    { transformer := "spoiler", name := plainName, state := .failed .transform
      message := some "cannot apply transformation: spoiled", files := [] }
  have hkeeps : ∀ t ∈ [bystander, spoiler], t.KeepsNames := by
    intro t ht
    rcases List.mem_pair.1 ht with rfl | rfl
    · exact bystander_keepsNames
    · exact spoiler_keepsNames
  have hmem : beforeSpoiler ∈ spoilerMoments := List.get_mem spoilerMoments _
  have hnew : (State.transform spoilerPass plainName beforeSpoiler).report.outcomes =
      beforeSpoiler.report.outcomes ++ [o] := by decide +kernel
  exact ⟨by decide +kernel, o, rfl,
    failed_step_changes_nothing (.inl rfl) hkeeps hmem spoiler_keepsNames hnew
      (List.mem_singleton_self o) rfl rfl⟩

end Run

end ClassStamp
