import ClassStamp.Proofs.ClassFile.InnerListing
import ClassStamp.Proofs.Classpath.Independence

/-!
# Contexts in use

Between two uses of a context some classes are out. Whatever is asked for, taken out,
edited, brought back, dropped and forgotten, each class is in memory under its name, alone.
So taking one out takes out just the classes inside it besides, none of them twice, and
bringing it back puts everything where it was; what fails changes nothing in memory.

* `Reached`: the contexts that uses lead to, with the classes that are out;
* `Reached.orderly`: what holds in all of them;
* `memory_kept`: what becomes of memory.
-/

namespace ClassStamp.Classpath.Context

open Artifact (Plain memberNames mem_memberNames)
open ClassFile (directMembers)

/-- The contexts over some entries that uses lead to, with the classes that are out. The
uses see some trees of files, and what comes back is something that may be made of what was
taken out. -/
inductive Reached (trees : FileTree → Prop) (entries : List Entry)
    (returns : Artifact → Artifact → Prop) : List Artifact → Context → Prop
  | built {files : FileTree} {context : Context} (htree : trees files)
    (h : build files entries = .ok context) : Reached trees entries returns [] context
  | resolved {files : FileTree} {out : List Artifact} {context : Context} (n : ClassName)
    (htree : trees files) (h : Reached trees entries returns out context) :
    Reached trees entries returns out (leaves (resolve files n) context)
  | checkedOut {files : FileTree} {out : List Artifact} {context context' : Context}
    {n : ClassName} {a : Artifact} (htree : trees files)
    (h : Reached trees entries returns out context)
    (hout : checkout files n context = .ok a context') :
    Reached trees entries returns (a :: out) context'
  | refused {files : FileTree} {out : List Artifact} {context context' : Context}
    {n : ClassName} {e : ResolutionError} (htree : trees files)
    (h : Reached trees entries returns out context)
    (hrefused : checkout files n context = .error e context') :
    Reached trees entries returns out context'
  | restored {before after : List Artifact} {a b : Artifact} {context : Context}
    (h : Reached trees entries returns (before ++ a :: after) context) (hb : returns a b) :
    Reached trees entries returns (before ++ after) (context.restore b)
  | dropped {before after : List Artifact} {a : Artifact} {context : Context}
    (h : Reached trees entries returns (before ++ a :: after) context) :
    Reached trees entries returns (before ++ after) context
  | discarded {out : List Artifact} {context : Context} (n : ClassName)
    (h : Reached trees entries returns out context) :
    Reached trees entries returns out (leaves (discard n) context)

variable {files : FileTree} {entries : List Entry} {context context' : Context} {n : ClassName}
  {a b : Artifact} {out : List Artifact}

theorem resolve_eq_error {e : ResolutionError} (htidy : Tidy context)
    (h : resolve files n context = .error e context') :
    checkout files n context = .error e context' := by
  unfold resolve at h
  cases hc : context.cache.get? n with
  | some a =>
    rw [hc] at h
    cases h
  | none =>
    rw [hc, ← checkout_of_not_cached hc] at h
    dsimp only at h
    cases hout : checkout files n context with
    | error e' between =>
      rw [hout] at h
      cases h
      rfl
    | ok a between =>
      -- the class that was brought back is there to be shown
      rw [hout] at h
      dsimp only at h
      rw [← (checkout_eq_ok htidy hout).name, get?_restore] at h
      cases h

/-! ## Memory in order -/

/-- The class that comes back is the one that was taken out, perhaps edited: it declares
the same name, and the classes inside it are under their names, alone. -/
structure Edited (a b : Artifact) : Prop where
  name : b.name = a.name
  declared : b.classFile.name = a.classFile.name
  nested : ∀ m ∈ b.nested, Plain m

theorem Edited.orderly (h : Edited a b) (ha : Orderly a) : Orderly b := by
  have hdeclared := (List.forall_mem_cons.1 ha).1.declared
  refine List.forall_mem_cons.2 ⟨⟨?_, rfl⟩, h.nested⟩
  exact h.declared.trans (hdeclared.trans (congrArg Except.ok h.name.symm))

theorem Tidy.refused {e : ResolutionError} (htidy : Tidy context)
    (h : checkout files n context = .error e context') : Tidy context' := by
  obtain ⟨-, hcache⟩ := checkout_eq_error htidy h
  intro k a ha
  rw [hcache] at ha
  exact htidy k a ha

theorem Tidy.settle (htidy : Tidy context) (files : FileTree) (n : ClassName) :
    Tidy (settle (checkout files n context)) := by
  cases hout : checkout files n context with
  | error e context' => exact htidy.refused hout
  | ok a context' =>
    have ha := checkout_eq_ok htidy hout
    exact (ha.tidy htidy).restore ha.orderly

/-- In every context that uses lead to memory is in order, and so is what is out. -/
theorem Reached.orderly {trees : FileTree → Prop} (h : Reached trees entries Edited out context) :
    Tidy context ∧ ∀ a ∈ out, Orderly a := by
  induction h with
  | built _ h =>
    rw [build_eq_ok h]
    exact ⟨fun _ _ ha => (nomatch ha), fun _ ha => (nomatch ha)⟩
  | resolved n _ _ ih =>
    obtain ⟨htidy, hout⟩ := ih
    rw [leaves_resolve]
    split_ifs
    · exact ⟨htidy, hout⟩
    · exact ⟨htidy.settle _ n, hout⟩
  | checkedOut _ _ hcheckout ih =>
    obtain ⟨htidy, hout⟩ := ih
    have ha := checkout_eq_ok htidy hcheckout
    exact ⟨ha.tidy htidy, List.forall_mem_cons.2 ⟨ha.orderly, hout⟩⟩
  | refused _ _ hrefused ih => exact ⟨ih.1.refused hrefused, ih.2⟩
  | restored _ hb ih =>
    obtain ⟨htidy, hout⟩ := ih
    rw [List.forall_mem_append, List.forall_mem_cons] at hout
    exact ⟨htidy.restore (hb.orderly hout.2.1), List.forall_mem_append.2 ⟨hout.1, hout.2.2⟩⟩
  | dropped _ ih =>
    obtain ⟨htidy, hout⟩ := ih
    rw [List.forall_mem_append, List.forall_mem_cons] at hout
    exact ⟨htidy, List.forall_mem_append.2 ⟨hout.1, hout.2.2⟩⟩
  | discarded n _ ih => exact ⟨ih.1.erase n, ih.2⟩

/-! ## What becomes of memory -/

/-- A class was taken out of memory, with the classes directly inside it that its rows
name. -/
structure TakenOut (files : FileTree) (context : Context) (n : ClassName)
    (rows : List InnerClass) (a : Artifact) (context' : Context) : Prop where
  listed : a.classFile.innerClasses = .ok rows
  name : a.name = n
  members : ∀ k, k ∈ a.memberNames ↔ k ∈ directMembers n rows
  distinct : (a.name :: a.memberNames).Nodup
  /-- What is in memory comes from there, and only the rest is read. -/
  found : ∀ m ∈ a.withoutNested :: a.nested, Found files context n m
  /-- Nothing else is gone. -/
  cache : ∀ k, context'.cache.get? k =
    if k = n ∨ k ∈ directMembers n rows then none else context.cache.get? k
  /-- Once the class is back, everything is there again. -/
  restores : ∀ k b, context.cache.get? k = some b →
    (context'.restore a).cache.get? k = some b

theorem CheckedOut.restores (h : CheckedOut files context n a context') (htidy : Tidy context)
    {k : ClassName} (hb : context.cache.get? k = some b) :
    (context'.restore a).cache.get? k = some b := by
  obtain ⟨rfl, -⟩ := htidy k b hb
  rw [get?_restore_eq_some_iff h.distinct]
  by_cases hk : b.name ∈ a.name :: a.memberNames
  · obtain ⟨m, hm, hname⟩ : ∃ m ∈ a.withoutNested :: a.nested, m.name = b.name := by
      rcases List.mem_cons.1 hk with hself | hmember
      · exact ⟨a.withoutNested, List.mem_cons_self, hself.symm⟩
      · obtain ⟨m, hm, hname⟩ := mem_memberNames.1 hmember
        exact ⟨m, List.mem_cons_of_mem _ hm, hname⟩
    rw [← hname] at hb
    obtain rfl := (h.found m hm).eq_of_cached hb
    exact .inl ⟨hm, rfl⟩
  · refine .inr ⟨hk, ?_⟩
    rw [h.cache, if_neg]
    · exact hb
    · rwa [List.mem_cons, h.name] at hk

theorem CheckedOut.takenOut (h : CheckedOut files context n a context') (htidy : Tidy context) :
    ∃ rows, TakenOut files context n rows a context' := by
  obtain ⟨ns, hns, hperm⟩ := h.members
  rw [ClassFile.nestedClassNames_eq h.declared] at hns
  cases hrows : a.classFile.innerClasses with
  | error e =>
    rw [hrows] at hns
    cases hns
  | ok rows =>
    rw [hrows] at hns
    cases hns
    have hmembers : ∀ k, k ∈ a.memberNames ↔ k ∈ directMembers n rows := fun k =>
      hperm.mem_iff.trans List.mem_eraseDups
    refine ⟨rows, hrows, h.name, hmembers, h.distinct, h.found, fun k => ?_,
      fun k b => h.restores htidy⟩
    rw [h.cache, if_congr (or_congr Iff.rfl (hmembers k)) rfl rfl]

/-- Memory holds each class under its name and alone. What fails leaves it as it is, and
taking a class out moves that class and those directly inside it, and nothing else. -/
theorem memory_kept (h : Reached (fun _ => True) entries Edited out context) :
    (∀ k b, context.cache.get? k = some b → b.name = k ∧ b.nested = []) ∧
    (∀ files n e context', resolve files n context = .error e context' ∨
        checkout files n context = .error e context' →
      ∀ k, context'.cache.get? k = context.cache.get? k) ∧
    ∀ files n a context', checkout files n context = .ok a context' →
      ∃ rows, TakenOut files context n rows a context' := by
  obtain ⟨htidy, -⟩ := h.orderly
  refine ⟨fun k b hb => ?_, fun files n e context' hfails => ?_, fun files n a context' hout => ?_⟩
  · obtain ⟨hname, hplain⟩ := htidy k b hb
    exact ⟨hname, hplain.alone⟩
  · have hrefused := hfails.elim (resolve_eq_error htidy) id
    exact (checkout_eq_error htidy hrefused).2
  · exact (checkout_eq_ok htidy hout).takenOut htidy

/-! ## A class that comes back edited -/

/-- The class with the classes inside it opened. -/
def opened (a : Artifact) : Artifact :=
  { a with nested := a.nested.map fun m => { m with isModified := true } }

theorem edited_opened (ha : Orderly a) : Edited a (opened a) := by
  refine ⟨rfl, rfl, fun m hm => ?_⟩
  obtain ⟨x, hx, rfl⟩ := List.mem_map.1 hm
  obtain ⟨hdeclared, halone⟩ := ha x (List.mem_cons_of_mem _ hx)
  exact ⟨hdeclared, halone⟩

/-- The context in which the outer class is back with its inner class opened. -/
def openedContext : Context :=
  match checkout orphanFiles outerName (ofEntries orphanEntries) with
  | .ok a context => context.restore (opened a)
  | .error _ context => context

theorem reached_openedContext :
    Reached (fun _ => True) orphanEntries Edited [] openedContext := by
  have hbuilt : Reached (fun _ => True) orphanEntries Edited [] (ofEntries orphanEntries) :=
    .built trivial build_orphanEntries
  unfold openedContext
  cases hout : checkout orphanFiles outerName (ofEntries orphanEntries) with
  | error e context => exact .refused trivial hbuilt hout
  | ok a context =>
    have ha := (checkout_eq_ok hbuilt.orderly.1 hout).orderly
    have hback : Reached (fun _ => True) orphanEntries Edited ([] ++ [])
        (context.restore (opened a)) :=
      .restored (.checkedOut trivial hbuilt hout) (edited_opened ha)
    exact hback

/-- The inner class that is taken out is the one in memory. -/
theorem opened_kept : Reached (fun _ => True) orphanEntries Edited [] openedContext ∧
    ∃ a context' rows, checkout orphanFiles outerName openedContext = .ok a context' ∧
      TakenOut orphanFiles openedContext outerName rows a context' ∧
      a.nested.map (fun m => (m.name, m.isModified)) = [(innerName, true)] := by
  have hopened : (answer (checkout orphanFiles outerName openedContext)).map
      (fun a => a.nested.map fun m => (m.name, m.isModified)) = .ok [(innerName, true)] := by
    decide +kernel
  refine ⟨reached_openedContext, ?_⟩
  cases hout : checkout orphanFiles outerName openedContext with
  | error e context' =>
    rw [hout] at hopened
    cases hopened
  | ok a context' =>
    obtain ⟨-, -, htaken⟩ := memory_kept reached_openedContext
    obtain ⟨rows, hrows⟩ := htaken orphanFiles outerName a context' hout
    rw [hout] at hopened
    exact ⟨a, context', rows, rfl, hrows, Except.ok.inj hopened⟩

end ClassStamp.Classpath.Context
