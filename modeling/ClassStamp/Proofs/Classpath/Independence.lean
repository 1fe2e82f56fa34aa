import Mathlib.Data.List.Induction
import ClassStamp.Fixture
import ClassStamp.Proofs.Classpath.Superclasses

/-!
# What earlier uses of a context change

A context that was used before answers for a class like one that is built anew,
with one exception: a class that came into memory along with the one around it
is never asked for its superclasses.

* `checked`: the answer of the entries alone, and `unchecked`: the one of the
  exception;
* `checkout_answers`: a faithful context answers with one of the two, and
  `Use.run_asked`: using it keeps it faithful;
* `checkout_after_uses`: what can differ after any uses, and
  `inner_found_after_outer`: it does.
-/

namespace ClassStamp.Classpath.Context

open Artifact (Plain)

variable {files : FileTree} {entries : List Entry} {context context' : Context} {n : ClassName}
  {a b : Artifact}

/-! ## Answers -/

/-- The answer of an action, without the state it leaves. -/
def answer {ε σ α : Type} : EStateM.Result ε σ α → Except ε α
  | .ok a _ => .ok a
  | .error e _ => .error e

/-- Two answers are the same error, or the same class with the same classes inside
it, in whatever order. -/
inductive SameAnswer : Except ResolutionError Artifact → Except ResolutionError Artifact → Prop
  | error (e : ResolutionError) : SameAnswer (.error e) (.error e)
  | ok {a b : Artifact} (same : a.withoutNested = b.withoutNested)
    (nested : a.nested.Perm b.nested) : SameAnswer (.ok a) (.ok b)

namespace SameAnswer

variable {x y z : Except ResolutionError Artifact}

theorem symm (h : SameAnswer x y) : SameAnswer y x := by
  cases h with
  | error e => exact .error e
  | ok same nested => exact .ok same.symm nested.symm

theorem trans (h : SameAnswer x y) (h' : SameAnswer y z) : SameAnswer x z := by
  cases h with
  | error e => exact h'
  | ok same nested =>
    cases h' with
    | ok same' nested' => exact .ok (same.trans same') (nested.trans nested')

theorem map_name (h : SameAnswer x y) : x.map (·.name) = y.map (·.name) := by
  cases h with
  | error e => rfl
  | ok same nested => exact congrArg (fun a => Except.ok a.name) same

theorem eq_error {e : ResolutionError} (h : SameAnswer x (.error e)) : x = .error e := by
  cases h
  rfl

end SameAnswer

/-- A class with the classes directly inside it, all read from the entries. -/
def accompanied (files : FileTree) (entries : List Entry) (a : Artifact) :
    Except ResolutionError Artifact := do
  let ns ← a.classFile.nestedClassNames.mapError fun e => inMemory a (.classFile e)
  let members ← ns.mapM fun n => (ofEntries entries).read files n a.name
  return { a with nested := members }

/-- A class read from the entries with the classes inside it, provided that its
superclasses can be found. -/
def checked (files : FileTree) (entries : List Entry) (n : ClassName) :
    Except ResolutionError Artifact := do
  let a ← (ofEntries entries).read files n n
  ancestry files entries a
  accompanied files entries a

/-- A class read from the entries with the classes inside it. -/
def unchecked (files : FileTree) (entries : List Entry) (n : ClassName) :
    Except ResolutionError Artifact :=
  (ofEntries entries).read files n n >>= accompanied files entries

/-! ## Faithful contexts -/

theorem Faithful.tidy (h : Faithful files context) : Tidy context :=
  fun n a ha => plain_of_read (h.cached n a ha n)

/-- A faithful context stays so if the classes that come into memory are those
that the entries have. -/
theorem Faithful.withCache (h : Faithful files context) {cache : NameMap Artifact}
    (hcache : ∀ n a, cache.get? n = some a → context.cache.get? n = some a ∨
      ∀ requested, context.read files n requested = .ok a) :
    Faithful files { context with cache } := by
  refine ⟨fun n a ha => ?_, h.remembered⟩
  rcases hcache n a ha with ha | hread
  · exact h.cached n a ha
  · exact hread

/-! ## Classes inside a class -/

/-- Reading only what is not in memory, and adding what is, comes to the same as
reading everything, except for the order. -/
theorem mapM_filter_isNone {ε α β : Type} {read : α → Except ε β} {cached : α → Option β}
    {ns : List α} (h : ∀ n ∈ ns, ∀ m, cached n = some m → read n = .ok m) :
    match ns.mapM read with
    | .error e => (ns.filter fun n => (cached n).isNone).mapM read = .error e
    | .ok all => ∃ fresh, (ns.filter fun n => (cached n).isNone).mapM read = .ok fresh ∧
        (fresh ++ ns.filterMap cached).Perm all := by
  induction ns with
  | nil => exact ⟨[], rfl, .refl []⟩
  | cons n ns ih =>
    have ih := ih fun k hk => h k (List.mem_cons_of_mem n hk)
    rw [List.mapM_cons, List.filter_cons, List.filterMap_cons]
    cases hc : cached n with
    | some m =>
      rw [h n List.mem_cons_self m hc]
      cases hall : ns.mapM read with
      | error e =>
        rw [hall] at ih
        exact ih
      | ok all =>
        rw [hall] at ih
        obtain ⟨fresh, hfresh, hperm⟩ := ih
        exact ⟨fresh, hfresh, List.perm_middle.trans (hperm.cons m)⟩
    | none =>
      rw [if_pos Option.isNone_none, List.mapM_cons]
      cases read n with
      | error e => rfl
      | ok m =>
        cases hall : ns.mapM read with
        | error e =>
          rw [hall] at ih
          show (Except.ok m >>= fun m => _ >>= fun ms => _) = _
          rw [ih]
          rfl
        | ok all =>
          rw [hall] at ih
          obtain ⟨fresh, hfresh, hperm⟩ := ih
          refine ⟨m :: fresh, ?_, hperm.cons m⟩
          rw [hfresh]
          rfl

/-- A class was put into memory together with the classes inside it, which changed
nothing else. -/
structure BroughtIn (files : FileTree) (context : Context) (a : Artifact) (context' : Context) :
    Prop where
  entries : context'.entries = context.entries
  faithful : Faithful files context'
  cached : ∀ n m, context'.cache.get? n = some m → context.cache.get? n = some m ∨
    (m = a ∧ n = a.name) ∨ ∃ ns, a.classFile.nestedClassNames = .ok ns ∧ n ∈ ns

/-- Bringing a class back that the entries have, with classes inside it that they
have too. -/
theorem BroughtIn.of_restore {cache : NameMap Artifact} (h : Faithful files context)
    (hcache : ∀ n m, cache.get? n = some m → context.cache.get? n = some m)
    (ha : ∀ requested, context.read files a.name requested = .ok a) (hself : b.withoutNested = a)
    (hread : ∀ m ∈ b.nested, ∀ requested, context.read files m.name requested = .ok m)
    (hlisted : ∀ m ∈ b.nested, ∃ ns, a.classFile.nestedClassNames = .ok ns ∧ m.name ∈ ns) :
    BroughtIn files context a (Context.restore { context with cache } b) := by
  have horigin : ∀ n m, (Context.restore { context with cache } b).cache.get? n = some m →
      (m = a ∨ m ∈ b.nested) ∧ m.name = n ∨ context.cache.get? n = some m := fun n m hm => by
    rcases mem_of_get?_restore hm with ⟨hmem, hname⟩ | hold
    · rw [hself] at hmem
      exact .inl ⟨List.mem_cons.1 hmem, hname⟩
    · exact .inr (hcache n m hold)
  refine ⟨rfl, h.withCache fun n m hm => ?_, fun n m hm => ?_⟩
  · rcases horigin n m hm with ⟨rfl | hmem, rfl⟩ | hold
    · exact .inr ha
    · exact .inr (hread m hmem)
    · exact .inl hold
  · rcases horigin n m hm with ⟨rfl | hmem, rfl⟩ | hold
    · exact .inr (.inl ⟨rfl, rfl⟩)
    · exact .inr (.inr (hlisted m hmem))
    · exact .inl hold

/-- In a faithful context the classes that come along with a class are those of the
entries. -/
theorem attachMembers_faithful (h : Faithful files context)
    (ha : ∀ requested, context.read files a.name requested = .ok a) :
    (∃ e, accompanied files context.entries a = .error e ∧
        attachMembers files (a, context) = .error e (a, context)) ∨
      ∃ b context', attachMembers files (a, context) = .ok () (b, context') ∧
        SameAnswer (.ok b) (accompanied files context.entries a) ∧
        BroughtIn files context a (context'.restore b) := by
  obtain ⟨-, hplain⟩ := plain_of_read (ha a.name)
  rw [attachMembers_eq h.tidy hplain]
  unfold accompanied
  cases hns : a.classFile.nestedClassNames with
  | error e => exact .inl ⟨_, rfl, rfl⟩
  | ok ns =>
    have hcached : ∀ n ∈ ns, ∀ m, context.cache.get? n = some m →
        (ofEntries context.entries).read files n a.name = .ok m := fun n _ m hm => by
      rw [read_ofEntries]
      exact h.cached n m hm a.name
    have hread := mapM_filter_isNone hcached
    have hfilter : (ns.filter fun n => !context.isCached n) =
        ns.filter fun n => (context.cache.get? n).isNone :=
      List.filter_congr fun n _ => Option.not_isSome (context.cache.get? n)
    simp only [read_ofEntries] at hread
    dsimp only [Except.mapError, bind, Except.bind]
    simp only [read_ofEntries, hfilter]
    cases hall : ns.mapM fun n => context.read files n a.name with
    | error e =>
      rw [hall] at hread
      rw [hread]
      exact .inl ⟨e, rfl, rfl⟩
    | ok all =>
      rw [hall] at hread
      obtain ⟨fresh, hfresh, hperm⟩ := hread
      rw [hfresh]
      refine .inr ⟨_, _, rfl, .ok rfl hperm, ?_⟩
      obtain ⟨hnames, hmembers⟩ := forall₂_read (mapM_eq_ok_iff.1 hall)
      refine .of_restore h (fun _ _ => NameMap.get?_of_get?_foldl_erase) ha
        (Plain.withoutNested hplain) (fun m hm requested => ?_) fun m hm => ⟨ns, hns, ?_⟩
      · exact read_of_read (hmembers m (hperm.mem_iff.1 hm)).2 requested
      · rw [← hnames]
        exact List.mem_map_of_mem (hperm.mem_iff.1 hm)

/-! ## Taking out and bringing back -/

/-- The context once the class that was taken out, if any, is back. -/
def settle : EStateM.Result ResolutionError Context Artifact → Context
  | .ok a context => context.restore a
  | .error _ context => context

theorem checkout_of_not_cached (h : context.cache.get? n = none) :
    checkout files n context = load files n context := by
  unfold checkout
  rw [h]

/-- A class that is not in memory is shown by taking it out and bringing it back. -/
theorem leaves_resolve (files : FileTree) (n : ClassName) (context : Context) :
    leaves (resolve files n) context =
      if context.isCached n then context else settle (checkout files n context) := by
  unfold leaves resolve isCached NameMap.contains
  cases hc : context.cache.get? n with
  | some a => rfl
  | none =>
    rw [checkout_of_not_cached hc]
    dsimp only
    cases load files n context with
    | error e context' => rfl
    | ok a context' =>
      dsimp only
      cases (context'.restore a).cache.get? n <;> rfl

/-- A class comes into memory along with the one around it. -/
def ComesWith (files : FileTree) (entries : List Entry) (n outer : ClassName) : Prop :=
  ∃ a ns, (ofEntries entries).read files outer outer = .ok a ∧
    a.classFile.nestedClassNames = .ok ns ∧ n ∈ ns

/-- After a class was asked for, memory is still faithful, and what is new there is
that class, with its superclasses found, or came with it. -/
structure Asked (files : FileTree) (context : Context) (n : ClassName) (context' : Context) :
    Prop where
  entries : context'.entries = context.entries
  faithful : Faithful files context'
  cached : ∀ k m, context'.cache.get? k = some m → context.cache.get? k = some m ∨
    ancestry files context.entries m = .ok () ∨ ComesWith files context.entries k n

theorem Asked.of_unchanged (h : Faithful files context) (n : ClassName) :
    Asked files context n context :=
  ⟨rfl, h, fun _ _ hm => .inl hm⟩

theorem BroughtIn.asked {between : Context} (h : BroughtIn files between a context')
    (hentries : between.entries = context.entries)
    (hcache : ∀ k m, between.cache.get? k = some m → context.cache.get? k = some m)
    (hread : context.read files a.name a.name = .ok a)
    (hfound : context.cache.get? a.name = some a ∨ ancestry files context.entries a = .ok ()) :
    Asked files context a.name context' := by
  refine ⟨h.entries.trans hentries, h.faithful, fun k m hm => ?_⟩
  rcases h.cached k m hm with hold | ⟨rfl, rfl⟩ | ⟨ns, hns, hk⟩
  · exact .inl (hcache k m hold)
  · exact hfound.imp id .inl
  · refine .inr (.inr ⟨a, ns, ?_, hns, hk⟩)
    rwa [read_ofEntries]

/-- Reading a class with the classes inside it answers what the entries alone
answer. -/
theorem load_answers (h : Faithful files context) (n : ClassName) :
    SameAnswer (answer (load files n context)) (checked files context.entries n) ∧
      Asked files context n (settle (load files n context)) := by
  unfold load checked
  rw [read_ofEntries]
  cases hread : context.read files n n with
  | error e => exact ⟨.error e, .of_unchanged h n⟩
  | ok a =>
    obtain ⟨rfl, -⟩ := plain_of_read hread
    obtain ⟨between, hbetween, ⟨hentries, hcache⟩, hsuper⟩ := checkSuperclasses_eq h a
    dsimp only [bind, Except.bind]
    rw [hsuper]
    cases hancestry : ancestry files context.entries a with
    | error e =>
      refine ⟨.error e, hentries, hbetween, fun k m hm => .inl ?_⟩
      change between.cache.get? k = some m at hm
      rwa [hcache] at hm
    | ok _ =>
      have ha : ∀ requested, between.read files a.name requested = .ok a := fun requested => by
        rw [read_congr hentries]
        exact read_of_read hread requested
      dsimp only
      rw [← hentries]
      rcases attachMembers_faithful hbetween ha with
        ⟨e, haccompanied, hattach⟩ | ⟨b, context', hattach, hsame, hbrought⟩
      · rw [haccompanied, hattach]
        refine ⟨.error e, hentries, hbetween, fun k m hm => .inl ?_⟩
        change between.cache.get? k = some m at hm
        rwa [hcache] at hm
      · rw [hattach]
        refine ⟨hsame, hbrought.asked hentries (fun k m hm => ?_) hread (.inr hancestry)⟩
        rwa [hcache] at hm

/-- Taking a class out answers what the entries alone answer, but asks for the
superclasses of the class only if it is not in memory. -/
theorem checkout_answers (h : Faithful files context) (n : ClassName) :
    SameAnswer (answer (checkout files n context))
        (if context.isCached n then unchecked files context.entries n
          else checked files context.entries n) ∧
      Asked files context n (settle (checkout files n context)) := by
  unfold checkout isCached NameMap.contains
  cases hc : context.cache.get? n with
  | none => exact load_answers h n
  | some a =>
    obtain ⟨rfl, hplain⟩ := h.tidy n a hc
    have ha := h.cached a.name a hc
    have herased : ∀ k m, (context.cache.erase a.name).get? k = some m →
        context.cache.get? k = some m := fun _ _ => NameMap.get?_of_get?_erase
    have hapart := h.withCache fun k m hm => .inl (herased k m hm)
    have hunchecked : unchecked files context.entries a.name =
        accompanied files context.entries a := by
      unfold unchecked
      rw [read_ofEntries, ha]
      rfl
    dsimp only [Option.isSome_some]
    rw [if_pos rfl, hunchecked]
    rcases attachMembers_faithful hapart ha with
      ⟨e, haccompanied, hattach⟩ | ⟨b, context', hattach, hsame, hbrought⟩
    · rw [hattach]
      refine ⟨?_, BroughtIn.asked (.of_restore h herased ha
        (Plain.withoutNested hplain) ?_ ?_) rfl (fun _ _ hm => hm) (ha a.name) (.inl hc)⟩
      · change SameAnswer (.error e) (accompanied files context.entries a)
        rw [haccompanied]
        exact .error e
      · rw [hplain.alone]
        exact fun m hm => (nomatch hm)
      · rw [hplain.alone]
        exact fun m hm => (nomatch hm)
    · rw [hattach]
      exact ⟨hsame, hbrought.asked rfl herased (ha a.name) (.inl hc)⟩

/-! ## Any number of uses -/

/-- A use of a context that leaves every class as it is. -/
inductive Use
  /-- The class is shown. -/
  | resolve (n : ClassName)
  /-- The class is taken out and brought back. -/
  | borrow (n : ClassName)

namespace Use

/-- The class that is asked for. -/
def name : Use → ClassName
  | resolve n | borrow n => n

/-- The context after the use. -/
def run (files : FileTree) : Use → Context → Context
  | resolve n, context => leaves (Context.resolve files n) context
  | borrow n, context => settle (checkout files n context)

theorem run_asked (h : Faithful files context) (u : Use) :
    Asked files context u.name (u.run files context) := by
  cases u with
  | borrow n => exact (checkout_answers h n).2
  | resolve n =>
    rw [run, leaves_resolve]
    split_ifs
    · exact .of_unchanged h n
    · exact (checkout_answers h n).2

end Use

/-- The context after some uses. -/
def afterUses (files : FileTree) (uses : List Use) (context : Context) : Context :=
  uses.foldl (fun context u => u.run files context) context

/-- Memory after some uses of a new context: every class there is the one of the
entries, and its superclasses were found or it came with another one. -/
structure Consistent (files : FileTree) (entries : List Entry) (uses : List Use)
    (context : Context) : Prop where
  searches : context.entries = entries
  faithful : Faithful files context
  cached : ∀ n a, context.cache.get? n = some a →
    ancestry files entries a = .ok () ∨ ∃ u ∈ uses, ComesWith files entries n u.name

theorem consistent_afterUses (files : FileTree) (entries : List Entry) (uses : List Use) :
    Consistent files entries uses (afterUses files uses (ofEntries entries)) := by
  induction uses using List.reverseRecOn with
  | nil => exact ⟨rfl, faithful_ofEntries files entries, fun n a ha => (nomatch ha)⟩
  | append_singleton uses u ih =>
    unfold afterUses at ih ⊢
    rw [List.foldl_concat]
    have hasked := u.run_asked ih.faithful
    refine ⟨hasked.entries.trans ih.searches, hasked.faithful, fun n a ha => ?_⟩
    have hcached := hasked.cached n a ha
    rw [ih.searches] at hcached
    rcases hcached with hold | hancestry | hcomes
    · refine (ih.cached n a hold).imp id fun ⟨u', hu', hcomes⟩ => ⟨u', ?_, hcomes⟩
      exact List.mem_append_left [u] hu'
    · exact .inl hancestry
    · exact .inr ⟨u, List.mem_append_right uses (List.mem_singleton_self u), hcomes⟩

/-- A class whose superclasses cannot be found is in memory all the same, because
it came with the one around it. -/
structure Overlooked (files : FileTree) (entries : List Entry) (uses : List Use)
    (context : Context) (n : ClassName) (a : Artifact) (e : ResolutionError) : Prop where
  cached : context.cache.get? n = some a
  came : ∃ u ∈ uses, ComesWith files entries n u.name
  refused : answer (checkSuperclasses files a (ofEntries entries)) = .error e

/-- After any uses, taking a class out answers what it answers in a new context,
except for an overlooked class: the new context refuses that one, and the used one
does not ask for its superclasses. -/
theorem checkout_after_uses {fresh : Context} (hbuild : build files entries = .ok fresh)
    (uses : List Use) (n : ClassName) :
    SameAnswer (answer (checkout files n (afterUses files uses fresh)))
        (answer (checkout files n fresh)) ∨
      ∃ a e, Overlooked files entries uses (afterUses files uses fresh) n a e ∧
        answer (checkout files n fresh) = .error e ∧
        SameAnswer (answer (checkout files n (afterUses files uses fresh)))
          (accompanied files entries a) := by
  obtain rfl := build_eq_ok hbuild
  have hc := consistent_afterUses files entries uses
  generalize afterUses files uses (ofEntries entries) = used at hc ⊢
  obtain ⟨hfresh, -⟩ := checkout_answers (faithful_ofEntries files entries) n
  obtain ⟨hused, -⟩ := checkout_answers hc.faithful n
  rw [hc.searches] at hused
  change SameAnswer _ (checked files entries n) at hfresh
  unfold isCached NameMap.contains at hused
  -- only a class that is in memory already is not asked for its superclasses
  cases hcached : used.cache.get? n with
  | none =>
    rw [hcached] at hused
    exact .inl (hused.trans hfresh.symm)
  | some a =>
    rw [hcached] at hused
    have hread : (ofEntries entries).read files n n = .ok a := by
      rw [← hc.searches, read_ofEntries]
      exact hc.faithful.cached n a hcached n
    unfold checked at hfresh
    change SameAnswer _ (unchecked files entries n) at hused
    unfold unchecked at hused
    rw [hread] at hused hfresh
    cases hancestry : ancestry files entries a with
    | ok _ =>
      dsimp only [bind, Except.bind] at hused hfresh
      rw [hancestry] at hfresh
      exact .inl (hused.trans hfresh.symm)
    | error e =>
      dsimp only [bind, Except.bind] at hused hfresh
      rw [hancestry] at hfresh
      refine .inr ⟨a, e, ⟨hcached, ?_, ?_⟩, hfresh.eq_error, hused⟩
      · refine (hc.cached n a hcached).resolve_left fun hok => ?_
        rw [hancestry] at hok
        cases hok
      · obtain ⟨rfl, -⟩ := plain_of_read hread
        obtain ⟨context', -, -, hcheck⟩ :=
          checkSuperclasses_eq (faithful_ofEntries files entries) a
        have hrefused : ancestry files (ofEntries entries).entries a = .error e := hancestry
        rw [hcheck, hrefused]
        rfl

/-! ## A class and one inside it -/

/-- The name `Outer`. -/
def outerName : ClassName :=
  ⟨"Outer", by constructor <;> simp [Text.split, ClassName.isForbidden]⟩

/-- The name `Outer$Inner`. -/
def innerName : ClassName :=
  ⟨"Outer$Inner", by constructor <;> simp [Text.split, ClassName.isForbidden]⟩

/-- The name of a class that is nowhere. -/
def absentName : ClassName :=
  ⟨"absent.Base", by constructor <;> simp [Text.split, ClassName.isForbidden]⟩

/-- A directory of classes with `Outer` and, inside it, `Outer$Inner`, whose
superclass is nowhere. -/
def orphanFiles : FileTree :=
  let outer : Fixture := { Fixture.ofName outerName with nested := [innerName] }
  let inner : Fixture := { Fixture.ofName innerName with superName := some absentName }
  leaves (do outer.writeTo ⟨"classes"⟩; inner.writeTo ⟨"classes"⟩) (.empty ["work"])

/-- The directory as the only entry. -/
def orphanEntries : List Entry := [.directory ⟨"classes"⟩]

theorem build_orphanEntries :
    build orphanFiles orphanEntries = .ok (ofEntries orphanEntries) := by
  have hok : (build orphanFiles orphanEntries).toOption.isSome = true := by
    decide +kernel
  cases h : build orphanFiles orphanEntries with
  | error e =>
    rw [h] at hok
    cases hok
  | ok context => rw [build_eq_ok h]

/-- The context after the outer class was resolved. -/
def afterOuter : Context :=
  afterUses orphanFiles [.resolve outerName] (ofEntries orphanEntries)

/-- The answers for the inner class, before the outer one is resolved and after. -/
theorem orphan_answers :
    (answer (checkout orphanFiles innerName (ofEntries orphanEntries))).map (·.name) =
        .error (.notFound absentName innerName) ∧
      (answer (checkout orphanFiles innerName afterOuter)).map (·.name) =
        .ok innerName := by
  decide +kernel

theorem orphan_answers_differ :
    ¬ SameAnswer (answer (checkout orphanFiles innerName afterOuter))
      (answer (checkout orphanFiles innerName (ofEntries orphanEntries))) := by
  intro h
  obtain ⟨hfresh, hused⟩ := orphan_answers
  have hnames := h.map_name
  rw [hfresh, hused] at hnames
  cases hnames

/-- Once the outer class is resolved, the inner one is taken out although its
superclass cannot be found. -/
theorem inner_found_after_outer :
    ∃ fresh, build orphanFiles orphanEntries = .ok fresh ∧
      ¬ SameAnswer
        (answer (checkout orphanFiles innerName
          (afterUses orphanFiles [.resolve outerName] fresh)))
        (answer (checkout orphanFiles innerName fresh)) :=
  ⟨ofEntries orphanEntries, build_orphanEntries, orphan_answers_differ⟩

/-- It is overlooked. -/
theorem inner_overlooked :
    build orphanFiles orphanEntries = .ok (ofEntries orphanEntries) ∧
      ∃ a e, Overlooked orphanFiles orphanEntries [.resolve outerName] afterOuter
        innerName a e := by
  refine ⟨build_orphanEntries, ?_⟩
  rcases checkout_after_uses build_orphanEntries [.resolve outerName] innerName with
    hsame | ⟨a, e, hoverlooked, -⟩
  · exact absurd hsame orphan_answers_differ
  · exact ⟨a, e, hoverlooked⟩

end ClassStamp.Classpath.Context
