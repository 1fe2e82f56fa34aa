import Mathlib.Data.Set.Card
import Mathlib.Data.Set.Finite.Lattice
import ClassStamp.Proofs.Classpath.Independence
import ClassStamp.Proofs.FileTree.Nodes

/-!
# Every use of a context ends

The walk up the superclasses has no limit of its own. It goes on until it comes to the top,
to a class of the platform, to a class that it visited before, or to one whose superclass
cannot be told. It ends all the same, whatever the entries have and whatever a context has in
memory or remembers, as long as the names that the entries have are finitely many: a step that
goes on visits one more of the names that the context has an answer for.

* `finite_supplied`: what directories have, and loaders of finitely many classes;
* `known`: the names that a context has an answer for;
* `Walks`: the walk as a relation, with the number of its steps, and `exists_walks`: it ends;
* `Loads`, `Takes`, `Shows`: reading a class, taking it out and showing it, with that walk;
* `uses_end`: each comes to one answer, after so many steps.
-/

namespace ClassStamp

theorem finite_of_lookup {α : Type} (rows : List (ClassName × α)) :
    {n | ∃ a, rows.lookup n = some a}.Finite := by
  refine (List.finite_toSet (rows.map (·.1))).subset fun n hn => ?_
  obtain ⟨a, hlookup⟩ := hn
  obtain ⟨before, after, rfl, -⟩ := List.lookup_eq_some_iff.1 hlookup
  exact List.mem_map.2 ⟨(n, a), List.mem_append_right before List.mem_cons_self, rfl⟩

namespace NameMap

variable {α : Type}

theorem finite_contains (m : NameMap α) : {n | m.contains n = true}.Finite :=
  (finite_of_lookup m.entries).subset fun _ hn => Option.isSome_iff_exists.1 hn

theorem setOf_contains_insert (m : NameMap α) (n : ClassName) (a : α) :
    {k | (m.insert n a).contains k = true} = Insert.insert n {k | m.contains k = true} := by
  ext k
  show (m.insert n a).contains k = true ↔ k = n ∨ m.contains k = true
  rw [contains, get?_insert, contains]
  by_cases hk : k = n
  · simp [hk]
  · simp [hk]

end NameMap

namespace Classpath

/-! ## The names that entries have -/

theorem finite_directory (files : FileTree) (root : Path) :
    {n | ∃ found, loadFrom files root n = .ok (some found)}.Finite := by
  -- each class has a file of its own
  have hinj : Function.Injective fun n : ClassName => files.placeOf (root.join n.relativePath) :=
    fun m n hp => FileTree.placeOf_join_inj hp
  refine (files.finite_places.preimage hinj.injOn).subset ?_
  rintro n ⟨found, hload⟩
  have hat := FileTree.fileAt?_of_read (read_of_loadFrom hload)
  show (files.node? (files.placeOf (root.join n.relativePath))).isSome
  rw [FileTree.fileAt?_eq_some_iff.1 hat]
  rfl

theorem finite_inMemory (files : FileTree) (description : String)
    (classes : List (ClassName × Bytes)) (failing : List ClassName) :
    {n | ∃ found, (Loader.inMemory description classes failing).load files n =
      .ok (some found)}.Finite := by
  refine (finite_of_lookup classes.reverse).subset ?_
  rintro n ⟨found, hload⟩
  dsimp only [Loader.inMemory] at hload
  split at hload
  · cases hload
  · obtain ⟨content, hcontent, -⟩ := Option.map_eq_some_iff.1 (Except.ok.inj hload)
    exact ⟨content, hcontent⟩

/-- Entries have finitely many classes if each loader among them does. -/
theorem finite_supplied {files : FileTree} {entries : List Entry}
    (h : ∀ l, .loader l ∈ entries → {n | ∃ found, l.load files n = .ok (some found)}.Finite) :
    {n | Supplied files entries n}.Finite := by
  have hentry : ∀ entry ∈ entries, {n | ∃ found, entry.load files n = .ok (some found)}.Finite := by
    intro entry hentry
    cases entry with
    | directory root => exact finite_directory files root
    | loader l => exact h l hentry
    | system roots =>
      refine ((List.finite_toSet roots).biUnion fun root _ => finite_directory files root).subset ?_
      rintro n ⟨found, hload⟩
      obtain ⟨root, hroot, hfound⟩ := firstFound_eq_some hload
      exact Set.mem_biUnion hroot ⟨found, hfound⟩
  refine ((List.finite_toSet entries).biUnion hentry).subset ?_
  rintro n ⟨found, hfound⟩
  obtain ⟨entry, hmem, hload⟩ := firstFound_eq_some hfound
  exact Set.mem_biUnion hmem ⟨found, hload⟩

namespace Context

variable {files : FileTree} {context context' between : Context} {requested n : ClassName}
  {visited : List ClassName} {next : Option ClassName} {steps steps' : Nat}

/-! ## The names that there is an answer for -/

/-- The names that a context has an answer for: the entries have the class, it is in memory,
or its superclass is remembered. -/
def known (files : FileTree) (context : Context) : Set ClassName :=
  {n | Supplied files context.entries n} ∪
    ({n | context.cache.contains n = true} ∪ {n | context.superclasses.contains n = true})

theorem finite_known (h : {n | Supplied files context.entries n}.Finite) :
    (known files context).Finite :=
  h.union (context.cache.finite_contains.union context.superclasses.finite_contains)

/-- The superclass is told of names that there is an answer for only, and remembering it
brings no name in. -/
theorem superclass_eq_ok (h : superclass files requested n context = .ok next between) :
    n ∈ known files context ∧ known files between = known files context := by
  unfold superclass at h
  dsimp only at h
  cases hmemo : context.superclasses.get? n with
  | some parent =>
    rw [hmemo] at h
    cases h
    exact ⟨.inr (.inr (Option.isSome_iff_exists.2 ⟨_, hmemo⟩)), rfl⟩
  | none =>
    rw [hmemo] at h
    dsimp only at h
    split at h
    · cases h
    rename_i parent hparent
    cases h
    obtain ⟨a, ha, -⟩ := except_bind_eq_ok hparent
    have hn : n ∈ known files context := by
      cases hcached : context.cache.get? n with
      | some b => exact .inr (.inl (Option.isSome_iff_exists.2 ⟨b, hcached⟩))
      | none =>
        rw [hcached] at ha
        exact .inl (supplied_of_read ha)
    refine ⟨hn, ?_⟩
    -- the name that is remembered now is one that there was an answer for
    simp only [known, NameMap.setOf_contains_insert, Set.union_insert]
    exact Set.insert_eq_of_mem hn

/-! ## The walk without a limit -/

/-- What a use of a context comes to. -/
abbrev Result := EStateM.Result ResolutionError Context

/-- The walk up the superclasses from `next` past the names that were not visited, the number
of names that it looks at, and what it comes to. -/
inductive Walks (files : FileTree) (requested : ClassName) :
    List ClassName → Option ClassName → Context → Nat → Result Unit → Prop
  | top {visited : List ClassName} {context : Context} :
    Walks files requested visited none context 0 (.ok () context)
  | stop {visited : List ClassName} {n : ClassName} {context : Context}
    (h : isBootstrap n = true ∨ n ∈ visited) :
    Walks files requested visited (some n) context 1 (.ok () context)
  | blocked {visited : List ClassName} {n : ClassName} {context context' : Context}
    {e : ResolutionError} (hon : ¬(isBootstrap n = true ∨ n ∈ visited))
    (h : superclass files requested n context = .error e context') :
    Walks files requested visited (some n) context 1 (.error e context')
  | up {visited : List ClassName} {n : ClassName} {next : Option ClassName}
    {context between : Context} {steps : Nat} {result : Result Unit}
    (hon : ¬(isBootstrap n = true ∨ n ∈ visited))
    (h : superclass files requested n context = .ok next between)
    (hrest : Walks files requested (n :: visited) next between steps result) :
    Walks files requested visited (some n) context (steps + 1) result

theorem Walks.unique {result result' : Result Unit}
    (h : Walks files requested visited next context steps result)
    (h' : Walks files requested visited next context steps' result') :
    steps' = steps ∧ result' = result := by
  induction h generalizing steps' result' with
  | top =>
    cases h'
    exact ⟨rfl, rfl⟩
  | stop hstop =>
    cases h' with
    | stop _ => exact ⟨rfl, rfl⟩
    | blocked hon _ => exact absurd hstop hon
    | up hon _ _ => exact absurd hstop hon
  | blocked hon hn =>
    cases h' with
    | stop hstop => exact absurd hstop hon
    | blocked _ hn' =>
      cases hn.symm.trans hn'
      exact ⟨rfl, rfl⟩
    | up _ hn' _ =>
      cases hn.symm.trans hn'
  | up hon hn _ ih =>
    cases h' with
    | stop hstop => exact absurd hstop hon
    | blocked _ hn' =>
      cases hn.symm.trans hn'
    | up _ hn' hrest' =>
      cases hn.symm.trans hn'
      obtain ⟨rfl, rfl⟩ := ih hrest'
      exact ⟨rfl, rfl⟩

/-- The names that are left to visit. -/
def unvisited (files : FileTree) (context : Context) (visited : List ClassName) : Set ClassName :=
  known files context \ {n | n ∈ visited}

theorem ncard_unvisited_cons (hfinite : (known files context).Finite)
    (hn : n ∈ known files context) (hnew : n ∉ visited) :
    (unvisited files context (n :: visited)).ncard + 1 =
      (unvisited files context visited).ncard := by
  have hset : unvisited files context (n :: visited) = unvisited files context visited \ {n} := by
    ext k
    simp only [unvisited, Set.mem_sdiff, Set.mem_ofPred_eq, List.mem_cons, not_or,
      Set.mem_singleton_iff]
    tauto
  rw [hset]
  refine Set.ncard_sdiff_singleton_add_one ⟨hn, hnew⟩ ?_
  exact hfinite.subset Set.sdiff_subset

/-- The walk ends if there are finitely many names to visit. -/
theorem exists_walks (hfinite : (known files context).Finite) (requested : ClassName)
    (visited : List ClassName) (next : Option ClassName) :
    ∃ steps ≤ (unvisited files context visited).ncard + 1, ∃ result,
      Walks files requested visited next context steps result := by
  -- every step that goes on visits a name that was left to visit
  induction hleft : (unvisited files context visited).ncard using Nat.strong_induction_on
    generalizing visited next context with
  | _ left ih =>
    cases next with
    | none => exact ⟨0, Nat.zero_le _, _, .top⟩
    | some n =>
      by_cases hstop : isBootstrap n = true ∨ n ∈ visited
      · exact ⟨1, by omega, _, .stop hstop⟩
      cases hn : superclass files requested n context with
      | error e context' => exact ⟨1, by omega, _, .blocked hstop hn⟩
      | ok next between =>
        obtain ⟨hknown, hsame⟩ := superclass_eq_ok hn
        have hfewer := ncard_unvisited_cons hfinite hknown fun hmem => hstop (.inr hmem)
        have hrest : unvisited files between (n :: visited) =
            unvisited files context (n :: visited) := by rw [unvisited, hsame, unvisited]
        obtain ⟨steps, hsteps, result, hwalks⟩ :=
          ih (unvisited files context (n :: visited)).ncard (by omega) (hsame ▸ hfinite)
            (n :: visited) next (congrArg Set.ncard hrest)
        exact ⟨steps + 1, by omega, result, .up hstop hn hwalks⟩

/-- The walk comes to what the relation says. -/
theorem Walks.run_eq {result : Result Unit}
    (h : Walks files requested visited next context steps result) :
    ({ visited, next, context } : Walk).run files requested = some result := by
  induction h with
  | top => rw [Walk.run_eq, Walk.step_of_next_none rfl]
  | stop hstop => rw [Walk.run_eq, Walk.step_of_stop rfl hstop]
  | blocked hon hn => rw [Walk.run_eq, Walk.step_of_on rfl hon, hn]
  | up hon hn _ ih =>
    rw [Walk.run_eq, Walk.step_of_on rfl hon, hn]
    exact ih

/-! ## The uses of a context -/

/-- Making sure that the superclasses of a class can be found, by the walk without a limit. -/
inductive Checks (files : FileTree) (a : Artifact) (context : Context) :
    Nat → Result Unit → Prop
  | unreadable {e : ResolutionError} (h : superclassOf a = .error e) :
    Checks files a context 0 (.error e context)
  | walked {next : Option ClassName} {steps : Nat}
    {result : Result Unit} (hnext : superclassOf a = .ok next)
    (h : Walks files a.name [a.name] next context steps result) :
    Checks files a context steps result

/-- What becomes of a class that was read, once its superclasses were looked for. -/
def bringAlong (files : FileTree) (a : Artifact) : Result Unit → Result Artifact
  | .error e context => .error e context
  | .ok () context => match attachMembers files (a, context) with
    | .error e (_, context) => .error e context
    | .ok () (a, context) => .ok a context

/-- What becomes of a class in memory that is taken out. -/
def lend (files : FileTree) (a : Artifact) (context : Context) : Result Artifact :=
  match attachMembers files (a, context) with
  | .error e (a, context) => .error e (context.restore a)
  | .ok () (a, context) => .ok a context

/-- What is shown of a class that was read. -/
def bringBack (n : ClassName) : Result Artifact → Result Artifact
  | .error e context => .error e context
  | .ok a context => match (context.restore a).cache.get? n with
    | some a' => .ok a' (context.restore a)
    | none => .error (.notFound n n) (context.restore a)

/-- Reading a class with the classes directly inside it. -/
inductive Loads (files : FileTree) (n : ClassName) (context : Context) :
    Nat → Result Artifact → Prop
  | unread {e : ResolutionError} (h : context.read files n n = .error e) :
    Loads files n context 0 (.error e context)
  | read {a : Artifact} {steps : Nat} {result : Result Unit}
    (ha : context.read files n n = .ok a) (h : Checks files a context steps result) :
    Loads files n context steps (bringAlong files a result)

/-- Taking a class out with the classes directly inside it. -/
inductive Takes (files : FileTree) (n : ClassName) (context : Context) :
    Nat → Result Artifact → Prop
  | held {a : Artifact} (hn : context.cache.get? n = some a) :
    Takes files n context 0 (lend files a { context with cache := context.cache.erase n })
  | fresh {steps : Nat} {result : Result Artifact}
    (hn : context.cache.get? n = none) (h : Loads files n context steps result) :
    Takes files n context steps result

/-- Showing a class that is left in memory. -/
inductive Shows (files : FileTree) (n : ClassName) (context : Context) :
    Nat → Result Artifact → Prop
  | held {a : Artifact} (hn : context.cache.get? n = some a) :
    Shows files n context 0 (.ok a context)
  | fresh {steps : Nat} {result : Result Artifact}
    (hn : context.cache.get? n = none) (h : Loads files n context steps result) :
    Shows files n context steps (bringBack n result)

theorem Checks.unique {a : Artifact} {result result' : Result Unit}
    (h : Checks files a context steps result) (h' : Checks files a context steps' result') :
    steps' = steps ∧ result' = result := by
  cases h with
  | unreadable he =>
    cases h' with
    | unreadable he' =>
      cases he.symm.trans he'
      exact ⟨rfl, rfl⟩
    | walked hnext' _ => cases he.symm.trans hnext'
  | walked hnext hwalks =>
    cases h' with
    | unreadable he' => cases hnext.symm.trans he'
    | walked hnext' hwalks' =>
      cases hnext.symm.trans hnext'
      exact hwalks.unique hwalks'

section Unique

variable {result result' : Result Artifact}

theorem Loads.unique (h : Loads files n context steps result)
    (h' : Loads files n context steps' result') : steps' = steps ∧ result' = result := by
  cases h with
  | unread he =>
    cases h' with
    | unread he' =>
      cases he.symm.trans he'
      exact ⟨rfl, rfl⟩
    | read ha' _ => cases he.symm.trans ha'
  | read ha hchecks =>
    cases h' with
    | unread he' => cases ha.symm.trans he'
    | read ha' hchecks' =>
      cases ha.symm.trans ha'
      obtain ⟨rfl, rfl⟩ := hchecks.unique hchecks'
      exact ⟨rfl, rfl⟩

theorem Takes.unique (h : Takes files n context steps result)
    (h' : Takes files n context steps' result') : steps' = steps ∧ result' = result := by
  cases h with
  | held hn =>
    cases h' with
    | held hn' =>
      cases hn.symm.trans hn'
      exact ⟨rfl, rfl⟩
    | fresh hn' _ => cases hn.symm.trans hn'
  | fresh hn hloads =>
    cases h' with
    | held hn' => cases hn.symm.trans hn'
    | fresh _ hloads' => exact hloads.unique hloads'

theorem Shows.unique (h : Shows files n context steps result)
    (h' : Shows files n context steps' result') : steps' = steps ∧ result' = result := by
  cases h with
  | held hn =>
    cases h' with
    | held hn' =>
      cases hn.symm.trans hn'
      exact ⟨rfl, rfl⟩
    | fresh hn' _ => cases hn.symm.trans hn'
  | fresh hn hloads =>
    cases h' with
    | held hn' => cases hn.symm.trans hn'
    | fresh _ hloads' =>
      obtain ⟨rfl, rfl⟩ := hloads.unique hloads'
      exact ⟨rfl, rfl⟩

end Unique

/-! ## They end -/

theorem checks_checkSuperclasses (hfinite : (known files context).Finite) (a : Artifact) :
    ∃ steps ≤ (known files context).ncard + 1,
      Checks files a context steps (checkSuperclasses files a context) := by
  cases hnext : superclassOf a with
  | error e =>
    have hcheck : checkSuperclasses files a context = .error e context := by
      unfold checkSuperclasses
      rw [hnext]
    exact ⟨0, Nat.zero_le _, hcheck ▸ .unreadable hnext⟩
  | ok next =>
    obtain ⟨steps, hsteps, result, hwalks⟩ := exists_walks hfinite a.name [a.name] next
    have hcheck : checkSuperclasses files a context = result := by
      rw [checkSuperclasses_of_next files hnext, hwalks.run_eq]
      rfl
    have hfewer : (unvisited files context [a.name]).ncard ≤ (known files context).ncard :=
      Set.ncard_le_ncard Set.sdiff_subset hfinite
    exact ⟨steps, by omega, hcheck ▸ .walked hnext hwalks⟩

theorem loads_load (hfinite : (known files context).Finite) (n : ClassName) :
    ∃ steps ≤ (known files context).ncard + 1,
      Loads files n context steps (load files n context) := by
  cases ha : context.read files n n with
  | error e =>
    have hload : load files n context = .error e context := by simp only [load, ha]
    exact ⟨0, Nat.zero_le _, hload ▸ .unread ha⟩
  | ok a =>
    obtain ⟨steps, hsteps, hchecks⟩ := checks_checkSuperclasses hfinite a
    have hload : load files n context =
        bringAlong files a (checkSuperclasses files a context) := by
      simp only [load, ha]
      cases checkSuperclasses files a context <;> rfl
    exact ⟨steps, hsteps, hload ▸ .read ha hchecks⟩

theorem takes_checkout (hfinite : (known files context).Finite) (n : ClassName) :
    ∃ steps ≤ (known files context).ncard + 1,
      Takes files n context steps (checkout files n context) := by
  cases hn : context.cache.get? n with
  | some a =>
    have hcheckout : checkout files n context =
        lend files a { context with cache := context.cache.erase n } := by
      simp only [checkout, hn]
      rfl
    exact ⟨0, Nat.zero_le _, hcheckout ▸ .held hn⟩
  | none =>
    obtain ⟨steps, hsteps, hloads⟩ := loads_load hfinite n
    rw [← checkout_of_not_cached hn] at hloads
    exact ⟨steps, hsteps, .fresh hn hloads⟩

theorem shows_resolve (hfinite : (known files context).Finite) (n : ClassName) :
    ∃ steps ≤ (known files context).ncard + 1,
      Shows files n context steps (resolve files n context) := by
  cases hn : context.cache.get? n with
  | some a =>
    have hresolve : resolve files n context = .ok a context := by simp only [resolve, hn]
    exact ⟨0, Nat.zero_le _, hresolve ▸ .held hn⟩
  | none =>
    obtain ⟨steps, hsteps, hloads⟩ := loads_load hfinite n
    have hresolve : resolve files n context = bringBack n (load files n context) := by
      simp only [resolve, hn]
      cases load files n context with
      | error e between => rfl
      | ok a between => rfl
    exact ⟨steps, hsteps, hresolve ▸ .fresh hn hloads⟩

/-- If the entries have finitely many classes, then whatever a context has in memory and
remembers, taking a class out and showing one come to one answer each, by a walk that takes at
most one step for each name that there is an answer for, and one more. -/
theorem uses_end (hsupplied : {n | Supplied files context.entries n}.Finite) (n : ClassName) :
    (known files context).Finite ∧
    (∃ steps ≤ (known files context).ncard + 1, ∀ k result,
      Takes files n context k result ↔ k = steps ∧ result = checkout files n context) ∧
    ∃ steps ≤ (known files context).ncard + 1, ∀ k result,
      Shows files n context k result ↔ k = steps ∧ result = resolve files n context := by
  have hfinite := finite_known hsupplied
  obtain ⟨steps, hsteps, htakes⟩ := takes_checkout hfinite n
  obtain ⟨steps', hsteps', hshows⟩ := shows_resolve hfinite n
  refine ⟨hfinite, ⟨steps, hsteps, fun k result => ⟨htakes.unique, ?_⟩⟩,
    ⟨steps', hsteps', fun k result => ⟨hshows.unique, ?_⟩⟩⟩
  · rintro ⟨rfl, rfl⟩
    exact htakes
  · rintro ⟨rfl, rfl⟩
    exact hshows

/-- The name `Left`. -/
def leftName : ClassName :=
  ⟨"Left", by constructor <;> simp [Text.split, ClassName.isForbidden]⟩

/-- The name `Right`. -/
def rightName : ClassName :=
  ⟨"Right", by constructor <;> simp [Text.split, ClassName.isForbidden]⟩

/-- A directory of two classes, each of which is the superclass of the other. -/
def cyclicFiles : FileTree :=
  let left : Fixture := { Fixture.ofName leftName with superName := some rightName }
  let right : Fixture := { Fixture.ofName rightName with superName := some leftName }
  leaves (do left.writeTo ⟨"classes"⟩; right.writeTo ⟨"classes"⟩) (.empty ["work"])

/-- A class that is above itself is taken out as any other one. -/
theorem cyclic_taken :
    ∃ steps a context', Takes cyclicFiles leftName (ofEntries [.directory ⟨"classes"⟩]) steps
      (.ok a context') ∧ a.name = leftName := by
  have hsupplied : {n | Supplied cyclicFiles [.directory ⟨"classes"⟩] n}.Finite :=
    finite_supplied fun l hl => (nomatch hl)
  obtain ⟨-, ⟨steps, -, htakes⟩, -⟩ :=
    @uses_end cyclicFiles (ofEntries [.directory ⟨"classes"⟩]) hsupplied leftName
  have hname : (answer (checkout cyclicFiles leftName (ofEntries [.directory ⟨"classes"⟩]))).map
      (·.name) = .ok leftName := by
    decide +kernel
  have htaken := (htakes steps _).2 ⟨rfl, rfl⟩
  cases hout : checkout cyclicFiles leftName (ofEntries [.directory ⟨"classes"⟩]) with
  | error e context' =>
    rw [hout] at hname
    cases hname
  | ok a context' =>
    rw [hout] at hname htaken
    exact ⟨steps, a, context', htaken, Except.ok.inj hname⟩

end Classpath.Context

end ClassStamp
