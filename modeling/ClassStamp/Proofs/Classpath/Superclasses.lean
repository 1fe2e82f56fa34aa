import ClassStamp.Proofs.Classpath.Checkout
import ClassStamp.Proofs.Classpath.Lookup

/-!
# Walking up superclasses

What the walk up the superclasses of a class finds depends on the entries only, and not on
what a context read or remembers before, as long as that is what the entries have
(`Faithful`). Like the walk in a context, the one over the entries has no limit, and either
of them ends if the other one does.

* `FileTree.chain`: the walk over the entries alone;
* `chain_of_run` and `run_of_chain`: what one of the walks comes to, so does the other one;
* `checkSuperclasses_eq`: the walk in a faithful context.
-/

namespace ClassStamp

namespace Classpath

/-- The entries have bytes for a class. -/
def Supplied (files : FileTree) (entries : List Entry) (n : ClassName) : Prop :=
  ∃ found, firstFound (Entry.load files n) entries = .ok (some found)

namespace Context

/-! ## The walk over the entries alone -/

/-- The superclass of a class that `requested` needs, as the entries have it. -/
def parent (files : FileTree) (entries : List Entry) (requested n : ClassName) :
    Except ResolutionError (Option ClassName) :=
  (ofEntries entries).read files n requested >>= superclassOf

end Context

end Classpath

/-- Walks up the superclasses from `next`, past those that were visited, and looks each up
in the entries. -/
def FileTree.chain (files : FileTree) (entries : List Classpath.Entry) (requested : ClassName)
    (visited : List ClassName) (next : Option ClassName) :
    Option (Except ResolutionError Unit) :=
  match next with
  | none => some (.ok ())
  | some n =>
    if Classpath.isBootstrap n || visited.contains n then some (.ok ())
    else match Classpath.Context.parent files entries requested n with
      | .error e => some (.error e)
      | .ok parent => files |>.chain entries requested (n :: visited) parent
partial_fixpoint

namespace Classpath

variable {files : FileTree} {entries : List Entry} {n : ClassName}

namespace Context

theorem chain_none (requested : ClassName) (visited : List ClassName) :
    files.chain entries requested visited none = some (.ok ()) := by
  rw [FileTree.chain]

theorem chain_of_stop {visited : List ClassName} (requested : ClassName)
    (hstop : isBootstrap n = true ∨ n ∈ visited) :
    files.chain entries requested visited (some n) = some (.ok ()) := by
  rw [FileTree.chain]
  exact if_pos (by simpa using hstop)

/-- A step of the walk over the entries. -/
theorem chain_of_on {visited : List ClassName} (requested : ClassName)
    (hon : ¬(isBootstrap n = true ∨ n ∈ visited)) :
    files.chain entries requested visited (some n) =
      match parent files entries requested n with
      | .error e => some (.error e)
      | .ok next => files.chain entries requested (n :: visited) next := by
  rw [FileTree.chain]
  exact if_neg (by simpa using hon)

theorem supplied_of_read {context : Context} {requested : ClassName} {a : Artifact}
    (h : context.read files n requested = .ok a) : Supplied files context.entries n := by
  obtain ⟨found, hfound, -⟩ := read_eq_ok h
  exact ⟨found, hfound⟩

/-- Makes sure that the superclasses of a class can be found in the entries. As in a
context, `.ok` stands for a walk that does not end. -/
def ancestry (files : FileTree) (entries : List Entry) (a : Artifact) :
    Except ResolutionError Unit :=
  match superclassOf a with
  | .error e => .error e
  | .ok next => (files.chain entries a.name [a.name] next).getD (.ok ())

/-! ## Faithful contexts -/

variable {context context' : Context} {requested : ClassName} {a : Artifact}

/-- What a context has in memory, and what it remembers, is what the entries
have. -/
structure Faithful (files : FileTree) (context : Context) : Prop where
  cached : ∀ n a, context.cache.get? n = some a →
    ∀ requested, context.read files n requested = .ok a
  remembered : ∀ n parent, context.superclasses.get? n = some parent →
    ∃ a, (∀ requested, context.read files n requested = .ok a) ∧ superclassOf a = .ok parent

theorem faithful_ofEntries (files : FileTree) (entries : List Entry) :
    Faithful files (ofEntries entries) :=
  ⟨fun _ _ ha => (nomatch ha), fun _ _ hp => (nomatch hp)⟩

/-- For whom a class is read matters only if it is not found. -/
theorem read_of_read (h : context.read files n requested = .ok a) (requested' : ClassName) :
    context.read files n requested' = .ok a := by
  unfold read at h ⊢
  split at h
  · cases h
  · cases h
  · exact h

theorem read_ofEntries (context : Context) (n requested : ClassName) :
    (ofEntries context.entries).read files n requested = context.read files n requested :=
  read_congr rfl n requested

theorem superclass_of_unknown (h : Faithful files context)
    (hmemo : context.superclasses.get? n = none) (requested : ClassName) :
    superclass files requested n context = match parent files context.entries requested n with
      | .error e => .error e context
      | .ok next =>
        .ok next { context with superclasses := context.superclasses.insert n next } := by
  unfold superclass parent
  dsimp only
  rw [hmemo, read_ofEntries]
  cases hc : context.cache.get? n with
  | none => rfl
  | some a =>
    cases hs : superclassOf a <;>
      simp only [h.cached n a hc requested, bind, Except.bind, hs]

/-- The superclass of a class is the one that the entries have. -/
theorem superclass_eq (h : Faithful files context) (requested n : ClassName) :
    ∃ context', Faithful files context' ∧ SameClasses context context' ∧
      superclass files requested n context = match parent files context.entries requested n with
        | .error e => .error e context'
        | .ok next => .ok next context' := by
  cases hmemo : context.superclasses.get? n with
  | some next =>
    obtain ⟨a, hread, hnext⟩ := h.remembered n next hmemo
    have hparent : parent files context.entries requested n = .ok next := by
      unfold parent
      rw [read_ofEntries, hread requested]
      exact hnext
    refine ⟨context, h, refl_of SameClasses context, ?_⟩
    rw [hparent]
    unfold superclass
    dsimp only
    rw [hmemo]
  | none =>
    rw [superclass_of_unknown h hmemo]
    cases hparent : parent files context.entries requested n with
    | error e => exact ⟨context, h, refl_of SameClasses context, rfl⟩
    | ok next =>
      refine ⟨{ context with superclasses := context.superclasses.insert n next },
        ⟨h.cached, fun k p hp => ?_⟩, ⟨rfl, rfl⟩, rfl⟩
      rw [NameMap.get?_insert] at hp
      split at hp
      · rename_i hk
        cases hp
        obtain ⟨a, hread, hnext⟩ := except_bind_eq_ok hparent
        rw [read_ofEntries] at hread
        rw [hk]
        exact ⟨a, read_of_read hread, hnext⟩
      · exact h.remembered k p hp

/-- A step of the walk in a faithful context. -/
theorem Walk.step_eq {w : Walk} (h : Faithful files w.context) (requested : ClassName)
    (hnext : w.next = some n) (hon : ¬(isBootstrap n = true ∨ n ∈ w.visited)) :
    ∃ between, Faithful files between ∧ SameClasses w.context between ∧
      w.step files requested = match parent files w.context.entries requested n with
        | .error e => .inl (.error e between)
        | .ok next => .inr { visited := n :: w.visited, next, context := between } := by
  obtain ⟨between, hbetween, hsame, hn⟩ := superclass_eq h requested n
  refine ⟨between, hbetween, hsame, ?_⟩
  rw [step_of_on hnext hon, hn]
  cases parent files w.context.entries requested n <;> rfl

/-- What an answer of the entries is in a context. -/
def Outcome.answered (context : Context) : Except ResolutionError Unit → Outcome
  | .ok () => .ok () context
  | .error e => .error e context

/-- A step of the walk in a faithful context, beside the walk over the entries: both are
over, or both go on in the same way. -/
theorem Walk.step_answers {w : Walk} (h : Faithful files w.context) (requested : ClassName) :
    (∃ answer context', Faithful files context' ∧ SameClasses w.context context' ∧
      w.step files requested = .inl (.answered context' answer) ∧
      files.chain w.context.entries requested w.visited w.next = some answer) ∨
    ∃ w', Faithful files w'.context ∧ SameClasses w.context w'.context ∧
      w.step files requested = .inr w' ∧
      files.chain w.context.entries requested w.visited w.next =
        files.chain w.context.entries requested w'.visited w'.next := by
  cases hnext : w.next with
  | none =>
    exact .inl ⟨.ok (), w.context, h, refl_of SameClasses w.context, step_of_next_none hnext,
      chain_none requested w.visited⟩
  | some n =>
    by_cases hstop : isBootstrap n = true ∨ n ∈ w.visited
    · exact .inl ⟨.ok (), w.context, h, refl_of SameClasses w.context, step_of_stop hnext hstop,
        chain_of_stop requested hstop⟩
    obtain ⟨between, hbetween, hsame, hstep⟩ := step_eq h requested hnext hstop
    rw [hstep, chain_of_on requested hstop]
    cases parent files w.context.entries requested n with
    | error e => exact .inl ⟨.error e, between, hbetween, hsame, rfl, rfl⟩
    | ok next => exact .inr ⟨_, hbetween, hsame, rfl, rfl⟩

/-- If the walk in a faithful context ends, then so does the one over the entries, and
they agree. -/
theorem chain_of_run {w : Walk} {outcome : Outcome} (hrun : w.run files requested = some outcome)
    (h : Faithful files w.context) :
    ∃ context', Faithful files context' ∧ SameClasses w.context context' ∧
      ∃ answer, files.chain w.context.entries requested w.visited w.next = some answer ∧
        outcome = .answered context' answer := by
  revert h
  refine Walk.run_induct (P := fun w outcome => Faithful files w.context →
    ∃ context', Faithful files context' ∧ SameClasses w.context context' ∧
      ∃ answer, files.chain w.context.entries requested w.visited w.next = some answer ∧
        outcome = .answered context' answer)
    (fun w outcome hover h => ?_) (fun w w' outcome hon ih h => ?_) hrun
  · rcases w.step_answers h requested with ⟨answer, context', h', hsame, hstep, hchain⟩ | hgoes
    · cases hstep.symm.trans hover
      exact ⟨context', h', hsame, answer, hchain, rfl⟩
    · obtain ⟨w', -, -, hstep, -⟩ := hgoes
      cases hstep.symm.trans hover
  · rcases w.step_answers h requested with ⟨answer, context', -, -, hstep, -⟩ | hgoes
    · cases hstep.symm.trans hon
    · obtain ⟨w', h', hsame, hstep, hchain⟩ := hgoes
      cases hstep.symm.trans hon
      obtain ⟨context', h'', hsame', answer, hrest, houtcome⟩ := ih h'
      rw [hsame.1] at hrest
      exact ⟨context', h'', trans_of SameClasses hsame hsame', answer, hchain.trans hrest, houtcome⟩

/-- If the walk over the entries ends, then so does the one in a faithful context. -/
theorem run_of_chain {visited : List ClassName} {next : Option ClassName}
    {answer : Except ResolutionError Unit}
    (hchain : files.chain entries requested visited next = some answer) :
    ∀ context, Faithful files context → context.entries = entries →
      ∃ outcome, ({ visited, next, context } : Walk).run files requested = some outcome := by
  refine FileTree.chain.partial_correctness files entries requested (fun visited next _ =>
    ∀ context, Faithful files context → context.entries = entries →
      ∃ outcome, ({ visited, next, context } : Walk).run files requested = some outcome)
    (fun chain ih visited next answer hchain context h hentries => ?_) visited next answer hchain
  rw [Walk.run_eq]
  cases next with
  | none =>
    rw [Walk.step_of_next_none rfl]
    exact ⟨_, rfl⟩
  | some n =>
    by_cases hstop : isBootstrap n = true ∨ n ∈ visited
    · rw [Walk.step_of_stop rfl hstop]
      exact ⟨_, rfl⟩
    replace hchain := (if_neg (by simpa using hstop)).symm.trans hchain
    obtain ⟨between, hbetween, hsame, hstep⟩ :=
      Walk.step_eq (w := { visited, next := some n, context }) h requested rfl hstop
    rw [hstep]
    dsimp only
    rw [hentries]
    cases hparent : parent files entries requested n with
    | error e => exact ⟨_, rfl⟩
    | ok next =>
      rw [hparent] at hchain
      exact ih (n :: visited) next answer hchain between hbetween (hsame.1.trans hentries)

/-- In a faithful context, whether the superclasses of a class can be found is a
matter of the entries. -/
theorem checkSuperclasses_eq (h : Faithful files context) (a : Artifact) :
    ∃ context', Faithful files context' ∧ SameClasses context context' ∧
      checkSuperclasses files a context = match ancestry files context.entries a with
        | .error e => .error e context'
        | .ok () => .ok () context' := by
  cases hnext : superclassOf a with
  | error e =>
    unfold checkSuperclasses ancestry
    rw [hnext]
    exact ⟨context, h, refl_of SameClasses context, rfl⟩
  | ok next =>
    rw [checkSuperclasses_of_next files hnext]
    unfold ancestry
    rw [hnext]
    dsimp only
    cases hrun : ({ visited := [a.name], next, context } : Walk).run files a.name with
    | some outcome =>
      obtain ⟨context', h', hsame, answer, hchain, rfl⟩ := chain_of_run hrun h
      refine ⟨context', h', hsame, ?_⟩
      rw [hchain]
      cases answer <;> rfl
    | none =>
      have hchain : files.chain context.entries a.name [a.name] next = none := by
        refine Option.eq_none_iff_forall_ne_some.2 fun answer hchain => ?_
        obtain ⟨outcome, hends⟩ := run_of_chain hchain context h rfl
        rw [hrun] at hends
        cases hends
      rw [hchain]
      exact ⟨context, h, refl_of SameClasses context, rfl⟩

end Context

end Classpath

end ClassStamp
