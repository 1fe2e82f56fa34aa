import ClassStamp.Proofs.Additive
import ClassStamp.Proofs.Classpath.Membership
import ClassStamp.Proofs.Run.Listing
import ClassStamp.Run.Step

/-!
# How a step may end

A step either comes to nothing, with one outcome that says why, or it writes
the class. This holds of any transformer, whatever it does to a class.

* `Withdraws`: a step that comes to nothing. The class goes back as it was
  taken out, and no file changes;
* `Transforms`, `Unstamps`: a step that writes the class;
* `transform_cases`, `unstamp_cases`: there is no other end of a step, and
  `transform_decided`: what the transformer has to do with it;
* `writeNested_spec`: the classes that are held with a transformed one when
  those of them that are pending were written.
-/

namespace ClassStamp

/-! ## Edits of a run -/

theorem ClassFile.name_removeField (name : String) (c : ClassFile) :
    (leaves (removeField name) c).name = c.name := by
  unfold leaves removeField
  simp only [bind, EStateM.bind, get_eq]
  cases c.fields.findIdx? fun m => ConstantPool.isMarked (c.named name) m.nameIndex <;> rfl

namespace Artifact

theorem eq_of_withoutNested {a b : Artifact} (h : a.withoutNested = b.withoutNested) :
    a.name = b.name ∧ a.classFile = b.classFile := by
  cases a
  cases b
  cases h
  exact ⟨rfl, rfl⟩

/-- The class is the same by name, also by the one that its class file declares,
and holds the same others, whatever else became of it. -/
structure Same (a b : Artifact) : Prop where
  name : b.name = a.name
  declared : ∀ n, a.classFile.name = .ok n → b.classFile.name = .ok n
  nested : b.nested = a.nested

theorem Same.refl (a : Artifact) : Same a a := ⟨rfl, fun _ => id, rfl⟩

theorem Same.trans {a b c : Artifact} (h : Same a b) (h' : Same b c) : Same a c :=
  ⟨h'.name.trans h.name, fun n hn => h'.declared n (h.declared n hn), h'.nested.trans h.nested⟩

theorem Same.plain {a b : Artifact} (h : Same a b) (ha : Plain a) : Plain b :=
  ⟨h.name ▸ h.declared _ ha.declared, h.nested.trans ha.alone⟩

theorem same_edit {α : Type} {change : ClassFile.Edit α}
    (h : ∀ c n, c.name = .ok n → (leaves change c).name = .ok n) : Keeps Same (edit change) := by
  intro a
  rcases leaves_edit change a with he | he
  · rw [he]
    exact .refl a
  · rw [he]
    exact ⟨rfl, h a.classFile, rfl⟩

end Artifact

namespace Stamp

theorem same_apply (s : Stamp) : Keeps Artifact.Same s.apply := by
  intro a
  rcases s.leaves_apply a with h | h <;> rw [h]
  · exact .refl a
  · refine Artifact.same_edit (fun c n hn => ?_) a
    have hgrows : Keeps (ClassFile.Grows fun _ => True)
        (ClassFile.addField (s.spec a.classFile.isInterface)) := ClassFile.grows_addField trivial
    exact (hgrows c).name hn

theorem same_remove (s : Stamp) : Keeps Artifact.Same s.remove := by
  intro a
  rcases s.leaves_remove a with h | h <;> rw [h]
  · exact .refl a
  · refine Artifact.same_edit (fun c n hn => ?_) a
    rw [ClassFile.name_removeField]
    exact hn

end Stamp

/-- Writing a class fixes its bytes at most. -/
theorem Output.same_write (o : Output) (a : Artifact) (files : FileTree) :
    Artifact.Same a (leaves o.write (a, files)).1 := by
  cases h : o.write (a, files) with
  | ok file after =>
    obtain ⟨bytes, -, hb, -⟩ := write_eq_ok h
    rw [leaves_of_ok h, hb]
    exact ⟨rfl, fun _ => id, rfl⟩
  | error e after =>
    obtain ⟨⟨frozen, hb⟩, -⟩ := write_eq_error h
    rw [leaves_of_error h, hb]
    exact ⟨rfl, fun _ => id, rfl⟩

namespace Run

open Classpath (Context)
open FileTree (SameFiles)

variable {p : Pass} {n : ClassName} {s s' : State} {a b : Artifact}

/-! ## Steps that come to nothing -/

/-- The outcome says that nothing was written, and why if something went wrong. -/
structure Outcome.Idle (o : Outcome) : Prop where
  not_written : o.state ≠ .written
  not_unstamped : o.state ≠ .unstamped
  message : o.message.isSome = o.isFailure
  files : o.files = []

theorem Outcome.Idle.not_saysWritten {o : Outcome} (h : o.Idle) : ¬ o.SaysWritten :=
  fun hw => hw.elim h.not_written h.not_unstamped

theorem Outcome.Idle.tells {o : Outcome} (h : o.Idle) (output : Output) : o.Tells output :=
  ⟨h.message, fun hw => absurd hw h.not_saysWritten, fun _ => h.files⟩

/-- The artifacts differ at most in whether they count as opened and whether
their bytes are fixed. -/
structure Alike (a b : Artifact) : Prop where
  name : b.name = a.name
  classFile : b.classFile = a.classFile
  nested : b.nested = a.nested

/-- The same, for a class and for each one held with it. -/
structure Unedited (a b : Artifact) : Prop where
  name : b.name = a.name
  classFile : b.classFile = a.classFile
  nested : List.Forall₂ Alike a.nested b.nested

theorem Unedited.refl (a : Artifact) : Unedited a a :=
  ⟨rfl, rfl, List.forall₂_same.2 fun _ _ => ⟨rfl, rfl, rfl⟩⟩

theorem unedited_prepare (a : Artifact) : Unedited a (State.prepare a) := by
  refine ⟨rfl, rfl, ?_⟩
  show List.Forall₂ _ a.nested (a.nested.map _)
  rw [List.forall₂_map_right_iff]
  exact List.forall₂_same.2 fun _ _ => ⟨rfl, rfl, rfl⟩

theorem unedited_defrost (a : Artifact) : Unedited a a.defrost :=
  ⟨rfl, rfl, List.forall₂_same.2 fun _ _ => ⟨rfl, rfl, rfl⟩⟩

/-- For each class held with an unedited one there is one that is alike. -/
theorem Unedited.mem (h : Unedited a b) {m : Artifact} (hm : m ∈ b.nested) :
    ∃ x ∈ a.nested, Alike x m :=
  Artifact.exists_of_forall₂ h.nested hm

theorem Unedited.memberNames (h : Unedited a b) : b.memberNames = a.memberNames :=
  Artifact.map_name_of_forall₂ Alike.name h.nested

/-- The outcome says that the class carries the stamp, or that it does not. -/
def Outcome.TellsStamp (o : Outcome) : Prop := o.state = .skippedStamped ∨ o.state = .notStamped

/-- The step comes to nothing: the class could not be taken out, or goes back
unedited, and the report gets one outcome for it. What that says of the stamp is
true of the class as it was taken out. -/
structure Withdraws (p : Pass) (n : ClassName) (s : State) (o : Outcome) (s' : State) : Prop where
  idle : o.Idle
  transformer : o.transformer = p.transformer.identity
  name : o.name = n
  report : s'.report = s.report.add o
  files : SameFiles s.files s'.files
  context : (∃ e, Context.checkout s.files n s.context = .error e s'.context) ∨
    ∃ a context b, Context.checkout s.files n s.context = .ok a context ∧ Unedited a b ∧
      s'.context = context.restore b
  stamp : o.TellsStamp → ∃ a context, Context.checkout s.files n s.context = .ok a context ∧
    (p.stamp.isPresent a = true ↔ o.state = .skippedStamped)

/-- What is true of every class in memory goes on to be true, if it does not depend on what
may become of a class that is not edited. -/
theorem Withdraws.keyedBy {Q : Artifact → Prop} {entries : List Classpath.Entry} {o : Outcome}
    (h : Withdraws p n s o s') (hQ : Context.Lasting s.files entries Q)
    (hedit : ∀ {a b}, Unedited a b → Q a → Q b) (hentries : s.context.entries = entries)
    (hs : s.context.KeyedBy Q) : s'.context.entries = entries ∧ s'.context.KeyedBy Q := by
  obtain ⟨hok, herror⟩ := Context.checkout_keyedBy (n := n) hQ hentries hs
  rcases h.context with ⟨e, hout⟩ | ⟨a, context, b, hout, hb, hback⟩
  · exact herror e _ hout
  · obtain ⟨-, ha, hsame, hcontext⟩ := hok a context hout
    rw [hback]
    exact ⟨hsame, hQ.restore hcontext (hedit hb ha)⟩

theorem idle_note (identity : String) (n : ClassName) {state : OutcomeState}
    (hstate : state = .skippedStamped ∨ state = .skippedByPredicate ∨ state = .notStamped) :
    Outcome.Idle { transformer := identity, name := n, state, message := none, files := [] } := by
  rcases hstate with rfl | rfl | rfl <;>
    exact ⟨fun h => (nomatch h), fun h => (nomatch h), rfl, rfl⟩

theorem idle_fail (identity : String) (n : ClassName) (kind : FailureKind) (message : String) :
    Outcome.Idle { transformer := identity, name := n, state := .failed kind,
                   message := some message, files := [] } :=
  ⟨fun h => (nomatch h), fun h => (nomatch h), rfl, rfl⟩

section GiveBack

variable {before : State} {context : Context}

/-- A step that took a class out and brings it back unedited, with no file
changed, comes to nothing. -/
theorem withdraws_of_giveBack {o : Outcome}
    (hout : Context.checkout s.files n s.context = .ok a context) (hb : Unedited a b)
    (hidle : o.Idle) (ht : o.transformer = p.transformer.identity) (hname : o.name = n)
    (hreport : before.report = s.report) (hfiles : SameFiles s.files before.files)
    (hcontext : before.context = context)
    (hstamp : o.TellsStamp → (p.stamp.isPresent a = true ↔ o.state = .skippedStamped)) :
    Withdraws p n s o ((before.giveBack b).record o) := by
  refine ⟨hidle, ht, hname, ?_, hfiles, .inr ⟨a, context, b, hout, hb, ?_⟩,
    fun htells => ⟨a, context, hout, hstamp htells⟩⟩
  · show before.report.add o = s.report.add o
    rw [hreport]
  · show before.context.restore b = context.restore b
    rw [hcontext]

theorem withdraws_note {state : OutcomeState}
    (hout : Context.checkout s.files n s.context = .ok a context)
    (hstate : state = .skippedStamped ∨ state = .skippedByPredicate ∨ state = .notStamped)
    (hreport : before.report = s.report) (hfiles : before.files = s.files)
    (hcontext : before.context = context)
    (hstamp : state = .skippedStamped ∨ state = .notStamped →
      (p.stamp.isPresent a = true ↔ state = .skippedStamped)) :
    ∃ o, Withdraws p n s o ((before.giveBack a).note p n state) :=
  ⟨_, withdraws_of_giveBack hout (.refl a) (idle_note _ n hstate) rfl rfl hreport
    (hfiles ▸ .refl _) hcontext hstamp⟩

theorem withdraws_fail {kind : FailureKind} {message : String}
    (hout : Context.checkout s.files n s.context = .ok a context) (hb : Unedited a b)
    (hreport : before.report = s.report) (hfiles : SameFiles s.files before.files)
    (hcontext : before.context = context) :
    ∃ o, Withdraws p n s o ((before.giveBack b).fail p n kind message) ∧ o.isFailure = true :=
  ⟨_, withdraws_of_giveBack hout hb (idle_fail _ n kind message) rfl rfl hreport hfiles hcontext
    fun h => h.elim (fun he => nomatch he) fun he => (nomatch he), rfl⟩

end GiveBack

/-- A class that cannot be taken out is left where it is. -/
theorem takeOut_eq_none (h : s.takeOut p n = (none, s')) :
    ∃ o, Withdraws p n s o s' ∧ o.isFailure = true := by
  unfold State.takeOut at h
  split at h
  · cases h
  · rename_i e context hout
    cases h
    exact ⟨_, ⟨idle_fail _ n _ _, rfl, rfl, rfl, .refl _, .inl ⟨e, hout⟩,
      fun h => h.elim (fun he => nomatch he) fun he => nomatch he⟩, rfl⟩

theorem takeOut_eq_some (h : s.takeOut p n = (some a, s')) :
    ∃ context, Context.checkout s.files n s.context = .ok a context ∧ s' = { s with context } := by
  unfold State.takeOut at h
  split at h
  · rename_i a' context hout
    cases h
    exact ⟨context, hout, rfl⟩
  · cases h

theorem withdraws_of_failed (h : ∃ o, Withdraws p n s o s' ∧ o.isFailure = true) :
    ∃ o, Withdraws p n s o s' :=
  h.imp fun _ => And.left

/-! ## Steps that write -/

/-- The class is taken out, transformed, stamped and written. -/
structure Transforms (p : Pass) (n : ClassName) (s : State) (a b c d : Artifact)
    (context : Context) (file : WrittenFile) (files : FileTree) : Prop where
  taken : Context.checkout s.files n s.context = .ok a context
  unmarked : ¬ p.stamp.isPresent a = true
  applied : p.transformer.apply (State.prepare a) = .ok () b
  stamped : p.stamp.apply b = .ok () c
  written : p.output.write (c, s.files) = .ok file (d, files)

theorem Transforms.same_stamped {c d : Artifact} {context : Context} {file : WrittenFile}
    {files : FileTree} (h : Transforms p n s a b c d context file files) : Artifact.Same b c :=
  (p.stamp.same_apply).ok h.stamped

theorem Transforms.same {c d : Artifact} {context : Context} {file : WrittenFile}
    {files : FileTree} (h : Transforms p n s a b c d context file files) : Artifact.Same b d := by
  have hwritten := Output.same_write p.output c s.files
  rw [leaves_of_ok h.written] at hwritten
  exact h.same_stamped.trans hwritten

/-- The state behind a step that writes a class, before the classes inside it. -/
def State.transformed (s : State) (p : Pass) (n : ClassName) (context : Context)
    (file : WrittenFile) (files : FileTree) (log : List Event) : State :=
  let report := { s.report with transformed := s.report.transformed + 1 }
  State.noteFile { files, context, report, log } p n .written file

/-- The transformer leaves the class alone: it has the stamp, or the transformer does not
want to act on it. -/
def Pass.Declines (p : Pass) (a : Artifact) : Prop :=
  p.stamp.isPresent a = true ∨ p.transformer.shouldTransform a = .ok false

/-- The step comes to nothing, be it that something goes wrong or that the transformer
leaves the class alone. -/
def ComesToNothing (p : Pass) (n : ClassName) (s s' : State) : Prop :=
  ∃ o, Withdraws p n s o s' ∧ (o.isFailure = true ∨
    ∃ a context, Context.checkout s.files n s.context = .ok a context ∧ p.Declines a)

theorem comesToNothing_of_failed (h : ∃ o, Withdraws p n s o s' ∧ o.isFailure = true) :
    ComesToNothing p n s s' :=
  h.imp fun _ ho => ⟨ho.1, .inl ho.2⟩

theorem comesToNothing_of_declined {context : Context}
    (hout : Context.checkout s.files n s.context = .ok a context) (ha : p.Declines a)
    (h : ∃ o, Withdraws p n s o s') : ComesToNothing p n s s' :=
  h.imp fun _ ho => ⟨ho, .inr ⟨a, context, hout, ha⟩⟩

/-- A step writes the class, and then the classes inside it, if the transformer wants to
act on it, or comes to nothing. -/
theorem transform_decided (p : Pass) (n : ClassName) (s : State) :
    ComesToNothing p n s (State.transform p n s) ∨
    ∃ a b c d context file files log, Transforms p n s a b c d context file files ∧
      p.transformer.shouldTransform a = .ok true ∧
      State.transform p n s =
        let (a', s') := (s.transformed p n context file files log).writeNested p
          (State.prepare a) d
        s'.giveBack a' := by
  unfold State.transform
  split
  · rename_i s' hout
    exact .inl (comesToNothing_of_failed (takeOut_eq_none hout))
  rename_i a s' hout
  obtain ⟨context, htaken, rfl⟩ := takeOut_eq_some hout
  split
  · rename_i hmarked
    exact .inl (comesToNothing_of_declined htaken (.inl hmarked)
      (withdraws_note htaken (.inl rfl) rfl rfl rfl fun _ => iff_of_true hmarked rfl))
  rename_i hunmarked
  dsimp only
  split
  · exact .inl (comesToNothing_of_failed (withdraws_fail htaken (.refl a) rfl (.refl _) rfl))
  · rename_i hdeclined
    exact .inl (comesToNothing_of_declined htaken (.inr hdeclined)
      (withdraws_note htaken (.inr (.inl rfl)) rfl rfl rfl
        fun h => h.elim (fun he => nomatch he) fun he => nomatch he))
  rename_i hwanted
  unfold State.apply
  dsimp only
  split
  · exact .inl (comesToNothing_of_failed
      (withdraws_fail htaken (unedited_prepare a) rfl (.refl _) rfl))
  rename_i b happlied
  split
  · exact .inl (comesToNothing_of_failed
      (withdraws_fail htaken (unedited_prepare a) rfl (.refl _) rfl))
  rename_i c hstamped
  split
  · rename_i d files hwrite
    obtain ⟨-, hsame⟩ := Output.write_eq_error hwrite
    exact .inl (comesToNothing_of_failed
      (withdraws_fail htaken (unedited_prepare a) rfl hsame rfl))
  · rename_i file d files hwritten
    exact .inr ⟨a, b, c, d, context, file, files, _,
      ⟨htaken, hunmarked, happlied, hstamped, hwritten⟩, hwanted, rfl⟩

/-- A step writes the class, and then the classes inside it, or comes to
nothing. -/
theorem transform_cases (p : Pass) (n : ClassName) (s : State) :
    (∃ o, Withdraws p n s o (State.transform p n s)) ∨
    ∃ a b c d context file files log, Transforms p n s a b c d context file files ∧
      State.transform p n s =
        let (a', s') := (s.transformed p n context file files log).writeNested p
          (State.prepare a) d
        s'.giveBack a' := by
  rcases transform_decided p n s with
    ⟨o, h, -⟩ | ⟨a, b, c, d, context, file, files, log, h, -, heq⟩
  · exact .inl ⟨o, h⟩
  · exact .inr ⟨a, b, c, d, context, file, files, log, h, heq⟩

/-- The class is taken out, loses its stamp, and is written. -/
structure Unstamps (p : Pass) (n : ClassName) (s : State) (a b c : Artifact)
    (context : Context) (file : WrittenFile) (files : FileTree) : Prop where
  taken : Context.checkout s.files n s.context = .ok a context
  marked : p.stamp.isPresent a = true
  removed : ∃ r, p.stamp.remove a.defrost = .ok r b
  written : p.output.write (b, s.files) = .ok file (c, files)

/-- A step that removes a stamp writes the class, or comes to nothing. -/
theorem unstamp_cases (p : Pass) (n : ClassName) (s : State) :
    (∃ o, Withdraws p n s o (State.unstamp p n s)) ∨
    ∃ a b c context file files, Unstamps p n s a b c context file files ∧
      let report := { s.report with unstamped := s.report.unstamped + 1 }
      State.unstamp p n s =
        (State.noteFile { s with files, context, report } p n .unstamped file).giveBack c := by
  unfold State.unstamp
  split
  · rename_i s' hout
    exact .inl (withdraws_of_failed (takeOut_eq_none hout))
  rename_i a s' hout
  obtain ⟨context, htaken, rfl⟩ := takeOut_eq_some hout
  split
  · rename_i hunmarked
    rw [Bool.not_eq_true'] at hunmarked
    exact .inl (withdraws_note htaken (.inr (.inr rfl)) rfl rfl rfl fun _ =>
      iff_of_false (by rw [hunmarked]; exact Bool.false_ne_true) fun he => nomatch he)
  rename_i hmarked
  rw [Bool.not_eq_true', Bool.not_eq_false] at hmarked
  dsimp only
  split
  · exact .inl (withdraws_of_failed (withdraws_fail htaken (unedited_defrost a) rfl (.refl _) rfl))
  rename_i r b hremoved
  split
  · rename_i c files hwrite
    obtain ⟨-, hsame⟩ := Output.write_eq_error hwrite
    exact .inl (withdraws_of_failed (withdraws_fail htaken (unedited_defrost a) rfl hsame rfl))
  · rename_i file c files hwritten
    exact .inr ⟨a, b, c, context, file, files, ⟨htaken, hmarked, ⟨r, hremoved⟩, hwritten⟩, rfl⟩

/-! ## Classes inside a transformed one -/

/-- The outcome is that of one of some classes inside a transformed one, which
was written or could not be. -/
structure OfMember (p : Pass) (as : List Artifact) (o : Outcome) : Prop where
  transformer : o.transformer = p.transformer.identity
  name : ∃ x ∈ as, x.name = o.name
  state : o.state = .written ∨ o.state = .failed .stamp ∨ o.state = .failed .write

/-- The report with the outcomes of some classes inside a transformed one. -/
def Report.addNested (r : Report) (os : List Outcome) : Report :=
  { r with
    nestedWritten := r.nestedWritten + os.countP (·.state == .written)
    outcomes := r.outcomes ++ os }

theorem Report.addNested_nil (r : Report) : r.addNested [] = r := by
  rw [addNested, List.append_nil]
  rfl

theorem Report.addNested_addNested (r : Report) (os os' : List Outcome) :
    (r.addNested os).addNested os' = r.addNested (os ++ os') := by
  simp only [addNested, List.countP_append, List.append_assoc, Nat.add_assoc]

/-- Some classes inside a transformed one were written as far as they could be:
they are the same, and some outcomes say what became of them. -/
structure NestedWritten (p : Pass) (as : List Artifact) (s : State) (os : List Outcome)
    (s' : State) : Prop where
  context : s'.context = s.context
  report : s'.report = s.report.addNested os
  lists : Lists p.output s.files os s'.files
  members : ∀ o ∈ os, OfMember p as o

theorem NestedWritten.append {as as' : List Artifact} {os os' : List Outcome} {s'' : State}
    (h : NestedWritten p as s os s') (h' : NestedWritten p as' s' os' s'') :
    NestedWritten p (as ++ as') s (os ++ os') s'' := by
  refine ⟨h'.context.trans h.context, ?_, h.lists.append h'.lists,
    List.forall_mem_append.2 ⟨fun o ho => ?_, fun o ho => ?_⟩⟩
  · rw [h'.report, h.report, Report.addNested_addNested]
  · obtain ⟨ht, ⟨x, hx, hname⟩, hs⟩ := h.members o ho
    exact ⟨ht, ⟨x, List.mem_append_left _ hx, hname⟩, hs⟩
  · obtain ⟨ht, ⟨x, hx, hname⟩, hs⟩ := h'.members o ho
    exact ⟨ht, ⟨x, List.mem_append_right _ hx, hname⟩, hs⟩

theorem nestedWritten_nil (p : Pass) (as : List Artifact) (s : State) :
    NestedWritten p as s [] s :=
  ⟨rfl, s.report.addNested_nil.symm, .nil (.refl _), fun _ ho => (nomatch ho)⟩

/-- The outcome of a class that something goes wrong with. -/
def Pass.failure (p : Pass) (n : ClassName) (kind : FailureKind) (message : String) : Outcome :=
  { transformer := p.transformer.identity, name := n, state := .failed kind,
    message := some message, files := [] }

/-- The outcome of a class that is written. -/
def Pass.success (p : Pass) (n : ClassName) (file : WrittenFile) : Outcome :=
  { transformer := p.transformer.identity, name := n, state := .written, message := none,
    files := [file] }

/-- A class inside a transformed one is stamped and written, as far as that goes. -/
inductive WritesOne (p : Pass) (s : State) (x : Artifact) :
    Bool → Artifact → Outcome → State → Prop
  | unstamped {e : StampError} {y : Artifact} (stamp : p.stamp.apply x.defrost = .error e y) :
    WritesOne p s x false y (p.failure x.name .stamp e.message)
      (s.fail p x.name .stamp e.message)
  | unwritten {e : WriteError} {b y : Artifact} {files : FileTree}
    (stamp : p.stamp.apply x.defrost = .ok () b)
    (write : p.output.write (b, s.files) = .error e (y, files)) :
    WritesOne p s x false y (p.failure x.name .write e.message)
      ({ s with files }.fail p x.name .write e.message)
  | written {b y : Artifact} {file : WrittenFile} {files : FileTree}
    (stamp : p.stamp.apply x.defrost = .ok () b)
    (write : p.output.write (b, s.files) = .ok file (y, files)) :
    WritesOne p s x true y (p.success x.name file)
      (State.noteFile { s with
        files, report := { s.report with nestedWritten := s.report.nestedWritten + 1 } }
        p x.name .written file)

theorem writesOne {x y : Artifact} {done : Bool} (h : s.writeOne p x = (done, y, s')) :
    ∃ o, WritesOne p s x done y o s' := by
  unfold State.writeOne at h
  split at h
  · rename_i e b hstamp
    cases h
    exact ⟨_, .unstamped hstamp⟩
  rename_i b hstamp
  split at h
  · rename_i e c files hwrite
    cases h
    exact ⟨_, .unwritten hstamp hwrite⟩
  · rename_i file c files hwrite
    cases h
    exact ⟨_, .written hstamp hwrite⟩

/-- A class inside a transformed one cannot be written, and the report says
so. -/
theorem nestedWritten_fail {files : FileTree} {kind : FailureKind} (message : String)
    (hsame : SameFiles s.files files) (hkind : kind = .stamp ∨ kind = .write) :
    NestedWritten p [a] s [p.failure a.name kind message]
      ({ s with files }.fail p a.name kind message) := by
  have hidle := idle_fail p.transformer.identity a.name kind message
  refine ⟨rfl, rfl, .of_sameFiles hsame (hidle.tells p.output) hidle.not_saysWritten,
    fun o ho => ?_⟩
  rw [List.mem_singleton.1 ho]
  refine ⟨rfl, ⟨a, List.mem_singleton_self a, rfl⟩, ?_⟩
  rcases hkind with rfl | rfl
  · exact .inr (.inl rfl)
  · exact .inr (.inr rfl)

theorem WritesOne.spec {x y : Artifact} {done : Bool} {o : Outcome}
    (h : WritesOne p s x done y o s') : Artifact.Same x y ∧ NestedWritten p [x] s [o] s' := by
  have hdefrost : Artifact.Same x x.defrost := ⟨rfl, fun _ => id, rfl⟩
  cases h with
  | unstamped hstamp =>
    exact ⟨hdefrost.trans ((p.stamp.same_apply).error hstamp),
      nestedWritten_fail _ (.refl s.files) (.inl rfl)⟩
  | @unwritten e b y files hstamp hwrite =>
    have hwritten := Output.same_write p.output b s.files
    rw [leaves_of_error hwrite] at hwritten
    exact ⟨(hdefrost.trans ((p.stamp.same_apply).ok hstamp)).trans hwritten,
      nestedWritten_fail _ (Output.write_eq_error hwrite).2 (.inr rfl)⟩
  | @written b y file files hstamp hwrite =>
    have hmarked := hdefrost.trans ((p.stamp.same_apply).ok hstamp)
    have hwritten := Output.same_write p.output b s.files
    rw [leaves_of_ok hwrite] at hwritten
    have hlists : Lists p.output s.files [p.success x.name file] files :=
      .of_write hwrite hmarked.name.symm (.inl rfl) rfl rfl
    refine ⟨hmarked.trans hwritten, rfl, rfl, hlists, fun o' ho' => ?_⟩
    rw [List.mem_singleton.1 ho']
    exact ⟨rfl, ⟨x, List.mem_singleton_self x, rfl⟩, .inl rfl⟩

theorem writeOne_spec {x y : Artifact} {done : Bool} (h : s.writeOne p x = (done, y, s')) :
    Artifact.Same x y ∧ ∃ o, NestedWritten p [x] s [o] s' := by
  obtain ⟨o, ho⟩ := writesOne h
  exact ⟨ho.spec.1, o, ho.spec.2⟩

/-- The pending ones of some classes are written as far as they can be. -/
theorem writePending_spec {xs ys : List Artifact} {failed : List ClassName}
    (h : State.writePending p xs s = (ys, failed, s')) :
    List.Forall₂ Artifact.Same xs ys ∧ ∃ os, NestedWritten p xs s os s' := by
  induction xs generalizing s ys failed with
  | nil =>
    cases h
    exact ⟨.nil, [], nestedWritten_nil p [] _⟩
  | cons x xs ih =>
    rw [State.writePending] at h
    split at h
    · rcases hone : s.writeOne p x with ⟨done, y, s₁⟩
      rcases hrest : State.writePending p xs s₁ with ⟨ys', failed', s₂⟩
      rw [hone] at h
      dsimp only at h
      rw [hrest] at h
      cases h
      obtain ⟨hy, o, ho⟩ := writeOne_spec hone
      obtain ⟨hys, os, hos⟩ := ih hrest
      exact ⟨.cons hy hys, o :: os, ho.append hos⟩
    · rcases hrest : State.writePending p xs s with ⟨ys', failed', s₂⟩
      rw [hrest] at h
      cases h
      obtain ⟨hys, os, hos⟩ := ih hrest
      exact ⟨.cons (.refl x) hys, os, (nestedWritten_nil p [x] s).append hos⟩

theorem mem_of_mem_rollBack {pristine as : List Artifact} {failed : List ClassName}
    (h : a ∈ State.rollBack pristine failed as) : a ∈ as ∧ a.name ∉ failed ∨ a ∈ pristine := by
  obtain ⟨x, hx, hax⟩ := List.mem_filterMap.1 h
  split at hax
  · exact .inr (List.mem_of_find?_eq_some hax)
  · rename_i hnot
    cases hax
    rw [List.contains_iff_mem] at hnot
    exact .inl ⟨hx, hnot⟩

/-- Taking a class in, or not, leaves the class itself as it is. -/
theorem leaves_attachNested (a x : Artifact) :
    (leaves (Artifact.attachNested x) a).withoutNested = a.withoutNested ∧
      ∀ m ∈ (leaves (Artifact.attachNested x) a).nested, m ∈ a.nested ∨ m = x := by
  unfold leaves Artifact.attachNested
  by_cases hmember : x.name.isImmediateMemberOf a.name = true
  · rw [if_pos hmember]
    refine ⟨rfl, fun m hm => ?_⟩
    rcases List.mem_append.1 hm with hm | hm
    · exact .inl (List.mem_filter.1 hm).1
    · exact .inr (List.mem_singleton.1 hm)
  · rw [if_neg hmember]
    exact ⟨rfl, fun m hm => .inl hm⟩

theorem attachAll_cons (a x : Artifact) (as : List Artifact) :
    State.attachAll a (x :: as) = State.attachAll (leaves (Artifact.attachNested x) a) as := by
  unfold leaves State.attachAll
  rw [List.foldl_cons]
  cases Artifact.attachNested x a <;> rfl

theorem attachAll_spec (a : Artifact) (as : List Artifact) :
    (State.attachAll a as).withoutNested = a.withoutNested ∧
      ∀ m ∈ (State.attachAll a as).nested, m ∈ a.nested ∨ m ∈ as := by
  induction as generalizing a with
  | nil => exact ⟨rfl, fun m hm => .inl hm⟩
  | cons x as ih =>
    obtain ⟨hsame, hmem⟩ := ih (leaves (Artifact.attachNested x) a)
    obtain ⟨hstep, hstepmem⟩ := leaves_attachNested a x
    rw [attachAll_cons]
    refine ⟨hsame.trans hstep, fun m hm => ?_⟩
    rcases hmem m hm with hm | hm
    · rcases hstepmem m hm with hm | rfl
      · exact .inl hm
      · exact .inr List.mem_cons_self
    · exact .inr (List.mem_cons_of_mem x hm)

/-- The classes inside a transformed one are written as far as they can be. They
are the same as before, or those that the class came with. -/
theorem writeNested_spec {pristine a' : Artifact} (h : s.writeNested p pristine a = (a', s')) :
    a'.withoutNested = a.withoutNested ∧
      (∀ m ∈ a'.nested, (∃ x ∈ a.nested, Artifact.Same x m) ∨ m ∈ pristine.nested) ∧
      ∃ os, NestedWritten p a.nested s os s' := by
  unfold State.writeNested at h
  rcases hwritten : State.writePending p a.nested s with ⟨ys, failed, s₁⟩
  rw [hwritten] at h
  dsimp only at h
  obtain ⟨hsame, hos⟩ := writePending_spec hwritten
  have hback : ∀ m ∈ ys, ∃ x ∈ a.nested, Artifact.Same x m := fun m hm =>
    Artifact.exists_of_forall₂ hsame hm
  split at h
  · cases h
    exact ⟨rfl, fun m hm => .inl (hback m hm), hos⟩
  · cases h
    obtain ⟨hclass, hmem⟩ :=
      attachAll_spec a.withoutNested (State.rollBack pristine.nested failed ys)
    refine ⟨hclass, fun m hm => ?_, hos⟩
    rcases hmem m hm with hm | hm
    · cases hm
    · exact (mem_of_mem_rollBack hm).imp (fun hm => hback m hm.1) id

/-- Steps keep what is in the report. -/
theorem outcomes_transform (p : Pass) (n : ClassName) (s : State) :
    s.report.outcomes ⊆ (State.transform p n s).report.outcomes := by
  rcases transform_cases p n s with ⟨o, h⟩ | ⟨a, b, c, d, context, file, files, log, h, heq⟩
  · rw [h.report]
    exact List.subset_append_left _ _
  rcases hnested : (s.transformed p n context file files log).writeNested p (State.prepare a) d
    with ⟨a', s'⟩
  obtain ⟨-, -, os, hos⟩ := writeNested_spec hnested
  rw [heq, hnested]
  show s.report.outcomes ⊆ s'.report.outcomes
  rw [hos.report]
  exact fun o ho => List.mem_append_left os (List.mem_append_left _ ho)

end Run

end ClassStamp
