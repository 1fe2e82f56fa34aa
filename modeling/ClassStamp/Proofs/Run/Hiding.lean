import ClassStamp.Proofs.ClassFile.RoundTrip
import ClassStamp.Proofs.Classpath.Everywhere
import ClassStamp.Proofs.Run.Exits
import ClassStamp.Proofs.Run.StampRecord

/-!
# What hides a class from a transformer

A transformer leaves a class alone that carries its stamp. In a run over classes
without stamps, of transformers that add no stamps themselves, such a stamp goes
back to an earlier outcome that says that the class was written with it. Whether
the same transformer wrote the class then depends on whether another one of the
run has the same stamp.

* `Accountable`: an outcome vouches for every stamp of a class;
* `Honest`: what every step of a run keeps, and `honest_transform`;
* `skipped_behind_same_stamp`: the theorem, and `masked_identity_hides`: two
  transformers with one stamp.
-/

namespace ClassStamp

open ConstantPool (maxCount)

/-! ## The names of stamps -/

namespace Stamp

/-- The characters of the identity as they are in the name of the stamp. -/
def mask (identity : String) : List Char :=
  identity.toList.map fun c => if isWord c then c else '_'

theorem forIdentity_eq_iff {identity identity' : String} :
    forIdentity identity = forIdentity identity' ↔ mask identity = mask identity' := by
  unfold forIdentity mask
  rw [Stamp.mk.injEq, ← String.toList_inj, String.toList_append, String.toList_append,
    List.append_cancel_left_eq, String.toList_ofList, String.toList_ofList]

/-- No stamp is named like another text that comes with its field. -/
theorem field_ne (identity : String) :
    (forIdentity identity).field ≠ booleanDescriptor ∧
      (forIdentity identity).field ≠ ClassFile.constantValueName := by
  have hfirst : (forIdentity identity).field.toList.head? = some '_' := by
    rw [forIdentity, String.toList_append]
    rfl
  have hothers : booleanDescriptor.toList.head? ≠ some '_' ∧
      ClassFile.constantValueName.toList.head? ≠ some '_' := by decide
  exact ⟨fun h => hothers.1 (h ▸ hfirst), fun h => hothers.2 (h ▸ hfirst)⟩

/-- A constant boolean field that is added brings no stamp with it but itself. -/
theorem declared_before {identity name : String} {flags : AccessFlags} {value : Bool}
    {c d : ClassFile} (hsize : c.pool.slots.size ≤ maxCount)
    (hadd : ClassFile.addField (.booleanConstant name flags value) c = .ok () d)
    (hd : d.Declares (forIdentity identity).field) :
    c.Declares (forIdentity identity).field ∨ (forIdentity identity).field = name := by
  obtain ⟨hdescriptor, hvalue⟩ := field_ne identity
  refine (ClassFile.declared_before_addField hsize hadd hd).imp_right fun hused => ?_
  rcases hused with hfield | hfield | hfield | hfield
  · exact hfield
  · exact absurd hfield hdescriptor
  · exact absurd hfield hvalue
  · cases hfield

end Stamp

/-! ## Classes with all that is held with them -/

namespace ClassFile

/-- The class file declares the class, over a pool that can be written and read
back. -/
structure IsOf (n : ClassName) (c : ClassFile) : Prop where
  name : c.name = .ok n
  paired : c.pool.Paired
  size : c.pool.slots.size ≤ maxCount

theorem isOf_of_parse {bytes : Bytes} {c : ClassFile} {n : ClassName}
    (hparse : parse bytes = .ok c) (hname : c.name = .ok n) : IsOf n c :=
  ⟨hname, paired_of_parse hparse, size_of_parse hparse⟩

theorem IsOf.grows {allowed : FieldSpec → Prop} {n : ClassName} {c d : ClassFile} (h : IsOf n c)
    (hd : Grows allowed c d) : IsOf n d :=
  ⟨hd.name h.name, hd.pool.paired h.paired, hd.pool.size_le_maxCount h.size⟩

end ClassFile

namespace Run

open Artifact (Throughout)
open Classpath (Context Entry Everywhere)
open FileTree (Settled SameFiles)

/-! ## Outcomes that vouch -/

/-- The outcome says that the class was written with the stamp. -/
structure Outcome.Marks (o : Outcome) (stamp : Stamp) (n : ClassName) : Prop where
  written : o.state = .written
  listed : ∃ file ∈ o.files, file.name = n
  stamp : Stamp.forIdentity o.transformer = stamp

/-- One of the outcomes says that the class was written with the stamp. -/
def Vouched (os : List Outcome) (stamp : Stamp) (n : ClassName) : Prop :=
  ∃ o ∈ os, o.Marks stamp n

theorem Vouched.mono {os os' : List Outcome} {stamp : Stamp} {n : ClassName}
    (h : Vouched os stamp n) (hos : os ⊆ os') : Vouched os' stamp n := by
  obtain ⟨o, ho, hmarks⟩ := h
  exact ⟨o, hos ho, hmarks⟩

/-- The class file declares the class, and if it carries the stamp of one of the
transformers, then an outcome vouches for that. -/
structure Accountable (transformers : List Transformer) (os : List Outcome) (n : ClassName)
    (c : ClassFile) : Prop extends ClassFile.IsOf n c where
  vouched : ∀ t ∈ transformers, c.Declares t.stamp.field → Vouched os t.stamp n

/-- Whenever the transformer does its work, what it leaves are classes under the
names that their class files declare, and if one of them carries the stamp of one
of the transformers, then the class of that name did so before. -/
structure AddsNoStamp (transformers : List Transformer) (t : Transformer) : Prop where
  isOf : ∀ {a b}, a.Throughout ClassFile.IsOf → t.apply a = .ok () b →
    b.Throughout ClassFile.IsOf
  stamps : ∀ {a b}, a.Throughout ClassFile.IsOf → t.apply a = .ok () b →
    ∀ y, b.Includes y → ∀ t' ∈ transformers, y.classFile.Declares t'.stamp.field →
      ∃ x, a.Includes x ∧ x.name = y.name ∧ x.classFile.Declares t'.stamp.field

/-- No class on the classpath carries the stamp of one of the transformers. -/
def Config.Unmarked (config : Config) (transformers : List Transformer) (ambient : List Path)
    (files : FileTree) : Prop :=
  ∀ n c, config.Holds ambient files n c → ∀ t ∈ transformers, ¬ c.Declares t.stamp.field

variable {transformers : List Transformer} {os os' : List Outcome} {n : ClassName}
  {c d : ClassFile} {a b : Artifact}

theorem Accountable.mono (h : Accountable transformers os n c) (hos : os ⊆ os') :
    Accountable transformers os' n c :=
  ⟨h.toIsOf, fun t ht hd => (h.vouched t ht hd).mono hos⟩

theorem throughout_mono (h : a.Throughout (Accountable transformers os)) (hos : os ⊆ os') :
    a.Throughout (Accountable transformers os') :=
  h.mono fun _ _ hc => hc.mono hos

theorem AddsNoStamp.accountable {t : Transformer} (ht : AddsNoStamp transformers t)
    (ha : a.Throughout (Accountable transformers os)) (h : t.apply a = .ok () b) :
    b.Throughout (Accountable transformers os) := by
  have hisOf : a.Throughout ClassFile.IsOf := ha.mono fun _ _ hc => hc.toIsOf
  refine fun y hy => ⟨ht.isOf hisOf h y hy, fun t' ht' hd => ?_⟩
  obtain ⟨x, hx, hname, hold⟩ := ht.stamps hisOf h y hy t' ht' hd
  rw [← hname]
  exact (ha x hx).vouched t' ht' hold

/-- A class that gets a stamp is accountable if an outcome vouches for that. -/
theorem Accountable.stamped (h : Accountable transformers os n c) {identity : String}
    {inInterface : Bool}
    (hadd : ClassFile.addField ((Stamp.forIdentity identity).spec inInterface) c = .ok () d)
    (hos : os ⊆ os') (hv : Vouched os' (Stamp.forIdentity identity) n) :
    Accountable transformers os' n d := by
  have hgrows : ClassFile.Grows (Eq _) c d := (ClassFile.grows_addField rfl).ok hadd
  refine ⟨h.toIsOf.grows hgrows, fun t ht hd => ?_⟩
  rcases Stamp.declared_before h.size hadd hd with hold | hfield
  · exact (h.vouched t ht hold).mono hos
  · have hsame : t.stamp = Stamp.forIdentity identity := by
      rw [Stamp.mk.injEq]
      exact hfield
    rwa [hsame]

/-! ## Writing a class -/

section Write

variable {p : Pass} {entries : List Entry} {files files' : FileTree} {s s' : State}

/-- A class that is stamped and written, with an outcome that says so. -/
theorem accountable_written {o : Outcome} {file : WrittenFile} {b' : Artifact}
    (hfiles : Everywhere entries files (Accountable transformers os))
    (ha : a.Throughout (Accountable transformers os)) (hstamp : p.stamp.apply a = .ok () b)
    (hwrite : p.output.write (b, files) = .ok file (b', files'))
    (ht : o.transformer = p.transformer.identity) (hstate : o.state = .written)
    (hlisted : o.files = [file]) :
    Everywhere entries files' (Accountable transformers (os ++ [o])) ∧
      b'.Throughout (Accountable transformers (os ++ [o])) ∧ b'.name = a.name ∧
      file.name = a.name ∧ b'.nested = a.nested := by
  obtain ⟨bytes, hadd, hbytes, htoBytes, hbname, hname, hnested, hfile⟩ :=
    stamp_write_eq_ok hstamp hwrite
  obtain ⟨bytes', htoBytes', -, -, hsettled, -, hcontents⟩ := Output.write_eq_ok hwrite
  cases htoBytes.symm.trans htoBytes'
  have hos : os ⊆ os ++ [o] := List.subset_append_left os [o]
  have hvouched : Vouched (os ++ [o]) p.stamp a.name :=
    ⟨o, List.mem_append_right _ (List.mem_singleton_self o), hstate,
      ⟨file, by rw [hlisted]; exact List.mem_singleton_self file, by rw [hfile]; rfl⟩,
      by rw [ht]; rfl⟩
  have hself : Accountable transformers (os ++ [o]) a.name b'.classFile :=
    (Artifact.throughout_iff.1 ha).1.stamped hadd hos hvouched
  refine ⟨(hfiles.mono fun _ _ h => h.mono hos).of_settled hsettled ?_, ?_, hname,
    by rw [hfile]; rfl, hnested⟩
  · -- the one file that changed is that of the class
    intro place bytes' c n hat hnot hparse hdeclared
    rw [hcontents] at hat
    split at hat
    · cases hat
      have hback := ClassFile.parse_toBytes hself.paired hbytes
      cases hparse.symm.trans hback
      cases hdeclared.symm.trans hself.name
      exact hself
    · exact absurd hat hnot
  · exact (throughout_mono ha hos).replace (by rw [hname]; exact hself) hnested

/-- What a part of a step leaves of the report and the files. -/
structure Goes (transformers : List Transformer) (entries : List Entry) (s s' : State) : Prop where
  outcomes : s.report.outcomes ⊆ s'.report.outcomes
  files : Everywhere entries s'.files (Accountable transformers s'.report.outcomes)

theorem goes_writeOne {x y : Artifact} {done : Bool}
    (hfiles : Everywhere entries s.files (Accountable transformers s.report.outcomes))
    (hx : x.Throughout (Accountable transformers s.report.outcomes))
    (h : s.writeOne p x = (done, y, s')) :
    Goes transformers entries s s' ∧
      (done = true → y.Throughout (Accountable transformers s'.report.outcomes)) := by
  have hfail : ∀ {files : FileTree} {message : String} {kind : FailureKind},
      SameFiles s.files files →
        Goes transformers entries s ({ s with files }.fail p x.name kind message) :=
    fun hsame => ⟨List.subset_append_left _ _,
      (hfiles.of_sameFiles hsame).mono fun _ _ hc => hc.mono (List.subset_append_left _ _)⟩
  obtain ⟨o, ho⟩ := writesOne h
  cases ho with
  | unstamped _ => exact ⟨hfail (.refl s.files), fun he => nomatch he⟩
  | unwritten _ hwrite =>
    exact ⟨hfail (Output.write_eq_error hwrite).2, fun he => nomatch he⟩
  | @written b y file files hstamp hwrite =>
    have hdefrost : x.defrost.Throughout (Accountable transformers s.report.outcomes) :=
      hx.congr rfl rfl rfl
    obtain ⟨hfiles', hy, -⟩ :=
      accountable_written (o := p.success x.name file) hfiles hdefrost hstamp hwrite rfl rfl rfl
    exact ⟨⟨List.subset_append_left _ _, hfiles'⟩, fun _ => hy⟩

/-- Of the classes inside a transformed one, those that were not put back are
accountable. -/
theorem goes_writePending {xs ys : List Artifact} {failed : List ClassName}
    (hfiles : Everywhere entries s.files (Accountable transformers s.report.outcomes))
    (hxs : ∀ x ∈ xs, x.Throughout (Accountable transformers s.report.outcomes))
    (h : State.writePending p xs s = (ys, failed, s')) :
    Goes transformers entries s s' ∧
      ∀ y ∈ ys, y.name ∉ failed → y.Throughout (Accountable transformers s'.report.outcomes) := by
  induction xs generalizing s ys failed with
  | nil =>
    cases h
    exact ⟨⟨List.Subset.refl _, hfiles⟩, fun y hy => (nomatch hy)⟩
  | cons x xs ih =>
    obtain ⟨hx, hxs⟩ := List.forall_mem_cons.1 hxs
    rw [State.writePending] at h
    split at h
    · rcases hone : s.writeOne p x with ⟨done, y, s₁⟩
      rcases hrest : State.writePending p xs s₁ with ⟨ys', failed', s₂⟩
      rw [hone] at h
      dsimp only at h
      rw [hrest] at h
      cases h
      obtain ⟨hgoes, hy⟩ := goes_writeOne hfiles hx hone
      obtain ⟨hgoes', hys⟩ := ih hgoes.files (fun x hx => throughout_mono (hxs x hx) hgoes.outcomes)
        hrest
      refine ⟨⟨List.Subset.trans hgoes.outcomes hgoes'.outcomes, hgoes'.files⟩,
        List.forall_mem_cons.2 ⟨fun hnot => ?_, fun y' hy' hnot => hys y' hy' fun hin => hnot ?_⟩⟩
      · cases done with
        | true => exact throughout_mono (hy rfl) hgoes'.outcomes
        | false =>
          rw [(writeOne_spec hone).1.name] at hnot
          exact absurd List.mem_cons_self hnot
      · cases done with
        | true => exact hin
        | false => exact List.mem_cons_of_mem _ hin
    · rcases hrest : State.writePending p xs s with ⟨ys', failed', s₂⟩
      rw [hrest] at h
      cases h
      obtain ⟨hgoes, hys⟩ := ih hfiles hxs hrest
      exact ⟨hgoes, List.forall_mem_cons.2 ⟨fun _ => throughout_mono hx hgoes.outcomes, hys⟩⟩

theorem goes_writeNested {pristine a' : Artifact}
    (hfiles : Everywhere entries s.files (Accountable transformers s.report.outcomes))
    (ha : a.Throughout (Accountable transformers s.report.outcomes))
    (hpristine : ∀ m ∈ pristine.nested,
      m.Throughout (Accountable transformers s.report.outcomes))
    (h : s.writeNested p pristine a = (a', s')) :
    Goes transformers entries s s' ∧
      a'.Throughout (Accountable transformers s'.report.outcomes) := by
  obtain ⟨hself, hnested⟩ := Artifact.throughout_iff.1 ha
  unfold State.writeNested at h
  rcases hwritten : State.writePending p a.nested s with ⟨ys, failed, s₁⟩
  rw [hwritten] at h
  dsimp only at h
  obtain ⟨hgoes, hys⟩ := goes_writePending hfiles hnested hwritten
  split at h
  · rename_i hnone
    cases h
    rw [List.isEmpty_iff.1 hnone] at hys
    exact ⟨hgoes, Artifact.throughout_iff.2
      ⟨hself.mono hgoes.outcomes, fun m hm => hys m hm List.not_mem_nil⟩⟩
  · cases h
    obtain ⟨hclass, hmem⟩ :=
      attachAll_spec a.withoutNested (State.rollBack pristine.nested failed ys)
    obtain ⟨hname, hfile⟩ := Artifact.eq_of_withoutNested hclass
    refine ⟨hgoes, Artifact.throughout_iff.2 ⟨?_, fun m hm => ?_⟩⟩
    · rw [hname, hfile]
      exact hself.mono hgoes.outcomes
    · rcases hmem m hm with hm | hm
      · cases hm
      · rcases mem_of_mem_rollBack hm with ⟨hm, hnot⟩ | hm
        · exact hys m hm hnot
        · exact throughout_mono (hpristine m hm) hgoes.outcomes

end Write

/-! ## The step -/

/-- Each outcome that says that the class carries the stamp comes behind one that
vouches for that. -/
def Justified (os : List Outcome) : Prop :=
  ∀ before o after, os = before ++ o :: after → o.state = .skippedStamped →
    Vouched before (Stamp.forIdentity o.transformer) o.name

theorem Justified.append {new : List Outcome} (h : Justified os)
    (hnew : ∀ o ∈ new, o.state = .skippedStamped →
      Vouched os (Stamp.forIdentity o.transformer) o.name) : Justified (os ++ new) := by
  intro before o after hsplit hstate
  rcases List.append_eq_append_iff.1 hsplit with ⟨more, rfl, htail⟩ | ⟨more, hos, htail⟩
  · have ho : o ∈ new := by
      rw [htail]
      exact List.mem_append_right _ List.mem_cons_self
    exact (hnew o ho hstate).mono (List.subset_append_left os more)
  · cases more with
    | nil =>
      rw [List.append_nil] at hos
      have ho : o ∈ new := by
        rw [← List.nil_append new, ← htail]
        exact List.mem_cons_self
      rw [← hos]
      exact hnew o ho hstate
    | cons x more =>
      obtain ⟨rfl, -⟩ := List.cons.inj htail
      exact h before o more hos hstate

/-- No transformer of the run gives a class another name. -/
def KeepName (transformers : List Transformer) : Prop :=
  ∀ t ∈ transformers, ∀ a b, t.apply a = .ok () b → b.name = a.name

/-- What holds between two steps of a run: what is in memory and what the entries
have is accountable, and so is what the report says. -/
structure Honest (transformers : List Transformer) (entries : List Entry) (s : State) : Prop where
  memory : s.context.KeyedBy (Throughout (Accountable transformers s.report.outcomes))
  files : Everywhere entries s.files (Accountable transformers s.report.outcomes)
  entries : s.context.entries = entries
  known : ∀ o ∈ s.report.outcomes, o.transformer ∈ transformers.map (·.identity)
  named : KeepName transformers → ∀ o ∈ s.report.outcomes, ∀ file ∈ o.files, file.name = o.name
  justified : Justified s.report.outcomes

section Step

variable {p : Pass} {entries : List Entry} {s s' : State}

theorem Unedited.throughout {P : ClassName → ClassFile → Prop} (h : Unedited a b)
    (ha : a.Throughout P) : b.Throughout P := by
  obtain ⟨hself, hnested⟩ := Artifact.throughout_iff.1 ha
  refine Artifact.throughout_iff.2 ⟨by rw [h.name, h.classFile]; exact hself, fun m hm => ?_⟩
  obtain ⟨x, hx, hxm⟩ := h.mem hm
  exact (hnested x hx).congr hxm.name hxm.classFile hxm.nested

theorem keyedBy_mono {context : Context}
    (h : context.KeyedBy (Throughout (Accountable transformers os))) (hos : os ⊆ os') :
    context.KeyedBy (Throughout (Accountable transformers os')) :=
  fun k x hx => ⟨(h k x hx).1, throughout_mono (h k x hx).2 hos⟩

theorem Honest.withdraws {o : Outcome} (hs : Honest transformers entries s)
    (ht : p.transformer ∈ transformers) (h : Withdraws p n s o s') :
    Honest transformers entries s' := by
  obtain ⟨hentries, hkeyed⟩ :=
    h.keyedBy hs.files.lasting Unedited.throughout hs.entries hs.memory
  have hreport : s'.report.outcomes = s.report.outcomes ++ [o] := by
    rw [h.report]
    rfl
  have hos : s.report.outcomes ⊆ s'.report.outcomes := by
    rw [hreport]
    exact List.subset_append_left _ _
  refine ⟨keyedBy_mono hkeyed hos,
    (hs.files.of_sameFiles h.files).mono fun _ _ hc => hc.mono hos, hentries, ?_,
    fun hkeep => ?_, ?_⟩
  · rw [hreport]
    refine List.forall_mem_append.2 ⟨hs.known, List.forall_mem_singleton.2 ?_⟩
    rw [h.transformer]
    exact List.mem_map_of_mem ht
  · rw [hreport]
    refine List.forall_mem_append.2 ⟨hs.named hkeep, List.forall_mem_singleton.2 ?_⟩
    rw [h.idle.files]
    exact fun file hfile => (nomatch hfile)
  · rw [hreport]
    refine hs.justified.append (List.forall_mem_singleton.2 fun hstate => ?_)
    obtain ⟨a, context, hout, hpresent⟩ := h.stamp (.inl hstate)
    obtain ⟨hname, ha, -⟩ :=
      (Context.checkout_keyedBy hs.files.lasting hs.entries hs.memory).1 a context hout
    rw [h.transformer, h.name, ← hname]
    exact (Artifact.throughout_iff.1 ha).1.vouched _ ht (hpresent.2 hstate)

/-- The step of a transformer that adds no stamps keeps all that. -/
theorem honest_transform (ht : p.transformer ∈ transformers)
    (hadds : AddsNoStamp transformers p.transformer) (hs : Honest transformers entries s)
    (n : ClassName) : Honest transformers entries (State.transform p n s) := by
  rcases transform_cases p n s with ⟨o, h⟩ | ⟨a, b, c, d, context, file, files, log, h, heq⟩
  · exact hs.withdraws ht h
  obtain ⟨hname, ha, hentries, hkeyed⟩ :=
    (Context.checkout_keyedBy hs.files.lasting hs.entries hs.memory).1 a context h.taken
  have hprepared := (unedited_prepare a).throughout ha
  let o : Outcome :=
    { transformer := p.transformer.identity, name := n, state := .written, message := none,
      files := [file] }
  obtain ⟨hfiles, hd, hdname, hfile, -⟩ := accountable_written (o := o) hs.files
    (hadds.accountable hprepared h.applied) h.stamped h.written rfl rfl rfl
  rcases hnested : (s.transformed p n context file files log).writeNested p (State.prepare a) d
    with ⟨a', s'⟩
  obtain ⟨-, -, os, hos⟩ := writeNested_spec hnested
  have hpristine := (Artifact.throughout_iff.1 hprepared).2
  obtain ⟨hgoes, ha'⟩ := goes_writeNested (s := s.transformed p n context file files log) hfiles hd
    (fun m hm => throughout_mono (hpristine m hm) (List.subset_append_left _ _)) hnested
  have hreport : s'.report.outcomes = s.report.outcomes ++ (o :: os) := by
    rw [hos.report, List.append_cons]
    rfl
  have hsub : s.report.outcomes ⊆ s'.report.outcomes := by
    rw [hreport]
    exact List.subset_append_left _ _
  rw [heq, hnested]
  refine ⟨?_, hgoes.files, ?_, ?_, fun hkeep => ?_, ?_⟩
  · show (s'.context.restore a').KeyedBy _
    rw [hos.context]
    exact hgoes.files.lasting.restore (keyedBy_mono hkeyed hsub) ha'
  · show s'.context.entries = entries
    rw [hos.context]
    exact hentries
  · show ∀ o ∈ s'.report.outcomes, _
    rw [hreport]
    refine List.forall_mem_append.2 ⟨hs.known, List.forall_mem_cons.2
      ⟨List.mem_map_of_mem ht, fun o' ho' => ?_⟩⟩
    rw [(hos.members o' ho').transformer]
    exact List.mem_map_of_mem ht
  · show ∀ o ∈ s'.report.outcomes, _
    rw [hreport]
    refine List.forall_mem_append.2 ⟨hs.named hkeep, List.forall_mem_cons.2
      ⟨List.forall_mem_singleton.2 ?_, fun o' ho' => ?_⟩⟩
    · exact hfile.trans ((hkeep _ ht _ _ h.applied).trans hname)
    · exact (hos.lists.tells o' ho').name_of_mem
  · show Justified s'.report.outcomes
    rw [hreport]
    refine hs.justified.append (List.forall_mem_cons.2 ⟨fun hstate => (nomatch hstate),
      fun o' ho' hstate => ?_⟩)
    rcases (hos.members o' ho').state with hs | hs | hs <;> rw [hs] at hstate <;> cases hstate

end Step

/-! ## Runs -/

section Runs

variable {config : Config} {ambient : List Path} {files files' : FileTree} {input : Path}

/-- All that holds when a run over classes without stamps begins. -/
theorem honest_start (hin : config.inputDirectory? = some input)
    (hunmarked : config.Unmarked transformers ambient files) (hsame : SameFiles files files') :
    Honest transformers (config.entries input ambient)
      (.start files' (.ofEntries (config.entries input ambient))) := by
  have hfiles : Everywhere (config.entries input ambient) files (Accountable transformers []) :=
    fun entry hentry n bytes c hhas hparse hname =>
      ⟨ClassFile.isOf_of_parse hparse hname, fun t ht hd => absurd hd
        (hunmarked n c ⟨input, hin, entry, hentry, bytes, hhas, hparse, hname⟩ t ht)⟩
  refine ⟨fun k a ha => (nomatch ha), hfiles.of_sameFiles hsame, rfl, fun o ho => (nomatch ho),
    fun _ o ho => (nomatch ho), fun before o after hsplit _ => ?_⟩
  cases before <;> cases hsplit

/-- The report of a run that succeeds is empty or honest. -/
theorem honest_execute {report : Report} (hadds : ∀ t ∈ transformers, AddsNoStamp transformers t)
    (hunmarked : config.Unmarked transformers ambient files)
    (hok : (execute config transformers ambient files).report = .ok report) :
    report.outcomes = [] ∨ ∃ entries s, report = s.report ∧ Honest transformers entries s := by
  dsimp only [execute] at hok
  rcases setUp_cases config transformers ambient files with ⟨e, files', hs, -⟩ | hs |
    ⟨input, files', hin, hsame, -, hs⟩
  · unfold run at hok
    rw [hs] at hok
    cases hok
  · unfold run at hok
    rw [hs] at hok
    cases hok
    exact .inl rfl
  · obtain ⟨-, -, hreport⟩ := run_of_setUp State.transform hs
    refine .inr ⟨config.entries input ambient, _, hreport report hok, ?_⟩
    refine passOver_keeps (fun p hp n s hs => ?_) (honest_start hin hunmarked hsame)
    obtain ⟨⟨t, i⟩, ht, rfl⟩ := List.mem_map.1 hp
    have hmem := List.fst_mem_of_mem_zipIdx ht
    exact honest_transform hmem (hadds t hmem) hs n

/-- In a run over classes without stamps, of transformers that add no stamps
themselves, an outcome says that a class carries the stamp of a transformer only
behind one that says that it was written, by a transformer whose identity looks
the same in the name of the stamp. If no other transformer of the run has the same
stamp, that is the transformer itself. -/
theorem skipped_behind_same_stamp {report : Report}
    (hadds : ∀ t ∈ transformers, AddsNoStamp transformers t)
    (hunmarked : config.Unmarked transformers ambient files)
    (hok : (execute config transformers ambient files).report = .ok report)
    {before after : List Outcome} {o : Outcome} (hsplit : report.outcomes = before ++ o :: after)
    (hstate : o.state = .skippedStamped) :
    ∃ o' ∈ before, o'.state = .written ∧ (∃ file ∈ o'.files, file.name = o.name) ∧
      Stamp.mask o'.transformer = Stamp.mask o.transformer ∧
      (KeepName transformers → o'.name = o.name) ∧
      ((∀ t ∈ transformers, ∀ t' ∈ transformers, t.stamp = t'.stamp → t.identity = t'.identity) →
        o'.transformer = o.transformer) := by
  rcases honest_execute hadds hunmarked hok with hnone | ⟨entries, s, rfl, hs⟩
  · rw [hnone] at hsplit
    cases before <;> cases hsplit
  obtain ⟨o', ho', hmarks⟩ := hs.justified before o after hsplit hstate
  have hmem : o' ∈ s.report.outcomes := by
    rw [hsplit]
    exact List.mem_append_left _ ho'
  have hmem' : o ∈ s.report.outcomes := by
    rw [hsplit]
    exact List.mem_append_right _ List.mem_cons_self
  refine ⟨o', ho', hmarks.written, hmarks.listed, Stamp.forIdentity_eq_iff.1 hmarks.stamp,
    fun hkeep => ?_, fun hapart => ?_⟩
  · obtain ⟨file, hfile, hname⟩ := hmarks.listed
    exact (hs.named hkeep o' hmem file hfile).symm.trans hname
  · obtain ⟨t', ht', hidentity'⟩ := List.mem_map.1 (hs.known o' hmem)
    obtain ⟨t, ht, hidentity⟩ := List.mem_map.1 (hs.known o hmem')
    have hsame := hmarks.stamp
    rw [← hidentity', ← hidentity] at hsame ⊢
    exact hapart t' ht' t ht hsame

end Runs

/-- The transformer adds its field and no stamp, if the field is none. -/
theorem markerField_addsNoStamp (m : MarkerField)
    (hm : ∀ t ∈ transformers, t.stamp.field ≠ m.field) :
    AddsNoStamp transformers m.transformer := by
  constructor
  · intro a b ha h
    obtain ⟨c, hadd, rfl⟩ := MarkerField.apply_eq_ok h
    have hgrows : ClassFile.Grows (Eq m.spec) a.classFile c :=
      (ClassFile.grows_addField rfl).ok hadd
    exact ha.replace ((Artifact.throughout_iff.1 ha).1.grows hgrows) rfl
  · intro a b ha h y hy t ht hd
    obtain ⟨c, hadd, rfl⟩ := MarkerField.apply_eq_ok h
    cases hy with
    | inside hin hy => exact ⟨y, .inside hin hy, rfl, hd⟩
    | self =>
      have hsize := (Artifact.throughout_iff.1 ha).1.size
      rcases Stamp.declared_before hsize hadd hd with hold | hfield
      · exact ⟨a, .self a, rfl, hold⟩
      · exact absurd hfield (hm t ht)

theorem plainFiles_unmarked (transformers : List Transformer) :
    (Config.new ⟨"classes"⟩).Unmarked transformers [] plainFiles := by
  intro n c hholds t _ hdeclares
  obtain ⟨m, hm, -⟩ := ClassFile.declares_iff.1 hdeclares
  rw [fields_of_plainFiles hholds] at hm
  cases hm

/-- The transformer that adds a field of the given name. -/
def marker (field : String) : Transformer := MarkerField.transformer { field, packages := [] }

theorem markers_addNoStamp {fields : List String}
    (h : ∀ f ∈ fields, ∀ f' ∈ fields, (marker f').stamp.field ≠ f) :
    ∀ t ∈ fields.map marker, AddsNoStamp (fields.map marker) t := by
  intro t ht
  obtain ⟨f, hf, rfl⟩ := List.mem_map.1 ht
  refine markerField_addsNoStamp _ fun t' ht' => ?_
  obtain ⟨f', hf', rfl⟩ := List.mem_map.1 ht'
  exact h f hf f' hf'

theorem markers_keepName (fields : List String) : KeepName (fields.map marker) := by
  intro t ht a b h
  obtain ⟨f, -, rfl⟩ := List.mem_map.1 ht
  obtain ⟨c, -, rfl⟩ := MarkerField.apply_eq_ok h
  rfl

/-- A transformer that is there twice hides the class from itself. -/
theorem repeated_marker_hides : ∃ report o o',
    (execute (.new ⟨"classes"⟩) (["a", "a"].map marker) [] plainFiles).report = .ok report ∧
      report.outcomes = [o', o] ∧ o.state = .skippedStamped ∧ o'.state = .written ∧
      o'.name = o.name ∧ o'.transformer = o.transformer := by
  obtain ⟨report, hok, houtcomes⟩ : ∃ report,
      (execute (.new ⟨"classes"⟩) (["a", "a"].map marker) [] plainFiles).report = .ok report ∧
        report.outcomes.map (·.state) = [.written, .skippedStamped] :=
    exists_eq_ok (by decide +kernel)
  obtain ⟨first, rest, hrest, -, houtcomes⟩ := List.map_eq_cons_iff.1 houtcomes
  obtain ⟨second, rest, rfl, hstate, houtcomes⟩ := List.map_eq_cons_iff.1 houtcomes
  rw [List.map_eq_nil_iff.1 houtcomes] at hrest
  have hsplit : report.outcomes = [first] ++ second :: [] := hrest
  obtain ⟨o', ho', hwritten, -, -, hname, hidentity⟩ :=
    skipped_behind_same_stamp (markers_addNoStamp (by decide +kernel)) (plainFiles_unmarked _) hok
      hsplit hstate
  rw [List.mem_singleton.1 ho'] at hwritten hname hidentity
  refine ⟨report, second, first, hok, hrest, hstate, hwritten, hname (markers_keepName _),
    hidentity fun t ht t' ht' _ => ?_⟩
  rcases List.mem_pair.1 ht with rfl | rfl <;> rcases List.mem_pair.1 ht' with rfl | rfl <;> rfl

/-- Two transformers with different identities and one stamp: the second one leaves
the class alone that the first one wrote. -/
theorem masked_identity_hides :
    let twins := ["a-b", "a_b"].map marker
    (twins.map (·.identity)).Nodup ∧ (∀ t ∈ twins, AddsNoStamp twins t) ∧
      (Config.new ⟨"classes"⟩).Unmarked twins [] plainFiles ∧
      ∃ report, (execute (.new ⟨"classes"⟩) twins [] plainFiles).report = .ok report ∧
        ∃ o ∈ report.outcomes, o.state = .skippedStamped ∧
          ∀ o' ∈ report.outcomes, o'.transformer = o.transformer → o'.state ≠ .written := by
  obtain ⟨report, hok, houtcomes⟩ : ∃ report,
      (execute (.new ⟨"classes"⟩) (["a-b", "a_b"].map marker) [] plainFiles).report = .ok report ∧
        report.outcomes.map (fun o => (o.transformer, o.state)) =
          [("marker-field.a-b", .written), ("marker-field.a_b", .skippedStamped)] :=
    exists_eq_ok (by decide +kernel)
  refine ⟨by decide +kernel, markers_addNoStamp (by decide +kernel), plainFiles_unmarked _, report,
    hok, ?_⟩
  obtain ⟨first, rest, hrest, hfirst, houtcomes⟩ := List.map_eq_cons_iff.1 houtcomes
  obtain ⟨second, rest, rfl, hsecond, houtcomes⟩ := List.map_eq_cons_iff.1 houtcomes
  rw [List.map_eq_nil_iff.1 houtcomes] at hrest
  obtain ⟨hfirst, -⟩ := Prod.mk.inj hfirst
  obtain ⟨hidentity, hstate⟩ := Prod.mk.inj hsecond
  refine ⟨second, by rw [hrest]; exact List.mem_pair.2 (.inr rfl), hstate, fun o ho hsame => ?_⟩
  rw [hrest] at ho
  rcases List.mem_pair.1 ho with rfl | rfl
  · rw [hfirst, hidentity] at hsame
    exact absurd hsame (by decide)
  · rw [hstate]
    exact fun he => nomatch he

end Run

end ClassStamp
