import ClassStamp.Fixture
import ClassStamp.Proofs.Classpath.Independence
import ClassStamp.Proofs.Run.Entries
import ClassStamp.Proofs.Run.Regular
import ClassStamp.Proofs.Run.Step

/-!
# What becomes of the classes inside a transformed one

A transformer that acts on a class may open the classes inside it. Behind a step that wrote
the class, those that it opened were stamped and written, except for any that carry its stamp
already; if that went wrong for one of them, it is what it was before the transformer got it.
Whether a class counts as opened does not depend on what happened before the step. This is
about the classes directly inside the one that was taken out, if each is there once: those
further inside are not written, and when something went wrong, others are not brought back.

* `Artifact.Opens`, `Transformer.OnlyOpens`: what the transformer does to these classes;
* `Companion`: one of them, from the time it is taken out to the end of the step, and
  `Companion.Settles`: what becomes of it;
* `WritesAll`: all of them, one after the other, and `writeNested_settles`: with those put back
  that failed;
* `opened_are_written`: the main result;
* `deep_and_stray_missed`: a class further inside, and some that do not belong inside.
-/

namespace ClassStamp

namespace Artifact

/-- The artifact is opened for editing some times, or not at all, and so are artifacts held
with it, however far inside; it is then as the other one, and the answer is whether it was
opened itself. -/
inductive Opens : Artifact → Bool → Artifact → Prop
  | never (a : Artifact) : Opens a false a
  | again {a b : Artifact} {opened : Bool} {α : Type} (change : ClassFile.Edit α) :
    Opens a opened b → Opens a true (leaves (Artifact.edit change) b)
  | inside {a b x y : Artifact} {opened within : Bool} {i : Nat} :
    Opens a opened b → b.nested[i]? = some x → Opens x within y →
    Opens a opened { b with nested := b.nested.set i y }

variable {a b : Artifact} {opened : Bool}

theorem Opens.becomes (h : Opens a opened b) :
    Becomes (fun _ _ => True) (fun _ _ => True) a b := by
  induction h with
  | never a => exact .refl a
  | again change _ ih => exact ih.edit change trivial
  | inside _ hx _ ih ihx => exact ih.inside hx ihx

theorem Opens.name (h : Opens a opened b) : b.name = a.name := h.becomes.kept.name

/-- An artifact that was not frozen counts as modified if it was opened, and has the class
file that it had if not. -/
theorem Opens.modified (h : Opens a opened b) (hfrozen : a.frozen = none) :
    b.frozen = none ∧ b.isModified = (opened || a.isModified) ∧
      (opened = false → b.classFile = a.classFile) := by
  induction h with
  | never a => exact ⟨hfrozen, rfl, fun _ => rfl⟩
  | @again a b opened α change _ ih =>
    obtain ⟨hnone, -⟩ := ih hfrozen
    have hopen : ¬ b.isFrozen = true := by
      rw [isFrozen, hnone]
      exact Bool.false_ne_true
    have hleaves : leaves (edit change) b =
        { b with isModified := true, classFile := leaves change b.classFile } := by
      unfold leaves
      rw [edit_of_not_frozen hopen]
      cases change b.classFile <;> rfl
    rw [hleaves]
    exact ⟨hnone, rfl, fun he => absurd he.symm Bool.false_ne_true⟩
  | inside _ _ _ ih _ => exact ih hfrozen

end Artifact

/-- Whenever the transformer does its work, the class keeps its name and holds the same
classes in the same order, and these are touched by opening some of them, or of those inside
them, and not otherwise. -/
def Transformer.OnlyOpens (t : Transformer) : Prop :=
  ∀ a b, t.apply a = .ok () b → b.name = a.name ∧
    List.Forall₂ (fun x y => ∃ opened, Artifact.Opens x opened y) a.nested b.nested

/-- A transformer that only opens what is inside a class keeps it regular. -/
theorem Transformer.OnlyOpens.keepsRegular {t : Transformer} (h : t.OnlyOpens) :
    t.KeepsRegular := by
  intro a b ha hb
  obtain ⟨hname, hnested⟩ := h a b hb
  refine ha.of_forall₂ hname (hnested.imp fun x y hxy => ?_)
  obtain ⟨opened, hxy⟩ := hxy
  exact ⟨hxy.name, hxy.becomes.regular⟩

namespace Run

open Classpath (Context)
open FileTree (Settled SameFiles)

/-- A class inside a transformed one, in the course of the step. -/
structure Companion where
  /-- The class as it was taken out with the other one. -/
  taken : Artifact
  /-- Whether the transformer opened it. -/
  opened : Bool
  /-- The class as the transformer left it. -/
  left : Artifact
  /-- The class as it was brought back. -/
  kept : Artifact
  /-- The outcome for the class, if there is one. -/
  outcome : Option Outcome

namespace Companion

/-- The class as the transformer got it. -/
def given (m : Companion) : Artifact := m.taken.defrost.clearModified

/-- The name of the class. -/
def name (m : Companion) : ClassName := m.taken.name

/-- The class was stamped, so that it carries the stamp, and written, and the outcome says
so. -/
inductive Written (p : Pass) (files : FileTree) (m : Companion) (o : Outcome) : Prop
  | intro {marked : Artifact} {bytes : Bytes}
    (stamp : p.stamp.apply m.left.defrost = .ok () marked)
    (encode : marked.classFile.toBytes = .ok bytes)
    (kept : m.kept = { marked with frozen := some bytes })
    (declares : m.kept.classFile.Declares p.stamp.field)
    (read : files.read (p.output.pathFor m.name) = .ok bytes)
    (outcome : o = p.success m.name (p.output.record m.name bytes))

/-- The class could not be stamped, or could not be written with the files that there were
at that moment of the step, and the outcome says so. -/
inductive Fails (p : Pass) (files files' : FileTree) (m : Companion) (o : Outcome) : Prop
  | unstamped {e : StampError} {marked : Artifact}
    (stamp : p.stamp.apply m.left.defrost = .error e marked)
    (outcome : o = p.failure m.name .stamp e.message)
  | unwritten {marked : Artifact} {moment : FileTree} {e : WriteError}
    {rest : Artifact × FileTree}
    (stamp : p.stamp.apply m.left.defrost = .ok () marked)
    (since : Settled files moment) (later : Settled moment files')
    (write : p.output.write (marked, moment) = .error e rest)
    (outcome : o = p.failure m.name .write e.message)

/-- What becomes of the class in a step that begins with the one files and ends with the
other ones. -/
structure Settles (p : Pass) (files files' : FileTree) (m : Companion) : Prop where
  opens : m.given.Opens m.opened m.left
  name : m.left.name = m.name ∧ m.kept.name = m.name
  tried : m.outcome.isSome = true ↔ m.opened = true ∧ ¬ p.stamp.isPresent m.left = true
  ended : ∀ o, m.outcome = some o →
    o.state = .written ∧ m.Written p files' o ∨
      o.state ≠ .written ∧ m.Fails p files files' o ∧ m.kept = m.given
  passed : m.outcome = none → m.kept = m.left
  untouched : m.opened = false → m.outcome = none ∧ m.kept.classFile = m.taken.classFile
  file : (∀ o, m.outcome = some o → o.state ≠ .written) →
    files'.fileAt? (files.placeOf (p.output.pathFor m.name)) =
      files.fileAt? (files.placeOf (p.output.pathFor m.name))

end Companion

variable {p : Pass} {n : ClassName} {s s' : State} {a b x y : Artifact} {m : Companion}
  {os : List Outcome} {files files' files'' : FileTree}

/-! ## One class -/

theorem Companion.Fails.before {o : Outcome} (h : m.Fails p files files' o)
    (hmore : Settled files' files'') : m.Fails p files files'' o := by
  cases h with
  | unstamped stamp outcome => exact .unstamped stamp outcome
  | unwritten stamp since later write outcome =>
    exact .unwritten stamp since (later.trans hmore) write outcome

theorem Companion.Fails.behind {o : Outcome} (h : m.Fails p files' files'' o)
    (hmore : Settled files files') : m.Fails p files files'' o := by
  cases h with
  | unstamped stamp outcome => exact .unstamped stamp outcome
  | unwritten stamp since later write outcome =>
    exact .unwritten stamp (hmore.trans since) later write outcome

/-- A class file that can be written has the stamp that was added to it. -/
theorem declares_of_encoded {stamp : Stamp} {inInterface : Bool} {c d : ClassFile} {bytes : Bytes}
    (hadd : ClassFile.addField (stamp.spec inInterface) c = .ok () d)
    (hbytes : d.toBytes = .ok bytes) : d.Declares stamp.field := by
  have hgrows : ClassFile.Grows (Eq (stamp.spec inInterface)) c d :=
    (ClassFile.grows_addField rfl).ok hadd
  have hfits := ClassFile.exists_toBytes_iff.1 ⟨bytes, hbytes⟩
  have hle : c.pool.slots.size ≤ ConstantPool.maxCount := by
    obtain ⟨⟨xs, hslots⟩, -⟩ := hgrows.pool
    have hlength := congrArg List.length hslots
    rw [List.length_append, Array.length_toList, Array.length_toList] at hlength
    have hcount : d.pool.slots.size + 1 ≤ 65535 := hfits.pool
    rw [ConstantPool.maxCount]
    omega
  exact (ClassFile.declared_addField hle hadd).2

namespace Companion.Settles

/-- What is written later on about other classes does not matter. -/
theorem before (h : m.Settles p files files') (hlists : Lists p.output files' os files'')
    (hne : ∀ o ∈ os, o.name ≠ m.name) (hsettled : Settled files files') :
    m.Settles p files files'' := by
  have hfile := hlists.fileAt?_of_ne hne
  refine ⟨h.opens, h.name, h.tried, fun o ho => ?_, h.passed, h.untouched, fun hnot => ?_⟩
  · rcases h.ended o ho with ⟨hstate, hwritten⟩ | ⟨hstate, hfails, hkept⟩
    · obtain ⟨hstamp, hencode, hkept, hdeclares, hread, ho⟩ := hwritten
      exact .inl ⟨hstate, .intro hstamp hencode hkept hdeclares
        (FileTree.read_of_settled_of_fileAt? hlists.settled hfile hread) ho⟩
    · exact .inr ⟨hstate, hfails.before hlists.settled, hkept⟩
  · rw [hsettled.placeOf] at hfile
    exact hfile.trans (h.file hnot)

/-- What was written before about other classes does not matter. -/
theorem behind (h : m.Settles p files' files'') (hlists : Lists p.output files os files')
    (hne : ∀ o ∈ os, o.name ≠ m.name) : m.Settles p files files'' := by
  refine ⟨h.opens, h.name, h.tried, fun o ho => ?_, h.passed, h.untouched, fun hnot => ?_⟩
  · exact (h.ended o ho).imp_right fun ⟨hstate, hfails, hkept⟩ =>
      ⟨hstate, hfails.behind hlists.settled, hkept⟩
  have hfile := h.file hnot
  rw [hlists.settled.placeOf] at hfile
  exact hfile.trans (hlists.fileAt?_of_ne hne)

end Companion.Settles

theorem isPending_of_opens {opened : Bool} (h : x.defrost.clearModified.Opens opened y) :
    State.isPending p y = true ↔ opened = true ∧ ¬ p.stamp.isPresent y = true := by
  obtain ⟨-, hmodified, -⟩ := h.modified rfl
  rw [State.isPending, hmodified, Artifact.clearModified, Bool.or_false, Bool.and_eq_true,
    Bool.not_eq_true', Bool.not_eq_true]

/-- A class that is not pending stays as the transformer left it. -/
theorem settles_of_not_pending {opened : Bool} (h : x.defrost.clearModified.Opens opened y)
    (hidle : ¬ State.isPending p y = true) (files : FileTree) :
    Companion.Settles p files files
      { taken := x, opened, left := y, kept := y, outcome := none } := by
  have hname : y.name = x.name := h.name
  obtain ⟨-, -, hsame⟩ := h.modified rfl
  refine ⟨h, ⟨hname, hname⟩, ?_, fun o ho => (nomatch ho), fun _ => rfl, fun ho => ⟨rfl, ?_⟩,
    fun _ => rfl⟩
  · rw [isPending_of_opens h] at hidle
    exact iff_of_false Bool.false_ne_true hidle
  · exact hsame ho

/-- A class that could not be stamped or written is what it was before. -/
theorem settles_of_fails {opened : Bool} {o : Outcome}
    (h : x.defrost.clearModified.Opens opened y) (hpending : State.isPending p y = true)
    (hsame : SameFiles files files') (hstate : o.state ≠ .written)
    (hfails : Companion.Fails p files files'
      { taken := x, opened, left := y, kept := x.defrost.clearModified, outcome := some o } o) :
    Companion.Settles p files files'
      { taken := x, opened, left := y, kept := x.defrost.clearModified, outcome := some o } := by
  have hname : y.name = x.name := h.name
  have htried := (isPending_of_opens h).1 hpending
  refine ⟨h, ⟨hname, rfl⟩, iff_of_true rfl htried, fun o' ho' => .inr ?_, fun he => (nomatch he),
    fun he => absurd (he.symm.trans htried.1) Bool.false_ne_true, fun _ => hsame.contents _⟩
  rw [← Option.some.inj ho']
  exact ⟨hstate, hfails, rfl⟩

/-- A pending class is stamped and written, or is what it was before. -/
theorem settles_of_writesOne {opened done : Bool} {z : Artifact} {o : Outcome}
    (h : x.defrost.clearModified.Opens opened y) (hpending : State.isPending p y = true)
    (hone : WritesOne p s y done z o s') :
    Companion.Settles p s.files s'.files
      { taken := x, opened, left := y, outcome := some o
        kept := if done then z else x.defrost.clearModified } := by
  have hname : y.name = x.name := h.name
  cases hone with
  | unstamped hstamp =>
    exact settles_of_fails h hpending (.refl s.files) (fun he => nomatch he)
      (.unstamped hstamp (by rw [hname]; rfl))
  | unwritten hstamp hwrite =>
    have hsame := (Output.write_eq_error hwrite).2
    exact settles_of_fails h hpending hsame (fun he => nomatch he)
      (.unwritten hstamp (.refl s.files) hsame.toSettled hwrite (by rw [hname]; rfl))
  | @written b z file files hstamp hwrite =>
    have htried := (isPending_of_opens h).1 hpending
    obtain ⟨bytes, hbytes, rfl, rfl, -, hread, -⟩ := Output.write_eq_ok hwrite
    obtain ⟨hfrozen, c, hadd, rfl⟩ := Stamp.apply_eq_ok hstamp
    have hencode := Artifact.toBytes_of_not_frozen hbytes hfrozen
    refine ⟨h, ⟨hname, hname⟩, iff_of_true rfl htried, fun o' ho' => .inl ?_,
      fun he => (nomatch he), fun he => absurd (he.symm.trans htried.1) Bool.false_ne_true,
      fun hnot => ?_⟩
    · rw [← Option.some.inj ho']
      refine ⟨rfl, .intro hstamp hencode rfl (declares_of_encoded hadd hencode) ?_ ?_⟩
      · show files.read (p.output.pathFor x.name) = .ok bytes
        rw [← hname]
        exact hread
      · show p.success y.name (p.output.record y.name bytes) = _
        rw [hname]
        rfl
    · exact absurd rfl (hnot _ rfl)

/-! ## All classes -/

/-- The outcomes for some classes are about no other class. -/
theorem NestedWritten.ne {as : List Artifact} (h : NestedWritten p as s os s')
    (hn : n ∉ names as) : ∀ o ∈ os, o.name ≠ n := by
  rintro o ho rfl
  exact hn (mem_names.2 (h.members o ho).name)

theorem Companion.name_mem {ms : List Companion} (hm : m ∈ ms) :
    m.name ∈ names (ms.map (·.taken)) :=
  mem_names.2 ⟨m.taken, List.mem_map_of_mem hm, rfl⟩

theorem Companion.names_map {ms : List Companion} {f : Companion → Artifact}
    (hf : ∀ m ∈ ms, (f m).name = m.name) : names (ms.map f) = names (ms.map (·.taken)) := by
  rw [names, names, List.map_map, List.map_map]
  exact List.map_congr_left hf

/-- Some classes inside a transformed one were written one after the other, as far as they were
pending. Those that failed are to be put back to what is among all of them before. -/
structure WritesAll (p : Pass) (all taken lefts : List Artifact) (s : State)
    (ms : List Companion) (written : List Artifact) (failed : List ClassName) (s' : State) :
    Prop where
  back : State.rollBack all failed written = ms.map (·.kept)
  written : names written = names taken
  failed : ∀ n ∈ failed, n ∈ names taken
  nested : NestedWritten p lefts s (ms.filterMap (·.outcome)) s'
  settles : ∀ m ∈ ms, m.Settles p s.files s'.files
  taken : taken = ms.map (·.taken)
  left : lefts = ms.map (·.left)

namespace WritesAll

variable {all taken lefts written : List Artifact} {failed : List ClassName}
  {ms : List Companion} {opened : Bool}

theorem nil (p : Pass) (all : List Artifact) (s : State) : WritesAll p all [] [] s [] [] [] s :=
  ⟨rfl, rfl, fun _ hn => (nomatch hn), nestedWritten_nil p [] s, fun _ hm => (nomatch hm), rfl,
    rfl⟩

theorem names_left (h : WritesAll p all taken lefts s ms written failed s') :
    names lefts = names taken := by
  rw [h.left, h.taken]
  exact Companion.names_map fun m hm => (h.settles m hm).name.1

/-- A class that is not pending before all the others. -/
theorem passed (h : WritesAll p all taken lefts s ms written failed s')
    (hx : x.defrost.clearModified.Opens opened y) (hnew : x.name ∉ names taken)
    (hidle : ¬ State.isPending p y = true) :
    WritesAll p all (x :: taken) (y :: lefts) s (⟨x, opened, y, y, none⟩ :: ms) (y :: written)
      failed s' := by
  have hname : y.name = x.name := hx.name
  have hne := h.nested.ne (by rw [h.names_left]; exact hnew)
  refine ⟨?_, ?_, fun n hn => List.mem_cons_of_mem _ (h.failed n hn),
    (nestedWritten_nil p [y] s).append h.nested, List.forall_mem_cons.2 ⟨?_, h.settles⟩, ?_, ?_⟩
  · rw [rollBack_cons_of_not_mem fun hn => hnew (hname ▸ h.failed _ hn), h.back, List.map_cons]
  · rw [names_cons, names_cons, hname, h.written]
  · exact (settles_of_not_pending hx hidle s.files).before h.nested.lists hne (.refl s.files)
  · rw [List.map_cons, ← h.taken]
  · rw [List.map_cons, ← h.left]

/-- A pending class before all the others. -/
theorem tried {s₁ : State} {z : Artifact} {o : Outcome} {done : Bool}
    (h : WritesAll p all taken lefts s₁ ms written failed s')
    (hx : x.defrost.clearModified.Opens opened y) (hnew : x.name ∉ names taken)
    (hfind : all.find? (·.name == x.name) = some x.defrost.clearModified)
    (hpending : State.isPending p y = true) (hone : WritesOne p s y done z o s₁) :
    WritesAll p all (x :: taken) (y :: lefts) s
      (⟨x, opened, y, if done then z else x.defrost.clearModified, some o⟩ :: ms) (z :: written)
      (if done then failed else y.name :: failed) s' := by
  have hname : y.name = x.name := hx.name
  obtain ⟨hsame, hnested⟩ := hone.spec
  have hz : z.name = x.name := hsame.name.trans hname
  have hne := h.nested.ne (by rw [h.names_left]; exact hnew)
  refine ⟨?_, ?_, ?_, hnested.append h.nested, List.forall_mem_cons.2 ⟨?_, fun m hm => ?_⟩, ?_, ?_⟩
  · rw [hname, ← hz, List.map_cons, ← h.back]
    exact rollBack_cons done (by rw [hz]; exact hfind) (by rw [h.written, hz]; exact hnew)
      (by rw [h.written]; exact h.failed)
  · rw [names_cons, names_cons, hz, h.written]
  · rw [hname]
    cases done with
    | true => exact fun n hn => List.mem_cons_of_mem _ (h.failed n hn)
    | false => exact List.cons_subset_cons x.name h.failed
  · exact (settles_of_writesOne hx hpending hone).before h.nested.lists hne hnested.lists.settled
  · refine (h.settles m hm).behind hnested.lists (hnested.ne fun hin => hnew ?_)
    have hsame : m.name = y.name := List.mem_singleton.1 hin
    rw [← hname, ← hsame, h.taken]
    exact Companion.name_mem hm
  · rw [List.map_cons, ← h.taken]
  · rw [List.map_cons, ← h.left]

end WritesAll

theorem writesAll_writePending {all taken lefts written : List Artifact} {failed : List ClassName}
    (hopens : List.Forall₂ (fun x y => ∃ opened, x.defrost.clearModified.Opens opened y)
      taken lefts)
    (hall : ∀ x ∈ taken, all.find? (·.name == x.name) = some x.defrost.clearModified)
    (hdistinct : (names taken).Nodup)
    (h : State.writePending p lefts s = (written, failed, s')) :
    ∃ ms, WritesAll p all taken lefts s ms written failed s' := by
  induction hopens generalizing s written failed with
  | nil =>
    cases h
    exact ⟨[], .nil p all _⟩
  | @cons x y taken lefts hxy _ ih =>
    obtain ⟨opened, hxy⟩ := hxy
    obtain ⟨hfind, hall⟩ := List.forall_mem_cons.1 hall
    rw [names_cons, List.nodup_cons] at hdistinct
    rw [State.writePending] at h
    split at h
    · rename_i hpending
      rcases hone : s.writeOne p y with ⟨done, z, s₁⟩
      rcases hrest : State.writePending p lefts s₁ with ⟨written', failed', s₂⟩
      rw [hone] at h
      dsimp only at h
      rw [hrest] at h
      cases h
      obtain ⟨o, hone⟩ := writesOne hone
      obtain ⟨ms, hms⟩ := ih hall hdistinct.2 hrest
      exact ⟨_, hms.tried hxy hdistinct.1 hfind hpending hone⟩
    · rename_i hidle
      rcases hrest : State.writePending p lefts s with ⟨written', failed', s₂⟩
      rw [hrest] at h
      cases h
      obtain ⟨ms, hms⟩ := ih hall hdistinct.2 hrest
      exact ⟨_, hms.passed hxy hdistinct.1 hidle⟩

/-- The classes inside a transformed one are written, or put back to what they were, and are
held in the same order as before. -/
theorem writeNested_settles {d a' : Artifact} (honce : a.HoldsEachOnce) (hname : d.name = a.name)
    (hopens : List.Forall₂ (fun x y => ∃ opened, Artifact.Opens x opened y)
      (State.prepare a).nested d.nested)
    (h : s.writeNested p (State.prepare a) d = (a', s')) :
    ∃ ms : List Companion, a.nested = ms.map (·.taken) ∧ d.nested = ms.map (·.left) ∧
      a' = { d with nested := ms.map (·.kept) } ∧
      NestedWritten p d.nested s (ms.filterMap (·.outcome)) s' ∧
      ∀ m ∈ ms, m.Settles p s.files s'.files := by
  have hdistinct : (names a.nested).Nodup := honce.distinct
  have hprepared : names (State.prepare a).nested = names a.nested :=
    (unedited_prepare a).memberNames
  have hall : ∀ x ∈ a.nested, (State.prepare a).nested.find? (·.name == x.name) =
      some x.defrost.clearModified := fun x hx =>
    find?_of_mem (q := x.defrost.clearModified) (hprepared ▸ hdistinct) (List.mem_map_of_mem hx)
  rw [State.prepare, List.forall₂_map_left_iff] at hopens
  unfold State.writeNested at h
  rcases hpend : State.writePending p d.nested s with ⟨written, failed, s₁⟩
  rw [hpend] at h
  dsimp only at h
  obtain ⟨ms, hback, -, -, hos, hms, htaken, hleft⟩ :=
    writesAll_writePending hopens hall hdistinct hpend
  have hkept : names (ms.map (·.kept)) = names a.nested := by
    rw [htaken]
    exact Companion.names_map fun m hm => (hms m hm).name.2
  split at h
  · rename_i hnone
    cases h
    rw [List.isEmpty_iff.1 hnone, rollBack_nil] at hback
    rw [hback]
    exact ⟨ms, htaken, hleft, rfl, hos, hms⟩
  · cases h
    refine ⟨ms, htaken, hleft, ?_, hos, hms⟩
    rw [hback, attachAll_eq]
    · rfl
    · intro n hn
      rw [hkept] at hn
      obtain ⟨m, hm, rfl⟩ := mem_names.1 hn
      rw [show d.withoutNested.name = a.name from hname]
      exact honce.members m hm
    · show ([] ++ names _).Nodup
      rw [List.nil_append, hkept]
      exact hdistinct

/-! ## The step -/

/-- A step wrote the class, and dealt with those inside it: they are brought back with it in
the order in which they were taken out, each as it was settled, and nothing of this depends on
what became of the others. -/
structure Propagates (p : Pass) (n : ClassName) (s : State) (a b d : Artifact)
    (file : WrittenFile) (ms : List Companion) (s' : State) : Prop where
  taken : a.nested = ms.map (·.taken)
  left : b.nested = ms.map (·.left)
  settles : ∀ m ∈ ms, m.Settles p s.files s'.files
  back : ∃ between, s' = State.giveBack between { d with nested := ms.map (·.kept) }
  memory : ∀ m ∈ ms, s'.context.cache.get? m.name = some m.kept
  self : s'.context.cache.get? n = some d.withoutNested
  declares : d.classFile.Declares p.stamp.field
  written : ∃ bytes, d.classFile.toBytes = .ok bytes ∧ d.frozen = some bytes ∧
    s'.files.read (p.output.pathFor n) = .ok bytes
  outcomes : s'.report.outcomes =
    s.report.outcomes ++ p.success n file :: ms.filterMap (·.outcome)
  lists : Lists p.output s.files (p.success n file :: ms.filterMap (·.outcome)) s'.files

theorem propagates_of_transforms {c d : Artifact} {context : Context} {file : WrittenFile}
    {log : List Event} (hself : a.name = n) (ha : a.HoldsEachOnce)
    (hp : p.transformer.OnlyOpens) (h : Transforms p n s a b c d context file files)
    (heq : State.transform p n s =
      let (a', s') := (s.transformed p n context file files log).writeNested p (State.prepare a) d
      s'.giveBack a') :
    ∃ ms, Propagates p n s a b d file ms (State.transform p n s) := by
  obtain ⟨hname, hopens⟩ := hp _ b h.applied
  rw [← h.same.nested] at hopens
  have hc : c.name = n := h.same_stamped.name.trans (hname.trans hself)
  have hd : d.name = n := h.same.name.trans (hname.trans hself)
  rcases hnested : (s.transformed p n context file files log).writeNested p (State.prepare a) d
    with ⟨a', s'⟩
  obtain ⟨ms, htaken, hleft, rfl, hos, hms⟩ :=
    writeNested_settles ha (hd.trans hself.symm) hopens hnested
  rw [heq, hnested]
  have hhead : Lists p.output s.files [p.success n file] files :=
    .of_write h.written hc.symm (.inl rfl) rfl rfl
  have hmember : n ∉ names (ms.map (·.taken)) := by
    rw [← htaken]
    intro hn
    obtain ⟨x, hx, hxn⟩ := mem_names.1 hn
    exact isImmediateMemberOf_ne (ha.members x hx) (hxn.trans hself.symm)
  have hne : ∀ m ∈ ms, m.name ≠ n := fun m hm he => hmember (he ▸ Companion.name_mem hm)
  have hdistinct : (names (ms.map (·.kept))).Nodup := by
    rw [Companion.names_map fun m hm => (hms m hm).name.2, ← htaken]
    exact ha.distinct
  obtain ⟨bytes, hadd, hencode, hbytes, -⟩ := stamp_write_eq_ok h.stamped h.written
  refine ⟨ms, htaken, h.same.nested.symm.trans hleft, fun m hm => ?_, ⟨s', rfl⟩, fun m hm => ?_,
    ?_, ?_, ?_, ?_, hhead.append hos.lists⟩
  · refine (hms m hm).behind hhead fun o ho he => hne m hm ?_
    rw [← he, List.mem_singleton.1 ho]
    rfl
  · rw [← (hms m hm).name.2]
    refine Context.get?_restore_nested hdistinct (List.mem_map_of_mem hm) ?_
    rw [(hms m hm).name.2]
    exact fun he => hne m hm (he.trans hd)
  · rw [← hd]
    exact Context.get?_restore s'.context { d with nested := ms.map (·.kept) }
  · exact declares_of_encoded hadd hencode
  · obtain ⟨bytes', hbytes', hfrozen, -, -, hread, -⟩ := Output.write_eq_ok h.written
    cases hbytes.symm.trans hbytes'
    rw [hc] at hread
    refine ⟨bytes, hencode, by rw [hfrozen], ?_⟩
    refine FileTree.read_of_settled_of_fileAt? hos.lists.settled
      (hos.lists.fileAt?_of_ne (hos.ne ?_)) hread
    rw [hleft, Companion.names_map fun m hm => (hms m hm).name.1]
    exact hmember
  · show s'.report.outcomes = _
    rw [hos.report, List.append_cons]
    rfl

section Runs

variable {config : Config} {transformers : List Transformer} {ambient : List Path}

/-- At every moment of a run, for any class that holds each class once when it is taken out
and any transformer that only opens what is inside a class: if the step notes that a class
was written, then what is inside the class that it is for is stamped and written exactly as
far as the transformer opened it and it does not carry the stamp. -/
theorem opened_are_written (hs : s ∈ moments State.transform config transformers ambient files)
    (honce : ∀ a context, Context.checkout s.files n s.context = .ok a context → a.HoldsEachOnce)
    (hp : p.transformer.OnlyOpens) {o : Outcome}
    (ho : o ∈ (State.transform p n s).report.outcomes.drop s.report.outcomes.length)
    (hwritten : o.state = .written) :
    ∃ a b c d context file files' ms, Transforms p n s a b c d context file files' ∧
      Propagates p n s a b d file ms (State.transform p n s) := by
  rcases transform_cases p n s with ⟨o', h⟩ | ⟨a, b, c, d, context, file, files', log, h, heq⟩
  · have hreport : (State.transform p n s).report.outcomes = s.report.outcomes ++ [o'] := by
      rw [h.report]
      rfl
    rw [hreport, List.drop_left, List.mem_singleton] at ho
    rw [ho] at hwritten
    exact absurd hwritten h.idle.not_written
  · have hself := name_of_checkout hs h.taken
    obtain ⟨ms, hms⟩ := propagates_of_transforms hself (honce a context h.taken) hp h heq
    exact ⟨a, b, c, d, context, file, files', ms, h, hms⟩

end Runs

/-! ## Two transformers that open different classes -/

open Classpath.Context (answer innerName outerName)
open Transformer (opener)

theorem opener_onlyOpens (identity : String) (opened : List ClassName) :
    (opener identity opened).OnlyOpens := by
  intro a b h
  cases h
  refine ⟨rfl, ?_⟩
  show List.Forall₂ _ a.nested (a.nested.map _)
  rw [List.forall₂_map_right_iff]
  refine List.forall₂_same.2 fun m _ => ?_
  split
  · exact ⟨true, .again _ (.never m)⟩
  · exact ⟨false, .never m⟩

/-- The transformer that opens the first class, and the one that opens the two others. -/
def openers : List Transformer :=
  [opener "first" [innerName], opener "second" [stuckName, spareName]]

/-- The pass of the second transformer. -/
def secondPass : Pass :=
  { position := 1, transformer := opener "second" [stuckName, spareName], output := ⟨⟨"out"⟩⟩ }

/-- The moments of the run. -/
def openersMoments : List State := moments State.transform stuckConfig openers [] stuckFiles

/-- The moment between the two steps. -/
def betweenOpeners : State := openersMoments[1]?.getD (.start stuckFiles (.ofEntries []))

/-- What the second step begins with, and what it adds to the report. -/
theorem second_step :
    betweenOpeners.report.outcomes.length = 2 ∧
    (answer (Context.checkout betweenOpeners.files outerName betweenOpeners.context)).map
        (fun a => a.nested.map fun m => (m.name, m.isModified)) =
      .ok [(innerName, true), (stuckName, false), (spareName, false)] ∧
    ((State.transform secondPass outerName betweenOpeners).report.outcomes.drop 2).map
        (fun o => (o.name, o.state)) =
      [(outerName, .written), (stuckName, .failed .write), (spareName, .written)] := by
  decide +kernel

theorem betweenOpeners_mem : betweenOpeners ∈ openersMoments := by
  have hlength := second_step.1
  unfold betweenOpeners at hlength ⊢
  cases hs : openersMoments[1]? with
  | none =>
    rw [hs] at hlength
    cases hlength
  | some s => exact List.mem_of_getElem? hs

/-- In the second step the class that only the first transformer opened is not written,
though it still counts as modified, and one of the two others is put back. -/
theorem second_opener_writes :
    ∃ a b d file ms, Propagates secondPass outerName betweenOpeners a b d file ms
        (State.transform secondPass outerName betweenOpeners) ∧
      ms.map (fun m => (m.name, m.taken.isModified)) =
        [(innerName, true), (stuckName, false), (spareName, false)] ∧
      (ms.filterMap (·.outcome)).map (fun o => (o.name, o.state)) =
        [(stuckName, .failed .write), (spareName, .written)] := by
  obtain ⟨hlength, hmembers, hnew⟩ := second_step
  have hkeeps : ∀ t ∈ openers, t.KeepsRegular := by
    intro t ht
    rcases List.mem_pair.1 ht with rfl | rfl
    · exact (opener_onlyOpens _ _).keepsRegular
    · exact (opener_onlyOpens _ _).keepsRegular
  obtain ⟨o, rest, hdrop, ho, -⟩ := List.map_eq_cons_iff.1 hnew
  have hfirst : o ∈ (State.transform secondPass outerName betweenOpeners).report.outcomes.drop
      betweenOpeners.report.outcomes.length := by
    rw [hlength, hdrop]
    exact List.mem_cons_self
  obtain ⟨a, b, c, d, context, file, files', ms, h, hms⟩ :=
    opened_are_written betweenOpeners_mem
      (fun _ _ => holdsEachOnce_of_checkout hkeeps betweenOpeners_mem) (opener_onlyOpens _ _) hfirst
      (Prod.mk.inj ho).2
  refine ⟨a, b, d, file, ms, hms, ?_, ?_⟩
  · rw [h.taken] at hmembers
    have htaken := Except.ok.inj hmembers
    dsimp only at htaken
    rw [hms.taken, List.map_map] at htaken
    exact htaken
  · rw [hms.outcomes, List.drop_left' hlength, List.map_cons] at hnew
    exact (List.cons.inj hnew).2

/-! ## Classes further inside, and classes that do not belong inside -/

/-- The name of a class inside `Outer$Inner`. -/
def deepName : ClassName :=
  ⟨"Outer$Inner$Deep", by constructor <;> simp [Text.split, ClassName.isForbidden]⟩

/-- A directory with `Outer`, the class inside it in some directory, and a directory in the
place of the results for another class. -/
def nestedFiles (inner : Path) : FileTree :=
  let outer : Fixture := { Fixture.ofName outerName with nested := [innerName] }
  let found := leaves ((Fixture.ofName innerName).writeTo inner) (.empty ["work"])
  let classes := leaves (outer.writeTo ⟨"classes"⟩) found
  let lib := leaves (FileTree.createDirectories ⟨"lib"⟩) classes
  leaves (FileTree.createDirectories ⟨"out/Outer$Stuck.class"⟩) lib

/-- A transformer that changes what is inside `Outer`. -/
def changer (identity : String) (change : Artifact → Artifact) : Transformer where
  identity
  shouldTransform _ := .ok true
  apply a := .ok () (if a.name = outerName then { a with nested := a.nested.map change } else a)

/-- Opens the first class that the artifact holds. -/
def openFirst (a : Artifact) : Artifact :=
  let spec := FieldSpec.booleanConstant "late" .staticFlag true
  match a.nested[0]? with
  | none => a
  | some m =>
    { a with nested := a.nested.set 0 (leaves (Artifact.edit (ClassFile.addField spec)) m) }

theorem openFirst_onlyOpens (identity : String) : (changer identity openFirst).OnlyOpens := by
  intro a b h
  cases h
  by_cases houter : a.name = outerName
  · rw [if_pos houter]
    refine ⟨rfl, ?_⟩
    show List.Forall₂ _ a.nested (a.nested.map _)
    rw [List.forall₂_map_right_iff]
    refine List.forall₂_same.2 fun m _ => ⟨false, ?_⟩
    unfold openFirst
    cases hfirst : m.nested[0]? with
    | none => exact .never m
    | some k => exact .inside (.never m) hfirst (.again _ (.never k))
  · rw [if_neg houter]
    exact ⟨rfl, List.forall₂_same.2 fun m _ => ⟨false, .never m⟩⟩

/-- Takes a class in. -/
def takeDeep (a : Artifact) : Artifact := leaves (Artifact.attachNested (Artifact.bare deepName)) a

/-- Holds two classes that belong into `Outer` in the place of its own. -/
def holdStrays (a : Artifact) : Artifact :=
  { a with nested := [Artifact.bare stuckName, Artifact.bare spareName] }

/-- The pass of one of the two transformers. -/
def changerPass (position : Nat) (t : Transformer) : Pass :=
  { position, transformer := t, output := ⟨⟨"out"⟩⟩ }

/-- A run of which the first pass finds certain files, behind that pass. -/
def behindChanger (files : FileTree) (t : Transformer) (found : List (String × Bool)) : State :=
  found.foldl (visitEntry State.files (State.transform (changerPass 0 t)) ⟨"classes"⟩)
    (.start files (.ofEntries (stuckConfig.entries ⟨"classes"⟩ [])))

theorem behindChanger_mem_moments {files : FileTree} {found : List (String × Bool)}
    {t t' : Transformer} (hfound : kinds files ⟨"classes"⟩ = some found)
    (horder : found.Pairwise fun e e' => ¬ e'.1 < e.1)
    (hclasses : files.isDirectory ⟨"classes"⟩ = true) (hlib : files.isDirectory ⟨"lib"⟩ = true)
    (hout : files.isDirectory ⟨"out"⟩ = true) :
    behindChanger files t found ∈ moments State.transform stuckConfig [t, t'] [] files := by
  have houtput : stuckConfig.outputDirectory?.getD ⟨"classes"⟩ = ⟨"out"⟩ := by decide +kernel
  have hsetup : setUp stuckConfig [t, t'] [] files = .ok (some {
      input := ⟨"classes"⟩, output := ⟨⟨"out"⟩⟩
      context := .ofEntries (stuckConfig.entries ⟨"classes"⟩ []) }) files := by
    rw [← houtput]
    have hchecks : ∀ e ∈ stuckConfig.entries ⟨"classes"⟩ [], e.check files = .ok () :=
      Config.check_entries hclasses (List.forall_mem_singleton.2 hlib)
    refine setUp_of_directories (List.cons_ne_nil t [t']) rfl hclasses hchecks fun output h => ?_
    cases h
    exact hout
  have hpasses : passes [t, t'] ⟨⟨"out"⟩⟩ = [changerPass 0 t, changerPass 1 t'] := rfl
  have hmem := behindFirstPass_mem_moments State.transform hsetup hpasses hclasses hfound horder
  exact hmem

/-- The moment before the second transformer acts on `Outer`. -/
def beforeDeep : State :=
  behindChanger (nestedFiles ⟨"lib"⟩) (changer "first" takeDeep) [("Outer.class", false)]

/-- What the step has to do with the class further inside. -/
theorem deep_step :
    let p := changerPass 1 (changer "second" openFirst)
    beforeDeep.report.outcomes.length = 1 ∧
    (answer (Context.checkout beforeDeep.files outerName beforeDeep.context)).map (fun a =>
        ((State.prepare a).nested.map fun m => m.nested.map fun k => (k.name, k.isModified),
          (leaves p.transformer.apply (State.prepare a)).nested.map fun m =>
            m.nested.map fun k => (k.name, k.isModified, p.stamp.isPresent k))) =
      .ok ([[(deepName, false)]], [[(deepName, true, false)]]) ∧
    ((State.transform p outerName beforeDeep).report.outcomes.drop 1).map
      (fun o => (o.name, o.state)) = [(outerName, .written)] := by
  decide +kernel

/-- The moment before the second transformer acts on `Outer$Inner`. -/
def beforeStray : State :=
  behindChanger (nestedFiles ⟨"classes"⟩) (changer "first" holdStrays)
    [("Outer$Inner.class", false), ("Outer.class", false)]

/-- What the step begins with, and what it leaves. -/
theorem stray_step :
    let p := changerPass 1 (opener "second" [stuckName])
    beforeStray.report.outcomes.length = 2 ∧
    (answer (Context.checkout beforeStray.files innerName beforeStray.context)).map
        (fun a => names a.nested) = .ok [stuckName, spareName] ∧
    ((State.transform p innerName beforeStray).report.outcomes.drop 2).map
      (fun o => (o.name, o.state)) = [(innerName, .written), (stuckName, .failed .write)] ∧
    (State.transform p innerName beforeStray).context.cache.get? stuckName = none ∧
    (State.transform p innerName beforeStray).context.cache.get? spareName = none := by
  decide +kernel

theorem exists_of_answer {ε σ α β : Type} {r : EStateM.Result ε σ α} {f : α → β} {y : β}
    (h : (answer r).map f = .ok y) : ∃ a s, r = .ok a s ∧ f a = y := by
  cases r with
  | error e s => cases h
  | ok a s => exact ⟨a, s, rfl, Except.ok.inj h⟩

/-- A class further inside that a transformer opened is not written, though the step wrote the
class around it. And if an earlier transformer put two classes where they do not belong, and
one of them could not be written after it was opened, then neither is brought back. -/
theorem deep_and_stray_missed :
    (∃ s ∈ moments State.transform stuckConfig
        [changer "first" takeDeep, changer "second" openFirst] [] (nestedFiles ⟨"lib"⟩),
      let p := changerPass 1 (changer "second" openFirst)
      p.transformer.OnlyOpens ∧ ∃ a context b,
        Context.checkout s.files outerName s.context = .ok a context ∧
        p.transformer.apply (State.prepare a) = .ok () b ∧
        ((State.prepare a).nested.map fun m => m.nested.map fun k => (k.name, k.isModified)) =
          [[(deepName, false)]] ∧
        (b.nested.map fun m => m.nested.map fun k =>
          (k.name, k.isModified, p.stamp.isPresent k)) = [[(deepName, true, false)]] ∧
        ((State.transform p outerName s).report.outcomes.drop s.report.outcomes.length).map
          (fun o => (o.name, o.state)) = [(outerName, .written)]) ∧
    ∃ s ∈ moments State.transform stuckConfig
        [changer "first" holdStrays, opener "second" [stuckName]] [] (nestedFiles ⟨"classes"⟩),
      let p := changerPass 1 (opener "second" [stuckName])
      p.transformer.OnlyOpens ∧ ∃ a context,
        Context.checkout s.files innerName s.context = .ok a context ∧
        names a.nested = [stuckName, spareName] ∧
        ((State.transform p innerName s).report.outcomes.drop s.report.outcomes.length).map
          (fun o => (o.name, o.state)) = [(innerName, .written), (stuckName, .failed .write)] ∧
        (State.transform p innerName s).context.cache.get? stuckName = none ∧
        (State.transform p innerName s).context.cache.get? spareName = none := by
  have hdeep : beforeDeep ∈ moments State.transform stuckConfig
      [changer "first" takeDeep, changer "second" openFirst] [] (nestedFiles ⟨"lib"⟩) :=
    behindChanger_mem_moments (by decide +kernel) (by decide) (by decide +kernel)
      (by decide +kernel) (by decide +kernel)
  have hstray : beforeStray ∈ moments State.transform stuckConfig
      [changer "first" holdStrays, opener "second" [stuckName]] [] (nestedFiles ⟨"classes"⟩) :=
    behindChanger_mem_moments (by decide +kernel) (by decide) (by decide +kernel)
      (by decide +kernel) (by decide +kernel)
  refine ⟨⟨beforeDeep, hdeep, openFirst_onlyOpens "second", ?_⟩, beforeStray, hstray,
    opener_onlyOpens "second" [stuckName], ?_⟩
  · obtain ⟨hlength, htaken, hnew⟩ := deep_step
    obtain ⟨a, context, htaken, hmaps⟩ := exists_of_answer htaken
    obtain ⟨hgiven, hleft⟩ := Prod.mk.inj hmaps
    rw [hlength]
    exact ⟨a, context, _, htaken, rfl, hgiven, hleft, hnew⟩
  · obtain ⟨hlength, htaken, hnew, hstuck, hspare⟩ := stray_step
    obtain ⟨a, context, htaken, hnames⟩ := exists_of_answer htaken
    rw [hlength]
    exact ⟨a, context, htaken, hnames, hnew, hstuck, hspare⟩

end Run

end ClassStamp
