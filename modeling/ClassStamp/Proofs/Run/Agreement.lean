import Mathlib.Logic.Relation
import ClassStamp.Proofs.Classpath.Independence
import ClassStamp.Proofs.Run.Exits
import ClassStamp.Proofs.Run.History

/-!
# Memory and disk

Between two steps of a run of additive transformers, a class in memory is what
its file says, with one exception: what a transformer does to a class inside
the one that it acts on stays in memory alone if that class carries its stamp.

* `OnDisk`: the class file that the files have for a class, and `Slips`: the
  exception;
* `Synced`: every class in memory or taken out is backed by the files;
* `synced_transform`: a step keeps it;
* `memory_agrees_with_disk`: what holds at every moment of a run, and
  `late_field_in_memory_only`: the exception happens.
-/

namespace ClassStamp.Run

open ClassFile (Grows)
open Classpath (Context Entry firstFound)
open FileTree (SameFiles)
open Relation (ReflTransGen)

/-! ## What the files have -/

/-- The class file that the files of a run have for a class: the one that it was
written as, or if the run has not written it, the one that it was read as at an
earlier moment. -/
structure OnDisk (output : Output) (entries : List Entry) (past : List State) (s : State)
    (n : ClassName) (c : ClassFile) : Prop where
  written : (∃ o ∈ s.report.outcomes, o.Writes n) →
    ∃ bytes, s.files.read (output.pathFor n) = .ok bytes ∧ ClassFile.parse bytes = .ok c
  unwritten : (∀ o ∈ s.report.outcomes, ¬ o.Writes n) →
    ∃ t ∈ past, ∃ found, firstFound (Entry.load t.files n) entries = .ok (some found) ∧
      ClassFile.parse found.content = .ok c

/-- In the step that began at an earlier moment, a transformer acted on a class, which
was written then, and edited a class inside it that carries the stamp of the
transformer in the end. -/
inductive Slips (transformers : List Transformer) (past : List State) (os : List Outcome)
    (n : ClassName) : ClassFile → ClassFile → Prop
  | intro {t : Transformer} {m : State} {a b x y : Artifact} {context : Context} {o : Outcome}
    (among : t ∈ transformers) (earlier : m ∈ past)
    (taken : Context.checkout m.files a.name m.context = .ok a context)
    (applied : t.apply (State.prepare a) = .ok () b)
    (inside : (x, y) ∈ (State.prepare a).nested.zip b.nested) (name : y.name = n)
    (stamped : t.stamp.isPresent y = true)
    (reported : o ∈ os) (written : o.Writes a.name) (identity : o.transformer = t.identity) :
    Slips transformers past os n x.classFile y.classFile

/-- The class file goes back to the files, except for slips. -/
structure Backed (g : Outset) (transformers : List Transformer) (past : List State) (s : State)
    (n : ClassName) (c : ClassFile) : Prop where
  paired : c.pool.Paired
  origin : ∃ d, OnDisk g.output g.entries past s n d ∧
    ReflTransGen (Slips transformers past s.report.outcomes n) d c

variable {g : Outset} {transformers : List Transformer} {past : List State} {s s' : State}
  {p : Pass} {n : ClassName} {c d : ClassFile} {a b q x y : Artifact}
  {held before after : List Artifact}

theorem Slips.mono {past' : List State} {os os' : List Outcome} (hpast : past ⊆ past')
    (hos : os ⊆ os') (h : Slips transformers past os n c d) :
    Slips transformers past' os' n c d := by
  cases h with
  | intro among earlier taken applied inside name stamped reported written identity =>
    exact .intro among (hpast earlier) taken applied inside name stamped (hos reported) written
      identity

theorem reflTransGen_slips_mono {past' : List State} {os os' : List Outcome}
    (hpast : past ⊆ past') (hos : os ⊆ os')
    (h : ReflTransGen (Slips transformers past os n) c d) :
    ReflTransGen (Slips transformers past' os' n) c d :=
  ReflTransGen.mono (fun _ _ => Slips.mono hpast hos) _ _ h

namespace Backed

/-- What is not written stays backed. -/
theorem advance (h : Backed g transformers past s n c) {os : List Outcome}
    (hreport : s'.report.outcomes = s.report.outcomes ++ os) (hos : ∀ o ∈ os, ¬ o.Writes n)
    (hread : ∀ bytes, s.files.read (g.output.pathFor n) = .ok bytes →
      s'.files.read (g.output.pathFor n) = .ok bytes) : Backed g transformers past s' n c := by
  obtain ⟨d, hd, hslips⟩ := h.origin
  refine ⟨h.paired, d, ⟨fun hw => ?_, fun hn => hd.unwritten fun o ho => ?_⟩, ?_⟩
  · rw [hreport] at hw
    obtain ⟨o, ho, hw⟩ := hw
    have hold := (List.mem_append.1 ho).resolve_right fun ho => hos o ho hw
    obtain ⟨bytes, hbytes, hparse⟩ := hd.written ⟨o, hold, hw⟩
    exact ⟨bytes, hread bytes hbytes, hparse⟩
  · rw [hreport] at hn
    exact hn o (List.mem_append_left os ho)
  · rw [hreport]
    exact reflTransGen_slips_mono (List.Subset.refl past) (List.subset_append_left _ os) hslips

theorem congr (h : Backed g transformers past s n c) (hreport : s'.report = s.report)
    (hfiles : s'.files = s.files) : Backed g transformers past s' n c := by
  have hsame : s'.report.outcomes = s.report.outcomes ++ [] := by rw [hreport, List.append_nil]
  refine h.advance hsame (fun o ho => (nomatch ho)) fun _ hread => ?_
  rw [hfiles]
  exact hread

/-- Nothing is written. -/
theorem idle (h : Backed g transformers past s n c) {o : Outcome}
    (hreport : s'.report.outcomes = s.report.outcomes ++ [o]) (ho : o.state ≠ .written)
    (hfiles : SameFiles s.files s'.files) : Backed g transformers past s' n c :=
  h.advance hreport (fun _ hmem hw => ho (List.mem_singleton.1 hmem ▸ hw.2)) fun _ hread =>
    FileTree.read_of_settled_of_fileAt? hfiles.toSettled (hfiles.contents _) hread

theorem later (h : Backed g transformers past s n c) (t : State) :
    Backed g transformers (past ++ [t]) s n c := by
  obtain ⟨d, hd, hslips⟩ := h.origin
  refine ⟨h.paired, d, ⟨hd.written, fun hn => ?_⟩, ?_⟩
  · obtain ⟨t', ht', hfound⟩ := hd.unwritten hn
    exact ⟨t', List.mem_append_left [t] ht', hfound⟩
  · exact reflTransGen_slips_mono (List.subset_append_left past [t]) (List.Subset.refl _) hslips

theorem slip (h : Backed g transformers past s n c)
    (hslip : Slips transformers past s.report.outcomes n c d) (hd : d.pool.Paired) :
    Backed g transformers past s n d := by
  obtain ⟨e, he, hslips⟩ := h.origin
  exact ⟨hd, e, he, hslips.tail hslip⟩

/-- A class that is not written yet is read. -/
theorem of_read {context : Context} {t : State} {requested : ClassName}
    (hn : ∀ o ∈ s.report.outcomes, ¬ o.Writes n) (ht : t ∈ past)
    (hentries : context.entries = g.entries) (h : context.read t.files n requested = .ok a) :
    Backed g transformers past s n a.classFile := by
  obtain ⟨found, hfound, hbytes⟩ := Context.read_eq_ok h
  obtain ⟨hparse, -⟩ := Artifact.ofBytes_eq_ok hbytes
  rw [hentries] at hfound
  refine ⟨ClassFile.paired_of_parse hparse, a.classFile,
    ⟨fun ⟨o, ho, hw⟩ => absurd hw (hn o ho), fun _ => ⟨t, ht, found, hfound, hparse⟩⟩, .refl⟩

end Backed

/-- The class file is backed for one class, and whatever was backed for another
one still is. -/
structure Rewritten (g : Outset) (transformers : List Transformer) (past : List State) (s : State)
    (n : ClassName) (c : ClassFile) (s' : State) : Prop where
  backed : Backed g transformers past s' n c
  others : ∀ m d, m ≠ n → Backed g transformers past s m d → Backed g transformers past s' m d

/-! ## What is in memory and taken out -/

/-- Every class in memory and every one that was taken out is backed by the files,
and no class is both. -/
structure Synced (g : Outset) (transformers : List Transformer) (past : List State)
    (held : List Artifact) (s : State) : Prop where
  cached : ∀ n a, s.context.cache.get? n = some a →
    n ∉ names held ∧ Backed g transformers past s n a.classFile
  out : ∀ a ∈ held, Backed g transformers past s a.name a.classFile
  distinct : (names held).Nodup

namespace Synced

/-- Everything that was backed still is. -/
theorem idle (h : Synced g transformers past held s) (hcontext : s'.context = s.context)
    (hbacked : ∀ n c, Backed g transformers past s n c → Backed g transformers past s' n c) :
    Synced g transformers past held s' := by
  refine ⟨fun n a ha => ?_, fun a ha => hbacked _ _ (h.out a ha), h.distinct⟩
  rw [hcontext] at ha
  exact ⟨(h.cached n a ha).1, hbacked _ _ (h.cached n a ha).2⟩

/-- One of the classes that were taken out is another one now. -/
theorem replace (h : Synced g transformers past (before ++ q :: after) s)
    (hcontext : s'.context = s.context) (hname : y.name = q.name)
    (hy : Rewritten g transformers past s q.name y.classFile s') :
    Synced g transformers past (before ++ y :: after) s' := by
  have hnames : names (before ++ y :: after) = names (before ++ q :: after) := names_replace hname
  refine ⟨fun n a ha => ?_, ?_, by rw [hnames]; exact h.distinct⟩
  · rw [hcontext] at ha
    obtain ⟨hnot, hback⟩ := h.cached n a ha
    rw [hnames]
    refine ⟨hnot, hy.others n _ (fun he => hnot ?_) hback⟩
    rw [he]
    exact mem_names.2 ⟨q, List.mem_append_right _ List.mem_cons_self, rfl⟩
  · refine forall_mem_replace h.distinct ?_ fun m hm hne => hy.others _ _ hne (h.out m hm)
    rw [hname]
    exact hy.backed

/-- A class is brought back. -/
theorem giveBack (h : Synced g transformers past (parts a) s)
    (hcontext : s'.context = s.context.restore a)
    (hbacked : ∀ n c, Backed g transformers past s n c → Backed g transformers past s' n c) :
    Synced g transformers past [] s' := by
  refine ⟨fun n b hb => ⟨List.not_mem_nil, hbacked _ _ ?_⟩, fun m hm => (nomatch hm),
    List.nodup_nil⟩
  have hdistinct : (a.name :: a.memberNames).Nodup := h.distinct
  rw [hcontext, Context.get?_restore_eq_some_iff hdistinct] at hb
  rcases hb with ⟨hb, rfl⟩ | ⟨-, hb⟩
  · exact h.out b hb
  · exact (h.cached n b hb).2

/-- The classes that were taken out are alike. -/
theorem alike (h : Synced g transformers past (parts a) s) (hb : Unedited a b) :
    Synced g transformers past (parts b) s := by
  have hnames : names (parts b) = names (parts a) :=
    congrArg₂ List.cons hb.name hb.memberNames
  refine ⟨fun n m hm => ?_, fun m hm => ?_, by rw [hnames]; exact h.distinct⟩
  · rw [hnames]
    exact h.cached n m hm
  · rcases List.mem_cons.1 hm with rfl | hm
    · have hself := h.out a.withoutNested List.mem_cons_self
      change Backed g transformers past s b.name b.classFile
      rw [hb.name, hb.classFile]
      exact hself
    · obtain ⟨x, hx, hxm⟩ := hb.mem hm
      rw [hxm.name, hxm.classFile]
      exact h.out x (List.mem_cons_of_mem _ hx)

/-- A class is taken out. What is read then was not written yet. -/
theorem takeOut (hinv : Inv g [] s) (h : Synced g transformers past [] s) {context : Context}
    (hout : Context.checkout s.files n s.context = .ok a context) :
    Synced g transformers (past ++ [s]) (parts a) { s with context } := by
  have ha := Context.checkout_eq_ok hinv.memory.tidy hout
  have hlater : ∀ n c, Backed g transformers past s n c →
      Backed g transformers (past ++ [s]) { s with context } n c :=
    fun n c hc => (hc.later s).congr rfl rfl
  refine ⟨fun k b hb => ?_, fun b hb => ?_, ha.distinct⟩
  · obtain ⟨hnot, hb⟩ := ha.left hb
    rw [mem_names_parts ha]
    exact ⟨hnot, hlater _ _ (h.cached k b hb).2⟩
  · rcases ha.found b hb with hb | ⟨hnone, hread⟩
    · exact hlater _ _ (h.cached _ b hb).2
    · have hnot := hinv.memory.not_written hnone fun hn => (nomatch hn)
      refine .of_read (fun o ho hw => hnot ⟨o, ?_, hw⟩)
        (List.mem_append_right past (List.mem_singleton_self s)) hinv.memory.entries hread
      change o ∈ s.report.outcomes at ho
      rw [hinv.report] at ho
      exact mem_outcomes.1 ho

end Synced

/-! ## Writing -/

/-- A class that was stamped and written is backed by its file. -/
theorem rewritten_of_write (houtput : p.output = g.output) {file : WrittenFile} {files : FileTree}
    (hc : a.classFile.pool.Paired) (hname : a.name = n) (hstamp : p.stamp.apply a = .ok () b)
    (hwrite : p.output.write (b, s.files) = .ok file (y, files)) {o : Outcome}
    (ho : o.Writes n) (hfiles : s'.files = files)
    (hreport : s'.report.outcomes = s.report.outcomes ++ [o]) :
    Rewritten g transformers past s n y.classFile s' := by
  obtain ⟨bytes, hadd, hbytes, hbbytes, hb, -⟩ := stamp_write_eq_ok hstamp hwrite
  rw [houtput] at hwrite
  have hgrows : Grows (fun _ => True) a.classFile y.classFile :=
    (ClassFile.grows_addField trivial).ok hadd
  have hpaired := hgrows.pool.paired hc
  obtain ⟨bytes', hbytes', -, -, -, hread, -⟩ := Output.write_eq_ok hwrite
  cases hbbytes.symm.trans hbytes'
  have hmem : o ∈ s'.report.outcomes := by
    rw [hreport]
    exact List.mem_append_right _ (List.mem_singleton_self o)
  rw [hb, hname] at hread
  refine ⟨⟨hpaired, y.classFile, ⟨fun _ => ⟨bytes, ?_, ?_⟩, fun hn => ?_⟩, .refl⟩,
    fun m d hne hback => hback.advance hreport (fun o' ho' hw => ?_) fun bytes' hread' => ?_⟩
  · rw [hfiles]
    exact hread
  · exact ClassFile.parse_toBytes hpaired hbytes
  · exact absurd ho (hn o hmem)
  · rw [List.mem_singleton.1 ho'] at hw
    exact hne (hw.1.symm.trans ho.1)
  · rw [hfiles]
    exact Output.read_of_write_of_ne hwrite (by rwa [hb, hname]) hread'

/-- A class inside a transformed one is written, or put back to what it was. -/
theorem writeOne_synced (houtput : p.output = g.output)
    (h : Synced g transformers past (before ++ q :: after) s) (hname : x.name = q.name)
    (hx : Grows (fun _ => True) q.classFile x.classFile) :
    ∃ done y s', s.writeOne p x = (done, y, s') ∧ y.name = x.name ∧
      Synced g transformers past (before ++ (if done then y else q) :: after) s' ∧
      s.report.outcomes ⊆ s'.report.outcomes := by
  have hq := h.out q (List.mem_append_right _ List.mem_cons_self)
  rcases hone : s.writeOne p x with ⟨done, y, s'⟩
  obtain ⟨o, ho⟩ := writesOne hone
  have hy := ho.spec.1.name
  refine ⟨done, y, s', rfl, hy, ?_⟩
  cases ho with
  | unstamped _ =>
    refine ⟨h.idle rfl fun n c hc => ?_, List.subset_append_left _ _⟩
    exact hc.idle rfl (fun hs => nomatch hs) (.refl s.files)
  | unwritten _ hwrite =>
    refine ⟨h.idle rfl fun n c hc => ?_, List.subset_append_left _ _⟩
    exact hc.idle rfl (fun hs => nomatch hs) (Output.write_eq_error hwrite).2
  | written hstamp hwrite =>
    have hpaired : x.defrost.classFile.pool.Paired := hx.pool.paired hq.paired
    refine ⟨h.replace rfl (hy.trans hname) ?_, List.subset_append_left _ _⟩
    exact rewritten_of_write houtput hpaired hname hstamp hwrite ⟨hname, rfl⟩ rfl rfl

/-- The second class is what a transformer made of the first, while it acted on the
class around them. -/
structure LeftBy (a b q x : Artifact) : Prop where
  pair : (q, x) ∈ a.nested.zip b.nested
  edits : Artifact.AddsOpenly (fun _ => True) q x

theorem forall₂_leftBy (h : Artifact.AddsOpenly (fun _ => True) a b) :
    List.Forall₂ (LeftBy a b) a.nested b.nested := by
  obtain ⟨hlength, hpairs⟩ := List.forall₂_iff_zip.1 h.nested
  exact List.forall₂_iff_zip.2 ⟨hlength, fun hmem => ⟨hmem, hpairs hmem⟩⟩

/-- While the classes inside a transformed one are written, everything is backed. A
class that is left as the transformer made it either was not edited, or slips. -/
theorem synced_keptByWriting {t : State} {context : Context} {o : Outcome}
    (houtput : p.output = g.output) (hp : p.transformer ∈ transformers) (ht : t ∈ past)
    (htaken : Context.checkout t.files a.name t.context = .ok a context)
    (happly : p.transformer.apply (State.prepare a) = .ok () b) (ho : o.Writes a.name)
    (hidentity : o.transformer = p.transformer.identity) :
    KeptByWriting p (LeftBy (State.prepare a) b) fun held s =>
      Synced g transformers past held s ∧ o ∈ s.report.outcomes where
  name h := h.edits.adds.with.name
  distinct h := h.1.distinct
  leave := by
    rintro before after q x s ⟨h, hmem⟩ hx hpending
    have hgrows := hx.edits.adds.with.classFile
    have hname := hx.edits.adds.with.name
    have hq := h.out q (List.mem_append_right _ List.mem_cons_self)
    refine ⟨h.replace rfl hname ⟨?_, fun m d _ hm => hm⟩, hmem⟩
    -- the class does not have to be written: nothing was done to it, or it has the stamp already
    cases hmodified : x.isModified with
    | false =>
      rw [hx.edits.classFile_eq hmodified]
      exact hq
    | true =>
      have hpresent : p.transformer.stamp.isPresent x = true := by
        unfold State.isPending at hpending
        rw [hmodified, Bool.true_and, Bool.not_eq_true', Bool.not_eq_false] at hpending
        exact hpending
      exact hq.slip (.intro hp ht htaken happly hx.pair hname hpresent hmem ho hidentity)
        (hgrows.pool.paired hq.paired)
  write := by
    rintro before after q x s ⟨h, hmem⟩ hx -
    obtain ⟨done, y, s', hone, hy, hsynced, hmore⟩ :=
      writeOne_synced houtput h hx.edits.adds.with.name hx.edits.adds.with.classFile
    exact ⟨done, y, s', hone, hy, hsynced, hmore hmem⟩

/-! ## The step -/

/-- A step that comes to nothing keeps memory backed. -/
theorem synced_of_withdraws {o : Outcome} (hinv : Inv g [] s)
    (h : Synced g transformers past [] s) (hw : Withdraws p n s o s') :
    Synced g transformers (past ++ [s]) [] s' := by
  have hreport : s'.report.outcomes = s.report.outcomes ++ [o] := by
    rw [hw.report]
    rfl
  rcases hw.context with ⟨e, hout⟩ | ⟨a, context, b, hout, hb, hcontext⟩
  · obtain ⟨-, hcache⟩ := Context.checkout_eq_error hinv.memory.tidy hout
    refine ⟨fun m a ha => ⟨List.not_mem_nil, ?_⟩, fun m hm => (nomatch hm), List.nodup_nil⟩
    rw [hcache] at ha
    exact ((h.cached m a ha).2.later s).idle hreport hw.idle.not_written hw.files
  · refine ((h.takeOut hinv hout).alike hb).giveBack hcontext fun m c hc => ?_
    exact hc.idle hreport hw.idle.not_written hw.files

/-- The step of a transformer whose edits are additive and count keeps memory
backed. -/
theorem synced_transform (houtput : p.output = g.output) (ht : p.transformer ∈ transformers)
    (hopen : p.transformer.AddsOpenly) (hinv : Inv g [] s)
    (h : Synced g transformers past [] s) (n : ClassName) :
    Synced g transformers (past ++ [s]) [] (State.transform p n s) := by
  rcases transform_cases p n s with
    ⟨o, hw⟩ | ⟨a, b, c, d, context, file, files, log, hsteps, heq⟩
  · exact synced_of_withdraws hinv h hw
  have hout := Context.checkout_eq_ok hinv.memory.tidy hsteps.taken
  obtain rfl := hout.name
  have hprepared : Synced g transformers (past ++ [s])
      ([] ++ (State.prepare a).withoutNested :: (State.prepare a).nested) { s with context } :=
    (h.takeOut hinv hsteps.taken).alike (unedited_prepare a)
  have hedits := hopen _ _ hsteps.applied
  have hadds := hedits.adds
  obtain ⟨bytes, -, -, -, -, hd, hnested, -⟩ := stamp_write_eq_ok hsteps.stamped hsteps.written
  let o : Outcome :=
    { transformer := p.transformer.identity, name := a.name, state := .written, message := none,
      files := [file] }
  let s₁ := s.transformed p a.name context file files log
  have hs : s ∈ past ++ [s] := List.mem_append_right past (List.mem_singleton_self s)
  have hmem : o ∈ s₁.report.outcomes := List.mem_append_right _ (List.mem_singleton_self o)
  have hpaired : b.classFile.pool.Paired :=
    hadds.with.classFile.pool.paired (hprepared.out _ List.mem_cons_self).paired
  have hrewritten : Rewritten g transformers (past ++ [s]) { s with context } a.name d.classFile
      s₁ :=
    rewritten_of_write houtput hpaired hadds.with.name hsteps.stamped hsteps.written
      ⟨rfl, rfl⟩ rfl rfl
  -- only the class itself is written so far; those inside it are still as they were
  have hwritten : Synced g transformers (past ++ [s])
      ([] ++ d.withoutNested :: (State.prepare a).nested) s₁ :=
    hprepared.replace rfl (hd.trans hadds.with.name) hrewritten
  have hmembers : HoldsMembers a := fun m hm => hout.isImmediateMemberOf hm
  have hholds : HoldsMembers (State.prepare a) :=
    hmembers.of_names rfl (unedited_prepare a).memberNames
  have hholds' : HoldsMembers d :=
    (hholds.continues hadds).of_names hd (congrArg names hnested)
  have hleft : List.Forall₂ (LeftBy (State.prepare a) b) (State.prepare a).nested d.nested := by
    rw [hnested]
    exact forall₂_leftBy hedits
  obtain ⟨a', s', hdone, hsynced, -⟩ :=
    writeNested_keeps
      (synced_keptByWriting houtput ht hs hsteps.taken hsteps.applied ⟨rfl, rfl⟩ rfl)
      ⟨hwritten, hmem⟩ hholds' hleft
  rw [heq, hdone]
  exact hsynced.giveBack rfl fun _ _ hc => hc.congr rfl rfl

/-! ## Whole runs -/

section Runs

variable {config : Config} {ambient : List Path} {files : FileTree}

/-- At every moment of a run the invariant holds, and memory is backed. -/
theorem synced_moments (hopen : ∀ t ∈ transformers, t.AddsOpenly) {before after : List State}
    (h : moments State.transform config transformers ambient files = before ++ s :: after) :
    ∃ input, config.inputDirectory? = some input ∧
      let g := Outset.of config transformers ambient files (fun _ => True) input
      Inv g [] s ∧ Synced g transformers before [] s := by
  let P : List State → State → Prop := fun before s =>
    ∃ input, config.inputDirectory? = some input ∧
      let g := Outset.of config transformers ambient files (fun _ => True) input
      Inv g [] s ∧ Synced g transformers before [] s
  refine moments_keep (P := P) (fun setup files' hsetup => ?_)
    (fun setup files' hsetup p hp n before s hs => ?_) h
  · obtain ⟨hsame, hinput, -, hcontext⟩ := setUp_eq_ok hsetup
    rw [hcontext]
    exact ⟨setup.input, hinput, inv_start hsame, fun n a ha => (nomatch ha),
      fun a ha => (nomatch ha), List.nodup_nil⟩
  · obtain ⟨input, hinput, hinv, hsynced⟩ := hs
    obtain ⟨-, -, houtput, -⟩ := setUp_eq_ok hsetup
    rw [Config.classOutput_of_input hinput] at houtput
    obtain ⟨⟨t, i⟩, ht, rfl⟩ := List.mem_map.1 hp
    have hmem := List.fst_mem_of_mem_zipIdx ht
    refine ⟨input, hinput, ?_, synced_transform houtput hmem (hopen t hmem) hinv hsynced n⟩
    exact inv_transform ⟨houtput, (hopen t hmem).additive, hmem⟩ hinv n

/-- At every moment of a run of transformers whose edits are additive and count, a
class in memory is what the files have for it, except for slips. -/
theorem memory_agrees_with_disk (hopen : ∀ t ∈ transformers, t.AddsOpenly)
    {before after : List State}
    (h : moments State.transform config transformers ambient files = before ++ s :: after)
    (ha : s.context.cache.get? n = some a) :
    ∃ input c, config.inputDirectory? = some input ∧
      OnDisk config.classOutput (config.entries input ambient) before s n c ∧
      ReflTransGen (Slips transformers before s.report.outcomes n) c a.classFile := by
  obtain ⟨input, hinput, -, hsynced⟩ := synced_moments hopen h
  obtain ⟨c, hc, hslips⟩ := (hsynced.cached n a ha).2.origin
  refine ⟨input, c, hinput, ?_, hslips⟩
  rw [Config.classOutput_of_input hinput]
  exact hc

end Runs

/-! ## A field that is in memory only -/

open Classpath.Context (innerName outerName)

/-- The field that is added late. -/
def lateField : FieldSpec := .booleanConstant "late" .staticFlag true

/-- A transformer that adds a field to the first class inside the one that it acts
on. -/
def latecomer : Transformer where
  identity := "latecomer"
  shouldTransform _ := .ok true
  apply := do
    let _ ← Artifact.within [0]
      (Transformer.onArtifact (Artifact.edit (ClassFile.addField lateField)))

theorem latecomer_addsOpenly : latecomer.AddsOpenly := by
  intro a b h
  obtain ⟨r, c, hwithin, hc⟩ := estate_bind_eq_ok h
  cases hc
  unfold Artifact.within at hwithin
  cases hn : a.nested[0]? with
  | none =>
    rw [hn] at hwithin
    cases hwithin
    exact .refl a
  | some n =>
    rw [hn] at hwithin
    dsimp only at hwithin
    split at hwithin <;> cases hwithin
    rename_i n' hact
    obtain ⟨u, n'', hedit, hn'⟩ := estate_bind_eq_ok hact
    cases hn'
    rw [← leaves_of_ok (Transformer.onArtifact_eq_ok hedit)]
    exact .inside (.refl a) hn (.edit (.addField lateField trivial) (.refl n))

/-- A directory with the class `Outer`, and another one with `Outer$Inner`, which
carries the stamp of the transformer. -/
def stampedFiles : FileTree :=
  let outer : Fixture := { Fixture.ofName outerName with nested := [innerName] }
  let inner : Fixture := { Fixture.ofName innerName with fields := [latecomer.stamp.field] }
  leaves (do outer.writeTo ⟨"classes"⟩; inner.writeTo ⟨"lib"⟩) (.empty ["work"])

/-- A run over the first directory, with the other one on the classpath. -/
def stampedConfig : Config := { Config.new ⟨"classes"⟩ with classpath := [⟨"lib"⟩] }

/-- The moments of the run. -/
def latecomerMoments : List State :=
  moments State.transform stampedConfig [latecomer] [] stampedFiles

theorem length_latecomerMoments : latecomerMoments.length = 2 := by decide +kernel

/-- The moment behind the only step. -/
def behindOuter : State :=
  latecomerMoments.get ⟨1, by rw [length_latecomerMoments]; decide⟩

theorem latecomerMoments_eq : latecomerMoments = latecomerMoments.take 1 ++ behindOuter :: [] := by
  have hlast : latecomerMoments.drop 2 = [] :=
    List.drop_eq_nil_of_le (Nat.le_of_eq length_latecomerMoments)
  have hdrop : latecomerMoments.drop 1 = behindOuter :: latecomerMoments.drop 2 :=
    List.drop_eq_getElem_cons _
  rw [← hlast, ← hdrop, List.take_append_drop]

/-- Whether the class file declares the late field. -/
def DeclaresLate (c : ClassFile) : Bool := (c.declaredField? lateField.name).isSome

/-- Behind the step the inner class has the field in memory. It was not written, and
it does not have the field where it was read. -/
theorem late_field :
    (behindOuter.context.cache.get? innerName).map (fun a => DeclaresLate a.classFile) = some true ∧
      behindOuter.report.outcomes.map (·.name) = [outerName] ∧
      ∀ t ∈ latecomerMoments.take 1,
        (firstFound (Entry.load t.files innerName)
          (stampedConfig.entries ⟨"classes"⟩ [])).toOption.map
            (fun found? => found?.map fun found =>
              (ClassFile.parse found.content).toOption.map DeclaresLate) =
          some (some (some false)) := by
  decide +kernel

/-- Behind the step the inner class in memory is not what the files have for it. -/
theorem late_field_in_memory_only :
    ∃ before after s a,
      moments State.transform stampedConfig [latecomer] [] stampedFiles = before ++ s :: after ∧
      s.context.cache.get? innerName = some a ∧
      ∀ c, OnDisk stampedConfig.classOutput (stampedConfig.entries ⟨"classes"⟩ []) before s
        innerName c → c ≠ a.classFile := by
  obtain ⟨hmemory, hnames, hread⟩ := late_field
  obtain ⟨a, ha, hlate⟩ := Option.map_eq_some_iff.1 hmemory
  refine ⟨_, _, behindOuter, a, latecomerMoments_eq, ha, fun c hc => ?_⟩
  have hunwritten : ∀ o ∈ behindOuter.report.outcomes, ¬ o.Writes innerName := fun o ho hw => by
    have hname : o.name ∈ behindOuter.report.outcomes.map (·.name) := List.mem_map_of_mem ho
    rw [hnames, hw.1, List.mem_singleton] at hname
    exact absurd hname (by decide)
  obtain ⟨t, ht, found, hfound, hparse⟩ := hc.unwritten hunwritten
  have hnot : DeclaresLate c = false := by
    have hfields := hread t ht
    rw [hfound] at hfields
    change some (some ((ClassFile.parse found.content).toOption.map DeclaresLate)) = _ at hfields
    rw [hparse] at hfields
    exact Option.some.inj (Option.some.inj (Option.some.inj hfields))
  rintro rfl
  rw [hlate] at hnot
  cases hnot

/-- It slipped. -/
theorem late_field_slips :
    ∃ a c, behindOuter.context.cache.get? innerName = some a ∧
      OnDisk stampedConfig.classOutput (stampedConfig.entries ⟨"classes"⟩ [])
        (latecomerMoments.take 1) behindOuter innerName c ∧
      ReflTransGen (Slips [latecomer] (latecomerMoments.take 1) behindOuter.report.outcomes
        innerName) c a.classFile := by
  obtain ⟨a, ha, -⟩ := Option.map_eq_some_iff.1 late_field.1
  have hopen : ∀ t ∈ [latecomer], t.AddsOpenly := by
    intro t ht
    rw [List.mem_singleton.1 ht]
    exact latecomer_addsOpenly
  obtain ⟨input, c, hinput, hc, hslips⟩ := memory_agrees_with_disk hopen latecomerMoments_eq ha
  have hclasses : stampedConfig.inputDirectory? = some ⟨"classes"⟩ := by decide +kernel
  obtain rfl := Option.some.inj (hclasses.symm.trans hinput)
  exact ⟨a, c, ha, hc, hslips⟩

end ClassStamp.Run
