import ClassStamp.Fixture
import ClassStamp.Proofs.Classpath.Independence
import ClassStamp.Proofs.Run.Exits
import ClassStamp.Proofs.Run.History

/-!
# The report is an account of the run

Each step of a run adds one block to the report: an outcome for the class, and
behind it, if that was written, outcomes for classes inside it. The counters
count what these outcomes say, and the outcomes list every file that changed.

* `Block`: the outcomes of one step;
* `Accounted`: a part of a run and the blocks of its steps;
* `accounted_transform`, `accounted_takeSteps`: one step and many;
* `report_accounts`: the report of a run that succeeds.
-/

namespace ClassStamp.Run

open Artifact (Proper)
open Classpath (Context)
open FileTree (SameFiles)

variable {p : Pass} {n : ClassName} {s s' s'' : State} {output : Output}

/-! ## Blocks -/

/-- The outcomes of one step. -/
structure Block where
  /-- The outcome of the class that the step is for. -/
  head : Outcome
  /-- The outcomes of classes inside it. -/
  members : List Outcome

/-- All outcomes of the step. -/
def Block.outcomes (b : Block) : List Outcome := b.head :: b.members

/-- The block is one that the step of a transformer for a class may add. -/
structure Block.Fits (p : Pass) (n : ClassName) (b : Block) : Prop where
  transformer : b.head.transformer = p.transformer.identity
  name : b.head.name = n
  head : b.head.state ≠ .unstamped
  followed : b.members ≠ [] → b.head.state = .written
  members : ∀ o ∈ b.members, o.transformer = p.transformer.identity ∧
    o.name.isImmediateMemberOf n = true ∧
    (o.state = .written ∨ o.state = .failed .stamp ∨ o.state = .failed .write)

/-- Whether an outcome says that the class was written. -/
def Outcome.isWritten (o : Outcome) : Bool := o.state == .written

/-- The report with some blocks behind the others. -/
def Report.addBlocks (r : Report) (bs : List Block) : Report :=
  { transformed := r.transformed + bs.countP (·.head.isWritten)
    nestedWritten := r.nestedWritten + (bs.flatMap (·.members)).countP (·.isWritten)
    unstamped := r.unstamped
    outcomes := r.outcomes ++ bs.flatMap Block.outcomes }

theorem Report.addBlocks_nil (r : Report) : r.addBlocks [] = r := by
  unfold addBlocks
  simp only [List.flatMap_nil, List.countP_nil, List.append_nil, Nat.add_zero]

theorem Report.addBlocks_addBlocks (r : Report) (bs bs' : List Block) :
    (r.addBlocks bs).addBlocks bs' = r.addBlocks (bs ++ bs') := by
  simp only [addBlocks, List.countP_append, List.flatMap_append, List.append_assoc, Nat.add_assoc]

/-- Some steps were taken, and the report got a block for each. -/
structure Accounted (output : Output) (visits : List (Pass × ClassName)) (s : State)
    (bs : List Block) (s' : State) : Prop where
  blocks : List.Forall₂ (fun v b => Block.Fits v.1 v.2 b) visits bs
  report : s'.report = s.report.addBlocks bs
  lists : Lists output s.files (bs.flatMap Block.outcomes) s'.files

theorem Accounted.append {visits visits' : List (Pass × ClassName)} {bs bs' : List Block}
    (h : Accounted output visits s bs s') (h' : Accounted output visits' s' bs' s'') :
    Accounted output (visits ++ visits') s (bs ++ bs') s'' := by
  refine ⟨List.rel_append h.blocks h'.blocks, ?_, ?_⟩
  · rw [h'.report, h.report, Report.addBlocks_addBlocks]
  · rw [List.flatMap_append]
    exact h.lists.append h'.lists

/-! ## One step -/

theorem Unedited.proper {a b : Artifact} (h : Unedited a b) (ha : Proper a) : Proper b := by
  refine Artifact.proper_iff.2 fun m hm => ?_
  obtain ⟨x, hx, hxm⟩ := h.mem hm
  obtain ⟨himm, hproper⟩ := ha.members hx
  exact ⟨by rw [hxm.name, h.name]; exact himm, hproper.congr hxm.name hxm.nested⟩

theorem Withdraws.keyed {o : Outcome} (h : Withdraws p n s o s') (hkeyed : s.context.Keyed) :
    s'.context.Keyed :=
  (h.keyedBy (Context.lasting_proper s.files s.context.entries) Unedited.proper rfl hkeyed).2

theorem Withdraws.accounted {o : Outcome} (h : Withdraws p n s o s') :
    Accounted p.output [(p, n)] s [⟨o, []⟩] s' := by
  have hwritten : Outcome.isWritten o = false := beq_false_of_ne h.idle.not_written
  refine ⟨.cons ⟨h.transformer, h.name, h.idle.not_unstamped, fun hm => absurd rfl hm,
    fun o ho => (nomatch ho)⟩ .nil, ?_, ?_⟩
  · rw [h.report]
    simp only [Report.add, Report.addBlocks, List.countP_singleton, hwritten]
    rfl
  · exact .of_sameFiles h.files (h.idle.tells p.output) h.idle.not_saysWritten

/-- The class that a step transforms and writes goes by the name that the step is
for, and so do those inside it. -/
theorem Transforms.proper {a b c d : Artifact} {context : Context} {file : WrittenFile}
    {files : FileTree} (h : Transforms p n s a b c d context file files)
    (hp : p.transformer.UsesOperations) (hkeyed : s.context.Keyed) :
    c.name = n ∧ d.name = n ∧ Proper d ∧
      (∀ m ∈ (State.prepare a).nested, m.name.isImmediateMemberOf n = true ∧ Proper m) ∧
      context.Keyed := by
  obtain ⟨hname, hproper, hcontext⟩ := (Context.checkout_keyed hkeyed).1 a context h.taken
  have hprepared := (unedited_prepare a).proper hproper
  obtain ⟨hb, hbproper⟩ := (hp _ b h.applied).proper
  have hbn : b.name = n := hb.trans hname
  refine ⟨h.same_stamped.name.trans hbn, h.same.name.trans hbn,
    (hbproper hprepared).congr h.same.name h.same.nested, fun m hm => ?_, hcontext⟩
  rw [← hname]
  exact hprepared.members hm

/-- The step of a transformer that uses the operations of artifacts adds one
block. -/
theorem accounted_transform (hp : p.transformer.UsesOperations) (hkeyed : s.context.Keyed)
    (n : ClassName) :
    (∃ b, Accounted p.output [(p, n)] s [b] (State.transform p n s)) ∧
      (State.transform p n s).context.Keyed := by
  rcases transform_cases p n s with ⟨o, h⟩ | ⟨a, b, c, d, context, file, files, log, h, heq⟩
  · exact ⟨⟨_, h.accounted⟩, h.keyed hkeyed⟩
  obtain ⟨hc, hd, hproper, hpristine, hcontext⟩ := h.proper hp hkeyed
  rcases hnested : (s.transformed p n context file files log).writeNested p (State.prepare a) d
    with ⟨a', s'⟩
  obtain ⟨hclass, hmembers, os, hos⟩ := writeNested_spec hnested
  obtain ⟨hself, -⟩ := Artifact.eq_of_withoutNested hclass
  rw [heq, hnested]
  dsimp only
  let o : Outcome :=
    { transformer := p.transformer.identity, name := n, state := .written, message := none,
      files := [file] }
  have hhead : Lists p.output s.files [o] files :=
    .of_write h.written hc.symm (.inl rfl) rfl rfl
  refine ⟨⟨⟨o, os⟩, .cons ⟨rfl, rfl, fun ho => (nomatch ho), fun _ => rfl, fun m hm => ?_⟩ .nil,
    ?_, ?_⟩, ?_⟩
  · obtain ⟨ht, ⟨x, hx, hname⟩, hstate⟩ := hos.members m hm
    refine ⟨ht, ?_, hstate⟩
    rw [← hname, ← hd]
    exact (hproper.members hx).1
  · show s'.report = _
    rw [hos.report]
    simp only [Report.addNested, Report.addBlocks, State.transformed, State.noteFile, State.record,
      Report.add, List.flatMap_singleton, List.countP_singleton, List.append_assoc]
    rfl
  · show Lists p.output s.files ((o :: os) ++ []) s'.files
    rw [List.append_nil]
    exact hhead.append hos.lists
  · show (s'.context.restore a').Keyed
    rw [hos.context]
    refine hcontext.restore (Artifact.proper_iff.2 fun m hm => ?_)
    rw [hself]
    rcases hmembers m hm with ⟨x, hx, hxm⟩ | hm
    · obtain ⟨himm, hxproper⟩ := hproper.members hx
      exact ⟨hxm.name ▸ himm, hxproper.congr hxm.name hxm.nested⟩
    · rw [hd]
      exact hpristine m hm

/-! ## Runs -/

/-- The steps of transformers that use the operations of artifacts add one block
each. -/
theorem accounted_takeSteps {visits : List (Pass × ClassName)}
    (hvisits : ∀ v ∈ visits, v.1.output = output ∧ v.1.transformer.UsesOperations)
    (hkeyed : s.context.Keyed) :
    ∃ bs, Accounted output visits s bs (takeSteps State.transform visits s) := by
  induction visits generalizing s with
  | nil => exact ⟨[], .nil, s.report.addBlocks_nil.symm, .nil (.refl _)⟩
  | cons v visits ih =>
    obtain ⟨houtput, huses⟩ := hvisits v List.mem_cons_self
    obtain ⟨⟨b, hb⟩, hkeyed'⟩ := accounted_transform huses hkeyed v.2
    obtain ⟨bs, hbs⟩ := ih (fun v hv => hvisits v (List.mem_cons_of_mem _ hv)) hkeyed'
    rw [houtput] at hb
    exact ⟨b :: bs, hb.append hbs⟩

/-- The report accounts for what a run did: there is one block for each class that
a pass found, in order; the counters count what these say; and what the outcomes
list is what became of the files. -/
structure AccountOf (output : Output) (legs : List Leg) (files : FileTree) (bs : List Block)
    (report : Report) (files' : FileTree) : Prop where
  blocks : List.Forall₂ (fun v b => Block.Fits v.1 v.2 b) (legs.flatMap Leg.visits) bs
  outcomes : report.outcomes = bs.flatMap Block.outcomes
  transformed : report.transformed = bs.countP (·.head.isWritten)
  nestedWritten : report.nestedWritten = (bs.flatMap (·.members)).countP (·.isWritten)
  unstamped : report.unstamped = 0
  messages : ∀ o ∈ report.outcomes, o.message.isSome = o.isFailure
  written : ∀ o ∈ report.outcomes, o.files.length = if o.isWritten then 1 else 0
  lists : Lists output files report.outcomes files'

theorem not_unstamped_of_fits {visits : List (Pass × ClassName)} {bs : List Block}
    (h : List.Forall₂ (fun v b => Block.Fits v.1 v.2 b) visits bs) :
    ∀ o ∈ bs.flatMap Block.outcomes, o.state ≠ .unstamped := by
  intro o ho
  obtain ⟨b, hb, ho⟩ := List.mem_flatMap.1 ho
  obtain ⟨v, -, hfits⟩ := Artifact.exists_of_forall₂ h hb
  rcases List.mem_cons.1 ho with rfl | ho
  · exact hfits.head
  · obtain ⟨-, -, hstate⟩ := hfits.members o ho
    rcases hstate with hs | hs | hs <;> rw [hs] <;> exact fun h => nomatch h

theorem Outcome.Tells.length_files {o : Outcome} (h : o.Tells output) (hs : o.state ≠ .unstamped) :
    o.files.length = if o.isWritten then 1 else 0 := by
  by_cases hw : o.state = .written
  · obtain ⟨hash, hfiles⟩ := h.listed (.inl hw)
    rw [hfiles, Outcome.isWritten, hw]
    rfl
  · have hsays : ¬ o.SaysWritten := fun h => h.elim hw hs
    rw [h.unlisted hsays, Outcome.isWritten, beq_false_of_ne hw]
    rfl

theorem accountOf_accounted {legs : List Leg} {bs : List Block} {files : FileTree}
    (h : Accounted output (legs.flatMap Leg.visits) s bs s') (hfiles : SameFiles files s.files)
    (hreport : s.report = .empty) :
    AccountOf output legs files bs s'.report s'.files := by
  have hr : s'.report = Report.empty.addBlocks bs := by rw [h.report, hreport]
  have houtcomes : s'.report.outcomes = bs.flatMap Block.outcomes := by rw [hr]; rfl
  refine ⟨h.blocks, houtcomes, ?_, ?_, by rw [hr]; rfl, fun o ho => ?_, fun o ho => ?_, ?_⟩
  · rw [hr]
    exact Nat.zero_add _
  · rw [hr]
    exact Nat.zero_add _
  · rw [houtcomes] at ho
    exact (h.lists.tells o ho).message
  · rw [houtcomes] at ho
    exact (h.lists.tells o ho).length_files (not_unstamped_of_fits h.blocks o ho)
  · rw [houtcomes]
    exact (Lists.nil hfiles).append h.lists

/-- Passes that all succeed account for what they did. -/
theorem accountOf_passOver {input : Path} {ps : List Pass} {files : FileTree}
    (hps : ∀ p ∈ ps, p.output = output ∧ p.transformer.UsesOperations)
    (hkeyed : s.context.Keyed) (hreport : s.report = .empty) (hfiles : SameFiles files s.files)
    (h : passOver State.transform input ps s = .ok () s') :
    ∃ bs, AccountOf output (legs State.transform input ps s) files bs s'.report s'.files := by
  obtain ⟨bs, hbs⟩ :=
    accounted_takeSteps (fun v hv => hps v.1 (pass_mem_of_mem_visits hv)) hkeyed
  rw [← leaves_passOver, leaves_of_ok h] at hbs
  exact ⟨bs, accountOf_accounted hbs hfiles hreport⟩

/-- The report has an outcome for every class that a pass found. -/
theorem told_of_found {input : Path} {ps : List Pass}
    (hps : ∀ p ∈ ps, p.output = output ∧ p.transformer.UsesOperations)
    (hkeyed : s.context.Keyed) (h : passOver State.transform input ps s = .ok () s')
    (hp : p ∈ ps) (hn : ∀ l ∈ legs State.transform input ps s, n ∈ l.found) :
    ∃ o ∈ s'.report.outcomes, o.transformer = p.transformer.identity ∧ o.name = n := by
  obtain ⟨bs, hbs⟩ :=
    accounted_takeSteps (fun v hv => hps v.1 (pass_mem_of_mem_visits hv)) hkeyed
  rw [← leaves_passOver, leaves_of_ok h] at hbs
  rw [← map_pass_legs h] at hp
  obtain ⟨l, hl, rfl⟩ := List.mem_map.1 hp
  have hvisit : (l.pass, n) ∈ (legs State.transform input ps s).flatMap Leg.visits :=
    List.mem_flatMap.2 ⟨l, hl, List.mem_map_of_mem (hn l hl)⟩
  obtain ⟨b, hb, hfits⟩ := Artifact.exists_of_forall₂ hbs.blocks.flip hvisit
  refine ⟨b.head, ?_, hfits.transformer, hfits.name⟩
  rw [hbs.report]
  exact List.mem_append_right _ (List.mem_flatMap.2 ⟨b, hb, List.mem_cons_self⟩)

/-- If a run of transformers that use the operations of artifacts succeeds, every
transformer has its pass over the input, if there is one, and the report
accounts for what the run did. -/
theorem report_accounts {config : Config} {transformers : List Transformer} {ambient : List Path}
    {files : FileTree} {report : Report} (huses : ∀ t ∈ transformers, t.UsesOperations)
    (h : (execute config transformers ambient files).report = .ok report) :
    let legs := runLegs State.transform config transformers ambient files
    legs.map (·.pass) =
        (if config.inputDirectory?.isSome then passes transformers config.classOutput else []) ∧
      ∃ bs, AccountOf config.classOutput legs files bs report
        (execute config transformers ambient files).files := by
  dsimp only [execute] at h ⊢
  unfold run at h ⊢
  unfold runLegs
  rcases setUp_cases config transformers ambient files with ⟨e, files', hs, -⟩ | hs |
    ⟨input, files', hinput, hsame, -, hs⟩
  · rw [hs] at h
    cases h
  · rw [hs] at h ⊢
    cases h
    refine ⟨?_, [], .nil, rfl, rfl, rfl, rfl, fun o ho => (nomatch ho), fun o ho => (nomatch ho),
      .nil (.refl files)⟩
    rcases setUp_eq_none hs with rfl | hinput
    · exact (ite_self _).symm
    · rw [hinput]
      rfl
  have houtput := Config.classOutput_of_input hinput
  rw [hs] at h ⊢
  rw [hinput, ← houtput]
  rw [← houtput] at h
  dsimp only at h ⊢
  split at h
  · cases h
  rename_i s hpass
  cases h
  refine ⟨map_pass_legs hpass,
    accountOf_passOver (fun p hp => ?_) (fun n a ha => (nomatch ha)) rfl hsame hpass⟩
  obtain ⟨⟨t, i⟩, ht, rfl⟩ := List.mem_map.1 hp
  exact ⟨rfl, huses t (List.fst_mem_of_mem_zipIdx ht)⟩

theorem markerField_usesOperations (m : MarkerField) : m.transformer.UsesOperations :=
  have hadditive : m.transformer.Additive fun _ => True := m.additive trivial
  hadditive.usesOperations

/-! ## Classes that are written with the one they are inside -/

open Classpath.Context (innerName outerName)

/-- The name `Outer$Stuck`. -/
def stuckName : ClassName :=
  ⟨"Outer$Stuck", by constructor <;> simp [Text.split, ClassName.isForbidden]⟩

/-- The name `Outer$Spare`. -/
def spareName : ClassName :=
  ⟨"Outer$Spare", by constructor <;> simp [Text.split, ClassName.isForbidden]⟩

/-- A directory with `Outer`, one with three classes inside it, and a third one that has a
directory in the place of one of these. -/
def stuckFiles : FileTree :=
  let members := [innerName, stuckName, spareName]
  let outer : Fixture := { Fixture.ofName outerName with nested := members }
  let classes := leaves (outer.writeTo ⟨"classes"⟩) (.empty ["work"])
  let lib := leaves (members.forM fun m => (Fixture.ofName m).writeTo ⟨"lib"⟩) classes
  leaves (FileTree.createDirectories ⟨"out/Outer$Stuck.class"⟩) lib

/-- A run from the first directory to the third. -/
def stuckConfig : Config :=
  { Config.new ⟨"classes"⟩ with output := some ⟨"out"⟩, classpath := [⟨"lib"⟩] }

/-- The report of a run that opens all three classes inside `Outer` accounts for it: two of
them are written behind `Outer`, and the third one fails. -/
theorem opener_report_accounts :
    let opener := Transformer.opener "opener" [innerName, stuckName, spareName]
    let r := execute stuckConfig [opener] [] stuckFiles
    let legs := runLegs State.transform stuckConfig [opener] [] stuckFiles
    ∃ report, r.report = .ok report ∧ report.transformed = 1 ∧ report.nestedWritten = 2 ∧
      report.outcomes.map (fun o => (o.name, o.state)) =
        [(outerName, .written), (innerName, .written), (stuckName, .failed .write),
          (spareName, .written)] ∧
      legs.map (·.found) = [[outerName]] ∧
      ∃ bs, AccountOf stuckConfig.classOutput legs stuckFiles bs report r.files := by
  intro opener r legs
  have hadditive : opener.Additive fun _ => True := Transformer.opener_additive trivial _
  have huses : ∀ t ∈ [opener], t.UsesOperations := by
    intro t ht
    rw [List.mem_singleton.1 ht]
    exact hadditive.usesOperations
  obtain ⟨report, hreport, hsays⟩ : ∃ report, r.report = .ok report ∧
      (report.transformed, report.nestedWritten,
        report.outcomes.map fun o => (o.name, o.state)) = (1, 2,
          [(outerName, .written), (innerName, .written), (stuckName, .failed .write),
            (spareName, .written)]) :=
    exists_eq_ok (by decide +kernel)
  obtain ⟨htransformed, hsays⟩ := Prod.mk.inj hsays
  obtain ⟨hnested, houtcomes⟩ := Prod.mk.inj hsays
  exact ⟨report, hreport, htransformed, hnested, houtcomes, by decide +kernel,
    (report_accounts huses hreport).2⟩

end ClassStamp.Run
