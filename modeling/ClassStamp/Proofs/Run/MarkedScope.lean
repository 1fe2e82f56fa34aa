import ClassStamp.Proofs.Run.Account
import ClassStamp.Proofs.Run.Agreement
import ClassStamp.Proofs.Run.Entries
import ClassStamp.Proofs.Run.MarkerStep
import ClassStamp.Proofs.Run.StampRemoval

/-!
# Runs of markers

A run of markers in place that nothing goes wrong in leaves every class that it found
marked, as far as a marker has the class in its scope, and writes no other class. The same
run again finds the marks in the files, and in what was supplied from elsewhere, unless a
root of the ambient classpath leads to other classes by then.

* `Underway`: all that holds between two steps, and `Underway.parse_file`: the file of a
  class is the class in memory;
* `Ends`: how a run ends, with what follows for the same run over what it left;
* `execute_markers`: a run of markers ends like that;
* `scope_marked`: the main result, and `late_root_marks_again`: a root that the run
  itself makes reachable.
-/

namespace ClassStamp

open Classpath (Context Entry)
open FileTree (SameFiles)
open Relation (ReflTransGen)

namespace Run

variable {g g' : Outset} {input : Path} {ms : List MarkerField} {m : MarkerField} {s s' : State}
  {past : List State} {os : List Outcome} {n : ClassName} {c d : ClassFile} {a : Artifact}
  {o o' : Outcome} {root place : FileTree.Place} {bytes content : Bytes}

/-! ## Files and memory -/

/-- A marker does not edit the classes inside the one that it acts on. -/
theorem eq_of_slips (h : Slips (ms.map (·.transformer)) past os n c d) : c = d := by
  cases h with
  | intro among earlier taken applied inside name stamped reported written identity =>
    obtain ⟨m, -, rfl⟩ := List.mem_map.1 among
    obtain ⟨between, -, rfl⟩ := MarkerField.apply_eq_ok applied
    obtain ⟨-, hzip⟩ := List.forall₂_iff_zip.1 (List.forall₂_same.2 fun _ _ => rfl)
    exact congrArg Artifact.classFile (hzip inside)

theorem onDisk_of_backed (h : Backed g (ms.map (·.transformer)) past s n c) :
    OnDisk g.output g.entries past s n c := by
  obtain ⟨d, hd, hslips⟩ := h.origin
  clear h
  induction hslips with
  | refl => exact hd
  | tail _ hslip ih => exact eq_of_slips hslip ▸ ih

theorem Inv.written_iff {held : List Artifact} (h : Inv g held s) :
    Written s.log n ↔ ∃ o ∈ s.report.outcomes, o.Writes n := by
  rw [h.report]
  exact exists_congr fun o => and_congr_left' mem_outcomes.symm

/-! ## Between two steps -/

/-- All that holds between two steps of a run of markers. -/
structure Underway (g : Outset) (input : Path) (ms : List MarkerField) (s : State) : Prop where
  inv : Inv g [] s
  synced : ∃ past, Synced g (ms.map (·.transformer)) past [] s
  marking : Marking g input ms s

/-- The pass is that of one of the markers. -/
structure Pass.OfMarkers (g : Outset) (ms : List MarkerField) (p : Pass) : Prop where
  output : p.output = g.output
  marker : ∃ m ∈ ms, p.transformer = m.transformer

namespace Underway

/-- A step for a class that was found keeps it. -/
theorem transform {p : Pass} (hallowed : ∀ spec, g.allowed spec)
    (htransformers : g.transformers = ms.map (·.transformer)) (hapart : MarkersApart ms)
    (hp : p.OfMarkers g ms) (h : Underway g input ms s) (hn : Finds g.files input n) :
    Underway g input ms (State.transform p n s) := by
  obtain ⟨m, hm, ht⟩ := hp.marker
  obtain ⟨past, hsynced⟩ := h.synced
  have hfits : p.Fits g := by
    refine ⟨hp.output, ?_, ?_⟩
    · rw [ht]
      exact m.additive (hallowed _)
    · rw [ht, htransformers]
      exact List.mem_map_of_mem hm
  have hopen : p.transformer.AddsOpenly := by
    rw [ht]
    exact m.addsOpenly
  have hmem : p.transformer ∈ ms.map (·.transformer) := by
    rw [ht]
    exact List.mem_map_of_mem hm
  exact ⟨inv_transform hfits h.inv n,
    ⟨past ++ [s], synced_transform hp.output hmem hopen h.inv hsynced n⟩,
    marking_transform hapart hm ht h.inv h.marking hn⟩

/-- Every file that differs from the outset is that of a class that was written. -/
theorem changed (hg : g.InPlace root) (h : Underway g input ms s)
    (hne : s.files.fileAt? place ≠ g.files.fileAt? place) :
    ∃ o ∈ s.report.outcomes, o.state = .written ∧ place = o.name.fileNames.reverse ++ root := by
  by_contra hnone
  refine hne (h.inv.disk.others place fun n hn hplace => hnone ?_)
  obtain ⟨o, ho, rfl, hstate⟩ := h.inv.written_iff.1 hn
  exact ⟨o, ho, hstate, hplace.trans (hg.output o.name)⟩

theorem overwritten (hg : g.InPlace (g.files.placeOf input)) (h : Underway g input ms s) :
    Overwritten g.files input s.files := by
  refine ⟨h.inv.disk.settled, h.marking.sound, fun place hne => ?_⟩
  obtain ⟨o, ho, hstate, hplace⟩ := h.changed hg hne
  exact ⟨o.name, (h.marking.fresh o ho hstate).1, hplace⟩

/-- What is in the file of a class in memory is that class. -/
theorem parse_file (hg : g.InPlace root) (h : Underway g input ms s)
    (ha : s.context.cache.get? n = some a)
    (hat : s.files.fileAt? (n.fileNames.reverse ++ root) = some bytes) :
    ClassFile.parse bytes = .ok a.classFile := by
  by_cases hn : Written s.log n
  · obtain ⟨past, hsynced⟩ := h.synced
    have hdisk := onDisk_of_backed (hsynced.cached n a ha).2
    obtain ⟨bytes', hread, hparse⟩ := hdisk.written (h.inv.written_iff.1 hn)
    have hat' := FileTree.fileAt?_of_read hread
    rw [h.inv.disk.settled.placeOf, hg.output, hat] at hat'
    cases hat'
    exact hparse
  · obtain ⟨b, hb, hsame, -⟩ := h.marking.memory n a ha
    rw [fileAt?_of_not_written hg h.inv hn] at hat
    obtain ⟨input', rest, hentries, hroot, rfl⟩ := hg.first
    rw [hsame fun o ho hw => hn (h.inv.written_iff.2 ⟨o, ho, hw⟩)]
    exact parse_of_supplies hentries hroot hat hb

/-- The file of a class that a marker in whose scope it is had no trouble with declares the
field then, or it carried the stamp before. -/
theorem marked (hg : g.InPlace root) (h : Underway g input ms s)
    (ho : o ∈ s.report.outcomes) (hfine : o.isFailure = false) (hm : m ∈ ms)
    (hidentity : o.transformer = m.identity) (hin : m.inScope o.name = true)
    (hat : g.files.fileAt? (o.name.fileNames.reverse ++ root) = some content) :
    ∃ bytes c, s.files.fileAt? (o.name.fileNames.reverse ++ root) = some bytes ∧
      ClassFile.parse bytes = .ok c ∧ (c.Declares m.field ∨
        ∃ b, ClassFile.parse content = .ok b ∧ b.Declares m.transformer.stamp.field) := by
  obtain ⟨a, ha, hdeclares⟩ := h.marking.told o ho hfine m hm hidentity hin
  have hstill := h.inv.disk.settled.files _ (by rw [hat]; rfl)
  obtain ⟨bytes, hbytes⟩ := Option.isSome_iff_exists.1 hstill
  refine ⟨bytes, a.classFile, hbytes, h.parse_file hg ha hbytes, ?_⟩
  rcases hdeclares with hfield | hstamp
  · exact .inl hfield
  · obtain ⟨b, hb, -, hstamps⟩ := h.marking.memory _ a ha
    obtain ⟨input', rest, hentries, hroot, rfl⟩ := hg.first
    rcases hstamps m hm hstamp with hold | hfield
    · exact .inr ⟨b, parse_of_supplies hentries hroot hat hb, hold⟩
    · exact .inl hfield

end Underway

/-! ## The end of a run -/

variable {config : Config} {transformers : List Transformer} {ambient : List Path}
  {files files' : FileTree} {report : Report}

theorem isFailure_eq_false_of_isClean (h : report.isClean = true) :
    ∀ o ∈ report.outcomes, o.isFailure = false := by
  intro o ho
  have hnone := List.filter_eq_nil_iff.1 (List.isEmpty_iff.1 h) o ho
  exact Bool.not_eq_true _ ▸ hnone

/-- How a run of markers in place ends that has something to do. -/
structure Ends (g : Outset) (input : Path) (ms : List MarkerField) (s : State) : Prop where
  inPlace : g.InPlace (g.files.placeOf input)
  underway : Underway g input ms s
  told : ∀ m ∈ ms, ∀ n, Finds g.files input n →
    ∃ o ∈ s.report.outcomes, o.transformer = m.identity ∧ o.name = n

namespace Ends

/-- A class in scope that is found and has its file is marked. -/
theorem marks (h : Ends g input ms s) (hclean : s.report.isClean = true)
    (hsound : g.files.Sound) {names : List ClassName}
    (hnames : candidates g.files input = .ok names) (hn : n ∈ names) (hm : m ∈ ms)
    (hin : m.inScope n = true)
    (hat : g.files.fileAt? (n.fileNames.reverse ++ g.files.placeOf input) = some content) :
    ∃ bytes c, s.files.fileAt? (n.fileNames.reverse ++ g.files.placeOf input) = some bytes ∧
      ClassFile.parse bytes = .ok c ∧ (c.Declares m.field ∨
        ∃ b, ClassFile.parse content = .ok b ∧ b.Declares m.transformer.stamp.field) := by
  obtain ⟨o, ho, hidentity, rfl⟩ := h.told m hm n ((mem_candidates_iff hsound hnames).1 hn)
  exact h.underway.marked h.inPlace ho (isFailure_eq_false_of_isClean hclean o ho) hm hidentity
    hin hat

/-- Only files of classes in scope change. -/
theorem changed_inScope (h : Ends g input ms s)
    (hne : s.files.fileAt? place ≠ g.files.fileAt? place) :
    ∃ n, place = n.fileNames.reverse ++ g.files.placeOf input ∧
      ∃ m ∈ ms, m.inScope n = true := by
  obtain ⟨o, ho, hstate, hplace⟩ := h.underway.changed h.inPlace hne
  obtain ⟨-, m, hm, hin, -⟩ := h.underway.marking.fresh o ho hstate
  exact ⟨o.name, hplace, m, hm, hin⟩

theorem kept_of_not_inScope (h : Ends g input ms s) (hn : ∀ m ∈ ms, m.inScope n = false) :
    s.files.fileAt? (n.fileNames.reverse ++ g.files.placeOf input) =
      g.files.fileAt? (n.fileNames.reverse ++ g.files.placeOf input) := by
  by_contra hne
  obtain ⟨n', hplace, m, hm, hin⟩ := h.changed_inScope hne
  obtain rfl := ClassName.fileNames_inj (List.reverse_inj.1 (List.append_cancel_right hplace))
  rw [hn m hm] at hin
  cases hin

/-! ## The same run again -/

section Again

variable (h : Ends g input ms s) (h' : Ends g' input ms s') (hfiles : g'.files = s.files)

include h h' hfiles

theorem inPlace_again : g'.InPlace (g.files.placeOf input) := by
  have hplaces : g'.files.placeOf input = g.files.placeOf input := by
    rw [hfiles, h.underway.inv.disk.settled.placeOf]
  exact hplaces ▸ h'.inPlace

/-- The same run over what the first one left changes no files but those of classes that it
writes. -/
theorem changed_again (hne : s'.files.fileAt? place ≠ s.files.fileAt? place) :
    ∃ o ∈ s'.report.outcomes, o.state = .written ∧
      place = o.name.fileNames.reverse ++ g.files.placeOf input := by
  rw [← hfiles] at hne
  exact h'.underway.changed (h.inPlace_again h' hfiles) hne

variable (hclean : s.report.isClean = true) (ho : o ∈ s'.report.outcomes)
  (hstate : o.state = .written)

include hclean ho hstate

/-- A class that the second run writes is supplied to it without the mark that the first run
left in memory. -/
theorem supplied_unmarked :
    ∃ a b, s.context.cache.get? o.name = some a ∧ g'.Supplies o.name b ∧ a.classFile ≠ b := by
  obtain ⟨hfinds, m, hm, hin, b, hb, hfield, hstamp⟩ := h'.underway.marking.fresh o ho hstate
  rw [hfiles, (h.underway.overwritten h.inPlace).finds_iff] at hfinds
  obtain ⟨first, hfirst, hidentity, hname⟩ := h.told m hm _ hfinds
  rw [← hname] at hin hb ⊢
  obtain ⟨a, ha, hdeclares⟩ := h.underway.marking.told first hfirst
    (isFailure_eq_false_of_isClean hclean first hfirst) m hm hidentity hin
  exact ⟨a, b, ha, hb, fun hsame => hdeclares.elim (hsame ▸ hfield) (hsame ▸ hstamp)⟩

/-- Such a class has no file: what is in its file is what is in memory. -/
theorem no_file_of_written_again :
    s.files.fileAt? (o.name.fileNames.reverse ++ g.files.placeOf input) = none := by
  obtain ⟨a, b, ha, hb, hne⟩ := h.supplied_unmarked h' hfiles hclean ho hstate
  by_contra hsome
  obtain ⟨bytes, hat⟩ := Option.ne_none_iff_exists'.1 hsome
  have hparse := h.underway.parse_file h.inPlace ha hat
  obtain ⟨input', rest, hfirst, hroot, hplace⟩ := (h.inPlace_again h' hfiles).first
  rw [← hplace, ← hfiles] at hat
  exact hne (Except.ok.inj (hparse.symm.trans (parse_of_supplies hfirst hroot hat hb)))

/-- There is no such class if all entries of the classpath are steady: both runs are supplied
with it alike then. -/
theorem not_steady_of_written_again (hentries : g'.entries = g.entries) :
    ¬ ∀ e ∈ g.entries, e.Steady g.files := by
  intro hsteady
  obtain ⟨a, b, ha, hb, hne⟩ := h.supplied_unmarked h' hfiles hclean ho hstate
  have hunwritten : ¬ Written s.log o.name := fun hw => by
    obtain ⟨bytes, c, hat, -⟩ := fileAt?_of_written h.inPlace h.underway.inv hw
    rw [h.no_file_of_written_again h' hfiles hclean ho hstate] at hat
    cases hat
  obtain ⟨b', hb', hsame, -⟩ := h.underway.marking.memory _ a ha
  have hold : g.Supplies o.name b := by
    refine hb.earlier (hfiles ▸ h.underway.inv.disk.settled) hentries
      fun place bytes d hat hd hname => ?_
    rw [hfiles] at hat
    exact h.underway.inv.disk.original hunwritten hat hd hname
  refine hne ((hsame fun o ho hw => ?_).trans (supplies_unique hsteady hb' hold))
  exact hunwritten (h.underway.inv.written_iff.2 ⟨o, ho, hw⟩)

end Again

end Ends

/-! ## Runs -/

theorem sound_of_setUp {setup : Setup}
    (h : setUp config transformers ambient files = .ok (some setup) files')
    (hsound : files.Sound) : files'.Sound := by
  obtain ⟨-, -, -, hprepared⟩ := setUp_parts h
  exact (keeps_prepareOutput FileTree.keepsSound_createDirectories _ _).ok hprepared hsound

theorem Config.InPlace.begins (h : config.InPlace files)
    (hin : config.inputDirectory? = some input) (hroot : checkRoot files input = .ok ())
    {allowed : FieldSpec → Prop} :
    (Outset.of config transformers ambient files allowed input).InPlace
      (files.placeOf input) := by
  refine ⟨fun n => ?_, input, _, rfl, hroot, rfl⟩
  rw [← h.placeOf_pathFor hin n, Config.classOutput_of_input hin]
  rfl

theorem underway_start (hsound : files'.Sound) (hsame : SameFiles g.files files') :
    Underway g input ms (.start files' (.ofEntries g.entries)) := by
  refine ⟨inv_start hsame, ⟨[], ?_⟩, ?_⟩
  · exact ⟨fun n a ha => (nomatch ha), fun a ha => (nomatch ha), List.nodup_nil⟩
  · exact ⟨hsound, fun n a ha => (nomatch ha), fun o ho => (nomatch ho),
      fun o ho => (nomatch ho)⟩

theorem ofMarkers_of_mem_passes {p : Pass}
    (hp : p ∈ passes (ms.map (·.transformer)) g.output) : p.OfMarkers g ms := by
  obtain ⟨⟨t, i⟩, ht, rfl⟩ := List.mem_map.1 hp
  obtain ⟨m, hm, rfl⟩ := List.mem_map.1 (List.fst_mem_of_mem_zipIdx ht)
  exact ⟨rfl, m, hm, rfl⟩

theorem exists_pass (hm : m ∈ ms) (output : Output) :
    ∃ p ∈ passes (ms.map (·.transformer)) output, p.transformer = m.transformer := by
  obtain ⟨i, hi, rfl⟩ := List.mem_iff_getElem.1 hm
  refine ⟨⟨i, ms[i].transformer, output⟩, List.mem_map.2 ⟨(ms[i].transformer, i), ?_, rfl⟩, rfl⟩
  rw [List.mk_mem_zipIdx_iff_getElem?, List.getElem?_map, List.getElem?_eq_getElem hi]
  rfl

/-- Passes of markers that begin in place, with nothing in memory, come to their end. -/
theorem exists_ends (hg : g.InPlace (g.files.placeOf input)) (hapart : MarkersApart ms)
    (hallowed : ∀ spec, g.allowed spec) (htransformers : g.transformers = ms.map (·.transformer))
    (hroot : g.files.isDirectory input = true) (hsound : files'.Sound)
    (hsame : SameFiles g.files files') :
    ∃ s, passOver State.transform input (passes (ms.map (·.transformer)) g.output)
        (.start files' (.ofEntries g.entries)) = .ok () s ∧ Ends g input ms s := by
  have hps : ∀ p ∈ passes (ms.map (·.transformer)) g.output, p.OfMarkers g ms :=
    fun p => ofMarkers_of_mem_passes
  obtain ⟨s, hpassed, -⟩ := passOver_of_settled settled_transform
    (passes (ms.map (·.transformer)) g.output)
    (s := .start files' (.ofEntries g.entries))
    (FileTree.isDirectory_of_settled hsame.toSettled hroot)
  -- steps keep what holds between them for classes that were found, and that they keep it
  -- is why the passes find no others
  obtain ⟨hfound, hend⟩ := legs_find (P := Underway g input ms)
    (fun s h => h.overwritten hg) settled_transform
    (fun p hp n s hn h => h.transform hallowed htransformers hapart (hps p hp) hn)
    hroot (underway_start hsound hsame)
  rw [leaves_of_ok hpassed] at hend
  refine ⟨s, hpassed, hg, hend, fun m hm n hn => ?_⟩
  obtain ⟨p, hp, ht⟩ := exists_pass hm g.output
  have hidentity : p.transformer.identity = m.identity := congrArg Transformer.identity ht
  have hkeyed : (Context.ofEntries g.entries).Keyed := fun n a ha => (nomatch ha)
  rw [← hidentity]
  refine told_of_found (fun p hp => ⟨(hps p hp).output, ?_⟩) hkeyed hpassed hp fun l hl =>
    (hfound l hl n).2 hn
  obtain ⟨m', -, ht'⟩ := (hps p hp).marker
  rw [ht']
  exact markerField_usesOperations m'

theorem execute_markers (hsound : files.Sound) (hplace : config.InPlace files)
    (hapart : MarkersApart ms) (hms : ms ≠ []) (hin : config.inputDirectory? = some input)
    (hok : (execute config (ms.map (·.transformer)) ambient files).report = .ok report) :
    (∀ e ∈ config.entries input ambient, e.check files = .ok ()) ∧
      ∃ s, Ends (.of config (ms.map (·.transformer)) ambient files (fun _ => True) input) input
          ms s ∧
        (execute config (ms.map (·.transformer)) ambient files).files = s.files ∧
        report = s.report := by
  dsimp only [execute] at hok ⊢
  rcases setUp_of_report hok with hs | ⟨setup, files', hs⟩
  · rcases setUp_eq_none hs with hnone | hnone
    · exact absurd (List.map_eq_nil_iff.1 hnone) hms
    · rw [hin] at hnone
      cases hnone
  obtain ⟨hsame, hin', houtput, hcontext⟩ := setUp_eq_ok hs
  cases hin.symm.trans hin'
  rw [Config.classOutput_of_input hin] at houtput
  obtain ⟨-, hroot, hchecks, -⟩ := setUp_parts hs
  let g := Outset.of config (ms.map (·.transformer)) ambient files (fun _ => True) setup.input
  obtain ⟨s, hpassed, hends⟩ := exists_ends (g := g) (hplace.begins hin hroot) hapart
    (fun _ => trivial) rfl (checkRoot_eq_ok_iff.1 hroot) (sound_of_setUp hs hsound) hsame
  have hbehind : leaves (passOver State.transform setup.input
      (passes (ms.map (·.transformer)) setup.output)) (.start files' setup.context) = s := by
    rw [houtput, hcontext]
    exact leaves_of_ok hpassed
  obtain ⟨-, hfiles, hreport⟩ := run_of_setUp State.transform hs
  rw [hbehind] at hfiles hreport
  exact ⟨hchecks, s, hends, hfiles, hreport report hok⟩

theorem markersApart_singleton {m : MarkerField} (h : m.field ≠ m.transformer.stamp.field) :
    MarkersApart [m] := by
  refine ⟨List.nodup_singleton _, fun m₁ hm₁ m₂ hm₂ => ?_⟩
  rw [List.mem_singleton.1 hm₁, List.mem_singleton.1 hm₂]
  exact h

/-- Without markers or without input there is nothing to do. -/
theorem execute_nothing (h : ms = [] ∨ config.inputDirectory? = none) (files : FileTree) :
    execute config (ms.map (·.transformer)) ambient files =
      { report := .ok .empty, files, log := [] } := by
  rcases h with rfl | hin
  · rfl
  · exact run_of_no_input hin

/-- What a run of markers in place leaves behind in which nothing goes wrong. A class that
is found, and has its file, declares the field of every marker in whose scope it is, or
carried the stamp of this marker before. All other files are as they were. The same run
again writes a class only if it has no file, and nothing at all if the roots of the ambient
classpath lead to what was there before the first run, and the loader answers as before. -/
theorem scope_marked (hsound : files.Sound) (hplace : config.InPlace files)
    (hapart : MarkersApart ms)
    (hok : (execute config (ms.map (·.transformer)) ambient files).report = .ok report)
    (hclean : report.isClean = true) :
    let after := (execute config (ms.map (·.transformer)) ambient files).files
    let again := execute config (ms.map (·.transformer)) ambient after
    let place n := files.placeOf (config.classOutput.pathFor n)
    (∀ input names, config.inputDirectory? = some input → candidates files input = .ok names →
      ∀ n ∈ names, ∀ content, files.fileAt? (place n) = some content →
        ∀ m ∈ ms, m.inScope n = true → ∃ bytes c, after.fileAt? (place n) = some bytes ∧
          ClassFile.parse bytes = .ok c ∧ (c.Declares m.field ∨
            ∃ b, ClassFile.parse content = .ok b ∧ b.Declares m.transformer.stamp.field)) ∧
    (∀ n, (∀ m ∈ ms, m.inScope n = false) → after.fileAt? (place n) = files.fileAt? (place n)) ∧
    (∀ p, after.fileAt? p ≠ files.fileAt? p → ∃ n, p = place n ∧ ∃ m ∈ ms, m.inScope n = true) ∧
    ∃ report', again.report = .ok report' ∧
      (∀ p, again.files.fileAt? p ≠ after.fileAt? p →
        ∃ o ∈ report'.outcomes, o.state = .written ∧ p = place o.name) ∧
      (∀ o ∈ report'.outcomes, o.state = .written → after.fileAt? (place o.name) = none) ∧
      (config.Steady ambient files →
        (∀ p, again.files.fileAt? p = after.fileAt? p) ∧
          ∀ o ∈ report'.outcomes, o.state ≠ .written) := by
  dsimp only
  by_cases hnothing : ms = [] ∨ config.inputDirectory? = none
  · rw [execute_nothing hnothing, execute_nothing hnothing]
    refine ⟨fun input names hin _ n _ content _ m hm => ?_, fun n _ => rfl,
      fun p hne => absurd rfl hne, .empty, rfl, fun p hne => absurd rfl hne,
      fun o ho => (nomatch ho), fun _ => ⟨fun p => rfl, fun o ho => (nomatch ho)⟩⟩
    rcases hnothing with rfl | hnone
    · cases hm
    · rw [hin] at hnone
      cases hnone
  obtain ⟨hms, hinput⟩ := not_or.1 hnothing
  obtain ⟨input, hin⟩ := Option.ne_none_iff_exists'.1 hinput
  obtain ⟨report', hok'⟩ := run_again settled_transform hok
  obtain ⟨hchecks, s, h, hfiles, rfl⟩ := execute_markers hsound hplace hapart hms hin hok
  change (execute _ _ _ (execute _ _ _ _).files).report = _ at hok'
  simp only [hplace.placeOf_pathFor hin]
  rw [hfiles] at hok' ⊢
  obtain ⟨-, s', h', hfiles', rfl⟩ := execute_markers h.underway.marking.sound
    (hplace.of_settled h.underway.inv.disk.settled) hapart hms hin hok'
  rw [hfiles']
  refine ⟨fun input' names hin' hnames n hn content hat m hm hscope => ?_,
    fun n hn => h.kept_of_not_inScope hn, fun p hne => h.changed_inScope hne, _, hok',
    fun p hne => h.changed_again h' rfl hne,
    fun o ho hstate => h.no_file_of_written_again h' rfl hclean ho hstate, fun hambient => ?_⟩
  · cases hin.symm.trans hin'
    exact h.marks hclean hsound hnames hn hm hscope hat
  · have hnone : ∀ o ∈ s'.report.outcomes, o.state ≠ .written := fun o ho hstate =>
      h.not_steady_of_written_again h' rfl hclean ho hstate rfl (steady_entries hchecks hambient)
    refine ⟨fun p => by_contra fun hne => ?_, hnone⟩
    obtain ⟨o, ho, hstate, -⟩ := h.changed_again h' rfl hne
    exact hnone o ho hstate

/-- The marker of one package. -/
def appMarker : MarkerField := { MarkerField.default with packages := ["app"] }

/-- Of the classes in the packages that of `app` is marked, and that once; the others are left
as they are. -/
theorem package_scope_marked : ∃ report,
    let r := execute (.new ⟨"classes"⟩) [appMarker.transformer] [] packagedFiles
    let place n := packagedFiles.placeOf ((Config.new ⟨"classes"⟩).classOutput.pathFor n)
    r.report = .ok report ∧ report.isClean = true ∧
      (∃ bytes c, r.files.fileAt? (place mainName) = some bytes ∧
        ClassFile.parse bytes = .ok c ∧ c.Declares appMarker.field) ∧
      (∀ n ∈ [startName, toolName], (packagedFiles.fileAt? (place n)).isSome = true ∧
        r.files.fileAt? (place n) = packagedFiles.fileAt? (place n)) ∧
      ∀ p, (execute (.new ⟨"classes"⟩) [appMarker.transformer] [] r.files).files.fileAt? p =
        r.files.fileAt? p := by
  have hroot : packagedFiles.isDirectory ⟨"classes"⟩ = true := by decide +kernel
  have hchecks : ∀ e ∈ (Config.new ⟨"classes"⟩).entries ⟨"classes"⟩ [],
      e.check packagedFiles = .ok () := Config.check_entries hroot (List.forall_mem_nil _)
  have hkinds : kinds packagedFiles ⟨"classes"⟩ = some packagedKinds := by decide +kernel
  obtain ⟨report, hok, hclean⟩ : ∃ report, (execute (.new ⟨"classes"⟩)
      ([appMarker].map (·.transformer)) [] packagedFiles).report = .ok report ∧
        report.isClean = true :=
    ⟨_, (run_of_kinds (by decide +kernel) rfl hroot hchecks hkinds (by decide)).1,
      by decide +kernel⟩
  obtain ⟨hmarked, hothers, -, report', -, -, -, hagain⟩ :=
    scope_marked packagedFiles_sound (fun input hin => by cases hin; rfl)
      (markersApart_singleton (by decide +kernel)) hok hclean
  -- the class is without fields at first
  obtain ⟨content, hcontent, hfields⟩ := Option.map_eq_some_iff.1
    (show (packagedFiles.fileAt? (packagedFiles.placeOf
        ((Config.new ⟨"classes"⟩).classOutput.pathFor mainName))).map
          (fun bytes => (ClassFile.parse bytes).toOption.map (·.fields)) = some (some []) by
      decide +kernel)
  obtain ⟨b, hparse, hnone⟩ := exists_eq_ok hfields
  obtain ⟨bytes, c, hat, hc, hdeclares⟩ := hmarked ⟨"classes"⟩ _ rfl candidates_packaged
    mainName (by decide) content hcontent appMarker List.mem_cons_self (by decide +kernel)
  refine ⟨report, hok, hclean, ⟨bytes, c, hat, hc, hdeclares.resolve_right ?_⟩, fun n hn => ?_,
    (hagain ⟨fun root hroot => (nomatch hroot), fun l hl => (nomatch hl)⟩).1⟩
  · rintro ⟨b', hb', hdeclares⟩
    cases hparse.symm.trans hb'
    rw [ClassFile.Declares, ClassFile.declaredField?, hnone] at hdeclares
    cases hdeclares
  · have hout : (packagedFiles.fileAt? (packagedFiles.placeOf
        ((Config.new ⟨"classes"⟩).classOutput.pathFor n))).isSome = true ∧
          appMarker.inScope n = false := by
      revert n
      decide +kernel
    exact ⟨hout.1, hothers n (List.forall_mem_singleton.2 hout.2)⟩

/-! ## A root that comes into being -/

/-- A directory with two files whose names stand for the classes `A.N` and `k.a.X`. These
are found elsewhere, `A.N` with the stamp below `lib2` and without it below `lib`. -/
def rerunFiles : FileTree :=
  let file (n : ClassName) (stamped : Bool) : String × FileTree.Node :=
    (n.simpleName ++ ".class", .file (classBytes n stamped))
  { workingDirectory := ["work"],
    root := [("work", .directory [
      ("in", .directory [("A.N.class", .file []), ("k", .directory [("a.X.class", .file [])])]),
      ("lib", .directory [("A", .directory [file missingName false])]),
      ("lib2", .directory [("A", .directory [file missingName true]),
        ("k", .directory [("a", .directory [file movedName false])])])])] }

/-- What is in the directory. -/
def rerunKinds : List (String × Bool) := [("A.N.class", false), ("k", true)]

/-- The run behind some entries of the directory. -/
def rerunState (t : FileTree) (es : List (String × Bool)) : State :=
  stateBehind State.transform (.new ⟨"in"⟩) stamper detourAmbient t ⟨"in"⟩ es

theorem execute_rerun {t : FileTree} (hroot : t.isDirectory ⟨"in"⟩ = true)
    (hkinds : kinds t ⟨"in"⟩ = some rerunKinds) :
    (execute (.new ⟨"in"⟩) [stamper] detourAmbient t).report =
        .ok (rerunState t rerunKinds).report ∧
      (execute (.new ⟨"in"⟩) [stamper] detourAmbient t).files =
        (rerunState t rerunKinds).files := by
  have hchecks : ∀ e ∈ (Config.new ⟨"in"⟩).entries ⟨"in"⟩ detourAmbient, e.check t = .ok () :=
    Config.check_entries hroot (List.forall_mem_nil _)
  exact run_of_kinds (by decide +kernel) rfl hroot hchecks hkinds (by decide)

/-- What the run says and leaves, and what it begins with when it is run again. -/
theorem rerun_behind :
    let s := rerunState rerunFiles rerunKinds
    s.report.isClean = true ∧ s.files.isDirectory ⟨"in"⟩ = true ∧
      kinds s.files ⟨"in"⟩ = some rerunKinds ∧
      told (rerunState s.files [("A.N.class", false)]) =
        [(stamper.identity, missingName, .written)] := by
  decide +kernel

/-- The root below which a class is without the mark is there only when the run made a
directory. So the same run again writes this class. -/
theorem late_root_marks_again :
    rerunFiles.Sound ∧ (Config.new ⟨"in"⟩).InPlace rerunFiles ∧ MarkersApart [.default] ∧
      ∃ report report',
        let r := execute (.new ⟨"in"⟩) [MarkerField.default.transformer] detourAmbient rerunFiles
        r.report = .ok report ∧ report.isClean = true ∧
          (execute (.new ⟨"in"⟩) [MarkerField.default.transformer] detourAmbient r.files).report =
            .ok report' ∧ ∃ o ∈ report'.outcomes, o.state = .written := by
  obtain ⟨hclean, hroot, hkinds, htold⟩ := rerun_behind
  obtain ⟨hreport, hfiles⟩ := execute_rerun (t := rerunFiles) (by decide +kernel)
    (by decide +kernel)
  obtain ⟨hreport', -⟩ := execute_rerun hroot hkinds
  obtain ⟨o, ho, -, -, hstate⟩ := mem_told (htold ▸ List.mem_cons_self)
  refine ⟨FileTree.sound_of_nodes (by decide +kernel) (by decide +kernel),
    fun input hin => by cases hin; rfl, markersApart_singleton (by decide +kernel), _,
    (rerunState (rerunState rerunFiles rerunKinds).files rerunKinds).report, hreport, hclean, ?_,
    o, outcomes_stateBehind outcomes_transform ho, hstate⟩
  show (execute _ [stamper] _ (execute _ [stamper] _ _).files).report = _
  rw [hfiles]
  exact hreport'

end Run

end ClassStamp
