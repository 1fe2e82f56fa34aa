import ClassStamp.Fixture
import ClassStamp.Proofs.Classpath.Independence
import ClassStamp.Proofs.FileTree.Nodes
import ClassStamp.Proofs.Run.ExactlyOnce

/-!
# The stamps of a class tell who wrote it

If no class in the input carries a stamp when a run of additive transformers
begins, the file of a class that was written has the stamps of exactly those
transformers that say so in the report, and it came about by what each of them
made of the class, in order. A class without a file of its own in the input comes
from elsewhere on the classpath, and may bring a stamp along.

* `Config.InTree` and `Config.Holds`: the classes of the input, and those that the
  classpath of a run has;
* `describes_of_declared`: where a stamp comes from;
* `Stamped` and `Telling` are what the file of a written class looks like, and
  `stamps_tell_writers` the theorem;
* `supplied_stamp_stays`: a class from elsewhere that carries a stamp.
-/

namespace ClassStamp.Run

open ClassFile (Grows Describes)
open FileTree (Settled)

/-! ## Classes without stamps -/

/-- Every class file below the input directory is such a one. -/
def Config.InTree (config : Config) (files : FileTree) (P : ClassFile → Prop) : Prop :=
  ∀ input, config.inputDirectory? = some input → ∀ below bytes c,
    files.fileAt? (below ++ files.placeOf input) = some bytes → ClassFile.parse bytes = .ok c → P c

/-- The class file carries the stamp of none of the transformers, and the names of
its fields are constants that are there. -/
structure StampFree (transformers : List Transformer) (c : ClassFile) : Prop where
  inside : c.IndicesInside
  none : ∀ t ∈ transformers, ¬ c.Declares t.stamp.field

/-- The classpath has a class file for the class. -/
def Config.Holds (config : Config) (ambient : List Path) (files : FileTree) (n : ClassName)
    (c : ClassFile) : Prop :=
  ∃ input, config.inputDirectory? = some input ∧ ∃ entry ∈ config.entries input ambient,
    ∃ bytes, entry.Has files n bytes ∧ ClassFile.parse bytes = .ok c ∧ c.name = .ok n

/-- The class has a file of its own in the input, or else the classpath has only
class files without stamps for it. -/
def Config.BringsNoStamp (config : Config) (transformers : List Transformer)
    (ambient : List Path) (files : FileTree) (n : ClassName) : Prop :=
  (∃ input, config.inputDirectory? = some input ∧
    (files.fileAt? (files.placeOf (input.join n.relativePath))).isSome) ∨
  ∀ c, config.Holds ambient files n c → StampFree transformers c

/-- The field is named like none of the stamps. -/
def IsNoStamp (transformers : List Transformer) (spec : FieldSpec) : Prop :=
  ∀ t ∈ transformers, spec.name ≠ t.stamp.field

instance (transformers : List Transformer) (spec : FieldSpec) :
    Decidable (IsNoStamp transformers spec) :=
  inferInstanceAs (Decidable (∀ t ∈ transformers, _))

/-- What an entry of the classpath answers with during a run was there for the
class at the outset. -/
theorem has_of_supplies {g : Outset} {n : ClassName} {c : ClassFile} (h : g.Supplies n c) :
    ∃ entry ∈ g.entries, ∃ bytes, entry.Has g.files n bytes ∧ ClassFile.parse bytes = .ok c := by
  obtain ⟨hname, files, found, hsettled, hsame, hfound, hparse⟩ := h
  obtain ⟨entry, hentry, hload⟩ := Classpath.firstFound_eq_some hfound
  refine ⟨entry, hentry, found.content, ?_, hparse⟩
  have hhas := Classpath.has_of_load hload
  cases entry with
  | directory root =>
    rw [Classpath.Entry.Has, hsettled.placeOf] at hhas
    exact hsame _ _ c hhas hparse hname
  | loader l =>
    exact Classpath.Loader.Has.earlier hhas hsettled fun place hat => hsame _ _ c hat hparse hname
  | system roots =>
    obtain ⟨root, hroot, hat⟩ := hhas
    rw [hsettled.placeOf] at hat
    exact ⟨root, hroot, hsame _ _ c hat hparse hname⟩

/-! ## Where a stamp comes from -/

section

variable {config : Config} {transformers : List Transformer} {ambient : List Path}
  {files : FileTree} {input : Path} {log : List Event} {n : ClassName} {b c : ClassFile}

theorem holds_of_supplies (hin : config.inputDirectory? = some input) {allowed : FieldSpec → Prop}
    (hb : (Outset.of config transformers ambient files allowed input).Supplies n b) :
    config.Holds ambient files n b := by
  obtain ⟨entry, hentry, bytes, hhas, hparse⟩ := has_of_supplies hb
  exact ⟨input, hin, entry, hentry, bytes, hhas, hparse, hb.1⟩

/-- What a class is made from carries no stamp, unless it brings one along from
elsewhere. -/
theorem stampFree_of_supplies (hclean : config.InTree files (StampFree transformers))
    (hin : config.inputDirectory? = some input) (hroot : checkRoot files input = .ok ())
    (hn : config.BringsNoStamp transformers ambient files n) {allowed : FieldSpec → Prop}
    (hb : (Outset.of config transformers ambient files allowed input).Supplies n b) :
    StampFree transformers b := by
  rcases hn with ⟨input', hin', hfile⟩ | hn
  · cases hin.symm.trans hin'
    obtain ⟨bytes, hat⟩ := Option.isSome_iff_exists.1 hfile
    rw [FileTree.placeOf_join] at hat
    have hentries : (Outset.of config transformers ambient files allowed input).entries =
        .directory input :: (config.entries input ambient).tail := rfl
    have hparse := parse_of_supplies hentries hroot hat hb
    exact hclean input hin _ bytes b hat hparse
  · exact hn b (holds_of_supplies hin hb)

/-- A field with the name of a stamp is the stamp, and its transformer wrote
the class. -/
theorem describes_of_declared
    (hfree : ∀ b, (Outset.of config transformers ambient files (IsNoStamp transformers)
      input).Supplies n b → StampFree transformers b)
    (hdistinct : (transformers.map (·.stamp.field)).Nodup)
    (hledger : Ledger (.of config transformers ambient files (IsNoStamp transformers) input) log)
    (hc : Traced (.of config transformers ambient files (IsNoStamp transformers) input) log n c)
    {t : Transformer} (ht : t ∈ transformers) {m : Member} (hm : m ∈ c.fields)
    (hname : c.pool.get? m.nameIndex = some (.utf8 (ModifiedUtf8.encode t.stamp.field))) :
    (∃ o, .noted o ∈ log ∧ o.Writes n ∧ o.transformer = t.identity) ∧
      Describes c.pool (t.stamp.spec c.isInterface) m := by
  obtain ⟨b, hb, hgrows⟩ := hc.origin
  obtain ⟨hinside, hnone⟩ := hfree b hb
  obtain ⟨spec, hspec, hsame, hdescribes⟩ :=
    ClassFile.added_of_declared hgrows hb.size hinside (hnone t ht) hm hname
  rcases hspec with hspec | ⟨o, ho, hw, rfl⟩
  · exact absurd hsame (hspec t ht)
  -- the stamp is that of a transformer of the run, and no other has the same
  obtain ⟨t', ht', hidentity⟩ := List.mem_map.1 (hledger.known o ho)
  have hfield : t'.stamp.field = t.stamp.field := by
    rw [Transformer.stamp, hidentity]
    exact hsame
  obtain rfl := List.inj_on_of_nodup_map hdistinct ht' ht hfield
  rw [← hidentity] at hdescribes
  exact ⟨⟨o, ho, hw, hidentity.symm⟩, hdescribes⟩

end

/-! ## The file of a class that was written -/

/-- The class file came about by what transformers made of a class file from the
classpath, each of those that say in the report that they wrote the class in its
turn, and it has the stamps of all of these. -/
structure Stamped (config : Config) (transformers : List Transformer) (ambient : List Path)
    (files : FileTree) (output : Output) (report : Report) (n : ClassName) (c : ClassFile) :
    Prop where
  name : c.name = .ok n
  known : ∀ o ∈ report.outcomes, o.Writes n → ∃ t ∈ transformers, o.transformer = t.identity
  lineage : Lineage transformers output (IsNoStamp transformers) (config.Holds ambient files n) n
    (report.outcomes.filter (·.Writes n)) c
  declares : ∀ o ∈ report.outcomes, o.Writes n →
    c.Declares (Stamp.forIdentity o.transformer).field

/-- The class file has the stamps of no other transformers than those that say in
the report that they wrote the class, and no other fields with these names. -/
structure Telling (transformers : List Transformer) (report : Report) (n : ClassName)
    (c : ClassFile) : Prop where
  declares : ∀ t ∈ transformers, c.Declares t.stamp.field ↔
    ∃ o ∈ report.outcomes, o.Writes n ∧ o.transformer = t.identity
  fields : ∀ t ∈ transformers, ∀ m ∈ c.fields,
    c.pool.get? m.nameIndex = some (.utf8 (ModifiedUtf8.encode t.stamp.field)) →
      c.pool.get? m.descriptorIndex = some (.utf8 (ModifiedUtf8.encode "Z")) ∧
      m.accessFlags = (if c.isInterface then AccessFlags.publicFlag else .privateFlag) |||
        .staticFlag ||| .finalFlag

section

variable {config : Config} {transformers : List Transformer} {ambient : List Path}
  {files : FileTree} {input : Path} {log : List Event} {report : Report} {n : ClassName}
  {c : ClassFile}

theorem stamped_of_traced (hin : config.inputDirectory? = some input)
    (hledger : Ledger (.of config transformers ambient files (IsNoStamp transformers) input) log)
    (hreport : report.outcomes = log.filterMap Event.outcome?)
    (hc : Traced (.of config transformers ambient files (IsNoStamp transformers) input) log n c) :
    Stamped config transformers ambient files ⟨config.outputDirectory?.getD input⟩ report n c := by
  refine ⟨hc.name, fun o ho _ => ?_, ?_, fun o ho hw => ?_⟩
  · rw [hreport, mem_outcomes] at ho
    obtain ⟨t, ht, hidentity⟩ := List.mem_map.1 (hledger.known o ho)
    exact ⟨t, ht, hidentity.symm⟩
  · rw [hreport]
    exact hc.lineage.mono fun b hb => holds_of_supplies hin hb
  · rw [hreport, mem_outcomes] at ho
    obtain ⟨bytes, d, -, -, hdeclares, hd⟩ := hc.written ho hw
    exact ClassFile.declared_of_grows hd hdeclares

theorem telling_of_traced
    (hfree : ∀ b, (Outset.of config transformers ambient files (IsNoStamp transformers)
      input).Supplies n b → StampFree transformers b)
    (hdistinct : (transformers.map (·.stamp.field)).Nodup)
    (hledger : Ledger (.of config transformers ambient files (IsNoStamp transformers) input) log)
    (hreport : report.outcomes = log.filterMap Event.outcome?)
    (hc : Traced (.of config transformers ambient files (IsNoStamp transformers) input) log n c) :
    Telling transformers report n c := by
  have hlog : ∀ o, o ∈ report.outcomes ↔ .noted o ∈ log := fun o => by
    rw [hreport]
    exact mem_outcomes
  have hwrote : ∀ t ∈ transformers, ∀ m ∈ c.fields,
      c.pool.get? m.nameIndex = some (.utf8 (ModifiedUtf8.encode t.stamp.field)) →
      (∃ o, .noted o ∈ log ∧ o.Writes n ∧ o.transformer = t.identity) ∧
        Describes c.pool (t.stamp.spec c.isInterface) m := fun t ht m hm hname =>
    describes_of_declared hfree hdistinct hledger hc ht hm hname
  refine ⟨fun t ht => ⟨fun hdeclares => ?_, ?_⟩, fun t ht m hm hname => ?_⟩
  · obtain ⟨m, hm, hname⟩ := ClassFile.declares_iff.1 hdeclares
    obtain ⟨o, ho, hw, hidentity⟩ := (hwrote t ht m hm hname).1
    exact ⟨o, (hlog o).2 ho, hw, hidentity⟩
  · rintro ⟨o, ho, hw, hidentity⟩
    obtain ⟨bytes, d, -, -, hdeclares, hd⟩ := hc.written ((hlog o).1 ho) hw
    rw [hidentity] at hdeclares
    exact ClassFile.declared_of_grows hd hdeclares
  · have hdescribes := (hwrote t ht m hm hname).2
    exact ⟨hdescribes.descriptor, hdescribes.accessFlags⟩

end

/-- A run changes no file of a class that nobody wrote. The file of a class that was
written is read as what its writers made of it one after the other, with their
stamps, and with no other ones unless the class brings them along from elsewhere. -/
theorem stamps_tell_writers {config : Config} {transformers : List Transformer}
    {ambient : List Path} {files : FileTree} {report : Report}
    (hadd : ∀ t ∈ transformers, t.Additive (IsNoStamp transformers))
    (hdistinct : (transformers.map (·.stamp.field)).Nodup)
    (hclean : config.InTree files (StampFree transformers))
    (hok : (execute config transformers ambient files).report = .ok report) (n : ClassName) :
    let after := (execute config transformers ambient files).files
    ((∀ o ∈ report.outcomes, ¬ o.Writes n) →
      ∀ output, config.outputDirectory? = some output →
        after.fileAt? (files.placeOf (output.join n.relativePath)) =
          files.fileAt? (files.placeOf (output.join n.relativePath))) ∧
    ((∃ o ∈ report.outcomes, o.Writes n) →
      ∃ output bytes c, config.outputDirectory? = some output ∧
        after.read (output.join n.relativePath) = .ok bytes ∧ ClassFile.parse bytes = .ok c ∧
        Stamped config transformers ambient files ⟨output⟩ report n c ∧
        (config.BringsNoStamp transformers ambient files n → Telling transformers report n c)) := by
  rcases execute_cases hadd config ambient files with
    ⟨-, hsame, hnone⟩ | ⟨input, s, hin, hroot, hs, hlog, hfiles, hreport⟩
  · refine ⟨fun _ output _ => hsame.contents _, fun ⟨o, ho, _⟩ => ?_⟩
    rw [hnone report hok] at ho
    cases ho
  have houtput := Config.outputDirectory?_of_input hin
  have houtcomes : report.outcomes = s.log.filterMap Event.outcome? := by
    rw [hreport report hok]
    exact hs.report
  rw [hfiles]
  refine ⟨fun hnot output hout => hs.disk.others _ fun m hm hp => ?_, fun ⟨o, ho, hw⟩ => ?_⟩
  · rw [houtput] at hout
    obtain rfl := Option.some.inj hout
    obtain rfl := FileTree.placeOf_join_inj hp
    obtain ⟨o, ho, hw⟩ := hm
    refine hnot o ?_ hw
    rw [houtcomes]
    exact mem_outcomes.2 ho
  · rw [houtcomes] at ho
    obtain ⟨bytes, c, hread, hparse, hc⟩ := hs.disk.written n ⟨o, mem_outcomes.1 ho, hw⟩
    refine ⟨_, bytes, c, houtput, hread, hparse, stamped_of_traced hin hs.ledger houtcomes hc,
      fun hn => telling_of_traced (fun b hb => ?_) hdistinct hs.ledger houtcomes hc⟩
    exact stampFree_of_supplies hclean hin hroot hn hb

/-! ## A class of the input -/

/-- Two transformers with a field each. -/
def twoMarkers : List Transformer :=
  [MarkerField.default.transformer, MarkerField.transformer { field := "second", packages := [] }]

theorem twoMarkers_additive : ∀ t ∈ twoMarkers, t.Additive (IsNoStamp twoMarkers) := by
  intro t ht
  rcases List.mem_pair.1 ht with rfl | rfl
  · exact MarkerField.additive _ (by decide +kernel)
  · exact MarkerField.additive _ (by decide +kernel)

/-- A file below a directory with one entry is below that entry. -/
theorem below?_singleton {name : String} {node : FileTree.Node} {names : List String}
    {bytes : Bytes} (h : FileTree.Node.below? names (.directory [(name, node)]) =
      some (.file bytes)) : ∃ rest, FileTree.Node.below? rest node = some (.file bytes) := by
  cases names with
  | nil => cases h
  | cons first rest =>
    rw [FileTree.Node.below?, List.lookup_cons] at h
    cases hsame : first == name with
    | true =>
      rw [hsame] at h
      exact ⟨rest, h⟩
    | false =>
      rw [hsame] at h
      cases h

theorem plainFiles_file {place : FileTree.Place} {bytes : Bytes}
    (h : plainFiles.fileAt? place = some bytes) : bytes = plainBytes := by
  obtain ⟨names, h⟩ := below?_singleton (FileTree.fileAt?_eq_some_iff.1 h)
  obtain ⟨names, h⟩ := below?_singleton h
  obtain ⟨names, h⟩ := below?_singleton h
  cases names with
  | nil =>
    cases h
    rfl
  | cons name names => cases h

/-- The one class on the classpath has no fields. -/
theorem fields_of_plainFiles {n : ClassName} {c : ClassFile}
    (h : (Config.new ⟨"classes"⟩).Holds [] plainFiles n c) : c.fields = [] := by
  obtain ⟨input, hin, entry, hentry, bytes, hhas, hparse, -⟩ := h
  have hbytes : bytes = plainBytes := by
    rcases List.mem_pair.1 hentry with rfl | rfl
    · exact plainFiles_file hhas
    · obtain ⟨root, hroot, -⟩ := hhas
      cases hroot
  have hfields : (ClassFile.parse plainBytes).toOption.map (·.fields) = some [] := by
    decide +kernel
  rw [← hbytes, hparse] at hfields
  exact Option.some.inj hfields

/-- Whether the node is no class file with more fields than that. -/
def hasFewFields (fields : Nat) : FileTree.Node → Bool
  | .directory _ => true
  | .file bytes => match ClassFile.parse bytes with
    | .ok c => c.fields.length ≤ fields
    | .error _ => true

/-- The files of a tree that is known in full can be looked through for class files that
have as many fields as the one in question may have. -/
theorem Config.inTree_of_nodes {config : Config} {files : FileTree} {input : Path}
    {P : ClassFile → Prop} (hin : config.inputDirectory? = some input) (fields : Nat)
    (hP : ∀ c : ClassFile, c.fields.length ≤ fields → P c)
    (h : ∀ x ∈ files.nodes, files.placeOf input <:+ x.1 → hasFewFields fields x.2 = true) :
    config.InTree files P := by
  intro input' hin' below bytes c hat hparse
  cases hin.symm.trans hin'
  have hnode := FileTree.fileAt?_eq_some_iff.1 hat
  have hne : below ++ files.placeOf input ≠ [] := fun he => by
    rw [he] at hnode
    cases hnode
  have hfew := h _ (FileTree.mem_nodes hne hnode) (List.suffix_append below (files.placeOf input))
  rw [hasFewFields, hparse] at hfew
  exact hP c (of_decide_eq_true hfew)

theorem stampFree_of_no_fields {transformers : List Transformer} {c : ClassFile}
    (h : c.fields.length ≤ 0) : StampFree transformers c := by
  have hnone : c.fields = [] := List.length_eq_zero_iff.1 (Nat.le_zero.1 h)
  refine ⟨fun m hm => ?_, fun t _ hdeclares => ?_⟩
  · rw [hnone] at hm
    cases hm
  · obtain ⟨m, hm, -⟩ := ClassFile.declares_iff.1 hdeclares
    rw [hnone] at hm
    cases hm

/-- Both transformers write the one class, whose file has both stamps then. -/
theorem twoMarkers_stamp : ∃ report,
    (execute (.new ⟨"classes"⟩) twoMarkers [] plainFiles).report = .ok report ∧
    ∃ bytes c, (execute (.new ⟨"classes"⟩) twoMarkers [] plainFiles).files.read
      ⟨"classes/A.class"⟩ = .ok bytes ∧ ClassFile.parse bytes = .ok c ∧
      Stamped (.new ⟨"classes"⟩) twoMarkers [] plainFiles ⟨⟨"classes"⟩⟩ report plainName c ∧
      Telling twoMarkers report plainName c := by
  obtain ⟨report, hreport, houtcomes⟩ : ∃ report,
      (execute (.new ⟨"classes"⟩) twoMarkers [] plainFiles).report = .ok report ∧
        report.outcomes.map (fun o => (o.name, o.state)) =
          [(plainName, .written), (plainName, .written)] :=
    exists_eq_ok (by decide +kernel)
  obtain ⟨o, rest, hfirst, ho, -⟩ := List.map_eq_cons_iff.1 houtcomes
  have hwritten : ∃ o ∈ report.outcomes, o.Writes plainName :=
    ⟨o, by rw [hfirst]; exact List.mem_cons_self, (Prod.mk.inj ho).1, (Prod.mk.inj ho).2⟩
  have hclean : (Config.new ⟨"classes"⟩).InTree plainFiles (StampFree twoMarkers) :=
    Config.inTree_of_nodes rfl 0 (fun _ => stampFree_of_no_fields) (by decide +kernel)
  obtain ⟨-, hfile⟩ := stamps_tell_writers twoMarkers_additive (by decide +kernel) hclean hreport
    plainName
  obtain ⟨output, bytes, c, hout, hread, hparse, hc, htelling⟩ := hfile hwritten
  have hclasses : (Config.new ⟨"classes"⟩).outputDirectory? = some ⟨"classes"⟩ := by
    decide +kernel
  obtain rfl := Option.some.inj (hclasses.symm.trans hout)
  have hown : (Config.new ⟨"classes"⟩).BringsNoStamp twoMarkers [] plainFiles plainName :=
    .inl ⟨⟨"classes"⟩, rfl, by decide +kernel⟩
  exact ⟨report, hreport, bytes, c, hread, hparse, hc, htelling hown⟩

/-! ## A class from elsewhere -/

open Classpath.Context (innerName outerName)

/-- Two transformers that open the class inside `Outer`. -/
def innerOpeners : List Transformer :=
  [.opener "first" [innerName], .opener "second" [innerName]]

/-- A directory with `Outer`, and one with the class inside it, which carries the stamp
of the first transformer. -/
def broughtFiles : FileTree :=
  let outer : Fixture := { Fixture.ofName outerName with nested := [innerName] }
  let inner : Fixture :=
    { Fixture.ofName innerName with fields := [(Stamp.forIdentity "first").field] }
  leaves (inner.writeTo ⟨"lib"⟩) (leaves (outer.writeTo ⟨"in"⟩) (.empty ["work"]))

/-- A run over the first directory, with the second one on the classpath. -/
def broughtConfig : Config := { Config.new ⟨"in"⟩ with classpath := [⟨"lib"⟩] }

/-- No class of the input carries a stamp, and still the file of a class that was written
may have one of a transformer that does not say so: the class was found elsewhere on the
classpath, with the stamp. -/
theorem supplied_stamp_stays :
    (∀ t ∈ innerOpeners, t.Additive (IsNoStamp innerOpeners)) ∧
    (innerOpeners.map (·.stamp.field)).Nodup ∧
    broughtConfig.InTree broughtFiles (StampFree innerOpeners) ∧
    ∃ report, (execute broughtConfig innerOpeners [] broughtFiles).report = .ok report ∧
      (∃ o ∈ report.outcomes, o.Writes innerName) ∧
      ∃ bytes c, (execute broughtConfig innerOpeners [] broughtFiles).files.read
          (broughtConfig.classOutput.pathFor innerName) = .ok bytes ∧
        ClassFile.parse bytes = .ok c ∧
        ∃ t ∈ innerOpeners, c.Declares t.stamp.field ∧
          ∀ o ∈ report.outcomes, o.Writes innerName → o.transformer ≠ t.identity := by
  refine ⟨fun t ht => ?_, by decide +kernel,
    Config.inTree_of_nodes rfl 0 (fun _ => stampFree_of_no_fields) (by decide +kernel), ?_⟩
  · rcases List.mem_pair.1 ht with rfl | rfl
    · exact Transformer.opener_additive (by decide +kernel) _
    · exact Transformer.opener_additive (by decide +kernel) _
  obtain ⟨report, hreport, houtcomes⟩ : ∃ report,
      (execute broughtConfig innerOpeners [] broughtFiles).report = .ok report ∧
        (report.outcomes.filter (·.Writes innerName)).map (·.transformer) = ["second"] :=
    exists_eq_ok (by decide +kernel)
  obtain ⟨bytes, hread, hfile⟩ : ∃ bytes,
      (execute broughtConfig innerOpeners [] broughtFiles).files.read
          (broughtConfig.classOutput.pathFor innerName) = .ok bytes ∧
        (ClassFile.parse bytes).toOption.map
          (fun c => (c.declaredField? (Stamp.forIdentity "first").field).isSome) = some true :=
    exists_eq_ok (by decide +kernel)
  obtain ⟨c, hparse, hdeclares⟩ := exists_eq_ok hfile
  obtain ⟨o, rest, hwritten, -, -⟩ := List.map_eq_cons_iff.1 houtcomes
  obtain ⟨ho, hw⟩ := List.mem_filter.1 (hwritten ▸ List.mem_cons_self)
  refine ⟨report, hreport, ⟨o, ho, of_decide_eq_true hw⟩, bytes, c, hread, hparse, _,
    List.mem_cons_self, hdeclares, fun o' ho' hw' he => ?_⟩
  have hmem : o'.transformer ∈ ["second"] := by
    rw [← houtcomes]
    exact List.mem_map_of_mem (List.mem_filter.2 ⟨ho', decide_eq_true hw'⟩)
  rw [he] at hmem
  exact absurd hmem (by decide +kernel)

end ClassStamp.Run
