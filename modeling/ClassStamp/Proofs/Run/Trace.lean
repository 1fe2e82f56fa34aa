import ClassStamp.Proofs.Additive
import ClassStamp.Proofs.ClassFile.RoundTrip
import ClassStamp.Proofs.Output
import ClassStamp.Run.Execution

/-!
# Where a class comes from

Whatever class file a run of additive transformers holds in memory, or has
written, goes back to one that the classpath supplied. It is that one with
what the transformers made of it one after the other, and with the stamps of
exactly those that the log says wrote the class (`Traced`).

* `Lineage`: how a class file came about, with the outcomes that say so;
* `Traced.of_supplied`: a class that was just read;
* `Traced.grow`: what an additive transformer makes of a class;
* `Traced.write`: a class that a transformer acted on, and that was stamped and
  written then;
* `Traced.not_written`: no transformer whose stamp is missing wrote it.
-/

namespace ClassStamp.Run

open ClassFile (Grows)
open ConstantPool (maxCount)

/-! ## The log -/

/-- The outcome says that the class was written. -/
def Outcome.Writes (o : Outcome) (n : ClassName) : Prop := o.name = n ∧ o.state = .written

instance (o : Outcome) (n : ClassName) : Decidable (o.Writes n) :=
  inferInstanceAs (Decidable (_ ∧ _))

/-- The event is the outcome that a transformer wrote a class. -/
def Event.Writes (e : Event) (identity : String) (n : ClassName) : Prop :=
  ∃ o, e = .noted o ∧ o.Writes n ∧ o.transformer = identity

/-- The event is the call that tells a transformer to act on a class. -/
def Event.Applies (e : Event) (identity : String) (n : ClassName) : Prop :=
  ∃ call, e = .called call ∧ call.kind = .applied ∧ call.name = n ∧ call.transformer = identity

/-- The log says that the class was written. -/
def Written (log : List Event) (n : ClassName) : Prop := ∃ o, .noted o ∈ log ∧ o.Writes n

theorem eq_noted {e : Event} {o : Outcome} (h : e.outcome? = some o) : e = .noted o := by
  cases e with
  | called call => cases h
  | noted outcome =>
    cases h
    rfl

theorem mem_outcomes {log : List Event} {o : Outcome} :
    o ∈ log.filterMap Event.outcome? ↔ .noted o ∈ log := by
  rw [List.mem_filterMap]
  constructor
  · rintro ⟨e, he, ho⟩
    rwa [← eq_noted ho]
  · exact fun ho => ⟨.noted o, ho, rfl⟩

/-- The outcomes in the log that the class was written, in order. -/
def writings (log : List Event) (n : ClassName) : List Outcome :=
  (log.filterMap Event.outcome?).filter (·.Writes n)

theorem mem_writings {log : List Event} {n : ClassName} {o : Outcome} :
    o ∈ writings log n ↔ .noted o ∈ log ∧ o.Writes n := by
  rw [writings, List.mem_filter, mem_outcomes, decide_eq_true_iff]

theorem writings_append_noted {log : List Event} {n : ClassName} {o : Outcome} (h : o.Writes n) :
    writings (log ++ [.noted o]) n = writings log n ++ [o] := by
  rw [writings, List.filterMap_append, List.filter_append]
  congr 1
  exact List.filter_eq_self.2 fun o' ho' => by rwa [List.mem_singleton.1 ho', decide_eq_true_iff]

theorem writings_append_of_not {log : List Event} {n : ClassName} {e : Event}
    (he : ∀ o, e = .noted o → ¬ o.Writes n) : writings (log ++ [e]) n = writings log n := by
  rw [writings, List.filterMap_append, List.filter_append, ← writings, List.append_right_eq_self,
    List.filter_eq_nil_iff]
  intro o ho
  obtain ⟨e', he', hnoted⟩ := List.mem_filterMap.1 ho
  rw [List.mem_singleton.1 he'] at hnoted
  rw [decide_eq_true_iff]
  exact he o (eq_noted hnoted)

/-! ## How a class file comes about -/

/-- How a class file of a run came about: it was supplied, more was added to it,
and then and when a transformer acted on the class, or on one that it is inside
of, and what it made of the class file was stamped and written, as an outcome
says. The outcomes are in order. -/
inductive Lineage (transformers : List Transformer) (output : Output)
    (allowed : FieldSpec → Prop) (supplied : ClassFile → Prop) (n : ClassName) :
    List Outcome → ClassFile → Prop
  | supplied {c : ClassFile} (h : supplied c) :
    Lineage transformers output allowed supplied n [] c
  | grown {os : List Outcome} {c d : ClassFile}
    (earlier : Lineage transformers output allowed supplied n os c) (grows : Grows allowed c d) :
    Lineage transformers output allowed supplied n os d
  | written {os : List Outcome} {o : Outcome} {t : Transformer} {c d e : ClassFile} {bytes : Bytes}
    (earlier : Lineage transformers output allowed supplied n os c) (among : t ∈ transformers)
    (made : t.Makes n c d) (grows : Grows allowed c d)
    (stamped : ClassFile.addField (t.stamp.spec d.isInterface) d = .ok () e)
    (parsed : ClassFile.parse bytes = .ok e) (files : o.files = [output.record n bytes])
    (identity : o.transformer = t.identity) :
    Lineage transformers output allowed supplied n (os ++ [o]) e

namespace Lineage

variable {transformers : List Transformer} {output : Output} {allowed : FieldSpec → Prop}
  {supplied supplied' : ClassFile → Prop} {n : ClassName} {os : List Outcome} {c : ClassFile}

theorem mono (h : Lineage transformers output allowed supplied n os c)
    (hmore : ∀ b, supplied b → supplied' b) :
    Lineage transformers output allowed supplied' n os c := by
  induction h with
  | supplied h => exact .supplied (hmore _ h)
  | grown _ grows ih => exact ih.grown grows
  | written _ among made grows stamped parsed files identity ih =>
    exact ih.written among made grows stamped parsed files identity

/-- Stamping a class file adds to it what is allowed, apart from the stamp. -/
theorem grows_stamped {t : Transformer} {d e : ClassFile}
    (hstamp : ClassFile.addField (t.stamp.spec d.isInterface) d = .ok () e) :
    Grows (Eq (t.stamp.spec d.isInterface)) d e :=
  (ClassFile.grows_addField rfl).ok hstamp

/-- The class file is one that was supplied, with allowed additions and with the
stamps of those that wrote it. -/
theorem origin (h : Lineage transformers output allowed supplied n os c) :
    ∃ b, supplied b ∧ Grows (fun spec => allowed spec ∨
      ∃ o ∈ os, spec = (Stamp.forIdentity o.transformer).spec c.isInterface) b c := by
  induction h with
  | @supplied c h => exact ⟨c, h, .refl _ c⟩
  | grown _ grows ih =>
    obtain ⟨b, hb, hgrows⟩ := ih
    rw [grows.isInterface]
    exact ⟨b, hb, hgrows.trans (grows.mono fun _ => .inl)⟩
  | @written os o t c d e _ _ _ _ grows stamped _ _ identity ih =>
    obtain ⟨b, hb, hgrows⟩ := ih
    have hstamped := grows_stamped stamped
    rw [hstamped.isInterface, grows.isInterface]
    rw [grows.isInterface] at hstamped
    refine ⟨b, hb, ((hgrows.mono ?_).trans (grows.mono fun _ => .inl)).trans
      (hstamped.mono ?_)⟩
    · exact fun _ => .imp_right fun ⟨o', ho', hspec⟩ => ⟨o', List.mem_append_left _ ho', hspec⟩
    · rintro _ rfl
      exact .inr ⟨o, List.mem_append_right _ (List.mem_singleton_self o), by rw [identity]; rfl⟩

theorem size (h : Lineage transformers output allowed supplied n os c)
    (hsupplied : ∀ b, supplied b → b.pool.slots.size ≤ maxCount) :
    c.pool.slots.size ≤ maxCount := by
  obtain ⟨b, hb, hgrows⟩ := h.origin
  exact hgrows.pool.size_le_maxCount (hsupplied b hb)

/-- What the class was written as, according to one of the outcomes, is in it, and
has the stamp of whoever wrote it. -/
theorem of_mem (h : Lineage transformers output allowed supplied n os c)
    (hsupplied : ∀ b, supplied b → b.pool.slots.size ≤ maxCount) {o : Outcome} (ho : o ∈ os) :
    ∃ bytes d, o.files = [output.record n bytes] ∧ ClassFile.parse bytes = .ok d ∧
      d.Declares (Stamp.forIdentity o.transformer).field ∧ Grows (fun _ => True) d c := by
  induction h with
  | supplied _ => cases ho
  | grown _ grows ih =>
    obtain ⟨bytes, d, hfile, hparse, hdeclares, hd⟩ := ih ho
    exact ⟨bytes, d, hfile, hparse, hdeclares, hd.trans (grows.mono fun _ _ => trivial)⟩
  | @written os o' t c d e bytes earlier _ _ grows stamped parsed files identity ih =>
    rcases List.mem_append.1 ho with ho | ho
    · obtain ⟨bytes, d', hfile, hparse, hdeclares, hd⟩ := ih ho
      refine ⟨bytes, d', hfile, hparse, hdeclares, ?_⟩
      exact (hd.trans (grows.mono fun _ _ => trivial)).trans
        ((grows_stamped stamped).mono fun _ _ => trivial)
    · obtain rfl := List.mem_singleton.1 ho
      have hsize := grows.pool.size_le_maxCount (earlier.size hsupplied)
      rw [identity]
      exact ⟨bytes, e, files, parsed, (ClassFile.declared_addField hsize stamped).2, .refl _ e⟩

end Lineage

/-! ## Classes of a run -/

/-- What a run begins with, and what its transformers may add to a class. -/
structure Outset where
  /-- The files. -/
  files : FileTree
  /-- The entries of the classpath. -/
  entries : List Classpath.Entry
  /-- Where classes are written. -/
  output : Output
  /-- The transformers. -/
  transformers : List Transformer
  /-- The fields that transformers add, other than stamps. -/
  allowed : FieldSpec → Prop

/-- The identities of the transformers. -/
def Outset.identities (g : Outset) : List String := g.transformers.map (·.identity)

/-- The classpath supplies the class file for a class: a load from its entries
gives it, in some tree of which every file with that class was there at the
outset. -/
def Outset.Supplies (g : Outset) (n : ClassName) (c : ClassFile) : Prop :=
  c.name = .ok n ∧ ∃ files found,
    FileTree.Settled g.files files ∧
    (∀ place bytes d, files.fileAt? place = some bytes → ClassFile.parse bytes = .ok d →
      d.name = .ok n → g.files.fileAt? place = some bytes) ∧
    Classpath.firstFound (Classpath.Entry.load files n) g.entries = .ok (some found) ∧
    ClassFile.parse found.content = .ok c

/-- A field that a class may have beyond those it was supplied with: an allowed
one, or the stamp of a transformer that wrote it. -/
def Outset.MayAdd (g : Outset) (log : List Event) (n : ClassName) (inInterface : Bool)
    (spec : FieldSpec) : Prop :=
  g.allowed spec ∨ ∃ o, .noted o ∈ log ∧ o.Writes n ∧
    spec = (Stamp.forIdentity o.transformer).spec inInterface

/-- The class file is what transformers made of one that the classpath
supplied, and has in it what each of them wrote. -/
structure Traced (g : Outset) (log : List Event) (n : ClassName) (c : ClassFile) : Prop where
  name : c.name = .ok n
  paired : c.pool.Paired
  size : c.pool.slots.size ≤ maxCount
  lineage : Lineage g.transformers g.output g.allowed (g.Supplies n) n (writings log n) c

variable {g : Outset} {log : List Event} {n : ClassName} {c d e : ClassFile}

theorem Outset.Supplies.size (h : g.Supplies n c) : c.pool.slots.size ≤ maxCount := by
  obtain ⟨-, files, found, -, -, -, hparse⟩ := h
  exact ClassFile.size_of_parse hparse

/-- What a later run is supplied with an earlier one was supplied with, if the files with
the class are the same. -/
theorem Outset.Supplies.earlier {g' : Outset} (h : g'.Supplies n c)
    (hsettled : FileTree.Settled g.files g'.files) (hentries : g'.entries = g.entries)
    (hfiles : ∀ place bytes d, g'.files.fileAt? place = some bytes →
      ClassFile.parse bytes = .ok d → d.name = .ok n → g.files.fileAt? place = some bytes) :
    g.Supplies n c := by
  obtain ⟨hname, files, found, hsettled', hsame, hfound, hparse⟩ := h
  rw [hentries] at hfound
  exact ⟨hname, files, found, hsettled.trans hsettled', fun place bytes d hat hd hdname =>
    hfiles place bytes d (hsame place bytes d hat hd hdname) hd hdname, hfound, hparse⟩

theorem Outset.Supplies.paired (h : g.Supplies n c) : c.pool.Paired := by
  obtain ⟨-, files, found, -, -, -, hparse⟩ := h
  exact ClassFile.paired_of_parse hparse

namespace Traced

theorem of_supplied (h : g.Supplies n c) (hlog : ¬ Written log n) : Traced g log n c := by
  have hnone : writings log n = [] := List.eq_nil_iff_forall_not_mem.2 fun o ho =>
    hlog ⟨o, mem_writings.1 ho⟩
  refine ⟨h.1, h.paired, h.size, ?_⟩
  rw [hnone]
  exact .supplied h

theorem append (h : Traced g log n c) {e : Event} (he : ∀ o, e = .noted o → ¬ o.Writes n) :
    Traced g (log ++ [e]) n c := by
  refine ⟨h.name, h.paired, h.size, ?_⟩
  rw [writings_append_of_not he]
  exact h.lineage

theorem grow (h : Traced g log n c) (hd : Grows g.allowed c d) : Traced g log n d :=
  ⟨hd.name h.name, hd.pool.paired h.paired, hd.pool.size_le_maxCount h.size, h.lineage.grown hd⟩

theorem origin (h : Traced g log n c) :
    ∃ b, g.Supplies n b ∧ Grows (g.MayAdd log n c.isInterface) b c := by
  obtain ⟨b, hb, hgrows⟩ := h.lineage.origin
  refine ⟨b, hb, hgrows.mono fun _ => .imp_right fun ⟨o, ho, hspec⟩ => ?_⟩
  exact ⟨o, (mem_writings.1 ho).1, (mem_writings.1 ho).2, hspec⟩

/-- What each transformer wrote of the class is in it. -/
theorem written (h : Traced g log n c) {o : Outcome} (ho : .noted o ∈ log) (hw : o.Writes n) :
    ∃ bytes d, o.files = [g.output.record n bytes] ∧ ClassFile.parse bytes = .ok d ∧
      d.Declares (Stamp.forIdentity o.transformer).field ∧ Grows (fun _ => True) d c :=
  h.lineage.of_mem (fun _ hb => hb.size) (mem_writings.2 ⟨ho, hw⟩)

/-- A transformer whose stamp is missing did not write the class. -/
theorem not_written (h : Traced g log n c) {identity : String}
    (hc : ¬ c.Declares (Stamp.forIdentity identity).field) {o : Outcome} (ho : .noted o ∈ log)
    (hw : o.Writes n) : o.transformer ≠ identity := by
  rintro rfl
  obtain ⟨bytes, d, -, -, hdeclares, hd⟩ := h.written ho hw
  exact hc (ClassFile.declared_of_grows hd hdeclares)

/-- A class that a transformer acted on, and that was stamped and written then,
is traced with the outcome that says so, and what it was written as is read as
that class. -/
theorem write (h : Traced g log n c) {t : Transformer} (ht : t ∈ g.transformers)
    (hmakes : t.Makes n c d) (hgrows : Grows g.allowed c d)
    (hstamp : ClassFile.addField (t.stamp.spec d.isInterface) d = .ok () e)
    {bytes : Bytes} (hbytes : e.toBytes = .ok bytes) {o : Outcome} (hw : o.Writes n)
    (hidentity : o.transformer = t.identity) (hfiles : o.files = [g.output.record n bytes]) :
    ClassFile.parse bytes = .ok e ∧ Traced g (log ++ [.noted o]) n e := by
  have hd := h.grow hgrows
  have he := Lineage.grows_stamped hstamp
  have hpaired := he.pool.paired hd.paired
  have hparse := ClassFile.parse_toBytes hpaired hbytes
  refine ⟨hparse, he.name hd.name, hpaired, he.pool.size_le_maxCount hd.size, ?_⟩
  rw [writings_append_noted hw]
  exact h.lineage.written ht hmakes hgrows hstamp hparse hfiles hidentity

end Traced

end ClassStamp.Run
