import Mathlib.Data.List.Nodup
import ClassStamp.Proofs.ClassName.FilePlace
import ClassStamp.Proofs.Run.Trace

/-!
# What holds at every moment of a run

Between any two things that happen in a run of additive transformers, the
files, the resolution context and the log agree with each other.

* `Disk`: the file of every class that was written is traced, and no other
  file differs from the outset;
* `Memory`: so is every class in memory or taken out, and every class that was
  written is one of these;
* `Ledger`: a transformer that wrote a class never gets to act on it again;
* `Inv` is all that, with the report. Each of the three has its lemmas about
  what may happen: an event that changes nothing, a class that is written, and
  for the memory, classes that are taken out, edited and brought back.
-/

namespace ClassStamp.Run

open ClassFile (Grows)
open FileTree (Settled SameFiles)

variable {g : Outset} {log : List Event} {e : Event} {n : ClassName}

/-! ## Events -/

/-- The event is the outcome that a class was written. -/
def Event.IsWrite (e : Event) : Prop := ∃ o, e = .noted o ∧ o.state = .written

/-- The event is about a transformer that acts on a class. -/
def Event.Touches (e : Event) (identity : String) (n : ClassName) : Prop :=
  e.Writes identity n ∨ e.Applies identity n

/-- If a transformer writes a class in the first event, it does not touch it in
the later one. -/
def Once (e later : Event) : Prop :=
  ∀ identity n, e.Writes identity n → ¬ later.Touches identity n

/-- What was written of a class is as before, after an event that does not
write it. -/
theorem noted_mem_append (he : ∀ o, e = .noted o → ¬ o.Writes n) (o : Outcome) (ho : o.Writes n) :
    .noted o ∈ log ++ [e] ↔ .noted o ∈ log := by
  rw [List.mem_append, List.mem_singleton, or_iff_left]
  exact fun h => he o h.symm ho

theorem written_append (he : ∀ o, e = .noted o → ¬ o.Writes n) :
    Written (log ++ [e]) n ↔ Written log n := by
  constructor
  · rintro ⟨o, ho, hw⟩
    exact ⟨o, (noted_mem_append he o hw).1 ho, hw⟩
  · rintro ⟨o, ho, hw⟩
    exact ⟨o, (noted_mem_append he o hw).2 ho, hw⟩

theorem not_writes_of_idle (he : ¬ e.IsWrite) (n : ClassName) : ∀ o, e = .noted o → ¬ o.Writes n :=
  fun o h hw => he ⟨o, h, hw.2⟩

theorem not_writes_of_ne {o : Outcome} {m : ClassName} (ho : o.name = n) (hne : m ≠ n) :
    ∀ o', Event.noted o = .noted o' → ¬ o'.Writes m := by
  rintro o' h hw
  cases h
  exact hne (hw.1.symm.trans ho)

/-! ## The files -/

/-- The file of a class that was written is traced, and no other file differs
from the outset. -/
structure Disk (g : Outset) (log : List Event) (files : FileTree) : Prop where
  settled : Settled g.files files
  written : ∀ n, Written log n → ∃ bytes c, files.read (g.output.pathFor n) = .ok bytes ∧
    ClassFile.parse bytes = .ok c ∧ Traced g log n c
  others : ∀ place, (∀ n, Written log n → place ≠ g.files.placeOf (g.output.pathFor n)) →
    files.fileAt? place = g.files.fileAt? place

namespace Disk

variable {files files' : FileTree}

theorem idle (h : Disk g log files) (he : ¬ e.IsWrite) : Disk g (log ++ [e]) files := by
  have hw : ∀ n, Written (log ++ [e]) n ↔ Written log n := fun n =>
    written_append (not_writes_of_idle he n)
  refine ⟨h.settled, fun n hn => ?_, fun place hp => ?_⟩
  · obtain ⟨bytes, c, hread, hparse, hc⟩ := h.written n ((hw n).1 hn)
    exact ⟨bytes, c, hread, hparse, hc.append (not_writes_of_idle he n)⟩
  · exact h.others place fun n hn => hp n ((hw n).2 hn)

theorem same (h : Disk g log files) (hs : SameFiles files files') : Disk g log files' := by
  refine ⟨h.settled.trans hs.toSettled, fun n hn => ?_, fun place hp => ?_⟩
  · obtain ⟨bytes, c, hread, hparse, hc⟩ := h.written n hn
    exact ⟨bytes, c, FileTree.read_of_settled_of_fileAt? hs.toSettled (hs.contents _) hread,
      hparse, hc⟩
  · rw [hs.contents]
    exact h.others place hp

theorem write (h : Disk g log files) {a a' : Artifact} {file : WrittenFile}
    (hwrite : g.output.write (a, files) = .ok file (a', files')) {o : Outcome}
    (ho : o.Writes a.name) {bytes : Bytes} {c : ClassFile} (hbytes : a.toBytes = .ok bytes)
    (hparse : ClassFile.parse bytes = .ok c)
    (hc : Traced g (log ++ [.noted o]) a.name c) : Disk g (log ++ [.noted o]) files' := by
  obtain ⟨bytes', hb, -, -, hsettled, hread, hfiles⟩ := Output.write_eq_ok hwrite
  cases hbytes.symm.trans hb
  rw [h.settled.placeOf] at hfiles
  refine ⟨h.settled.trans hsettled, fun n hn => ?_, fun place hp => ?_⟩
  · by_cases hne : n = a.name
    · subst hne
      exact ⟨bytes, c, hread, hparse, hc⟩
    have hother := not_writes_of_ne ho.1 hne
    obtain ⟨bytes₁, c₁, hread₁, hparse₁, hc₁⟩ := h.written n ((written_append hother).1 hn)
    exact ⟨bytes₁, c₁, Output.read_of_write_of_ne hwrite hne hread₁, hparse₁, hc₁.append hother⟩
  · rw [hfiles, if_neg (hp a.name ⟨o, List.mem_append_right _ (List.mem_singleton_self _), ho⟩)]
    refine h.others place fun n hn => hp n ?_
    obtain ⟨o', ho', hw'⟩ := hn
    exact ⟨o', List.mem_append_left _ ho', hw'⟩

end Disk

/-! ## The classes in memory -/

/-- The artifact holds no others, and its class file is traced. -/
structure Kept (g : Outset) (log : List Event) (a : Artifact) : Prop where
  alone : a.nested = []
  traced : Traced g log a.name a.classFile

/-- The names of some classes. -/
def names (as : List Artifact) : List ClassName := as.map (·.name)

@[simp] theorem names_nil : names [] = [] := rfl

@[simp] theorem names_cons (a : Artifact) (as : List Artifact) :
    names (a :: as) = a.name :: names as := rfl

@[simp] theorem names_append (as bs : List Artifact) : names (as ++ bs) = names as ++ names bs :=
  List.map_append

theorem mem_names {as : List Artifact} : n ∈ names as ↔ ∃ a ∈ as, a.name = n := List.mem_map

theorem names_replace {as bs : List Artifact} {a b : Artifact} (hname : b.name = a.name) :
    names (as ++ b :: bs) = names (as ++ a :: bs) := by
  rw [names_append, names_append, names_cons, names_cons, hname]

/-- What is true of a class, and of those with other names among some classes that
it takes the place of one in, is true of all of them then. -/
theorem forall_mem_replace {P : Artifact → Prop} {as bs : List Artifact} {a b : Artifact}
    (hdistinct : (names (as ++ a :: bs)).Nodup) (hb : P b)
    (hothers : ∀ x ∈ as ++ a :: bs, x.name ≠ a.name → P x) : ∀ x ∈ as ++ b :: bs, P x := by
  rw [names_append, names_cons, List.nodup_middle, List.nodup_cons, ← names_append,
    mem_names, not_exists] at hdistinct
  intro x hx
  rcases List.mem_cons.1 (List.perm_middle.mem_iff.1 hx) with rfl | hx
  · exact hb
  · exact hothers x (List.perm_middle.mem_iff.2 (List.mem_cons_of_mem a hx))
      fun he => hdistinct.1 x ⟨hx, he⟩

/-- A class and those held with it, one by one. -/
def parts (a : Artifact) : List Artifact := a.withoutNested :: a.nested

/-- Every class in memory and every one that was taken out is kept; no class
is both, and every class that was written is one of them. -/
structure Memory (g : Outset) (log : List Event) (held : List Artifact)
    (context : Classpath.Context) : Prop where
  entries : context.entries = g.entries
  cached : ∀ n a, context.cache.get? n = some a → a.name = n ∧ Kept g log a
  out : ∀ a ∈ held, Kept g log a
  apart : ∀ a ∈ held, context.cache.get? a.name = none
  distinct : (names held).Nodup
  complete : ∀ n, Written log n → (context.cache.get? n).isSome ∨ n ∈ names held

/-- The class is the same, and its class file has grown by what is allowed. -/
structure Continues (allowed : FieldSpec → Prop) (a b : Artifact) : Prop where
  name : b.name = a.name
  alone : a.nested = [] → b.nested = []
  classFile : Grows allowed a.classFile b.classFile

theorem names_of_continues {allowed : FieldSpec → Prop} {as bs : List Artifact}
    (h : List.Forall₂ (Continues allowed) as bs) : names bs = names as :=
  Artifact.map_name_of_forall₂ Continues.name h

namespace Memory

variable {held held' : List Artifact} {context : Classpath.Context} {a b : Artifact}

theorem idle (h : Memory g log held context) (he : ¬ e.IsWrite) :
    Memory g (log ++ [e]) held context := by
  have hk : ∀ {a : Artifact}, Kept g log a → Kept g (log ++ [e]) a := fun ha =>
    ⟨ha.alone, ha.traced.append (not_writes_of_idle he _)⟩
  exact ⟨h.entries, fun n a ha => ⟨(h.cached n a ha).1, hk (h.cached n a ha).2⟩,
    fun a ha => hk (h.out a ha), h.apart, h.distinct,
    fun n hn => h.complete n ((written_append (not_writes_of_idle he n)).1 hn)⟩

/-- The classes that were taken out may grow. -/
theorem continues (h : Memory g log held context)
    (hh : List.Forall₂ (Continues g.allowed) held held') : Memory g log held' context := by
  have hnames := names_of_continues hh
  refine ⟨h.entries, h.cached, fun b hb => ?_, fun b hb => ?_, by rw [hnames]; exact h.distinct,
    by rw [hnames]; exact h.complete⟩
  · obtain ⟨a, ha, hab⟩ := Artifact.exists_of_forall₂ hh hb
    have hkept := h.out a ha
    refine ⟨hab.alone hkept.alone, ?_⟩
    rw [hab.name]
    exact hkept.traced.grow hab.classFile
  · obtain ⟨a, ha, hab⟩ := Artifact.exists_of_forall₂ hh hb
    rw [hab.name]
    exact h.apart a ha

/-- A class that was taken out was written, and is in the log with what it
was written as. -/
theorem write {before after : List Artifact}
    (h : Memory g log (before ++ a :: after) context) {o : Outcome} (ho : o.Writes a.name)
    (hname : b.name = a.name) (halone : b.nested = [])
    (hb : Traced g (log ++ [.noted o]) a.name b.classFile) :
    Memory g (log ++ [.noted o]) (before ++ b :: after) context := by
  have hnames : names (before ++ b :: after) = names (before ++ a :: after) := names_replace hname
  have hk : ∀ {x : Artifact}, x.name ≠ a.name → Kept g log x → Kept g (log ++ [.noted o]) x :=
    fun hne hx => ⟨hx.alone, hx.traced.append (not_writes_of_ne ho.1 hne)⟩
  have hmem : a ∈ before ++ a :: after := List.mem_append_right _ List.mem_cons_self
  refine ⟨h.entries, fun m x hx => ?_, ?_, ?_, by rw [hnames]; exact h.distinct, fun m hm => ?_⟩
  · obtain ⟨hxm, hkept⟩ := h.cached m x hx
    refine ⟨hxm, hk (fun he => ?_) hkept⟩
    rw [← hxm, he, h.apart a hmem] at hx
    cases hx
  · exact forall_mem_replace h.distinct ⟨halone, hname ▸ hb⟩ fun x hx hne => hk hne (h.out x hx)
  · refine forall_mem_replace h.distinct ?_ fun x hx _ => h.apart x hx
    rw [hname]
    exact h.apart a hmem
  · rw [hnames]
    by_cases hne : m = a.name
    · exact .inr (hne ▸ mem_names.2 ⟨a, hmem, rfl⟩)
    · exact h.complete m ((written_append (not_writes_of_ne ho.1 hne)).1 hm)

end Memory

/-! ## The log -/

/-- Once a transformer wrote a class, it neither acts on it nor writes it again,
and it never did so to a class that was supplied with its stamp. -/
structure Ledger (g : Outset) (log : List Event) : Prop where
  order : log.Pairwise Once
  fresh : ∀ e ∈ log, ∀ identity n, e.Touches identity n →
    ∃ b, g.Supplies n b ∧ ¬ b.Declares (Stamp.forIdentity identity).field
  known : ∀ o, .noted o ∈ log → o.transformer ∈ g.identities

namespace Ledger

theorem idle (h : Ledger g log) (he : ∀ identity n, ¬ e.Touches identity n)
    (hknown : ∀ o, e = .noted o → o.transformer ∈ g.identities) : Ledger g (log ++ [e]) := by
  refine ⟨List.pairwise_append.2 ⟨h.order, List.pairwise_singleton _ e, ?_⟩, ?_, ?_⟩
  · intro e' _ e'' he'' identity n _
    rw [List.mem_singleton.1 he'']
    exact he identity n
  · intro e' he' identity n ht
    rcases List.mem_append.1 he' with he' | he'
    · exact h.fresh e' he' identity n ht
    · rw [List.mem_singleton.1 he'] at ht
      exact absurd ht (he identity n)
  · intro o ho
    rcases List.mem_append.1 ho with ho | ho
    · exact h.known o ho
    · exact hknown o (List.mem_singleton.1 ho).symm

/-- A transformer acts on a class, or writes it, while the class does not carry
its stamp. -/
theorem touch (h : Ledger g log) {c : ClassFile} {identity : String} (hc : Traced g log n c)
    (hstamp : ¬ c.Declares (Stamp.forIdentity identity).field)
    (he : ∀ identity' m, e.Touches identity' m → identity' = identity ∧ m = n)
    (hknown : ∀ o, e = .noted o → o.transformer ∈ g.identities) : Ledger g (log ++ [e]) := by
  refine ⟨List.pairwise_append.2 ⟨h.order, List.pairwise_singleton _ e, ?_⟩, ?_, ?_⟩
  · intro e' he' e'' he'' identity' m hw ht
    rw [List.mem_singleton.1 he''] at ht
    obtain ⟨rfl, rfl⟩ := he identity' m ht
    obtain ⟨o, rfl, hwrites, ho⟩ := hw
    exact hc.not_written hstamp he' hwrites ho
  · intro e' he' identity' m ht
    rcases List.mem_append.1 he' with he' | he'
    · exact h.fresh e' he' identity' m ht
    · rw [List.mem_singleton.1 he'] at ht
      obtain ⟨rfl, rfl⟩ := he identity' m ht
      obtain ⟨b, hb, hgrows⟩ := hc.origin
      exact ⟨b, hb, fun hd => hstamp (ClassFile.declared_of_grows hgrows hd)⟩
  · intro o ho
    rcases List.mem_append.1 ho with ho | ho
    · exact h.known o ho
    · exact hknown o (List.mem_singleton.1 ho).symm

end Ledger

/-! ## The state -/

/-- The invariant of a run with some classes taken out. -/
structure Inv (g : Outset) (held : List Artifact) (s : State) : Prop where
  disk : Disk g s.log s.files
  memory : Memory g s.log held s.context
  ledger : Ledger g s.log
  report : s.report.outcomes = s.log.filterMap Event.outcome?

end ClassStamp.Run
