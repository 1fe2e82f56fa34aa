import ClassStamp.Proofs.Classpath.Checkout
import ClassStamp.Proofs.Run.Invariant

/-!
# Taking classes out and bringing them back in a run

The resolution context finds a class in memory, or reads it from the
classpath if no transformer wrote it yet, and brings the classes directly
inside it along. Either way the invariant of the memory goes on to hold.

* `supplies_of_read`, `read_kept`: a class that was read is one that the classpath
  supplies;
* `checkout_cases`: a class is taken out, or nothing is;
* `Memory.giveBack`: a class is brought back.
-/

namespace ClassStamp.Run

open Classpath (Context Entry)

variable {g : Outset} {log : List Event} {held : List Artifact} {files : FileTree}
  {context context' : Context} {a a' : Artifact} {n : ClassName}

/-! ## Reading -/

/-- A file with a class that nothing wrote was there at the outset. -/
theorem Disk.original (h : Disk g log files) (hn : ¬ Written log n) {place : FileTree.Place}
    {bytes : Bytes} {c : ClassFile} (hat : files.fileAt? place = some bytes)
    (hparse : ClassFile.parse bytes = .ok c) (hname : c.name = .ok n) :
    g.files.fileAt? place = some bytes := by
  rw [← h.others place fun m hm hplace => ?_]
  · exact hat
  -- the file of another class that was written does not hold this class
  obtain ⟨bytes', c', hread, hparse', hc'⟩ := h.written m hm
  have hat' := FileTree.fileAt?_of_read hread
  rw [h.settled.placeOf, ← hplace, hat] at hat'
  cases hat'
  cases hparse.symm.trans hparse'
  cases hname.symm.trans hc'.name
  exact hn hm

theorem supplies_of_read (hd : Disk g log files) (hentries : context.entries = g.entries)
    (hn : ¬ Written log n) {requested : ClassName}
    (h : context.read files n requested = .ok a) : g.Supplies n a.classFile := by
  obtain ⟨found, hfound, hbytes⟩ := Context.read_eq_ok h
  rw [hentries] at hfound
  obtain ⟨hparse, hname, -⟩ := Artifact.ofBytes_eq_ok hbytes
  refine ⟨hname, files, found, hd.settled, ?_, hfound, hparse⟩
  intro place bytes c hat hparse hname
  exact hd.original hn hat hparse hname

theorem read_kept (hd : Disk g log files) (hentries : context.entries = g.entries)
    (hn : ¬ Written log n) {requested : ClassName}
    (h : context.read files n requested = .ok a) : a.name = n ∧ Kept g log a := by
  have hsupplies := supplies_of_read hd hentries hn h
  obtain ⟨found, -, hbytes⟩ := Context.read_eq_ok h
  obtain ⟨-, -, rfl, halone⟩ := Artifact.ofBytes_eq_ok hbytes
  exact ⟨rfl, halone, .of_supplied hsupplies hn⟩

/-! ## The memory -/

/-- All classes held with a class are directly inside it, by their names. -/
def HoldsMembers (a : Artifact) : Prop := ∀ m ∈ a.nested, m.name.isImmediateMemberOf a.name = true

/-- The names of the classes that were taken out. -/
theorem mem_names_parts (h : Context.CheckedOut files context n a context') {k : ClassName} :
    k ∈ names (parts a) ↔ k = n ∨ k ∈ a.memberNames := by
  rw [parts, names_cons, List.mem_cons, ← h.name]
  rfl

namespace Memory

theorem tidy (h : Memory g log held context) : context.Tidy := fun n a ha =>
  have ⟨hname, hkept⟩ := h.cached n a ha
  ⟨hname, hkept.traced.name, hkept.alone⟩

theorem not_written (h : Memory g log held context) (hc : context.cache.get? n = none)
    (hn : n ∉ names held) : ¬ Written log n := by
  intro hw
  rcases h.complete n hw with hs | hm
  · rw [hc] at hs
    cases hs
  · exact hn hm

/-- Taking out failed, and memory is as before. -/
theorem same (h : Memory g log held context) (hentries : context'.entries = context.entries)
    (hcache : ∀ k, context'.cache.get? k = context.cache.get? k) :
    Memory g log held context' :=
  ⟨hentries.trans h.entries, fun n a ha => h.cached n a (by rwa [← hcache]), h.out,
    fun a ha => by rw [hcache]; exact h.apart a ha, h.distinct,
    fun n hn => by rw [hcache]; exact h.complete n hn⟩

/-- A class was taken out, with the classes directly inside it. -/
theorem checkedOut (hd : Disk g log files) (h : Memory g log [] context)
    (ha : Context.CheckedOut files context n a context') :
    Memory g log (parts a) context' := by
  refine ⟨ha.entries.trans h.entries, fun k b hb => h.cached k b (ha.left hb).2, fun b hb => ?_,
    fun b hb => ?_, ha.distinct, fun k hk => ?_⟩
  · rcases ha.found b hb with hb | ⟨hnone, hread⟩
    · exact (h.cached _ b hb).2
    · exact (read_kept hd h.entries (h.not_written hnone fun hn => (nomatch hn)) hread).2
  · rw [ha.cache, if_pos ((mem_names_parts ha).1 (mem_names.2 ⟨b, hb, rfl⟩))]
  · rw [ha.cache, mem_names_parts ha]
    split
    · rename_i hout
      exact .inr hout
    · exact .inl ((h.complete k hk).resolve_right fun hn => (nomatch hn))

/-- A class that was taken out is brought back, with the classes held with
it. -/
theorem giveBack (h : Memory g log (parts a) context) : Memory g log [] (context.restore a) := by
  have hback : ∀ m b, (context.restore a).cache.get? m = some b ↔
      b ∈ parts a ∧ b.name = m ∨ m ∉ names (parts a) ∧ context.cache.get? m = some b :=
    fun m b => Context.get?_restore_eq_some_iff h.distinct
  refine ⟨h.entries, fun m b hb => ?_, fun b hb => (nomatch hb), fun b hb => (nomatch hb),
    List.nodup_nil, fun m hm => .inl ?_⟩
  · rcases (hback m b).1 hb with ⟨hb, hname⟩ | ⟨-, hb⟩
    · exact ⟨hname, h.out b hb⟩
    · exact h.cached m b hb
  · refine Option.isSome_iff_exists.2 ?_
    simp only [hback]
    by_cases hout : m ∈ names (parts a)
    · obtain ⟨b, hb, hname⟩ := mem_names.1 hout
      exact ⟨b, .inl ⟨hb, hname⟩⟩
    · obtain ⟨b, hb⟩ := Option.isSome_iff_exists.1 ((h.complete m hm).resolve_right hout)
      exact ⟨b, .inr ⟨hout, hb⟩⟩

end Memory

/-! ## Taking out -/

/-- A class was taken out, with the classes directly inside it. -/
structure TakenOut (g : Outset) (log : List Event) (n : ClassName) (a : Artifact)
    (context : Context) : Prop where
  name : a.name = n
  members : HoldsMembers a
  memory : Memory g log (parts a) context

/-- A class is taken out with the classes directly inside it, or all classes
stay in memory. -/
theorem checkout_cases (hd : Disk g log files) (hm : Memory g log [] context) (n : ClassName) :
    (∃ e context', Context.checkout files n context = .error e context' ∧
      Memory g log [] context') ∨
      ∃ a context', Context.checkout files n context = .ok a context' ∧
        TakenOut g log n a context' := by
  cases h : Context.checkout files n context with
  | error e context' =>
    obtain ⟨hentries, hcache⟩ := Context.checkout_eq_error hm.tidy h
    exact .inl ⟨e, context', rfl, hm.same hentries hcache⟩
  | ok a context' =>
    have ha := Context.checkout_eq_ok hm.tidy h
    refine .inr ⟨a, context', rfl, ha.name, fun m hm => ?_, hm.checkedOut hd ha⟩
    rw [ha.name]
    exact ha.isImmediateMemberOf hm

end ClassStamp.Run
