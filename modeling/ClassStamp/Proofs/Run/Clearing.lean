import ClassStamp.Proofs.ClassFile.Removal
import ClassStamp.Proofs.Run.Failure
import ClassStamp.Proofs.Run.Trace

/-!
# Removing stamps step by step

In a run that removes stamps a class in memory is the one that was read, without the
first field of each stamp that the report says was removed. The file of a class that
lost a stamp has just that, and no other file changes.

* `removed`: the stamps of a class that some outcomes say were removed;
* `Stripped`: a class file without these;
* `Outset.DistinctAt`: if no class of a name that was read has two fields of the same
  name, none of these stamps is left in it;
* `Loses`: a class without one more of its stamps, and what that does to memory;
* `Cleared`: what every step of such a run keeps, and `cleared_unstamp`.
-/

namespace ClassStamp.Run

open Classpath (Context Entry firstFound)
open FileTree (Settled SameFiles)

/-! ## Stamps that were removed -/

/-- The outcome says that the class is without the stamp of the transformer then. -/
def Outcome.Clears (o : Outcome) : Prop := o.state = .unstamped ∨ o.state = .notStamped

/-- The name of the field that is the stamp of the transformer. -/
def Outcome.stampField (o : Outcome) : String := (Stamp.forIdentity o.transformer).field

/-- The names of the stamp fields that the outcomes say were removed from a class. -/
def removed (os : List Outcome) (n : ClassName) : List String :=
  (os.filter fun o => o.state == .unstamped && o.name == n).map Outcome.stampField

variable {os os' : List Outcome} {o : Outcome} {n k : ClassName}

theorem mem_removed {field : String} : field ∈ removed os n ↔
    ∃ o ∈ os, o.state = .unstamped ∧ o.name = n ∧ o.stampField = field := by
  simp only [removed, List.mem_map, List.mem_filter, Bool.and_eq_true, beq_iff_eq, and_assoc]

theorem removed_eq_nil (h : ∀ o ∈ os, o.state = .unstamped → o.name ≠ n) : removed os n = [] :=
  List.eq_nil_iff_forall_not_mem.2 fun _ hfield =>
    have ⟨o, ho, hstate, hname, _⟩ := mem_removed.1 hfield
    h o ho hstate hname

theorem removed_concat_of_idle (h : o.state ≠ .unstamped) :
    removed (os ++ [o]) n = removed os n := by
  have hnone : removed [o] n = [] := removed_eq_nil fun o' ho' hstate =>
    absurd (List.mem_singleton.1 ho' ▸ hstate) h
  rw [← List.append_nil (removed os n), ← hnone, removed, removed, removed, List.filter_append,
    List.map_append]

theorem removed_concat_of_ne (h : o.name ≠ n) : removed (os ++ [o]) n = removed os n := by
  have hnone : removed [o] n = [] := removed_eq_nil fun o' ho' _ => List.mem_singleton.1 ho' ▸ h
  rw [← List.append_nil (removed os n), ← hnone, removed, removed, removed, List.filter_append,
    List.map_append]

theorem removed_concat (hstate : o.state = .unstamped) (hname : o.name = n) :
    removed (os ++ [o]) n = removed os n ++ [o.stampField] := by
  have hone : [o].filter (fun o => o.state == .unstamped && o.name == n) = [o] := by
    rw [List.filter_cons_of_pos, List.filter_nil]
    rw [hstate, hname, beq_self_eq_true, beq_self_eq_true]
    rfl
  rw [removed, removed, List.filter_append, hone, List.map_append]
  rfl

/-! ## Classes without their stamps -/

/-- When the files are those of the given tree, in which no file of the class differs
from the outset, the classpath has the class file for the class. -/
structure Outset.SuppliesFrom (g : Outset) (files : FileTree) (n : ClassName) (c : ClassFile) :
    Prop where
  name : c.name = .ok n
  settled : Settled g.files files
  same : ∀ place bytes d, files.fileAt? place = some bytes → ClassFile.parse bytes = .ok d →
    d.name = .ok n → g.files.fileAt? place = some bytes
  found : ∃ found, firstFound (Entry.load files n) g.entries = .ok (some found) ∧
    ClassFile.parse found.content = .ok c

/-- The class file is one that the classpath had for the class at an earlier moment,
without the stamps that were removed since, all of which were there. -/
def Stripped (g : Outset) (past : List State) (os : List Outcome) (n : ClassName) (c : ClassFile) :
    Prop :=
  ∃ t ∈ past, ∃ b, g.SuppliesFrom t.files n b ∧ (∀ field ∈ removed os n, b.Declares field) ∧
    c = b.withoutFirst (removed os n)

/-- No class file that the classpath had for the class at one of the moments has two fields
of the same name. -/
def Outset.DistinctAt (g : Outset) (past : List State) (n : ClassName) : Prop :=
  ∀ t ∈ past, ∀ b, g.SuppliesFrom t.files n b → b.DistinctFields

variable {g : Outset} {past past' : List State} {c : ClassFile}

theorem Outset.DistinctAt.earlier (h : g.DistinctAt past' n) (hpast : past ⊆ past') :
    g.DistinctAt past n := fun t ht => h t (hpast ht)

theorem Outset.SuppliesFrom.supplies {files : FileTree} (h : g.SuppliesFrom files n c) :
    g.Supplies n c :=
  have ⟨found, hfound, hparse⟩ := h.found
  ⟨h.name, files, found, h.settled, h.same, hfound, hparse⟩

namespace Stripped

theorem later (h : Stripped g past os n c) (hpast : past ⊆ past') : Stripped g past' os n c := by
  obtain ⟨t, ht, b, hb⟩ := h
  exact ⟨t, hpast ht, b, hb⟩

theorem congr (h : Stripped g past os n c) (hos : removed os' n = removed os n) :
    Stripped g past os' n c := by
  rw [Stripped, hos]
  exact h

theorem paired (h : Stripped g past os n c) : c.pool.Paired := by
  obtain ⟨t, -, b, hb, -, rfl⟩ := h
  rw [ClassFile.pool_withoutFirst]
  exact hb.supplies.paired

theorem distinct (h : Stripped g past os n c) (hg : g.DistinctAt past n) : c.DistinctFields := by
  obtain ⟨t, ht, b, hb, -, rfl⟩ := h
  have hdistinct := hg t ht b hb
  rw [ClassFile.withoutFirst_eq hdistinct]
  exact hdistinct.without

/-- One more stamp was removed. -/
theorem remove (h : Stripped g past os n c) {field : String} (hfield : c.Declares field)
    (hos : removed os' n = removed os n ++ [field]) :
    Stripped g past os' n (c.withoutFirst [field]) := by
  obtain ⟨t, ht, b, hb, hthere, rfl⟩ := h
  refine ⟨t, ht, b, hb, ?_, ?_⟩
  · rw [hos]
    exact List.forall_mem_append.2
      ⟨hthere, List.forall_mem_singleton.2 (ClassFile.declares_of_withoutFirst hfield)⟩
  · rw [hos, ClassFile.withoutFirst_append]

end Stripped

/-! ## What every step keeps -/

/-- What holds between two steps of a run that removes stamps. -/
structure Cleared (g : Outset) (past : List State) (s : State) : Prop where
  settled : Settled g.files s.files
  tidy : s.context.Tidy
  entries : s.context.entries = g.entries
  memory : ∀ n a, s.context.cache.get? n = some a →
    Stripped g past s.report.outcomes n a.classFile
  told : ∀ o ∈ s.report.outcomes, o.Clears →
    ∃ a, s.context.cache.get? o.name = some a ∧
      (g.DistinctAt past o.name → ¬ a.classFile.Declares o.stampField)
  written : ∀ o ∈ s.report.outcomes, o.state = .unstamped →
    ∀ a, s.context.cache.get? o.name = some a →
      ∃ bytes, s.files.read (g.output.pathFor o.name) = .ok bytes ∧
        ClassFile.parse bytes = .ok a.classFile
  others : ∀ place, (∀ o ∈ s.report.outcomes, o.state = .unstamped →
      place ≠ g.files.placeOf (g.output.pathFor o.name)) →
    s.files.fileAt? place = g.files.fileAt? place

variable {s s' : State} {p : Pass} {a b x y : Artifact} {context : Context}

theorem cleared_start {files : FileTree} (h : SameFiles g.files files) :
    Cleared g past (.start files (.ofEntries g.entries)) :=
  ⟨h.toSettled, fun _ _ ha => (nomatch ha), rfl, fun _ _ ha => (nomatch ha),
    fun _ ho => (nomatch ho), fun _ ho => (nomatch ho), fun place _ => h.contents place⟩

namespace Cleared

/-- What is in the file of a class that lost a stamp is the class in memory. -/
theorem parse_written (h : Cleared g past s) (ho : o ∈ s.report.outcomes)
    (hstate : o.state = .unstamped) (ha : s.context.cache.get? o.name = some a) {bytes : Bytes}
    (hat : s.files.fileAt? (g.files.placeOf (g.output.pathFor o.name)) = some bytes)
    (hparse : ClassFile.parse bytes = .ok c) : c = a.classFile := by
  obtain ⟨bytes', hread, hparse'⟩ := h.written o ho hstate a ha
  have hat' := FileTree.fileAt?_of_read hread
  rw [h.settled.placeOf, hat] at hat'
  cases hat'
  exact Except.ok.inj (hparse.symm.trans hparse')

/-- What was said about classes in memory is still right if they only lose fields. -/
theorem told_of_fewer (h : Cleared g past s)
    (hfewer : ∀ k x, s.context.cache.get? k = some x → ∃ y, context.cache.get? k = some y ∧
      ∀ field, y.classFile.Declares field → x.classFile.Declares field)
    (hpast : past ⊆ past') (ho : o ∈ s.report.outcomes) (hclears : o.Clears) :
    ∃ y, context.cache.get? o.name = some y ∧
      (g.DistinctAt past' o.name → ¬ y.classFile.Declares o.stampField) := by
  obtain ⟨x, hx, hnot⟩ := h.told o ho hclears
  obtain ⟨y, hy, hfields⟩ := hfewer _ x hx
  exact ⟨y, hy, fun hdistinct hdeclares => hnot (hdistinct.earlier hpast) (hfields _ hdeclares)⟩

/-- A file with a class that lost no stamp was there at the outset. -/
theorem original (h : Cleared g past s)
    (hn : ∀ o ∈ s.report.outcomes, o.state = .unstamped → o.name ≠ n) {place : FileTree.Place}
    {bytes : Bytes} (hat : s.files.fileAt? place = some bytes)
    (hparse : ClassFile.parse bytes = .ok c) (hname : c.name = .ok n) :
    g.files.fileAt? place = some bytes := by
  rw [← h.others place fun o ho hstate hplace => hn o ho hstate ?_]
  · exact hat
  obtain ⟨a, ha, -⟩ := h.told o ho (.inl hstate)
  rw [hplace] at hat
  have hsame := (h.tidy _ a ha).2.declared
  rw [← h.parse_written ho hstate ha hat hparse, (h.tidy _ a ha).1, hname] at hsame
  exact (Except.ok.inj hsame).symm

/-- A class is found, in memory or by reading it, as the invariant says. -/
theorem stripped_of_found (h : Cleared g past s) {requested : ClassName}
    (hfound : Context.Found s.files s.context requested a) :
    Stripped g (past ++ [s]) s.report.outcomes a.name a.classFile := by
  rcases hfound with hc | ⟨hnone, hread⟩
  · exact (h.memory _ a hc).later (List.subset_append_left past [s])
  obtain ⟨found, hfound, hbytes⟩ := Context.read_eq_ok hread
  obtain ⟨hparse, hname, -⟩ := Artifact.ofBytes_eq_ok hbytes
  rw [h.entries] at hfound
  have hkept : ∀ o ∈ s.report.outcomes, o.state = .unstamped → o.name ≠ a.name := by
    intro o ho hstate he
    obtain ⟨x, hx, -⟩ := h.told o ho (.inl hstate)
    rw [he, hnone] at hx
    cases hx
  refine ⟨s, List.mem_append_right _ (List.mem_singleton_self s), a.classFile,
    ⟨hname, h.settled, fun _ _ _ => h.original hkept, found, hfound, hparse⟩, ?_, ?_⟩
  · rw [removed_eq_nil hkept]
    exact fun _ hf => (nomatch hf)
  · rw [removed_eq_nil hkept, ClassFile.withoutFirst_nil]

/-- So is a class that is taken out. -/
theorem stripped_of_checkedOut (h : Cleared g past s)
    (ha : Context.CheckedOut s.files s.context n a context) :
    Stripped g (past ++ [s]) s.report.outcomes n a.classFile := by
  have hself := h.stripped_of_found (ha.found a.withoutNested List.mem_cons_self)
  rw [← ha.name]
  exact hself

/-- A class was taken out and came back: memory holds what it has to. -/
theorem memory_restore (h : Cleared g past s)
    (ha : Context.CheckedOut s.files s.context n a context) (hname : x.name = n)
    (hnested : List.Forall₂ Alike a.nested x.nested)
    (hos : ∀ k, k ≠ n → removed os k = removed s.report.outcomes k)
    (hx : Stripped g (past ++ [s]) os n x.classFile)
    (hy : (context.restore x).cache.get? k = some y) :
    Stripped g (past ++ [s]) os k y.classFile := by
  rcases Context.mem_of_get?_restore hy with ⟨hmem, rfl⟩ | hold
  · rcases List.mem_cons.1 hmem with rfl | hmem
    · show Stripped g (past ++ [s]) os x.name x.classFile
      rw [hname]
      exact hx
    · obtain ⟨m, hm, hsame⟩ := Artifact.exists_of_forall₂ hnested hmem
      have hne : m.name ≠ n := isImmediateMemberOf_ne (ha.isImmediateMemberOf hm)
      rw [hsame.name, hsame.classFile]
      exact (h.stripped_of_found (ha.found m (List.mem_cons_of_mem _ hm))).congr (hos _ hne)
  · obtain ⟨hout, hold⟩ := ha.left hold
    exact ((h.memory k y hold).later (List.subset_append_left past [s])).congr
      (hos k (not_or.1 hout).1)

end Cleared

/-- A class that a step finds without the stamp is without it in memory. -/
theorem Withdraws.missing (hw : Withdraws p n s o s') (h : s.context.Tidy)
    (hstate : o.state = .notStamped) :
    ∃ y, s'.context.cache.get? o.name = some y ∧ ¬ y.classFile.Declares o.stampField := by
  obtain ⟨a, context, hout, hpresent⟩ := hw.stamp (.inr hstate)
  rcases hw.context with ⟨e, herror⟩ | ⟨a', context', b, hout', hb, hback⟩
  · cases hout.symm.trans herror
  cases hout.symm.trans hout'
  have hself := Context.get?_restore context b
  rw [hb.name, (Context.checkout_eq_ok h hout).name, ← hw.name, ← hback] at hself
  refine ⟨b.withoutNested, hself, fun hdeclares => ?_⟩
  have hmarked : p.stamp.isPresent a = true := by
    rw [Outcome.stampField, hw.transformer] at hdeclares
    show (a.classFile.declaredField? p.stamp.field).isSome = true
    rw [← hb.classFile]
    exact hdeclares
  have hskipped := hpresent.1 hmarked
  rw [hstate] at hskipped
  cases hskipped

namespace Cleared

/-- A step that comes to nothing. -/
theorem withdraws (h : Cleared g past s) (hw : Withdraws p n s o s') :
    Cleared g (past ++ [s]) s' := by
  have hreport : s'.report.outcomes = s.report.outcomes ++ [o] := by
    rw [hw.report]
    rfl
  have hidle := hw.idle.not_unstamped
  have hremoved : ∀ k, removed s'.report.outcomes k = removed s.report.outcomes k := fun k => by
    rw [hreport]
    exact removed_concat_of_idle hidle
  have hunstamped : ∀ o' ∈ s'.report.outcomes, o'.state = .unstamped → o' ∈ s.report.outcomes := by
    intro o' ho' hstate
    rw [hreport] at ho'
    exact (List.mem_append.1 ho').resolve_right fun ho' =>
      hidle (List.mem_singleton.1 ho' ▸ hstate)
  have hkept := hw.keepsCached h.tidy
  refine ⟨h.settled.trans hw.files.toSettled, hw.tidy h.tidy, ?_, fun k y hy => ?_,
    fun o' ho' hclears => ?_, fun o' ho' hstate y hy => ?_, fun place hplace => ?_⟩
  · rcases hw.context with ⟨e, hout⟩ | ⟨a, context, b, hout, -, hback⟩
    · exact (Context.checkout_eq_error h.tidy hout).1.trans h.entries
    · rw [hback]
      exact (Context.checkout_eq_ok h.tidy hout).entries.trans h.entries
  · rcases hw.context with ⟨e, hout⟩ | ⟨a, context, b, hout, hb, hback⟩
    · rw [(Context.checkout_eq_error h.tidy hout).2] at hy
      exact ((h.memory k y hy).later (List.subset_append_left past [s])).congr (hremoved k)
    · have ha := Context.checkout_eq_ok h.tidy hout
      rw [hback] at hy
      refine h.memory_restore ha (hb.name.trans ha.name) hb.nested (fun k _ => hremoved k) ?_ hy
      rw [hb.classFile]
      exact (h.stripped_of_checkedOut ha).congr (hremoved n)
  · rw [hreport] at ho'
    rcases List.mem_append.1 ho' with ho' | ho'
    · refine h.told_of_fewer (fun k x hx => ?_) (List.subset_append_left past [s]) ho' hclears
      obtain ⟨y, hy, hsame⟩ := hkept k x hx
      exact ⟨y, hy, fun _ hfield => hsame ▸ hfield⟩
    · obtain rfl := List.mem_singleton.1 ho'
      obtain ⟨y, hy, hnot⟩ := hw.missing h.tidy (hclears.resolve_left hidle)
      exact ⟨y, hy, fun _ => hnot⟩
  · obtain ⟨a, ha, -⟩ := h.told o' (hunstamped o' ho' hstate) (.inl hstate)
    obtain ⟨bytes, hread, hparse⟩ := h.written o' (hunstamped o' ho' hstate) hstate a ha
    obtain ⟨y', hy', hsame⟩ := hkept _ a ha
    obtain rfl := Option.some.inj (hy.symm.trans hy')
    rw [hsame]
    exact ⟨bytes, FileTree.read_of_settled_of_fileAt? hw.files.toSettled (hw.files.contents _)
      hread, hparse⟩
  · rw [hw.files.contents]
    refine h.others place fun o' ho' => hplace o' ?_
    rw [hreport]
    exact List.mem_append_left _ ho'

end Cleared

/-! ## Removing a stamp -/

theorem remove_eq_ok {stamp : Stamp} {r : Bool} (hmarked : stamp.isPresent a = true)
    (h : stamp.remove a = .ok r b) : a.frozen = none ∧
      b = { a with isModified := true, classFile := a.classFile.withoutFirst [stamp.field] } := by
  unfold Stamp.remove at h
  rw [if_pos hmarked] at h
  split at h <;> cases h
  rename_i hedit
  obtain ⟨hfrozen, c, hremoved, rfl⟩ := Artifact.edit_eq_ok hedit
  rw [ClassFile.removeField_eq] at hremoved
  cases hremoved
  exact ⟨hfrozen, rfl⟩

/-- The second class is the first one without the stamp. -/
structure Loses (p : Pass) (a d : Artifact) : Prop where
  name : d.name = a.name
  nested : d.nested = a.nested
  classFile : d.classFile = a.classFile.withoutFirst [p.stamp.field]

/-- The class that lost its stamp, and what is in its file. -/
theorem Unstamps.loses {d : Artifact} {file : WrittenFile} {files : FileTree}
    (h : Unstamps p n s a b d context file files) (hpaired : a.classFile.pool.Paired) :
    Loses p a d ∧ b.name = a.name ∧
      ∃ bytes, b.toBytes = .ok bytes ∧ ClassFile.parse bytes = .ok d.classFile := by
  obtain ⟨r, hremoved⟩ := h.removed
  obtain ⟨hfrozen, rfl⟩ := remove_eq_ok (a := a.defrost) h.marked hremoved
  obtain ⟨bytes, hbytes, rfl, -⟩ := Output.write_eq_ok h.written
  have hclass := Artifact.toBytes_of_not_frozen hbytes hfrozen
  exact ⟨⟨rfl, rfl, rfl⟩, rfl, bytes, hbytes, ClassFile.parse_toBytes hpaired hclass⟩

namespace Loses

variable {d : Artifact}

theorem not_declares (h : Loses p a d) (hdistinct : a.classFile.DistinctFields) :
    ¬ d.classFile.Declares p.stamp.field := by
  rw [h.classFile, ClassFile.withoutFirst_eq hdistinct, ClassFile.declares_without]
  exact fun hdeclares => hdeclares.1 (List.mem_singleton_self _)

theorem alike (h : Loses p a d) : List.Forall₂ Alike a.nested d.nested := by
  rw [h.nested]
  exact List.forall₂_same.2 fun _ _ => ⟨rfl, rfl, rfl⟩

variable (h : Loses p a d) (ha : Context.CheckedOut s.files s.context n a context)

include h ha

/-- The class itself is in memory without the stamp then. -/
theorem get?_restore : (context.restore d).cache.get? n = some d.withoutNested := by
  rw [← ha.name, ← h.name]
  exact Context.get?_restore context d

/-- All other classes in memory are as before. -/
theorem kept (hk : k ≠ n) (hx : s.context.cache.get? k = some x) :
    ∃ y, (context.restore d).cache.get? k = some y ∧ y.classFile = x.classFile :=
  cached_restore ha h.name h.alike hk hx

/-- No class in memory gains a field. -/
theorem fewer (hx : s.context.cache.get? k = some x) :
    ∃ y, (context.restore d).cache.get? k = some y ∧
      ∀ field, y.classFile.Declares field → x.classFile.Declares field := by
  by_cases hk : k = n
  · rw [hk] at hx ⊢
    refine ⟨d.withoutNested, h.get?_restore ha, fun field hfield => ?_⟩
    rw [← ha.name] at hx
    rw [← (ha.found a.withoutNested List.mem_cons_self).eq_of_cached hx]
    exact ClassFile.declares_of_withoutFirst (h.classFile ▸ hfield)
  · obtain ⟨y, hy, hsame⟩ := h.kept ha hk hx
    exact ⟨y, hy, fun _ hfield => hsame ▸ hfield⟩

end Loses

/-- A step that removes a stamp. -/
theorem Cleared.unstamps (hp : p.output = g.output) (h : Cleared g past s) {d : Artifact}
    {file : WrittenFile}
    {files : FileTree} {report : Report} (hw : Unstamps p n s a b d context file files)
    (hreport : report.outcomes = s.report.outcomes) (htidy : (context.restore d).Tidy) :
    Cleared g (past ++ [s])
      ((State.noteFile { s with files, context, report } p n .unstamped file).giveBack d) := by
  have ha := Context.checkout_eq_ok h.tidy hw.taken
  have hstripped := h.stripped_of_checkedOut ha
  obtain ⟨hloses, hbname, bytes, hbytes, hparse⟩ := hw.loses hstripped.paired
  obtain ⟨bytes', hbytes', -, -, hsettled, hread, hfiles⟩ := Output.write_eq_ok hw.written
  cases hbytes.symm.trans hbytes'
  rw [ha.name] at hbname
  rw [hp, hbname] at hread hfiles
  let o : Outcome :=
    { transformer := p.transformer.identity, name := n, state := .unstamped, message := none,
      files := [file] }
  have houtcomes : ((State.noteFile { s with files, context, report } p n .unstamped file).giveBack
      d).report.outcomes = s.report.outcomes ++ [o] := by
    rw [← hreport]
    rfl
  refine ⟨h.settled.trans hsettled, htidy, ha.entries.trans h.entries, fun k y hy => ?_,
    fun o' ho' hclears => ?_, fun o' ho' hstate y hy => ?_, fun place hplace => ?_⟩
  · rw [houtcomes]
    refine h.memory_restore ha (hloses.name.trans ha.name) hloses.alike
      (fun k hk => removed_concat_of_ne (Ne.symm hk)) ?_ hy
    rw [hloses.classFile]
    exact hstripped.remove hw.marked (removed_concat rfl rfl)
  · rw [houtcomes] at ho'
    rcases List.mem_append.1 ho' with ho' | ho'
    · exact h.told_of_fewer (fun k x => hloses.fewer ha) (List.subset_append_left past [s]) ho'
        hclears
    · rw [List.mem_singleton.1 ho']
      exact ⟨d.withoutNested, hloses.get?_restore ha,
        fun hdistinct => hloses.not_declares (hstripped.distinct hdistinct)⟩
  · rw [houtcomes] at ho'
    by_cases hk : o'.name = n
    · rw [hk] at hy ⊢
      obtain rfl := Option.some.inj ((hloses.get?_restore ha).symm.trans hy)
      exact ⟨bytes, hread, hparse⟩
    · -- the file of another class is as it was, and so is the class
      have hold := (List.mem_append.1 ho').resolve_right fun ho' =>
        hk (List.mem_singleton.1 ho' ▸ rfl)
      obtain ⟨x, hx, -⟩ := h.told o' hold (.inl hstate)
      obtain ⟨y', hy', hsame⟩ := hloses.kept ha hk hx
      obtain rfl := Option.some.inj (hy'.symm.trans hy)
      obtain ⟨bytes', hread', hparse'⟩ := h.written o' hold hstate x hx
      rw [hsame]
      have hne : o'.name ≠ b.name := by rwa [hbname]
      rw [← hp] at hread' ⊢
      exact ⟨bytes', Output.read_of_write_of_ne hw.written hne hread', hparse'⟩
  · rw [houtcomes] at hplace
    show files.fileAt? place = _
    rw [hfiles, h.settled.placeOf,
      if_neg (hplace o (List.mem_append_right _ (List.mem_singleton_self o)) rfl)]
    exact h.others place fun o' ho' => hplace o' (List.mem_append_left _ ho')

/-- A step of a run that removes stamps keeps all that. -/
theorem cleared_unstamp (hp : p.output = g.output) (h : Cleared g past s) (n : ClassName) :
    Cleared g (past ++ [s]) (State.unstamp p n s) := by
  rcases unstamp_cases p n s with ⟨o, hw⟩ | ⟨a, b, d, context, file, files, hw, heq⟩
  · exact h.withdraws hw
  · have htidy := tidy_unstamp h.tidy p n
    rw [heq] at htidy ⊢
    exact h.unstamps hp hw rfl htidy

end ClassStamp.Run
