import ClassStamp.Proofs.ClassName.FilePlace
import ClassStamp.Proofs.Output
import ClassStamp.Run.Report

/-!
# What outcomes say about files

Every outcome that says that a class was written lists the file of that class.
The outcomes of a part of a run list all files that changed in it, and what
they list last for a path is what the file there holds.

* `Outcome.Tells`: what an outcome lists fits to what it says;
* `Lists`: some outcomes list what became of the files;
* `Lists.append`, `Lists.of_sameFiles`, `Lists.of_write`: parts of a run one
  after the other, a part without changes, and a class that is written.
-/

namespace ClassStamp.Run

open FileTree (Settled SameFiles)

/-- The outcome says that the file of the class was written. -/
def Outcome.SaysWritten (o : Outcome) : Prop := o.state = .written ∨ o.state = .unstamped

/-- The outcome has a message if something went wrong, and lists the file of the
class if that was written. -/
structure Outcome.Tells (output : Output) (o : Outcome) : Prop where
  message : o.message.isSome = o.isFailure
  listed : o.SaysWritten → ∃ hash,
    o.files = [{ name := o.name, path := output.pathFor o.name, hash }]
  unlisted : ¬ o.SaysWritten → o.files = []

/-- The files that some outcomes list, in order. -/
def listed (os : List Outcome) : List WrittenFile := os.flatMap (·.files)

theorem listed_append (os os' : List Outcome) : listed (os ++ os') = listed os ++ listed os' :=
  List.flatMap_append

/-- The outcomes list every file that changed, and the digest that they list last
for a path is that of what is read there in the end. -/
structure Lists (output : Output) (files : FileTree) (os : List Outcome) (files' : FileTree) :
    Prop where
  settled : Settled files files'
  tells : ∀ o ∈ os, o.Tells output
  changed : ∀ place, files'.fileAt? place ≠ files.fileAt? place →
    ∃ f ∈ listed os, place = files.placeOf f.path
  last : ∀ before f after, listed os = before ++ f :: after → (∀ f' ∈ after, f'.path ≠ f.path) →
    ∃ bytes, files'.read f.path = .ok bytes ∧ f.hash = ContentHash.compute bytes

variable {output : Output} {files files' files'' : FileTree} {os os' : List Outcome} {o : Outcome}

theorem path_of_tells {f : WrittenFile} (h : ∀ o ∈ os, o.Tells output) (hf : f ∈ listed os) :
    f.path = output.pathFor f.name := by
  obtain ⟨o, ho, hf⟩ := List.mem_flatMap.1 hf
  by_cases hw : o.SaysWritten
  · obtain ⟨hash, hfiles⟩ := (h o ho).listed hw
    rw [hfiles, List.mem_singleton] at hf
    rw [hf]
  · rw [(h o ho).unlisted hw] at hf
    cases hf

theorem Outcome.Tells.name_of_mem (h : o.Tells output) : ∀ file ∈ o.files, file.name = o.name := by
  intro file hfile
  by_cases hw : o.SaysWritten
  · obtain ⟨hash, hfiles⟩ := h.listed hw
    rw [hfiles, List.mem_singleton] at hfile
    rw [hfile]
  · rw [h.unlisted hw] at hfile
    cases hfile

/-- Files of classes are at the same place only if they have the same path. -/
theorem path_eq_of_placeOf {f f' : WrittenFile} (hf : f.path = output.pathFor f.name)
    (hf' : f'.path = output.pathFor f'.name) (h : files.placeOf f.path = files.placeOf f'.path) :
    f.path = f'.path := by
  rw [hf, hf'] at h ⊢
  rw [FileTree.placeOf_join_inj h]

namespace Lists

theorem of_sameFiles (h : SameFiles files files') (ho : o.Tells output) (hidle : ¬ o.SaysWritten) :
    Lists output files [o] files' := by
  have hnil : listed [o] = [] := by
    rw [listed, List.flatMap_singleton, ho.unlisted hidle]
  refine ⟨h.toSettled, fun o' ho' => List.mem_singleton.1 ho' ▸ ho, fun place hp => ?_,
    fun before f after he => ?_⟩
  · exact absurd (h.contents place) hp
  · rw [hnil] at he
    cases before <;> cases he

theorem nil (h : SameFiles files files') : Lists output files [] files' := by
  refine ⟨h.toSettled, fun o ho => (nomatch ho), fun place hp => absurd (h.contents place) hp,
    fun before f after he => ?_⟩
  cases before <;> cases he

/-- A class is written, and the outcome lists the record of that. -/
theorem of_write {a a' : Artifact} {file : WrittenFile}
    (h : output.write (a, files) = .ok file (a', files')) (hname : o.name = a.name)
    (hstate : o.SaysWritten) (hmessage : o.message = none) (hfiles : o.files = [file]) :
    Lists output files [o] files' := by
  obtain ⟨bytes, -, -, hfile, hsettled, hread, hcontents⟩ := Output.write_eq_ok h
  have hlisted : listed [o] = [output.record a.name bytes] := by
    rw [listed, List.flatMap_singleton, hfiles, hfile]
  have hfailure : o.isFailure = false := by
    rcases hstate with hs | hs <;> rw [Outcome.isFailure, hs]
  refine ⟨hsettled, fun o' ho' => ?_, fun place hp => ?_, fun before f after he _ => ?_⟩
  · rw [List.mem_singleton.1 ho']
    refine ⟨by rw [hmessage, hfailure]; rfl, fun _ => ⟨ContentHash.compute bytes, ?_⟩,
      fun hnot => absurd hstate hnot⟩
    rw [hfiles, hfile, hname]
    rfl
  · refine ⟨output.record a.name bytes, ?_, ?_⟩
    · rw [hlisted]
      exact List.mem_singleton_self _
    · rw [Output.record_path]
      by_contra hne
      rw [hcontents, if_neg hne] at hp
      exact hp rfl
  · rw [hlisted] at he
    cases before with
    | nil =>
      obtain ⟨rfl, -⟩ := List.cons.inj he
      rw [Output.record_path, Output.record_hash]
      exact ⟨bytes, hread, rfl⟩
    | cons x before => cases before <;> cases he

/-- A file that a part of a run does not list is read as before. -/
theorem read (h : Lists output files os files') {f : WrittenFile} {bytes : Bytes}
    (hf : f.path = output.pathFor f.name) (hnot : ∀ f' ∈ listed os, f'.path ≠ f.path)
    (hread : files.read f.path = .ok bytes) : files'.read f.path = .ok bytes := by
  refine FileTree.read_of_settled_of_fileAt? h.settled ?_ hread
  by_contra hne
  obtain ⟨f', hf', hplace⟩ := h.changed _ hne
  exact hnot f' hf' (path_eq_of_placeOf (path_of_tells h.tells hf') hf hplace.symm)

/-- The file of a class that no outcome is about does not change. -/
theorem fileAt?_of_ne (h : Lists output files os files') {n : ClassName}
    (hne : ∀ o ∈ os, o.name ≠ n) :
    files'.fileAt? (files.placeOf (output.pathFor n)) =
      files.fileAt? (files.placeOf (output.pathFor n)) := by
  by_contra hchanged
  obtain ⟨f, hf, hplace⟩ := h.changed _ hchanged
  obtain ⟨o, ho, hfo⟩ := List.mem_flatMap.1 hf
  rw [path_of_tells h.tells hf] at hplace
  have hname : n = f.name := FileTree.placeOf_join_inj hplace
  exact hne o ho (((h.tells o ho).name_of_mem f hfo).symm.trans hname.symm)

/-- Two parts of a run, one after the other. -/
theorem append (h : Lists output files os files') (h' : Lists output files' os' files'') :
    Lists output files (os ++ os') files'' := by
  refine ⟨h.settled.trans h'.settled, List.forall_mem_append.2 ⟨h.tells, h'.tells⟩,
    fun place hp => ?_, fun before f after he hafter => ?_⟩
  · rw [listed_append]
    by_cases hsame : files''.fileAt? place = files'.fileAt? place
    · rw [hsame] at hp
      obtain ⟨f, hf, hplace⟩ := h.changed place hp
      exact ⟨f, List.mem_append_left _ hf, hplace⟩
    · obtain ⟨f, hf, hplace⟩ := h'.changed place hsame
      rw [h.settled.placeOf] at hplace
      exact ⟨f, List.mem_append_right _ hf, hplace⟩
  · rw [listed_append] at he
    rcases List.append_eq_append_iff.1 he with ⟨more, hbefore, htail⟩ | ⟨more, hfirst, htail⟩
    · exact h'.last more f after htail hafter
    cases more with
    | nil => exact h'.last [] f after (by rw [htail]; rfl) hafter
    | cons x more =>
      rw [List.cons_append] at htail
      obtain ⟨rfl, rfl⟩ := List.cons.inj htail
      obtain ⟨bytes, hread, hhash⟩ := h.last before f more hfirst
        fun f' hf' => hafter f' (List.mem_append_left _ hf')
      have hf : f ∈ listed os := by
        rw [hfirst]
        exact List.mem_append_right _ List.mem_cons_self
      exact ⟨bytes, h'.read (path_of_tells h.tells hf)
        (fun f' hf' => hafter f' (List.mem_append_right _ hf')) hread, hhash⟩

end Lists

end ClassStamp.Run
