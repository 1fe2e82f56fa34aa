import ClassStamp.Output
import ClassStamp.Proofs.ClassName.FilePlace
import ClassStamp.Proofs.FileTree.Changes

/-!
# Writing a class

* `write_eq_ok`: what it means that a class was written: the bytes are those
  of the class, they are read back from its path, and no other file changed;
* `read_of_write_of_ne`: the files of other classes are read as before;
* `write_eq_error_cases`, `write_eq_error`: if it was not, no file changed at all;
* `leaves_write`: either way the class is frozen if it has bytes.
-/

namespace ClassStamp

theorem Artifact.freeze_of_ok {a : Artifact} {bytes : Bytes} (h : a.toBytes = .ok bytes) :
    Artifact.freeze a = .ok bytes { a with frozen := some bytes } := by
  unfold Artifact.freeze
  rw [h]

theorem Artifact.freeze_of_error {a : Artifact} {e : ArtifactError} (h : a.toBytes = .error e) :
    Artifact.freeze a = .error e a := by
  unfold Artifact.freeze
  rw [h]

namespace Output

open FileTree (Settled SameFiles)

theorem writeFile_eq_ok {path : Path} {bytes : Bytes} {files files' : FileTree}
    (h : writeFile path bytes files = .ok () files') :
    Settled files files' ∧ files'.read path = .ok bytes ∧
      ∀ place, files'.fileAt? place =
        if place = files.placeOf path then some bytes else files.fileAt? place := by
  unfold writeFile at h
  dsimp only at h
  split at h
  · cases h
  · rename_i between hmade
    split at h <;> cases h
    rename_i hwritten
    have hsame := (FileTree.sameFiles_createDirectories _).ok hmade
    obtain ⟨hsettled, hread, hfiles⟩ := FileTree.write_eq_ok hwritten
    refine ⟨hsame.toSettled.trans hsettled, hread, fun place => ?_⟩
    rw [hfiles, hsame.placeOf, hsame.contents]

theorem writeFile_eq_error {path : Path} {bytes : Bytes} {files files' : FileTree} {e : WriteError}
    (h : writeFile path bytes files = .error e files') :
    (∃ refused reason, e = .io refused reason) ∧ SameFiles files files' := by
  unfold writeFile at h
  dsimp only at h
  split at h
  · rename_i hmade
    cases h
    exact ⟨⟨_, _, rfl⟩, (FileTree.sameFiles_createDirectories _).error hmade⟩
  · rename_i between hmade
    split at h <;> cases h
    rename_i hwritten
    rw [FileTree.write_eq_error hwritten]
    exact ⟨⟨_, _, rfl⟩, (FileTree.sameFiles_createDirectories _).ok hmade⟩

/-- The record of a class that was written with the given bytes. -/
def record (o : Output) (n : ClassName) (bytes : Bytes) : WrittenFile :=
  { name := n, path := o.pathFor n, hash := ContentHash.compute bytes }

@[simp] theorem record_path (o : Output) (n : ClassName) (bytes : Bytes) :
    (o.record n bytes).path = o.pathFor n := by
  rw [record]

@[simp] theorem record_hash (o : Output) (n : ClassName) (bytes : Bytes) :
    (o.record n bytes).hash = ContentHash.compute bytes := by
  rw [record]

theorem write_eq_ok {o : Output} {a a' : Artifact} {files files' : FileTree} {file : WrittenFile}
    (h : o.write (a, files) = .ok file (a', files')) :
    ∃ bytes, a.toBytes = .ok bytes ∧ a' = { a with frozen := some bytes } ∧
      file = o.record a.name bytes ∧ Settled files files' ∧
      files'.read (o.pathFor a.name) = .ok bytes ∧
      ∀ place, files'.fileAt? place =
        if place = files.placeOf (o.pathFor a.name) then some bytes else files.fileAt? place := by
  unfold write at h
  dsimp only at h
  cases hb : a.toBytes with
  | error e =>
    rw [Artifact.freeze_of_error hb] at h
    cases h
  | ok bytes =>
    rw [Artifact.freeze_of_ok hb] at h
    dsimp only at h
    split at h <;> cases h
    rename_i hwritten
    obtain ⟨hsettled, hread, hfiles⟩ := writeFile_eq_ok hwritten
    exact ⟨bytes, rfl, rfl, rfl, hsettled, hread, hfiles⟩

theorem read_of_write_of_ne {o : Output} {a a' : Artifact} {files files' : FileTree}
    {file : WrittenFile} (h : o.write (a, files) = .ok file (a', files')) {n : ClassName}
    (hne : n ≠ a.name) {bytes : Bytes} (hread : files.read (o.pathFor n) = .ok bytes) :
    files'.read (o.pathFor n) = .ok bytes := by
  obtain ⟨_, -, -, -, hsettled, -, hfiles⟩ := write_eq_ok h
  have hplace : files.placeOf (o.pathFor n) ≠ files.placeOf (o.pathFor a.name) :=
    fun hp => hne (FileTree.placeOf_join_inj hp)
  exact FileTree.read_of_settled_of_fileAt? hsettled (by rw [hfiles, if_neg hplace]) hread

/-- Either the class has no bytes, and nothing happened to it, or its bytes are fixed
and could not be written. -/
theorem write_eq_error_cases {o : Output} {a a' : Artifact} {files files' : FileTree}
    {e : WriteError} (h : o.write (a, files) = .error e (a', files')) :
    ((∃ reason, e = .encode a.name reason ∧ a.toBytes = .error reason ∧ a' = a) ∨
      ∃ path reason bytes, e = .io path reason ∧ a.toBytes = .ok bytes ∧
        a' = { a with frozen := some bytes }) ∧ SameFiles files files' := by
  unfold write at h
  dsimp only at h
  cases hb : a.toBytes with
  | error reason =>
    rw [Artifact.freeze_of_error hb] at h
    cases h
    exact ⟨.inl ⟨reason, rfl, rfl, rfl⟩, .refl files⟩
  | ok bytes =>
    rw [Artifact.freeze_of_ok hb] at h
    dsimp only at h
    split at h <;> cases h
    rename_i hwritten
    obtain ⟨⟨path, reason, he⟩, hsame⟩ := writeFile_eq_error hwritten
    exact ⟨.inr ⟨path, reason, bytes, he, rfl, rfl⟩, hsame⟩

theorem write_eq_error {o : Output} {a a' : Artifact} {files files' : FileTree} {e : WriteError}
    (h : o.write (a, files) = .error e (a', files')) :
    (∃ frozen, a' = { a with frozen }) ∧ SameFiles files files' := by
  obtain ⟨hcases, hsame⟩ := write_eq_error_cases h
  refine ⟨?_, hsame⟩
  rcases hcases with ⟨_, -, -, rfl⟩ | ⟨_, _, bytes, -, -, rfl⟩
  · exact ⟨a'.frozen, by cases a'; rfl⟩
  · exact ⟨some bytes, rfl⟩

/-- Whether it goes well or not, nothing is removed. -/
theorem settled_write (o : Output) (a : Artifact) (files : FileTree) :
    Settled files (leaves o.write (a, files)).2 := by
  cases h : o.write (a, files) with
  | ok file after =>
    obtain ⟨_, -, -, -, hsettled, -⟩ := write_eq_ok h
    rw [leaves_of_ok h]
    exact hsettled
  | error e after =>
    rw [leaves_of_error h]
    exact (write_eq_error h).2.toSettled

/-- Writing a class does to it what fixing its bytes does. -/
theorem leaves_write (o : Output) (a : Artifact) (files : FileTree) :
    (leaves o.write (a, files)).1 = leaves Artifact.freeze a := by
  cases h : o.write (a, files) with
  | ok file after =>
    obtain ⟨_, hbytes, ha, -⟩ := write_eq_ok h
    rw [leaves_of_ok h, leaves_of_ok (Artifact.freeze_of_ok hbytes)]
    exact ha
  | error e after =>
    rw [leaves_of_error h]
    rcases (write_eq_error_cases h).1 with ⟨_, -, hbytes, ha⟩ | ⟨_, _, _, -, hbytes, ha⟩
    · rw [leaves_of_error (Artifact.freeze_of_error hbytes)]
      exact ha
    · rw [leaves_of_ok (Artifact.freeze_of_ok hbytes)]
      exact ha

end Output

end ClassStamp
