import ClassStamp.Classpath.Entry
import ClassStamp.Proofs.ClassName.FilePlace
import ClassStamp.Proofs.FileTree.Changes

/-!
# Where a look-up finds a class

* `firstFound_eq_some`: what was found is what one of the places has;
* `read_of_loadFrom`: what a directory has is the content of the file of the
  class;
* `has_of_load`: what an entry answers with is there, and `has_of_settled`: since
  when;
* `firstFound_directory`: a directory whose file of the class is there has the
  last word, if it comes first.
-/

namespace ClassStamp.Classpath

theorem firstFound_eq_some {α : Type} {load : α → Except ResolutionError (Option ClassBytes)}
    {places : List α} {found : ClassBytes} (h : firstFound load places = .ok (some found)) :
    ∃ place ∈ places, load place = .ok (some found) := by
  induction places with
  | nil => cases h
  | cons place places ih =>
    cases hload : load place with
    | error e =>
      rw [firstFound, hload] at h
      cases h
    | ok answer =>
      cases answer with
      | none =>
        rw [firstFound, hload] at h
        obtain ⟨place', hmem, hfound⟩ := ih h
        exact ⟨place', List.mem_cons_of_mem place hmem, hfound⟩
      | some found' =>
        rw [firstFound, hload] at h
        exact ⟨place, List.mem_cons_self, hload.trans h⟩

variable {files : FileTree} {root : Path} {n : ClassName} {found : ClassBytes}

theorem read_of_loadFrom (h : loadFrom files root n = .ok (some found)) :
    files.read (root.join n.relativePath) = .ok found.content := by
  unfold loadFrom at h
  dsimp only at h
  generalize root.join n.relativePath = path at h ⊢
  cases hread : files.read path with
  | ok content =>
    rw [hread] at h
    cases h
    rfl
  | error reason =>
    rw [hread] at h
    cases reason <;> cases h

theorem notFound_of_loadFrom (h : loadFrom files root n = .ok none) :
    files.read (root.join n.relativePath) = .error .notFound := by
  unfold loadFrom at h
  dsimp only at h
  generalize root.join n.relativePath = path at h ⊢
  cases hread : files.read path with
  | ok content =>
    rw [hread] at h
    cases h
  | error reason =>
    rw [hread] at h
    cases reason with
    | notFound => rfl
    | _ => cases h

theorem load_directory (root : Path) (files : FileTree) (n : ClassName) :
    (Loader.directory root).load files n = loadFrom files root n := by
  dsimp only [Loader.directory]

/-- The loader answers with the bytes, at once or in a later tree in which no file has
them that did not have them before. -/
def Loader.Has (files : FileTree) (n : ClassName) (bytes : Bytes) (l : Loader) : Prop :=
  ∃ files' found, FileTree.Settled files files' ∧ l.load files' n = .ok (some found) ∧
    found.content = bytes ∧
    ∀ place, files'.fileAt? place = some bytes → files.fileAt? place = some bytes

/-- The bytes are there for the class in the entry: in a file below a directory
of it, or from a loader. -/
def Entry.Has (files : FileTree) (n : ClassName) (bytes : Bytes) : Entry → Prop
  | .directory root => files.fileAt? (files.placeOf (root.join n.relativePath)) = some bytes
  | .loader l => l.Has files n bytes
  | .system roots => ∃ root ∈ roots,
    files.fileAt? (files.placeOf (root.join n.relativePath)) = some bytes

theorem has_of_load {entry : Entry} (h : entry.load files n = .ok (some found)) :
    entry.Has files n found.content := by
  cases entry with
  | directory root => exact FileTree.fileAt?_of_read (read_of_loadFrom h)
  | loader l => exact ⟨files, found, .refl files, h, rfl, fun _ => id⟩
  | system roots =>
    obtain ⟨root, hroot, hload⟩ := firstFound_eq_some h
    exact ⟨root, hroot, FileTree.fileAt?_of_read (read_of_loadFrom hload)⟩

theorem Loader.Has.earlier {files' : FileTree} {l : Loader} {bytes : Bytes}
    (h : l.Has files' n bytes) (hs : FileTree.Settled files files')
    (hsame : ∀ place, files'.fileAt? place = some bytes → files.fileAt? place = some bytes) :
    l.Has files n bytes := by
  obtain ⟨files'', found, hs', hload, hbytes, hsame'⟩ := h
  exact ⟨files'', found, hs.trans hs', hload, hbytes,
    fun place hat => hsame place (hsame' place hat)⟩

/-- The bytes were there for the class in an earlier tree already, or the file with
them changed since. -/
theorem has_of_settled {files' : FileTree} {entry : Entry} {bytes : Bytes}
    (hs : FileTree.Settled files files') (h : entry.Has files' n bytes) :
    entry.Has files n bytes ∨
      ∃ place, files'.fileAt? place = some bytes ∧ files.fileAt? place ≠ some bytes := by
  cases entry with
  | directory root =>
    rw [Entry.Has, hs.placeOf] at h
    exact or_iff_not_imp_left.2 fun hnot => ⟨_, h, hnot⟩
  | loader l =>
    refine or_iff_not_imp_right.2 fun hnone => Loader.Has.earlier h hs fun place hat => ?_
    by_contra hnot
    exact hnone ⟨place, hat, hnot⟩
  | system roots =>
    obtain ⟨root, hroot, hat⟩ := h
    rw [hs.placeOf] at hat
    exact or_iff_not_imp_left.2 fun hnot => ⟨_, hat, fun hold => hnot ⟨root, hroot, hold⟩⟩

/-- A file of the class below the first directory is what a look-up finds, if
it finds anything. -/
theorem firstFound_directory {rest : List Entry} {place : FileTree.Place}
    {entries : FileTree.Directory} {content : Bytes}
    (hroot : files.find root = .ok (place, .directory entries))
    (hfile : files.fileAt? (n.fileNames.reverse ++ place) = some content)
    (h : firstFound (Entry.load files n) (.directory root :: rest) = .ok (some found)) :
    found.content = content := by
  have hthere := FileTree.read_join_ne_notFound hroot hfile
  cases hload : loadFrom files root n with
  | error e =>
    rw [firstFound, Entry.load, hload] at h
    cases h
  | ok answer =>
    cases answer with
    | none => exact absurd (notFound_of_loadFrom hload) hthere
    | some found' =>
      rw [firstFound, Entry.load, hload] at h
      cases h
      have hat := FileTree.fileAt?_of_read (read_of_loadFrom hload)
      rw [FileTree.placeOf_join, ← (FileTree.find_place hroot).1, hfile] at hat
      exact (Option.some.inj hat).symm

end ClassStamp.Classpath
