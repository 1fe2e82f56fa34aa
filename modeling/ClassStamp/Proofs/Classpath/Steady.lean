import ClassStamp.Proofs.Classpath.Lookup
import ClassStamp.Proofs.FileTree.Steady

/-!
# Look-ups in an earlier tree

What a look-up finds in a later tree it also found in an earlier one in which the
file was the same, if no root of the classpath goes up through directories that
were not there yet, and no loader answers otherwise than it did.

* `Loader.Steady`: the loaders that do not, among them those of classes in memory and
  of a directory with such a root (`steady_inMemory`, `steady_directory`);
* `Entry.Steady`: the entries with such roots and loaders only;
* `firstFound_load_earlier`: the look-up.
-/

namespace ClassStamp.Classpath

open FileTree (Settled)

/-- What the loader answers with in a later tree, or does not hold there, is what it
answered, unless a file with these bytes is new. -/
structure Loader.Steady (files : FileTree) (l : Loader) : Prop where
  missing : ∀ files' n, Settled files files' → l.load files' n = .ok none →
    l.load files n = .ok none
  found : ∀ files' n found, Settled files files' →
    (∀ place, files'.fileAt? place = some found.content →
      files.fileAt? place = some found.content) →
    l.load files' n = .ok (some found) → l.load files n = .ok (some found)

/-- All roots of the entry lead to what is there, and a loader answers as it did. -/
def Entry.Steady (files : FileTree) : Entry → Prop
  | .directory root => files.Steady root
  | .loader l => l.Steady files
  | .system roots => ∀ root ∈ roots, files.Steady root

variable {files files' : FileTree} {root : Path} {n : ClassName} {found : ClassBytes}

section FirstFound

variable {α : Type} {load load' : α → Except ResolutionError (Option ClassBytes)} {places : List α}

theorem firstFound_eq_none :
    firstFound load places = .ok none ↔ ∀ place ∈ places, load place = .ok none := by
  induction places with
  | nil => exact ⟨fun _ _ h => (nomatch h), fun _ => rfl⟩
  | cons place places ih =>
    rw [firstFound, List.forall_mem_cons]
    split
    · rename_i hnone
      rw [ih, and_iff_right hnone]
    · rename_i hsome
      exact ⟨fun h => absurd h hsome, fun h => absurd h.1 hsome⟩

/-- The same place answers if every place before it has nothing there either. -/
theorem firstFound_of_imp
    (hnone : ∀ place ∈ places, load place = .ok none → load' place = .ok none)
    (hsome : ∀ place ∈ places, load place = .ok (some found) → load' place = .ok (some found))
    (h : firstFound load places = .ok (some found)) :
    firstFound load' places = .ok (some found) := by
  induction places with
  | nil => cases h
  | cons place places ih =>
    obtain ⟨hnone, hnone'⟩ := List.forall_mem_cons.1 hnone
    obtain ⟨hsome, hsome'⟩ := List.forall_mem_cons.1 hsome
    rw [firstFound] at h ⊢
    split at h
    · rename_i hload
      rw [hnone hload]
      exact ih hnone' hsome' h
    · rw [hsome h]

end FirstFound

theorem loadFrom_none_earlier (h : Settled files files')
    (hload : loadFrom files' root n = .ok none) : loadFrom files root n = .ok none := by
  have hread := FileTree.read_notFound_earlier h (notFound_of_loadFrom hload)
  unfold loadFrom
  dsimp only
  rw [hread]

theorem loadFrom_earlier (h : Settled files files') (hroot : files.Steady root)
    (hsame : ∀ place, files'.fileAt? place = some found.content →
      files.fileAt? place = some found.content)
    (hload : loadFrom files' root n = .ok (some found)) :
    loadFrom files root n = .ok (some found) := by
  have hread := read_of_loadFrom hload
  have hup : ".." ∉ FileTree.steps n.relativePath := by
    rw [FileTree.steps_relativePath]
    exact fun hmem => (ClassName.fileNames_plain hmem).2.2 rfl
  have hat := hsame _ (FileTree.fileAt?_of_read hread)
  rw [h.placeOf] at hat
  have hread' := FileTree.read_earlier h hroot n.relativePath_not_absolute hup hread hat
  unfold loadFrom at hload ⊢
  dsimp only at hload ⊢
  rw [hread] at hload
  rw [hread']
  exact hload

theorem steady_inMemory (description : String) (classes : List (ClassName × Bytes))
    (failing : List ClassName) :
    (Loader.inMemory description classes failing).Steady files :=
  ⟨fun _ _ _ => id, fun _ _ _ _ _ => id⟩

theorem steady_directory (h : files.Steady root) : (Loader.directory root).Steady files := by
  refine ⟨fun files' n hs hload => ?_, fun files' n found hs hsame hload => ?_⟩ <;>
    rw [load_directory] at hload ⊢
  · exact loadFrom_none_earlier hs hload
  · exact loadFrom_earlier hs h hsame hload

theorem load_none_earlier {entry : Entry} (h : Settled files files')
    (hsteady : entry.Steady files) (hload : entry.load files' n = .ok none) :
    entry.load files n = .ok none := by
  cases entry with
  | directory root =>
    rw [Entry.load] at hload ⊢
    exact loadFrom_none_earlier h hload
  | loader l => exact hsteady.missing files' n h hload
  | system roots =>
    rw [Entry.load, firstFound_eq_none] at hload ⊢
    exact fun root hroot => loadFrom_none_earlier h (hload root hroot)

theorem load_earlier {entry : Entry} (h : Settled files files') (hsteady : entry.Steady files)
    (hsame : ∀ place, files'.fileAt? place = some found.content →
      files.fileAt? place = some found.content)
    (hload : entry.load files' n = .ok (some found)) : entry.load files n = .ok (some found) := by
  cases entry with
  | directory root =>
    rw [Entry.load] at hload ⊢
    exact loadFrom_earlier h hsteady hsame hload
  | loader l => exact hsteady.found files' n found h hsame hload
  | system roots =>
    rw [Entry.load] at hload ⊢
    exact firstFound_of_imp (fun root _ => loadFrom_none_earlier h)
      (fun root hroot => loadFrom_earlier h (hsteady root hroot) hsame) hload

/-- What steady entries find in a later tree they found in an earlier one with the
same file. -/
theorem firstFound_load_earlier {entries : List Entry} (h : Settled files files')
    (hsteady : ∀ entry ∈ entries, entry.Steady files)
    (hsame : ∀ place, files'.fileAt? place = some found.content →
      files.fileAt? place = some found.content)
    (hfound : firstFound (Entry.load files' n) entries = .ok (some found)) :
    firstFound (Entry.load files n) entries = .ok (some found) :=
  firstFound_of_imp (fun entry hentry => load_none_earlier h (hsteady entry hentry))
    (fun entry hentry => load_earlier h (hsteady entry hentry) hsame) hfound

end ClassStamp.Classpath
