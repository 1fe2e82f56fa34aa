import ClassStamp.Proofs.Classpath.Lookup
import ClassStamp.Proofs.ClassName.FromPath
import ClassStamp.Proofs.ClassName.Internal
import ClassStamp.Proofs.Output

/-!
# The forms of a class name

A class name stands for a file below every root. The path of that file is read back as
the name, whatever the root looks like, so that one who writes a class, one who looks
for it and one who finds its file are talking of the same file.

* `ofRelativePath?_relativePath`, `ofPathBelow?_join`: the path read back;
* `sameAs_relativePath_iff`: so different names have different paths;
* `loadFrom_eq_some_iff` and its like: what a look-up below a root reads;
* `FormsAgree`, `forms_agree`: all that, and the form inside class files, together.
-/

namespace ClassStamp

namespace ClassName

/-! ## The path of the file -/

/-- The names on the way to the file are the segments, the last one with the suffix. -/
theorem fileNames_eq (n : ClassName) : ∃ directories stem,
    n.fileNames = directories ++ [stem ++ fileSuffix] ∧
      n.chars = Text.join '.' ((directories ++ [stem]).map String.toList) := by
  refine ⟨(Text.split '.' n.chars).dropLast.map String.ofList,
    String.ofList ((Text.split '.' n.chars).getLast (Text.split_ne_nil '.' n.chars)), ?_, ?_⟩
  · rw [fileNames, filePieces, List.map_append, List.map_singleton, String.ofList_append,
      String.ofList_toList]
  · rw [← List.map_singleton, ← List.map_append, List.dropLast_append_getLast,
      Text.map_toList_ofList, Text.join_split]

theorem fileNames_ne_nil (n : ClassName) : n.fileNames ≠ [] :=
  fun h => n.filePieces_ne_nil (List.map_eq_nil_iff.1 h)

theorem slashed_relativePath (n : ClassName) : n.relativePath.slashed = n.fileNames := by
  rw [relativePath_eq_spelled]
  exact Path.slashed_spelled (fun _ => isName_of_mem_fileNames) n.fileNames_ne_nil

theorem components_relativePath (n : ClassName) :
    n.relativePath.components = n.fileNames.map .name := by
  rw [relativePath_eq_spelled]
  exact Path.components_spelled n.fileNames_ne_nil fun _ => isName_of_mem_fileNames

theorem ofRelativePath?_relativePath (n : ClassName) : ofRelativePath? n.relativePath = .ok n := by
  obtain ⟨directories, stem, hnames, hchars⟩ := n.fileNames_eq
  have htext : String.ofList (Text.join '.' ((directories ++ [stem]).map String.toList)) =
      n.text := by
    rw [← hchars, chars, String.ofList_toList]
  rw [ofRelativePath?, components_relativePath, namesOfComponents?_names, hnames]
  dsimp only
  rw [List.getLast?_concat]
  dsimp only
  rw [dropEnding?_append]
  dsimp only
  rw [List.dropLast_concat, htext, ofString?_text]

/-- Seen from any root, the path below it is that of the class. -/
theorem ofPathBelow?_join (root : Path) (n : ClassName) :
    ofPathBelow? root (root.join n.relativePath) = .ok n := by
  have hstrip := Path.stripRoot?_join root n.fileNames_ne_nil fun _ => isName_of_mem_fileNames
  rw [← relativePath_eq_spelled] at hstrip
  rw [ofPathBelow?, hstrip]
  exact n.ofRelativePath?_relativePath

/-- Different classes have paths of different steps. -/
theorem sameAs_relativePath_iff {m n : ClassName} :
    m.relativePath.sameAs n.relativePath = true ↔ m = n := by
  rw [Path.sameAs, beq_iff_eq, components_relativePath, components_relativePath]
  refine ⟨fun h => fileNames_inj ?_, fun h => by rw [h]⟩
  exact List.map_injective_iff.2 (fun _ _ => Path.Component.name.inj) h

/-! ## All forms -/

section Loading

open Classpath

variable {files : FileTree} {root : Path} {n : ClassName}

theorem loadFrom_eq_some_iff {found : ClassBytes} :
    loadFrom files root n = .ok (some found) ↔
      files.read (root.join n.relativePath) = .ok found.content ∧
        found.origin = (root.join n.relativePath).text := by
  refine ⟨fun h => ⟨read_of_loadFrom h, ?_⟩, fun ⟨hread, horigin⟩ => ?_⟩
  · have hread := read_of_loadFrom h
    unfold loadFrom at h
    dsimp only at h
    rw [hread] at h
    dsimp only at h
    rw [← Option.some.inj (Except.ok.inj h)]
  · unfold loadFrom
    dsimp only
    rw [hread, ← horigin]

theorem loadFrom_eq_none_iff :
    loadFrom files root n = .ok none ↔
      files.read (root.join n.relativePath) = .error .notFound := by
  refine ⟨notFound_of_loadFrom, fun hread => ?_⟩
  unfold loadFrom
  dsimp only
  rw [hread]

theorem loadFrom_eq_error_iff {e : ResolutionError} :
    loadFrom files root n = .error e ↔
      ∃ reason, reason ≠ .notFound ∧
        files.read (root.join n.relativePath) = .error reason ∧
        e = .io (root.join n.relativePath) reason := by
  unfold loadFrom
  dsimp only
  generalize root.join n.relativePath = path
  cases files.read path with
  | ok content => simp
  | error reason =>
    constructor
    · intro h
      refine ⟨reason, fun hreason => ?_, rfl, ?_⟩
      · subst hreason
        cases h
      · cases reason <;> cases h <;> rfl
    · rintro ⟨_, hreason, ⟨⟩, rfl⟩
      cases reason with
      | notFound => exact absurd rfl hreason
      | _ => rfl

end Loading

/-- The forms of a name stand for the same class and, below a root, for the same
file. -/
structure FormsAgree (n : ClassName) (root : Path) : Prop where
  /-- The path that the class is written to has the name of the class, seen from the
  root. -/
  located : ofPathBelow? root (Output.pathFor ⟨root⟩ n) = .ok n
  /-- The bytes of the class are those of the file at this path. -/
  loaded : ∀ files found, Classpath.loadFrom files root n = .ok (some found) ↔
    files.read (Output.pathFor ⟨root⟩ n) = .ok found.content ∧
      found.origin = (Output.pathFor ⟨root⟩ n).text
  /-- There are none exactly if there is no such file. -/
  missing : ∀ files, Classpath.loadFrom files root n = .ok none ↔
    files.read (Output.pathFor ⟨root⟩ n) = .error .notFound
  /-- Any other failure to read is one to read this path. -/
  failed : ∀ files e, Classpath.loadFrom files root n = .error e ↔
    ∃ reason, reason ≠ .notFound ∧ files.read (Output.pathFor ⟨root⟩ n) = .error reason ∧
      e = .io (Output.pathFor ⟨root⟩ n) reason
  /-- What was written for the class is what there is to load. -/
  written : ∀ a files file a' files', a.name = n →
    Output.write ⟨root⟩ (a, files) = .ok file (a', files') →
      ∃ bytes, a.toBytes = .ok bytes ∧ Classpath.loadFrom files' root n =
        .ok (some { origin := (Output.pathFor ⟨root⟩ n).text, content := bytes })
  /-- The path of the file begins at no root and makes no detour. -/
  relative : n.relativePath.isAbsolute = false ∧
    n.relativePath.components = n.relativePath.slashed.map .name ∧
    ∀ s ∈ n.relativePath.slashed, Path.IsName s
  suffixed : fileSuffix.toList <:+ n.relativePath.text.toList
  ofRelativePath : ofRelativePath? n.relativePath = .ok n
  ofInternal : ofInternal? n.internal = .ok n
  relativePath_injective : ∀ m : ClassName,
    m.relativePath.sameAs n.relativePath = true ↔ m = n
  internal_injective : ∀ m : ClassName, m.internal = n.internal ↔ m = n

theorem forms_agree (n : ClassName) (root : Path) : FormsAgree n root where
  located := ofPathBelow?_join root n
  loaded _ _ := loadFrom_eq_some_iff
  missing _ := loadFrom_eq_none_iff
  failed _ _ := loadFrom_eq_error_iff
  written a files file a' files' hname hwrite := by
    obtain ⟨bytes, hbytes, -, -, -, hread, -⟩ := Output.write_eq_ok hwrite
    rw [hname] at hread
    exact ⟨bytes, hbytes, loadFrom_eq_some_iff.2 ⟨hread, rfl⟩⟩
  relative := by
    refine ⟨n.relativePath_not_absolute, ?_, ?_⟩
    · rw [slashed_relativePath, components_relativePath]
    · rw [slashed_relativePath]
      exact fun _ => isName_of_mem_fileNames
  suffixed := by
    rw [relativePath, String.toList_append]
    exact List.suffix_append _ _
  ofRelativePath := n.ofRelativePath?_relativePath
  ofInternal := n.ofInternal?_internal
  relativePath_injective _ := sameAs_relativePath_iff
  internal_injective _ := ⟨internal_inj, fun h => by rw [h]⟩

end ClassName

end ClassStamp
