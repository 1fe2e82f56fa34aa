import Mathlib.Data.List.ReduceOption
import ClassStamp.Fixture
import ClassStamp.Proofs.ClassName.FromPath
import ClassStamp.Proofs.FileTree.Sound
import ClassStamp.Proofs.Output
import ClassStamp.Proofs.Run.Entries

/-!
# Located classes

A walk gives every class file that it finds a name, and whoever is told the name
goes to the place that the name spells out. That is the place of the file unless
a directory on the way, or the file itself, has a dot in its name: the name does
not tell such a dot from the end of a directory.

* `visits`: the files that a walk over an unchanging tree finds, by their ways;
* `Located`: a class file with the name that the walk gives it;
* `located_as_itself`: the main result.
-/

namespace ClassStamp.Run

open FileTree (IsEntryName)

variable {files : FileTree} {root : Path}

/-! ## Ways -/

/-- What a walk below a root visits as long as the files do not change: the way
to each file, and nothing for a directory that cannot be listed. -/
def visits (files : FileTree) (root : Path) : Nat → List String → List (Option (List String))
  | 0, _ => []
  | depth + 1, way => match files.list (root.below way) with
    | .error _ => [none]
    | .ok entries => entries.flatMap fun (name, node) =>
      if node.isDirectory then visits files root depth (way ++ [name]) else [some (way ++ [name])]

/-- What a visit gets to see of a file: its path and its name. -/
def pathAndName (root : Path) (way : List String) : Path × String :=
  (root.below way, way.getLastD "")

/-- A walk over a tree that does not change visits one way after the other. -/
theorem walkBelow_eq_foldl {σ : Type} (visit : Option (Path × String) → σ → σ) (depth : Nat)
    (way : List String) (s : σ) :
    walkBelow (fun _ => files) visit depth (root.below way) s =
      (visits files root depth way).foldl (fun s w => visit (w.map (pathAndName root)) s) s := by
  induction depth generalizing way s with
  | zero => rfl
  | succ depth ih =>
    rw [walkBelow, visits]
    cases files.list (root.below way) with
    | error e => rfl
    | ok entries =>
      dsimp only
      rw [List.foldl_flatMap]
      refine congrArg (fun f => entries.foldl f s) (funext fun s => funext fun e => ?_)
      obtain ⟨name, node⟩ := e
      dsimp only
      rw [← Path.below_concat]
      cases node with
      | directory inside => exact ih (way ++ [name]) s
      | file content =>
        show _ = visit (some (pathAndName root (way ++ [name]))) s
        rw [pathAndName, List.getLastD_concat]
        rfl

/-- The ways below a directory begin with the way to it. -/
theorem prefix_of_mem_visits {depth : Nat} {way w : List String}
    (h : some w ∈ visits files root depth way) : way <+: w := by
  induction depth generalizing way with
  | zero => cases h
  | succ depth ih =>
    rw [visits] at h
    split at h
    · cases List.mem_singleton.1 h
    obtain ⟨⟨name, node⟩, -, h⟩ := List.mem_flatMap.1 h
    cases node with
    | directory inside => exact (List.prefix_append way [name]).trans (ih h)
    | file content =>
      cases List.mem_singleton.1 h
      exact List.prefix_append way [name]

/-- A way that a walk visits leads to a file. -/
theorem file_of_mem_visits (hsound : files.Sound) {depth : Nat} {way w : List String}
    (hway : ∀ name ∈ way, IsEntryName name) (h : some w ∈ visits files root depth way) :
    (w ≠ [] ∧ ∀ name ∈ w, IsEntryName name) ∧
      ∃ content, files.fileAt? (w.reverse ++ files.placeOf root) = some content := by
  induction depth generalizing way with
  | zero => cases h
  | succ depth ih =>
    rw [visits] at h
    split at h
    · cases List.mem_singleton.1 h
    rename_i entries hlist
    obtain ⟨⟨name, node⟩, hmem, h⟩ := List.mem_flatMap.1 h
    obtain ⟨hname, hnode⟩ := (hsound.list_below hway hlist).2 name node hmem
    have hnext : ∀ s ∈ way ++ [name], IsEntryName s :=
      List.forall_mem_append.2 ⟨hway, List.forall_mem_singleton.2 hname⟩
    cases node with
    | directory inside => exact ih hnext h
    | file content =>
      cases List.mem_singleton.1 h
      exact ⟨⟨by simp, hnext⟩, content, FileTree.fileAt?_eq_some_iff.2 hnode⟩

/-- A walk visits no file twice. -/
theorem nodup_visits (hsound : files.Sound) {depth : Nat} {way : List String}
    (hway : ∀ name ∈ way, IsEntryName name) : (visits files root depth way).reduceOption.Nodup := by
  induction depth generalizing way with
  | zero => exact List.nodup_nil
  | succ depth ih =>
    rw [visits]
    split
    · exact List.nodup_nil
    rename_i entries hlist
    obtain ⟨hdistinct, hentries⟩ := hsound.list_below hway hlist
    rw [List.reduceOption, List.filterMap_flatMap, List.nodup_flatMap]
    constructor
    · rintro ⟨name, node⟩ hmem
      cases node with
      | directory inside =>
        exact ih (List.forall_mem_append.2
          ⟨hway, List.forall_mem_singleton.2 (hentries name _ hmem).1⟩)
      | file content => exact List.nodup_singleton _
    · -- ways into different entries part behind the way to the directory
      have hinto : ∀ (e : String × FileTree.Node) w,
          w ∈ (if e.2.isDirectory then visits files root depth (way ++ [e.1])
            else [some (way ++ [e.1])]).filterMap id → way ++ [e.1] <+: w := by
        intro e w hw
        obtain ⟨x, hx, rfl⟩ := List.mem_filterMap.1 hw
        split at hx
        · exact prefix_of_mem_visits hx
        · cases List.mem_singleton.1 hx
          exact List.prefix_refl _
      refine (List.pairwise_map.1 hdistinct).imp fun {e e'} hne w hw hw' => hne ?_
      have hsame := List.prefix_of_prefix_length_le (hinto e w hw) (hinto e' w hw')
        (by simp)
      have heq := hsame.eq_of_length (by simp)
      exact (List.cons.inj (List.append_cancel_left heq)).1

/-! ## Names -/

/-- The name that a walk gives to a file. -/
def nameOf? (root : Path) (way : List String) : Option ClassName :=
  if isClassFile (way.getLastD "") then (ClassName.ofPathBelow? root (root.below way)).toOption
  else none

/-- Puts the name of a visited file in front of some names. -/
def collectName (root : Path) :
    Option (Path × String) → List (Option ClassName) → List (Option ClassName)
  | none => (none :: ·)
  | some (path, name) =>
    if isClassFile name then ((ClassName.ofPathBelow? root path).toOption :: ·) else id

theorem reduceOption_collectName (root : Path) (way : Option (List String))
    (names : List (Option ClassName)) :
    (collectName root (way.map (pathAndName root)) names).reverse.reduceOption =
      names.reverse.reduceOption ++ (way.bind (nameOf? root)).toList := by
  cases way with
  | none =>
    show (none :: names).reverse.reduceOption = _
    rw [List.reverse_cons, List.reduceOption_append]
    rfl
  | some way =>
    rw [Option.map_some, Option.bind_some, nameOf?, pathAndName, collectName]
    split
    · rw [List.reverse_cons, List.reduceOption_append, List.reduceOption_singleton]
    · exact (List.append_nil _).symm

theorem reduceOption_collectNames (root : Path) (ways : List (Option (List String)))
    (names : List (Option ClassName)) :
    (ways.foldl (fun names way => collectName root (way.map (pathAndName root)) names)
      names).reverse.reduceOption =
        names.reverse.reduceOption ++ ways.reduceOption.filterMap (nameOf? root) := by
  induction ways generalizing names with
  | nil => exact (List.append_nil _).symm
  | cons way ways ih =>
    rw [List.foldl_cons, ih, reduceOption_collectName, List.append_assoc]
    refine congrArg (names.reverse.reduceOption ++ ·) ?_
    cases way with
    | none => rfl
    | some way =>
      rw [Option.bind_some, List.reduceOption_cons_of_some, List.filterMap_cons]
      cases nameOf? root way <;> rfl

/-- The names that a walk lists are those of the files that it visits. -/
theorem names_of_locate {names : List (Option ClassName)} (h : locate files root = .ok names) :
    files.isDirectory root = true ∧ names.reduceOption =
      (visits files root FileTree.maxPathLength []).reduceOption.filterMap (nameOf? root) := by
  unfold locate at h
  obtain ⟨_, hroot, h⟩ := except_bind_eq_ok h
  cases h
  have hwalk : walk (fun _ => files) root (fun name names => name :: names) [] =
      (visits files root FileTree.maxPathLength []).foldl
        (fun names way => collectName root (way.map (pathAndName root)) names) [] :=
    walkBelow_eq_foldl (collectName root) FileTree.maxPathLength [] []
  rw [hwalk]
  exact ⟨checkRoot_eq_ok_iff.1 hroot, reduceOption_collectNames root _ []⟩

/-- The names of the classes below a directory are those of the files that a walk visits. -/
theorem candidates_eq (hroot : files.isDirectory root = true) : candidates files root =
    .ok ((visits files root FileTree.maxPathLength []).reduceOption.filterMap (nameOf? root)) := by
  cases hlocate : locate files root with
  | error e =>
    rw [locate, checkRoot_eq_ok_iff.2 hroot] at hlocate
    cases hlocate
  | ok names =>
    rw [candidates, hlocate]
    exact congrArg Except.ok (names_of_locate hlocate).2

/-- What a walk visits below a directory whose entries are in order. -/
theorem visits_of_kinds {depth : Nat} {way : List String} {es : List (String × Bool)}
    (h : kinds files (root.below way) = some es) (horder : es.Pairwise fun e e' => ¬ e'.1 < e.1) :
    visits files root (depth + 1) way = es.flatMap fun e =>
      if e.2 then visits files root depth (way ++ [e.1]) else [some (way ++ [e.1])] := by
  obtain ⟨entries, hlist, hes⟩ := list_of_kinds h horder
  rw [visits, hlist, ← hes, List.flatMap_map]

/-! ## Located files -/

/-- A class file that a walk found. -/
structure Located where
  /-- The directories on the way to the file. -/
  directories : List String
  /-- The name of the file without the suffix. -/
  stem : String
  /-- The name that the walk gives to the class. -/
  name : ClassName

namespace Located

/-- The way from the root to the file. -/
def way (l : Located) : List String := l.directories ++ [l.stem ++ ClassName.fileSuffix]

/-- The place of the file. -/
def place (l : Located) (files : FileTree) (root : Path) : FileTree.Place :=
  l.way.reverse ++ files.placeOf root

/-- Apart from the suffix no name on the way has a dot in it. -/
def Dotless (l : Located) : Prop := ∀ s ∈ l.directories ++ [l.stem], '.' ∉ s.toList

instance (l : Located) : Decidable l.Dotless :=
  inferInstanceAs (Decidable (∀ s ∈ l.directories ++ [l.stem], '.' ∉ s.toList))

/-- Whoever looks for the class below the root, by the name alone, gets the file,
and whoever writes it overwrites that file and no other. -/
structure Reached (l : Located) (files : FileTree) (root : Path) (content : Bytes) : Prop where
  path : root.join l.name.relativePath = root.below l.way
  loaded : Classpath.loadFrom files root l.name =
    if FileTree.maxPathLength < (root.below l.way).text.utf8ByteSize then
      .error (.io (root.below l.way) .nameTooLong)
    else .ok (some { origin := (root.below l.way).text, content })
  overwritten : ∀ bytes files',
    Output.writeFile (Output.pathFor ⟨root⟩ l.name) bytes files = .ok () files' →
      ∀ place, files'.fileAt? place =
        if place = l.place files root then some bytes else files.fileAt? place

/-- The name joins the names on the way with dots. It leads to the file if and
only if none of them has a dot in it. -/
structure Stands (l : Located) (files : FileTree) (root : Path) : Prop where
  spelled : l.name.chars = Text.join '.' ((l.directories ++ [l.stem]).map String.toList)
  itself : files.placeOf (root.join l.name.relativePath) = l.place files root ↔ l.Dotless
  reached : ∃ content, files.fileAt? (l.place files root) = some content ∧
    (l.Dotless → l.Reached files root content)

end Located

/-- A visited file with its name, if the walk gives it one. -/
def located? (root : Path) (way : List String) : Option Located :=
  (nameOf? root way).map fun name =>
    { directories := way.dropLast
      stem := (ClassName.dropEnding? ClassName.fileSuffix (way.getLastD "")).getD ""
      name }

theorem way_of_located? {way : List String} {l : Located} (hne : way ≠ [])
    (hway : ∀ name ∈ way, Path.IsName name) (h : located? root way = some l) :
    l.way = way ∧
      l.name.chars = Text.join '.' ((l.directories ++ [l.stem]).map String.toList) := by
  obtain ⟨n, hn, rfl⟩ := Option.map_eq_some_iff.1 h
  unfold nameOf? at hn
  split at hn
  · cases hread : ClassName.ofPathBelow? root (root.below way) with
    | error e =>
      rw [hread] at hn
      cases hn
    | ok m =>
      rw [hread] at hn
      cases hn
      obtain ⟨directories, stem, rfl, hchars⟩ := ClassName.ofPathBelow?_below hne hway hread
      refine ⟨?_, ?_⟩
      · simp only [Located.way, List.dropLast_concat, List.getLastD_concat,
          ClassName.dropEnding?_append, Option.getD_some]
      · simp only [List.dropLast_concat, List.getLastD_concat, ClassName.dropEnding?_append,
          Option.getD_some]
        exact hchars
  · cases hn

/-- A file that a walk found stands where its name leads, if no name on the way
has a dot in it, and somewhere else otherwise. -/
theorem stands_of_located? (hroot : files.isDirectory root = true) {l : Located}
    (hway : ∀ name ∈ l.way, IsEntryName name)
    (hspelled : l.name.chars = Text.join '.' ((l.directories ++ [l.stem]).map String.toList))
    {content : Bytes} (hfile : files.fileAt? (l.place files root) = some content) :
    l.Stands files root := by
  have hne : l.way ≠ [] := List.append_ne_nil_of_right_ne_nil _ (List.cons_ne_nil _ _)
  have hnames := ClassName.fileNames_eq_iff hspelled
  have hitself : files.placeOf (root.join l.name.relativePath) = l.place files root ↔
      l.Dotless := by
    rw [FileTree.placeOf_join, Located.place, List.append_left_inj, List.reverse_inj]
    exact hnames
  refine ⟨hspelled, hitself, content, hfile, fun hdotless => ?_⟩
  have hpath : root.join l.name.relativePath = root.below l.way := by
    rw [Path.below_eq_join root hne fun name hname => (hway name hname).toIsName,
      ClassName.relativePath_eq_spelled, hnames.2 hdotless, Located.way]
  have hread := FileTree.read_below hroot hne hway hfile
  refine ⟨hpath, ?_, fun bytes files' hwritten place => ?_⟩
  · unfold Classpath.loadFrom
    dsimp only
    rw [hpath, hread]
    by_cases hlong : FileTree.maxPathLength < (root.below l.way).text.utf8ByteSize
    · rw [if_pos hlong, if_pos hlong]
    · rw [if_neg hlong, if_neg hlong]
  · rw [(Output.writeFile_eq_ok hwritten).2.2 place, Output.pathFor, hitself.2 hdotless]

/-- Every name that a walk lists is that of one class file below the root, and
each file is listed once. The name leads to the file itself, for whoever reads
it from the root and for whoever writes it back there, unless a name on the way
has a dot in it; the other files have distinct names. -/
theorem located_as_itself (hsound : files.Sound) {names : List ClassName}
    (h : candidates files root = .ok names) :
    ∃ found : List Located, names = found.map (·.name) ∧ (found.map (·.way)).Nodup ∧
      (∀ l ∈ found, l.Stands files root) ∧
      ((found.filter (·.Dotless)).map (·.name)).Nodup := by
  cases hlocate : locate files root with
  | error e =>
    rw [candidates, hlocate] at h
    cases h
  | ok listed =>
    rw [candidates, hlocate] at h
    cases h
    obtain ⟨hroot, hlisted⟩ := names_of_locate hlocate
    let ways := (visits files root FileTree.maxPathLength []).reduceOption
    let found := ways.filterMap (located? root)
    have hdistinct : ways.Nodup := nodup_visits hsound (List.forall_mem_nil _)
    have hways : ∀ way ∈ ways, ∀ l, located? root way = some l →
        l.way = way ∧ l.Stands files root := by
      intro way hway l hl
      obtain ⟨⟨hne, hnames⟩, content, hfile⟩ := file_of_mem_visits hsound (List.forall_mem_nil _)
        (List.reduceOption_mem_iff.1 hway)
      obtain ⟨rfl, hspelled⟩ := way_of_located? hne (fun name hname => (hnames name hname).toIsName)
        hl
      exact ⟨rfl, stands_of_located? hroot hnames hspelled hfile⟩
    have hstands : ∀ l ∈ found, l.Stands files root := fun l hl =>
      have ⟨way, hway, hlocated⟩ := List.mem_filterMap.1 hl
      (hways way hway l hlocated).2
    have hnodup : (found.map (·.way)).Nodup := by
      have hvisited : found.map (·.way) = ways.filter fun way => (located? root way).isSome := by
        rw [List.map_filterMap, ← List.filterMap_eq_filter]
        refine List.filterMap_congr fun way hway => ?_
        cases hl : located? root way with
        | none => simp [Option.guard, hl]
        | some l => simp [Option.guard, hl, (hways way hway l hl).1]
      rw [hvisited]
      exact hdistinct.filter _
    refine ⟨found, ?_, hnodup, hstands, ?_⟩
    · rw [List.map_filterMap]
      refine hlisted.trans (List.filterMap_congr fun way hway => ?_)
      rw [located?, Option.map_map]
      exact Option.map_id'.symm
    · -- without dots the name tells the way
      refine List.Nodup.map_on (fun l hl l' hl' hname => ?_) ((List.Nodup.of_map _ hnodup).filter _)
      obtain ⟨hmem, hdotless⟩ := List.mem_filter.1 hl
      obtain ⟨hmem', hdotless'⟩ := List.mem_filter.1 hl'
      have hway := (hstands l hmem).itself.2 (of_decide_eq_true hdotless)
      rw [hname, (hstands l' hmem').itself.2 (of_decide_eq_true hdotless'), Located.place,
        Located.place, List.append_left_inj, List.reverse_inj] at hway
      exact (List.inj_on_of_nodup_map hnodup hmem hmem' hway.symm)

/-- The name `Start`. -/
def startName : ClassName :=
  ⟨"Start", by constructor <;> simp [Text.split, ClassName.isForbidden]⟩

/-- The name `app.Main`. -/
def mainName : ClassName :=
  ⟨"app.Main", by constructor <;> simp [Text.split, ClassName.isForbidden]⟩

/-- The name `lib.util.Tool`. -/
def toolName : ClassName :=
  ⟨"lib.util.Tool", by constructor <;> simp [Text.split, ClassName.isForbidden]⟩

/-- A directory of classes in two packages and in none. -/
def packagedFiles : FileTree :=
  let bytes (n : ClassName) : Bytes :=
    ((Fixture.ofName n).build >>= ClassFile.toBytes).toOption.getD []
  { workingDirectory := ["work"],
    root := [("work", .directory [("classes", .directory [
      ("Start.class", .file (bytes startName)),
      ("app", .directory [("Main.class", .file (bytes mainName))]),
      ("lib", .directory [("util", .directory [("Tool.class", .file (bytes toolName))])])])])] }

/-- What is in the directory. -/
def packagedKinds : List (String × Bool) := [("Start.class", false), ("app", true), ("lib", true)]

theorem packagedFiles_sound : packagedFiles.Sound :=
  FileTree.sound_of_nodes (by decide +kernel) (by decide +kernel)

theorem candidates_packaged :
    candidates packagedFiles ⟨"classes"⟩ = .ok [startName, mainName, toolName] := by
  have hkinds : kinds packagedFiles ((Path.mk "classes").below []) = some packagedKinds := by
    decide +kernel
  have hvisits : visits packagedFiles ⟨"classes"⟩ FileTree.maxPathLength [] = _ :=
    visits_of_kinds hkinds (by decide)
  rw [candidates_eq (by decide +kernel), hvisits]
  decide +kernel

/-- All classes of the packages are located. -/
theorem packaged_located : ∃ found : List Located,
    [startName, mainName, toolName] = found.map (·.name) ∧ (found.map (·.way)).Nodup ∧
      (∀ l ∈ found, l.Stands packagedFiles ⟨"classes"⟩) ∧
      ((found.filter (·.Dotless)).map (·.name)).Nodup :=
  located_as_itself packagedFiles_sound candidates_packaged

/-- A directory of classes with a dot in its name. -/
def dottedFiles : FileTree :=
  { workingDirectory := ["work"],
    root := [("work", .directory
      [("in", .directory [("a.b", .directory [("C.class", .file plainBytes)])])])] }

/-- The name `a.b.C`. -/
def dottedName : ClassName :=
  ⟨"a.b.C", by constructor <;> simp [Text.split, ClassName.isForbidden]⟩

/-- The file gets a name, but whoever looks for the name does not find the
file. -/
theorem dotted_directory_misleads :
    dottedFiles.Sound ∧ candidates dottedFiles ⟨"in"⟩ = .ok [dottedName] ∧
      dottedFiles.read ⟨"in/a.b/C.class"⟩ = .ok plainBytes ∧
      (Path.mk "in").join dottedName.relativePath = ⟨"in/a/b/C.class"⟩ ∧
      dottedFiles.read ⟨"in/a/b/C.class"⟩ = .error .notFound ∧
      Classpath.loadFrom dottedFiles ⟨"in"⟩ dottedName = .ok none := by
  refine ⟨FileTree.sound_of_nodes (by decide +kernel) (by decide +kernel), ?_⟩
  decide +kernel

end ClassStamp.Run
