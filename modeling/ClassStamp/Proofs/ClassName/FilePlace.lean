import ClassStamp.ClassName
import ClassStamp.Proofs.Path.Joining

/-!
# The place of the file of a class

Below a root, the file of a class is where the segments of its name lead, the
last one with the suffix of class files. None of these names is a detour, and
different classes have different ones.

* `steps_join`: the names of the path of the file;
* `placeOf_join`: its place, and `placeOf_join_inj` tells classes apart by it.
-/

namespace ClassStamp

namespace Text

theorem join_append_last (sep : Char) (pieces : List (List Char)) (last ending : List Char) :
    join sep (pieces ++ [last]) ++ ending = join sep (pieces ++ [last ++ ending]) := by
  by_cases hne : pieces = []
  · rw [hne]
    rfl
  · rw [join_concat sep hne, join_concat sep hne, List.append_assoc, List.cons_append]

theorem mem_of_mem_split {sep c : Char} {cs piece : List Char} (h : piece ∈ split sep cs)
    (hc : c ∈ piece) : c ∈ cs := by
  induction cs generalizing piece with
  | nil =>
    rw [split, List.mem_singleton] at h
    rw [h] at hc
    exact hc
  | cons d cs ih =>
    rw [split] at h
    split at h
    · rcases List.mem_cons.1 h with rfl | h
      · cases hc
      · exact List.mem_cons_of_mem d (ih h hc)
    · cases hs : split sep cs with
      | nil => exact absurd hs (split_ne_nil sep cs)
      | cons first rest =>
        rw [hs] at h ih
        rcases List.mem_cons.1 h with rfl | h
        · rcases List.mem_cons.1 hc with rfl | hc
          · exact List.mem_cons_self
          · exact List.mem_cons_of_mem d (ih List.mem_cons_self hc)
        · exact List.mem_cons_of_mem d (ih (List.mem_cons_of_mem first h) hc)

end Text

namespace ClassName

/-- The texts between the dots, with the suffix behind the last one. -/
def filePieces (n : ClassName) : List (List Char) :=
  (Text.split '.' n.chars).dropLast ++
    [(Text.split '.' n.chars).getLast (Text.split_ne_nil '.' n.chars) ++ fileSuffix.toList]

/-- The last text between the dots. -/
def lastPiece (n : ClassName) : List Char :=
  (Text.split '.' n.chars).getLast (Text.split_ne_nil '.' n.chars)

/-- The names of the file of a class below a root: the directories of the
package, then the file. -/
def fileNames (n : ClassName) : List String := n.filePieces.map String.ofList

theorem relativePath_chars (n : ClassName) :
    n.relativePath.text.toList = Text.join '/' n.filePieces := by
  rw [relativePath, filePieces, ← Text.join_append_last, List.dropLast_append_getLast,
    String.toList_append, String.toList_ofList]

/-- A piece of a name is no empty text and holds neither a dot nor a slash. -/
theorem piece_plain {n : ClassName} {piece : List Char} (h : piece ∈ Text.split '.' n.chars) :
    piece ≠ [] ∧ '.' ∉ piece ∧ '/' ∉ piece := by
  refine ⟨fun hnil => n.wellFormed.1 (hnil ▸ h), Text.not_mem_of_mem_split h, fun hslash => ?_⟩
  have hforbidden := n.wellFormed.2 '/' (Text.mem_of_mem_split h hslash)
  cases hforbidden

/-- A name on the way to the file of a class is neither empty nor a detour, and
holds no slash. -/
theorem filePiece_plain {n : ClassName} {piece : List Char} (h : piece ∈ n.filePieces) :
    piece ≠ [] ∧ piece ≠ ['.'] ∧ piece ≠ ['.', '.'] ∧ '/' ∉ piece := by
  rcases List.mem_append.1 h with h | h
  · obtain ⟨hne, hdot, hslash⟩ := piece_plain (List.dropLast_subset _ h)
    refine ⟨hne, ?_, ?_, hslash⟩
    · rintro rfl
      exact hdot List.mem_cons_self
    · rintro rfl
      exact hdot List.mem_cons_self
  · obtain ⟨hne, -, hslash⟩ := piece_plain (List.getLast_mem (Text.split_ne_nil '.' n.chars))
    rw [List.mem_singleton] at h
    have hlen : 6 < piece.length := by
      have hpos := List.length_pos_iff.2 hne
      have hsuffix : fileSuffix.toList.length = 6 := rfl
      rw [h, List.length_append]
      omega
    refine ⟨?_, ?_, ?_, ?_⟩
    · rintro rfl; exact absurd hlen (by decide)
    · rintro rfl; exact absurd hlen (by decide)
    · rintro rfl; exact absurd hlen (by decide)
    · rw [h, List.mem_append, not_or]
      exact ⟨hslash, by decide⟩

theorem filePieces_ne_nil (n : ClassName) : n.filePieces ≠ [] := by
  rw [filePieces]
  exact List.append_ne_nil_of_right_ne_nil _ (List.cons_ne_nil _ _)

theorem fileNames_plain {n : ClassName} {name : String} (h : name ∈ n.fileNames) :
    name ≠ "" ∧ name ≠ "." ∧ name ≠ ".." := by
  obtain ⟨piece, hp, rfl⟩ := List.mem_map.1 h
  obtain ⟨h₁, h₂, h₃, -⟩ := filePiece_plain hp
  refine ⟨fun he => h₁ ?_, fun he => h₂ ?_, fun he => h₃ ?_⟩
  all_goals
    rw [← String.toList_ofList (l := piece), he]
    rfl

/-- Different classes have different files. -/
theorem fileNames_inj {m n : ClassName} (h : m.fileNames = n.fileNames) : m = n := by
  unfold fileNames at h
  have hpieces := List.map_injective_iff.2 (fun _ _ => String.ofList_inj.1) h
  obtain ⟨hfirst, hlast⟩ := List.append_inj' hpieces rfl
  have hlast := List.append_cancel_right (List.cons.inj hlast).1
  have hsplit : Text.split '.' m.chars = Text.split '.' n.chars := by
    rw [← List.dropLast_append_getLast (Text.split_ne_nil '.' m.chars), hfirst, hlast,
      List.dropLast_append_getLast]
  have hchars : m.chars = n.chars := by
    rw [← Text.join_split '.' m.chars, hsplit, Text.join_split]
  cases m
  cases n
  simp only [ClassName.mk.injEq]
  exact String.toList_inj.1 hchars

/-- The names on the way to the file of a class are written as they are. -/
theorem isName_of_mem_fileNames {n : ClassName} {name : String} (h : name ∈ n.fileNames) :
    Path.IsName name := by
  obtain ⟨hne, hdot, hup⟩ := fileNames_plain h
  obtain ⟨piece, hp, rfl⟩ := List.mem_map.1 h
  refine ⟨hne, hdot, hup, ?_⟩
  rw [String.toList_ofList]
  exact (filePiece_plain hp).2.2.2

theorem relativePath_eq_spelled (n : ClassName) : n.relativePath = Path.spelled n.fileNames := by
  apply Path.ext_chars
  rw [relativePath_chars, Path.spelled_chars, fileNames, Text.map_toList_ofList]

theorem relativePath_not_absolute (n : ClassName) : n.relativePath.isAbsolute = false := by
  rw [relativePath_eq_spelled]
  exact Path.isAbsolute_spelled fun _ => isName_of_mem_fileNames

end ClassName

namespace FileTree

open ClassName

theorem steps_relativePath (n : ClassName) : steps n.relativePath = n.fileNames := by
  rw [relativePath_eq_spelled]
  exact Path.steps_spelled fun _ => isName_of_mem_fileNames

/-- The path of the file of a class below a root goes the way of the root, then
that of the class. -/
theorem steps_join (root : Path) (n : ClassName) :
    steps (root.join n.relativePath) = steps root ++ n.fileNames := by
  rw [steps_join_of_relative root n.relativePath_not_absolute, steps_relativePath]

/-- The place of the file of a class below a root. -/
theorem placeOf_join (t : FileTree) (root : Path) (n : ClassName) :
    t.placeOf (root.join n.relativePath) = n.fileNames.reverse ++ t.placeOf root := by
  rw [placeOf_join_of_relative t root n.relativePath_not_absolute, steps_relativePath]
  rw [steps_relativePath]
  exact fun name h => (fileNames_plain h).2

/-- Below one root, different classes have their files at different places. -/
theorem placeOf_join_inj {t : FileTree} {root : Path} {m n : ClassName}
    (h : t.placeOf (root.join m.relativePath) = t.placeOf (root.join n.relativePath)) :
    m = n := by
  rw [placeOf_join, placeOf_join] at h
  exact fileNames_inj (List.reverse_inj.1 (List.append_cancel_right h))

/-- Names without detours lead down to what is there, unless one is too long
for a name. -/
theorem follow_plain {t : FileTree} {names : List String} {place : Place} {node there : Node}
    (hplain : ∀ name ∈ names, name ≠ "." ∧ name ≠ "..") (hnode : t.node? place = some node)
    (hthere : t.node? (names.reverse ++ place) = some there) :
    t.follow names place node = .ok (names.reverse ++ place, there) ∨
      t.follow names place node = .error .nameTooLong ∧
        ∃ name ∈ names, maxNameLength < name.utf8ByteSize := by
  induction names generalizing place node with
  | nil =>
    cases hnode.symm.trans hthere
    exact .inl rfl
  | cons name names ih =>
    obtain ⟨hdot, hup⟩ := hplain name List.mem_cons_self
    rw [List.reverse_cons, List.append_assoc, List.singleton_append] at hthere ⊢
    cases node with
    | file content =>
      rw [node?_append, node?_cons, hnode] at hthere
      cases hthere
    | directory entries =>
      rw [follow, if_neg hdot, if_neg hup]
      split
      · exact .inr ⟨rfl, name, List.mem_cons_self, by assumption⟩
      have hnext : t.node? (name :: place) = entries.lookup name := node?_cons_of_directory hnode
      cases hlookup : entries.lookup name with
      | none =>
        rw [node?_append, hnext, hlookup] at hthere
        cases hthere
      | some next =>
        rw [hlookup] at hnext
        rcases ih (fun name' h => hplain name' (List.mem_cons_of_mem name h)) hnext hthere with
          hthere | ⟨hlong, name', hmem, hsize⟩
        · exact .inl hthere
        · exact .inr ⟨hlong, name', List.mem_cons_of_mem name hmem, hsize⟩

/-- The file of a class below a directory that is there is not overlooked. -/
theorem read_join_ne_notFound {t : FileTree} {root : Path} {n : ClassName} {place : Place}
    {entries : Directory} {content : Bytes} (hroot : t.find root = .ok (place, .directory entries))
    (hfile : t.fileAt? (n.fileNames.reverse ++ place) = some content) :
    t.read (root.join n.relativePath) ≠ .error .notFound := by
  obtain ⟨-, hf, -⟩ := find_eq_ok.1 hroot
  have hnode := (followFrom_place hf).2
  have hfollow : t.followFrom (root.join n.relativePath) (steps (root.join n.relativePath)) =
      t.follow n.fileNames place (.directory entries) := by
    rw [steps_join, followFrom_join_of_relative t root n.relativePath_not_absolute,
      followFrom_append hf]
  intro h
  rcases read_eq_notFound h with hempty | hlost
  · have hnil : steps (root.join n.relativePath) = [] := by
      rw [steps_of_chars (congrArg String.toList hempty)]
      rfl
    rw [steps_join, List.append_eq_nil_iff] at hnil
    exact n.filePieces_ne_nil (List.map_eq_nil_iff.1 hnil.2)
  · rw [hfollow] at hlost
    rcases follow_plain (fun name h => (fileNames_plain h).2) hnode
      (fileAt?_eq_some_iff.1 hfile) with hdown | ⟨hdown, -⟩
    · rw [hdown] at hlost
      cases hlost
    · rw [hdown] at hlost
      cases hlost

end FileTree

end ClassStamp
