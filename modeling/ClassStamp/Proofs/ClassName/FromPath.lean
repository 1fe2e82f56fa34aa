import ClassStamp.Proofs.ClassName.FilePlace

/-!
# Names read off paths

The name that is read off the path of a file joins the names on the way with
dots, without the suffix. It leads back to the file only if none of them has a
dot in it.

* `ofPathBelow?_below`: the name read off a way below a root;
* `fileNames_eq_iff`: when the name leads the same way.
-/

namespace ClassStamp

namespace Path

theorem components_spelled {names : List String} (hne : names ≠ [])
    (h : ∀ name ∈ names, IsName name) : (spelled names).components = names.map .name := by
  rw [components, pieces_spelled hne h, List.filterMap_map]
  exact congrFun List.filterMap_eq_map names

end Path

namespace ClassName

theorem namesOfComponents?_names (names : List String) :
    namesOfComponents? (names.map .name) = some names := by
  induction names with
  | nil => rfl
  | cons name names ih => rw [List.map_cons, namesOfComponents?, ih, Option.map_some]

theorem dropEnding?_eq_some {ending s stem : String} (h : dropEnding? ending s = some stem) :
    s = stem ++ ending := by
  unfold dropEnding? at h
  split at h
  · rename_i hsuffix
    cases h
    apply String.toList_inj.1
    rw [String.toList_append, String.toList_ofList]
    exact List.suffix_iff_eq_append.1 (List.isSuffixOf_iff_suffix.1 hsuffix) |>.symm
  · cases h

theorem dropEnding?_append (stem ending : String) :
    dropEnding? ending (stem ++ ending) = some stem := by
  rw [dropEnding?, if_pos]
  · rw [String.toList_append, List.length_append, Nat.add_sub_cancel, List.take_left,
      String.ofList_toList]
  · rw [List.isSuffixOf_iff_suffix, String.toList_append]
    exact List.suffix_append _ _

theorem text_of_ofString? {s : String} {n : ClassName} (h : ofString? s = .ok n) : n.text = s := by
  unfold ofString? at h
  split at h
  · cases h
  split at h
  · cases h
  split at h <;> cases h
  rfl

/-- The name read off a way below a root. -/
theorem ofPathBelow?_below {root : Path} {way : List String} (hne : way ≠ [])
    (hway : ∀ name ∈ way, Path.IsName name) {n : ClassName}
    (h : ofPathBelow? root (root.below way) = .ok n) :
    ∃ directories stem, way = directories ++ [stem ++ fileSuffix] ∧
      n.chars = Text.join '.' ((directories ++ [stem]).map String.toList) := by
  rw [ofPathBelow?, Path.below_eq_join root hne hway, Path.stripRoot?_join root hne hway] at h
  dsimp only at h
  rw [ofRelativePath?, Path.components_spelled hne hway, namesOfComponents?_names] at h
  dsimp only at h
  split at h
  · cases h
  rename_i last hlast
  split at h
  · cases h
  rename_i stem hstem
  obtain ⟨directories, rfl⟩ := List.getLast?_eq_some_iff.1 hlast
  rw [List.dropLast_concat] at h
  refine ⟨directories, stem, by rw [dropEnding?_eq_some hstem], ?_⟩
  rw [chars, text_of_ofString? h, String.toList_ofList]

/-- The name that joins some texts with dots leads the way of these texts if and
only if none of them has a dot in it. -/
theorem fileNames_eq_iff {n : ClassName} {directories : List String} {stem : String}
    (h : n.chars = Text.join '.' ((directories ++ [stem]).map String.toList)) :
    n.fileNames = directories ++ [stem ++ fileSuffix] ↔
      ∀ s ∈ directories ++ [stem], '.' ∉ s.toList := by
  let texts := directories.map String.toList
  have htexts : (directories ++ [stem]).map String.toList = texts ++ [stem.toList] :=
    List.map_append
  have hback : texts.map String.ofList = directories := Text.map_ofList_toList directories
  rw [htexts] at h
  constructor
  · intro hnames s hs
    have hpieces : n.filePieces = texts ++ [stem.toList ++ fileSuffix.toList] := by
      rw [← Text.map_toList_ofList n.filePieces, ← fileNames, hnames, List.map_append,
        List.map_singleton, String.toList_append]
    obtain ⟨hfirst, hlast⟩ := List.append_inj' hpieces rfl
    have hlast := List.append_cancel_right (List.cons.inj hlast).1
    have hmem : s.toList ∈ Text.split '.' n.chars := by
      rw [← List.dropLast_append_getLast (Text.split_ne_nil '.' n.chars), hfirst, hlast, ← htexts]
      exact List.mem_map_of_mem hs
    exact Text.not_mem_of_mem_split hmem
  · intro hdotless
    have hsplit : Text.split '.' n.chars = texts ++ [stem.toList] := by
      rw [h, Text.split_join (by simp)]
      intro piece hp
      rw [← htexts] at hp
      obtain ⟨s, hs, rfl⟩ := List.mem_map.1 hp
      exact hdotless s hs
    rw [fileNames, filePieces]
    simp only [hsplit, List.dropLast_concat, List.getLast_append_singleton, List.map_append,
      List.map_singleton, hback]
    rw [← String.toList_append, String.ofList_toList]

end ClassName

end ClassStamp
