import ClassStamp.Proofs.ClassName.FilePlace
import ClassStamp.Proofs.FileTree.Changes
import ClassStamp.Proofs.FileTree.Nodes

/-!
# Sound file trees

In a tree that an operating system shows, the names in a directory are distinct
and every one of them can be a part of a path. What a directory lists is then
found where its name says, and a file is read from the path that its names spell
out below a root.

* `Sound.list_below`: what is listed below a root stands where its way leads;
* `find_below`, `read_below`: finding a directory and reading a file by its way.
-/

namespace ClassStamp.FileTree

/-- A name that a file or directory can have. -/
structure IsEntryName (s : String) : Prop extends Path.IsName s where
  short : s.utf8ByteSize ≤ maxNameLength
  no_nul : '\x00' ∉ s.toList

instance (s : String) : Decidable (IsEntryName s) :=
  decidable_of_iff ((s ≠ "" ∧ s ≠ "." ∧ s ≠ ".." ∧ '/' ∉ s.toList) ∧
      s.utf8ByteSize ≤ maxNameLength ∧ '\x00' ∉ s.toList)
    ⟨fun ⟨⟨h₁, h₂, h₃, h₄⟩, h₅, h₆⟩ => ⟨⟨h₁, h₂, h₃, h₄⟩, h₅, h₆⟩,
      fun h => ⟨⟨h.nonempty, h.not_here, h.not_parent, h.unslashed⟩, h.short, h.no_nul⟩⟩

/-- The names in the directory are distinct, and are names that a file can
have. -/
def Directory.Plain (entries : Directory) : Prop :=
  (entries.map (·.1)).Nodup ∧ ∀ e ∈ entries, IsEntryName e.1

instance (entries : Directory) : Decidable entries.Plain :=
  inferInstanceAs (Decidable (_ ∧ _))

/-- The node is a file, or a directory with distinct and possible names. -/
def Node.Plain : Node → Prop
  | directory entries => Directory.Plain entries
  | file _ => True

instance : (node : Node) → Decidable node.Plain
  | .directory entries => inferInstanceAs (Decidable (Directory.Plain entries))
  | .file _ => inferInstanceAs (Decidable True)

/-- Every directory of the tree has distinct and possible names. -/
def Sound (t : FileTree) : Prop :=
  ∀ place entries, t.node? place = some (.directory entries) → Directory.Plain entries

/-- A tree is sound if its root and all its nodes are. -/
theorem sound_of_nodes {t : FileTree} (hroot : Directory.Plain t.root)
    (h : ∀ x ∈ t.nodes, x.2.Plain) : t.Sound := by
  intro place entries hnode
  by_cases hne : place = []
  · subst hne
    cases hnode
    exact hroot
  · exact h _ (mem_nodes hne hnode)

variable {t : FileTree} {root : Path} {way : List String}

/-- An entry of a directory stands below it. -/
theorem Sound.node?_of_mem (h : t.Sound) {place : Place} {entries : Directory}
    (hdir : t.node? place = some (.directory entries)) {name : String} {node : Node}
    (hmem : (name, node) ∈ entries) : t.node? (name :: place) = some node := by
  obtain ⟨before, after, rfl⟩ := List.append_of_mem hmem
  have hdistinct := (h place _ hdir).1
  rw [List.map_append, List.map_cons, List.nodup_append] at hdistinct
  rw [node?_cons_of_directory hdir, List.lookup_eq_some_iff]
  refine ⟨before, after, rfl, fun e he => ?_⟩
  exact bne_iff_ne.2 fun heq =>
    hdistinct.2.2 e.1 (List.mem_map_of_mem he) name List.mem_cons_self heq.symm

theorem list_eq_ok {p : Path} {entries : Directory} (h : t.list p = .ok entries) :
    ∃ inside, t.node? (t.placeOf p) = some (.directory inside) ∧ entries.Perm inside := by
  unfold list at h
  cases hf : t.find p with
  | error e =>
    rw [hf] at h
    cases h
  | ok found =>
    obtain ⟨place, node⟩ := found
    obtain ⟨rfl, hnode⟩ := find_place hf
    rw [hf] at h
    cases node with
    | file content => cases h
    | directory inside =>
      cases h
      exact ⟨inside, hnode, List.mergeSort_perm _ _⟩

/-- What can be listed has no path that is too long. -/
theorem short_of_list {p : Path} {entries : Directory} (h : t.list p = .ok entries) :
    p.text.utf8ByteSize ≤ maxPathLength := by
  cases hfind : t.find p with
  | error e =>
    rw [list, hfind] at h
    cases h
  | ok found =>
  have hcheck := (find_eq_ok.1 hfind).1
  by_contra hlong
  unfold checkPath at hcheck
  split at hcheck
  · cases hcheck
  split at hcheck
  · cases hcheck
  rw [if_pos (Nat.lt_of_not_le hlong)] at hcheck
  cases hcheck

/-- The place that a way below a root leads to. -/
theorem placeOf_below (t : FileTree) (root : Path) (hway : ∀ name ∈ way, Path.IsName name) :
    t.placeOf (root.below way) = way.reverse ++ t.placeOf root := by
  by_cases hne : way = []
  · subst hne
    rfl
  · have hsteps := Path.steps_spelled hway
    rw [Path.below_eq_join root hne hway,
      placeOf_join_of_relative t root (Path.isAbsolute_spelled hway), hsteps]
    rw [hsteps]
    exact fun name hname => ⟨(hway name hname).not_here, (hway name hname).not_parent⟩

/-- What is listed below a root has distinct names and stands where its way
leads. -/
theorem Sound.list_below (h : t.Sound) (hway : ∀ name ∈ way, IsEntryName name)
    {entries : Directory} (hlist : t.list (root.below way) = .ok entries) :
    (entries.map (·.1)).Nodup ∧ ∀ name node, (name, node) ∈ entries →
      IsEntryName name ∧ t.node? ((way ++ [name]).reverse ++ t.placeOf root) = some node := by
  obtain ⟨inside, hnode, hperm⟩ := list_eq_ok hlist
  rw [placeOf_below t root fun name hname => (hway name hname).toIsName] at hnode
  refine ⟨(hperm.map _).nodup_iff.2 ((h _ _ hnode).1), fun name node hmem => ?_⟩
  have hmem := hperm.mem_iff.1 hmem
  refine ⟨(h _ _ hnode).2 _ hmem, ?_⟩
  rw [List.reverse_concat, List.cons_append]
  exact h.node?_of_mem hnode hmem

/-- A file below a directory that is there is found by its way, if the path can
be followed at all. -/
theorem followFrom_below (hroot : t.isDirectory root = true) (hne : way ≠ [])
    (hway : ∀ name ∈ way, IsEntryName name) {node : Node}
    (hnode : t.node? (way.reverse ++ t.placeOf root) = some node) :
    t.followFrom (root.below way) (steps (root.below way)) =
      .ok (way.reverse ++ t.placeOf root, node) := by
  have hnames := fun name hname => (hway name hname).toIsName
  have hrelative := Path.isAbsolute_spelled hnames
  obtain ⟨place, entries, hfind⟩ := isDirectory_iff.1 hroot
  obtain ⟨rfl, hdir⟩ := find_place hfind
  rw [Path.below_eq_join root hne hnames, steps_join_of_relative root hrelative,
    followFrom_join_of_relative t root hrelative, Path.steps_spelled hnames,
    followFrom_append (find_eq_ok.1 hfind).2.1]
  refine (follow_plain (fun name hname => ?_) hdir hnode).resolve_right
    fun ⟨_, name, hname, hlong⟩ => ?_
  · exact ⟨(hnames name hname).not_here, (hnames name hname).not_parent⟩
  · exact absurd hlong (Nat.not_lt.2 (hway name hname).short)

/-- The path of a file below a directory that is there can be followed, unless it
is too long. -/
theorem checkPath_below (hroot : t.isDirectory root = true) (hne : way ≠ [])
    (hway : ∀ name ∈ way, IsEntryName name) :
    checkPath (root.below way) =
      if maxPathLength < (root.below way).text.utf8ByteSize then .error .nameTooLong
      else .ok () := by
  have hnames := fun name hname => (hway name hname).toIsName
  have hchars : (root.below way).text.toList =
      root.text.toList ++ (root.gap ++ (Path.spelled way).text.toList) := by
    rw [Path.below_eq_join root hne hnames, Path.join_chars root (Path.isAbsolute_spelled hnames)]
  have hnul : '\x00' ∉ (root.below way).text.toList := by
    rw [hchars, List.mem_append, List.mem_append, not_or, not_or]
    refine ⟨fun hmem => ?_, fun hmem => ?_, fun hmem => ?_⟩
    · obtain ⟨place, entries, hfind⟩ := isDirectory_iff.1 hroot
      have hcheck := (find_eq_ok.1 hfind).1
      rw [checkPath, List.contains_iff_mem.2 hmem] at hcheck
      cases hcheck
    · rw [Path.gap] at hmem
      split at hmem <;> simp at hmem
    · rw [Path.spelled_chars] at hmem
      rcases Text.mem_join hmem with hslash | ⟨piece, hpiece, hmem⟩
      · cases hslash
      · obtain ⟨name, hname, rfl⟩ := List.mem_map.1 hpiece
        exact (hway name hname).no_nul hmem
  have hempty : (root.below way).text ≠ "" := fun he => by
    rw [he] at hchars
    have hnil := List.append_eq_nil_iff.1 (List.append_eq_nil_iff.1 hchars.symm).2
    exact (Path.gap_spelled hne hnames).1 (String.toList_inj.1 hnil.2)
  rw [checkPath, if_neg (fun h => hnul (List.contains_iff_mem.1 h)), if_neg hempty]

/-- A directory below one that is there is found by its way, unless the path is too
long. -/
theorem find_below (hroot : t.isDirectory root = true) (hway : ∀ name ∈ way, IsEntryName name)
    (hshort : (root.below way).text.utf8ByteSize ≤ maxPathLength) {entries : Directory}
    (hnode : t.node? (way.reverse ++ t.placeOf root) = some (.directory entries)) :
    t.find (root.below way) = .ok (way.reverse ++ t.placeOf root, .directory entries) := by
  by_cases hne : way = []
  · subst hne
    obtain ⟨place, entries', hfind⟩ := isDirectory_iff.1 hroot
    obtain ⟨rfl, hnode'⟩ := find_place hfind
    cases hnode.symm.trans hnode'
    exact hfind
  · refine find_eq_ok.2 ⟨?_, followFrom_below hroot hne hway hnode, fun _ => rfl⟩
    rw [checkPath_below hroot hne hway, if_neg (Nat.not_lt.2 hshort)]

/-- A file below a directory that is there is read by its way, unless the path is
too long. -/
theorem read_below (hroot : t.isDirectory root = true) (hne : way ≠ [])
    (hway : ∀ name ∈ way, IsEntryName name) {content : Bytes}
    (hfile : t.fileAt? (way.reverse ++ t.placeOf root) = some content) :
    t.read (root.below way) =
      if maxPathLength < (root.below way).text.utf8ByteSize then .error .nameTooLong
      else .ok content := by
  have hslash : endsInSlash (root.below way) = false := by
    obtain ⟨names, name, rfl⟩ := way.eq_nil_or_concat'.resolve_left hne
    have hname := (hway name (List.mem_append_right _ List.mem_cons_self)).toIsName
    have hfull : (Path.spelled (names ++ [name])).text.toList ≠ [] := fun he =>
      (Path.gap_spelled hne fun s hs => (hway s hs).toIsName).1 (String.toList_inj.1 he)
    rw [endsInSlash, Path.below_eq_join root hne fun s hs => (hway s hs).toIsName,
      Path.join_chars root (Path.isAbsolute_spelled fun s hs => (hway s hs).toIsName),
      ← List.append_assoc, List.getLast?_append_of_ne_nil _ hfull,
      Path.getLast?_spelled hname.nonempty]
    refine beq_false_of_ne fun hend => hname.unslashed (List.mem_of_getLast? hend)
  have hnode := followFrom_below hroot hne hway (fileAt?_eq_some_iff.1 hfile)
  rw [read, find, checkPath_below hroot hne hway, hnode]
  by_cases hlong : maxPathLength < (root.below way).text.utf8ByteSize
  · rw [if_pos hlong, if_pos hlong]
    rfl
  · rw [if_neg hlong, if_neg hlong]
    simp only [bind, Except.bind, hslash, Bool.false_and, Bool.false_eq_true, if_false]

end ClassStamp.FileTree
