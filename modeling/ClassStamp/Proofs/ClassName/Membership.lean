import ClassStamp.Proofs.Artifact.Operations
import ClassStamp.Proofs.ClassName.FilePlace

/-!
# Classes directly inside another one

Whether a class is a direct member of another one is told by the texts of the names: that
of the member goes on behind that of the outer class with a separator and a text that has
none (`isImmediateMemberOf_iff`). A member comes after its outer class in one way only.

The text may have a dot in it, and then the member is in another package, under a simple
name that has nothing to do with that of the outer class. The direct members that go by a
nested name are those one level inside (`isOneLevelInside_iff`), and those whose files
are in the directory of the outer class (`directory_eq_iff`).

* `membership`: all this, and what it means for the artifacts that hold others;
* `stray_member`: a direct member that is in another package.
-/

namespace ClassStamp

namespace Text

theorem length_split (sep : Char) (cs : List Char) :
    (split sep cs).length = cs.count sep + 1 := by
  induction cs with
  | nil => rfl
  | cons c cs ih =>
    rw [split, List.count_cons]
    by_cases hc : c = sep
    · rw [if_pos hc, List.length_cons, ih, if_pos (beq_iff_eq.2 hc)]
    · rw [if_neg hc, if_neg (fun h => hc (beq_iff_eq.1 h))]
      cases hs : split sep cs with
      | nil => exact absurd hs (split_ne_nil sep cs)
      | cons piece pieces => rw [← ih, hs, List.length_cons, List.length_cons, Nat.add_zero]

/-- A text without the separator goes on with the last piece. -/
theorem split_append_plain {sep : Char} (cs : List Char) {ds : List Char} (h : sep ∉ ds) :
    split sep (cs ++ ds) = (split sep cs).dropLast ++
      [(split sep cs).getLast (split_ne_nil sep cs) ++ ds] := by
  have hjoin := join_append_last sep (split sep cs).dropLast
    ((split sep cs).getLast (split_ne_nil sep cs)) ds
  rw [List.dropLast_append_getLast, join_split] at hjoin
  rw [hjoin, split_join (List.append_ne_nil_of_right_ne_nil _ (List.cons_ne_nil _ _))]
  intro piece hp
  rcases List.mem_append.1 hp with hp | hp
  · exact not_mem_of_mem_split (List.dropLast_subset _ hp)
  · rw [List.mem_singleton.1 hp, List.mem_append, not_or]
    exact ⟨not_mem_of_mem_split (List.getLast_mem _), h⟩

/-- A text is cut at its last separator in one way only. -/
theorem append_cons_cancel {sep : Char} {as bs cs ds : List Char} (hcs : sep ∉ cs)
    (hds : sep ∉ ds) (h : as ++ sep :: cs = bs ++ sep :: ds) : as = bs := by
  rcases List.append_eq_append_iff.1 h with ⟨between, hbs, hcut⟩ | ⟨between, has, hcut⟩
  · cases between with
    | nil => rw [hbs, List.append_nil]
    | cons c between => exact absurd (by simp [(List.cons.inj hcut).2]) hcs
  · cases between with
    | nil => rw [has, List.append_nil]
    | cons c between => exact absurd (by simp [(List.cons.inj hcut).2]) hds

end Text

namespace ClassName

variable {m n outer : ClassName} {member : List Char}

/-! ## The text of a member -/

/-- The name of the class is that of `outer`, a separator, and a text that is not empty and
has no separator. -/
def Extends (n outer : ClassName) (member : List Char) : Prop :=
  member ≠ [] ∧ nestedSeparator ∉ member ∧ n.chars = outer.chars ++ nestedSeparator :: member

theorem isImmediateMemberOf_iff :
    n.isImmediateMemberOf outer = true ↔ ∃ member, n.Extends outer member := by
  unfold isImmediateMemberOf
  rw [Bool.and_eq_true, List.isPrefixOf_iff_prefix]
  constructor
  · rintro ⟨⟨rest, hrest⟩, h⟩
    rw [← hrest, List.drop_left] at h
    cases rest with
    | nil => cases h
    | cons c member =>
      simp only [Bool.and_eq_true, beq_iff_eq, Bool.not_eq_true', List.isEmpty_eq_false_iff] at h
      obtain ⟨⟨rfl, hne⟩, hplain⟩ := h
      refine ⟨member, hne, fun hmem => ?_, hrest.symm⟩
      rw [List.contains_iff_mem.2 hmem] at hplain
      cases hplain
  · rintro ⟨member, hne, hplain, hchars⟩
    refine ⟨⟨_, hchars.symm⟩, ?_⟩
    rw [hchars, List.drop_left]
    simp [hne, hplain]

/-- A class goes on in this way behind one outer class at most. -/
theorem Extends.unique {outer' : ClassName} {member' : List Char} (h : n.Extends outer member)
    (h' : n.Extends outer' member') : outer = outer' := by
  have htext := Text.append_cons_cancel h.2.1 h'.2.1 (h.2.2.symm.trans h'.2.2)
  cases outer
  cases outer'
  simp only [ClassName.mk.injEq]
  exact String.toList_inj.1 htext

/-! ## Packages and simple names -/

theorem toList_simpleName (n : ClassName) : n.simpleName.toList = n.lastPiece := by
  rw [simpleName, segments, List.getLastD_eq_getLast?, List.getLast?_map,
    List.getLast?_eq_some_getLast (Text.split_ne_nil '.' n.chars)]
  exact String.toList_ofList

/-- The package tells the texts before the last dot, and the other way round. -/
theorem package?_eq_iff : m.package? = n.package? ↔
    (Text.split '.' m.chars).dropLast = (Text.split '.' n.chars).dropLast := by
  have hback : ∀ {k : ClassName} {first : List Char} {rest : List (List Char)},
      (Text.split '.' k.chars).dropLast = first :: rest →
        Text.split '.' (Text.join '.' (first :: rest)) = first :: rest := by
    intro k first rest hk
    refine Text.split_join (List.cons_ne_nil _ _) fun piece hp => ?_
    rw [← hk] at hp
    exact Text.not_mem_of_mem_split (List.dropLast_subset _ hp)
  refine ⟨fun h => ?_, fun h => by rw [package?, package?, h]⟩
  rw [package?, package?] at h
  cases hm : (Text.split '.' m.chars).dropLast with
  | nil =>
    cases hn : (Text.split '.' n.chars).dropLast with
    | nil => rfl
    | cons first rest => rw [hm, hn] at h; cases h
  | cons first rest =>
    cases hn : (Text.split '.' n.chars).dropLast with
    | nil => rw [hm, hn] at h; cases h
    | cons first' rest' =>
      rw [hm, hn] at h
      have htext := String.ofList_inj.1 (Option.some.inj h)
      rw [← hback hm, htext, hback hn]

/-- A name without dots behind that of the outer class stays in its package. -/
theorem Extends.split_plain (h : n.Extends outer member) (hdot : '.' ∉ member) :
    Text.split '.' n.chars = (Text.split '.' outer.chars).dropLast ++
      [outer.lastPiece ++ nestedSeparator :: member] := by
  rw [h.2.2, lastPiece]
  refine Text.split_append_plain _ fun hmem => ?_
  rcases List.mem_cons.1 hmem with hsep | hmem
  · cases hsep
  · exact hdot hmem

/-- A member whose package has as many texts as that of the outer class has no dot behind
it. -/
theorem Extends.dotless (h : n.Extends outer member)
    (hpackage : (Text.split '.' n.chars).dropLast = (Text.split '.' outer.chars).dropLast) :
    '.' ∉ member := by
  have hlength := congrArg List.length hpackage
  rw [List.length_dropLast, List.length_dropLast, Text.length_split, Text.length_split, h.2.2,
    List.count_append, List.count_cons_of_ne (by decide)] at hlength
  exact List.count_eq_zero.1 (by omega)

theorem Extends.isNested_iff (h : n.Extends outer member) :
    n.isNested = true ↔ '.' ∉ member := by
  rw [isNested, toList_simpleName, List.contains_iff_mem]
  constructor
  · intro hsep hdot
    -- The simple name is then behind the last dot, where there is no separator.
    obtain ⟨before, behind, rfl⟩ := List.append_of_mem hdot
    have hsplit : Text.split '.' n.chars =
        Text.split '.' (outer.chars ++ nestedSeparator :: before) ++ Text.split '.' behind := by
      rw [h.2.2, ← Text.split_append_cons, List.append_assoc, List.cons_append]
    simp only [lastPiece, hsplit, List.getLast_append_of_ne_nil _ (Text.split_ne_nil '.' behind)]
      at hsep
    refine h.2.1 (List.mem_append_right _ (List.mem_cons_of_mem _ ?_))
    exact Text.mem_of_mem_split (List.getLast_mem (Text.split_ne_nil '.' behind)) hsep
  · intro hdot
    simp only [lastPiece, h.split_plain hdot, List.getLast_concat]
    exact List.mem_append_right _ List.mem_cons_self

/-! ## One level inside -/

/-- The class is one level inside `outer`: in the same package, and under the simple name of
`outer`, a separator, and a text that is not empty and has no separator. -/
def IsOneLevelInside (n outer : ClassName) : Prop :=
  n.package? = outer.package? ∧ ∃ member : List Char, member ≠ [] ∧ nestedSeparator ∉ member ∧
    n.simpleName.toList = outer.simpleName.toList ++ nestedSeparator :: member

theorem isOneLevelInside_iff :
    n.IsOneLevelInside outer ↔ n.isImmediateMemberOf outer = true ∧ n.isNested = true := by
  rw [isImmediateMemberOf_iff]
  constructor
  · rintro ⟨hpackage, member, hne, hplain, hname⟩
    rw [toList_simpleName, toList_simpleName] at hname
    have hchars : n.chars = outer.chars ++ nestedSeparator :: member := by
      rw [← Text.join_split '.' n.chars,
        ← List.dropLast_append_getLast (Text.split_ne_nil '.' n.chars), ← lastPiece, hname,
        package?_eq_iff.1 hpackage, ← Text.join_append_last, lastPiece,
        List.dropLast_append_getLast, Text.join_split]
    have hmember : n.Extends outer member := ⟨hne, hplain, hchars⟩
    exact ⟨⟨member, hmember⟩, hmember.isNested_iff.2 (hmember.dotless (package?_eq_iff.1 hpackage))⟩
  · rintro ⟨⟨member, h⟩, hnested⟩
    have hsplit := h.split_plain (h.isNested_iff.1 hnested)
    refine ⟨package?_eq_iff.2 (by rw [hsplit, List.dropLast_concat]), member, h.1, h.2.1, ?_⟩
    rw [toList_simpleName, toList_simpleName]
    simp only [lastPiece, hsplit, List.getLast_concat]

/-! ## Where the file is -/

/-- The place of the directory that the class is written to. -/
def directory (output : Output) (files : FileTree) (n : ClassName) : FileTree.Place :=
  (files.placeOf (output.pathFor n)).tail

theorem directory_eq (output : Output) (files : FileTree) (n : ClassName) :
    directory output files n =
      ((Text.split '.' n.chars).dropLast.map String.ofList).reverse ++
        files.placeOf output.root := by
  rw [directory, Output.pathFor, FileTree.placeOf_join, fileNames, filePieces, List.map_append,
    List.reverse_append]
  rfl

/-- A direct member is written to the directory of the outer class if it goes by a nested
name, and else to another one. -/
theorem directory_eq_iff (h : n.Extends outer member) (output : Output) (files : FileTree) :
    directory output files n = directory output files outer ↔ n.isNested = true := by
  rw [h.isNested_iff, directory_eq, directory_eq]
  constructor
  · intro heq
    have hnames := List.reverse_injective (List.append_cancel_right heq)
    exact h.dotless (List.map_injective_iff.2 (fun _ _ => String.ofList_inj.1) hnames)
  · intro hdot
    rw [h.split_plain hdot, List.dropLast_concat]

/-! ## Membership -/

/-- What direct membership is. It is going on with a separator and a text without one, it
comes with one outer class at most, and never with the class itself. It is being one level
inside for the classes with a nested name, and only for those. A class that an artifact has
taken in, whatever operations led there, is a direct member, and it is written to the
directory of the artifact it is held with if and only if its name is a nested one. -/
theorem membership (inner own : ClassFile.Allowance) :
    (∀ n outer : ClassName,
      n.isImmediateMemberOf outer = true ↔ ∃ member, n.Extends outer member) ∧
    (∀ n outer : ClassName,
      n.IsOneLevelInside outer ↔ n.isImmediateMemberOf outer = true ∧ n.isNested = true) ∧
    (∀ n outer outer' : ClassName, n.isImmediateMemberOf outer = true →
      n.isImmediateMemberOf outer' = true → outer = outer') ∧
    (∀ n : ClassName, n.isImmediateMemberOf n = false) ∧
    ∀ a x, Artifact.Reached inner own a → a.Includes x → ∀ m ∈ x.nested,
      m.name.isImmediateMemberOf x.name = true ∧
      ∀ output files, directory output files m.name = directory output files x.name ↔
        m.name.isNested = true := by
  refine ⟨fun _ _ => isImmediateMemberOf_iff, fun _ _ => isOneLevelInside_iff, ?_, ?_, ?_⟩
  · intro n outer outer' h h'
    obtain ⟨member, h⟩ := isImmediateMemberOf_iff.1 h
    obtain ⟨member', h'⟩ := isImmediateMemberOf_iff.1 h'
    exact h.unique h'
  · intro n
    exact Bool.eq_false_iff.2 fun h => isImmediateMemberOf_ne h rfl
  · intro a x hreached hx m hm
    have horder : x.InOrder := by
      rcases hreached.includes hx with rfl | hinside
      · exact hreached.sound.order
      · exact hinside.sound.order
    have hmember := horder.members m hm
    obtain ⟨member, hextends⟩ := isImmediateMemberOf_iff.1 hmember
    exact ⟨hmember, directory_eq_iff hextends⟩

/-! ## A member in another package -/

/-- The name `a.B`. -/
def hostName : ClassName :=
  ⟨"a.B", by constructor <;> simp [Text.split, isForbidden]⟩

/-- The name `a.B$c.D`. -/
def strayName : ClassName :=
  ⟨"a.B$c.D", by constructor <;> simp [Text.split, isForbidden]⟩

/-- `a.B$c.D` counts as a direct member of `a.B`, in the package `a.B$c` and under the simple
name `D`. -/
theorem stray_member :
    ¬(strayName.isImmediateMemberOf hostName = true ↔ strayName.IsOneLevelInside hostName) ∧
      strayName.package? = some "a.B$c" ∧ strayName.simpleName = "D" ∧
      hostName.package? = some "a" ∧ strayName.isNested = false := by
  have hnested : strayName.isNested = false := by decide +kernel
  refine ⟨fun h => ?_, by decide +kernel, by decide +kernel, by decide +kernel, hnested⟩
  have hinside := (isOneLevelInside_iff.1 (h.1 (by decide +kernel))).2
  rw [hnested] at hinside
  cases hinside

/-- An artifact of `a.B` takes in `a.B$c.D`, which is then written to another directory. -/
theorem stray_taken_in : ∃ a, Artifact.Reached ClassFile.ByChanges ClassFile.ByChanges a ∧
    a.name = hostName ∧ a.nested.map (·.name) = [strayName] ∧
    ∀ output files, directory output files strayName ≠ directory output files hostName := by
  have hhost := Artifact.made_bare hostName (by decide +kernel)
  have hstray := Artifact.made_bare strayName (by decide +kernel)
  let a := leaves (Artifact.attachNested (Artifact.bare strayName)) (Artifact.bare hostName)
  have hreached : Artifact.Reached ClassFile.ByChanges ClassFile.ByChanges a :=
    ⟨_, hhost, .attachNested hstray (.refl _) (.refl _)⟩
  have hheld : a.nested = [Artifact.bare strayName] := by
    simp only [a, leaves_of_ok (Artifact.attachNested_new (a := Artifact.bare hostName)
      (m := Artifact.bare strayName) (by decide +kernel) List.not_mem_nil)]
    rfl
  obtain ⟨-, -, -, -, hdirectory⟩ := membership ClassFile.ByChanges ClassFile.ByChanges
  obtain ⟨-, hiff⟩ := hdirectory a a hreached (.self a) (Artifact.bare strayName)
    (by rw [hheld]; exact List.mem_singleton_self _)
  refine ⟨a, hreached, by decide +kernel, by rw [hheld]; rfl, fun output files heq => ?_⟩
  have hnested := (hiff output files).1 heq
  revert hnested
  decide +kernel

end ClassName

end ClassStamp
