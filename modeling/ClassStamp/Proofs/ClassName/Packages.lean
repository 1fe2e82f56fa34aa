import ClassStamp.Classpath.Entry
import ClassStamp.Proofs.Path.Joining
import ClassStamp.Transformer.MarkerField

/-!
# Packages by segments

Whether a class is in a package is told by the characters of the two texts, and comes to a
comparison of segments: those of the package are the first ones of the class, and not all of
them. So it is a matter of the package of the class only, what is in a package is in it with
all that is below, and no class is in the package that has its own name.

* `Text.concat_prefix_iff`: a text and a separator behind it, against the pieces;
* `isInPackage_iff`: a class in a package, and `isInPackage_iff_dropLast`: by its own package;
* `bare_text`: a name is the package of that name, which the class is not in;
* `packages_by_segments`: this, and the classes of the platform and the scope of a marker
  field.
-/

namespace ClassStamp

namespace Text

/-- A text begins with another one and a separator exactly if the pieces of the other one are
its first ones, and not all of them. -/
theorem concat_prefix_iff {sep : Char} {cs ds : List Char} :
    cs ++ [sep] <+: ds ↔ split sep cs <+: split sep ds ∧ split sep cs ≠ split sep ds := by
  constructor
  · rintro ⟨rest, rfl⟩
    rw [List.append_assoc, List.singleton_append, split_append_cons]
    refine ⟨List.prefix_append _ _, fun h => split_ne_nil sep rest ?_⟩
    exact List.append_right_eq_self.1 h.symm
  · rintro ⟨⟨more, hmore⟩, hne⟩
    have hsome : more ≠ [] := fun h => hne (by rw [← hmore, h, List.append_nil])
    refine ⟨join sep more, ?_⟩
    rw [List.append_assoc, List.singleton_append, ← join_split sep ds, ← hmore,
      join_append (split_ne_nil sep cs) hsome, join_split]

end Text

namespace ClassName

variable {n k : ClassName} {package : String}

/-! ## Packages and their segments -/

/-- The package without the dots at its end. -/
def bare (package : String) : List Char := Text.trimEnd (· == '.') package.toList

/-- The texts between the dots of a package, apart from those at its end. -/
def packageSegments (package : String) : List String :=
  (Text.split '.' (bare package)).map String.ofList

/-- The segments are the first ones of the others, and not all of them. -/
def ProperPrefix (xs ys : List String) : Prop := xs <+: ys ∧ xs ≠ ys

theorem properPrefix_map_iff {xs ys : List (List Char)} :
    ProperPrefix (xs.map String.ofList) (ys.map String.ofList) ↔ xs <+: ys ∧ xs ≠ ys := by
  have hinj : Function.Injective String.ofList := fun _ _ => String.ofList_inj.1
  exact and_congr (List.prefix_map_iff_of_injective hinj) (List.map_injective_iff.2 hinj).ne_iff

/-- Being a proper prefix is being a prefix of all but the last. -/
theorem properPrefix_iff_dropLast {xs ys : List String} (hys : ys ≠ []) :
    ProperPrefix xs ys ↔ xs <+: ys.dropLast := by
  rw [ProperPrefix]
  conv_lhs => rw [← List.dropLast_append_getLast hys, List.prefix_concat_iff]
  constructor
  · rintro ⟨hall | hrest, hne⟩
    · exact absurd hall hne
    · exact hrest
  · intro hrest
    refine ⟨.inr hrest, fun hall => ?_⟩
    have hle := hrest.length_le
    rw [hall, List.length_append, List.length_singleton] at hle
    omega

theorem segments_ne_nil (n : ClassName) : n.segments ≠ [] :=
  fun h => Text.split_ne_nil '.' n.chars (List.map_eq_nil_iff.1 h)

/-! ## Classes in a package -/

theorem covers_iff {cs : List Char} :
    covers package cs = true ↔ bare package = [] ∨ bare package ++ ['.'] <+: cs := by
  change ((bare package).isEmpty || ((bare package).isPrefixOf cs &&
    (cs.drop (bare package).length).head? == some '.')) = true ↔ _
  rw [Bool.or_eq_true, List.isEmpty_iff, Bool.and_eq_true, List.isPrefixOf_iff_prefix, beq_iff_eq]
  refine or_congr Iff.rfl ⟨?_, ?_⟩
  · rintro ⟨⟨rest, rfl⟩, hhead⟩
    rw [List.drop_left] at hhead
    obtain ⟨rest, rfl⟩ := List.head?_eq_some_iff.1 hhead
    exact ⟨rest, by simp⟩
  · rintro ⟨rest, rfl⟩
    rw [List.append_assoc]
    exact ⟨List.prefix_append _ _, by rw [List.drop_left]; rfl⟩

/-- A class is in a package if the package is blank, or its segments are the first ones of the
class and not all of them. -/
theorem isInPackage_iff : n.isInPackage package = true ↔
    bare package = [] ∨ ProperPrefix (packageSegments package) n.segments := by
  rw [isInPackage, covers_iff, Text.concat_prefix_iff, packageSegments, segments,
    properPrefix_map_iff]

theorem isInPackage_iff_dropLast : n.isInPackage package = true ↔
    bare package = [] ∨ packageSegments package <+: n.segments.dropLast := by
  rw [isInPackage_iff, properPrefix_iff_dropLast n.segments_ne_nil]

/-- What is in a package is in it with all that is below. -/
theorem isInPackage_of_below (hbelow : n.segments.dropLast <+: k.segments.dropLast)
    (h : n.isInPackage package = true) : k.isInPackage package = true := by
  rw [isInPackage_iff_dropLast] at h ⊢
  exact h.imp_right fun hbegins => hbegins.trans hbelow

theorem isInAny_iff {packages : List String} :
    n.isInAny packages = true ↔ ∃ package ∈ packages, n.isInPackage package = true :=
  List.any_eq_true

/-! ## A class and the package of its name -/

theorem chars_ne_nil (n : ClassName) : n.chars ≠ [] := by
  obtain ⟨hsegments, -⟩ := n.wellFormed
  intro hnil
  rw [chars] at hnil
  rw [hnil] at hsegments
  exact hsegments List.mem_cons_self

/-- A name does not end in a dot. -/
theorem bare_text (n : ClassName) : bare n.text = n.chars := by
  obtain ⟨hsegments, -⟩ := n.wellFormed
  obtain ⟨before, last, hlast⟩ := (List.eq_nil_or_concat' n.chars).resolve_left n.chars_ne_nil
  rw [chars] at hlast
  have hdot : last ≠ '.' := by
    rintro rfl
    rw [hlast, Text.split_append_cons] at hsegments
    exact hsegments (List.mem_append_right _ List.mem_cons_self)
  rw [bare, chars, hlast, Text.trimEnd, List.reverse_append, List.reverse_singleton,
    List.singleton_append, List.dropWhile_cons_of_neg (by simpa using hdot), List.reverse_cons,
    List.reverse_reverse]

theorem packageSegments_of_bare (h : bare package = n.chars) :
    packageSegments package = n.segments := by
  rw [packageSegments, h, segments]

/-- No class is in the package that has its own name. -/
theorem not_isInPackage_of_bare (h : bare package = n.chars) : n.isInPackage package = false := by
  rw [Bool.eq_false_iff, ne_eq, isInPackage_iff, not_or]
  refine ⟨fun hblank => n.chars_ne_nil (h.symm.trans hblank), fun hbegins => hbegins.2 ?_⟩
  exact packageSegments_of_bare h

/-! ## The platform and the marker field -/

open Classpath (isBootstrap bootstrapPackages)

theorem isBootstrap_iff : isBootstrap n = true ↔
    ∃ package ∈ bootstrapPackages, ProperPrefix (packageSegments package) n.segments := by
  have hnamed : ∀ package ∈ bootstrapPackages, bare package ≠ [] := by decide
  rw [isBootstrap, isInAny_iff]
  refine exists_congr fun package => and_congr_right fun hmem => ?_
  rw [isInPackage_iff, or_iff_right (hnamed package hmem)]

/-- No package of the platform is inside another one. -/
theorem bootstrapPackages_apart : ∀ package ∈ bootstrapPackages, ∀ other ∈ bootstrapPackages,
    ¬ ProperPrefix (packageSegments other) (packageSegments package) := by
  unfold ProperPrefix
  decide

theorem not_isBootstrap_of_text (h : n.text ∈ bootstrapPackages) : isBootstrap n = false := by
  rw [Bool.eq_false_iff, ne_eq, isBootstrap_iff]
  rintro ⟨other, hother, hbegins⟩
  rw [← packageSegments_of_bare n.bare_text] at hbegins
  exact bootstrapPackages_apart n.text h other hother hbegins

theorem inScope_iff {m : MarkerField} : m.inScope n = true ↔
    m.packages = [] ∨ ∃ package ∈ m.packages, n.isInPackage package = true := by
  rw [MarkerField.inScope, Bool.or_eq_true, List.isEmpty_iff, isInAny_iff]

/-- Packages are compared by segments. A class is in a package if that is blank, or its
segments are the first ones of the class and not all of them; so it is for the classes of the
platform and for those in the scope of a marker field, which is all classes if it has no
packages. What holds of a class so holds of every class in its package and below. No class
is in the package that has its own name, be it one of the platform, and the scope of a marker
field does not hold for it because of that package. -/
theorem packages_by_segments :
    (∀ (n : ClassName) package, n.isInPackage package = true ↔
      bare package = [] ∨ ProperPrefix (packageSegments package) n.segments) ∧
    (∀ n, isBootstrap n = true ↔
      ∃ package ∈ bootstrapPackages, ProperPrefix (packageSegments package) n.segments) ∧
    (∀ (m : MarkerField) n, m.inScope n = true ↔ m.packages = [] ∨ ∃ package ∈ m.packages,
      bare package = [] ∨ ProperPrefix (packageSegments package) n.segments) ∧
    (∀ n k : ClassName, n.segments.dropLast <+: k.segments.dropLast →
      (∀ package, n.isInPackage package = true → k.isInPackage package = true) ∧
      (isBootstrap n = true → isBootstrap k = true) ∧
      ∀ m : MarkerField, m.inScope n = true → m.inScope k = true) ∧
    (∀ (n : ClassName) package, package = n.text ∨ bare package = n.chars →
      n.isInPackage package = false) ∧
    (∀ n, n.text ∈ bootstrapPackages → isBootstrap n = false) ∧
    ∀ (m : MarkerField) n, m.inScope n = true ↔ m.packages = [] ∨ ∃ package ∈ m.packages,
      bare package ≠ n.chars ∧ n.isInPackage package = true := by
  refine ⟨fun n package => isInPackage_iff, fun n => isBootstrap_iff, fun m n => ?_,
    fun n k hbelow => ⟨fun package => isInPackage_of_below hbelow, fun h => ?_, fun m h => ?_⟩,
    fun n package hown => not_isInPackage_of_bare ?_, fun n => not_isBootstrap_of_text,
    fun m n => ?_⟩
  · rw [inScope_iff]
    simp only [isInPackage_iff]
  · rw [isBootstrap, isInAny_iff] at h ⊢
    exact h.imp fun package => And.imp_right (isInPackage_of_below hbelow)
  · rw [inScope_iff] at h ⊢
    exact h.imp_right fun h => h.imp fun package => And.imp_right (isInPackage_of_below hbelow)
  · rcases hown with rfl | hown
    · exact n.bare_text
    · exact hown
  · rw [inScope_iff]
    refine or_congr Iff.rfl (exists_congr fun package => and_congr_right fun _ => ?_)
    refine (and_iff_right_of_imp fun hin hown => ?_).symm
    rw [not_isInPackage_of_bare hown] at hin
    cases hin

/-! ## A package of the platform -/

/-- The name `com.sun`, that of a package here. -/
def sunName : ClassName :=
  ⟨"com.sun", by constructor <;> simp [Text.split, isForbidden]⟩

/-- The name `com.sun.A`. -/
def sunClassName : ClassName :=
  ⟨"com.sun.A", by constructor <;> simp [Text.split, isForbidden]⟩

/-- The name `com.sun.io.B`. -/
def sunBelowName : ClassName :=
  ⟨"com.sun.io.B", by constructor <;> simp [Text.split, isForbidden]⟩

/-- The marker field for `com.sun`, given with a dot at its end. -/
def sunMarker : MarkerField := { field := "marked", packages := ["com.sun."] }

/-- `com.sun.A` is in the package, of the platform and in scope, so `com.sun.io.B` is, and
`com.sun` is nothing of that. -/
theorem sun_by_segments :
    sunClassName.segments.dropLast <+: sunBelowName.segments.dropLast ∧
    (sunClassName.isInPackage "com.sun." = true ∧ isBootstrap sunClassName = true ∧
      sunMarker.inScope sunClassName = true) ∧
    (sunBelowName.isInPackage "com.sun." = true ∧ isBootstrap sunBelowName = true ∧
      sunMarker.inScope sunBelowName = true) ∧
    sunName.text ∈ bootstrapPackages ∧ sunName.isInPackage "com.sun" = false ∧
      isBootstrap sunName = false := by
  obtain ⟨-, -, -, hbelow, hown, hplatform, -⟩ := packages_by_segments
  have hbegins : sunClassName.segments.dropLast <+: sunBelowName.segments.dropLast := by
    decide +kernel
  have hin : sunClassName.isInPackage "com.sun." = true := by decide +kernel
  have hbootstrap : isBootstrap sunClassName = true := by decide +kernel
  have hscope : sunMarker.inScope sunClassName = true := by decide +kernel
  obtain ⟨hpackage, hpass, hmarker⟩ := hbelow _ _ hbegins
  exact ⟨hbegins, ⟨hin, hbootstrap, hscope⟩, ⟨hpackage _ hin, hpass hbootstrap, hmarker _ hscope⟩,
    by decide, hown _ _ (.inl rfl), hplatform _ (by decide)⟩

end ClassName

end ClassStamp
