import Mathlib.Data.Set.Finite.Basic
import ClassStamp.Proofs.FileTree.Places

/-!
# How much a file tree holds

* `mem_nodes`: what is at a place is among the nodes of the tree;
* `finite_places`: so there are finitely many places with something.
-/

namespace ClassStamp.FileTree

mutual

/-- Collecting nodes keeps those that were found before. -/
theorem mem_collect (place : Place) (node : Node) {x : Place × Node} {found : List (Place × Node)}
    (h : x ∈ found) : x ∈ node.collect place found := by
  cases node with
  | file content => exact h
  | directory entries => exact mem_collectAll place entries h

theorem mem_collectAll (place : Place) (entries : List (String × Node)) {x : Place × Node}
    {found : List (Place × Node)} (h : x ∈ found) : x ∈ collectAll place entries found := by
  match entries with
  | [] => exact h
  | (name, node) :: rest =>
    rw [collectAll]
    exact mem_collectAll place rest (mem_collect (name :: place) node (List.mem_cons_of_mem _ h))

end

/-- An entry of a directory is found, and what is below it. -/
theorem collect_of_lookup {name : String} {node : Node} {place : Place} {entries : Directory}
    (h : entries.lookup name = some node) (found : List (Place × Node)) :
    ∃ before, ∀ x ∈ node.collect (name :: place) ((name :: place, node) :: before),
      x ∈ collectAll place entries found := by
  induction entries generalizing found with
  | nil => cases h
  | cons entry entries ih =>
    obtain ⟨other, there⟩ := entry
    rw [List.lookup_cons] at h
    rw [collectAll]
    split at h
    · rename_i heq
      cases h
      rw [eq_of_beq heq]
      exact ⟨found, fun x hx => mem_collectAll place entries hx⟩
    · exact ih h _

theorem mem_collectAll_of_below? {names : List String} {node : Node} {place : Place}
    {entries : Directory} (hne : names ≠ [])
    (h : Node.below? names (.directory entries) = some node) (found : List (Place × Node)) :
    (names.reverse ++ place, node) ∈ collectAll place entries found := by
  induction names generalizing place entries found with
  | nil => exact absurd rfl hne
  | cons name names ih =>
    rw [below?_directory_cons] at h
    obtain ⟨there, hlookup, h⟩ := Option.bind_eq_some_iff.1 h
    have hentry : ∃ before, ∀ x ∈ there.collect (name :: place) ((name :: place, there) :: before),
        x ∈ collectAll place entries found := collect_of_lookup hlookup found
    obtain ⟨before, hbefore⟩ := hentry
    refine hbefore _ ?_
    rw [List.reverse_cons, List.append_assoc]
    cases names with
    | nil =>
      cases h
      exact mem_collect _ _ List.mem_cons_self
    | cons next names =>
      cases there with
      | file content => cases h
      | directory inside => exact ih (List.cons_ne_nil next names) h _

/-- What is at a place other than the root is among the nodes. -/
theorem mem_nodes {t : FileTree} {place : Place} {node : Node} (hne : place ≠ [])
    (h : t.node? place = some node) : (place, node) ∈ t.nodes := by
  have hmem : (place.reverse.reverse ++ [], node) ∈ collectAll [] t.root [] :=
    mem_collectAll_of_below? (List.reverse_ne_nil_iff.2 hne) h []
  rw [List.reverse_reverse, List.append_nil] at hmem
  exact List.mem_reverse.2 hmem

/-- There are finitely many places with something. -/
theorem finite_places (t : FileTree) : {place : Place | (t.node? place).isSome}.Finite := by
  refine (List.finite_toSet ([] :: t.nodes.map (·.1))).subset fun place hplace => ?_
  obtain ⟨node, hnode⟩ := Option.isSome_iff_exists.1 hplace
  by_cases hroot : place = []
  · exact List.mem_cons.2 (.inl hroot)
  · exact List.mem_cons_of_mem [] (List.mem_map_of_mem (mem_nodes hroot hnode))

end ClassStamp.FileTree
