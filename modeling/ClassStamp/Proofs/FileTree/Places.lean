import Mathlib.Data.List.Basic
import ClassStamp.FileTree

/-!
# What is at a place

Of a node at a place only its shape matters to whoever does not look below it:
whether it is a directory, or a file with what content. A path leads to the
place that its names spell out (`placeOf`), whatever the tree holds, and a
change at one place leaves the shapes at all other places alone.

* `follow_place`, `find_place`: where a path leads, if it leads anywhere;
* `shape?_set`: what a change at a place does to the shape at every place.
-/

namespace ClassStamp.FileTree

/-- The content, if the node is a file. -/
def Node.content? : Node → Option Bytes
  | directory _ => none
  | file content => some content

/-- What is at a place: nothing, a directory, or a file with its content. -/
def shape? (t : FileTree) (place : Place) : Option (Option Bytes) :=
  (t.node? place).map Node.content?

/-- The content of the file at a place. -/
def fileAt? (t : FileTree) (place : Place) : Option Bytes := (t.shape? place).join

/-- A directory is at the place. -/
def HasDirectory (t : FileTree) (place : Place) : Prop := t.shape? place = some none

theorem hasDirectory_iff {t : FileTree} {place : Place} :
    t.HasDirectory place ↔ ∃ entries, t.node? place = some (.directory entries) := by
  unfold HasDirectory shape?
  constructor
  · intro h
    obtain ⟨node, hnode, hc⟩ := Option.map_eq_some_iff.1 h
    cases node with
    | directory entries => exact ⟨entries, hnode⟩
    | file content => cases hc
  · rintro ⟨entries, h⟩
    rw [h]
    rfl

theorem fileAt?_eq_some_iff {t : FileTree} {place : Place} {content : Bytes} :
    t.fileAt? place = some content ↔ t.node? place = some (.file content) := by
  unfold fileAt? shape?
  constructor
  · intro h
    obtain ⟨node, hnode, hc⟩ := Option.map_eq_some_iff.1 (Option.join_eq_some_iff.1 h)
    cases node with
    | directory entries => cases hc
    | file content' => rw [hnode, Option.some.inj hc]
  · intro h
    rw [h]
    rfl

/-! ## Going down -/

theorem below?_append (node : Node) (names more : List String) :
    Node.below? (names ++ more) node = (Node.below? names node).bind (Node.below? more) := by
  induction names generalizing node with
  | nil => rfl
  | cons name names ih =>
    cases node with
    | file content => rfl
    | directory entries =>
      rw [List.cons_append, Node.below?, Node.below?]
      cases entries.lookup name with
      | none => rfl
      | some node => exact ih node

theorem below?_directory_cons (name : String) (names : List String) (d : Directory) :
    Node.below? (name :: names) (.directory d) = (d.lookup name).bind (Node.below? names) := by
  rw [Node.below?]
  cases d.lookup name <;> rfl

theorem node?_append (t : FileTree) (names : List String) (place : Place) :
    t.node? (names ++ place) = (t.node? place).bind (Node.below? names.reverse) := by
  unfold node?
  rw [List.reverse_append, below?_append]

theorem node?_cons (t : FileTree) (name : String) (place : Place) :
    t.node? (name :: place) = (t.node? place).bind (Node.below? [name]) := by
  rw [← List.singleton_append, node?_append]
  rfl

theorem node?_cons_of_directory {t : FileTree} {name : String} {place : Place}
    {entries : Directory} (h : t.node? place = some (.directory entries)) :
    t.node? (name :: place) = entries.lookup name := by
  rw [node?_cons, h, Option.bind_some, below?_directory_cons]
  cases entries.lookup name <;> rfl

/-! ## The place of a path -/

/-- Where one name leads from a place. -/
def stepFrom (place : Place) (name : String) : Place :=
  if name = "." then place else if name = ".." then place.tail else name :: place

/-- The place that a path leads to if it leads anywhere. -/
def placeOf (t : FileTree) (p : Path) : Place := (steps p).foldl stepFrom (t.start p)

theorem follow_place {t : FileTree} {names : List String} {place : Place} {node : Node}
    (hnode : t.node? place = some node) {place' : Place} {node' : Node}
    (h : t.follow names place node = .ok (place', node')) :
    place' = names.foldl stepFrom place ∧ t.node? place' = some node' := by
  induction names generalizing place node with
  | nil =>
    cases h
    exact ⟨rfl, hnode⟩
  | cons name names ih =>
    cases node with
    | file content => cases h
    | directory entries =>
      rw [follow] at h
      rw [List.foldl_cons, stepFrom]
      split at h
      · rename_i hdot
        rw [if_pos hdot]
        exact ih hnode h
      rename_i hdot
      rw [if_neg hdot]
      split at h
      · rename_i hup
        rw [if_pos hup]
        split at h
        · cases h
        · exact ih (by assumption) h
      rename_i hup
      rw [if_neg hup]
      split at h
      · cases h
      split at h
      · cases h
      · rename_i hl
        exact ih (by rw [node?_cons_of_directory hnode, hl]) h

theorem followFrom_place {t : FileTree} {p : Path} {names : List String} {place : Place}
    {node : Node} (h : t.followFrom p names = .ok (place, node)) :
    place = names.foldl stepFrom (t.start p) ∧ t.node? place = some node := by
  unfold followFrom at h
  split at h
  · cases h
  · exact follow_place (by assumption) h

theorem follow_append (t : FileTree) (names more : List String) (place : Place) (node : Node) :
    t.follow (names ++ more) place node =
      (t.follow names place node).bind fun found => t.follow more found.1 found.2 := by
  induction names generalizing place node with
  | nil => rfl
  | cons name names ih =>
    cases node with
    | file content => rfl
    | directory entries =>
      rw [List.cons_append, follow, follow]
      split
      · exact ih _ _
      split
      · cases t.node? place.tail with
        | none => rfl
        | some above => exact ih _ _
      split
      · rfl
      · cases entries.lookup name with
        | none => rfl
        | some next => exact ih _ _

theorem followFrom_append {t : FileTree} {p : Path} {names more : List String} {place : Place}
    {node : Node} (h : t.followFrom p names = .ok (place, node)) :
    t.followFrom p (names ++ more) = t.follow more place node := by
  unfold followFrom at h ⊢
  split at h
  · cases h
  · rw [follow_append, h]
    rfl

/-- Whoever follows some names and then others passes where the first ones
lead. -/
theorem followFrom_of_append {t : FileTree} {p : Path} {names more : List String} {place : Place}
    {node : Node} (h : t.followFrom p (names ++ more) = .ok (place, node)) :
    ∃ between there, t.followFrom p names = .ok (between, there) ∧
      t.follow more between there = .ok (place, node) := by
  unfold followFrom at h ⊢
  split at h
  · cases h
  rename_i start _
  rw [follow_append] at h
  cases hfirst : t.follow names (t.start p) start with
  | error e =>
    rw [hfirst] at h
    cases h
  | ok found =>
    rw [hfirst] at h
    exact ⟨found.1, found.2, rfl, h⟩

theorem find_eq_ok {t : FileTree} {p : Path} {place : Place} {node : Node} :
    t.find p = .ok (place, node) ↔ checkPath p = .ok () ∧
      t.followFrom p (steps p) = .ok (place, node) ∧
      (endsInSlash p = true → node.isDirectory = true) := by
  unfold find
  cases hc : checkPath p with
  | error e => exact ⟨(nomatch ·), fun h => (nomatch h.1)⟩
  | ok _ =>
    cases hf : t.followFrom p (steps p) with
    | error e => exact ⟨(nomatch ·), fun h => (nomatch h.2.1)⟩
    | ok found =>
      obtain ⟨place', node'⟩ := found
      change (if (endsInSlash p && !node'.isDirectory) = true then
        (.error .notADirectory : Except FileError (Place × Node)) else .ok (place', node')) = _ ↔ _
      cases hs : endsInSlash p <;> cases hd : node'.isDirectory
      all_goals
        simp only [Bool.not_true, Bool.not_false, Bool.and_true, Bool.and_false, if_true,
          Bool.false_eq_true, if_false, Except.ok.injEq, Prod.mk.injEq, reduceCtorEq, false_iff,
          true_and, forall_const, IsEmpty.forall_iff, and_true, not_and]
      · rintro ⟨-, rfl⟩ h
        rw [h] at hd
        cases hd
      · constructor
        · rintro ⟨rfl, rfl⟩
          exact ⟨⟨rfl, rfl⟩, hd⟩
        · exact fun h => h.1

theorem find_place {t : FileTree} {p : Path} {place : Place} {node : Node}
    (h : t.find p = .ok (place, node)) : place = t.placeOf p ∧ t.node? place = some node :=
  followFrom_place (find_eq_ok.1 h).2.1

theorem read_eq_ok {t : FileTree} {p : Path} {content : Bytes} :
    t.read p = .ok content ↔ ∃ place, t.find p = .ok (place, .file content) := by
  unfold read
  cases hf : t.find p with
  | error e => exact ⟨(nomatch ·), fun ⟨_, h⟩ => (nomatch h)⟩
  | ok found =>
    obtain ⟨place, node⟩ := found
    cases node with
    | directory entries =>
      refine ⟨(nomatch ·), fun ⟨_, h⟩ => ?_⟩
      simp at h
    | file content' =>
      constructor
      · intro h
        cases h
        exact ⟨place, rfl⟩
      · rintro ⟨_, h⟩
        cases h
        rfl

/-- Nothing is found at a path only if it is empty or cannot be followed. -/
theorem read_eq_notFound {t : FileTree} {p : Path} (h : t.read p = .error .notFound) :
    p.text = "" ∨ t.followFrom p (steps p) = .error .notFound := by
  unfold read find at h
  cases hc : checkPath p with
  | error e =>
    refine .inl ?_
    rw [hc] at h
    cases h
    unfold checkPath at hc
    split at hc
    · cases hc
    split at hc
    · assumption
    · split at hc <;> cases hc
  | ok _ =>
    refine .inr ?_
    rw [hc] at h
    cases hf : t.followFrom p (steps p) with
    | error e =>
      rw [hf] at h
      cases h
      rfl
    | ok found =>
      obtain ⟨place, node⟩ := found
      rw [hf] at h
      cases node with
      | directory entries =>
        cases hs : endsInSlash p <;> rw [hs] at h <;> cases h
      | file content =>
        cases hs : endsInSlash p <;> rw [hs] at h <;> cases h

/-- What is read from a path is the content of the file at its place. -/
theorem fileAt?_of_read {t : FileTree} {p : Path} {content : Bytes} (h : t.read p = .ok content) :
    t.fileAt? (t.placeOf p) = some content := by
  obtain ⟨place, hf⟩ := read_eq_ok.1 h
  obtain ⟨rfl, hnode⟩ := find_place hf
  exact fileAt?_eq_some_iff.2 hnode

/-! ## Changes at a place -/

theorem lookup_alter {name : String} {change : Option Node → Option Node}
    (h : ∀ node, (change (some node)).isSome = true) (d : Directory) (key : String) :
    (d.alter name change).lookup key =
      if key = name then change (d.lookup name) else d.lookup key := by
  induction d with
  | nil =>
    rw [Directory.alter, List.lookup_nil, List.lookup_nil]
    by_cases hk : key = name
    · subst hk
      rw [if_pos rfl]
      cases change none with
      | none => rfl
      | some node => exact List.lookup_cons_self
    · rw [if_neg hk]
      cases change none with
      | none => rfl
      | some node => rw [List.lookup_cons, beq_false_of_ne hk]; rfl
  | cons entry d ih =>
    obtain ⟨other, node⟩ := entry
    rw [Directory.alter]
    by_cases ho : other = name
    · subst ho
      have hsome := h node
      rw [if_pos rfl, List.lookup_cons, List.lookup_cons, beq_self_eq_true]
      cases hc : change (some node) with
      | none => rw [hc] at hsome; cases hsome
      | some node' =>
        by_cases hk : key = other
        · subst hk
          rw [if_pos rfl, List.lookup_cons_self, ← hc]
        · rw [if_neg hk, List.lookup_cons, beq_false_of_ne hk]
    · rw [if_neg ho, List.lookup_cons, List.lookup_cons, List.lookup_cons,
        beq_false_of_ne (Ne.symm ho), ih]
      by_cases hk : key = name
      · subst hk
        rw [beq_false_of_ne (Ne.symm ho), if_pos rfl]
      · rw [if_neg hk, if_neg hk]

/-- The shape of what some names lead to. -/
def shapeBelow? (names : List String) (d : Directory) : Option (Option Bytes) :=
  (Node.below? names (.directory d)).map Node.content?

theorem shapeBelow?_cons_of_lookup {name : String} {names : List String} {d e : Directory}
    (h : d.lookup name = some (.directory e)) :
    shapeBelow? (name :: names) d = shapeBelow? names e := by
  unfold shapeBelow?
  rw [below?_directory_cons, h, Option.bind_some]

/-- A change at the place that some names lead to, in a directory, keeps all
shapes that it is not meant to change: nothing was below that place, and
nothing is then. -/
theorem shapeBelow?_alterBelow {new : Node} {names : List String} {d inside : Directory}
    (hne : names ≠ [])
    (hdir : Node.below? names.dropLast (.directory d) = some (.directory inside))
    (hold : ∀ more ≠ [], Node.below? (names ++ more) (.directory d) = none)
    (hnew : ∀ more ≠ [], Node.below? more new = none) (key : List String) :
    shapeBelow? key (d.alterBelow (fun _ => some new) names) =
      if key = names then some new.content? else shapeBelow? key d := by
  induction names generalizing d key with
  | nil => exact absurd rfl hne
  | cons name names ih =>
    cases key with
    | nil => rw [if_neg (by simp)]; rfl
    | cons k key =>
      cases names with
      | nil =>
        rw [Directory.alterBelow]
        unfold shapeBelow?
        rw [below?_directory_cons, below?_directory_cons, lookup_alter (fun _ => rfl)]
        by_cases hk : k = name
        · subst hk
          rw [if_pos rfl, Option.bind_some]
          cases key with
          | nil => rw [if_pos rfl]; rfl
          | cons k' key =>
            have hold := hold (k' :: key) (by simp)
            rw [List.singleton_append, below?_directory_cons] at hold
            rw [if_neg (by simp), hold, hnew _ (by simp)]
        · rw [if_neg hk, if_neg (by simp [hk])]
      | cons name' names =>
        rw [List.dropLast_cons_cons, below?_directory_cons] at hdir
        obtain ⟨node, hlookup, hinside⟩ := Option.bind_eq_some_iff.1 hdir
        cases node with
        | file content =>
          exfalso
          cases names with
          | nil => cases hinside
          | cons => cases hinside
        | directory e =>
          have halter : (d.alterBelow (fun _ => some new) (name :: name' :: names)).lookup k =
              if k = name then
                some (.directory (Directory.alterBelow (fun _ => some new) (name' :: names) e))
              else d.lookup k := by
            rw [Directory.alterBelow, lookup_alter, hlookup]
            · rintro (_ | _) <;> rfl
            · exact List.cons_ne_nil name' names
          have hold' : ∀ more ≠ [],
              Node.below? ((name' :: names) ++ more) (.directory e) = none := by
            intro more hmore
            have hold := hold more hmore
            rwa [List.cons_append, below?_directory_cons, hlookup, Option.bind_some] at hold
          by_cases hk : k = name
          · subst hk
            rw [if_pos rfl] at halter
            rw [shapeBelow?_cons_of_lookup halter, shapeBelow?_cons_of_lookup hlookup,
              ih (by simp) hinside hold' key]
            simp only [List.cons.injEq, true_and]
          · rw [if_neg hk] at halter
            rw [if_neg (by simp [hk])]
            unfold shapeBelow?
            rw [below?_directory_cons, below?_directory_cons, halter]

/-- A node that comes to a place in a directory, where nothing or only a file
was, changes the shape at that place only. -/
theorem shape?_set {t : FileTree} {name : String} {above : Place} {new : Node}
    (hdir : t.HasDirectory above)
    (hold : ∀ entries, t.node? (name :: above) ≠ some (.directory entries))
    (hnew : new = .directory [] ∨ ∃ content, new = .file content) (place : Place) :
    (t.set (name :: above) (some new)).shape? place =
      if place = name :: above then some new.content? else t.shape? place := by
  obtain ⟨inside, hdir⟩ := hasDirectory_iff.1 hdir
  have hbelow : ∀ more ≠ [],
      Node.below? ((name :: above).reverse ++ more) (.directory t.root) = none := by
    intro more hmore
    rw [below?_append]
    show (t.node? (name :: above)).bind _ = none
    cases hnode : t.node? (name :: above) with
    | none => rfl
    | some node =>
      cases node with
      | directory entries => exact absurd hnode (hold entries)
      | file content =>
        cases more with
        | nil => exact absurd rfl hmore
        | cons => rfl
  have hleaf : ∀ more ≠ [], Node.below? more new = none := by
    intro more hmore
    cases more with
    | nil => exact absurd rfl hmore
    | cons =>
      rcases hnew with rfl | ⟨content, rfl⟩
      · rw [below?_directory_cons]; rfl
      · rfl
  have hinside : Node.below? (name :: above).reverse.dropLast (.directory t.root) =
      some (.directory inside) := by
    rw [List.reverse_cons, List.dropLast_concat]
    exact hdir
  have h := shapeBelow?_alterBelow (by simp) hinside hbelow hleaf place.reverse
  simp only [List.reverse_inj] at h
  exact h

end ClassStamp.FileTree
