import ClassStamp.Proofs.FileTree.Sound
import ClassStamp.Proofs.Output

/-!
# Edits of sound file trees

Whatever is made or written gets a name that a path can have, in a directory that
has nothing of that name yet, or takes the place of a file. So a sound tree stays
sound.

* `sound_set`: a directory without entries, or a file, in a directory;
* `keepsSound_createDirectories`, `keepsSound_write`: the edits;
* `Output.keepsSound_write`: writing a class.
-/

namespace ClassStamp

namespace FileTree

variable {t t' : FileTree} {name : String} {change : Option Node → Option Node} {d : Directory}

/-! ## Entries of a directory -/

/-- An entry is changed, or a new one comes last. -/
theorem map_fst_alter (hsome : ∀ node, (change (some node)).isSome = true) :
    (d.alter name change).map (·.1) = d.map (·.1) ∨
      name ∉ d.map (·.1) ∧ (change none).isSome = true ∧
        (d.alter name change).map (·.1) = d.map (·.1) ++ [name] := by
  induction d with
  | nil =>
    rw [Directory.alter]
    cases hnone : change none with
    | none => exact .inl rfl
    | some node => exact .inr ⟨List.not_mem_nil, rfl, rfl⟩
  | cons entry d ih =>
    obtain ⟨other, node⟩ := entry
    rw [Directory.alter]
    by_cases hother : other = name
    · obtain ⟨node', hnode'⟩ := Option.isSome_iff_exists.1 (hsome node)
      rw [if_pos hother, hnode']
      exact .inl rfl
    · rw [if_neg hother, List.map_cons, List.map_cons]
      rcases ih with hsame | ⟨hnew, hmade, hlast⟩
      · exact .inl (congrArg (other :: ·) hsame)
      · refine .inr ⟨?_, hmade, congrArg (other :: ·) hlast⟩
        rw [List.mem_cons, not_or]
        exact ⟨Ne.symm hother, hnew⟩

theorem plain_alter (h : d.Plain) (hsome : ∀ node, (change (some node)).isSome = true)
    (hname : (change none).isSome = true → IsEntryName name) : (d.alter name change).Plain := by
  obtain ⟨hdistinct, hnames⟩ := h
  have hkeys : ∀ key ∈ d.map (·.1), IsEntryName key := List.forall_mem_map.2 hnames
  rcases map_fst_alter hsome with hsame | ⟨hnew, hmade, hlast⟩
  · refine ⟨by rw [hsame]; exact hdistinct, List.forall_mem_map.1 ?_⟩
    rwa [hsame]
  · refine ⟨?_, List.forall_mem_map.1 ?_⟩
    · rw [hlast, List.nodup_append]
      exact ⟨hdistinct, (List.nodup_cons.2 ⟨List.not_mem_nil, .nil⟩),
        fun a ha b hb he => hnew (List.mem_singleton.1 hb ▸ he ▸ ha)⟩
    · rw [hlast, List.forall_mem_append]
      exact ⟨hkeys, List.forall_mem_singleton.2 (hname hmade)⟩

/-! ## Directories below a directory -/

/-- The directory and all those below it have distinct and possible names. -/
def Directory.PlainBelow (d : Directory) : Prop :=
  ∀ names inside, Node.below? names (.directory d) = some (.directory inside) →
    Directory.Plain inside

theorem sound_iff : t.Sound ↔ t.root.PlainBelow := by
  constructor
  · intro h names inside hbelow
    refine h names.reverse inside ?_
    rw [node?, List.reverse_reverse]
    exact hbelow
  · exact fun h place entries hnode => h place.reverse entries hnode

theorem Directory.PlainBelow.lookup (h : d.PlainBelow) {inside : Directory}
    (hlookup : d.lookup name = some (.directory inside)) : inside.PlainBelow := by
  intro names entries hbelow
  refine h (name :: names) entries ?_
  rw [below?_directory_cons, hlookup]
  exact hbelow

theorem plainBelow_alter (h : d.PlainBelow) (hsome : ∀ node, (change (some node)).isSome = true)
    (hname : (change none).isSome = true → IsEntryName name)
    (hinside : ∀ inside, change (d.lookup name) = some (.directory inside) →
      Directory.PlainBelow inside) :
    (d.alter name change).PlainBelow := by
  intro names entries hbelow
  cases names with
  | nil =>
    cases hbelow
    exact plain_alter (h [] d rfl) hsome hname
  | cons key names =>
    rw [below?_directory_cons, lookup_alter hsome] at hbelow
    obtain ⟨node, hnode, hbelow⟩ := Option.bind_eq_some_iff.1 hbelow
    split at hnode
    · cases node with
      | directory inside => exact hinside inside hnode names entries hbelow
      | file content => cases names <;> cases hbelow
    · refine h (key :: names) entries ?_
      rw [below?_directory_cons, hnode]
      exact hbelow

theorem plainBelow_alterBelow {new : Node} {names : List String} (h : d.PlainBelow)
    (hnames : ∀ name, names.getLast? = some name → IsEntryName name)
    (hnew : ∀ inside, new = .directory inside → Directory.PlainBelow inside) :
    (d.alterBelow (fun _ => some new) names).PlainBelow := by
  induction names generalizing d with
  | nil => exact h
  | cons name names ih =>
    cases names with
    | nil =>
      rw [Directory.alterBelow]
      exact plainBelow_alter h (fun _ => rfl) (fun _ => hnames name rfl)
        fun inside he => hnew inside (Option.some.inj he)
    | cons next names =>
      rw [Directory.alterBelow]
      · refine plainBelow_alter h (fun node => ?_) (fun hmade => ?_) fun inside he => ?_
        · cases node <;> rfl
        · cases hmade
        · -- only a directory that was there can have changed on the way
          cases hlookup : d.lookup name with
          | none =>
            rw [hlookup] at he
            cases he
          | some node =>
            rw [hlookup] at he
            cases node with
            | file content => cases he
            | directory between =>
              cases he
              exact ih (h.lookup hlookup) fun last hlast => hnames last
                (by rw [List.getLast?_cons_cons]; exact hlast)
      · exact List.cons_ne_nil next names

/-- A sound tree stays sound when a directory without entries, or a file, comes to a
place. -/
theorem sound_set (h : t.Sound) {place : Place} {new : Node}
    (hplace : ∀ name, place.head? = some name → IsEntryName name)
    (hnew : new = .directory [] ∨ ∃ content, new = .file content) :
    (t.set place (some new)).Sound := by
  refine sound_iff.2 (plainBelow_alterBelow (sound_iff.1 h) ?_ ?_)
  · intro name hname
    rw [List.getLast?_reverse] at hname
    exact hplace name hname
  · rintro inside rfl names entries hbelow
    rcases hnew with he | ⟨content, he⟩
    · cases he
      cases names with
      | nil =>
        cases hbelow
        exact ⟨List.nodup_nil, List.forall_mem_nil _⟩
      | cons name names => cases hbelow
    · cases he

/-! ## Edits -/

/-- If the first tree is sound, so is the second. -/
def KeepsSound (t t' : FileTree) : Prop := t.Sound → t'.Sound

instance : IsPreorder FileTree KeepsSound where
  refl _ := id
  trans _ _ _ h h' := h' ∘ h

/-- A path names something new by its last name, which can be a name. -/
theorem isEntryName_of_newPlace {p : Path} {place : Place} {there : Option Node}
    (h : t.newPlace p = .ok (some (place, there))) {name : String}
    (hname : place.head? = some name) : IsEntryName name := by
  obtain ⟨last, above, entries, hlast, rfl, hcheck, -, hhere, hparent, hshort, -⟩ :=
    newPlace_eq_ok h
  cases hname
  obtain ⟨hpiece, hnonempty⟩ := List.mem_filter.1 (List.mem_of_getLast? hlast)
  obtain ⟨piece, hsplit, rfl⟩ := List.mem_map.1 hpiece
  have hchars : (String.ofList piece).toList = piece := String.toList_ofList
  refine ⟨⟨of_decide_eq_true hnonempty, hhere, hparent, ?_⟩, hshort, fun hnul => ?_⟩
  · rw [hchars]
    exact Text.not_mem_of_mem_split hsplit
  · rw [hchars] at hnul
    have hmem : '\x00' ∈ p.text.toList := Text.mem_of_mem_split hsplit hnul
    rw [checkPath, if_pos (List.contains_iff_mem.2 hmem)] at hcheck
    cases hcheck

theorem keepsSound_createDirectory (p : Path) : Keeps KeepsSound (createDirectory p) := by
  intro t h
  unfold leaves createDirectory
  split <;> rename_i heq <;> split at heq <;> cases heq
  · rename_i hnew
    exact sound_set h (fun name => isEntryName_of_newPlace hnew) (.inl rfl)
  · exact h
  · exact h

theorem keepsSound_createDirectories (p : Path) : Keeps KeepsSound (createDirectories p) :=
  keeps_createDirectories keepsSound_createDirectory p

theorem keepsSound_write (p : Path) (content : Bytes) : Keeps KeepsSound (write p content) := by
  intro t h
  cases hw : write p content t with
  | error e t' =>
    rw [leaves_of_error hw, write_eq_error hw]
    exact h
  | ok _ t' =>
    rw [leaves_of_ok hw]
    unfold write at hw
    split at hw
    · cases hw
    · cases hw
    rename_i hnew
    split at hw <;> cases hw
    exact sound_set h (fun name => isEntryName_of_newPlace hnew) (.inr ⟨content, rfl⟩)

end FileTree

namespace Output

open FileTree (KeepsSound)

theorem keepsSound_writeFile (path : Path) (bytes : Bytes) :
    Keeps KeepsSound (writeFile path bytes) := by
  intro files h
  unfold leaves writeFile
  dsimp only
  have hmade := FileTree.keepsSound_createDirectories (path.parent?.getD ⟨""⟩)
  cases hc : FileTree.createDirectories (path.parent?.getD ⟨""⟩) files with
  | error e between => exact hmade.error hc h
  | ok _ between =>
    have hwritten := FileTree.keepsSound_write path bytes
    have hbetween := hmade.ok hc h
    dsimp only
    cases hw : FileTree.write path bytes between with
    | error e after => exact hwritten.error hw hbetween
    | ok _ after => exact hwritten.ok hw hbetween

/-- Writing a class keeps a tree sound, whether it goes well or not. -/
theorem keepsSound_write (o : Output) (a : Artifact) (files : FileTree) :
    KeepsSound files (leaves o.write (a, files)).2 := by
  intro h
  unfold leaves write
  dsimp only
  cases Artifact.freeze a with
  | error e a' => exact h
  | ok bytes a' =>
    have hwritten := keepsSound_writeFile (o.pathFor a'.name) bytes
    dsimp only
    cases hw : writeFile (o.pathFor a'.name) bytes files with
    | error e after => exact hwritten.error hw h
    | ok _ after => exact hwritten.ok hw h

end Output

end ClassStamp
