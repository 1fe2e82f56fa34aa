import ClassStamp.Proofs.Edit
import ClassStamp.Proofs.FileTree.Places

/-!
# How a file tree changes

A run only ever makes directories and writes files, so that what is a
directory or a file stays one (`Settled`), and a path that led somewhere goes
on to lead there.

* `find_of_settled`, `read_of_settled`, `read_of_settled_of_fileAt?`: paths that led
  somewhere;
* `sameFiles_createDirectories`: making directories touches no file;
* `find_of_newPlace`: what came to be where a path leads;
* `isDirectory_of_settled`, `createDirectories_of_isDirectory`,
  `isDirectory_of_createDirectories`: directories that are there;
* `write_eq_ok`: writing a file changes the file at its place and no other,
  and reading it gives what was written.
-/

namespace ClassStamp.FileTree

/-- What was a directory or a file in the earlier tree is one in the later
tree, maybe with another content, and relative paths begin at the same
place. -/
structure Settled (t t' : FileTree) : Prop where
  workingDirectory : t'.workingDirectory = t.workingDirectory
  directories : ∀ place, t.HasDirectory place → t'.HasDirectory place
  files : ∀ place, (t.fileAt? place).isSome → (t'.fileAt? place).isSome

/-- Besides that, no file was made or changed. -/
structure SameFiles (t t' : FileTree) : Prop extends Settled t t' where
  contents : ∀ place, t'.fileAt? place = t.fileAt? place

theorem Settled.refl (t : FileTree) : Settled t t := ⟨rfl, fun _ => id, fun _ => id⟩

theorem Settled.trans {t t' t'' : FileTree} (h : Settled t t') (h' : Settled t' t'') :
    Settled t t'' :=
  ⟨h'.workingDirectory.trans h.workingDirectory,
    fun place hd => h'.directories place (h.directories place hd),
    fun place hf => h'.files place (h.files place hf)⟩

theorem SameFiles.refl (t : FileTree) : SameFiles t t := ⟨.refl t, fun _ => rfl⟩

theorem SameFiles.trans {t t' t'' : FileTree} (h : SameFiles t t') (h' : SameFiles t' t'') :
    SameFiles t t'' :=
  ⟨h.toSettled.trans h'.toSettled, fun place => (h'.contents place).trans (h.contents place)⟩

instance : IsPreorder FileTree Settled where
  refl := .refl
  trans _ _ _ := .trans

instance : IsPreorder FileTree SameFiles where
  refl := .refl
  trans _ _ _ := .trans

theorem Settled.placeOf {t t' : FileTree} (h : Settled t t') (p : Path) :
    t'.placeOf p = t.placeOf p := by
  rw [FileTree.placeOf, FileTree.placeOf, start, start, h.workingDirectory]

/-! ## Paths that led somewhere -/

/-- A node that stands where another one stood is of the same kind. -/
theorem Settled.node? {t t' : FileTree} (h : Settled t t') {place : Place} {node : Node}
    (hnode : t.node? place = some node) :
    ∃ node', t'.node? place = some node' ∧ node'.isDirectory = node.isDirectory := by
  cases node with
  | directory entries =>
    obtain ⟨entries', h'⟩ :=
      hasDirectory_iff.1 (h.directories place (hasDirectory_iff.2 ⟨_, hnode⟩))
    exact ⟨_, h', rfl⟩
  | file content =>
    have hsome := h.files place (by rw [fileAt?_eq_some_iff.2 hnode]; rfl)
    obtain ⟨content', h'⟩ := Option.isSome_iff_exists.1 hsome
    exact ⟨_, fileAt?_eq_some_iff.1 h', rfl⟩

theorem follow_of_settled {t t' : FileTree} (h : Settled t t') {names : List String}
    {place : Place} {node node' : Node} (hnode : t.node? place = some node)
    (hnode' : t'.node? place = some node') (hkind : node'.isDirectory = node.isDirectory)
    {last : Place} {there : Node} (hf : t.follow names place node = .ok (last, there)) :
    ∃ there', t'.follow names place node' = .ok (last, there') ∧
      there'.isDirectory = there.isDirectory := by
  induction names generalizing place node node' with
  | nil =>
    cases hf
    exact ⟨node', rfl, hkind⟩
  | cons name names ih =>
    cases node with
    | file content => cases hf
    | directory entries =>
      cases node' with
      | file content => cases hkind
      | directory entries' =>
        rw [follow] at hf ⊢
        split at hf
        · rw [if_pos (by assumption)]
          exact ih hnode hnode' rfl hf
        rw [if_neg (by assumption)]
        split at hf
        · rw [if_pos (by assumption)]
          split at hf
          · cases hf
          · rename_i above habove
            obtain ⟨above', habove', hkind⟩ := h.node? habove
            rw [habove']
            exact ih habove habove' hkind hf
        rw [if_neg (by assumption)]
        split at hf
        · cases hf
        rw [if_neg (by assumption)]
        split at hf
        · cases hf
        · rename_i next hnext
          rw [← node?_cons_of_directory hnode] at hnext
          obtain ⟨next', hnext', hkind⟩ := h.node? hnext
          rw [← node?_cons_of_directory hnode', hnext']
          exact ih hnext hnext' hkind hf

theorem followFrom_of_settled {t t' : FileTree} (h : Settled t t') {p : Path}
    {names : List String} {place : Place} {node : Node}
    (hf : t.followFrom p names = .ok (place, node)) :
    ∃ node', t'.followFrom p names = .ok (place, node') ∧
      node'.isDirectory = node.isDirectory := by
  have hstart : t'.start p = t.start p := by rw [start, start, h.workingDirectory]
  unfold followFrom at hf ⊢
  rw [hstart]
  split at hf
  · cases hf
  · rename_i first hfirst
    obtain ⟨first', hfirst', hkind⟩ := h.node? hfirst
    rw [hfirst']
    exact follow_of_settled h hfirst hfirst' hkind hf

theorem find_of_settled {t t' : FileTree} (h : Settled t t') {p : Path} {place : Place}
    {node : Node} (hf : t.find p = .ok (place, node)) :
    ∃ node', t'.find p = .ok (place, node') ∧ node'.isDirectory = node.isDirectory := by
  obtain ⟨hp, hf, hslash⟩ := find_eq_ok.1 hf
  obtain ⟨node', hf', hkind⟩ := followFrom_of_settled h hf
  exact ⟨node', find_eq_ok.2 ⟨hp, hf', fun hs => hkind.trans (hslash hs)⟩, hkind⟩

/-- What could be read can still be read. -/
theorem read_of_settled {t t' : FileTree} (h : Settled t t') {p : Path} {content : Bytes}
    (hr : t.read p = .ok content) :
    ∃ content', t'.read p = .ok content' ∧ t'.fileAt? (t.placeOf p) = some content' := by
  obtain ⟨place, hf⟩ := read_eq_ok.1 hr
  obtain ⟨node', hf', hkind⟩ := find_of_settled h hf
  cases node' with
  | directory entries => cases hkind
  | file content' =>
    have hr' := read_eq_ok.2 ⟨place, hf'⟩
    rw [← h.placeOf p]
    exact ⟨content', hr', fileAt?_of_read hr'⟩

/-- A file that was left alone is read as before. -/
theorem read_of_settled_of_fileAt? {t t' : FileTree} (h : Settled t t') {p : Path}
    (hsame : t'.fileAt? (t.placeOf p) = t.fileAt? (t.placeOf p)) {content : Bytes}
    (hr : t.read p = .ok content) : t'.read p = .ok content := by
  obtain ⟨content', hr', hat⟩ := read_of_settled h hr
  rw [hsame, fileAt?_of_read hr] at hat
  cases hat
  exact hr'

/-! ## Making directories -/

theorem newPlace_eq_ok {t : FileTree} {p : Path} {place : Place} {there : Option Node}
    (h : t.newPlace p = .ok (some (place, there))) :
    ∃ name above entries, (steps p).getLast? = some name ∧ place = name :: above ∧
      checkPath p = .ok () ∧ t.followFrom p (steps p).dropLast = .ok (above, .directory entries) ∧
      name ≠ "." ∧ name ≠ ".." ∧ name.utf8ByteSize ≤ maxNameLength ∧
      there = entries.lookup name := by
  unfold newPlace at h
  cases hc : checkPath p with
  | error e => rw [hc] at h; cases h
  | ok _ =>
    rw [hc] at h
    dsimp only [bind, Except.bind] at h
    cases hlast : (steps p).getLast? with
    | none => rw [hlast] at h; cases h
    | some name =>
      rw [hlast] at h
      cases hf : t.followFrom p (steps p).dropLast with
      | error e => rw [hf] at h; cases h
      | ok found =>
        obtain ⟨above, node⟩ := found
        rw [hf] at h
        cases node with
        | file content => cases h
        | directory entries =>
          change (if name = "." ∨ name = ".." then _ else _) = _ at h
          split at h
          · cases h
          rename_i hplain
          rw [not_or] at hplain
          split at h <;> cases h
          exact ⟨name, above, entries, rfl, rfl, rfl, rfl, hplain.1, hplain.2,
            Nat.le_of_not_lt (by assumption), rfl⟩

/-- The new place is that of the path, in a directory, and there is what the
lookup said. -/
theorem newPlace_place {t : FileTree} {p : Path} {place : Place} {there : Option Node}
    (h : t.newPlace p = .ok (some (place, there))) :
    place = t.placeOf p ∧ t.node? place = there ∧
      ∃ name above, place = name :: above ∧ t.HasDirectory above := by
  obtain ⟨name, above, entries, hlast, rfl, -, hf, hdot, hup, -, rfl⟩ := newPlace_eq_ok h
  obtain ⟨habove, hnode⟩ := followFrom_place hf
  refine ⟨?_, node?_cons_of_directory hnode, name, above, rfl, hasDirectory_iff.2 ⟨_, hnode⟩⟩
  obtain ⟨names, hnames⟩ := List.getLast?_eq_some_iff.1 hlast
  rw [hnames, List.dropLast_concat] at habove
  rw [placeOf, hnames, List.foldl_append, ← habove, List.foldl_cons, List.foldl_nil, stepFrom,
    if_neg hdot, if_neg hup]

/-- The tree with a directory where nothing was. -/
theorem sameFiles_set {t : FileTree} {name : String} {above : Place}
    (hdir : t.HasDirectory above) (hnone : t.node? (name :: above) = none) :
    SameFiles t (t.set (name :: above) (some (.directory []))) := by
  have hshape : ∀ place, (t.set (name :: above) (some (.directory []))).shape? place =
      if place = name :: above then some none else t.shape? place :=
    shape?_set hdir (by rw [hnone]; exact fun _ h => nomatch h) (.inl rfl)
  have hcontents : ∀ place, (t.set (name :: above) (some (.directory []))).fileAt? place =
      t.fileAt? place := by
    intro place
    unfold fileAt?
    rw [hshape]
    split
    · rename_i hp
      rw [hp, shape?, hnone]
      rfl
    · rfl
  refine ⟨⟨rfl, fun place hd => ?_, fun place hf => ?_⟩, hcontents⟩
  · unfold HasDirectory at hd ⊢
    rw [hshape]
    split
    · rfl
    · exact hd
  · rwa [hcontents]

theorem sameFiles_createDirectory (p : Path) : Keeps SameFiles (createDirectory p) := by
  intro t
  unfold leaves createDirectory
  split <;> rename_i heq <;> split at heq <;> cases heq
  · rename_i place h
    obtain ⟨-, hthere, name, above, rfl, hdir⟩ := newPlace_place h
    exact sameFiles_set hdir hthere
  · exact .refl t
  · exact .refl t

section CreateAll

variable {R : FileTree → FileTree → Prop}

/-- A failure that is forgiven because the directory is there changes nothing
about the tree. -/
theorem keeps_settle {t t' : FileTree} (h : R t t') (p : Path) (e : FileError) :
    R t (leaves (fun _ : FileTree => if t'.isDirectory p then .ok () t'
      else (.error e t' : EStateM.Result FileError FileTree Unit)) t) := by
  unfold leaves
  by_cases hd : t'.isDirectory p = true
  · rw [if_pos hd]
    exact h
  · rw [if_neg hd]
    exact h

variable [IsPreorder FileTree R]

/-- What making one directory keeps, making all those that are missing keeps. -/
theorem keeps_createAll (hmade : ∀ p, Keeps R (createDirectory p)) (levels : Nat) (p : Path) :
    Keeps R (createAll levels p) := by
  induction levels generalizing p with
  | zero => exact fun t => refl_of R t
  | succ levels ih =>
    intro t
    unfold leaves createAll
    by_cases hp : p.text = ""
    · rw [if_pos hp]
      exact refl_of R t
    rw [if_neg hp]
    dsimp only
    cases hc : createDirectory p t with
    | ok _ t₁ => exact (hmade p).ok hc
    | error e t₁ =>
      have h₁ := (hmade p).error hc
      cases e with
      | notFound =>
        dsimp only
        cases p.parent? with
        | none => exact h₁
        | some above =>
          dsimp only
          cases ha : createAll levels above t₁ with
          | error e t₂ => exact trans_of R h₁ ((ih above).error ha)
          | ok _ t₂ =>
            have h₂ := trans_of R h₁ ((ih above).ok ha)
            dsimp only
            cases hc₂ : createDirectory p t₂ with
            | ok _ t₃ => exact trans_of R h₂ ((hmade p).ok hc₂)
            | error e t₃ => exact keeps_settle (trans_of R h₂ ((hmade p).error hc₂)) p e
      | _ => exact keeps_settle h₁ p _

theorem keeps_createDirectories (hmade : ∀ p, Keeps R (createDirectory p)) (p : Path) :
    Keeps R (createDirectories p) :=
  keeps_createAll hmade _ p

end CreateAll

theorem sameFiles_createDirectories (p : Path) : Keeps SameFiles (createDirectories p) :=
  keeps_createDirectories sameFiles_createDirectory p

/-! ## Directories that are there -/

theorem isDirectory_iff {t : FileTree} {p : Path} :
    t.isDirectory p = true ↔ ∃ place entries, t.find p = .ok (place, .directory entries) := by
  unfold isDirectory
  cases t.find p with
  | error e => exact ⟨(nomatch ·), fun ⟨_, _, h⟩ => (nomatch h)⟩
  | ok found =>
    obtain ⟨place, node⟩ := found
    cases node with
    | directory entries => exact ⟨fun _ => ⟨place, entries, rfl⟩, fun _ => rfl⟩
    | file content => exact ⟨(nomatch ·), fun ⟨_, _, h⟩ => (nomatch h)⟩

theorem isDirectory_of_settled {t t' : FileTree} (h : Settled t t') {p : Path}
    (hp : t.isDirectory p = true) : t'.isDirectory p = true := by
  obtain ⟨place, entries, hf⟩ := isDirectory_iff.1 hp
  obtain ⟨node', hf', hkind⟩ := find_of_settled h hf
  cases node' with
  | directory entries' => exact isDirectory_iff.2 ⟨place, entries', hf'⟩
  | file content => cases hkind

/-- A path that leads somewhere names nothing new. -/
theorem newPlace_of_find {t : FileTree} {p : Path} {found : Place × Node}
    (h : t.find p = .ok found) :
    t.newPlace p = .ok none ∨ ∃ place node, t.newPlace p = .ok (some (place, some node)) := by
  obtain ⟨hp, hf, -⟩ := find_eq_ok.1 h
  unfold newPlace
  rw [hp]
  dsimp only [bind, Except.bind]
  cases hlast : (steps p).getLast? with
  | none => exact .inl rfl
  | some name =>
    obtain ⟨names, hnames⟩ := List.getLast?_eq_some_iff.1 hlast
    rw [hnames] at hf
    obtain ⟨above, node, habove, hf⟩ := followFrom_of_append hf
    rw [hnames, List.dropLast_concat, habove]
    cases node with
    | file content => cases hf
    | directory entries =>
      rw [follow] at hf
      dsimp only
      by_cases hdot : name = "."
      · rw [if_pos (.inl hdot)]
        exact .inl rfl
      by_cases hup : name = ".."
      · rw [if_pos (.inr hup)]
        exact .inl rfl
      rw [if_neg hdot, if_neg hup] at hf
      rw [if_neg (not_or.2 ⟨hdot, hup⟩)]
      split at hf
      · cases hf
      rw [if_neg (by assumption)]
      split at hf
      · cases hf
      · rename_i node hnode
        exact .inr ⟨name :: above, node, by rw [hnode]⟩

/-- A path that names something new leads to it once it is there. -/
theorem find_of_newPlace {t t' : FileTree} (h : Settled t t') {p : Path} {place : Place}
    {there : Option Node} (hnew : t.newPlace p = .ok (some (place, there))) {node : Node}
    (hnode : t'.node? place = some node)
    (hslash : endsInSlash p = true → node.isDirectory = true) :
    t'.find p = .ok (place, node) := by
  obtain ⟨name, above, entries, hlast, rfl, hp, hf, hdot, hup, hlen, -⟩ := newPlace_eq_ok hnew
  obtain ⟨names, hnames⟩ := List.getLast?_eq_some_iff.1 hlast
  rw [hnames, List.dropLast_concat] at hf
  obtain ⟨node', hf', hkind⟩ := followFrom_of_settled h hf
  cases node' with
  | file content => cases hkind
  | directory entries' =>
    rw [node?_cons_of_directory (followFrom_place hf').2] at hnode
    refine find_eq_ok.2 ⟨hp, ?_, hslash⟩
    rw [hnames, followFrom_append hf', follow, if_neg hdot, if_neg hup,
      if_neg (Nat.not_lt.2 hlen), hnode]
    rfl

/-- A directory that was made is there. -/
theorem isDirectory_of_createDirectory {t t' : FileTree} {p : Path}
    (h : createDirectory p t = .ok () t') : t'.isDirectory p = true := by
  unfold createDirectory at h
  split at h <;> cases h
  rename_i place hnew
  obtain ⟨-, hthere, name, above, rfl, hdir⟩ := newPlace_place hnew
  have hmade : (t.set (name :: above) (some (.directory []))).HasDirectory (name :: above) := by
    unfold HasDirectory
    rw [shape?_set hdir (by rw [hthere]; exact fun _ h => nomatch h) (.inl rfl), if_pos rfl]
    rfl
  obtain ⟨entries, hnode⟩ := hasDirectory_iff.1 hmade
  have hsettled := (sameFiles_set hdir hthere).toSettled
  exact isDirectory_iff.2 ⟨_, _, find_of_newPlace hsettled hnew hnode fun _ => rfl⟩

theorem isDirectory_of_createAll {t t' : FileTree} {levels : Nat} {p : Path}
    (h : createAll levels p t = .ok () t') : p.text = "" ∨ t'.isDirectory p = true := by
  cases levels with
  | zero => cases h
  | succ levels =>
    unfold createAll at h
    split at h
    · exact .inl (by assumption)
    refine .inr ?_
    dsimp only at h
    split at h
    · split at h
      · cases h
      · split at h
        · split at h
          · cases h
            exact isDirectory_of_createDirectory (by assumption)
          · split at h <;> cases h
            assumption
        · cases h
    · split at h
      · cases h
        exact isDirectory_of_createDirectory (by assumption)
      · split at h <;> cases h
        assumption

/-- A directory that was made, with those above it, is there. -/
theorem isDirectory_of_createDirectories {t t' : FileTree} {p : Path}
    (h : createDirectories p t = .ok () t') : p.text = "" ∨ t'.isDirectory p = true :=
  isDirectory_of_createAll h

/-- To make a directory that is there is no work. -/
theorem createDirectories_of_isDirectory {t : FileTree} {p : Path} (h : t.isDirectory p = true) :
    createDirectories p t = .ok () t := by
  obtain ⟨place, entries, hf⟩ := isDirectory_iff.1 h
  have hthere : createDirectory p t = .error .alreadyExists t := by
    unfold createDirectory
    rcases newPlace_of_find hf with hnew | ⟨place, node, hnew⟩ <;> rw [hnew]
  unfold createDirectories createAll
  split
  · rfl
  · dsimp only
    rw [hthere]
    dsimp only
    rw [if_pos h]

/-! ## Writing files -/

/-- Writing a file changes the file at its place and no other, and whoever
reads it gets what was written. -/
theorem write_eq_ok {p : Path} {content : Bytes} {t t' : FileTree}
    (h : write p content t = .ok () t') :
    Settled t t' ∧ t'.read p = .ok content ∧
      ∀ place, t'.fileAt? place =
        if place = t.placeOf p then some content else t.fileAt? place := by
  unfold write at h
  split at h
  · cases h
  · cases h
  rename_i place there hplace
  split at h <;> cases h
  rename_i hfree
  rw [Bool.or_eq_true, not_or] at hfree
  obtain ⟨hof, hthere, name, above, rfl, hdir⟩ := newPlace_place hplace
  have hold : ∀ entries, t.node? (name :: above) ≠ some (.directory entries) := by
    intro entries he
    rw [← hthere, he] at hfree
    exact hfree.2 rfl
  have hshape : ∀ place, (t.set (name :: above) (some (.file content))).shape? place =
      if place = name :: above then some (some content) else t.shape? place :=
    shape?_set hdir hold (.inr ⟨content, rfl⟩)
  have hfiles : ∀ place, (t.set (name :: above) (some (.file content))).fileAt? place =
      if place = name :: above then some content else t.fileAt? place := by
    intro place
    unfold fileAt?
    rw [hshape]
    split <;> rfl
  have hsettled : Settled t (t.set (name :: above) (some (.file content))) := by
    refine ⟨rfl, fun place hd => ?_, fun place hf => ?_⟩
    · unfold HasDirectory
      rw [hshape, if_neg]
      · exact hd
      · rintro rfl
        obtain ⟨entries, he⟩ := hasDirectory_iff.1 hd
        exact hold entries he
    · rw [hfiles]
      split
      · rfl
      · exact hf
  refine ⟨hsettled, ?_, by rwa [← hof]⟩
  have hnode := fileAt?_eq_some_iff.1 ((hfiles (name :: above)).trans (if_pos rfl))
  exact read_eq_ok.2 ⟨_, find_of_newPlace hsettled hplace hnode fun hs => absurd hs hfree.1⟩

/-- A file that could not be written leaves the tree alone. -/
theorem write_eq_error {p : Path} {content : Bytes} {t t' : FileTree} {e : FileError}
    (h : write p content t = .error e t') : t' = t := by
  unfold write at h
  split at h
  · cases h; rfl
  · cases h; rfl
  · split at h <;> cases h
    rfl

end ClassStamp.FileTree
