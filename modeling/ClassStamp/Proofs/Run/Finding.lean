import ClassStamp.Proofs.ClassName.Forms
import ClassStamp.Proofs.FileTree.SoundEdits
import ClassStamp.Proofs.Run.Locating

/-!
# What the passes of a run find

Each pass of a run walks over the input while its steps write there. As long as these
write nothing but the files of classes that were found, each at the place that its name
spells below the input, every pass finds just the classes that were there when the run
began: a file that is new has the name of a class that was found before.

* `Reachable`: the ways that a walk may go, whatever the files are, and `Finds`: the
  classes that it finds then;
* `walk_keeps_found`, `walk_finds`: a walk over files that change meanwhile;
* `Overwritten`: what became of the files, and `Overwritten.finds_iff`;
* `legs_find`: the passes of a run.
-/

namespace ClassStamp

namespace Run

open FileTree (IsEntryName Settled maxPathLength)

variable {root : Path} {way : List String} {name : String} {n : ClassName}
  {t files : FileTree}

/-! ## Ways of a walk -/

/-- A walk below the root gets to the end of the way if the directories on it are there:
their paths are not too long, and they are not too many. -/
structure Reachable (root : Path) (way : List String) : Prop where
  names : ∀ name ∈ way, IsEntryName name
  above : ∀ above, above <+: way → above ≠ way →
    (root.below above).text.utf8ByteSize ≤ maxPathLength
  shallow : way.length ≤ maxPathLength

theorem reachable_nil (root : Path) : Reachable root [] where
  names _ hname := nomatch hname
  above _ habove hne := absurd (List.prefix_nil.1 habove) hne
  shallow := Nat.zero_le _

/-- One name further. -/
theorem Reachable.concat (h : Reachable root way)
    (hshort : (root.below way).text.utf8ByteSize ≤ maxPathLength)
    (hshallow : way.length < maxPathLength) (hname : IsEntryName name) :
    Reachable root (way ++ [name]) where
  names := List.forall_mem_append.2 ⟨h.names, List.forall_mem_singleton.2 hname⟩
  above above habove hne := by
    have hprefix := (List.prefix_concat_iff.1 habove).resolve_left hne
    by_cases hsame : above = way
    · exact hsame ▸ hshort
    · exact h.above above hprefix hsame
  shallow := by
    rw [List.length_append, List.length_singleton]
    exact hshallow

/-- A walk over the files below the root finds the class. -/
def Finds (files : FileTree) (root : Path) (n : ClassName) : Prop :=
  ∃ way, Reachable root way ∧ nameOf? root way = some n ∧
    (files.fileAt? (way.reverse ++ files.placeOf root)).isSome = true

/-- The way that the name of a class spells leads back to the name. -/
theorem nameOf?_fileNames {m : ClassName} (h : nameOf? root n.fileNames = some m) : m = n := by
  have hpath : root.below n.fileNames = root.join n.relativePath := by
    rw [Path.below_eq_join root n.fileNames_ne_nil fun _ => ClassName.isName_of_mem_fileNames,
      ClassName.relativePath_eq_spelled]
  unfold nameOf? at h
  split at h
  · rw [hpath, ClassName.ofPathBelow?_join] at h
    exact (Option.some.inj h).symm
  · cases h

/-! ## Walks over files that change -/

section Walks

variable {σ : Type} {filesOf : σ → FileTree} {P Q : σ → Prop} {s : σ} {depth : Nat}

/-- What visits keep that are to files on reachable ways, each of which was there at some
moment of the walk, holds behind the walk. -/
theorem walkBelow_keeps_reached {visit : Option (Path × String) → σ → σ}
    (hsound : ∀ s, P s → (filesOf s).Sound) (hnone : ∀ s, P s → P (visit none s))
    (hvisit : ∀ s₀ s way, P s₀ → P s → Reachable root way →
      ((filesOf s₀).fileAt? (way.reverse ++ (filesOf s₀).placeOf root)).isSome = true →
        P (visit (some (pathAndName root way)) s))
    (hway : Reachable root way) (hdepth : way.length + depth = maxPathLength) (h : P s) :
    P (walkBelow filesOf visit depth (root.below way) s) := by
  induction depth generalizing way s with
  | zero => exact h
  | succ depth ih =>
    rw [walkBelow]
    cases hlist : (filesOf s).list (root.below way) with
    | error e => exact hnone s h
    | ok entries =>
      have hentries := ((hsound s h).list_below hway.names hlist).2
      refine List.foldlRecOn entries _ h fun s' hs' e he => ?_
      obtain ⟨hname, hnode⟩ := hentries e.1 e.2 he
      have hnext : Reachable root (way ++ [e.1]) :=
        hway.concat (FileTree.short_of_list hlist) (by omega) hname
      dsimp only
      rw [← Path.below_concat]
      cases hkind : e.2.isDirectory with
      | true =>
        rw [if_pos rfl]
        exact ih hnext (by rw [List.length_append, List.length_singleton]; omega) hs'
      | false =>
        obtain ⟨content, hcontent⟩ : ∃ content, e.2 = .file content := by
          cases hentry : e.2 with
          | file content => exact ⟨content, rfl⟩
          | directory inside =>
            rw [hentry] at hkind
            cases hkind
        rw [hcontent] at hnode
        have hvisited := hvisit s s' _ h hs' hnext
          (by rw [FileTree.fileAt?_eq_some_iff.2 hnode]; rfl)
        rw [pathAndName, List.getLastD_concat] at hvisited
        rw [if_neg Bool.false_ne_true]
        exact hvisited

/-- What leads on to a file that is there is still listed, a directory as a directory, while
everything stays where it is. -/
theorem listed_of_settled {goal rest : List String} (hsettled : Settled t files)
    (hroot : t.isDirectory root = true) (hgoal : Reachable root goal)
    (hfile : (t.fileAt? (goal.reverse ++ t.placeOf root)).isSome = true)
    (hsplit : goal = way ++ name :: rest) :
    ∃ entries next, files.list (root.below way) = .ok entries ∧ (name, next) ∈ entries ∧
      next.isDirectory = !rest.isEmpty := by
  have hnames : ∀ s ∈ way, IsEntryName s := fun s hs =>
    hgoal.names s (hsplit ▸ List.mem_append_left _ hs)
  have hshort : (root.below way).text.utf8ByteSize ≤ maxPathLength := by
    refine hgoal.above way ?_ fun he => ?_
    · rw [hsplit]
      exact List.prefix_append way _
    · rw [hsplit] at he
      exact List.cons_ne_nil name rest (List.self_eq_append_right.1 he)
  -- what the way leads to from the start
  obtain ⟨content, hcontent⟩ := Option.isSome_iff_exists.1 hfile
  have hnode := FileTree.fileAt?_eq_some_iff.1 hcontent
  rw [hsplit, List.reverse_append, List.append_assoc, FileTree.node?_append,
    List.reverse_reverse] at hnode
  obtain ⟨here, hhere, hbelow⟩ := Option.bind_eq_some_iff.1 hnode
  cases here with
  | file content => cases hbelow
  | directory entries =>
  rw [FileTree.below?_directory_cons] at hbelow
  obtain ⟨next, hnext, hbelow⟩ := Option.bind_eq_some_iff.1 hbelow
  rw [← FileTree.node?_cons_of_directory hhere] at hnext
  have hkind : next.isDirectory = !rest.isEmpty := by
    cases rest with
    | nil =>
      cases hbelow
      rfl
    | cons name' rest =>
      cases next with
      | file content => cases hbelow
      | directory inside => rfl
  -- it is still there
  obtain ⟨node', hfind, hsame⟩ := FileTree.find_of_settled hsettled
    (FileTree.find_below hroot hnames hshort hhere)
  cases node' with
  | file content => cases hsame
  | directory entries' =>
  obtain ⟨next', hnext', hsame⟩ := hsettled.node? hnext
  rw [FileTree.node?_cons_of_directory (FileTree.find_place hfind).2] at hnext'
  refine ⟨entries'.mergeSort fun a b => !decide (b.1 < a.1), next', ?_, ?_, hsame.trans hkind⟩
  · rw [FileTree.list, hfind]
    rfl
  · obtain ⟨before, after, he, -⟩ := List.lookup_eq_some_iff.1 hnext'
    rw [List.mem_mergeSort, he]
    exact List.mem_append_right _ List.mem_cons_self

/-- What one of the entries brings about, and the other ones keep, holds behind all. -/
theorem foldl_reaches {α : Type} {step : σ → α → σ} {entries : List α} {e : α}
    (hP : ∀ s a, P s → P (step s a)) (hQ : ∀ s a, P s → Q s → Q (step s a))
    (hhit : ∀ s, P s → Q (step s e)) (he : e ∈ entries) (h : P s) :
    Q (entries.foldl step s) := by
  obtain ⟨before, after, rfl⟩ := List.append_of_mem he
  rw [List.foldl_append, List.foldl_cons]
  have hbefore : P (before.foldl step s) := foldl_keeps hP before h
  exact (foldl_keeps (P := fun s => P s ∧ Q s)
    (fun s a hs => ⟨hP s a hs.1, hQ s a hs.1 hs.2⟩) after ⟨hP _ e hbefore, hhit _ hbefore⟩).2

/-- If everything stays where it is, a walk comes to a file that is there from the start,
and what is true from then on holds behind the walk. -/
theorem walkBelow_reaches {visit : Option (Path × String) → σ → σ} {goal rest : List String}
    (hP : ∀ what s, P s → P (visit what s)) (hsettled : ∀ s, P s → Settled t (filesOf s))
    (hQ : ∀ what s, P s → Q s → Q (visit what s))
    (hhit : ∀ s, P s → Q (visit (some (pathAndName root goal)) s))
    (hroot : t.isDirectory root = true) (hgoal : Reachable root goal)
    (hfile : (t.fileAt? (goal.reverse ++ t.placeOf root)).isSome = true)
    (hsplit : goal = way ++ name :: rest) (hdepth : way.length + depth = maxPathLength)
    (h : P s) : Q (walkBelow filesOf visit depth (root.below way) s) := by
  induction depth generalizing way name rest s with
  | zero =>
    have hshallow := hgoal.shallow
    rw [hsplit, List.length_append, List.length_cons] at hshallow
    omega
  | succ depth ih =>
    obtain ⟨entries, next, hlist, hmem, hkind⟩ :=
      listed_of_settled (hsettled s h) hroot hgoal hfile hsplit
    have hkept : ∀ what s, P s ∧ Q s → P (visit what s) ∧ Q (visit what s) :=
      fun what s hs => ⟨hP what s hs.1, hQ what s hs.1 hs.2⟩
    rw [walkBelow, hlist]
    refine foldl_reaches (P := P) (fun s e hs => ?_) (fun s e hs hq => ?_) (fun s hs => ?_) hmem h
    · dsimp only
      split
      · exact walkBelow_keeps hP _ _ hs
      · exact hP _ s hs
    · dsimp only
      split
      · exact (walkBelow_keeps hkept _ _ ⟨hs, hq⟩).2
      · exact hQ _ s hs hq
    · dsimp only
      rw [← Path.below_concat, hkind]
      cases rest with
      | nil =>
        have hgoal := hhit s hs
        rw [hsplit, pathAndName, List.getLastD_concat] at hgoal
        exact hgoal
      | cons name' rest =>
        have hsplit' : goal = (way ++ [name]) ++ name' :: rest := by
          rw [hsplit, List.append_assoc]
          rfl
        refine ih hsplit' ?_ hs
        rw [List.length_append, List.length_singleton]
        omega

variable {visit : Option ClassName → σ → σ}

/-- What visits keep that are to classes that can be found at some moment of the walk, holds
behind the walk. -/
theorem walk_keeps_found (hsound : ∀ s, P s → (filesOf s).Sound)
    (hnone : ∀ s, P s → P (visit none s))
    (hvisit : ∀ s₀ s n, P s₀ → P s → Finds (filesOf s₀) root n → P (visit (some n) s))
    (h : P s) : P (walk filesOf root visit s) := by
  unfold walk
  show P (walkBelow filesOf _ maxPathLength (root.below []) s)
  refine walkBelow_keeps_reached hsound hnone (fun s₀ s way hs₀ hs hway hfile => ?_)
    (reachable_nil root) (Nat.zero_add _) h
  have hnamed : ∀ n, nameOf? root way = some n → Finds (filesOf s₀) root n :=
    fun n hn => ⟨way, hway, hn, hfile⟩
  unfold nameOf? at hnamed
  dsimp only [pathAndName]
  split
  · rename_i hclass
    rw [if_pos hclass] at hnamed
    cases hname : (ClassName.ofPathBelow? root (root.below way)).toOption with
    | none => exact hnone s hs
    | some n => exact hvisit s₀ s n hs₀ hs (hnamed n hname)
  · exact hs

/-- If everything stays where it is, a walk finds the classes that are there from the
start. -/
theorem walk_finds (hP : ∀ name s, P s → P (visit name s))
    (hsettled : ∀ s, P s → Settled t (filesOf s))
    (hQ : ∀ name s, P s → Q s → Q (visit name s)) (hhit : ∀ s, P s → Q (visit (some n) s))
    (hroot : t.isDirectory root = true) (hn : Finds t root n) (h : P s) :
    Q (walk filesOf root visit s) := by
  obtain ⟨way, hway, hname, hfile⟩ := hn
  obtain ⟨first, rest, rfl⟩ : ∃ first rest, way = first :: rest := by
    cases way with
    | nil => cases hname
    | cons first rest => exact ⟨first, rest, rfl⟩
  unfold walk
  show Q (walkBelow filesOf _ maxPathLength (root.below []) s)
  refine walkBelow_reaches (P := P) (Q := Q) (fun what s hs => ?_) hsettled
    (fun what s hs hs' => ?_) (fun s hs => ?_) hroot hway hfile (List.nil_append _).symm
    (Nat.zero_add _) h
  · cases what with
    | none => exact hP none s hs
    | some found =>
      dsimp only
      split
      · exact hP _ s hs
      · exact hs
  · cases what with
    | none => exact hQ none s hs hs'
    | some found =>
      dsimp only
      split
      · exact hQ _ s hs hs'
      · exact hs'
  · unfold nameOf? at hname
    dsimp only [pathAndName]
    split at hname
    · rename_i hclass
      rw [if_pos hclass, hname]
      exact hhit s hs
    · cases hname

end Walks

/-- The names that a walk lists are those of the classes that it finds. -/
theorem mem_candidates_iff (hsound : files.Sound) {names : List ClassName}
    (h : candidates files root = .ok names) : n ∈ names ↔ Finds files root n := by
  unfold candidates locate at h
  cases hroot : checkRoot files root with
  | error e =>
    rw [hroot] at h
    cases h
  | ok _ =>
    rw [hroot] at h
    cases h
    rw [List.mem_filterMap]
    simp only [List.mem_reverse, id_eq, exists_eq_right]
    constructor
    · refine walk_keeps_found (P := fun names => some n ∈ names → Finds files root n)
        (fun _ _ => hsound) (fun names hs hmem => hs ?_) (fun _ names m _ hs hm hmem => ?_)
        fun hmem => nomatch hmem
      · exact (List.mem_cons.1 hmem).resolve_left fun he => nomatch he
      · rcases List.mem_cons.1 hmem with he | hmem
        · exact Option.some.inj he ▸ hm
        · exact hs hmem
    · exact fun hn => walk_finds (P := fun _ => True) (Q := fun names => some n ∈ names)
        (fun _ _ _ => trivial) (fun _ _ => .refl files)
        (fun _ _ _ hs => List.mem_cons_of_mem _ hs) (fun _ _ => List.mem_cons_self)
        (checkRoot_eq_ok_iff.1 hroot) hn trivial

/-! ## Files that are overwritten -/

/-- The files differ from the earlier ones in files of classes only that a walk over these
finds, each at the place that the name of the class spells. -/
structure Overwritten (t : FileTree) (root : Path) (files : FileTree) : Prop where
  settled : Settled t files
  sound : files.Sound
  changed : ∀ place, files.fileAt? place ≠ t.fileAt? place →
    ∃ n, Finds t root n ∧ place = n.fileNames.reverse ++ t.placeOf root

theorem Overwritten.refl (hsound : t.Sound) (root : Path) : Overwritten t root t :=
  ⟨.refl t, hsound, fun _ hne => absurd rfl hne⟩

/-- A walk over files that were overwritten finds the same classes as before. -/
theorem Overwritten.finds_iff (h : Overwritten t root files) :
    Finds files root n ↔ Finds t root n := by
  constructor
  · rintro ⟨way, hway, hname, hfile⟩
    rw [h.settled.placeOf] at hfile
    by_cases hsame : files.fileAt? (way.reverse ++ t.placeOf root) =
        t.fileAt? (way.reverse ++ t.placeOf root)
    · rw [hsame] at hfile
      exact ⟨way, hway, hname, hfile⟩
    · -- the file is that of a class that was found, which is what the walk calls it
      obtain ⟨m, hm, hplace⟩ := h.changed _ hsame
      rw [List.reverse_inj.1 (List.append_cancel_right hplace)] at hname
      rwa [nameOf?_fileNames hname]
  · rintro ⟨way, hway, hname, hfile⟩
    refine ⟨way, hway, hname, ?_⟩
    rw [h.settled.placeOf]
    exact h.settled.files _ hfile

/-! ## Passes -/

section Passes

variable {input : Path} {P : State → Prop} {s : State}

/-- A walk whose steps overwrite what was found, finds what was there. -/
theorem sweep_finds {step : ClassName → State → State}
    (hover : ∀ s, P s → Overwritten t input s.files)
    (hsettled : ∀ n s, Settled s.files (step n s).files)
    (hstep : ∀ n s, Finds t input n → P s → P (step n s))
    (hroot : t.isDirectory input = true) (h : P s) :
    (∀ n, n ∈ (sweep step input s).1 ↔ Finds t input n) ∧ P (sweep step input s).2 := by
  let Found : List ClassName × State → Prop := fun x => (∀ n ∈ x.1, Finds t input n) ∧ P x.2
  have hfound : Found (sweep step input s) := by
    unfold sweep
    refine walk_keeps_found (P := Found) (fun x hx => (hover x.2 hx.2).sound) (fun x hx => hx)
      (fun x₀ x n hx₀ hx hn => ?_) (show Found ([], s) from ⟨fun n hn => (nomatch hn), h⟩)
    have hn := (hover x₀.2 hx₀.2).finds_iff.1 hn
    show Found (x.1 ++ [n], step n x.2)
    exact ⟨List.forall_mem_append.2 ⟨hx.1, List.forall_mem_singleton.2 hn⟩, hstep n x.2 hn hx.2⟩
  refine ⟨fun n => ⟨hfound.1 n, fun hn => ?_⟩, hfound.2⟩
  let Kept : List ClassName × State → Prop := fun x => Settled t x.2.files
  let Has : List ClassName × State → Prop := fun x => n ∈ x.1
  show Has (sweep step input s)
  unfold sweep
  refine walk_finds (P := Kept) (Q := Has) (fun name x hx => ?_) (fun x hx => hx)
    (fun name x _ hx => ?_) (fun x _ => ?_) hroot hn (show Kept ([], s) from (hover s h).settled)
  · cases name with
    | none => exact hx
    | some m => exact hx.trans (hsettled m x.2)
  · cases name with
    | none => exact hx
    | some m => exact List.mem_append_left [m] hx
  · exact List.mem_append_right x.1 (List.mem_singleton_self n)

/-- Every pass of a run whose steps overwrite what was found, finds what was there when the
run began. -/
theorem legs_find {step : Pass → ClassName → State → State} {ps : List Pass}
    (hover : ∀ s, P s → Overwritten t input s.files)
    (hsettled : ∀ p n s, Settled s.files (step p n s).files)
    (hstep : ∀ p ∈ ps, ∀ n s, Finds t input n → P s → P (step p n s))
    (hroot : t.isDirectory input = true) (h : P s) :
    (∀ l ∈ legs step input ps s, ∀ n, n ∈ l.found ↔ Finds t input n) ∧
      P (leaves (passOver step input ps) s) := by
  induction ps generalizing s with
  | nil => exact ⟨fun l hl => (nomatch hl), h⟩
  | cons p ps ih =>
    obtain ⟨hp, hps⟩ := List.forall_mem_cons.1 hstep
    obtain ⟨hfound, hbehind⟩ := sweep_finds hover (hsettled p) hp hroot h
    obtain ⟨hrest, hend⟩ := ih hps hbehind
    have hcheck : checkRoot s.files input = .ok () :=
      checkRoot_eq_ok_iff.2 (FileTree.isDirectory_of_settled (hover s h).settled hroot)
    rw [legs, hcheck]
    unfold leaves at hend ⊢
    rw [passOver_cons, hcheck]
    exact ⟨List.forall_mem_cons.2 ⟨hfound, hrest⟩, hend⟩

end Passes

end Run

end ClassStamp
