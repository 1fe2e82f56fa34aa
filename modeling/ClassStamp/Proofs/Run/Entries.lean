import ClassStamp.Proofs.Run.Completion

/-!
# Runs entry by entry

What is in the directory of the input is all that a pass depends on to know where to go. If
its entries are known, in order, the pass is one step after the other for these.

* `kinds`: the entries of a directory;
* `walk_of_kinds`: a walk over it;
* `run_of_kinds`: the run of one transformer, and `outcomes_stateBehind`: what it says on the
  way it says in the end;
* `behindFirstPass_mem_moments`: the moment of a run behind its first pass.
-/

namespace ClassStamp.Run

/-- What is said of each class. -/
def told (s : State) : List (String × ClassName × OutcomeState) :=
  s.report.outcomes.map fun o => (o.transformer, o.name, o.state)

theorem mem_told {s : State} {x : String × ClassName × OutcomeState} (h : x ∈ told s) :
    ∃ o ∈ s.report.outcomes, o.transformer = x.1 ∧ o.name = x.2.1 ∧ o.state = x.2.2 := by
  obtain ⟨o, ho, rfl⟩ := List.mem_map.1 h
  exact ⟨o, ho, rfl, rfl, rfl⟩

/-! ## Directories -/

/-- The names in the directory at a path, each with whether it is a directory. -/
def kinds (t : FileTree) (p : Path) : Option (List (String × Bool)) :=
  match t.find p with
  | .ok (_, .directory entries) => some (entries.map fun e => (e.1, e.2.isDirectory))
  | _ => none

theorem list_of_kinds {t : FileTree} {p : Path} {es : List (String × Bool)}
    (h : kinds t p = some es) (horder : es.Pairwise fun e e' => ¬ e'.1 < e.1) :
    ∃ entries, t.list p = .ok entries ∧ entries.map (fun e => (e.1, e.2.isDirectory)) = es := by
  unfold kinds at h
  split at h
  · rename_i place entries hfind
    obtain rfl := Option.some.inj h
    refine ⟨entries, ?_, rfl⟩
    rw [FileTree.list, hfind]
    refine congrArg Except.ok (List.mergeSort_of_pairwise ?_)
    refine (List.pairwise_map.1 horder).imp fun hle => ?_
    simpa using hle
  · cases h

section Walks

variable {σ : Type} {files : σ → FileTree} {visit : ClassName → σ → σ} {root : Path} {s : σ}
  {P : σ → Prop}

/-- A walk over a directory whose entries are in order. -/
theorem walkBelow_of_kinds {visit : Option (Path × String) → σ → σ} {depth : Nat}
    {directory : Path} {es : List (String × Bool)} (h : kinds (files s) directory = some es)
    (horder : es.Pairwise fun e e' => ¬ e'.1 < e.1) :
    walkBelow files visit (depth + 1) directory s = es.foldl (fun s e =>
      if e.2 then walkBelow files visit depth (directory.join ⟨e.1⟩) s
      else visit (some (directory.join ⟨e.1⟩, e.1)) s) s := by
  obtain ⟨entries, hlist, hes⟩ := list_of_kinds h horder
  rw [walkBelow, hlist, ← hes, List.foldl_map]

/-- What a pass does about one file. -/
def visitFile (visit : ClassName → σ → σ) (root : Path) : Option (Path × String) → σ → σ
  | none => id
  | some (path, name) =>
    if isClassFile name then
      match (ClassName.ofPathBelow? root path).toOption with
      | none => id
      | some n => visit n
    else id

/-- What a pass does about one entry of the directory that it walks over. -/
def visitEntry (files : σ → FileTree) (visit : ClassName → σ → σ) (root : Path) (s : σ)
    (e : String × Bool) : σ :=
  if e.2 then
    walkBelow files (visitFile visit root) (FileTree.maxPathLength - 1) (root.join ⟨e.1⟩) s
  else visitFile visit root (some (root.join ⟨e.1⟩, e.1)) s

theorem walk_of_kinds {es : List (String × Bool)} (h : kinds (files s) root = some es)
    (horder : es.Pairwise fun e e' => ¬ e'.1 < e.1) :
    walk files root (fun | none => id | some n => visit n) s =
      es.foldl (visitEntry files visit root) s := by
  have hdepth : FileTree.maxPathLength = FileTree.maxPathLength - 1 + 1 := by decide
  let everything := walkBelow files (visitFile visit root) FileTree.maxPathLength root s
  have hwalk : walk files root (fun | none => id | some n => visit n) s = everything := by
    unfold walk
    congr 1
  rw [hwalk]
  dsimp only [everything]
  rw [hdepth, walkBelow_of_kinds h horder]
  rfl

theorem visitFile_keeps (hvisit : ∀ n s, P s → P (visit n s)) (what : Option (Path × String))
    (s : σ) (h : P s) : P (visitFile visit root what s) := by
  cases what with
  | none => exact h
  | some found =>
    unfold visitFile
    dsimp only
    split
    · cases (ClassName.ofPathBelow? root found.1).toOption with
      | none => exact h
      | some n => exact hvisit n s h
    · exact h

/-- What every visit keeps, what is done about an entry keeps. -/
theorem visitEntry_keeps (hvisit : ∀ n s, P s → P (visit n s)) (e : String × Bool) (h : P s) :
    P (visitEntry files visit root s e) := by
  unfold visitEntry
  split
  · exact walkBelow_keeps (visitFile_keeps hvisit) _ _ h
  · exact visitFile_keeps hvisit _ s h

end Walks

/-! ## Runs -/

section Runs

variable {step : Pass → ClassName → State → State} {config : Config} {t : Transformer}
  {ambient : List Path} {files : FileTree} {input : Path} {es : List (String × Bool)}

/-- The run of one transformer behind some entries of the directory of the input. -/
def stateBehind (step : Pass → ClassName → State → State) (config : Config) (t : Transformer)
    (ambient : List Path) (files : FileTree) (input : Path) (es : List (String × Bool)) : State :=
  let p : Pass :=
    { position := 0, transformer := t, output := ⟨config.outputDirectory?.getD input⟩ }
  es.foldl (visitEntry State.files (step p) input)
    (.start files (.ofEntries (config.entries input ambient)))

/-- A run over a directory whose entries are known leaves what is behind the last one. -/
theorem run_of_kinds (hin : config.inputDirectory? = some input) (hout : config.output = none)
    (hroot : files.isDirectory input = true)
    (hchecks : ∀ e ∈ config.entries input ambient, e.check files = .ok ())
    (h : kinds files input = some es) (horder : es.Pairwise fun e e' => ¬ e'.1 < e.1) :
    let s := stateBehind step config t ambient files input es
    (run step config [t] ambient files).report = .ok s.report ∧
      (run step config [t] ambient files).files = s.files := by
  have hsetup := setUp_of_directories (List.cons_ne_nil t []) hin hroot hchecks
    fun output h => by rw [hout] at h; cases h
  have hpass : passOver step input (passes [t] ⟨config.outputDirectory?.getD input⟩)
      (.start files (.ofEntries (config.entries input ambient))) =
        .ok () (stateBehind step config t ambient files input es) := by
    rw [passes, List.zipIdx_singleton, List.map_singleton, passOver]
    dsimp only [State.start]
    rw [checkRoot_eq_ok_iff.2 hroot]
    exact congrArg (EStateM.Result.ok ()) (walk_of_kinds h horder)
  rw [run, hsetup]
  dsimp only
  rw [hpass]
  exact ⟨rfl, rfl⟩

/-- What is said behind the first entry is said in the end, if steps keep what is said. -/
theorem outcomes_stateBehind {o : Outcome} {e : String × Bool}
    (hstep : ∀ p n s, s.report.outcomes ⊆ (step p n s).report.outcomes)
    (ho : o ∈ (stateBehind step config t ambient files input [e]).report.outcomes) :
    o ∈ (stateBehind step config t ambient files input (e :: es)).report.outcomes := by
  let P : State → Prop := fun s => o ∈ s.report.outcomes
  exact foldl_keeps (P := P)
    (fun s e => visitEntry_keeps (P := P) (fun n s hs => hstep _ n s hs) e) es ho

/-- What is behind the first pass over a directory whose entries are known is a moment of the
run. -/
theorem behindFirstPass_mem_moments (step : Pass → ClassName → State → State)
    {transformers : List Transformer} {p : Pass} {rest : List Pass} {setup : Setup}
    {files' : FileTree}
    (hs : setUp config transformers ambient files = .ok (some setup) files')
    (hpasses : passes transformers setup.output = p :: rest)
    (hroot : files'.isDirectory setup.input = true) (h : kinds files' setup.input = some es)
    (horder : es.Pairwise fun e e' => ¬ e'.1 < e.1) :
    es.foldl (visitEntry State.files (step p) setup.input) (.start files' setup.context) ∈
      moments step config transformers ambient files := by
  have hpass : es.foldl (visitEntry State.files (step p) setup.input)
      (.start files' setup.context) =
        (sweep (step p) setup.input (.start files' setup.context)).2 := by
    have hkinds : kinds (State.start files' setup.context).files setup.input = some es := h
    refine (walk_of_kinds hkinds horder).symm.trans (Eq.trans ?_ (walk_eq_sweep _ _ _))
    congr 1
  rw [hpass]
  exact sweep_mem_moments hs hpasses (checkRoot_eq_ok_iff.2 hroot)

end Runs

end ClassStamp.Run
