import ClassStamp.Proofs.Run.Execution

/-!
# The steps of a run

A run takes one step after the other. For which classes it does so depends on
the files, which the steps change, so the walks of a run are repeated here with
a record of what they find.

* `legs`: what each pass finds, in order; `leaves_passOver`: the passes leave
  what the steps for these classes lead to;
* `moments`: the states before, between and behind the steps of a run, and
  `moments_keep`: what holds at all of them.
-/

namespace ClassStamp.Run

/-! ## Walks with a record -/

section Map

variable {σ τ : Type} {f : σ → τ} {files : σ → FileTree} {files' : τ → FileTree}

theorem map_foldl {α : Type} {step : σ → α → σ} {step' : τ → α → τ}
    (hstep : ∀ s a, f (step s a) = step' (f s) a) (as : List α) (s : σ) :
    f (as.foldl step s) = as.foldl step' (f s) := by
  induction as generalizing s with
  | nil => rfl
  | cons a as ih => rw [List.foldl_cons, List.foldl_cons, ih, hstep]

theorem map_walkBelow {visit : Option (Path × String) → σ → σ}
    {visit' : Option (Path × String) → τ → τ} (hfiles : ∀ s, files' (f s) = files s)
    (hvisit : ∀ what s, f (visit what s) = visit' what (f s)) (depth : Nat) (directory : Path)
    (s : σ) :
    f (walkBelow files visit depth directory s) =
      walkBelow files' visit' depth directory (f s) := by
  induction depth generalizing directory s with
  | zero => rfl
  | succ depth ih =>
    unfold walkBelow
    rw [hfiles]
    split
    · exact hvisit none s
    · refine map_foldl (fun s entry => ?_) _ s
      dsimp only
      split
      · exact ih _ s
      · exact hvisit _ s

/-- Two walks whose visits do the same in two kinds of state do the same as a
whole. -/
theorem map_walk {visit : Option ClassName → σ → σ} {visit' : Option ClassName → τ → τ}
    (hfiles : ∀ s, files' (f s) = files s)
    (hvisit : ∀ name s, f (visit name s) = visit' name (f s)) (root : Path) (s : σ) :
    f (walk files root visit s) = walk files' root visit' (f s) := by
  unfold walk
  refine map_walkBelow hfiles (fun what s => ?_) _ root s
  cases what with
  | none => exact hvisit none s
  | some found =>
    dsimp only
    split
    · exact hvisit _ s
    · rfl

end Map

/-- The part of a run that one pass is. -/
structure Leg where
  /-- The pass. -/
  pass : Pass
  /-- The classes that its walk found, in order. -/
  found : List ClassName

/-- The steps of a part of a run, each with the class it was for. -/
def Leg.visits (l : Leg) : List (Pass × ClassName) := l.found.map fun n => (l.pass, n)

/-- Walks over the input, takes a step for each class, and records the
classes. -/
def sweep (step : ClassName → State → State) (input : Path) (s : State) :
    List ClassName × State :=
  let visit : Option ClassName → List ClassName × State → List ClassName × State
    | none => id
    | some n => fun (found, s) => (found ++ [n], step n s)
  walk (·.2.files) input visit ([], s)

/-- What each pass finds, up to the first that cannot walk over the input. -/
def legs (step : Pass → ClassName → State → State) (input : Path) : List Pass → State → List Leg
  | [], _ => []
  | p :: rest, s => match checkRoot s.files input with
    | .error _ => []
    | .ok () =>
      let (found, s) := sweep (step p) input s
      { pass := p, found } :: legs step input rest s

/-- Takes some steps one after the other. -/
def takeSteps (step : Pass → ClassName → State → State) (visits : List (Pass × ClassName))
    (s : State) : State :=
  visits.foldl (fun s v => step v.1 v.2 s) s

section Legs

variable {step : Pass → ClassName → State → State} {input : Path}

/-- A walk without a record leaves what the walk with a record does. -/
theorem walk_eq_sweep (step : ClassName → State → State) (input : Path) (s : State) :
    walk State.files input (fun | none => id | some n => step n) s = (sweep step input s).2 := by
  refine Eq.symm ?_
  unfold sweep
  refine map_walk (f := Prod.snd) (fun _ => rfl) (fun name s => ?_) input ([], s)
  cases name with
  | none => rfl
  | some n => rfl

/-- A pass does what its walk with a record does, and then what the later passes
do. -/
theorem passOver_cons (p : Pass) (rest : List Pass) (s : State) :
    passOver step input (p :: rest) s = match checkRoot s.files input with
      | .error e => .error (.unreadableRoot e) s
      | .ok () => passOver step input rest (sweep (step p) input s).2 := by
  rw [passOver]
  dsimp only
  cases checkRoot s.files input with
  | error e => rfl
  | ok _ => exact congrArg (fun s => passOver step input rest s) (walk_eq_sweep (step p) input s)

/-- A walk leaves what the steps for the classes it found lead to. -/
theorem sweep_steps (step : ClassName → State → State) (input : Path) (s : State) :
    (sweep step input s).2 = (sweep step input s).1.foldl (fun s n => step n s) s := by
  let P : List ClassName × State → Prop := fun x => x.2 = x.1.foldl (fun s n => step n s) s
  show P (sweep step input s)
  unfold sweep
  refine walk_keeps (fun name x hx => ?_) input (show P ([], s) from rfl)
  cases name with
  | none => exact hx
  | some n =>
    show step n x.2 = (x.1 ++ [n]).foldl (fun s n => step n s) s
    rw [List.foldl_append, ← hx]
    rfl

theorem takeSteps_visits (l : Leg) (s : State) :
    takeSteps step l.visits s = l.found.foldl (fun s n => step l.pass n s) s :=
  List.foldl_map

/-- The passes leave what their steps lead to. -/
theorem leaves_passOver (passes : List Pass) (s : State) :
    leaves (passOver step input passes) s =
      takeSteps step ((legs step input passes s).flatMap Leg.visits) s := by
  induction passes generalizing s with
  | nil => rfl
  | cons p passes ih =>
    unfold leaves at ih ⊢
    rw [passOver_cons, legs]
    cases checkRoot s.files input with
    | error e => rfl
    | ok _ =>
      dsimp only
      rw [ih, List.flatMap_cons, takeSteps, takeSteps, List.foldl_append]
      refine congrArg (fun s => takeSteps step _ s) ?_
      exact (sweep_steps (step p) input s).trans (takeSteps_visits ⟨p, _⟩ s).symm

/-- If no walk fails, every pass has its part in the run. -/
theorem map_pass_legs {passes : List Pass} {s s' : State}
    (h : passOver step input passes s = .ok () s') :
    (legs step input passes s).map (·.pass) = passes := by
  induction passes generalizing s with
  | nil => rfl
  | cons p passes ih =>
    rw [passOver_cons] at h
    rw [legs]
    split at h
    · cases h
    exact congrArg (p :: ·) (ih h)

theorem pass_mem_of_mem_legs {passes : List Pass} {s : State} {l : Leg}
    (h : l ∈ legs step input passes s) : l.pass ∈ passes := by
  induction passes generalizing s with
  | nil => cases h
  | cons p passes ih =>
    rw [legs] at h
    split at h
    · cases h
    · rcases List.mem_cons.1 h with rfl | h
      · exact List.mem_cons_self
      · exact List.mem_cons_of_mem _ (ih h)

theorem pass_mem_of_mem_visits {passes : List Pass} {s : State} {v : Pass × ClassName}
    (h : v ∈ (legs step input passes s).flatMap Leg.visits) : v.1 ∈ passes := by
  obtain ⟨l, hl, hv⟩ := List.mem_flatMap.1 h
  obtain ⟨n, -, rfl⟩ := List.mem_map.1 hv
  exact pass_mem_of_mem_legs hl

end Legs

/-! ## Moments -/

/-- What each pass of a run finds. -/
def runLegs (step : Pass → ClassName → State → State) (config : Config)
    (transformers : List Transformer) (ambient : List Path) (files : FileTree) : List Leg :=
  match setUp config transformers ambient files with
  | .ok (some setup) files =>
    legs step setup.input (passes transformers setup.output) (.start files setup.context)
  | .ok none _ | .error _ _ => []

/-- The states before, between and behind the steps of a run, in order. There
are none if the run cannot be set up or has nothing to do. -/
def moments (step : Pass → ClassName → State → State) (config : Config)
    (transformers : List Transformer) (ambient : List Path) (files : FileTree) : List State :=
  match setUp config transformers ambient files with
  | .ok (some setup) files =>
    let start := State.start files setup.context
    ((legs step setup.input (passes transformers setup.output) start).flatMap Leg.visits).scanl
      (fun s v => step v.1 v.2 s) start
  | .ok none _ | .error _ _ => []

section Moments

variable {step : Pass → ClassName → State → State} {config : Config}
  {transformers : List Transformer} {ambient : List Path} {files : FileTree}

theorem scanl_keeps {P : List State → State → Prop} {visits : List (Pass × ClassName)}
    (hstep : ∀ v ∈ visits, ∀ before s, P before s → P (before ++ [s]) (step v.1 v.2 s))
    {past before after : List State} {start s : State} (hstart : P past start)
    (h : visits.scanl (fun s v => step v.1 v.2 s) start = before ++ s :: after) :
    P (past ++ before) s := by
  induction visits generalizing past before start with
  | nil =>
    rw [List.scanl_nil] at h
    cases before with
    | nil =>
      cases h
      rwa [List.append_nil]
    | cons x before => cases before <;> cases h
  | cons v visits ih =>
    rw [List.scanl_cons] at h
    cases before with
    | nil =>
      cases h
      rwa [List.append_nil]
    | cons x before =>
      rw [List.cons_append] at h
      obtain ⟨rfl, htail⟩ := List.cons.inj h
      rw [List.append_cons]
      exact ih (fun v hv => hstep v (List.mem_cons_of_mem _ hv))
        (hstep v List.mem_cons_self past start hstart) htail

/-- What holds when a run begins and is kept by each step, with what came before
it, holds at every moment of the run. -/
theorem moments_keep {P : List State → State → Prop}
    (hstart : ∀ setup files', setUp config transformers ambient files = .ok (some setup) files' →
      P [] (.start files' setup.context))
    (hstep : ∀ setup files', setUp config transformers ambient files = .ok (some setup) files' →
      ∀ p ∈ passes transformers setup.output, ∀ n before s, P before s →
        P (before ++ [s]) (step p n s))
    {before after : List State} {s : State}
    (h : moments step config transformers ambient files = before ++ s :: after) : P before s := by
  unfold moments at h
  cases hs : setUp config transformers ambient files with
  | error e files' =>
    rw [hs] at h
    cases before <;> cases h
  | ok setup? files' =>
    rw [hs] at h
    cases setup? with
    | none => cases before <;> cases h
    | some setup =>
      refine scanl_keeps (fun v hv before s hs' => ?_) (hstart setup files' hs) h
      exact hstep setup files' hs v.1 (pass_mem_of_mem_visits hv) v.2 before s hs'

theorem foldl_mem_scanl {α β : Type} (f : β → α → β) (as rest : List α) (b : β) :
    as.foldl f b ∈ (as ++ rest).scanl f b := by
  induction as generalizing b with
  | nil =>
    rw [List.nil_append]
    cases rest with
    | nil =>
      rw [List.scanl_nil]
      exact List.mem_singleton_self b
    | cons a rest =>
      rw [List.scanl_cons]
      exact List.mem_cons_self
  | cons a as ih =>
    rw [List.cons_append, List.scanl_cons]
    exact List.mem_cons_of_mem b (ih (f b a))

/-- What is behind the first pass is a moment of the run. -/
theorem sweep_mem_moments {p : Pass} {rest : List Pass} {setup : Setup} {files' : FileTree}
    (hs : setUp config transformers ambient files = .ok (some setup) files')
    (hpasses : passes transformers setup.output = p :: rest)
    (hroot : checkRoot files' setup.input = .ok ()) :
    (sweep (step p) setup.input (.start files' setup.context)).2 ∈
      moments step config transformers ambient files := by
  rw [sweep_steps]
  unfold moments
  rw [hs]
  dsimp only
  rw [hpasses, legs]
  dsimp only [State.start]
  rw [hroot]
  dsimp only
  rw [List.flatMap_cons, ← takeSteps_visits ⟨p, _⟩]
  exact foldl_mem_scanl _ _ _ _

/-- The last moment of a run is the state that the run leaves. -/
theorem getLast?_moments {setup : Setup} {files' : FileTree}
    (h : setUp config transformers ambient files = .ok (some setup) files') :
    (moments step config transformers ambient files).getLast? =
      some (leaves (passOver step setup.input (passes transformers setup.output))
        (.start files' setup.context)) := by
  unfold moments
  rw [h]
  dsimp only
  rw [List.getLast?_scanl, leaves_passOver]
  rfl

end Moments

end ClassStamp.Run
