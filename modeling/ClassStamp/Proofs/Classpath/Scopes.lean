import Mathlib.Data.List.Perm.Basic
import Mathlib.Data.List.Induction
import ClassStamp.Build.Step

/-!
# Guards over the ambient classpath

Several holders add directories to the ambient classpath and take them away again
in any order. A guard takes away the last directory that is the same as one of its
own, which may be that of another guard, but never one that was there before all
guards.

* `foldl_dropFirst_append`: as many directories as there are behind the others are
  taken from among them;
* `Shared`: the classpath with its guards, and what the holders do to it;
* `apart_after`: after whatever they did, `stacked_after`: after what they did newest
  guard first;
* `scopes_apart`: the classpath at every moment;
* `Build.step_ambient`: a build step leaves it as it was.
-/

namespace ClassStamp

namespace Ambient

/-! ## Taking directories away -/

theorem dropFirst_eq_eraseP (p : Path) (paths : List Path) :
    dropFirst p paths = paths.eraseP fun q => q.sameAs p := by
  induction paths with
  | nil => rfl
  | cons q paths ih =>
    rw [dropFirst, List.eraseP_cons, ih]
    cases q.sameAs p <;> rfl

/-- By its steps, one path is gone. -/
theorem components_dropFirst (p : Path) (paths : List Path) :
    (dropFirst p paths).map Path.components = (paths.map Path.components).erase p.components := by
  rw [dropFirst_eq_eraseP, List.erase_eq_eraseP', List.eraseP_map]
  rfl

/-- What is there is taken from the front. -/
theorem dropFirst_append {p : Path} {front : List Path} (behind : List Path)
    (h : p.components ∈ front.map Path.components) :
    dropFirst p (front ++ behind) = dropFirst p front ++ behind := by
  obtain ⟨q, hq, hsteps⟩ := List.mem_map.1 h
  have hsame : q.sameAs p = true := beq_iff_eq.2 hsteps
  rw [dropFirst_eq_eraseP, dropFirst_eq_eraseP]
  exact List.eraseP_append_left (p := fun q : Path => q.sameAs p) hsame behind hq

/-- Paths that are there, as often as they are taken away, are all taken from the
front, and the others are left there. -/
theorem foldl_dropFirst_append {front taken : List Path} (behind : List Path)
    {others : List (List Path.Component)}
    (h : (front.map Path.components).Perm (taken.map Path.components ++ others)) :
    ∃ left, taken.foldl (fun paths p => dropFirst p paths) (front ++ behind) = left ++ behind ∧
      (left.map Path.components).Perm others := by
  induction taken generalizing front with
  | nil => exact ⟨front, rfl, h⟩
  | cons p taken ih =>
    rw [List.map_cons, List.cons_append] at h
    rw [List.foldl_cons, dropFirst_append behind (h.mem_iff.2 List.mem_cons_self)]
    refine ih ?_
    rw [components_dropFirst, ← List.erase_cons_head p.components (taken.map _ ++ others)]
    exact h.erase p.components

/-- What was written in front is taken away exactly. -/
theorem foldl_dropFirst_self (front behind : List Path) :
    front.foldl (fun paths p => dropFirst p paths) (front ++ behind) = behind := by
  induction front with
  | nil => rfl
  | cons p front ih =>
    have hself : p.sameAs p = true := beq_self_eq_true p.components
    rw [List.foldl_cons, List.cons_append, dropFirst, if_pos hself, ih]

/-- A guard takes its directories from among those behind the others, if they are
there, whoever added them. -/
theorem release_append (first : List Path) {added : List Path} {g : Guard}
    {others : List (List Path.Component)}
    (h : (added.map Path.components).Perm (g.added.map Path.components ++ others)) :
    ∃ left, (release ⟨first ++ added⟩ g).paths = first ++ left ∧
      (left.map Path.components).Perm others := by
  have hreversed : (added.reverse.map Path.components).Perm
      (g.added.reverse.map Path.components ++ others) := by
    rw [List.map_reverse, List.map_reverse]
    exact (List.reverse_perm _).trans (h.trans ((List.reverse_perm _).symm.append_right others))
  obtain ⟨left, hleft, hothers⟩ := foldl_dropFirst_append first.reverse hreversed
  refine ⟨left.reverse, ?_, ?_⟩
  · rw [release, List.reverse_append, hleft, List.reverse_append, List.reverse_reverse]
  · rw [List.map_reverse]
    exact (List.reverse_perm _).trans hothers

/-- A guard whose directories are still the last ones takes away just these. -/
theorem release_extend (paths : List Path) (g : Guard) :
    (release ⟨paths ++ g.added⟩ g).paths = paths := by
  rw [release, List.reverse_append, foldl_dropFirst_self, List.reverse_reverse]

/-! ## Several holders -/

/-- A guard that is in use. -/
structure Scope where
  /-- The guard. -/
  guard : Guard
  /-- The directories from before the guard was made. -/
  before : List Path

/-- Something that a holder of a guard does. -/
inductive Event
  /-- Someone adds directories and becomes a holder. -/
  | extend (paths : List Path)
  /-- Someone gives a guard back. The newest guard in use has position zero. -/
  | release (position : Nat)

/-- No guard is given back before those that were made after it. -/
def Event.NewestFirst : Event → Prop
  | extend _ => True
  | release position => position = 0

instance : DecidablePred Event.NewestFirst
  | .extend _ => inferInstanceAs (Decidable True)
  | .release position => inferInstanceAs (Decidable (position = 0))

/-- The ambient classpath with the guards over it that are in use, the newest one
first. -/
structure Shared where
  /-- The ambient classpath. -/
  ambient : Ambient
  /-- The guards. -/
  scopes : List Scope

namespace Shared

/-- The classpath before anyone adds to it. -/
def start (initial : List Path) : Shared := { ambient := ⟨initial⟩, scopes := [] }

/-- What becomes of the classpath. Only a guard that is in use is given back. -/
def step (s : Shared) : Event → Shared
  | .extend paths =>
    let (guard, ambient) := s.ambient.extend paths
    { ambient, scopes := { guard, before := s.ambient.paths } :: s.scopes }
  | .release position => match s.scopes[position]? with
    | none => s
    | some scope =>
      { ambient := s.ambient.release scope.guard, scopes := s.scopes.eraseIdx position }

/-- The classpath after one thing was done after the other. -/
def after (initial : List Path) (events : List Event) : Shared :=
  events.foldl step (start initial)

/-- The directories of all guards that are in use. -/
def held (s : Shared) : List Path := s.scopes.flatMap fun scope => scope.guard.added

theorem after_concat (initial : List Path) (events : List Event) (e : Event) :
    after initial (events ++ [e]) = (after initial events).step e := by
  rw [after, List.foldl_append]
  rfl

/-- The initial directories are in front, and behind them are those of the guards in
use. -/
def Apart (initial : List Path) (s : Shared) : Prop :=
  ∃ added, s.ambient.paths = initial ++ added ∧
    (added.map Path.components).Perm (s.held.map Path.components)

theorem Apart.extend {initial : List Path} {s : Shared} (h : Apart initial s)
    (paths : List Path) : Apart initial (s.step (.extend paths)) := by
  obtain ⟨added, hpaths, hadded⟩ := h
  refine ⟨added ++ paths, ?_, ?_⟩
  · show s.ambient.paths ++ paths = _
    rw [hpaths, List.append_assoc]
  · show ((added ++ paths).map Path.components).Perm ((paths ++ s.held).map Path.components)
    rw [List.map_append, List.map_append]
    exact List.perm_append_comm.trans (hadded.append_left _)

theorem Apart.release {initial : List Path} {s : Shared} (h : Apart initial s)
    (position : Nat) : Apart initial (s.step (.release position)) := by
  obtain ⟨added, hpaths, hadded⟩ := h
  unfold step
  dsimp only
  cases hscope : s.scopes[position]? with
  | none => exact ⟨added, hpaths, hadded⟩
  | some scope =>
    obtain ⟨hlt, rfl⟩ := List.getElem?_eq_some_iff.1 hscope
    -- the guard's own directories and those of the other guards are all that is held
    have hheld := (List.getElem_cons_eraseIdx_perm hlt).symm.flatMap_right
      (fun scope : Scope => scope.guard.added)
    rw [List.flatMap_cons] at hheld
    have hparts := hadded.trans (hheld.map Path.components)
    rw [List.map_append] at hparts
    obtain ⟨left, hleft, hothers⟩ := release_append initial hparts
    refine ⟨left, ?_, hothers⟩
    rw [← hleft, ← hpaths]

theorem apart_after (initial : List Path) (events : List Event) :
    Apart initial (after initial events) := by
  induction events using List.reverseRecOn with
  | nil => exact ⟨[], (List.append_nil initial).symm, .refl _⟩
  | append_singleton events e ih =>
    rw [after_concat]
    cases e with
    | extend paths => exact ih.extend paths
    | release position => exact ih.release position

/-! ## Newest guard first -/

/-- Every guard stands directly behind what was there before it was made. -/
def Stacked (initial : List Path) : List Scope → List Path → Prop
  | [], paths => paths = initial
  | scope :: others, paths =>
    paths = scope.before ++ scope.guard.added ∧ Stacked initial others scope.before

/-- The newest guard gives back what was there before it was made. -/
theorem before_of_stacked {initial : List Path} {s : Shared} {scope : Scope}
    {others : List Scope} (hscopes : s.scopes = scope :: others)
    (h : Stacked initial s.scopes s.ambient.paths) :
    (s.step (.release 0)).ambient.paths = scope.before ∧
      (s.step (.release 0)).scopes = others := by
  rw [hscopes] at h
  have hstep : s.step (.release 0) =
      { ambient := s.ambient.release scope.guard, scopes := others } := by
    rw [step, hscopes]
    rfl
  rw [hstep]
  exact ⟨by rw [← release_extend scope.before scope.guard, ← h.1], rfl⟩

theorem stacked_after {initial : List Path} {events : List Event}
    (h : ∀ e ∈ events, e.NewestFirst) :
    Stacked initial (after initial events).scopes (after initial events).ambient.paths := by
  induction events using List.reverseRecOn with
  | nil => rfl
  | append_singleton events e ih =>
    have hevents := ih fun e' he' => h e' (List.mem_append_left _ he')
    have he := h e (List.mem_append_right _ List.mem_cons_self)
    rw [after_concat]
    cases e with
    | extend paths => exact ⟨rfl, hevents⟩
    | release position =>
      cases he
      cases hscopes : (after initial events).scopes with
      | nil =>
        have hstep : (after initial events).step (.release 0) = after initial events := by
          rw [step, hscopes]
          rfl
        rw [hstep]
        exact hevents
      | cons scope others =>
        obtain ⟨hpaths, hothers⟩ := before_of_stacked hscopes hevents
        rw [hpaths, hothers]
        rw [hscopes] at hevents
        exact hevents.2

end Shared

/-! ## The classpath at every moment -/

/-- Whatever the holders of guards did, the initial directories are there as they
were, and behind them, in some order and compared by their steps, the directories of
the guards in use: none if there are none. If guards were only ever given back newest
first, the next one given back in this way leaves what was there before it was made. -/
theorem scopes_apart (initial : List Path) (events : List Event) :
    (∃ added, (Shared.after initial events).ambient.paths = initial ++ added ∧
      (added.map Path.components).Perm
        ((Shared.after initial events).held.map Path.components)) ∧
    ((Shared.after initial events).scopes = [] →
      (Shared.after initial events).ambient.paths = initial) ∧
    ((∀ e ∈ events, e.NewestFirst) → ∀ scope others,
      (Shared.after initial events).scopes = scope :: others →
      ((Shared.after initial events).step (.release 0)).ambient.paths = scope.before) := by
  refine ⟨Shared.apart_after initial events, fun hnone => ?_, fun horder scope others hscopes => ?_⟩
  · obtain ⟨added, hpaths, hadded⟩ := Shared.apart_after initial events
    rw [Shared.held, hnone, List.flatMap_nil, List.map_nil] at hadded
    rw [hpaths, List.map_eq_nil_iff.1 hadded.eq_nil, List.append_nil]
  · exact (Shared.before_of_stacked hscopes (Shared.stacked_after horder)).1

/-- Two guards over a directory that was there before, of which the one made first is
given back first. -/
def crossing : List Event := [.extend [⟨"lib/"⟩, ⟨"a"⟩], .extend [⟨"lib"⟩], .release 1]

/-- The first guard takes the directory of the second one and leaves its own, which is
the same directory. -/
theorem crossing_apart :
    (Shared.after [⟨"lib"⟩] crossing).ambient.paths = [⟨"lib"⟩, ⟨"lib/"⟩] ∧
    (∃ added, (Shared.after [⟨"lib"⟩] crossing).ambient.paths = [⟨"lib"⟩] ++ added ∧
      (added.map Path.components).Perm
        ((Shared.after [⟨"lib"⟩] crossing).held.map Path.components)) ∧
    (Shared.after [⟨"lib"⟩] (crossing ++ [.release 0])).ambient.paths = [⟨"lib"⟩] ∧
    ((Shared.after [⟨"lib"⟩] (crossing.take 2)).step (.release 0)).ambient.paths =
      [⟨"lib"⟩, ⟨"lib/"⟩, ⟨"a"⟩] :=
  ⟨by decide, (scopes_apart _ _).1, (scopes_apart _ _).2.1 rfl,
    (scopes_apart [⟨"lib"⟩] (crossing.take 2)).2.2 (by decide) _ _ rfl⟩

end Ambient

/-- A build step leaves the ambient classpath as it was, whether it goes well or not. -/
theorem Build.step_ambient (task : Task) (config : Config) (registry : Registry)
    (ambient : Ambient) (files : FileTree) :
    (step task config registry ambient files).ambient = ambient := by
  have hback : (ambient.extend config.classpath).2.release (ambient.extend config.classpath).1 =
      ambient := congrArg Ambient.mk (Ambient.release_extend ambient.paths ⟨config.classpath⟩)
  unfold step
  by_cases hskip : config.skip = true
  · rw [if_pos hskip]
  · rw [if_neg hskip]
    cases prepare config registry with
    | error e => rfl
    | ok transformers =>
      dsimp only
      split <;> exact hback

end ClassStamp
