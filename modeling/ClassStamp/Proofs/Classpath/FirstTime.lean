import ClassStamp.Proofs.Classpath.Reached
import ClassStamp.Proofs.Classpath.Termination

/-!
# Taking out a class for the first time

A class that is not in memory is taken out if the entries have it, its superclasses and the
classes directly inside it, whatever a context remembers or has in memory of earlier uses,
also of those that failed half-way. Otherwise the first of them that the entries do not have
is what the error is about.

* `Good`, `Unfit`: the entries have a class, and why they do not;
* `Climb`, `Ahead`: the way up the superclasses, over the entries alone;
* `Passes`, `FirstFailure`: all that is needed is there, and what is missing first;
* `checked_eq_ok`, `checked_eq_error_iff`: they say what the entries alone answer;
* `Reached.agrees`: contexts into which classes come back unedited agree with the entries;
* `Loader.Honest`: what a loader that the caller brings is relied on for;
* `first_checkout`: so what is needed decides when a class is taken out for the first time.
-/

namespace ClassStamp

/-- An element with the one property comes behind elements with the other one only. -/
def Behind {α : Type} (P Q : α → Prop) (xs : List α) : Prop :=
  ∃ before x after, xs = before ++ x :: after ∧ (∀ y ∈ before, P y) ∧ Q x

section Behind

variable {α : Type} {P Q : α → Prop} {xs : List α}

theorem not_behind_nil : ¬ Behind P Q [] := by
  rintro ⟨before, x, after, h, -⟩
  exact List.append_ne_nil_of_right_ne_nil before (List.cons_ne_nil x after) h.symm

theorem behind_cons {x : α} : Behind P Q (x :: xs) ↔ Q x ∨ P x ∧ Behind P Q xs := by
  constructor
  · rintro ⟨_ | ⟨y, before⟩, z, after, h, hbefore, hz⟩
    · cases h
      exact .inl hz
    · cases h
      obtain ⟨hy, hbefore⟩ := List.forall_mem_cons.1 hbefore
      exact .inr ⟨hy, before, z, after, rfl, hbefore, hz⟩
  · rintro (hx | ⟨hx, before, z, after, rfl, hbefore, hz⟩)
    · exact ⟨[], x, xs, rfl, fun _ hy => (nomatch hy), hx⟩
    · exact ⟨x :: before, z, after, rfl, List.forall_mem_cons.2 ⟨hx, hbefore⟩, hz⟩

theorem behind_filter {p : α → Bool} (h : ∀ x ∈ xs, ¬ p x = true → P x ∧ ¬ Q x) :
    Behind P Q (xs.filter p) ↔ Behind P Q xs := by
  induction xs with
  | nil => exact Iff.rfl
  | cons x xs ih =>
    obtain ⟨hx, hxs⟩ := List.forall_mem_cons.1 h
    by_cases hp : p x = true
    · rw [List.filter_cons_of_pos hp, behind_cons, behind_cons, ih hxs]
    · rw [List.filter_cons_of_neg hp, ih hxs, behind_cons]
      obtain ⟨hP, hQ⟩ := hx hp
      exact ⟨fun h => .inr ⟨hP, h⟩, fun h => (h.resolve_left hQ).2⟩

/-- Repetitions do not matter. -/
theorem behind_eraseDups [BEq α] [LawfulBEq α] (xs : List α) :
    Behind P Q xs.eraseDups ↔ Behind P Q xs := by
  match xs with
  | [] => exact Iff.rfl
  | x :: xs =>
    rw [List.eraseDups_cons, behind_cons, behind_cons, behind_eraseDups]
    by_cases hQ : Q x
    · exact ⟨fun _ => .inl hQ, fun _ => .inl hQ⟩
    refine or_congr Iff.rfl (and_congr_right fun hP => behind_filter fun y _ hy => ?_)
    rw [Bool.not_eq_true, Bool.not_eq_false', beq_iff_eq] at hy
    rw [hy]
    exact ⟨hP, hQ⟩
termination_by xs.length
decreasing_by exact Nat.lt_succ_of_le (List.length_filter_le _ _)

end Behind

/-- The first element that has no value is what the error is about. -/
theorem mapM_eq_error_iff {ε α β : Type} {f : α → Except ε β} {xs : List α} {e : ε} :
    xs.mapM f = .error e ↔ Behind (fun x => ∃ y, f x = .ok y) (fun x => f x = .error e) xs := by
  induction xs with
  | nil => exact ⟨fun h => (nomatch h), fun h => absurd h not_behind_nil⟩
  | cons x xs ih =>
    rw [List.mapM_cons, behind_cons, ← ih]
    cases f x with
    | error e' =>
      constructor
      · rintro ⟨⟩
        exact .inl rfl
      · rintro (⟨⟨⟩⟩ | ⟨⟨_, ⟨⟩⟩, -⟩)
        rfl
    | ok y =>
      cases xs.mapM f with
      | error e' => exact ⟨fun h => .inr ⟨⟨y, rfl⟩, h⟩, fun h => h.elim (nomatch ·) And.right⟩
      | ok ys => exact ⟨fun h => (nomatch h), fun h => h.elim (nomatch ·) (nomatch ·.2)⟩

namespace Classpath

/-! ## What the entries have -/

variable {files : FileTree} {entries : List Entry} {n k requested : ClassName}

/-- The first entry that answers for a class at all answers so. -/
def Answers (files : FileTree) (entries : List Entry) (n : ClassName)
    (answer : Except ResolutionError ClassBytes) : Prop :=
  Behind (fun entry => entry.load files n = .ok none)
    (fun entry => entry.load files n = answer.map some) entries

/-- The entries have the class, and its class file is the given one. -/
def Good (files : FileTree) (entries : List Entry) (n : ClassName) (c : ClassFile) : Prop :=
  ∃ found, Answers files entries n (.ok found) ∧ ClassFile.parse found.content = .ok c ∧
    c.name = .ok n

/-- Why the entries do not have a class that `requested` needs. -/
inductive Unfit (files : FileTree) (entries : List Entry) (requested n : ClassName) :
    ResolutionError → Prop
  | missing (h : ∀ entry ∈ entries, entry.load files n = .ok none) :
    Unfit files entries requested n (.notFound n requested)
  | unreadable {e : ResolutionError} (h : Answers files entries n (.error e)) :
    Unfit files entries requested n e
  | unparsable {found : ClassBytes} {e : ClassFileError}
    (h : Answers files entries n (.ok found)) (hparse : ClassFile.parse found.content = .error e) :
    Unfit files entries requested n (.malformed n found.origin (.classFile e))
  | nameless {found : ClassBytes} {c : ClassFile} {e : ClassFileError}
    (h : Answers files entries n (.ok found)) (hparse : ClassFile.parse found.content = .ok c)
    (hname : c.name = .error e) :
    Unfit files entries requested n (.malformed n found.origin (.classFile e))
  | other {found : ClassBytes} {c : ClassFile} {m : ClassName}
    (h : Answers files entries n (.ok found)) (hparse : ClassFile.parse found.content = .ok c)
    (hname : c.name = .ok m) (hne : m ≠ n) :
    Unfit files entries requested n (.malformed n found.origin (.nameMismatch n m))

/-- Why the way up ends at a class: the entries do not have it, or its superclass cannot
be read. -/
inductive Blocks (files : FileTree) (entries : List Entry) (requested n : ClassName) :
    ResolutionError → Prop
  | unfit {e : ResolutionError} (h : Unfit files entries requested n e) :
    Blocks files entries requested n e
  | unreadable {c : ClassFile} {e : ClassFileError} (h : Good files entries n c)
    (hsuper : c.superName? = .error e) :
    Blocks files entries requested n (.malformed n "in-memory" (.classFile e))

/-- The class as it is read. -/
def loaded (n : ClassName) (c : ClassFile) : Artifact :=
  { name := n, classFile := c, isModified := false, frozen := none, nested := [] }

theorem firstFound_eq_none_iff {α : Type}
    {load : α → Except ResolutionError (Option ClassBytes)} {places : List α} :
    firstFound load places = .ok none ↔ ∀ place ∈ places, load place = .ok none := by
  induction places with
  | nil => exact ⟨fun _ _ h => (nomatch h), fun _ => rfl⟩
  | cons place places ih =>
    rw [List.forall_mem_cons, ← ih, firstFound]
    split
    · rename_i h
      exact ⟨fun hrest => ⟨h, hrest⟩, And.right⟩
    · rename_i hnot
      exact ⟨fun h => absurd h hnot, fun h => absurd h.1 hnot⟩

theorem firstFound_eq_iff {answer : Except ResolutionError ClassBytes} :
    firstFound (Entry.load files n) entries = answer.map some ↔
      Answers files entries n answer := by
  have hnone : answer.map some ≠ .ok none := by
    cases answer <;> exact fun h => nomatch h
  induction entries with
  | nil => exact ⟨fun h => absurd h.symm hnone, fun h => absurd h not_behind_nil⟩
  | cons entry entries ih =>
    unfold Answers at ih ⊢
    rw [behind_cons, firstFound]
    split
    · rename_i hload
      rw [hload]
      refine ih.trans ⟨fun h => .inr ⟨rfl, h⟩, fun h => ?_⟩
      exact h.elim (fun h => absurd h.symm hnone) And.right
    · rename_i hload
      exact ⟨.inl, fun h => h.elim id fun h => absurd h.1 hload⟩

theorem loadFrom_ne_notFound {root : Path} {missing : ClassName} :
    loadFrom files root n ≠ .error (.notFound missing requested) := by
  unfold loadFrom
  dsimp only
  generalize root.join n.relativePath = path
  cases files.read path with
  | ok content => exact fun h => nomatch h
  | error reason => cases reason <;> exact fun h => nomatch h

/-- What a loader is relied on for: it holds finitely many classes, and fails only for one
that it holds but cannot read, so that it never says of a class that it is not found. -/
structure Loader.Honest (files : FileTree) (l : Loader) : Prop where
  finite : {n | ∃ found, l.load files n = .ok (some found)}.Finite
  holds : ∀ n missing requested, l.load files n ≠ .error (.notFound missing requested)

theorem honest_inMemory (files : FileTree) (description : String)
    (classes : List (ClassName × Bytes)) (failing : List ClassName) :
    (Loader.inMemory description classes failing).Honest files := by
  refine ⟨finite_inMemory files description classes failing, fun n missing requested => ?_⟩
  dsimp only [Loader.inMemory]
  split <;> exact fun h => nomatch h

theorem honest_directory (files : FileTree) (root : Path) :
    (Loader.directory root).Honest files := by
  constructor <;> simp only [load_directory]
  · exact finite_directory files root
  · exact fun n missing requested => loadFrom_ne_notFound

/-- An entry that cannot look for a class does not say that it is not found. -/
theorem load_ne_notFound {entry : Entry} {missing : ClassName}
    (hloader : ∀ l, entry = .loader l → l.Honest files) :
    entry.load files n ≠ .error (.notFound missing requested) := by
  unfold Entry.load
  cases entry with
  | directory root => exact @loadFrom_ne_notFound files n requested root missing
  | loader l => exact (hloader l rfl).holds n missing requested
  | system roots =>
    dsimp only
    clear hloader
    induction roots with
    | nil =>
      intro h
      cases h
    | cons root roots ih =>
      rw [firstFound]
      split
      · exact ih
      · exact loadFrom_ne_notFound

theorem Unfit.notFound {needed missing : ClassName}
    (hloaders : ∀ l, .loader l ∈ entries → l.Honest files)
    (h : Unfit files entries needed n (.notFound missing requested)) :
    missing = n ∧ requested = needed := by
  cases h with
  | missing _ => exact ⟨rfl, rfl⟩
  | unreadable h =>
    obtain ⟨before, entry, after, rfl, -, hload⟩ := h
    refine absurd hload (load_ne_notFound fun l hl => hloaders l ?_)
    exact List.mem_append_right before (List.mem_cons.2 (.inl hl.symm))

namespace Context

open ClassFile (directMembers)

theorem ofBytes_eq_ok_iff {bytes : Bytes} {a : Artifact} : Artifact.ofBytes n bytes = .ok a ↔
    ∃ c, ClassFile.parse bytes = .ok c ∧ c.name = .ok n ∧ a = loaded n c := by
  unfold Artifact.ofBytes Artifact.new
  constructor
  · intro h
    split at h
    · cases h
    rename_i c hparse
    cases hname : c.name with
    | error e =>
      rw [hname] at h
      cases h
    | ok m =>
      rw [hname] at h
      dsimp only at h
      split at h
      · rename_i hm
        cases h
        cases hm
        exact ⟨c, hparse, hname, rfl⟩
      · cases h
  · rintro ⟨c, hparse, hname, rfl⟩
    rw [hparse]
    dsimp only
    rw [hname]
    exact if_pos rfl

/-- A class that the entries have is read from them. -/
theorem read_eq_ok_iff {a : Artifact} : (ofEntries entries).read files n requested = .ok a ↔
    ∃ c, Good files entries n c ∧ a = loaded n c := by
  constructor
  · intro h
    obtain ⟨found, hfound, hbytes⟩ := read_eq_ok h
    obtain ⟨c, hparse, hname, rfl⟩ := ofBytes_eq_ok_iff.1 hbytes
    exact ⟨c, ⟨found, firstFound_eq_iff.1 hfound, hparse, hname⟩, rfl⟩
  · rintro ⟨c, ⟨found, hanswer, hparse, hname⟩, rfl⟩
    have hfound : (ofEntries entries).find files n = .ok (some found) := firstFound_eq_iff.2 hanswer
    unfold read
    rw [hfound]
    dsimp only
    rw [ofBytes_eq_ok_iff.2 ⟨c, hparse, hname, rfl⟩]
    rfl

theorem read_eq_error_iff {e : ResolutionError} :
    (ofEntries entries).read files n requested = .error e ↔
      Unfit files entries requested n e := by
  constructor
  · intro h
    unfold read at h
    split at h
    · rename_i hfind
      cases h
      exact .unreadable (firstFound_eq_iff.1 hfind)
    · rename_i hfind
      cases h
      exact .missing (firstFound_eq_none_iff.1 hfind)
    rename_i found hfind
    have hanswer : Answers files entries n (.ok found) := firstFound_eq_iff.1 hfind
    unfold Artifact.ofBytes Artifact.new at h
    cases hparse : ClassFile.parse found.content with
    | error reason =>
      rw [hparse] at h
      cases h
      exact .unparsable hanswer hparse
    | ok c =>
      rw [hparse] at h
      dsimp only at h
      cases hname : c.name with
      | error reason =>
        rw [hname] at h
        cases h
        exact .nameless hanswer hparse hname
      | ok m =>
        rw [hname] at h
        dsimp only at h
        split at h
        · cases h
        · rename_i hne
          cases h
          exact .other hanswer hparse hname hne
  · have hfind {answer : Except ResolutionError ClassBytes}
        (h : Answers files entries n answer) : (ofEntries entries).find files n = answer.map some :=
      firstFound_eq_iff.2 h
    have hmissing (h : ∀ entry ∈ entries, entry.load files n = .ok none) :
        (ofEntries entries).find files n = .ok none := firstFound_eq_none_iff.2 h
    unfold read
    rintro (h | h | ⟨h, hparse⟩ | ⟨h, hparse, hname⟩ | ⟨h, hparse, hname, hne⟩)
    case missing => rw [hmissing h]
    case unreadable =>
      rw [hfind h]
      rfl
    case unparsable => simp only [hfind h, Except.map, Except.mapError, Artifact.ofBytes, hparse]
    case nameless =>
      simp only [hfind h, Except.map, Except.mapError, Artifact.ofBytes, Artifact.new, hparse,
        hname]
    case other =>
      simp only [hfind h, Except.map, Except.mapError, Artifact.ofBytes, Artifact.new, hparse,
        hname, if_neg hne]

theorem good_unique {c d : ClassFile} (hc : Good files entries n c)
    (hd : Good files entries n d) : c = d := by
  have hread : (ofEntries entries).read files n n = .ok (loaded n c) :=
    read_eq_ok_iff.2 ⟨c, hc, rfl⟩
  have hread' : (ofEntries entries).read files n n = .ok (loaded n d) :=
    read_eq_ok_iff.2 ⟨d, hd, rfl⟩
  exact congrArg Artifact.classFile (Except.ok.inj (hread.symm.trans hread'))

theorem superclassOf_loaded (n : ClassName) (c : ClassFile) : superclassOf (loaded n c) =
    c.superName?.mapError fun e => .malformed n "in-memory" (.classFile e) := rfl

theorem parent_eq_ok_iff {next : Option ClassName} :
    parent files entries requested n = .ok next ↔
      ∃ c, Good files entries n c ∧ c.superName? = .ok next := by
  unfold parent
  constructor
  · intro h
    obtain ⟨a, hread, hsuper⟩ := except_bind_eq_ok h
    obtain ⟨c, hc, rfl⟩ := read_eq_ok_iff.1 hread
    rw [superclassOf_loaded] at hsuper
    cases hnext : c.superName? with
    | error e =>
      rw [hnext] at hsuper
      cases hsuper
    | ok next' =>
      rw [hnext] at hsuper
      cases hsuper
      exact ⟨c, hc, hnext⟩
  · rintro ⟨c, hc, hnext⟩
    rw [read_eq_ok_iff.2 ⟨c, hc, rfl⟩]
    show superclassOf (loaded n c) = _
    rw [superclassOf_loaded, hnext]
    rfl

theorem parent_eq_error_iff {e : ResolutionError} :
    parent files entries requested n = .error e ↔ Blocks files entries requested n e := by
  unfold parent
  constructor
  · intro h
    cases hread : (ofEntries entries).read files n requested with
    | error e' =>
      rw [hread] at h
      cases h
      exact .unfit (read_eq_error_iff.1 hread)
    | ok a =>
      obtain ⟨c, hc, rfl⟩ := read_eq_ok_iff.1 hread
      rw [hread] at h
      change superclassOf (loaded n c) = _ at h
      rw [superclassOf_loaded] at h
      cases hsuper : c.superName? with
      | ok next =>
        rw [hsuper] at h
        cases h
      | error reason =>
        rw [hsuper] at h
        cases h
        exact .unreadable hc hsuper
  · rintro (h | ⟨hc, hsuper⟩)
    · rw [read_eq_error_iff.2 h]
      rfl
    · rw [read_eq_ok_iff.2 ⟨_, hc, rfl⟩]
      show superclassOf (loaded n _) = _
      rw [superclassOf_loaded, hsuper]
      rfl

/-! ## The way up -/

/-- The way up from a class, as far as one likes: the classes that were come by, the last
one first, and the superclass of the last one. -/
inductive Climb (files : FileTree) (entries : List Entry) (n : ClassName) :
    List ClassName → Option ClassName → Prop
  | start {c : ClassFile} {next : Option ClassName} (hc : Good files entries n c)
    (hnext : c.superName? = .ok next) : Climb files entries n [n] next
  | up {seen : List ClassName} {k : ClassName} {c : ClassFile} {next : Option ClassName}
    (h : Climb files entries n seen (some k)) (hother : isBootstrap k = false) (hnew : k ∉ seen)
    (hc : Good files entries k c) (hnext : c.superName? = .ok next) :
    Climb files entries n (k :: seen) next

/-- The class is the next one on the way up: it does not come with the platform, and the
way did not come by it before. -/
structure Ahead (files : FileTree) (entries : List Entry) (n : ClassName)
    (seen : List ClassName) (k : ClassName) : Prop where
  climb : Climb files entries n seen (some k)
  other : isBootstrap k = false
  new : k ∉ seen

/-- Every class on the way up is there, and its superclass can be read. -/
def Clear (files : FileTree) (entries : List Entry) (n : ClassName) : Prop :=
  ∀ seen k, Ahead files entries n seen k →
    ∃ c, Good files entries k c ∧ ∃ next, c.superName? = .ok next

variable {seen : List ClassName} {next : Option ClassName}

/-- A step of the walk over the entries goes to the class that is ahead. -/
theorem chain_of_ahead (h : Ahead files entries n seen k) :
    files.chain entries n seen (some k) = match parent files entries n k with
      | .error e => some (.error e)
      | .ok next => files.chain entries n (k :: seen) next := by
  refine chain_of_on n ?_
  rintro (hboot | hseen)
  · rw [h.other] at hboot
    cases hboot
  · exact h.new hseen

/-- The walk over the entries comes along the whole way up. -/
theorem Climb.chain_eq {c : ClassFile} {first : Option ClassName} (hc : Good files entries n c)
    (hfirst : c.superName? = .ok first) (h : Climb files entries n seen next) :
    files.chain entries n [n] first = files.chain entries n seen next := by
  induction h with
  | start hc' hnext =>
    rw [good_unique hc' hc, hfirst] at hnext
    rw [Except.ok.inj hnext]
  | up h hother hnew hc' hnext ih =>
    rw [ih, chain_of_ahead ⟨h, hother, hnew⟩, parent_eq_ok_iff.2 ⟨_, hc', hnext⟩]

/-- The walk fails only at a class that is ahead. -/
theorem exists_ahead_of_chain {e : ResolutionError} (h : Climb files entries n seen next)
    (hchain : files.chain entries n seen next = some (.error e)) :
    ∃ seen k, Ahead files entries n seen k ∧ parent files entries n k = .error e := by
  refine FileTree.chain.partial_correctness files entries n (fun seen next answer =>
    Climb files entries n seen next → answer = .error e →
      ∃ seen k, Ahead files entries n seen k ∧ parent files entries n k = .error e)
    (fun chain ih seen next answer hchain h hfails => ?_) seen next _ hchain h rfl
  cases next with
  | none =>
    cases hchain
    cases hfails
  | some k =>
    dsimp only at hchain
    split at hchain
    · cases hchain
      cases hfails
    rename_i hstop
    rw [Bool.or_eq_true, not_or, Bool.not_eq_true, List.contains_iff_mem] at hstop
    have hahead : Ahead files entries n seen k := ⟨h, hstop.1, hstop.2⟩
    cases hparent : parent files entries n k with
    | error e' =>
      rw [hparent] at hchain
      cases hchain
      cases hfails
      exact ⟨seen, k, hahead, hparent⟩
    | ok next =>
      rw [hparent] at hchain
      obtain ⟨c, hc, hnext⟩ := parent_eq_ok_iff.1 hparent
      exact ih (k :: seen) next answer hchain (.up h hstop.1 hstop.2 hc hnext) hfails

theorem ancestry_loaded {c : ClassFile} (hnext : c.superName? = .ok next) :
    ancestry files entries (loaded n c) = (files.chain entries n [n] next).getD (.ok ()) := by
  unfold ancestry
  rw [superclassOf_loaded, hnext]
  rfl

theorem ancestry_eq_error_iff {c : ClassFile} {e : ResolutionError}
    (hc : Good files entries n c) (hnext : c.superName? = .ok next) :
    ancestry files entries (loaded n c) = .error e ↔
      ∃ seen k, Ahead files entries n seen k ∧ Blocks files entries n k e := by
  constructor
  · intro h
    rw [ancestry_loaded hnext] at h
    cases hchain : files.chain entries n [n] next with
    | none =>
      rw [hchain] at h
      cases h
    | some answer =>
      rw [hchain] at h
      cases h
      obtain ⟨seen, k, hahead, hparent⟩ := exists_ahead_of_chain (.start hc hnext) hchain
      exact ⟨seen, k, hahead, parent_eq_error_iff.1 hparent⟩
  · rintro ⟨seen, k, hahead, hblocks⟩
    rw [ancestry_loaded hnext, hahead.climb.chain_eq hc hnext, chain_of_ahead hahead,
      parent_eq_error_iff.2 hblocks]
    rfl

theorem ancestry_eq_ok_iff {c : ClassFile} (hc : Good files entries n c)
    (hnext : c.superName? = .ok next) :
    ancestry files entries (loaded n c) = .ok () ↔ Clear files entries n := by
  constructor
  · intro h seen k hahead
    cases hparent : parent files entries n k with
    | ok next =>
      obtain ⟨c', hc', hnext'⟩ := parent_eq_ok_iff.1 hparent
      exact ⟨c', hc', next, hnext'⟩
    | error e =>
      have hfails := (ancestry_eq_error_iff hc hnext).2
        ⟨seen, k, hahead, parent_eq_error_iff.1 hparent⟩
      rw [h] at hfails
      cases hfails
  · intro h
    cases hancestry : ancestry files entries (loaded n c) with
    | ok _ => rfl
    | error e =>
      obtain ⟨seen, k, hahead, hblocks⟩ := (ancestry_eq_error_iff hc hnext).1 hancestry
      obtain ⟨c', hc', next', hnext'⟩ := h seen k hahead
      have hparent : parent files entries n k = .ok next' :=
        parent_eq_ok_iff.2 ⟨c', hc', hnext'⟩
      rw [parent_eq_error_iff.2 hblocks] at hparent
      cases hparent

/-! ## All that is needed -/

/-- The class and its superclasses are there, up to where the way up ends. -/
structure Stands (files : FileTree) (entries : List Entry) (n : ClassName) (c : ClassFile) :
    Prop where
  good : Good files entries n c
  super : ∃ next, c.superName? = .ok next
  clear : Clear files entries n

/-- All that is needed to take out the class is there. -/
structure Passes (files : FileTree) (entries : List Entry) (n : ClassName) (c : ClassFile)
    (rows : List InnerClass) : Prop where
  stands : Stands files entries n c
  listed : c.innerClasses = .ok rows
  members : ∀ m ∈ directMembers n rows, ∃ d, Good files entries m d

/-- What is missing first to take out the class, and the error that it leads to. -/
inductive FirstFailure (files : FileTree) (entries : List Entry) (n : ClassName) :
    ClassName → ResolutionError → Prop
  | self {e : ResolutionError} (h : Blocks files entries n n e) :
    FirstFailure files entries n n e
  | ancestor {c : ClassFile} {seen : List ClassName} {k : ClassName} {e : ResolutionError}
    (hc : Good files entries n c) (hahead : Ahead files entries n seen k)
    (h : Blocks files entries n k e) : FirstFailure files entries n k e
  | listing {c : ClassFile} {e : ClassFileError} (hc : Stands files entries n c)
    (h : c.innerClasses = .error e) :
    FirstFailure files entries n n (.malformed n "in-memory" (.classFile e))
  | member {c : ClassFile} {rows : List InnerClass} {before after : List ClassName}
    {m : ClassName} {e : ResolutionError} (hc : Stands files entries n c)
    (hrows : c.innerClasses = .ok rows) (hm : directMembers n rows = before ++ m :: after)
    (hbefore : ∀ k ∈ before, ∃ d, Good files entries k d) (h : Unfit files entries n m e) :
    FirstFailure files entries n m e

/-- The class as it is read, with the classes directly inside it as they are read. -/
structure Complete (files : FileTree) (entries : List Entry) (n : ClassName) (c : ClassFile)
    (rows : List InnerClass) (a : Artifact) : Prop where
  self : a.withoutNested = loaded n c
  members : ∀ m, m ∈ a.nested ↔
    ∃ k ∈ directMembers n rows, ∃ d, Good files entries k d ∧ m = loaded k d
  distinct : a.memberNames.Nodup

variable {c : ClassFile} {rows : List InnerClass}

theorem accompanied_loaded (hc : Good files entries n c) :
    accompanied files entries (loaded n c) = match c.innerClasses with
      | .error e => .error (.malformed n "in-memory" (.classFile e))
      | .ok rows =>
        ((directMembers n rows).eraseDups.mapM fun k => (ofEntries entries).read files k n).map
          fun members => { loaded n c with nested := members } := by
  obtain ⟨found, -, -, hname⟩ := hc
  unfold accompanied
  show (c.nestedClassNames.mapError _ >>= _) = _
  rw [ClassFile.nestedClassNames_eq hname]
  cases c.innerClasses with
  | error e => rfl
  | ok rows =>
    have hmap (members : Except ResolutionError (List Artifact)) :
        (members >>= fun members => pure { loaded n c with nested := members }) =
          members.map fun members => { loaded n c with nested := members } := by
      cases members <;> rfl
    exact hmap _

theorem exists_read_iff : (∃ a, (ofEntries entries).read files n requested = .ok a) ↔
    ∃ d, Good files entries n d := by
  simp only [read_eq_ok_iff]
  exact ⟨fun ⟨_, d, hd, _⟩ => ⟨d, hd⟩, fun ⟨d, hd⟩ => ⟨_, d, hd, rfl⟩⟩

/-- The classes directly inside are all there, or the first one that is not is what the
error is about. -/
theorem members_eq_error_iff {ns : List ClassName} {e : ResolutionError} :
    ns.eraseDups.mapM (fun k => (ofEntries entries).read files k n) = .error e ↔
      Behind (fun k => ∃ d, Good files entries k d) (fun k => Unfit files entries n k e) ns := by
  rw [mapM_eq_error_iff, behind_eraseDups]
  simp only [exists_read_iff, read_eq_error_iff]

theorem members_eq_ok {ns : List ClassName} {members : List Artifact}
    (h : ns.eraseDups.mapM (fun k => (ofEntries entries).read files k n) = .ok members) :
    members.map (·.name) = ns.eraseDups ∧ ∀ m, m ∈ members ↔
      ∃ k ∈ ns, ∃ d, Good files entries k d ∧ m = loaded k d := by
  have hread := mapM_eq_ok_iff.1 h
  obtain ⟨hnames, hmembers⟩ := forall₂_read hread
  refine ⟨hnames, fun m => ⟨fun hm => ?_, ?_⟩⟩
  · obtain ⟨d, hd, hm'⟩ := read_eq_ok_iff.1 (hmembers m hm).2
    refine ⟨m.name, ?_, d, hd, hm'⟩
    rw [← List.mem_eraseDups, ← hnames]
    exact List.mem_map_of_mem hm
  · rintro ⟨k, hk, d, hd, rfl⟩
    rw [← List.mem_eraseDups, ← hnames] at hk
    obtain ⟨m, hm, rfl⟩ := List.mem_map.1 hk
    obtain ⟨d', hd', hm'⟩ := read_eq_ok_iff.1 (hmembers m hm).2
    rwa [good_unique hd hd', ← hm']

/-! ## What the entries alone answer -/

theorem Climb.super (hc : Good files entries n c) (h : Climb files entries n seen next) :
    ∃ next, c.superName? = .ok next := by
  induction h with
  | start hc' hnext => exact ⟨_, good_unique hc' hc ▸ hnext⟩
  | up _ _ _ _ _ ih => exact ih

theorem checked_of_good (hc : Good files entries n c) : checked files entries n =
    match ancestry files entries (loaded n c) with
    | .error e => .error e
    | .ok () => accompanied files entries (loaded n c) := by
  unfold checked
  rw [read_eq_ok_iff.2 ⟨c, hc, rfl⟩]
  show (ancestry files entries (loaded n c) >>= _) = _
  cases ancestry files entries (loaded n c) <;> rfl

theorem ancestry_of_unreadable {e : ClassFileError} (h : c.superName? = .error e) :
    ancestry files entries (loaded n c) = .error (.malformed n "in-memory" (.classFile e)) := by
  unfold ancestry
  rw [superclassOf_loaded, h]
  rfl

theorem Stands.ancestry_eq (h : Stands files entries n c) :
    ancestry files entries (loaded n c) = .ok () := by
  obtain ⟨next, hnext⟩ := h.super
  exact (ancestry_eq_ok_iff h.good hnext).2 h.clear

theorem stands_of_ancestry (hc : Good files entries n c)
    (h : ancestry files entries (loaded n c) = .ok ()) : Stands files entries n c := by
  cases hnext : c.superName? with
  | error e =>
    rw [ancestry_of_unreadable hnext] at h
    cases h
  | ok next => exact ⟨hc, ⟨next, hnext⟩, (ancestry_eq_ok_iff hc hnext).1 h⟩

theorem checked_of_stands (h : Stands files entries n c) : checked files entries n =
    match c.innerClasses with
    | .error e => .error (.malformed n "in-memory" (.classFile e))
    | .ok rows =>
      ((directMembers n rows).eraseDups.mapM fun k => (ofEntries entries).read files k n).map
        fun members => { loaded n c with nested := members } := by
  rw [checked_of_good h.good, h.ancestry_eq]
  exact accompanied_loaded h.good

theorem stands_of_checked {a : Artifact} (h : checked files entries n = .ok a) :
    ∃ c, Stands files entries n c := by
  obtain ⟨b, hread, -⟩ := except_bind_eq_ok h
  obtain ⟨c, hc, rfl⟩ := read_eq_ok_iff.1 hread
  rw [checked_of_good hc] at h
  cases hancestry : ancestry files entries (loaded n c) with
  | error e =>
    rw [hancestry] at h
    cases h
  | ok _ => exact ⟨c, stands_of_ancestry hc hancestry⟩

/-- If the entries answer with a class, then all that is needed is there. -/
theorem checked_eq_ok {a : Artifact} (h : checked files entries n = .ok a) :
    ∃ c rows, Passes files entries n c rows ∧ Complete files entries n c rows a := by
  obtain ⟨c, hc⟩ := stands_of_checked h
  rw [checked_of_stands hc] at h
  cases hrows : c.innerClasses with
  | error e =>
    rw [hrows] at h
    cases h
  | ok rows =>
    rw [hrows] at h
    dsimp only at h
    cases hmembers : (directMembers n rows).eraseDups.mapM
        fun k => (ofEntries entries).read files k n with
    | error e =>
      rw [hmembers] at h
      cases h
    | ok members =>
      rw [hmembers] at h
      cases h
      obtain ⟨hnames, hexact⟩ := members_eq_ok hmembers
      refine ⟨c, rows, ⟨hc, hrows, fun m hm => ?_⟩, rfl, hexact, ?_⟩
      · have hread := exists_mapM_iff.1 ⟨members, hmembers⟩ m (List.mem_eraseDups.2 hm)
        exact exists_read_iff.1 hread
      · rw [Artifact.memberNames, hnames]
        exact nodup_eraseDups _

/-- If all that is needed is there, then the entries answer with the class. -/
theorem Passes.checked_eq (h : Passes files entries n c rows) :
    ∃ a, checked files entries n = .ok a := by
  have hmembers : ∀ k ∈ (directMembers n rows).eraseDups,
      ∃ a, (ofEntries entries).read files k n = .ok a :=
    fun k hk => exists_read_iff.2 (h.members k (List.mem_eraseDups.1 hk))
  obtain ⟨members, hread⟩ := exists_mapM_iff.2 hmembers
  rw [checked_of_stands h.stands, h.listed]
  dsimp only
  rw [hread]
  exact ⟨_, rfl⟩

/-- If they answer with an error, then it is about what is missing first. -/
theorem firstFailure_of_checked {e : ResolutionError} (h : checked files entries n = .error e) :
    ∃ k, FirstFailure files entries n k e := by
  cases hread : (ofEntries entries).read files n n with
  | error e' =>
    unfold checked at h
    rw [hread] at h
    cases h
    exact ⟨n, .self (.unfit (read_eq_error_iff.1 hread))⟩
  | ok a =>
    obtain ⟨c, hc, rfl⟩ := read_eq_ok_iff.1 hread
    cases hancestry : ancestry files entries (loaded n c) with
    | error e' =>
      rw [checked_of_good hc, hancestry] at h
      cases h
      cases hnext : c.superName? with
      | error reason =>
        rw [ancestry_of_unreadable hnext] at hancestry
        cases hancestry
        exact ⟨n, .self (.unreadable hc hnext)⟩
      | ok next =>
        obtain ⟨seen, k, hahead, hblocks⟩ := (ancestry_eq_error_iff hc hnext).1 hancestry
        exact ⟨k, .ancestor hc hahead hblocks⟩
    | ok _ =>
      have hstands := stands_of_ancestry hc hancestry
      rw [checked_of_stands hstands] at h
      cases hrows : c.innerClasses with
      | error reason =>
        rw [hrows] at h
        cases h
        exact ⟨n, .listing hstands hrows⟩
      | ok rows =>
        rw [hrows] at h
        dsimp only at h
        cases hmembers : (directMembers n rows).eraseDups.mapM
            fun k => (ofEntries entries).read files k n with
        | ok members =>
          rw [hmembers] at h
          cases h
        | error e' =>
          rw [hmembers] at h
          cases h
          obtain ⟨before, m, after, hm, hbefore, hunfit⟩ := members_eq_error_iff.1 hmembers
          exact ⟨m, .member hstands hrows hm hbefore hunfit⟩

/-- What is missing first leads to its error. -/
theorem FirstFailure.checked_eq {e : ResolutionError} (h : FirstFailure files entries n k e) :
    checked files entries n = .error e := by
  cases h with
  | self h =>
    cases h with
    | unfit h =>
      unfold checked
      rw [read_eq_error_iff.2 h]
      rfl
    | unreadable hc hsuper => rw [checked_of_good hc, ancestry_of_unreadable hsuper]
  | ancestor hc hahead h =>
    obtain ⟨next, hnext⟩ := hahead.climb.super hc
    rw [checked_of_good hc, (ancestry_eq_error_iff hc hnext).2 ⟨_, _, hahead, h⟩]
  | listing hc h => rw [checked_of_stands hc, h]
  | member hc hrows hm hbefore h =>
    have hmembers := members_eq_error_iff.2 ⟨_, _, _, hm, hbefore, h⟩
    rw [checked_of_stands hc, hrows]
    dsimp only
    rw [hmembers]
    rfl

theorem checked_eq_error_iff {e : ResolutionError} :
    checked files entries n = .error e ↔ ∃ k, FirstFailure files entries n k e :=
  ⟨firstFailure_of_checked, fun ⟨_, h⟩ => h.checked_eq⟩

/-! ## Contexts into which classes come back unedited -/

variable {context context' : Context} {out : List Artifact} {a : Artifact}

/-- The class and those held with it are what the entries have. -/
def Genuine (files : FileTree) (entries : List Entry) (a : Artifact) : Prop :=
  ∀ m ∈ a.withoutNested :: a.nested, ∀ requested,
    (ofEntries entries).read files m.name requested = .ok m

/-- Memory, what is remembered and what is out is what the entries have. -/
structure Agrees (files : FileTree) (entries : List Entry) (out : List Artifact)
    (context : Context) : Prop where
  searches : context.entries = entries
  faithful : Faithful files context
  out : ∀ a ∈ out, Genuine files entries a

theorem Asked.agrees (h : Agrees files entries out context)
    (hasked : Asked files context n context') : Agrees files entries out context' :=
  ⟨hasked.entries.trans h.searches, hasked.faithful, h.out⟩

theorem Agrees.checkedOut (h : Agrees files entries out context)
    (hout : checkout files n context = .ok a context') :
    Agrees files entries (a :: out) context' := by
  have ha := checkout_eq_ok h.faithful.tidy hout
  obtain ⟨-, hasked⟩ := checkout_answers h.faithful n
  rw [hout] at hasked
  refine ⟨ha.entries.trans h.searches, ⟨fun k b hb requested => ?_, ?_⟩,
    List.forall_mem_cons.2 ⟨?_, h.out⟩⟩
  · rw [read_congr ha.entries]
    exact h.faithful.cached k b (ha.left hb).2 requested
  · -- bringing the class back would not change what is remembered
    exact hasked.faithful.remembered
  · intro m hm requested
    rw [← h.searches, read_ofEntries]
    rcases ha.found m hm with hcached | ⟨-, hread⟩
    · exact h.faithful.cached m.name m hcached requested
    · exact read_of_read hread requested

theorem Agrees.restored (h : Agrees files entries out context) (ha : Genuine files entries a) :
    Agrees files entries out (context.restore a) := by
  refine ⟨h.searches, h.faithful.withCache fun k b hb => ?_, h.out⟩
  rcases mem_of_get?_restore hb with ⟨hmem, rfl⟩ | hb
  · refine .inr fun requested => ?_
    rw [← read_ofEntries, h.searches]
    exact ha b hmem requested
  · exact .inl hb

/-- Contexts into which classes come back unedited, over files that do not change, agree
with the entries. -/
theorem Reached.agrees (h : Reached (· = files) entries (fun a b => b = a) out context) :
    Agrees files entries out context := by
  induction h with
  | built htree h =>
    obtain rfl := build_eq_ok h
    exact ⟨rfl, faithful_ofEntries files entries, fun _ ha => (nomatch ha)⟩
  | resolved n htree _ ih =>
    subst htree
    rw [leaves_resolve]
    split_ifs
    · exact ih
    · exact (checkout_answers ih.faithful n).2.agrees ih
  | checkedOut htree _ hout ih =>
    subst htree
    exact ih.checkedOut hout
  | @refused _ _ _ _ n _ htree _ hrefused ih =>
    subst htree
    obtain ⟨-, hasked⟩ := checkout_answers ih.faithful n
    rw [hrefused] at hasked
    exact hasked.agrees ih
  | restored _ hb ih =>
    subst hb
    have hout := ih.out
    rw [List.forall_mem_append, List.forall_mem_cons] at hout
    have hrest : Agrees files entries _ _ :=
      ⟨ih.searches, ih.faithful, List.forall_mem_append.2 ⟨hout.1, hout.2.2⟩⟩
    exact hrest.restored hout.2.1
  | dropped _ ih =>
    have hout := ih.out
    rw [List.forall_mem_append, List.forall_mem_cons] at hout
    exact ⟨ih.searches, ih.faithful, List.forall_mem_append.2 ⟨hout.1, hout.2.2⟩⟩
  | discarded n _ ih =>
    exact ⟨ih.searches, ih.faithful.withCache fun _ _ hb => .inl (NameMap.get?_of_get?_erase hb),
      ih.out⟩

/-! ## Taking out what is not in memory -/

theorem Complete.of_sameAnswer {b : Artifact} (h : Complete files entries n c rows b)
    (hsame : SameAnswer (.ok a) (.ok b)) : Complete files entries n c rows a := by
  cases hsame with
  | ok hself hnested =>
    refine ⟨hself.trans h.self, fun m => hnested.mem_iff.trans (h.members m), ?_⟩
    exact (hnested.map _).nodup_iff.2 h.distinct

/-- A class that is not found is what is missing first, and the one that was asked for
needs it. -/
theorem FirstFailure.notFound {missing : ClassName}
    (hloaders : ∀ l, .loader l ∈ entries → l.Honest files)
    (h : FirstFailure files entries n k (.notFound missing requested)) :
    missing = k ∧ requested = n := by
  cases h with
  | self h | ancestor _ _ h => cases h with | unfit h => exact h.notFound hloaders
  | member _ _ _ _ h => exact h.notFound hloaders

/-- A class that is not in memory is taken out as the plain check of the entries has it. -/
theorem Agrees.checked_ok (h : Agrees files entries out context) (hn : context.isCached n = false)
    (hout : checkout files n context = .ok a context') :
    ∃ b, checked files entries n = .ok b ∧ SameAnswer (.ok a) (.ok b) := by
  obtain ⟨hanswer, -⟩ := checkout_answers h.faithful n
  rw [hn, if_neg Bool.false_ne_true, h.searches, hout] at hanswer
  cases hchecked : checked files entries n with
  | error e =>
    rw [hchecked] at hanswer
    cases hanswer
  | ok b =>
    rw [hchecked] at hanswer
    exact ⟨b, rfl, hanswer⟩

/-- If it is refused, so it is by the plain check. -/
theorem Agrees.checked_error (h : Agrees files entries out context)
    (hn : context.isCached n = false) (hrefused : checkout files n context = .error e context') :
    checked files entries n = .error e := by
  obtain ⟨hanswer, -⟩ := checkout_answers h.faithful n
  rw [hn, if_neg Bool.false_ne_true, h.searches, hrefused] at hanswer
  exact hanswer.symm.eq_error

theorem Agrees.exists_takes (h : Agrees files entries out context)
    (hloaders : ∀ l, .loader l ∈ entries → l.Honest files) (n : ClassName) :
    ∃ steps, Takes files n context steps (checkout files n context) := by
  have hsupplied : {n | Supplied files context.entries n}.Finite := by
    rw [h.searches]
    exact finite_supplied fun l hl => (hloaders l hl).finite
  obtain ⟨steps, -, htakes⟩ := takes_checkout (finite_known hsupplied) n
  exact ⟨steps, htakes⟩

/-- Taking out a class that is not in memory, in whatever context uses lead to: it comes to
an answer, which is the class if all that is needed is there, and else what is missing
first. -/
theorem first_checkout (h : Reached (· = files) entries (fun a b => b = a) out context)
    (hloaders : ∀ l, .loader l ∈ entries → l.Honest files) (hn : context.isCached n = false) :
    (∃ steps, Takes files n context steps (checkout files n context)) ∧
    ((∃ a context', checkout files n context = .ok a context') ↔
      ∃ c rows, Passes files entries n c rows) ∧
    (∀ a context', checkout files n context = .ok a context' →
      ∃ c rows, Passes files entries n c rows ∧ Complete files entries n c rows a) ∧
    (∀ e, (∃ context', checkout files n context = .error e context') ↔
      ∃ k, FirstFailure files entries n k e) ∧
    ∀ missing requested context',
      checkout files n context = .error (.notFound missing requested) context' →
        requested = n ∧ FirstFailure files entries n missing (.notFound missing n) := by
  have hagrees := h.agrees
  have hpasses : ∀ a context', checkout files n context = .ok a context' →
      ∃ c rows, Passes files entries n c rows ∧ Complete files entries n c rows a := by
    intro a context' hout
    obtain ⟨b, hchecked, hsame⟩ := hagrees.checked_ok hn hout
    obtain ⟨c, rows, hpasses, hcomplete⟩ := checked_eq_ok hchecked
    exact ⟨c, rows, hpasses, hcomplete.of_sameAnswer hsame⟩
  refine ⟨hagrees.exists_takes hloaders n, ⟨?_, ?_⟩, hpasses, fun e => ⟨?_, ?_⟩, ?_⟩
  · rintro ⟨a, context', hout⟩
    obtain ⟨c, rows, hc, -⟩ := hpasses a context' hout
    exact ⟨c, rows, hc⟩
  · rintro ⟨c, rows, hc⟩
    obtain ⟨b, hb⟩ := hc.checked_eq
    cases hout : checkout files n context with
    | ok a context' => exact ⟨a, context', rfl⟩
    | error e context' =>
      rw [hagrees.checked_error hn hout] at hb
      cases hb
  · rintro ⟨context', hrefused⟩
    exact checked_eq_error_iff.1 (hagrees.checked_error hn hrefused)
  · rintro ⟨k, hk⟩
    cases hout : checkout files n context with
    | error e' context' =>
      cases hk.checked_eq.symm.trans (hagrees.checked_error hn hout)
      exact ⟨context', rfl⟩
    | ok a context' =>
      obtain ⟨b, hb, -⟩ := hagrees.checked_ok hn hout
      cases hk.checked_eq.symm.trans hb
  · intro missing requested context' hrefused
    obtain ⟨k, hk⟩ := checked_eq_error_iff.1 (hagrees.checked_error hn hrefused)
    obtain ⟨rfl, rfl⟩ := hk.notFound hloaders
    exact ⟨rfl, hk⟩

/-! ## Two classes with one superclass -/

/-- The name `Base`. -/
def baseName : ClassName :=
  ⟨"Base", by constructor <;> simp [Text.split, ClassName.isForbidden]⟩

/-- The name `Child`. -/
def childName : ClassName :=
  ⟨"Child", by constructor <;> simp [Text.split, ClassName.isForbidden]⟩

/-- The name `Sibling`. -/
def siblingName : ClassName :=
  ⟨"Sibling", by constructor <;> simp [Text.split, ClassName.isForbidden]⟩

/-- A directory of classes with `Child` and `Sibling`, which extend `Base`. -/
def lineFiles : FileTree :=
  let child : Fixture := { Fixture.ofName childName with superName := some baseName }
  let sibling : Fixture := { Fixture.ofName siblingName with superName := some baseName }
  leaves (do child.writeTo ⟨"classes"⟩; sibling.writeTo ⟨"classes"⟩) (.empty ["work"])

/-- The loader of `Base`, whose superclass is nowhere. -/
def baseLoader : Loader :=
  let base : Fixture := { Fixture.ofName baseName with superName := some absentName }
  match base.build >>= ClassFile.toBytes with
  | .ok bytes => .inMemory "library" [(baseName, bytes)] []
  | .error _ => .inMemory "nothing" [] []

/-- The directory, and the loader behind it. -/
def lineEntries : List Entry := [.directory ⟨"classes"⟩, .loader baseLoader]

theorem honest_lineEntries (l : Loader) (hl : .loader l ∈ lineEntries) : l.Honest lineFiles := by
  obtain rfl : l = baseLoader := by simpa [lineEntries] using hl
  unfold baseLoader
  dsimp only
  split <;> exact honest_inMemory _ _ _ _

/-- The context after `Child` was asked for in vain. -/
def afterChild : Context := leaves (checkout lineFiles childName) (ofEntries lineEntries)

theorem reached_afterChild :
    Reached (· = lineFiles) lineEntries (fun a b => b = a) [] afterChild := by
  have hbuilt : build lineFiles lineEntries = .ok (ofEntries lineEntries) := by
    have hok : (build lineFiles lineEntries).isOk = true := by decide +kernel
    cases h : build lineFiles lineEntries with
    | error e =>
      rw [h] at hok
      cases hok
    | ok context => rw [build_eq_ok h]
  have hfails : (answer (checkout lineFiles childName (ofEntries lineEntries))).isOk = false := by
    decide +kernel
  unfold afterChild leaves
  cases hout : checkout lineFiles childName (ofEntries lineEntries) with
  | ok a context =>
    rw [hout] at hfails
    cases hfails
  | error e context => exact .refused rfl (.built rfl hbuilt) hout

/-- Though the superclass of `Base` is remembered by then, `Sibling` is refused because that
superclass is not found. -/
theorem sibling_refused :
    Reached (· = lineFiles) lineEntries (fun a b => b = a) [] afterChild ∧
    afterChild.superclasses.get? baseName = some (some absentName) ∧
    afterChild.isCached siblingName = false ∧
    FirstFailure lineFiles lineEntries siblingName absentName
      (.notFound absentName siblingName) := by
  have hcached : afterChild.isCached siblingName = false := by decide +kernel
  refine ⟨reached_afterChild, by decide +kernel, hcached, ?_⟩
  obtain ⟨-, -, -, -, hnotFound⟩ :=
    first_checkout reached_afterChild honest_lineEntries hcached
  have hfails : (answer (checkout lineFiles siblingName afterChild)).map (·.name) =
      .error (.notFound absentName siblingName) := by
    decide +kernel
  cases hout : checkout lineFiles siblingName afterChild with
  | ok a context' =>
    rw [hout] at hfails
    cases hfails
  | error e context' =>
    rw [hout] at hfails
    cases hfails
    exact (hnotFound absentName siblingName context' hout).2

end Context

end Classpath

end ClassStamp
