import ClassStamp.Proofs.FileTree.Changes
import ClassStamp.Proofs.Path.Joining

/-!
# Paths in an earlier tree

What a path leads to later may not have been there before, and a path may even
lead to what was there all along only since a directory was made that it goes
through and leaves again. If it leaves none, what it leads to is found as soon
as it is there.

* `find_notFound_earlier`: a path that leads nowhere in a later tree led nowhere
  before;
* `Steady`: the roots that lead to what is there;
* `read_earlier`: a file that is read below such a root could be read as soon as it
  was there.
-/

namespace ClassStamp.FileTree

variable {t t' : FileTree} {names : List String} {place last : Place} {node node' there' : Node}

theorem exists_way_of_no_parent (h : ".." ∉ names) (place : Place) :
    ∃ way, names.foldl stepFrom place = way ++ place := by
  induction names generalizing place with
  | nil => exact ⟨[], rfl⟩
  | cons name names ih =>
    rw [List.mem_cons, not_or] at h
    rw [List.foldl_cons, stepFrom, if_neg (Ne.symm h.1)]
    split
    · exact ih h.2 place
    · obtain ⟨way, hway⟩ := ih h.2 (name :: place)
      exact ⟨way ++ [name], by rw [hway, List.append_assoc]; rfl⟩

/-- Names that never go up lead to what was there in an earlier tree already. -/
theorem follow_earlier (h : Settled t t') (hnames : ".." ∉ names)
    (hnode : t.node? place = some node) (hnode' : t'.node? place = some node')
    (hf : t'.follow names place node' = .ok (last, there')) {there : Node}
    (hthere : t.node? last = some there) : t.follow names place node = .ok (last, there) := by
  induction names generalizing place node node' with
  | nil =>
    cases hf
    cases hnode.symm.trans hthere
    rfl
  | cons name names ih =>
    rw [List.mem_cons, not_or] at hnames
    cases node' with
    | file content => cases hf
    | directory entries' =>
      obtain ⟨between, hbetween, hkind⟩ := h.node? hnode
      cases hnode'.symm.trans hbetween
      cases node with
      | file content => cases hkind
      | directory entries =>
        rw [follow] at hf ⊢
        split at hf
        · rw [if_pos (by assumption)]
          exact ih hnames.2 hnode hnode' hf
        rw [if_neg (by assumption), if_neg (Ne.symm hnames.1)]
        rw [if_neg (Ne.symm hnames.1)] at hf
        split at hf
        · cases hf
        rw [if_neg (by assumption)]
        split at hf
        · cases hf
        · rename_i next' hnext'
          rw [← node?_cons_of_directory hnode'] at hnext'
          -- what was there is below, so the directory on the way to it was there
          obtain ⟨way, hway⟩ := exists_way_of_no_parent hnames.2 (name :: place)
          have hbelow := hthere
          rw [(follow_place hnext' hf).1, hway, node?_append] at hbelow
          obtain ⟨next, hnext, -⟩ := Option.bind_eq_some_iff.1 hbelow
          have hlookup := hnext
          rw [node?_cons_of_directory hnode] at hlookup
          rw [hlookup]
          exact ih hnames.2 hnext hnext' hf

theorem follow_notFound_earlier (h : Settled t t') (hnode : t.node? place = some node)
    (hnode' : t'.node? place = some node')
    (hf : t'.follow names place node' = .error .notFound) :
    t.follow names place node = .error .notFound := by
  induction names generalizing place node node' with
  | nil => cases hf
  | cons name names ih =>
    cases node' with
    | file content => cases hf
    | directory entries' =>
      obtain ⟨between, hbetween, hkind⟩ := h.node? hnode
      cases hnode'.symm.trans hbetween
      cases node with
      | file content => cases hkind
      | directory entries =>
        rw [follow] at hf ⊢
        split at hf
        · rw [if_pos (by assumption)]
          exact ih hnode hnode' hf
        rw [if_neg (by assumption)]
        split at hf
        · rw [if_pos (by assumption)]
          cases habove : t.node? place.tail with
          | none => rfl
          | some above =>
            obtain ⟨above', habove', -⟩ := h.node? habove
            rw [habove'] at hf
            exact ih habove habove' hf
        rw [if_neg (by assumption)]
        split at hf
        · cases hf
        rw [if_neg (by assumption)]
        rw [← node?_cons_of_directory hnode'] at hf
        rw [← node?_cons_of_directory hnode]
        cases hnext : t.node? (name :: place) with
        | none => rfl
        | some next =>
          obtain ⟨next', hnext', -⟩ := h.node? hnext
          rw [hnext'] at hf
          exact ih hnext hnext' hf

theorem find_notFound_earlier (h : Settled t t') {p : Path} (hf : t'.find p = .error .notFound) :
    t.find p = .error .notFound := by
  have hstart : t'.start p = t.start p := by rw [start, start, h.workingDirectory]
  unfold find at hf ⊢
  cases hp : checkPath p with
  | error e =>
    rw [hp] at hf
    exact hf
  | ok _ =>
    rw [hp] at hf
    have hfollow : t'.followFrom p (steps p) = .error .notFound := by
      cases hfollow : t'.followFrom p (steps p) with
      | error e =>
        rw [hfollow] at hf
        cases hf
        rfl
      | ok found =>
        rw [hfollow] at hf
        dsimp only [bind, Except.bind] at hf
        split at hf <;> cases hf
    have hback : t.followFrom p (steps p) = .error .notFound := by
      unfold followFrom at hfollow ⊢
      rw [hstart] at hfollow
      cases hfirst : t.node? (t.start p) with
      | none => rfl
      | some first =>
        obtain ⟨first', hfirst', -⟩ := h.node? hfirst
        rw [hfirst'] at hfollow
        exact follow_notFound_earlier h hfirst hfirst' hfollow
    rw [hback]
    rfl

theorem read_notFound_earlier (h : Settled t t') {p : Path}
    (hr : t'.read p = .error .notFound) : t.read p = .error .notFound := by
  have hfind : t'.find p = .error .notFound := by
    unfold read at hr
    cases hf : t'.find p with
    | error e =>
      rw [hf] at hr
      cases hr
      rfl
    | ok found =>
      obtain ⟨place, node⟩ := found
      rw [hf] at hr
      cases node <;> cases hr
  rw [read, find_notFound_earlier h hfind]
  rfl

/-! ## Roots -/

/-- The path leads to a directory, or never goes up. -/
def Steady (t : FileTree) (p : Path) : Prop := t.isDirectory p = true ∨ ".." ∉ steps p

variable {root q : Path}

theorem followFrom_join_earlier (h : Settled t t') (hroot : t.Steady root)
    (hq : q.isAbsolute = false) (hup : ".." ∉ steps q)
    (hf : t'.followFrom (root.join q) (steps (root.join q)) = .ok (last, there')) {there : Node}
    (hthere : t.node? last = some there) :
    t.followFrom (root.join q) (steps (root.join q)) = .ok (last, there) := by
  rw [steps_join_of_relative root hq, followFrom_join_of_relative _ root hq] at hf ⊢
  rcases hroot with hdirectory | hnone
  · obtain ⟨place, entries, hfind⟩ := isDirectory_iff.1 hdirectory
    have hfirst := (find_eq_ok.1 hfind).2.1
    obtain ⟨node', hfirst', -⟩ := followFrom_of_settled h hfirst
    rw [followFrom_append hfirst'] at hf
    rw [followFrom_append hfirst]
    exact follow_earlier h hup (followFrom_place hfirst).2 (followFrom_place hfirst').2 hf hthere
  · have hnames : ".." ∉ steps root ++ steps q := by
      rw [List.mem_append, not_or]
      exact ⟨hnone, hup⟩
    have hstart : t'.start root = t.start root := by rw [start, start, h.workingDirectory]
    obtain ⟨hlast, -⟩ := followFrom_place hf
    unfold followFrom at hf ⊢
    rw [hstart] at hf hlast
    split at hf
    · cases hf
    rename_i first' hfirst'
    -- what was there is below the beginning, so that was there
    obtain ⟨way, hway⟩ := exists_way_of_no_parent hnames (t.start root)
    have hbelow := hthere
    rw [hlast, hway, node?_append] at hbelow
    obtain ⟨first, hfirst, -⟩ := Option.bind_eq_some_iff.1 hbelow
    rw [hfirst]
    exact follow_earlier h hnames hfirst hfirst' hf hthere

/-- A file that is read below a steady root was read from there as soon as it was
there. -/
theorem read_earlier (h : Settled t t') (hroot : t.Steady root) (hq : q.isAbsolute = false)
    (hup : ".." ∉ steps q) {content content' : Bytes} (hr : t'.read (root.join q) = .ok content')
    (hat : t.fileAt? (t.placeOf (root.join q)) = some content) :
    t.read (root.join q) = .ok content := by
  obtain ⟨place, hfind⟩ := read_eq_ok.1 hr
  obtain ⟨hp, hf, hslash⟩ := find_eq_ok.1 hfind
  rw [← h.placeOf, ← (find_place hfind).1, fileAt?_eq_some_iff] at hat
  have hf' := followFrom_join_earlier h hroot hq hup hf hat
  exact read_eq_ok.2 ⟨place, find_eq_ok.2 ⟨hp, hf', hslash⟩⟩

end ClassStamp.FileTree
