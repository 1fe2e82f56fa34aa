import Mathlib.Data.List.Induction
import ClassStamp.Proofs.FileTree.Places

/-!
# Paths below a root

A path that is written behind a root goes the way of the root and then its own.
Names that are no detours can be written behind a root one by one or all at
once, and seen from the root the path is those names again.

* `steps_join_of_relative`, `placeOf_join_of_relative`: where such a path leads;
* `Path.spelled`: the relative path that some names spell out, and
  `Path.below_eq_join`: going down name by name;
* `Path.stripRoot?_join`: the path seen from the root.
-/

namespace ClassStamp

namespace Text

theorem split_append_cons (sep : Char) (cs ds : List Char) :
    split sep (cs ++ sep :: ds) = split sep cs ++ split sep ds := by
  induction cs with
  | nil => simp [split]
  | cons c cs ih =>
    rw [List.cons_append, split, split]
    by_cases hc : c = sep
    · rw [if_pos hc, if_pos hc, ih]
      rfl
    · rw [if_neg hc, if_neg hc, ih]
      cases hs : split sep cs with
      | nil => exact absurd hs (split_ne_nil sep cs)
      | cons piece pieces => rfl

theorem join_append {sep : Char} {xs ys : List (List Char)} (hxs : xs ≠ []) (hys : ys ≠ []) :
    join sep (xs ++ ys) = join sep xs ++ sep :: join sep ys := by
  induction xs with
  | nil => exact absurd rfl hxs
  | cons x xs ih =>
    cases xs with
    | nil =>
      obtain ⟨y, ys, rfl⟩ := List.exists_cons_of_ne_nil hys
      rfl
    | cons x' xs =>
      have hrest := ih (List.cons_ne_nil x' xs)
      rw [List.cons_append] at hrest ⊢
      rw [List.cons_append, join, hrest, join, List.append_assoc, List.cons_append]

theorem join_concat (sep : Char) {pieces : List (List Char)} (hne : pieces ≠ [])
    (last : List Char) : join sep (pieces ++ [last]) = join sep pieces ++ sep :: last :=
  join_append hne (List.cons_ne_nil last [])

theorem mem_join {sep c : Char} {pieces : List (List Char)} (h : c ∈ join sep pieces) :
    c = sep ∨ ∃ piece ∈ pieces, c ∈ piece := by
  induction pieces with
  | nil => cases h
  | cons piece pieces ih =>
    cases pieces with
    | nil => exact .inr ⟨piece, List.mem_cons_self, h⟩
    | cons next pieces =>
      rcases List.mem_append.1 h with h | h
      · exact .inr ⟨piece, List.mem_cons_self, h⟩
      rcases List.mem_cons.1 h with rfl | h
      · exact .inl rfl
      · exact (ih h).imp_right fun ⟨p, hp, hc⟩ => ⟨p, List.mem_cons_of_mem piece hp, hc⟩

theorem map_ofList_toList (names : List String) :
    (names.map String.toList).map String.ofList = names := by
  rw [List.map_map]
  exact (List.map_congr_left fun s _ => String.ofList_toList).trans (List.map_id names)

theorem map_toList_ofList (pieces : List (List Char)) :
    (pieces.map String.ofList).map String.toList = pieces := by
  rw [List.map_map]
  exact (List.map_congr_left fun cs _ => String.toList_ofList).trans (List.map_id pieces)

end Text

namespace Path

theorem ext_chars {p q : Path} (h : p.text.toList = q.text.toList) : p = q := by
  cases p
  cases q
  rw [Path.mk.injEq]
  exact String.toList_inj.1 h

/-! ## Joining -/

/-- What stands between a root and what is written behind it. -/
def gap (root : Path) : List Char :=
  if root.text = "" ∨ root.text.toList.getLast? = some '/' then [] else ['/']

theorem join_chars (root : Path) {q : Path} (hq : q.isAbsolute = false) :
    (root.join q).text.toList = root.text.toList ++ (root.gap ++ q.text.toList) := by
  rw [join, hq, if_neg Bool.false_ne_true, gap]
  split
  · rename_i hlast
    rw [if_pos (.inl (String.toList_inj.1 (List.getLast?_eq_none_iff.1 hlast)))]
    exact String.toList_append
  · rename_i hlast
    rw [if_pos (.inr hlast)]
    exact String.toList_append
  · rename_i c hc hlast
    rw [if_neg]
    · rw [String.toList_append, String.toList_append, List.append_assoc]
      rfl
    · rintro (hempty | hslash)
      · rw [hempty] at hlast
        cases hlast
      · exact hc (Option.some.inj (hlast.symm.trans hslash))

/-- A relative path stands behind a root after exactly one slash, unless the
root is empty. -/
theorem join_cases (root : Path) {q : Path} (hq : q.isAbsolute = false) :
    root.text.toList = [] ∧ (root.join q).text.toList = q.text.toList ∨
      ∃ cs, (root.text.toList = cs ++ ['/'] ∨ root.text.toList = cs ∧ cs ≠ []) ∧
        (root.join q).text.toList = cs ++ '/' :: q.text.toList := by
  rw [join_chars root hq, gap]
  split
  · rename_i hempty
    rcases hempty with hempty | hlast
    · exact .inl ⟨by rw [hempty]; rfl, by rw [hempty]; rfl⟩
    · obtain ⟨cs, hcs⟩ := List.getLast?_eq_some_iff.1 hlast
      exact .inr ⟨cs, .inl hcs, by rw [hcs, List.append_assoc]; rfl⟩
  · rename_i hfull
    exact .inr ⟨root.text.toList,
      .inr ⟨rfl, fun hnil => hfull (.inl (String.toList_inj.1 hnil))⟩, rfl⟩

theorem isAbsolute_join_of_relative (root : Path) {q : Path} (hq : q.isAbsolute = false) :
    (root.join q).isAbsolute = root.isAbsolute := by
  rcases join_cases root hq with ⟨hroot, hjoin⟩ | ⟨cs, hroot, hjoin⟩
  · rw [isAbsolute] at hq ⊢
    rw [hjoin, hq, isAbsolute, hroot]
    rfl
  · rw [isAbsolute, isAbsolute, hjoin]
    cases cs with
    | nil =>
      rcases hroot with hroot | ⟨-, hne⟩
      · rw [hroot]; rfl
      · exact absurd rfl hne
    | cons c cs => rcases hroot with hroot | ⟨hroot, -⟩ <;> rw [hroot] <;> rfl

/-- A path that does not end in a slash can be written behind a root together
with what follows it. -/
theorem join_join (root : Path) {p q : Path} (hp : p.isAbsolute = false)
    (hne : p.text.toList ≠ []) (hpq : (p.join q).isAbsolute = false) (hq : q.isAbsolute = false) :
    (root.join p).join q = root.join (p.join q) := by
  have hgap : (root.join p).gap = p.gap := by
    have hempty : (root.join p).text ≠ "" := fun he => by
      have hchars := join_chars root hp
      rw [he] at hchars
      exact hne (List.append_eq_nil_iff.1 (List.append_eq_nil_iff.1 hchars.symm).2).2
    have hempty' : p.text ≠ "" := fun he => hne (by rw [he]; rfl)
    simp only [gap, hempty, hempty', join_chars root hp, ← List.append_assoc,
      List.getLast?_append_of_ne_nil _ hne]
  apply ext_chars
  rw [join_chars _ hq, join_chars _ hpq, join_chars _ hq, join_chars _ hp, hgap]
  simp only [List.append_assoc]

end Path

namespace FileTree

theorem steps_of_chars {p : Path} {cs : List Char} (h : p.text.toList = cs) :
    steps p = ((Text.split '/' cs).map String.ofList).filter (· ≠ "") := by
  rw [steps, Path.slashed, h]

/-- A relative path behind a root goes the way of the root, then its own. -/
theorem steps_join_of_relative (root : Path) {q : Path} (hq : q.isAbsolute = false) :
    steps (root.join q) = steps root ++ steps q := by
  rcases Path.join_cases root hq with ⟨hroot, hjoin⟩ | ⟨cs, hroot, hjoin⟩
  · rw [steps_of_chars hjoin, steps_of_chars hroot]
    rfl
  · have hsteps : steps root = ((Text.split '/' cs).map String.ofList).filter (· ≠ "") := by
      rcases hroot with hroot | ⟨hroot, -⟩
      · rw [steps_of_chars hroot, Text.split_append_cons]
        simp [Text.split]
      · rw [steps_of_chars hroot]
    rw [steps_of_chars hjoin, hsteps, Text.split_append_cons, List.map_append,
      List.filter_append]
    rfl

/-- Names that are no detours lead straight down. -/
theorem foldl_stepFrom {names : List String} (h : ∀ name ∈ names, name ≠ "." ∧ name ≠ "..")
    (place : Place) : names.foldl stepFrom place = names.reverse ++ place := by
  induction names generalizing place with
  | nil => rfl
  | cons name names ih =>
    obtain ⟨hdot, hup⟩ := h name List.mem_cons_self
    rw [List.foldl_cons, stepFrom, if_neg hdot, if_neg hup,
      ih fun name' h' => h name' (List.mem_cons_of_mem name h'), List.reverse_cons,
      List.append_assoc]
    rfl

/-- The place of a relative path without detours below a root. -/
theorem placeOf_join_of_relative (t : FileTree) (root : Path) {q : Path}
    (hq : q.isAbsolute = false) (hplain : ∀ name ∈ steps q, name ≠ "." ∧ name ≠ "..") :
    t.placeOf (root.join q) = (steps q).reverse ++ t.placeOf root := by
  rw [placeOf, placeOf, steps_join_of_relative root hq, List.foldl_append, start, start,
    Path.isAbsolute_join_of_relative root hq, foldl_stepFrom hplain]

/-- A relative path behind a root begins where the root does. -/
theorem followFrom_join_of_relative (t : FileTree) (root : Path) {q : Path}
    (hq : q.isAbsolute = false) (names : List String) :
    t.followFrom (root.join q) names = t.followFrom root names := by
  rw [followFrom, followFrom, start, start, Path.isAbsolute_join_of_relative root hq]

end FileTree

namespace Path

/-! ## Names -/

/-- A name that a path goes through as it is: neither empty nor a detour, and
without a slash. -/
structure IsName (s : String) : Prop where
  nonempty : s ≠ ""
  not_here : s ≠ "."
  not_parent : s ≠ ".."
  unslashed : '/' ∉ s.toList

/-- The relative path that goes through some names. -/
def spelled (names : List String) : Path :=
  ⟨String.ofList (Text.join '/' (names.map String.toList))⟩

theorem spelled_chars (names : List String) :
    (spelled names).text.toList = Text.join '/' (names.map String.toList) := by
  rw [spelled, String.toList_ofList]

section Names

variable {names : List String} (h : ∀ name ∈ names, IsName name)
include h

theorem slashed_spelled (hne : names ≠ []) : (spelled names).slashed = names := by
  rw [slashed, spelled_chars, Text.split_join, Text.map_ofList_toList]
  · exact fun hnil => hne (List.map_eq_nil_iff.1 hnil)
  · intro piece hp
    obtain ⟨name, hname, rfl⟩ := List.mem_map.1 hp
    exact (h name hname).unslashed

theorem isAbsolute_spelled : (spelled names).isAbsolute = false := by
  rw [isAbsolute, spelled_chars]
  cases names with
  | nil => rfl
  | cons name names =>
    obtain ⟨hne, -, -, hslash⟩ := h name List.mem_cons_self
    cases hcs : name.toList with
    | nil => exact absurd (String.toList_inj.1 hcs) hne
    | cons c cs =>
      rw [hcs] at hslash
      rw [List.map_cons, hcs, Text.join_cons_cons, List.head?_cons]
      exact beq_false_of_ne fun he => hslash (Option.some.inj he ▸ List.mem_cons_self)

theorem steps_spelled : FileTree.steps (spelled names) = names := by
  rw [FileTree.steps]
  by_cases hne : names = []
  · subst hne
    rfl
  · rw [slashed_spelled h hne]
    exact List.filter_eq_self.2 fun name hname => decide_eq_true (h name hname).nonempty

end Names

/-- The last character of a spelled path is that of its last name. -/
theorem getLast?_spelled {names : List String} {name : String}
    (hne : name ≠ "") :
    (spelled (names ++ [name])).text.toList.getLast? = name.toList.getLast? := by
  have hchars : name.toList ≠ [] := fun hnil => hne (String.toList_inj.1 hnil)
  rw [spelled_chars, List.map_append]
  by_cases hnil : names = []
  · subst hnil
    rfl
  · rw [List.map_singleton, Text.join_concat _ (fun h => hnil (List.map_eq_nil_iff.1 h)),
      List.append_cons, List.getLast?_append_of_ne_nil _ hchars]

theorem spelled_singleton (name : String) : spelled [name] = ⟨name⟩ := by
  rw [spelled, List.map_singleton, Text.join, String.ofList_toList]

theorem IsName.isAbsolute {name : String} (h : IsName name) :
    (⟨name⟩ : Path).isAbsolute = false :=
  spelled_singleton name ▸ isAbsolute_spelled (List.forall_mem_singleton.2 h)

/-- A slash is put behind names, unless there are none. -/
theorem gap_spelled {names : List String} (hne : names ≠ []) (h : ∀ s ∈ names, IsName s) :
    (spelled names).text ≠ "" ∧ (spelled names).gap = ['/'] := by
  obtain ⟨before, last, rfl⟩ := names.eq_nil_or_concat'.resolve_left hne
  obtain ⟨hlast, -, -, hslash⟩ := h last (List.mem_append_right _ List.mem_cons_self)
  have hend := @getLast?_spelled before _ hlast
  have hempty : (spelled (before ++ [last])).text ≠ "" := fun he => by
    rw [he] at hend
    exact hlast (String.toList_inj.1 (List.getLast?_eq_none_iff.1 hend.symm))
  refine ⟨hempty, ?_⟩
  rw [gap, if_neg]
  rintro (he | he)
  · exact hempty he
  · exact hslash (List.mem_of_getLast? (hend.symm.trans he))

theorem spelled_concat {names : List String} {name : String} (h : ∀ s ∈ names, IsName s)
    (hname : IsName name) : spelled (names ++ [name]) = (spelled names).join ⟨name⟩ := by
  apply ext_chars
  rw [join_chars _ hname.isAbsolute]
  by_cases hne : names = []
  · subst hne
    rw [List.nil_append, spelled_singleton]
    rfl
  · rw [(gap_spelled hne h).2, spelled_chars, spelled_chars, List.map_append, List.map_singleton,
      Text.join_concat _ (fun hnil => hne (List.map_eq_nil_iff.1 hnil))]
    rfl

/-! ## Going down -/

/-- The path that goes down from a root through some names. -/
def below (root : Path) (names : List String) : Path :=
  names.foldl (fun p name => p.join ⟨name⟩) root

theorem below_concat (root : Path) (names : List String) (name : String) :
    root.below (names ++ [name]) = (root.below names).join ⟨name⟩ := by
  rw [below, List.foldl_append]
  rfl

/-- Going down name by name is as good as all at once. -/
theorem below_eq_join (root : Path) {names : List String} (hne : names ≠ [])
    (h : ∀ name ∈ names, IsName name) : root.below names = root.join (spelled names) := by
  induction names using List.reverseRecOn with
  | nil => exact absurd rfl hne
  | append_singleton names name ih =>
    have hnames := fun s hs => h s (List.mem_append_left _ hs)
    have hname := h name (List.mem_append_right _ List.mem_cons_self)
    rw [below_concat]
    by_cases hnil : names = []
    · subst hnil
      rw [List.nil_append, spelled_singleton]
      rfl
    · have hwhole := isAbsolute_spelled h
      have hfull : (spelled names).text.toList ≠ [] := fun he =>
        (gap_spelled hnil hnames).1 (String.toList_inj.1 he)
      rw [spelled_concat hnames hname] at hwhole ⊢
      rw [ih hnil hnames,
        join_join root (isAbsolute_spelled hnames) hfull hwhole hname.isAbsolute]

/-! ## Seen from the root -/

/-- A name as a part of a path. -/
def named (name : String) : Piece := (name, some (.name name))

theorem IsName.ofText {name : String} (h : IsName name) :
    Component.ofText name = some (.name name) := by
  rw [Component.ofText, if_neg (not_or.2 ⟨h.nonempty, h.not_here⟩), if_neg h.not_parent]

/-- What the first text between slashes stands for. -/
def headOf (absolute : Bool) (first : String) : Option Component :=
  if absolute then some .root else if first = "." then some .here else Component.ofText first

theorem pieces_of_slashed {p : Path} {first : String} {rest : List String}
    (h : p.slashed = first :: rest) :
    p.pieces = (first, headOf p.isAbsolute first) :: rest.map fun s => (s, Component.ofText s) := by
  rw [pieces, h]
  rfl

theorem map_named {names : List String} (h : ∀ name ∈ names, IsName name) :
    (names.map fun s => (s, Component.ofText s)) = names.map named :=
  List.map_congr_left fun s hs => by rw [(h s hs).ofText, named]

theorem pieces_spelled {names : List String} (hne : names ≠ []) (h : ∀ name ∈ names, IsName name) :
    (spelled names).pieces = names.map named := by
  cases names with
  | nil => exact absurd rfl hne
  | cons name names =>
    obtain ⟨hname, hnames⟩ := List.forall_mem_cons.1 h
    rw [pieces_of_slashed (slashed_spelled h hne), isAbsolute_spelled h, headOf,
      if_neg Bool.false_ne_true, if_neg hname.not_here, hname.ofText, map_named hnames]
    rfl

/-- Only the empty path has no component. -/
theorem components_ne_nil {p : Path} (h : p.text.toList ≠ []) : p.components ≠ [] := by
  obtain ⟨c, cs, hcs⟩ := List.exists_cons_of_ne_nil h
  obtain ⟨piece, pieces, hpieces⟩ := List.exists_cons_of_ne_nil (Text.split_ne_nil '/' (c :: cs))
  have hslashed : p.slashed = String.ofList piece :: pieces.map String.ofList := by
    rw [slashed, hcs, hpieces, List.map_cons]
  have hhead : (headOf p.isAbsolute (String.ofList piece)).isSome := by
    rw [headOf, isAbsolute, hcs, List.head?_cons]
    by_cases hc : c = '/'
    · subst hc
      rfl
    rw [if_neg (fun he => hc (Option.some.inj (eq_of_beq he)))]
    split
    · rfl
    -- the first text begins with a character that is no slash
    have hne : String.ofList piece ≠ "" := fun he => by
      rw [Text.split, if_neg hc] at hpieces
      have hnil : piece = [] := by rw [← String.toList_ofList (l := piece), he]; rfl
      split at hpieces <;> rw [hnil] at hpieces <;> cases hpieces
    rw [Component.ofText, if_neg (not_or.2 ⟨hne, by assumption⟩)]
    split <;> rfl
  obtain ⟨x, hx⟩ := Option.isSome_iff_exists.1 hhead
  rw [components, pieces_of_slashed hslashed, hx]
  exact List.cons_ne_nil _ _

/-- Below a root, the pieces of some names come behind those of the root. -/
theorem pieces_join_spelled (root : Path) {names : List String} (hne : names ≠ [])
    (h : ∀ name ∈ names, IsName name) :
    root.text.toList = [] ∧ root.join (spelled names) = spelled names ∨
      ∃ lead, (root.join (spelled names)).pieces = lead ++ names.map named ∧
        lead.filterMap (·.2) = root.components ∧ root.components ≠ [] := by
  have hrelative := isAbsolute_spelled h
  have habsolute := isAbsolute_join_of_relative root hrelative
  rcases join_cases root hrelative with ⟨hroot, hjoin⟩ | ⟨cs, hroot, hjoin⟩
  · exact .inl ⟨hroot, ext_chars hjoin⟩
  obtain ⟨piece, pieces, hpieces⟩ := List.exists_cons_of_ne_nil (Text.split_ne_nil '/' cs)
  let first := String.ofList piece
  let rest := pieces.map String.ofList
  have hslashed : (root.join (spelled names)).slashed = first :: (rest ++ names) := by
    have hnames := slashed_spelled h hne
    rw [slashed] at hnames
    rw [slashed, hjoin, Text.split_append_cons, hpieces, List.map_append, hnames]
    rfl
  have hcomponents : ((first, headOf root.isAbsolute first) ::
      rest.map fun s => (s, Component.ofText s)).filterMap (·.2) = root.components := by
    rcases hroot with hroot | ⟨hroot, -⟩
    · have hroot' : root.slashed = first :: (rest ++ [""]) := by
        rw [slashed, hroot, Text.split_append_cons, hpieces, List.map_append]
        rfl
      have hnone : ([("", Component.ofText "")] : List Piece).filterMap (·.2) = [] := rfl
      rw [components, pieces_of_slashed hroot', List.map_append, ← List.cons_append,
        List.filterMap_append, List.map_singleton, hnone, List.append_nil]
    · have hroot' : root.slashed = first :: rest := by
        rw [slashed, hroot, hpieces, List.map_cons]
      rw [components, pieces_of_slashed hroot']
  refine .inr ⟨_, ?_, hcomponents, components_ne_nil fun hnil => ?_⟩
  · rw [pieces_of_slashed hslashed, habsolute, List.map_append, map_named h]
    rfl
  · rcases hroot with hroot | ⟨hroot, hcs⟩
    · rw [hroot] at hnil
      cases List.append_eq_nil_iff.1 hnil |>.2
    · exact hcs (hroot.symm.trans hnil)

theorem dropWhile_named (names : List String) :
    (names.map named).dropWhile (·.2.isNone) = names.map named := by
  cases names <;> rfl

/-- The components that stand before some names are dropped together with what
stands for nothing. -/
theorem dropComponents_append {lead : List Piece} {names : List String}
    (hlead : lead.filterMap (·.2) ≠ []) :
    dropComponents (lead.filterMap (·.2)).length (lead ++ names.map named) = names.map named := by
  induction lead with
  | nil => exact absurd rfl hlead
  | cons piece lead ih =>
    obtain ⟨text, component⟩ := piece
    cases component with
    | none =>
      obtain ⟨x, xs, hxs⟩ := List.exists_cons_of_ne_nil hlead
      have ih := ih hlead
      rw [List.filterMap_cons_none rfl] at hxs ⊢
      rw [hxs, List.length_cons] at ih ⊢
      rw [List.cons_append, dropComponents]
      exact ih
    | some x =>
      have hsome : ((text, some x) :: lead).filterMap (·.2) = x :: lead.filterMap (·.2) := rfl
      rw [hsome, List.length_cons, List.cons_append]
      cases hmore : lead.filterMap (·.2) with
      | nil =>
        -- nothing but empty texts is left before the names
        have hnone : ∀ piece ∈ lead, piece.2.isNone = true := fun piece hpiece =>
          Option.isNone_iff_eq_none.2 (List.filterMap_eq_nil_iff.1 hmore piece hpiece)
        rw [List.length_nil, Nat.zero_add, dropComponents, List.dropWhile_append_of_pos hnone,
          dropWhile_named]
      | cons y ys =>
        have ih := ih (by rw [hmore]; exact List.cons_ne_nil y ys)
        rw [hmore, List.length_cons] at ih
        rw [List.length_cons, dropComponents]
        exact ih

theorem ofPieces_named {names : List String} (hne : names ≠ []) :
    ofPieces (trimPieces (names.map named)) = spelled names := by
  have htrim : trimPieces (names.map named) = names.map named := by
    rw [trimPieces, ← List.map_reverse, dropWhile_named, List.map_reverse, List.reverse_reverse]
  have hchars : ((names.map named).map (·.1.toList)) = names.map String.toList := by
    rw [List.map_map]
    rfl
  rw [htrim, spelled, ← hchars]
  cases names with
  | nil => exact absurd rfl hne
  | cons name names => cases names <;> rfl

/-- What some names spell out below a root is seen from the root as it is. -/
theorem stripRoot?_join (root : Path) {names : List String} (hne : names ≠ [])
    (h : ∀ name ∈ names, IsName name) :
    (root.join (spelled names)).stripRoot? root = some (spelled names) := by
  rw [stripRoot?]
  rcases pieces_join_spelled root hne h with ⟨hroot, hjoin⟩ | ⟨lead, hpieces, hlead, hroot⟩
  · have hnil : root.components = [] := by
      rw [components, pieces, slashed, isAbsolute, hroot]
      rfl
    rw [hnil, hjoin, List.isPrefixOf, if_pos rfl, List.length_nil, dropComponents,
      pieces_spelled hne h, ofPieces_named hne]
  · have hcomponents : (root.join (spelled names)).components =
        root.components ++ (names.map named).filterMap (·.2) := by
      rw [components, hpieces, List.filterMap_append, hlead]
    rw [hcomponents, if_pos (List.isPrefixOf_iff_prefix.2 (List.prefix_append _ _)), hpieces,
      ← hlead, dropComponents_append (hlead ▸ hroot), ofPieces_named hne]

end Path

end ClassStamp
