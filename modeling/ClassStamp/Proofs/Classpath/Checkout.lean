import Mathlib.Data.List.Nodup
import ClassStamp.Classpath.Context
import ClassStamp.Proofs.ClassFile.Coding
import ClassStamp.Proofs.Edit

/-!
# Taking classes out of memory

A class that is taken out of a context brings the classes directly inside it
along. Each of them comes from memory, or from the entries if it is not there,
and is in memory no longer; bringing a class back puts all of them there.

* `attachMembers_eq`: the classes that come along, in order, or why they do
  not;
* `get?_restore_eq_some_iff`: the memory after a class was brought back;
* `checkout_eq_ok`: what taking a class out leads to (`CheckedOut`), and
  `checkout_eq_error`: if it fails, the memory stays as it was.
-/

namespace ClassStamp

theorem nodup_eraseDups {α : Type} [BEq α] [LawfulBEq α] (xs : List α) : xs.eraseDups.Nodup := by
  match xs with
  | [] => exact List.nodup_nil
  | x :: xs =>
    rw [List.eraseDups_cons, List.nodup_cons]
    refine ⟨fun h => ?_, nodup_eraseDups _⟩
    obtain ⟨-, hx⟩ := List.mem_filter.1 (List.mem_eraseDups.1 h)
    rw [beq_self_eq_true] at hx
    cases hx
termination_by xs.length
decreasing_by
  exact Nat.lt_succ_of_le (List.length_filter_le _ _)

theorem isImmediateMemberOf_ne {m n : ClassName} (h : n.isImmediateMemberOf m = true) : n ≠ m := by
  rintro rfl
  unfold ClassName.isImmediateMemberOf at h
  rw [Bool.and_eq_true, List.drop_length] at h
  cases h.2

theorem nestedClassNames_eq_ok {c : ClassFile} {m : ClassName} {ns : List ClassName}
    (hname : c.name = .ok m) (h : c.nestedClassNames = .ok ns) :
    ns.Nodup ∧ ∀ n ∈ ns, n.isImmediateMemberOf m = true := by
  obtain ⟨m', hm', h⟩ := except_bind_eq_ok h
  obtain ⟨rows, hrows, h⟩ := except_bind_eq_ok h
  cases hname.symm.trans hm'
  cases h
  exact ⟨(nodup_eraseDups _).filter _, fun n hn => (List.mem_filter.1 hn).2⟩

namespace Artifact

/-- The names of the classes held with a class. -/
def memberNames (a : Artifact) : List ClassName := a.nested.map (·.name)

theorem mem_memberNames {a : Artifact} {n : ClassName} :
    n ∈ a.memberNames ↔ ∃ m ∈ a.nested, m.name = n := List.mem_map

/-- The class goes by the name that its class file declares, and holds no
others. -/
structure Plain (a : Artifact) : Prop where
  declared : a.classFile.name = .ok a.name
  alone : a.nested = []

theorem ofBytes_eq_ok {n : ClassName} {a : Artifact} {bytes : Bytes}
    (h : ofBytes n bytes = .ok a) :
    ClassFile.parse bytes = .ok a.classFile ∧ a.classFile.name = .ok n ∧ a.name = n ∧
      a.nested = [] := by
  unfold ofBytes new at h
  split at h
  · cases h
  rename_i c hparse
  split at h
  · cases h
  rename_i b hnew
  split at hnew <;> cases hnew
  rename_i m hm
  split at h <;> cases h
  rename_i hname
  exact ⟨hparse, hm.trans (congrArg Except.ok hname), hname, rfl⟩

theorem attachNested_new {a m : Artifact} (hm : m.name.isImmediateMemberOf a.name = true)
    (hnew : m.name ∉ a.memberNames) :
    attachNested m a = .ok () { a with nested := a.nested ++ [m] } := by
  have hfilter : a.nested.filter (fun x => x.name != m.name) = a.nested :=
    List.filter_eq_self.2 fun x hx => bne_iff_ne.2 fun he => hnew (mem_memberNames.2 ⟨x, hx, he⟩)
  unfold attachNested
  rw [if_pos hm, hfilter]

end Artifact

namespace NameMap

variable {α : Type}

theorem get?_foldl_erase (ns : List ClassName) (m : NameMap α) (k : ClassName) :
    (ns.foldl (·.erase ·) m).get? k = if k ∈ ns then none else m.get? k := by
  induction ns generalizing m with
  | nil => rfl
  | cons n ns ih =>
    rw [List.foldl_cons, ih, get?_erase]
    by_cases hk : k = n
    · simp [hk]
    · simp [hk]

theorem get?_of_get?_foldl_erase {ns : List ClassName} {m : NameMap α} {k : ClassName} {x : α}
    (h : (ns.foldl (·.erase ·) m).get? k = some x) : m.get? k = some x := by
  rw [get?_foldl_erase, Option.ite_none_left_eq_some] at h
  exact h.2

theorem get?_of_get?_erase {m : NameMap α} {n k : ClassName} {x : α}
    (h : (m.erase n).get? k = some x) : m.get? k = some x := by
  rw [get?_erase, Option.ite_none_left_eq_some] at h
  exact h.2

theorem erase_of_get?_eq_none {m : NameMap α} {n : ClassName} (h : m.get? n = none) :
    m.erase n = m := by
  refine congrArg NameMap.mk (List.filter_eq_self.2 fun e he => bne_iff_ne.2 ?_)
  rintro rfl
  exact bne_iff_ne.1 (List.lookup_eq_none_iff.1 h e he) rfl

end NameMap

namespace Classpath.Context

open Artifact (Plain memberNames mem_memberNames)

variable {files : FileTree} {context context' : Context} {a a' : Artifact} {n : ClassName}

/-- Every class in memory is there under its name and holds no others. -/
def Tidy (context : Context) : Prop :=
  ∀ n a, context.cache.get? n = some a → a.name = n ∧ Plain a

theorem Tidy.erase (h : Tidy context) (n : ClassName) :
    Tidy { context with cache := context.cache.erase n } :=
  fun k a ha => h k a (NameMap.get?_of_get?_erase ha)

/-- The context over some entries that has read nothing yet. -/
def ofEntries (entries : List Entry) : Context :=
  { entries, cache := .empty, superclasses := .empty }

/-- Building a context reads nothing. -/
theorem build_eq_ok {entries : List Entry} (h : build files entries = .ok context) :
    context = ofEntries entries := by
  obtain ⟨-, -, h⟩ := except_bind_eq_ok h
  exact (Except.ok.inj h).symm

/-! ## Reading -/

theorem read_eq_ok {requested : ClassName} (h : context.read files n requested = .ok a) :
    ∃ found, firstFound (Entry.load files n) context.entries = .ok (some found) ∧
      Artifact.ofBytes n found.content = .ok a := by
  unfold read find at h
  split at h
  · cases h
  · cases h
  rename_i found hfound
  refine ⟨found, hfound, ?_⟩
  cases hbytes : Artifact.ofBytes n found.content with
  | error e => rw [hbytes] at h; cases h
  | ok b =>
    rw [hbytes] at h
    cases h
    rfl

theorem plain_of_read {requested : ClassName} (h : context.read files n requested = .ok a) :
    a.name = n ∧ Plain a := by
  obtain ⟨found, -, hbytes⟩ := read_eq_ok h
  obtain ⟨-, hdeclared, rfl, halone⟩ := Artifact.ofBytes_eq_ok hbytes
  exact ⟨rfl, hdeclared, halone⟩

/-! ## Classes inside a class -/

theorem attach_new {m : Artifact} (hm : m.name.isImmediateMemberOf a.name = true)
    (hnew : m.name ∉ a.memberNames) :
    attach m (a, context) = .ok () ({ a with nested := a.nested ++ [m] }, context) := by
  unfold attach
  dsimp only
  rw [Artifact.attachNested_new hm hnew]

theorem forM_attach {fresh : List Artifact}
    (hmembers : ∀ m ∈ fresh, m.name.isImmediateMemberOf a.name = true)
    (hdistinct : (a.memberNames ++ fresh.map (·.name)).Nodup) :
    fresh.forM attach (a, context) =
      .ok () ({ a with nested := a.nested ++ fresh }, context) := by
  induction fresh generalizing a with
  | nil =>
    cases a
    rw [List.append_nil]
    rfl
  | cons m fresh ih =>
    rw [List.map_cons, List.nodup_middle, List.nodup_cons, List.mem_append, not_or] at hdistinct
    have hattach : attach m (a, context) =
        .ok () ({ a with nested := a.nested ++ [m] }, context) :=
      attach_new (hmembers m List.mem_cons_self) hdistinct.1.1
    have hrest := ih (a := { a with nested := a.nested ++ [m] })
      (fun x hx => hmembers x (List.mem_cons_of_mem m hx)) (by
        rw [memberNames, List.map_append, List.append_assoc]
        show (a.memberNames ++ m.name :: fresh.map (·.name)).Nodup
        rw [List.nodup_middle, List.nodup_cons, List.mem_append, not_or]
        exact hdistinct)
    rw [List.append_assoc] at hrest
    show EStateM.bind (attach m) (fun _ => fresh.forM attach) (a, context) = _
    rw [EStateM.bind, hattach]
    exact hrest

theorem forM_attachCached {ns : List ClassName} (htidy : Tidy context)
    (hmembers : ∀ n ∈ ns, n.isImmediateMemberOf a.name = true) (hdistinct : ns.Nodup)
    (hapart : ∀ n ∈ ns, (context.cache.get? n).isSome → n ∉ a.memberNames) :
    ns.forM attachCached (a, context) =
      .ok () ({ a with nested := a.nested ++ ns.filterMap context.cache.get? },
        { context with cache := ns.foldl (·.erase ·) context.cache }) := by
  induction ns generalizing a context with
  | nil =>
    cases a
    rw [List.filterMap_nil, List.append_nil]
    rfl
  | cons n ns ih =>
    rw [List.nodup_cons] at hdistinct
    have hrest := fun k hk => hmembers k (List.mem_cons_of_mem n hk)
    show EStateM.bind (attachCached n) (fun _ => ns.forM attachCached) (a, context) = _
    simp only [EStateM.bind]
    cases hc : context.cache.get? n with
    | none =>
      have hskip : attachCached n (a, context) = .ok () (a, context) := by
        unfold attachCached
        dsimp only
        rw [hc]
      rw [hskip, List.filterMap_cons, hc, List.foldl_cons, NameMap.erase_of_get?_eq_none hc]
      exact ih htidy hrest hdistinct.2 fun k hk => hapart k (List.mem_cons_of_mem n hk)
    | some m =>
      obtain ⟨rfl, hplain⟩ := htidy n m hc
      have hold := htidy.erase m.name
      have hsame : ∀ k ∈ ns, (context.cache.erase m.name).get? k = context.cache.get? k := by
        intro k hk
        rw [NameMap.get?_erase, if_neg]
        rintro rfl
        exact hdistinct.1 hk
      have hnew : m.name ∉ a.memberNames := hapart m.name List.mem_cons_self (by rw [hc]; rfl)
      have htake : attachCached m.name (a, context) =
          .ok () ({ a with nested := a.nested ++ [m] },
            { context with cache := context.cache.erase m.name }) := by
        unfold attachCached
        dsimp only
        rw [hc]
        exact attach_new (hmembers m.name List.mem_cons_self) hnew
      have htail := ih (a := { a with nested := a.nested ++ [m] }) hold hrest hdistinct.2
        (fun k hk hs => by
          rw [memberNames, List.map_append, List.mem_append, not_or]
          refine ⟨hapart k (List.mem_cons_of_mem _ hk) (by rwa [← hsame k hk]), fun he => ?_⟩
          rw [List.mem_singleton.1 he] at hk
          exact hdistinct.1 hk)
      rw [List.filterMap_congr hsame, List.append_assoc] at htail
      rw [htake, List.filterMap_cons, hc, List.foldl_cons]
      exact htail

theorem forall₂_read {requested : ClassName} {ns : List ClassName} {fresh : List Artifact}
    (h : List.Forall₂ (fun n m => context.read files n requested = .ok m) ns fresh) :
    fresh.map (·.name) = ns ∧
      ∀ m ∈ fresh, Plain m ∧ context.read files m.name requested = .ok m := by
  induction h with
  | nil => exact ⟨rfl, fun m hm => (nomatch hm)⟩
  | @cons n m ns fresh hread _ ih =>
    obtain ⟨rfl, hplain⟩ := plain_of_read hread
    refine ⟨by rw [List.map_cons, ih.1], fun x hx => ?_⟩
    rcases List.mem_cons.1 hx with rfl | hx
    · exact ⟨hplain, hread⟩
    · exact ih.2 x hx

/-- The classes inside a class are those that its class file lists: first the
ones that are read, then the ones from memory. -/
theorem attachMembers_eq (htidy : Tidy context) (ha : Plain a) :
    attachMembers files (a, context) = match a.classFile.nestedClassNames with
      | .error e => .error (inMemory a (.classFile e)) (a, context)
      | .ok ns =>
        match (ns.filter fun n => !context.isCached n).mapM
            fun n => context.read files n a.name with
        | .error e => .error e (a, context)
        | .ok fresh => .ok () ({ a with nested := fresh ++ ns.filterMap context.cache.get? },
            { context with cache := ns.foldl (·.erase ·) context.cache }) := by
  unfold attachMembers
  dsimp only
  cases hns : a.classFile.nestedClassNames with
  | error e => rfl
  | ok ns =>
    simp only [Except.mapError, bind, Except.bind]
    cases hfresh : (ns.filter fun n => !context.isCached n).mapM
        fun n => context.read files n a.name with
    | error e => rfl
    | ok fresh =>
      obtain ⟨hnodup, himm⟩ := nestedClassNames_eq_ok ha.declared hns
      obtain ⟨hnames, -⟩ := forall₂_read (mapM_eq_ok_iff.1 hfresh)
      have hmem : ∀ n ∈ fresh.map (·.name), n ∈ ns ∧ (!context.isCached n) = true := fun n hn => by
        rw [hnames] at hn
        exact List.mem_filter.1 hn
      have hattach : fresh.forM attach (a, context) =
          .ok () ({ a with nested := a.nested ++ fresh }, context) := by
        refine forM_attach (fun m hm => himm _ (hmem _ (List.mem_map_of_mem hm)).1) ?_
        rw [memberNames, ha.alone, List.map_nil, List.nil_append, hnames]
        exact hnodup.filter _
      have hcached := forM_attachCached (a := { a with nested := a.nested ++ fresh }) htidy himm
        hnodup fun n _ hs hn => by
          rw [memberNames, ha.alone, List.nil_append] at hn
          have hc := (hmem n hn).2
          rw [isCached, NameMap.contains, hs] at hc
          cases hc
      rw [ha.alone, List.nil_append] at hattach hcached
      show EStateM.bind (fresh.forM attach) (fun _ => ns.forM attachCached) (a, context) = _
      rw [EStateM.bind, hattach]
      exact hcached

theorem names_filterMap_get? (htidy : Tidy context) (ns : List ClassName) :
    (ns.filterMap context.cache.get?).map (·.name) = ns.filter context.isCached := by
  induction ns with
  | nil => rfl
  | cons n ns ih =>
    rw [List.filterMap_cons, List.filter_cons, isCached, NameMap.contains]
    cases hc : context.cache.get? n with
    | none => exact ih
    | some m =>
      rw [List.map_cons, ih, (htidy n m hc).1]
      rfl

theorem get?_eq_none_of_not_isCached (h : (!context.isCached n) = true) :
    context.cache.get? n = none := by
  refine Option.not_isSome_iff_eq_none.1 fun hs => ?_
  rw [isCached, NameMap.contains, hs] at h
  cases h

theorem read_congr (h : context'.entries = context.entries) (n requested : ClassName) :
    context'.read files n requested = context.read files n requested := by
  unfold read find
  rw [h]

/-- The class is the one that memory has under its name, or the one that is read
if memory has none. -/
def Found (files : FileTree) (context : Context) (requested : ClassName) (a : Artifact) : Prop :=
  context.cache.get? a.name = some a ∨
    context.cache.get? a.name = none ∧ context.read files a.name requested = .ok a

/-- A class that memory has was found there. -/
theorem Found.eq_of_cached {requested : ClassName} {b : Artifact}
    (h : Found files context requested a) (hb : context.cache.get? a.name = some b) : a = b := by
  rcases h with hc | ⟨hc, -⟩
  · exact Option.some.inj (hc.symm.trans hb)
  · rw [hc] at hb
    cases hb

/-- The classes inside a class were brought along with it. -/
structure Accompanied (files : FileTree) (context : Context) (a a' : Artifact)
    (context' : Context) : Prop where
  same : a'.withoutNested = a
  members : ∃ ns, a.classFile.nestedClassNames = .ok ns ∧ a'.memberNames.Perm ns
  plain : ∀ m ∈ a'.nested, Plain m
  found : ∀ m ∈ a'.nested, Found files context a.name m
  entries : context'.entries = context.entries
  cache : ∀ k, context'.cache.get? k =
    if k ∈ a'.memberNames then none else context.cache.get? k

theorem Plain.withoutNested (h : Plain a) : a.withoutNested = a := by
  have halone := h.alone
  cases a
  cases halone
  rfl

theorem attachMembers_eq_ok (htidy : Tidy context) (ha : Plain a)
    (h : attachMembers files (a, context) = .ok () (a', context')) :
    Accompanied files context a a' context' := by
  rw [attachMembers_eq htidy ha] at h
  split at h
  · cases h
  rename_i ns hns
  split at h <;> cases h
  rename_i fresh hfresh
  obtain ⟨hnames, hread⟩ := forall₂_read (mapM_eq_ok_iff.1 hfresh)
  have hcached : ∀ m ∈ ns.filterMap context.cache.get?,
      Plain m ∧ context.cache.get? m.name = some m := fun m hm => by
    obtain ⟨n, -, hm⟩ := List.mem_filterMap.1 hm
    obtain ⟨rfl, hplain⟩ := htidy n m hm
    exact ⟨hplain, hm⟩
  have hperm : ((fresh ++ ns.filterMap context.cache.get?).map (·.name)).Perm ns := by
    rw [List.map_append, hnames, names_filterMap_get? htidy]
    exact List.perm_append_comm.trans (List.filter_append_perm context.isCached ns)
  refine ⟨Plain.withoutNested ha, ⟨ns, hns, hperm⟩, fun m hm => ?_, fun m hm => ?_, rfl,
    fun k => ?_⟩
  · exact (List.mem_append.1 hm).elim (fun hm => (hread m hm).1) fun hm => (hcached m hm).1
  · rcases List.mem_append.1 hm with hm | hm
    · have hmem : m.name ∈ ns.filter fun n => !context.isCached n := by
        rw [← hnames]
        exact List.mem_map_of_mem hm
      exact .inr ⟨get?_eq_none_of_not_isCached (List.mem_filter.1 hmem).2, (hread m hm).2⟩
    · exact .inl (hcached m hm).2
  · refine (NameMap.get?_foldl_erase ns context.cache k).trans ?_
    rw [if_congr hperm.symm.mem_iff rfl rfl]
    rfl

theorem attachMembers_eq_error {e : ResolutionError} {after : Artifact × Context}
    (htidy : Tidy context) (ha : Plain a)
    (h : attachMembers files (a, context) = .error e after) : after = (a, context) := by
  rw [attachMembers_eq htidy ha] at h
  split at h
  · cases h
    rfl
  · split at h <;> cases h
    rfl

theorem get?_foldl_insert_of_not_mem {as : List Artifact} {cache : NameMap Artifact}
    (h : n ∉ as.map (·.name)) :
    (as.foldl (fun cache x => cache.insert x.name x) cache).get? n = cache.get? n := by
  induction as generalizing cache with
  | nil => rfl
  | cons x as ih =>
    rw [List.map_cons, List.mem_cons, not_or] at h
    rw [List.foldl_cons, ih h.2, NameMap.get?_insert, if_neg h.1]

theorem get?_foldl_insert_of_mem {as : List Artifact} {cache : NameMap Artifact} {m : Artifact}
    (hdistinct : (as.map (·.name)).Nodup) (hm : m ∈ as) :
    (as.foldl (fun cache x => cache.insert x.name x) cache).get? m.name = some m := by
  induction as generalizing cache with
  | nil => cases hm
  | cons x as ih =>
    rw [List.map_cons, List.nodup_cons] at hdistinct
    rcases List.mem_cons.1 hm with rfl | hm
    · rw [List.foldl_cons, get?_foldl_insert_of_not_mem hdistinct.1, NameMap.get?_insert,
        if_pos rfl]
    · exact ih hdistinct.2 hm

/-! ## Bringing back -/

theorem get?_restore (context : Context) (a : Artifact) :
    (context.restore a).cache.get? a.name = some a.withoutNested := by
  unfold restore
  rw [NameMap.get?_insert, if_pos rfl]

theorem get?_restore_nested {m : Artifact} (hdistinct : a.memberNames.Nodup) (hm : m ∈ a.nested)
    (hne : m.name ≠ a.name) : (context.restore a).cache.get? m.name = some m := by
  unfold restore
  rw [NameMap.get?_insert, if_neg hne]
  exact get?_foldl_insert_of_mem hdistinct hm

theorem get?_restore_other (hn : n ≠ a.name) (hnested : n ∉ a.memberNames) :
    (context.restore a).cache.get? n = context.cache.get? n := by
  unfold restore
  rw [NameMap.get?_insert, if_neg hn]
  exact get?_foldl_insert_of_not_mem hnested

/-- The memory after a class was brought back: that class, those that were held
with it, and the others as before. -/
theorem get?_restore_eq_some_iff {b : Artifact} (hdistinct : (a.name :: a.memberNames).Nodup) :
    (context.restore a).cache.get? n = some b ↔
      b ∈ a.withoutNested :: a.nested ∧ b.name = n ∨
        n ∉ a.name :: a.memberNames ∧ context.cache.get? n = some b := by
  rw [List.nodup_cons] at hdistinct
  by_cases hself : n = a.name
  · rw [hself, get?_restore, Option.some.injEq]
    constructor
    · rintro rfl
      exact .inl ⟨List.mem_cons_self, rfl⟩
    · rintro (⟨hb, hname⟩ | ⟨hnot, -⟩)
      · rcases List.mem_cons.1 hb with rfl | hb
        · rfl
        · exact absurd (mem_memberNames.2 ⟨b, hb, hname⟩) hdistinct.1
      · exact absurd List.mem_cons_self hnot
  by_cases hmember : n ∈ a.memberNames
  · obtain ⟨m, hm, rfl⟩ := mem_memberNames.1 hmember
    rw [get?_restore_nested hdistinct.2 hm hself, Option.some.injEq]
    constructor
    · rintro rfl
      exact .inl ⟨List.mem_cons_of_mem _ hm, rfl⟩
    · rintro (⟨hb, hname⟩ | ⟨hnot, -⟩)
      · rcases List.mem_cons.1 hb with rfl | hb
        · exact absurd hname.symm hself
        · exact List.inj_on_of_nodup_map hdistinct.2 hm hb hname.symm
      · exact absurd (List.mem_cons_of_mem _ hmember) hnot
  · rw [get?_restore_other hself hmember]
    constructor
    · exact fun h => .inr ⟨by rw [List.mem_cons, not_or]; exact ⟨hself, hmember⟩, h⟩
    · rintro (⟨hb, rfl⟩ | ⟨-, h⟩)
      · rcases List.mem_cons.1 hb with rfl | hb
        · exact absurd rfl hself
        · exact absurd (mem_memberNames.2 ⟨b, hb, rfl⟩) hmember
      · exact h

theorem mem_of_get?_foldl_insert {as : List Artifact} {cache : NameMap Artifact} {b : Artifact}
    (h : (as.foldl (fun cache x => cache.insert x.name x) cache).get? n = some b) :
    b ∈ as ∧ b.name = n ∨ cache.get? n = some b := by
  induction as generalizing cache with
  | nil => exact .inr h
  | cons x as ih =>
    rcases ih h with ⟨hb, hname⟩ | h
    · exact .inl ⟨List.mem_cons_of_mem x hb, hname⟩
    rw [NameMap.get?_insert] at h
    split at h
    · rename_i hn
      cases h
      exact .inl ⟨List.mem_cons_self, hn.symm⟩
    · exact .inr h

/-- What is in memory after any class was brought back. -/
theorem mem_of_get?_restore {b : Artifact} (h : (context.restore a).cache.get? n = some b) :
    b ∈ a.withoutNested :: a.nested ∧ b.name = n ∨ context.cache.get? n = some b := by
  unfold restore at h
  rw [NameMap.get?_insert] at h
  split at h
  · rename_i hn
    cases h
    exact .inl ⟨List.mem_cons_self, hn.symm⟩
  · exact (mem_of_get?_foldl_insert h).imp (fun hb => ⟨List.mem_cons_of_mem _ hb.1, hb.2⟩) id

/-- The class goes by its name, and so do those held with it, which hold no others. -/
def Orderly (a : Artifact) : Prop := ∀ m ∈ a.withoutNested :: a.nested, Plain m

theorem Tidy.restore (h : Tidy context) (ha : Orderly a) : Tidy (context.restore a) := by
  intro k b hb
  rcases mem_of_get?_restore hb with ⟨hb, hname⟩ | hb
  · exact ⟨hname, ha b hb⟩
  · exact h k b hb

/-! ## Superclasses -/

/-- Walking up superclasses remembers them and does nothing else. -/
def SameClasses (context context' : Context) : Prop :=
  context'.entries = context.entries ∧ context'.cache = context.cache

instance : IsPreorder Context SameClasses where
  refl _ := ⟨rfl, rfl⟩
  trans _ _ _ h h' := ⟨h'.1.trans h.1, h'.2.trans h.2⟩

theorem sameClasses_superclass (files : FileTree) (requested n : ClassName) :
    Keeps SameClasses (superclass files requested n) := by
  intro context
  unfold leaves superclass
  dsimp only
  cases context.superclasses.get? n with
  | some parent => exact ⟨rfl, rfl⟩
  | none =>
    dsimp only
    split <;> rename_i heq <;> split at heq <;> cases heq <;> exact ⟨rfl, rfl⟩

/-- The context that looking for superclasses leaves. -/
def Outcome.state : Outcome → Context
  | .ok _ s | .error _ s => s

namespace Walk

variable {requested : ClassName} {outcome : Outcome}

theorem run_eq (files : FileTree) (requested : ClassName) (w : Walk) :
    w.run files requested = match w.step files requested with
      | .inl outcome => some outcome
      | .inr w => w.run files requested :=
  run.eq_1 files requested w

theorem runAhead_eq (files : FileTree) (requested : ClassName) (steps : Nat) (w : Walk) :
    w.runAhead files requested steps = w.run files requested := by
  induction steps generalizing w with
  | zero => rfl
  | succ steps ih =>
    rw [runAhead, run_eq]
    cases w.step files requested with
    | inl outcome => rfl
    | inr w => exact ih w

/-- What holds of the last step of a walk that ends, and before a step if it holds behind it,
holds of the walk. -/
theorem run_induct {P : Walk → Outcome → Prop}
    (hover : ∀ w outcome, w.step files requested = .inl outcome → P w outcome)
    (hon : ∀ w w' outcome, w.step files requested = .inr w' → P w' outcome → P w outcome)
    {w : Walk} (h : w.run files requested = some outcome) : P w outcome := by
  refine run.partial_correctness files requested P (fun run ih w outcome h => ?_) w outcome h
  cases hstep : w.step files requested with
  | inl last =>
    rw [hstep] at h
    cases h
    exact hover w outcome hstep
  | inr w' =>
    rw [hstep] at h
    exact hon w w' outcome hstep (ih w' outcome h)

theorem step_of_next_none {w : Walk} (h : w.next = none) :
    w.step files requested = .inl (.ok () w.context) := by
  rw [step, h]

theorem step_of_stop {w : Walk} {n : ClassName} (h : w.next = some n)
    (hstop : isBootstrap n = true ∨ n ∈ w.visited) :
    w.step files requested = .inl (.ok () w.context) := by
  rw [step, h]
  exact if_pos (by simpa using hstop)

theorem step_of_on {w : Walk} {n : ClassName} (h : w.next = some n)
    (hon : ¬(isBootstrap n = true ∨ n ∈ w.visited)) :
    w.step files requested = match superclass files requested n w.context with
      | .error e context => .inl (.error e context)
      | .ok parent context => .inr { visited := n :: w.visited, next := parent, context } := by
  rw [step, h]
  exact if_neg (by simpa using hon)

/-- A step is over, or it tells the superclass of a class that was not visited. -/
theorem step_cases (files : FileTree) (requested : ClassName) (w : Walk) :
    w.step files requested = .inl (.ok () w.context) ∨
      ∃ n, w.next = some n ∧ ¬(isBootstrap n = true ∨ n ∈ w.visited) ∧
        ((∃ e context, superclass files requested n w.context = .error e context ∧
            w.step files requested = .inl (.error e context)) ∨
          ∃ parent context, superclass files requested n w.context = .ok parent context ∧
            w.step files requested =
              .inr { visited := n :: w.visited, next := parent, context }) := by
  cases hnext : w.next with
  | none => exact .inl (step_of_next_none hnext)
  | some n =>
    by_cases hstop : isBootstrap n = true ∨ n ∈ w.visited
    · exact .inl (step_of_stop hnext hstop)
    refine .inr ⟨n, rfl, hstop, ?_⟩
    rw [step_of_on hnext hstop]
    cases superclass files requested n w.context with
    | error e context => exact .inl ⟨e, context, rfl, rfl⟩
    | ok parent context => exact .inr ⟨parent, context, rfl, rfl⟩

theorem sameClasses_run {w : Walk} (h : w.run files requested = some outcome) :
    SameClasses w.context outcome.state := by
  refine run_induct (P := fun w outcome => SameClasses w.context outcome.state)
    (fun w outcome hstep => ?_) (fun w w' outcome hstep hrest => ?_) h
  · rcases step_cases files requested w with hover | ⟨n, -, -, ⟨e, context, hn, hover⟩ | hon⟩
    · cases hover.symm.trans hstep
      exact refl_of SameClasses w.context
    · cases hover.symm.trans hstep
      exact (sameClasses_superclass files requested n).error hn
    · obtain ⟨parent, context, -, hon⟩ := hon
      cases hon.symm.trans hstep
  · rcases step_cases files requested w with hover | ⟨n, -, -, ⟨e, context, -, hover⟩ | hon⟩
    · cases hover.symm.trans hstep
    · cases hover.symm.trans hstep
    · obtain ⟨parent, context, hn, hon⟩ := hon
      cases hon.symm.trans hstep
      exact trans_of SameClasses ((sameClasses_superclass files requested n).ok hn) hrest

end Walk

/-- Making sure of superclasses is walking up from the class, until the walk is over. -/
theorem checkSuperclasses_of_next (files : FileTree) {next : Option ClassName}
    (h : superclassOf a = .ok next) (context : Context) :
    checkSuperclasses files a context =
      (({ visited := [a.name], next, context } : Walk).run files a.name).getD
        (.ok () context) := by
  unfold checkSuperclasses
  rw [h]
  dsimp only
  rw [Walk.runAhead_eq]

theorem sameClasses_checkSuperclasses (files : FileTree) (a : Artifact) :
    Keeps SameClasses (checkSuperclasses files a) := by
  intro context
  cases hnext : superclassOf a with
  | error e =>
    have heq : checkSuperclasses files a context = .error e context := by
      unfold checkSuperclasses
      rw [hnext]
    rw [leaves_of_error heq]
    exact ⟨rfl, rfl⟩
  | ok next =>
    rw [leaves, checkSuperclasses_of_next files hnext]
    cases hrun : ({ visited := [a.name], next, context } : Walk).run files a.name with
    | none => exact ⟨rfl, rfl⟩
    | some outcome => cases outcome <;> exact Walk.sameClasses_run hrun

/-! ## Taking out -/

/-- A class was taken out. -/
structure CheckedOut (files : FileTree) (context : Context) (n : ClassName) (a : Artifact)
    (context' : Context) : Prop where
  name : a.name = n
  declared : a.classFile.name = .ok n
  members : ∃ ns, a.classFile.nestedClassNames = .ok ns ∧ a.memberNames.Perm ns
  plain : ∀ m ∈ a.nested, Plain m
  found : ∀ m ∈ a.withoutNested :: a.nested, Found files context n m
  entries : context'.entries = context.entries
  cache : ∀ k, context'.cache.get? k =
    if k = n ∨ k ∈ a.memberNames then none else context.cache.get? k

theorem CheckedOut.isImmediateMemberOf (h : CheckedOut files context n a context') {m : Artifact}
    (hm : m ∈ a.nested) : m.name.isImmediateMemberOf n = true := by
  obtain ⟨ns, hns, hperm⟩ := h.members
  exact (nestedClassNames_eq_ok h.declared hns).2 _ (hperm.mem_iff.1 (List.mem_map_of_mem hm))

theorem CheckedOut.distinct (h : CheckedOut files context n a context') :
    (a.name :: a.memberNames).Nodup := by
  obtain ⟨ns, hns, hperm⟩ := h.members
  refine List.nodup_cons.2 ⟨fun hself => ?_,
    hperm.nodup_iff.2 (nestedClassNames_eq_ok h.declared hns).1⟩
  obtain ⟨m, hm, hname⟩ := mem_memberNames.1 hself
  exact isImmediateMemberOf_ne (h.isImmediateMemberOf hm) (hname.trans h.name)

/-- What is in memory then was there before, and was not taken out. -/
theorem CheckedOut.left (h : CheckedOut files context n a context') {k : ClassName} {b : Artifact}
    (hb : context'.cache.get? k = some b) :
    ¬ (k = n ∨ k ∈ a.memberNames) ∧ context.cache.get? k = some b := by
  rwa [h.cache, Option.ite_none_left_eq_some] at hb

theorem CheckedOut.orderly (h : CheckedOut files context n a context') : Orderly a :=
  List.forall_mem_cons.2
    ⟨⟨h.declared.trans (congrArg Except.ok h.name.symm), rfl⟩, h.plain⟩

theorem CheckedOut.tidy (h : CheckedOut files context n a context') (htidy : Tidy context) :
    Tidy context' :=
  fun k b hb => htidy k b (h.left hb).2

/-- A class that was read or found in memory is taken out with the classes
inside it. -/
theorem checkedOut_of_attachMembers {apart : Context} (htidy : Tidy context) (ha : Plain a)
    (hfound : Found files context a.name a) (hentries : apart.entries = context.entries)
    (hcache : ∀ k, apart.cache.get? k = if k = a.name then none else context.cache.get? k)
    (h : attachMembers files (a, apart) = .ok () (a', context')) :
    CheckedOut files context a.name a' context' := by
  have htidy' : Tidy apart := fun k m hm => by
    rw [hcache, Option.ite_none_left_eq_some] at hm
    exact htidy k m hm.2
  have hb := attachMembers_eq_ok htidy' ha h
  have hclass : a'.withoutNested.classFile = a.classFile := by rw [hb.same]
  have hname : a'.withoutNested.name = a.name := by rw [hb.same]
  change a'.classFile = _ at hclass
  have hdeclared : a'.classFile.name = .ok a.name := by rw [hclass]; exact ha.declared
  obtain ⟨ns, hns, hperm⟩ := hb.members
  rw [← hclass] at hns
  refine ⟨hname, hdeclared, ⟨ns, hns, hperm⟩, hb.plain, fun m hm => ?_,
    hb.entries.trans hentries, fun k => ?_⟩
  · rcases List.mem_cons.1 hm with rfl | hm
    · rwa [hb.same]
    have himm := (nestedClassNames_eq_ok hdeclared hns).2 m.name
      (hperm.mem_iff.1 (List.mem_map_of_mem hm))
    have hfound := hb.found m hm
    rwa [Found, hcache, if_neg (isImmediateMemberOf_ne himm), read_congr hentries] at hfound
  · rw [hb.cache, hcache, ← ite_or]
    exact if_congr or_comm rfl rfl

theorem checkout_eq_ok (htidy : Tidy context) (h : checkout files n context = .ok a context') :
    CheckedOut files context n a context' := by
  unfold checkout at h
  cases hc : context.cache.get? n with
  | some b =>
    rw [hc] at h
    dsimp only at h
    obtain ⟨rfl, hplain⟩ := htidy n b hc
    split at h <;> cases h
    rename_i hmembers
    refine checkedOut_of_attachMembers htidy hplain (.inl hc) ?_ ?_ hmembers
    · rfl
    · exact NameMap.get?_erase context.cache b.name
  | none =>
    rw [hc] at h
    dsimp only at h
    unfold load at h
    cases hread : context.read files n n with
    | error e => rw [hread] at h; cases h
    | ok b =>
      rw [hread] at h
      dsimp only at h
      obtain ⟨rfl, hplain⟩ := plain_of_read hread
      split at h
      · cases h
      rename_i between hsuper
      obtain ⟨hentries, hcache⟩ := (sameClasses_checkSuperclasses files b).ok hsuper
      split at h <;> cases h
      rename_i hmembers
      refine checkedOut_of_attachMembers htidy hplain (.inr ⟨hc, hread⟩) hentries (fun k => ?_)
        hmembers
      rw [hcache]
      split
      · rename_i hk
        rw [hk, hc]
      · rfl

theorem checkout_eq_error {e : ResolutionError} (htidy : Tidy context)
    (h : checkout files n context = .error e context') :
    context'.entries = context.entries ∧ ∀ k, context'.cache.get? k = context.cache.get? k := by
  unfold checkout at h
  cases hc : context.cache.get? n with
  | some b =>
    rw [hc] at h
    dsimp only at h
    obtain ⟨rfl, hplain⟩ := htidy n b hc
    split at h <;> cases h
    rename_i hmembers
    cases attachMembers_eq_error (htidy.erase b.name) hplain hmembers
    refine ⟨rfl, fun k => ?_⟩
    by_cases hk : k = b.name
    · rw [hk, get?_restore, hc]
      have halone := hplain.alone
      cases b
      cases halone
      rfl
    · rw [get?_restore_other hk, NameMap.get?_erase, if_neg hk]
      rw [memberNames, hplain.alone]
      exact List.not_mem_nil
  | none =>
    rw [hc] at h
    dsimp only at h
    unfold load at h
    cases hread : context.read files n n with
    | error e =>
      rw [hread] at h
      cases h
      exact ⟨rfl, fun k => rfl⟩
    | ok b =>
      rw [hread] at h
      dsimp only at h
      obtain ⟨rfl, hplain⟩ := plain_of_read hread
      split at h
      · cases h
        rename_i hsuper
        obtain ⟨hentries, hcache⟩ := (sameClasses_checkSuperclasses files b).error hsuper
        exact ⟨hentries, fun k => by rw [hcache]⟩
      rename_i between hsuper
      obtain ⟨hentries, hcache⟩ := (sameClasses_checkSuperclasses files b).ok hsuper
      split at h <;> cases h
      rename_i hmembers
      cases attachMembers_eq_error (fun k m hm => htidy k m (by rwa [← hcache])) hplain hmembers
      exact ⟨hentries, fun k => by rw [hcache]⟩

end Classpath.Context

end ClassStamp
