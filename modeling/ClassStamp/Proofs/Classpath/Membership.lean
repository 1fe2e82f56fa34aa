import ClassStamp.Proofs.Additive
import ClassStamp.Proofs.Classpath.Checkout

/-!
# Classes inside classes

An artifact takes in only what is directly inside it, so that by its own
operations the classes held with a class stay inside it, whatever else is
edited, and memory has every class under its name.

* `Artifact.Proper`: all that is held with a class is inside it;
* `Artifact.Handles`: the operations of an artifact, and `Handles.proper`;
* `Context.KeyedBy`, `checkout_keyedBy`: a property of the classes in memory that
  is true of whatever is read is true of a class that is taken out;
* `Context.Keyed`, `checkout_keyed`: that every class is proper.
-/

namespace ClassStamp

namespace Artifact

/-- Every class held with a class is directly inside it by its name, and the same
is true of the classes held with these. -/
inductive Proper : Artifact → Prop
  | intro {a : Artifact} (members : ∀ m ∈ a.nested, m.name.isImmediateMemberOf a.name = true)
    (proper : ∀ m ∈ a.nested, Proper m) : Proper a

/-- The later artifact is what some operations of artifacts make of the earlier
one, whether they go well or not. The class file may be edited in any way; the
classes held with it are taken in, let go, or handled the same way. -/
inductive Handles : Artifact → Artifact → Prop
  | refl (a : Artifact) : Handles a a
  | edit {a b : Artifact} {α : Type} (change : ClassFile.Edit α) :
    Handles a b → Handles a (leaves (Artifact.edit change) b)
  | beginEdit {a b : Artifact} : Handles a b → Handles a (leaves Artifact.beginEdit b)
  | clearModified {a b : Artifact} : Handles a b → Handles a b.clearModified
  | freeze {a b : Artifact} : Handles a b → Handles a (leaves Artifact.freeze b)
  | defrost {a b : Artifact} : Handles a b → Handles a b.defrost
  | attachNested {a b m : Artifact} (hm : Proper m) :
    Handles a b → Handles a (leaves (Artifact.attachNested m) b)
  | withoutNested {a b : Artifact} : Handles a b → Handles a b.withoutNested
  | inside {a b n n' : Artifact} {i : Nat} : Handles a b → b.nested[i]? = some n →
    Handles n n' → Handles a { b with nested := b.nested.set i n' }

variable {a b m : Artifact}

theorem Proper.members (h : Proper a) (hm : m ∈ a.nested) :
    m.name.isImmediateMemberOf a.name = true ∧ Proper m := by
  cases h with
  | intro members proper => exact ⟨members m hm, proper m hm⟩

theorem proper_iff : Proper a ↔
    ∀ m ∈ a.nested, m.name.isImmediateMemberOf a.name = true ∧ Proper m :=
  ⟨fun h _ hm => h.members hm, fun h => .intro (fun m hm => (h m hm).1) fun m hm => (h m hm).2⟩

theorem Proper.congr (h : Proper a) (hname : b.name = a.name) (hnested : b.nested = a.nested) :
    Proper b := by
  rw [proper_iff, hname, hnested]
  exact fun m hm => h.members hm

theorem proper_of_alone (h : a.nested = []) : Proper a := by
  rw [proper_iff, h]
  exact fun m hm => (nomatch hm)

theorem name_attachNested (m a : Artifact) :
    (leaves (attachNested m) a).name = a.name := by
  unfold leaves attachNested
  split_ifs <;> rfl

/-- A class that is taken in comes in place of one of the same name, so that names stay
distinct. -/
theorem nodup_takenIn (m : Artifact) {as : List Artifact} (h : (as.map (·.name)).Nodup) :
    ((as.filter (fun x => x.name != m.name) ++ [m]).map (·.name)).Nodup := by
  rw [List.map_append, List.map_singleton, List.nodup_append]
  refine ⟨h.sublist (List.filter_sublist.map _), List.nodup_singleton _, fun n hn k hk => ?_⟩
  obtain ⟨x, hx, rfl⟩ := List.mem_map.1 hn
  rw [List.mem_singleton.1 hk]
  exact bne_iff_ne.1 (List.mem_filter.1 hx).2

theorem Proper.attachNested (ha : Proper a) (hm : Proper m) :
    Proper (leaves (attachNested m) a) := by
  unfold leaves Artifact.attachNested
  by_cases himm : m.name.isImmediateMemberOf a.name = true
  · rw [if_pos himm, proper_iff]
    intro x hx
    rcases List.mem_append.1 hx with hx | hx
    · exact ha.members (List.mem_filter.1 hx).1
    · rw [List.mem_singleton.1 hx]
      exact ⟨himm, hm⟩
  · rw [if_neg himm]
    exact ha

/-- No operation changes the name of an artifact, and none makes it hold what is
not inside it. -/
theorem Handles.proper (h : Handles a b) : b.name = a.name ∧ (Proper a → Proper b) := by
  induction h with
  | refl a => exact ⟨rfl, id⟩
  | @edit a b α change _ ih =>
    rcases leaves_edit change b with he | he <;> rw [he]
    · exact ih
    · exact ⟨ih.1, fun ha => (ih.2 ha).congr rfl rfl⟩
  | @beginEdit a b _ ih =>
    rcases leaves_beginEdit b with he | he <;> rw [he]
    · exact ih
    · exact ⟨ih.1, fun ha => (ih.2 ha).congr rfl rfl⟩
  | clearModified _ ih => exact ⟨ih.1, fun ha => (ih.2 ha).congr rfl rfl⟩
  | @freeze a b _ ih =>
    rcases leaves_freeze b with he | ⟨bytes, he⟩ <;> rw [he]
    · exact ih
    · exact ⟨ih.1, fun ha => (ih.2 ha).congr rfl rfl⟩
  | defrost _ ih => exact ⟨ih.1, fun ha => (ih.2 ha).congr rfl rfl⟩
  | @attachNested a b m hm _ ih =>
    exact ⟨(name_attachNested m b).trans ih.1, fun ha => (ih.2 ha).attachNested hm⟩
  | withoutNested _ ih => exact ⟨ih.1, fun _ => proper_of_alone rfl⟩
  | @inside a b n n' i _ hi _ ih ihn =>
    refine ⟨ih.1, fun ha => proper_iff.2 fun m hm => ?_⟩
    have hn := (ih.2 ha).members (List.mem_of_getElem? hi)
    rcases List.mem_or_eq_of_mem_set hm with hm | rfl
    · exact (ih.2 ha).members hm
    · exact ⟨by rw [ihn.1]; exact hn.1, ihn.2 hn.2⟩

end Artifact

/-- Whenever the transformer does its work, it does so by the operations of
artifacts. -/
def Transformer.UsesOperations (t : Transformer) : Prop :=
  ∀ a b, t.apply a = .ok () b → Artifact.Handles a b

/-- Additive edits are operations of artifacts. -/
theorem Artifact.Adds.handles {allowed : FieldSpec → Prop} {a b : Artifact}
    (h : Artifact.Adds allowed a b) : Artifact.Handles a b := by
  induction h with
  | refl a => exact .refl a
  | addField spec _ _ ih => exact .edit _ ih
  | addInterface n _ ih => exact .edit _ ih
  | setInnerClasses rows _ ih => exact .edit _ ih
  | beginEdit _ ih => exact .beginEdit ih
  | clearModified _ ih => exact .clearModified ih
  | freeze _ ih => exact .freeze ih
  | defrost _ ih => exact .defrost ih
  | inside _ hi _ ih ihn => exact .inside ih hi ihn

theorem Transformer.Additive.usesOperations {allowed : FieldSpec → Prop} {t : Transformer}
    (h : t.Additive allowed) : t.UsesOperations :=
  fun a b hab => (h a b hab).handles

namespace Classpath.Context

open Artifact (Proper proper_of_alone)

variable {files : FileTree} {context context' : Context} {a a' : Artifact} {n : ClassName}

/-- Every class in memory is there under its name, and of each the property is
true. -/
def KeyedBy (Q : Artifact → Prop) (context : Context) : Prop :=
  ∀ n a, context.cache.get? n = some a → a.name = n ∧ Q a

/-- The property is true of what is read from the entries, and goes on to be true
when classes are taken in, let go, or looked at on their own. -/
structure Lasting (files : FileTree) (entries : List Entry) (Q : Artifact → Prop) : Prop where
  read : ∀ {context : Context} {n requested : ClassName} {a : Artifact},
    context.entries = entries → context.read files n requested = .ok a → Q a
  attach : ∀ {a m : Artifact}, Q a → Q m → Q (leaves (Artifact.attachNested m) a)
  alone : ∀ {a : Artifact}, Q a → Q a.withoutNested
  inside : ∀ {a m : Artifact}, Q a → m ∈ a.nested → Q m

section KeyedBy

variable {Q : Artifact → Prop}

theorem KeyedBy.erase (h : KeyedBy Q context) (n : ClassName) :
    KeyedBy Q { context with cache := context.cache.erase n } :=
  fun k a ha => h k a (NameMap.get?_of_get?_erase ha)

theorem KeyedBy.congr (h : KeyedBy Q context) (hcache : context'.cache = context.cache) :
    KeyedBy Q context' := by
  unfold KeyedBy
  rw [hcache]
  exact h

theorem KeyedBy.restore (h : KeyedBy Q context) (ha : Q a.withoutNested)
    (hnested : ∀ m ∈ a.nested, Q m) : KeyedBy Q (context.restore a) := by
  intro k b hb
  rcases mem_of_get?_restore hb with ⟨hb, hname⟩ | hb
  · exact ⟨hname, (List.forall_mem_cons.2 ⟨ha, hnested⟩) b hb⟩
  · exact h k b hb

theorem Lasting.restore {entries : List Entry} (hQ : Lasting files entries Q)
    (h : KeyedBy Q context) (ha : Q a) : KeyedBy Q (context.restore a) :=
  h.restore (hQ.alone ha) fun _ hm => hQ.inside ha hm

/-- The class keeps its name and the context its entries, and the property goes on
to be true. -/
def Stays (Q : Artifact → Prop) (x y : Artifact × Context) : Prop :=
  y.1.name = x.1.name ∧ y.2.entries = x.2.entries ∧
    (Q x.1 ∧ KeyedBy Q x.2 → Q y.1 ∧ KeyedBy Q y.2)

instance : IsPreorder (Artifact × Context) (Stays Q) where
  refl _ := ⟨rfl, rfl, id⟩
  trans _ _ _ h h' :=
    ⟨h'.1.trans h.1, h'.2.1.trans h.2.1, fun hx => h'.2.2 (h.2.2 hx)⟩

theorem leaves_attach (m : Artifact) (x : Artifact × Context) :
    leaves (attach m) x = (leaves (Artifact.attachNested m) x.1, x.2) := by
  unfold leaves attach
  dsimp only
  cases Artifact.attachNested m x.1 <;> rfl

variable {entries : List Entry} (hQ : Lasting files entries Q)
include hQ

theorem stays_attach {m : Artifact} (hm : Q m) : Keeps (Stays Q) (attach m) := by
  intro x
  rw [leaves_attach]
  exact ⟨Artifact.name_attachNested m x.1, rfl, fun hx => ⟨hQ.attach hx.1 hm, hx.2⟩⟩

theorem stays_attachCached (n : ClassName) : Keeps (Stays Q) (attachCached n) := by
  intro (a, context)
  cases hc : context.cache.get? n with
  | none =>
    have heq : attachCached n (a, context) = .ok () (a, context) := by
      unfold attachCached
      dsimp only
      rw [hc]
    rw [leaves_of_ok heq]
    exact refl_of (Stays Q) _
  | some m =>
    have heq : leaves (attachCached n) (a, context) =
        (leaves (Artifact.attachNested m) a, { context with cache := context.cache.erase n }) := by
      rw [← leaves_attach m (a, { context with cache := context.cache.erase n })]
      unfold leaves attachCached
      dsimp only
      rw [hc]
    rw [heq]
    exact ⟨Artifact.name_attachNested m a, rfl, fun hx =>
      ⟨hQ.attach hx.1 (hx.2 n m hc).2, hx.2.erase n⟩⟩

theorem stays_attachMembers {x : Artifact × Context} (hx : x.2.entries = entries) :
    Stays Q x (leaves (attachMembers files) x) := by
  obtain ⟨a, context⟩ := x
  unfold leaves attachMembers
  dsimp only
  cases hmembers : (do
    let names ← a.classFile.nestedClassNames.mapError fun e => inMemory a (.classFile e)
    let fresh ← (names.filter fun n => !context.isCached n).mapM fun n =>
      context.read files n a.name
    return (names, fresh) : Except ResolutionError (List ClassName × List Artifact)) with
  | error e => exact refl_of (Stays Q) _
  | ok members =>
    obtain ⟨names, fresh⟩ := members
    obtain ⟨_, -, hmembers⟩ := except_bind_eq_ok hmembers
    obtain ⟨fresh', hfresh, hmembers⟩ := except_bind_eq_ok hmembers
    cases hmembers
    obtain ⟨-, hread⟩ := forall₂_read (mapM_eq_ok_iff.1 hfresh)
    have hattach : Keeps (Stays Q) (fresh.forM attach) :=
      .forM fun m hm => stays_attach hQ (hQ.read hx (hread m hm).2)
    have hcached : Keeps (Stays Q) (names.forM attachCached) :=
      .forM fun n _ => stays_attachCached hQ n
    exact hattach.bind (fun _ => hcached) (a, context)

theorem load_keyedBy (hentries : context.entries = entries) (h : KeyedBy Q context) :
    (∀ a context', load files n context = .ok a context' →
      a.name = n ∧ Q a ∧ context'.entries = entries ∧ KeyedBy Q context') ∧
    ∀ e context', load files n context = .error e context' →
      context'.entries = entries ∧ KeyedBy Q context' := by
  unfold load
  cases hread : context.read files n n with
  | error e =>
    refine ⟨fun a context' he => (nomatch he), fun e context' he => ?_⟩
    cases he
    exact ⟨hentries, h⟩
  | ok b =>
    dsimp only
    have hb := hQ.read hentries hread
    have hname := (plain_of_read hread).1
    have hsame := sameClasses_checkSuperclasses files b
    cases hsuper : checkSuperclasses files b context with
    | error e between =>
      refine ⟨fun a context' he => (nomatch he), fun e context' he => ?_⟩
      cases he
      have hbetween := hsame.error hsuper
      exact ⟨hbetween.1.trans hentries, h.congr hbetween.2⟩
    | ok _ between =>
      dsimp only
      have hbetween := hsame.ok hsuper
      have hkeyed := h.congr hbetween.2
      have hstays := stays_attachMembers hQ (x := (b, between)) (hbetween.1.trans hentries)
      cases hattach : attachMembers files (b, between) with
      | error e after =>
        refine ⟨fun a context' he => (nomatch he), fun e context' he => ?_⟩
        cases he
        rw [leaves_of_error hattach] at hstays
        exact ⟨hstays.2.1.trans (hbetween.1.trans hentries), (hstays.2.2 ⟨hb, hkeyed⟩).2⟩
      | ok _ after =>
        refine ⟨fun a context' he => ?_, fun e context' he => (nomatch he)⟩
        cases he
        rw [leaves_of_ok hattach] at hstays
        obtain ⟨ha, hcontext⟩ := hstays.2.2 ⟨hb, hkeyed⟩
        exact ⟨hstays.1.trans hname, ha, hstays.2.1.trans (hbetween.1.trans hentries), hcontext⟩

/-- Taking a class out keeps memory in order, and gives the class of that name, of
which the property is true as well. -/
theorem checkout_keyedBy (hentries : context.entries = entries) (h : KeyedBy Q context) :
    (∀ a context', checkout files n context = .ok a context' →
      a.name = n ∧ Q a ∧ context'.entries = entries ∧ KeyedBy Q context') ∧
    ∀ e context', checkout files n context = .error e context' →
      context'.entries = entries ∧ KeyedBy Q context' := by
  unfold checkout
  cases hc : context.cache.get? n with
  | none => exact load_keyedBy hQ hentries h
  | some b =>
    dsimp only
    obtain ⟨hname, hb⟩ := h n b hc
    have hstays := stays_attachMembers hQ
      (x := (b, { context with cache := context.cache.erase n })) hentries
    cases hattach : attachMembers files (b, { context with cache := context.cache.erase n }) with
    | error e after =>
      refine ⟨fun a context' he => (nomatch he), fun e context' he => ?_⟩
      cases he
      rw [leaves_of_error hattach] at hstays
      obtain ⟨ha, hcontext⟩ := hstays.2.2 ⟨hb, h.erase n⟩
      exact ⟨hstays.2.1.trans hentries, hQ.restore hcontext ha⟩
    | ok _ after =>
      refine ⟨fun a context' he => ?_, fun e context' he => (nomatch he)⟩
      cases he
      rw [leaves_of_ok hattach] at hstays
      obtain ⟨ha, hcontext⟩ := hstays.2.2 ⟨hb, h.erase n⟩
      exact ⟨hstays.1.trans hname, ha, hstays.2.1.trans hentries, hcontext⟩

end KeyedBy

/-! ## Proper classes -/

/-- Every class in memory is there under its name, and proper. -/
def Keyed (context : Context) : Prop :=
  ∀ n a, context.cache.get? n = some a → a.name = n ∧ Proper a

theorem lasting_proper (files : FileTree) (entries : List Entry) :
    Lasting files entries Proper where
  read _ h := proper_of_alone (plain_of_read h).2.alone
  attach := .attachNested
  alone _ := proper_of_alone rfl
  inside h hm := (h.members hm).2

theorem Keyed.restore (h : Keyed context) (ha : Proper a) : Keyed (context.restore a) :=
  KeyedBy.restore h (proper_of_alone rfl) fun _ hm => (ha.members hm).2

/-- Taking a class out keeps memory in order, and gives the class of that name
with classes that are inside it. -/
theorem checkout_keyed (h : Keyed context) :
    (∀ a context', checkout files n context = .ok a context' →
      a.name = n ∧ Proper a ∧ Keyed context') ∧
    ∀ e context', checkout files n context = .error e context' → Keyed context' := by
  obtain ⟨hok, herror⟩ := checkout_keyedBy (n := n) (lasting_proper files context.entries) rfl h
  refine ⟨fun a context' hout => ?_, fun e context' hout => (herror e context' hout).2⟩
  obtain ⟨hname, hproper, -, hcontext⟩ := hok a context' hout
  exact ⟨hname, hproper, hcontext⟩

end Classpath.Context

end ClassStamp
