import ClassStamp.Proofs.Artifact.Operations
import ClassStamp.Proofs.Run.Account

/-!
# Classes in memory hold each class once

By the operations of artifacts, a class holds classes directly inside it and of every name
one at most, and so do those that it holds. In a run of transformers that keep to this, it is
true of all classes in memory and of those that are taken out. A transformer that puts other
classes in the place of those inside one need not keep to it.

* `Artifact.HoldsEachOnce`: what is true of a class, and `Artifact.Regular`: of those that it holds
  too, which operations keep (`Artifact.Becomes.regular`);
* `Transformer.KeepsRegular`: a transformer keeps it;
* `keyedBy_transform`: what a step keeps for all classes in memory, with their names;
* `keyed_of_mem_moments` and `regular_of_mem_moments`: what is true of them at every moment of
  a run, whatever the transformers do, and if they keep classes regular.
-/

namespace ClassStamp

open ClassFile (Allowance)

namespace Artifact

/-- The class holds classes directly inside it, with names of their own. -/
structure HoldsEachOnce (a : Artifact) : Prop where
  members : ∀ m ∈ a.nested, m.name.isImmediateMemberOf a.name = true
  distinct : a.memberNames.Nodup

/-- So does every class that is included in it. -/
def Regular (a : Artifact) : Prop := ∀ x, a.Includes x → x.HoldsEachOnce

variable {inner own : Allowance} {a b m : Artifact}

theorem regular_iff : a.Regular ↔
    (∀ m ∈ a.nested, m.name.isImmediateMemberOf a.name = true ∧ m.Regular) ∧
      a.memberNames.Nodup := by
  constructor
  · intro h
    obtain ⟨hmembers, hdistinct⟩ := h a (.self a)
    exact ⟨fun m hm => ⟨hmembers m hm, fun x hx => h x (.inside hm hx)⟩, hdistinct⟩
  · rintro ⟨hmembers, hdistinct⟩ x hx
    cases hx with
    | self => exact ⟨fun m hm => (hmembers m hm).1, hdistinct⟩
    | inside hm hx => exact (hmembers _ hm).2 x hx

theorem Regular.members (h : a.Regular) (hm : m ∈ a.nested) :
    m.name.isImmediateMemberOf a.name = true ∧ m.Regular :=
  (regular_iff.1 h).1 m hm

theorem Regular.holdsEachOnce (h : a.Regular) : a.HoldsEachOnce := h a (.self a)

theorem regular_of_alone (h : a.nested = []) : a.Regular := by
  refine regular_iff.2 ⟨fun m hm => ?_, ?_⟩
  · rw [h] at hm
    cases hm
  · rw [memberNames, h]
    exact List.nodup_nil

/-- The classes held with the one are those held with the other, apart from changes that
keep their names and what makes them regular. -/
theorem Regular.of_forall₂ (h : a.Regular) (hname : b.name = a.name)
    (hnested : List.Forall₂ (fun x y => y.name = x.name ∧ (x.Regular → y.Regular))
      a.nested b.nested) : b.Regular := by
  refine regular_iff.2 ⟨fun y hy => ?_, ?_⟩
  · obtain ⟨x, hx, hxy, hregular⟩ := exists_of_forall₂ hnested hy
    obtain ⟨himm, hxregular⟩ := h.members hx
    exact ⟨by rw [hname, hxy]; exact himm, hregular hxregular⟩
  · rw [memberNames, map_name_of_forall₂ And.left hnested]
    exact h.holdsEachOnce.distinct

theorem Regular.congr (h : a.Regular) (hname : b.name = a.name) (hnested : b.nested = a.nested) :
    b.Regular := by
  refine h.of_forall₂ hname ?_
  rw [hnested]
  exact List.forall₂_same.2 fun _ _ => ⟨rfl, id⟩

theorem Regular.attachNested (ha : a.Regular) (hm : m.Regular) :
    (leaves (Artifact.attachNested m) a).Regular := by
  unfold leaves Artifact.attachNested
  by_cases himm : m.name.isImmediateMemberOf a.name = true
  · rw [if_pos himm]
    refine regular_iff.2 ⟨fun x hx => ?_, nodup_takenIn m ha.holdsEachOnce.distinct⟩
    rcases List.mem_append.1 hx with hx | hx
    · exact ha.members (List.mem_filter.1 hx).1
    · rw [List.mem_singleton.1 hx]
      exact ⟨himm, hm⟩
  · rw [if_neg himm]
    exact ha

/-- Operations keep an artifact regular, whatever they do to its class file. -/
theorem Becomes.regular (h : Becomes inner own a b) : a.Regular → b.Regular := by
  induction h with
  | refl => exact id
  | @edit _ a b α change _ _ ih =>
    rcases leaves_edit change b with he | he <;> rw [he]
    · exact ih
    · exact fun ha => (ih ha).congr rfl rfl
  | @beginEdit _ a b _ ih =>
    rcases leaves_beginEdit b with he | he <;> rw [he]
    · exact ih
    · exact fun ha => (ih ha).congr rfl rfl
  | clearModified _ ih => exact fun ha => (ih ha).congr rfl rfl
  | @freeze _ a b _ ih =>
    rcases leaves_freeze b with he | ⟨bytes, he⟩ <;> rw [he]
    · exact ih
    · exact fun ha => (ih ha).congr rfl rfl
  | defrost _ ih => exact fun ha => (ih ha).congr rfl rfl
  | attachNested hstart _ _ ihm ih =>
    exact fun ha => (ih ha).attachNested (ihm (regular_of_alone hstart.fresh.2.2))
  | withoutNested _ _ => exact fun _ => regular_of_alone rfl
  | @stamp _ a b s _ ih =>
    have hsame := s.same_apply b
    exact fun ha => (ih ha).congr hsame.name hsame.nested
  | @unstamp _ a b s _ ih =>
    have hsame := s.same_remove b
    exact fun ha => (ih ha).congr hsame.name hsame.nested
  | @write _ a b o files _ ih =>
    have hsame := Output.same_write o b files
    exact fun ha => (ih ha).congr hsame.name hsame.nested
  | @inside _ a b n n' i _ hi hn ih ihn =>
    refine fun ha => (ih ha).of_forall₂ rfl (forall₂_set ?_ hi fun x hx => ?_)
    · exact List.forall₂_same.2 fun _ _ => ⟨rfl, id⟩
    · exact ⟨hn.kept.name.trans hx.1, ihn ∘ hx.2⟩

end Artifact

/-- If the transformer does its work, it leaves a regular class behind when it gets one. -/
def Transformer.KeepsRegular (t : Transformer) : Prop :=
  ∀ a b, a.Regular → t.apply a = .ok () b → b.Regular

namespace Run

open Artifact (Regular regular_iff regular_of_alone)
open Classpath (Context Entry)
open Classpath.Context (KeyedBy Lasting)

variable {p : Pass} {n : ClassName} {s s' : State} {a b : Artifact} {o : Outcome}

theorem lasting_regular (files : FileTree) (entries : List Entry) :
    Lasting files entries Regular where
  read _ h := regular_of_alone (Context.plain_of_read h).2.alone
  attach := .attachNested
  alone _ := regular_of_alone rfl
  inside h hm := (h.members hm).2

theorem lasting_true (files : FileTree) (entries : List Entry) :
    Lasting files entries fun _ => True :=
  ⟨fun _ _ => trivial, fun _ _ => trivial, fun _ => trivial, fun _ _ => trivial⟩

theorem Unedited.regular (h : Unedited a b) (ha : a.Regular) : b.Regular :=
  ha.of_forall₂ h.name (h.nested.imp fun _ _ hxy =>
    ⟨hxy.name, fun hx => hx.congr hxy.name hxy.nested⟩)

/-! ## The step -/

theorem regular_attachAll {as : List Artifact} (ha : a.Regular) (has : ∀ m ∈ as, m.Regular) :
    (State.attachAll a as).Regular := by
  induction as generalizing a with
  | nil => exact ha
  | cons m as ih =>
    obtain ⟨hm, has⟩ := List.forall_mem_cons.1 has
    rw [attachAll_cons]
    exact ih (ha.attachNested hm) has

theorem regular_writeNested {pristine a' : Artifact} (hpristine : pristine.Regular)
    (ha : a.Regular) (h : s.writeNested p pristine a = (a', s')) : a'.Regular := by
  unfold State.writeNested at h
  rcases hwritten : State.writePending p a.nested s with ⟨ys, failed, s₁⟩
  rw [hwritten] at h
  dsimp only at h
  obtain ⟨hsame, -⟩ := writePending_spec hwritten
  have hys : ({ a with nested := ys } : Artifact).Regular :=
    ha.of_forall₂ rfl (hsame.imp fun _ _ hxy => ⟨hxy.name, fun hx => hx.congr hxy.name hxy.nested⟩)
  split at h
  · cases h
    exact hys
  · cases h
    refine regular_attachAll (regular_of_alone rfl) fun m hm => ?_
    rcases mem_of_mem_rollBack hm with ⟨hm, -⟩ | hm
    · exact (hys.members hm).2
    · exact (hpristine.members hm).2

/-- What lasts for classes in memory, and is true of what a step brings back, is true of all
of them behind the step. -/
theorem keyedBy_transform {Q : Artifact → Prop} (hQ : Lasting s.files s.context.entries Q)
    (hedit : ∀ {a b}, Unedited a b → Q a → Q b) (n : ClassName)
    (hback : ∀ {a b c d context file files a'} {between s' : State},
      Transforms p n s a b c d context file files → Q a →
      between.writeNested p (State.prepare a) d = (a', s') → Q a')
    (hs : KeyedBy Q s.context) : KeyedBy Q (State.transform p n s).context := by
  rcases transform_cases p n s with ⟨o, h⟩ | ⟨a, b, c, d, context, file, files, log, h, heq⟩
  · exact (h.keyedBy hQ hedit rfl hs).2
  obtain ⟨-, ha, -, hcontext⟩ := (Context.checkout_keyedBy hQ rfl hs).1 a context h.taken
  rcases hnested : (s.transformed p n context file files log).writeNested p (State.prepare a) d
    with ⟨a', s'⟩
  obtain ⟨-, -, os, hos⟩ := writeNested_spec hnested
  rw [heq, hnested]
  show KeyedBy Q (s'.context.restore a')
  rw [hos.context]
  exact hQ.restore hcontext (hback h ha hnested)

/-- The step of a transformer that keeps classes regular keeps them so in memory. -/
theorem regular_transform (hp : p.transformer.KeepsRegular) (hs : KeyedBy Regular s.context)
    (n : ClassName) : KeyedBy Regular (State.transform p n s).context := by
  refine keyedBy_transform (lasting_regular s.files s.context.entries) Unedited.regular n
    (fun h ha hnested => ?_) hs
  have hprepared := (unedited_prepare _).regular ha
  have hd := (hp _ _ hprepared h.applied).congr h.same.name h.same.nested
  exact regular_writeNested hprepared hd hnested

/-! ## Runs -/

section Runs

variable {config : Config} {transformers : List Transformer} {ambient : List Path}
  {files : FileTree}

/-- What every step keeps for the classes in memory is true of them at every moment. -/
theorem keyedBy_of_mem_moments {Q : Artifact → Prop}
    (hstep : ∀ t ∈ transformers, ∀ p : Pass, p.transformer = t → ∀ n s, KeyedBy Q s.context →
      KeyedBy Q (State.transform p n s).context)
    (hs : s ∈ moments State.transform config transformers ambient files) :
    KeyedBy Q s.context := by
  obtain ⟨before, after, hsplit⟩ := List.append_of_mem hs
  let P : List State → State → Prop := fun _ s => KeyedBy Q s.context
  refine moments_keep (P := P) (fun setup files' hsetup => ?_)
    (fun setup files' hsetup p hp n _ s hs => ?_) hsplit
  · obtain ⟨-, -, -, hcontext⟩ := setUp_eq_ok hsetup
    rw [hcontext]
    exact fun k a ha => (nomatch ha)
  · obtain ⟨⟨t, i⟩, ht, rfl⟩ := List.mem_map.1 hp
    exact hstep t (List.fst_mem_of_mem_zipIdx ht) _ rfl n s hs

/-- At every moment of a run, all classes in memory are there under their names. -/
theorem keyed_of_mem_moments
    (hs : s ∈ moments State.transform config transformers ambient files) :
    KeyedBy (fun _ => True) s.context :=
  keyedBy_of_mem_moments (fun _ _ _ _ n s hs => keyedBy_transform
    (lasting_true s.files s.context.entries) (fun _ => id) n (fun _ _ _ => trivial) hs) hs

/-- At every moment of a run of transformers that keep classes regular, all classes in memory
are. -/
theorem regular_of_mem_moments (hkeeps : ∀ t ∈ transformers, t.KeepsRegular)
    (hs : s ∈ moments State.transform config transformers ambient files) :
    KeyedBy Regular s.context :=
  keyedBy_of_mem_moments
    (fun t ht p hp n s hs => regular_transform (by rw [hp]; exact hkeeps t ht) hs n) hs

/-- A class that is taken out is the one that was asked for. -/
theorem name_of_checkout (hs : s ∈ moments State.transform config transformers ambient files)
    {context : Context} (h : Context.checkout s.files n s.context = .ok a context) :
    a.name = n :=
  ((Context.checkout_keyedBy (lasting_true s.files s.context.entries) rfl
    (keyed_of_mem_moments hs)).1 a context h).1

/-- It holds each class once, in a run of transformers that keep classes regular. -/
theorem holdsEachOnce_of_checkout (hkeeps : ∀ t ∈ transformers, t.KeepsRegular)
    (hs : s ∈ moments State.transform config transformers ambient files) {context : Context}
    (h : Context.checkout s.files n s.context = .ok a context) : a.HoldsEachOnce := by
  obtain ⟨-, ha, -⟩ := (Context.checkout_keyedBy (lasting_regular s.files s.context.entries) rfl
    (regular_of_mem_moments hkeeps hs)).1 a context h
  exact ha.holdsEachOnce

end Runs

end Run

end ClassStamp
