import ClassStamp.Proofs.Classpath.Lookup
import ClassStamp.Proofs.Classpath.Membership

/-!
# What is true of every class

A property of a class file and the name it is found under, that is true of every
class that the entries have, is true of a class that is taken out and of all that
comes along with it.

* `Artifact.Throughout`: a property of a class and of all that is held with it;
* `Everywhere`: a property of all classes that the entries have. It is kept by
  whatever changes no file (`Everywhere.of_sameFiles`) or only files with classes
  that have it (`Everywhere.of_settled`);
* `Everywhere.lasting`: from the one to the other.
-/

namespace ClassStamp

namespace Artifact

/-- The second class is the first one, or is held with it at any depth. -/
inductive Includes : Artifact → Artifact → Prop
  | self (a : Artifact) : Includes a a
  | inside {a m x : Artifact} (hm : m ∈ a.nested) (hx : Includes m x) : Includes a x

/-- It is true of the class and of all that it includes. -/
def Throughout (P : ClassName → ClassFile → Prop) (a : Artifact) : Prop :=
  ∀ x, a.Includes x → P x.name x.classFile

variable {P Q : ClassName → ClassFile → Prop} {a b : Artifact}

theorem throughout_iff :
    a.Throughout P ↔ P a.name a.classFile ∧ ∀ m ∈ a.nested, m.Throughout P := by
  refine ⟨fun h => ⟨h a (.self a), fun m hm x hx => h x (.inside hm hx)⟩, fun h x hx => ?_⟩
  cases hx with
  | self => exact h.1
  | inside hm hx => exact h.2 _ hm x hx

theorem Throughout.mono (h : a.Throughout P) (hPQ : ∀ n c, P n c → Q n c) : a.Throughout Q :=
  fun x hx => hPQ _ _ (h x hx)

/-- What the class itself is matters only for itself. -/
theorem Throughout.replace (h : a.Throughout P) (hb : P b.name b.classFile)
    (hnested : b.nested = a.nested) : b.Throughout P :=
  throughout_iff.2 ⟨hb, hnested ▸ (throughout_iff.1 h).2⟩

theorem Throughout.congr (h : a.Throughout P) (hname : b.name = a.name)
    (hclass : b.classFile = a.classFile) (hnested : b.nested = a.nested) : b.Throughout P :=
  h.replace (by rw [hname, hclass]; exact (throughout_iff.1 h).1) hnested

theorem Throughout.attachNested {m : Artifact} (ha : a.Throughout P) (hm : m.Throughout P) :
    (leaves (Artifact.attachNested m) a).Throughout P := by
  obtain ⟨hself, hnested⟩ := throughout_iff.1 ha
  unfold leaves Artifact.attachNested
  by_cases himm : m.name.isImmediateMemberOf a.name = true
  · rw [if_pos himm]
    refine throughout_iff.2 ⟨hself, fun x hx => ?_⟩
    rcases List.mem_append.1 hx with hx | hx
    · exact hnested x (List.mem_filter.1 hx).1
    · rw [List.mem_singleton.1 hx]
      exact hm
  · rw [if_neg himm]
    exact ha

end Artifact

namespace Classpath

/-- It is true of every class that the entries have. -/
def Everywhere (entries : List Entry) (files : FileTree) (P : ClassName → ClassFile → Prop) :
    Prop :=
  ∀ entry ∈ entries, ∀ n bytes c, entry.Has files n bytes → ClassFile.parse bytes = .ok c →
    c.name = .ok n → P n c

variable {entries : List Entry} {files files' : FileTree} {P Q : ClassName → ClassFile → Prop}

theorem Everywhere.mono (h : Everywhere entries files P) (hPQ : ∀ n c, P n c → Q n c) :
    Everywhere entries files Q :=
  fun entry hentry n bytes c hhas hparse hname =>
    hPQ n c (h entry hentry n bytes c hhas hparse hname)

/-- It goes on to be true if it is true of what changed. -/
theorem Everywhere.of_settled (h : Everywhere entries files P)
    (hs : FileTree.Settled files files')
    (hnew : ∀ place bytes c n, files'.fileAt? place = some bytes →
      files.fileAt? place ≠ some bytes → ClassFile.parse bytes = .ok c → c.name = .ok n → P n c) :
    Everywhere entries files' P := by
  intro entry hentry n bytes c hhas hparse hname
  rcases has_of_settled hs hhas with hold | ⟨place, hat, hnot⟩
  · exact h entry hentry n bytes c hold hparse hname
  · exact hnew place bytes c n hat hnot hparse hname

theorem Everywhere.of_sameFiles (h : Everywhere entries files P)
    (hs : FileTree.SameFiles files files') : Everywhere entries files' P :=
  h.of_settled hs.toSettled fun place _ _ _ hat hnot =>
    absurd ((hs.contents place).symm.trans hat) hnot

/-- What is true of all classes that the entries have is true of what a look-up
brings. -/
theorem Everywhere.lasting (h : Everywhere entries files P) :
    Context.Lasting files entries (Artifact.Throughout P) where
  read hentries hread := by
    obtain ⟨found, hfound, hbytes⟩ := Context.read_eq_ok hread
    obtain ⟨hparse, hdeclared, rfl, halone⟩ := Artifact.ofBytes_eq_ok hbytes
    rw [hentries] at hfound
    obtain ⟨entry, hentry, hload⟩ := firstFound_eq_some hfound
    refine Artifact.throughout_iff.2
      ⟨h entry hentry _ _ _ (has_of_load hload) hparse hdeclared, fun m hm => ?_⟩
    rw [halone] at hm
    cases hm
  attach ha hm := ha.attachNested hm
  alone ha := Artifact.throughout_iff.2
    ⟨(Artifact.throughout_iff.1 ha).1, fun m hm => (nomatch hm)⟩
  inside ha hm := (Artifact.throughout_iff.1 ha).2 _ hm

end Classpath

end ClassStamp
