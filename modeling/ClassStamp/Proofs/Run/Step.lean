import ClassStamp.Proofs.Run.Exits
import ClassStamp.Proofs.Run.Resolution

/-!
# The step of a transformer

Whatever becomes of the step of an additive transformer, the invariant of the
run holds after it if it held before.

* `Inv.note`, `Inv.checked`, `Inv.applied`, `Inv.write` and their like: the
  invariant for each thing that a step does;
* `writeNested_keeps`: the classes inside a transformed one are written, or
  put back to what they were;
* `inv_transform`: the step.
-/

namespace ClassStamp.Run

open ClassFile (Grows)
open FileTree (SameFiles)

/-- The pass is one of a run with the given outset. -/
structure Pass.Fits (g : Outset) (p : Pass) : Prop where
  output : p.output = g.output
  additive : p.transformer.Additive g.allowed
  among : p.transformer ∈ g.transformers

theorem Pass.Fits.known {g : Outset} {p : Pass} (h : p.Fits g) :
    p.transformer.identity ∈ g.identities :=
  List.mem_map_of_mem h.among

variable {g : Outset} {p : Pass} {s : State} {held before after : List Artifact}
  {a b x q : Artifact} {n : ClassName}

theorem Continues.refl (allowed : FieldSpec → Prop) (a : Artifact) : Continues allowed a a :=
  ⟨rfl, id, .refl allowed _⟩

/-! ## What a step does -/

namespace Inv

theorem note (h : Inv g held s) {o : Outcome} (ho : o.state ≠ .written)
    (hknown : o.transformer ∈ g.identities) : Inv g held (s.record o) := by
  have hidle : ¬ (Event.noted o).IsWrite := by
    rintro ⟨o', he, hw⟩
    cases he
    exact ho hw
  have htouch : ∀ identity n, ¬ (Event.noted o).Touches identity n := by
    rintro identity n (⟨o', he, hw, -⟩ | ⟨call, he, -⟩)
    · exact hidle ⟨o', he, hw.2⟩
    · cases he
  refine ⟨h.disk.idle hidle, h.memory.idle hidle, h.ledger.idle htouch ?_, ?_⟩
  · rintro o' he
    cases he
    exact hknown
  · show s.report.outcomes ++ [o] = (s.log ++ [Event.noted o]).filterMap Event.outcome?
    rw [h.report, List.filterMap_append]
    rfl

theorem fail (h : Inv g held s) (hp : p.Fits g) (n : ClassName) (kind : FailureKind)
    (message : String) : Inv g held (s.fail p n kind message) :=
  h.note (fun he => nomatch he) hp.known

theorem call {kind : CallKind} (h : Inv g held s)
    (hl : Ledger g (s.call p kind n).log) : Inv g held (s.call p kind n) := by
  have hidle : ∀ c, ¬ (Event.called c).IsWrite := by
    rintro c ⟨o, he, -⟩
    cases he
  refine ⟨h.disk.idle (hidle _), h.memory.idle (hidle _), hl, ?_⟩
  show s.report.outcomes = (s.log ++ [Event.called _]).filterMap Event.outcome?
  rw [h.report, List.filterMap_append]
  exact (List.append_nil _).symm

theorem checked (h : Inv g held s) (n : ClassName) : Inv g held (s.call p .checked n) := by
  refine h.call (h.ledger.idle ?_ fun o he => nomatch he)
  rintro identity m (⟨o, he, -⟩ | ⟨call, he, hkind, -⟩)
  · cases he
  · cases he
    cases hkind

theorem applied (h : Inv g held s) {c : ClassFile} (hc : Traced g s.log n c)
    (hstamp : ¬ c.Declares p.stamp.field) : Inv g held (s.call p .applied n) := by
  refine h.call (h.ledger.touch hc hstamp ?_ fun o he => nomatch he)
  rintro identity m (⟨o, he, -⟩ | ⟨call, he, -, hname, hidentity⟩)
  · cases he
  · cases he
    exact ⟨hidentity.symm, hname.symm⟩

theorem giveBack (h : Inv g (parts a) s) : Inv g [] (s.giveBack a) :=
  ⟨h.disk, h.memory.giveBack, h.ledger, h.report⟩

theorem same (h : Inv g held s) {files : FileTree} (hf : SameFiles s.files files) :
    Inv g held { s with files } :=
  ⟨h.disk.same hf, h.memory, h.ledger, h.report⟩

theorem continues {held' : List Artifact} (h : Inv g held s)
    (hh : List.Forall₂ (Continues g.allowed) held held') : Inv g held' s :=
  ⟨h.disk, h.memory.continues hh, h.ledger, h.report⟩

theorem continues_at (h : Inv g (before ++ q :: after) s) (hx : Continues g.allowed q x) :
    Inv g (before ++ x :: after) s := by
  have hsame : ∀ as : List Artifact, List.Forall₂ (Continues g.allowed) as as := fun as =>
    List.forall₂_same.2 fun a _ => .refl _ a
  exact h.continues (List.rel_append (hsame before) (.cons hx (hsame after)))

end Inv

/-- Stamping and writing an artifact: its class file gets the field of the
stamp, and the bytes are those of this class file. -/
theorem stamp_write_eq_ok {stamp : Stamp} {o : Output} {files files' : FileTree}
    {file : WrittenFile} (hstamp : stamp.apply a = .ok () b)
    {b' : Artifact} (hwrite : o.write (b, files) = .ok file (b', files')) :
    ∃ bytes, ClassFile.addField (stamp.spec a.classFile.isInterface) a.classFile =
        .ok () b'.classFile ∧ b'.classFile.toBytes = .ok bytes ∧ b.toBytes = .ok bytes ∧
      b.name = a.name ∧ b'.name = a.name ∧ b'.nested = a.nested ∧
      file = o.record a.name bytes := by
  obtain ⟨hfrozen, c, hadd, rfl⟩ := Stamp.apply_eq_ok hstamp
  obtain ⟨bytes, hbytes, rfl, hfile, -⟩ := Output.write_eq_ok hwrite
  have hclass := Artifact.toBytes_of_not_frozen hbytes hfrozen
  exact ⟨bytes, hadd, hclass, hbytes, rfl, rfl, rfl, hfile⟩

/-- A class that was taken out is stamped and written, once the transformer acted on
it or on the one that it is inside of. -/
theorem Inv.write (h : Inv g (before ++ q :: after) s) (hp : p.Fits g)
    (hmakes : p.transformer.Makes q.name q.classFile a.classFile) (hname : a.name = q.name)
    (hstamp : p.stamp.apply a = .ok () b) {b' y : Artifact} {files : FileTree}
    {file : WrittenFile} (hwrite : p.output.write (b, s.files) = .ok file (b', files))
    (hy : y.name = b'.name) (hyc : y.classFile = b'.classFile) (halone : y.nested = [])
    {report : Report} (hreport : report.outcomes = s.report.outcomes) :
    Inv g (before ++ y :: after)
      ({ s with files, report }.noteFile p a.name .written file) := by
  obtain ⟨bytes, hadd, hbytes, hbbytes, hb, hb', -, hfile⟩ := stamp_write_eq_ok hstamp hwrite
  have htraced := (h.memory.out q (List.mem_append_right _ List.mem_cons_self)).traced
  have hgrows : ClassFile.Grows g.allowed q.classFile a.classFile := hp.additive.grows hmakes
  rw [hname] at hb hb'
  let o : Outcome :=
    { transformer := p.transformer.identity, name := a.name, state := .written, message := none,
      files := [file] }
  have ho : o.Writes q.name := ⟨hname, rfl⟩
  have hfiles : o.files = [g.output.record q.name bytes] := by
    rw [← hp.output, ← hname, ← hfile]
  obtain ⟨hparse, hwritten⟩ := htraced.write hp.among hmakes hgrows hadd hbytes ho rfl hfiles
  have hgrown := htraced.grow hgrows
  have hnot := (ClassFile.declared_addField hgrown.size hadd).1
  rw [hp.output] at hwrite
  refine ⟨?_, ?_, ?_, ?_⟩
  · refine h.disk.write hwrite (o := o) (by rw [hb]; exact ho) hbbytes hparse ?_
    rw [hb]
    exact hwritten
  · refine h.memory.write (o := o) ho (hy.trans hb') halone ?_
    rw [hyc]
    exact hwritten
  · refine h.ledger.touch hgrown hnot ?_ ?_
    · rintro identity m (⟨o', he, hw, hidentity⟩ | ⟨call, he, -⟩)
      · cases he
        exact ⟨hidentity.symm, hw.1.symm.trans hname⟩
      · cases he
    · rintro o' he
      cases he
      exact hp.known
  · show report.outcomes ++ [o] = (s.log ++ [Event.noted o]).filterMap Event.outcome?
    rw [hreport, h.report, List.filterMap_append]
    rfl

/-! ## Taking out -/

theorem takeOut_cases (h : Inv g [] s) (hp : p.Fits g) (n : ClassName) :
    (∃ s', s.takeOut p n = (none, s') ∧ Inv g [] s') ∨
      ∃ a s', s.takeOut p n = (some a, s') ∧ a.name = n ∧ HoldsMembers a ∧
        Inv g (parts a) s' := by
  unfold State.takeOut
  rcases checkout_cases h.disk h.memory n with ⟨e, context, hc, hm⟩ | ⟨a, context, hc, ha⟩
  · rw [hc]
    have hs : Inv g [] { s with context } := ⟨h.disk, hm, h.ledger, h.report⟩
    exact .inl ⟨_, rfl, hs.fail hp n _ _⟩
  · rw [hc]
    exact .inr ⟨a, _, rfl, ha.name, ha.members, h.disk, ha.memory, h.ledger, h.report⟩

/-! ## Classes inside a class -/

theorem continues_of_adds {allowed : FieldSpec → Prop} (h : Artifact.Adds allowed a b) :
    Continues allowed a b := by
  refine ⟨h.with.name, fun ha => ?_, h.with.classFile⟩
  have hn := h.with.nested
  rw [ha] at hn
  exact List.forall₂_nil_left_iff.1 hn

/-- What an additive transformer makes of a class, and of each one held with
it. -/
theorem continues_parts {allowed : FieldSpec → Prop} (h : Artifact.Adds allowed a b) :
    List.Forall₂ (Continues allowed) a.nested b.nested ∧
      Continues allowed a.withoutNested b.withoutNested :=
  ⟨h.with.nested.imp fun _ _ => continues_of_adds, h.with.name, fun _ => rfl, h.with.classFile⟩

theorem continues_prepare (allowed : FieldSpec → Prop) (a : Artifact) :
    List.Forall₂ (Continues allowed) (parts a) (parts (State.prepare a)) := by
  refine .cons ⟨rfl, fun _ => rfl, .refl allowed _⟩ ?_
  show List.Forall₂ _ a.nested (a.nested.map _)
  rw [List.forall₂_map_right_iff]
  exact List.forall₂_same.2 fun n _ => ⟨rfl, id, .refl allowed _⟩

theorem HoldsMembers.of_names (h : HoldsMembers a) (hname : b.name = a.name)
    (hnested : names b.nested = names a.nested) : HoldsMembers b := by
  intro m hm
  have hmem : m.name ∈ names a.nested := by
    rw [← hnested]
    exact mem_names.2 ⟨m, hm, rfl⟩
  obtain ⟨m', hm', he⟩ := mem_names.1 hmem
  rw [hname, ← he]
  exact h m' hm'

theorem HoldsMembers.continues {allowed : FieldSpec → Prop} (h : HoldsMembers a)
    (hab : Artifact.Adds allowed a b) : HoldsMembers b :=
  h.of_names hab.with.name (names_of_continues (continues_parts hab).1)

/-- A class inside one that the transformer acted on, before and afterwards. -/
structure Made (allowed : FieldSpec → Prop) (t : Transformer) (q x : Artifact) : Prop where
  continues : Continues allowed q x
  makes : t.Makes q.name q.classFile x.classFile

/-- An additive transformer made something of each class inside the one that it
acted on. -/
theorem forall₂_made {allowed : FieldSpec → Prop} {t : Transformer} (ht : t.Additive allowed)
    (happly : t.apply a = .ok () b) : List.Forall₂ (Made allowed t) a.nested b.nested := by
  obtain ⟨hlength, hpairs⟩ := List.forall₂_iff_zip.1 (continues_parts (ht a b happly)).1
  exact List.forall₂_iff_zip.2 ⟨hlength, fun hmem => ⟨hpairs hmem, .inside happly hmem rfl⟩⟩

/-- A class inside a transformed one is written, or the state is as good as if
nothing had been tried. -/
theorem writeOne_cases (h : Inv g (before ++ q :: after) s) (hp : p.Fits g)
    (hx : Made g.allowed p.transformer q x) :
    ∃ done y s', s.writeOne p x = (done, y, s') ∧ y.name = x.name ∧
      Inv g (before ++ (if done then y else q) :: after) s' := by
  have hkept := h.memory.out q (List.mem_append_right _ List.mem_cons_self)
  rcases hone : s.writeOne p x with ⟨done, y, s'⟩
  obtain ⟨o, ho⟩ := writesOne hone
  refine ⟨done, y, s', rfl, ho.spec.1.name, ?_⟩
  cases ho with
  | unstamped _ => exact h.fail hp _ _ _
  | unwritten _ hwrite => exact (h.same (Output.write_eq_error hwrite).2).fail hp _ _ _
  | written hstamp hwrite =>
    obtain ⟨-, -, -, -, -, -, hnested, -⟩ := stamp_write_eq_ok hstamp hwrite
    rw [if_pos rfl]
    exact h.write (a := x.defrost) hp hx.makes hx.continues.name hstamp hwrite rfl rfl
      (hnested.trans (hx.continues.alone hkept.alone)) rfl

theorem rollBack_nil (pristine as : List Artifact) : State.rollBack pristine [] as = as := by
  unfold State.rollBack
  simp only [List.contains_nil, Bool.false_eq_true, if_false, List.filterMap_some]

theorem rollBack_cons_of_not_mem {pristine as : List Artifact} {failed : List ClassName}
    (ha : a.name ∉ failed) :
    State.rollBack pristine failed (a :: as) = a :: State.rollBack pristine failed as := by
  unfold State.rollBack
  rw [List.filterMap_cons, if_neg (by rwa [List.contains_iff_mem])]

/-- A class whose write failed is put back, if no class behind it has its
name. -/
theorem rollBack_cons {all as : List Artifact} {failed : List ClassName} (done : Bool)
    (hq : all.find? (·.name == a.name) = some q) (ha : a.name ∉ names as)
    (hfailed : ∀ n ∈ failed, n ∈ names as) :
    State.rollBack all (if done then failed else a.name :: failed) (a :: as) =
      (if done then a else q) :: State.rollBack all failed as := by
  cases done with
  | true => exact rollBack_cons_of_not_mem fun hn => ha (hfailed a.name hn)
  | false =>
    unfold State.rollBack
    rw [if_neg Bool.false_ne_true, if_neg Bool.false_ne_true, List.filterMap_cons,
      if_pos (by rw [List.contains_iff_mem]; exact List.mem_cons_self), hq]
    refine congrArg (q :: ·) (List.filterMap_congr fun b hb => ?_)
    have hne : b.name ≠ a.name := fun he => ha (mem_names.2 ⟨b, hb, he⟩)
    rw [List.contains_cons, beq_false_of_ne hne, Bool.false_or]

/-- What is true of the classes that are taken out and of the state goes on to be
true while pending classes inside a transformed one are written: `R` is how each
of them may differ from what it was before the step. -/
structure KeptByWriting (p : Pass) (R : Artifact → Artifact → Prop)
    (I : List Artifact → State → Prop) : Prop where
  name : ∀ {q x}, R q x → x.name = q.name
  distinct : ∀ {held s}, I held s → (names held).Nodup
  leave : ∀ {before after q x s}, I (before ++ q :: after) s → R q x →
    ¬ State.isPending p x = true → I (before ++ x :: after) s
  write : ∀ {before after q x s}, I (before ++ q :: after) s → R q x →
    State.isPending p x = true → ∃ done y s', s.writeOne p x = (done, y, s') ∧ y.name = x.name ∧
      I (before ++ (if done then y else q) :: after) s'

section Pending

variable {R : Artifact → Artifact → Prop} {I : List Artifact → State → Prop}

theorem names_of_kept {as bs : List Artifact} (hI : KeptByWriting p R I)
    (h : List.Forall₂ R as bs) : names bs = names as :=
  Artifact.map_name_of_forall₂ hI.name h

/-- All pending classes inside a transformed one are written, or put back to
what they were. -/
theorem writePending_keeps (hI : KeptByWriting p R I) {all pristine nested : List Artifact}
    (hall : ∀ q ∈ pristine, all.find? (·.name == q.name) = some q)
    (h : I (before ++ pristine) s) (hc : List.Forall₂ R pristine nested) :
    ∃ written failed s', State.writePending p nested s = (written, failed, s') ∧
      names written = names nested ∧ (∀ n ∈ failed, n ∈ names nested) ∧
      names (State.rollBack all failed written) = names nested ∧
      I (before ++ State.rollBack all failed written) s' := by
  induction hc generalizing before s with
  | nil => exact ⟨[], [], s, rfl, rfl, fun n hn => (nomatch hn), rfl, h⟩
  | @cons q x pristine nested hx hrest ih =>
    have hnew : x.name ∉ names nested := by
      have hdistinct := hI.distinct h
      rw [names_append, names_cons, List.nodup_append', List.nodup_cons] at hdistinct
      rw [names_of_kept hI hrest, hI.name hx]
      exact hdistinct.2.1.1
    have hall' := fun q' hq' => hall q' (List.mem_cons_of_mem q hq')
    rw [State.writePending]
    by_cases hpending : State.isPending p x = true
    · obtain ⟨done, y, s₁, hone, hy, h₁⟩ := hI.write h hx hpending
      rw [List.append_cons] at h₁
      obtain ⟨written, failed, s₂, htail, hwritten, hfailed, hback, h₂⟩ := ih hall' h₁
      have hq : all.find? (·.name == y.name) = some q := by
        rw [hy, hI.name hx]
        exact hall q List.mem_cons_self
      have hrolled := rollBack_cons done hq (by rw [hwritten, hy]; exact hnew)
        (by rw [hwritten]; exact hfailed)
      have hname : (if done then y else q).name = x.name := by
        cases done with
        | true => exact hy
        | false => exact (hI.name hx).symm
      rw [hy] at hrolled
      rw [if_pos hpending, hone]
      dsimp only
      rw [htail]
      refine ⟨y :: written, if done then failed else x.name :: failed, s₂, rfl, ?_, ?_, ?_⟩
      · rw [names_cons, names_cons, hy, hwritten]
      · cases done with
        | true => exact fun n hn => List.mem_cons_of_mem _ (hfailed n hn)
        | false => exact List.cons_subset_cons x.name hfailed
      · rw [hrolled, names_cons, names_cons, hname, hback, List.append_cons]
        exact ⟨rfl, h₂⟩
    · have h₁ := hI.leave h hx hpending
      rw [List.append_cons] at h₁
      obtain ⟨written, failed, s₂, htail, hwritten, hfailed, hback, h₂⟩ := ih hall' h₁
      rw [if_neg hpending, htail]
      refine ⟨x :: written, failed, s₂, rfl, ?_, ?_, ?_⟩
      · rw [names_cons, names_cons, hwritten]
      · exact fun n hn => List.mem_cons_of_mem _ (hfailed n hn)
      · rw [rollBack_cons_of_not_mem fun hn => hnew (hfailed _ hn), names_cons, names_cons, hback,
          List.append_cons]
        exact ⟨rfl, h₂⟩

theorem attachAll_eq {as : List Artifact}
    (hmembers : ∀ n ∈ names as, n.isImmediateMemberOf a.name = true)
    (hdistinct : (names a.nested ++ names as).Nodup) :
    State.attachAll a as = { a with nested := a.nested ++ as } := by
  induction as generalizing a with
  | nil =>
    cases a
    rw [List.append_nil]
    rfl
  | cons m as ih =>
    rw [names_cons, List.nodup_middle, List.nodup_cons, List.mem_append, not_or] at hdistinct
    have hstep := Artifact.attachNested_new (hmembers m.name List.mem_cons_self) hdistinct.1.1
    unfold State.attachAll at ih ⊢
    rw [List.foldl_cons, hstep]
    dsimp only
    rw [ih (a := { a with nested := a.nested ++ [m] })
      (fun n hn => hmembers n (List.mem_cons_of_mem _ hn)) ?_, List.append_assoc]
    · rfl
    · show (names (a.nested ++ [m]) ++ names as).Nodup
      rw [names_append, List.append_assoc]
      show (names a.nested ++ m.name :: names as).Nodup
      rw [List.nodup_middle, List.nodup_cons, List.mem_append, not_or]
      exact hdistinct

theorem find?_of_mem {as : List Artifact} (h : (names as).Nodup) (hq : q ∈ as) :
    as.find? (·.name == q.name) = some q := by
  induction as with
  | nil => cases hq
  | cons a as ih =>
    rw [names_cons, List.nodup_cons] at h
    rw [List.find?_cons]
    rcases List.mem_cons.1 hq with rfl | hq
    · rw [beq_self_eq_true]
    · have hne : a.name ≠ q.name := fun he => h.1 (he ▸ mem_names.2 ⟨q, hq, rfl⟩)
      rw [beq_false_of_ne hne]
      exact ih h.2 hq

/-- The classes inside a transformed one are written, or put back to what they
were before the step. -/
theorem writeNested_keeps (hI : KeptByWriting p R I) {pristine : Artifact}
    (h : I (a.withoutNested :: pristine.nested) s) (hmembers : HoldsMembers a)
    (hc : List.Forall₂ R pristine.nested a.nested) :
    ∃ a' s', s.writeNested p pristine a = (a', s') ∧ I (parts a') s' := by
  have hdistinct := hI.distinct h
  rw [names_cons, List.nodup_cons] at hdistinct
  have hall : ∀ q ∈ pristine.nested, pristine.nested.find? (·.name == q.name) = some q :=
    fun q hq => find?_of_mem hdistinct.2 hq
  rw [← List.singleton_append] at h
  obtain ⟨written, failed, s', hdone, hwritten, -, hback, h'⟩ := writePending_keeps hI hall h hc
  unfold State.writeNested
  rw [hdone]
  dsimp only
  cases failed with
  | nil =>
    rw [rollBack_nil] at h'
    exact ⟨_, _, rfl, h'⟩
  | cons n failed =>
    refine ⟨_, _, rfl, ?_⟩
    rw [attachAll_eq]
    · exact h'
    · intro n hn
      rw [hback] at hn
      obtain ⟨m, hm, rfl⟩ := mem_names.1 hn
      exact hmembers m hm
    · show ([] ++ names _).Nodup
      rw [List.nil_append, hback, names_of_kept hI hc]
      exact hdistinct.2

end Pending

/-- The invariant is kept while classes inside a transformed one are written. -/
theorem inv_keptByWriting (hp : p.Fits g) :
    KeptByWriting p (Made g.allowed p.transformer) (Inv g) where
  name hx := hx.continues.name
  distinct h := h.memory.distinct
  leave h hx _ := h.continues_at hx.continues
  write h hx _ := writeOne_cases h hp hx

/-! ## The step -/

theorem inv_apply (hp : p.Fits g) (h : Inv g (parts a) s) (hmembers : HoldsMembers a)
    (hname : a.name = n) (hstamp : ¬ p.stamp.isPresent a = true) : Inv g [] (s.apply p n a) := by
  have hprepare := continues_prepare g.allowed a
  have hmem : HoldsMembers (State.prepare a) :=
    hmembers.of_names rfl (List.cons.inj (names_of_continues hprepare)).2
  have hpristine := h.continues hprepare
  have htraced := (hpristine.memory.out _ List.mem_cons_self).traced
  have hcalled : Inv g (parts (State.prepare a)) (s.call p .applied (State.prepare a).name) :=
    hpristine.applied htraced hstamp
  unfold State.apply
  dsimp only
  generalize s.call p .applied (State.prepare a).name = s₁ at hcalled ⊢
  cases happly : p.transformer.apply (State.prepare a) with
  | error e b => exact hcalled.giveBack.fail hp _ _ _
  | ok _ b =>
    dsimp only
    have hadds := hp.additive _ _ happly
    have hnested := forall₂_made hp.additive happly
    have hmakes : p.transformer.Makes (State.prepare a).withoutNested.name
        (State.prepare a).withoutNested.classFile b.classFile :=
      .own (a := State.prepare a) happly rfl
    cases hb : p.stamp.apply b with
    | error e b' => exact hcalled.giveBack.fail hp _ _ _
    | ok _ b' =>
      dsimp only
      cases hwrite : p.output.write (b', s₁.files) with
      | error e rest =>
        obtain ⟨b'', files⟩ := rest
        obtain ⟨-, hsame⟩ := Output.write_eq_error hwrite
        exact (hcalled.same hsame).giveBack.fail hp _ _ _
      | ok file rest =>
        obtain ⟨b'', files⟩ := rest
        dsimp only
        obtain ⟨bytes, -, -, -, -, hname', hnested', -⟩ := stamp_write_eq_ok hb hwrite
        have hbn : b.name = n := hadds.with.name.trans hname
        -- only the class itself is written so far; those inside it are still pristine
        have hwritten : Inv g ([] ++ b''.withoutNested :: (State.prepare a).nested)
            ({ s₁ with files, report := { s₁.report with
                transformed := s₁.report.transformed + 1 } }.noteFile p b.name .written file) :=
          Inv.write (q := (State.prepare a).withoutNested) (y := b''.withoutNested) hcalled hp
            hmakes hadds.with.name hb hwrite rfl rfl rfl rfl
        rw [List.nil_append, hbn] at hwritten
        have hmem' : HoldsMembers b'' :=
          (hmem.continues hadds).of_names hname' (congrArg names hnested')
        rw [← hnested'] at hnested
        obtain ⟨a', s', hdone, h'⟩ :=
          writeNested_keeps (inv_keptByWriting hp) hwritten hmem' hnested
        rw [hdone]
        exact h'.giveBack

/-- The step of an additive transformer keeps the invariant. -/
theorem inv_transform (hp : p.Fits g) (h : Inv g [] s) (n : ClassName) :
    Inv g [] (State.transform p n s) := by
  unfold State.transform
  rcases takeOut_cases h hp n with ⟨s', htake, h'⟩ | ⟨a, s', htake, hname, hmembers, h'⟩
  · rw [htake]
    exact h'
  rw [htake]
  dsimp only
  split
  · exact h'.giveBack.note (fun he => nomatch he) hp.known
  rename_i hstamp
  have hchecked : Inv g (parts a) (s'.call p .checked a.name) := h'.checked a.name
  split
  · exact hchecked.giveBack.fail hp _ _ _
  · exact hchecked.giveBack.note (fun he => nomatch he) hp.known
  · exact inv_apply hp hchecked hmembers hname hstamp

end ClassStamp.Run
