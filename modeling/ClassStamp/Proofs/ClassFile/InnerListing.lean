import ClassStamp.Fixture
import ClassStamp.Proofs.ClassFile.Interning

/-!
# Listing the inner classes

The list of inner classes is written under the index of a constant and found again by
its text. The rows that were set are read back as long as no attribute of that name
stands under another constant with the same text; with one that does, the old list stays
in front of the new one. The new list fits the format if its texts do and it takes the
place of an old list, or there is room for one more attribute.

* `ConstantPool.LeadsBack.optional`: zero stands for a missing entry;
* `ConstantPool.FindsNew`: a text that came in is found where it stands;
* `ClassFile.RowIn`: bytes that are read as a row, `rowsIn_mapM` for those that are
  written;
* `ClassFile.nestedClassNames_eq`: the classes directly inside, from the rows;
* `ClassFile.ListedByFirst`: no attribute of the name stands under another constant;
* `ClassFile.inner_classes_read_back`: what is read, and when there are bytes.
-/

namespace ClassStamp

open ConstantPool (Appends Extends maxCount)
open ModifiedUtf8 (encode)

/-- What is picked is the same whether repetitions go before or after. -/
theorem filter_eraseDups {α : Type} [BEq α] [LawfulBEq α] (p : α → Bool) (xs : List α) :
    xs.eraseDups.filter p = (xs.filter p).eraseDups := by
  match xs with
  | [] => rfl
  | x :: xs =>
    have ih := filter_eraseDups p (xs.filter fun y => !y == x)
    rw [List.filter_filter] at ih
    rw [List.eraseDups_cons, List.filter_cons, List.filter_cons]
    by_cases hx : p x = true
    · rw [if_pos hx, if_pos hx, List.eraseDups_cons, ih, List.filter_filter]
      simp only [Bool.and_comm]
    · rw [if_neg hx, if_neg hx, ih]
      congr 1
      refine List.filter_congr fun y _ => ?_
      by_cases hy : y = x
      · rw [hy, Bool.eq_false_iff.2 hx]
        rfl
      · rw [beq_false_of_ne hy]
        simp
termination_by xs.length
decreasing_by exact Nat.lt_succ_of_le (List.length_filter_le _ _)

/-! ## Missing entries and new texts -/

namespace ConstantPool

/-- At index zero there is nothing, so it can stand for a missing entry. -/
theorem LeadsBack.optional {α : Type} {index : α → ConstantPool.Edit UInt16}
    {entry : ConstantPool → UInt16 → Except ClassFileError α} (h : LeadsBack index entry)
    (hzero : ∀ r a, entry r 0 ≠ .ok a) :
    LeadsBack (ClassFile.optionalIndex index) fun r => ClassFile.optionalEntry (entry r) := by
  intro p q a i hle hi r hr
  cases a with
  | none =>
    cases hi
    rfl
  | some a =>
    have ha := h hle hi r hr
    have hne : i ≠ 0 := fun he => hzero r a (he ▸ ha)
    show ClassFile.optionalEntry (entry r) i = _
    rw [ClassFile.optionalEntry, if_neg hne, ha]
    rfl

/-- The later pool is the longer one, and where it has the text and the earlier one has
not, there the text is found. -/
structure FindsNew (text : Bytes) (p q : ConstantPool) : Prop where
  longer : Extends q p
  found : ∀ index, q.get? index = some (.utf8 text) →
    p.get? index = some (.utf8 text) ∨ q.find? (.utf8 text) = some index

section FindsNew

variable {text : Bytes}

instance : IsPreorder ConstantPool (FindsNew text) where
  refl p := ⟨.refl p, fun _ => .inl⟩
  trans p q r h h' := by
    refine ⟨h.longer.trans h'.longer, fun index hr => ?_⟩
    rcases h'.found index hr with hq | hfound
    · exact (h.found index hq).imp_right fun hfound => find?_of_extends hfound h'.longer
    · exact .inr hfound

theorem findsNew_indexOf (x : Constant) : Keeps (FindsNew text) (indexOf x) := by
  intro p
  cases h : indexOf x p with
  | error e q =>
    rw [leaves_of_error h]
    unfold indexOf push append at h
    split at h
    · cases h
    · split at h <;> cases h
      exact refl_of (FindsNew text) p
  | ok index q =>
    rw [leaves_of_ok h]
    obtain ⟨hlonger, -⟩ := settles_indexOf x p index q h
    refine ⟨hlonger, fun i hi => ?_⟩
    have hfind := find?_of_indexOf h
    unfold indexOf at h
    split at h
    · cases h
      exact .inl hi
    · obtain ⟨-, rfl, hq⟩ := push_eq_ok h
      obtain ⟨hne, hi⟩ := get?_eq_some_iff.1 hi
      rw [hq] at hi
      by_cases hold : i.toNat - 1 < p.slots.toList.length
      · rw [List.getElem?_append_left hold] at hi
        exact .inl (get?_eq_some_iff.2 ⟨hne, hi⟩)
      · -- behind the old slots there is only the new constant, so it is the text
        rw [List.getElem?_append_right (Nat.le_of_not_lt hold)] at hi
        have hx : x = .utf8 text := by
          have hmem := List.mem_of_getElem? hi
          unfold Constant.slots at hmem
          split at hmem <;> simp_all
        subst hx
        have hlast : i.toNat - 1 - p.slots.toList.length < 1 :=
          (List.getElem?_eq_some_iff.1 hi).1
        have hpos : i.toNat ≠ 0 := fun h0 => hne (UInt16.toNat_inj.1 h0)
        rw [Array.length_toList] at hold hlast
        have hi' : i.toNat = p.count := by
          unfold count
          omega
        rw [hfind, ← hi', UInt16.ofNat_toNat]
        exact .inr rfl

theorem findsNew_classIndex (n : ClassName) : Keeps (FindsNew text) (classIndex n) :=
  .bind (findsNew_indexOf _) fun _ => findsNew_indexOf _

end FindsNew

theorem gains_classIndex {texts : String → Prop} {n : ClassName} (hn : texts n.internal) :
    Keeps (Gains texts) (classIndex n) :=
  .bind (gains_utf8Index hn) fun _ => gains_indexOf fun _ hb => nomatch hb

end ConstantPool

/-- The texts that a row needs in the pool. -/
def InnerClass.texts (row : InnerClass) : List String :=
  row.inner.internal :: ((row.outer.map (·.internal)).toList ++ row.simpleName.toList)

namespace ClassFile

open ConstantPool (FindsNew Gains LeadsBack)

/-- The classes directly inside a class that are named in rows, in their order. -/
def directMembers (n : ClassName) (rows : List InnerClass) : List ClassName :=
  (rows.map (·.inner)).filter (·.isImmediateMemberOf n)

theorem nestedClassNames_eq {c : ClassFile} {n : ClassName} (hn : c.name = .ok n) :
    c.nestedClassNames = c.innerClasses.map fun rows => (directMembers n rows).eraseDups := by
  rw [nestedClassNames, hn]
  cases c.innerClasses with
  | error e => rfl
  | ok rows => exact congrArg Except.ok (filter_eraseDups _ _)

/-! ## Rows and their bytes -/

/-- The bytes are read as the row, in the pool and in every longer one. -/
structure RowIn (p : ConstantPool) (row : InnerClass) (bytes : Bytes) : Prop where
  length : bytes.length = 8
  reads : ∀ q, Appends p q → (readInnerClass q.className q.utf8).Reads row bytes

theorem RowIn.of_appends {p q : ConstantPool} {row : InnerClass} {bytes : Bytes}
    (h : RowIn p row bytes) (hq : Appends p q) : RowIn q row bytes :=
  ⟨h.length, fun r hr => h.reads r (hq.trans hr)⟩

theorem rowIn_encodeInnerClass {row : InnerClass} {p q : ConstantPool} {bytes : Bytes}
    (hle : p.slots.size ≤ maxCount) (h : encodeInnerClass row p = .ok bytes q) :
    RowIn q row bytes := by
  obtain ⟨inner, p₁, h₁, h⟩ := estate_bind_eq_ok h
  obtain ⟨outer, p₂, h₂, h⟩ := estate_bind_eq_ok h
  obtain ⟨simpleName, p₃, h₃, h⟩ := estate_bind_eq_ok h
  cases h
  have hp₁ := (ConstantPool.appends_classIndex _).ok h₁
  have hp₂ := (appends_optionalIndex ConstantPool.appends_classIndex _).ok h₂
  have hp₃ := (appends_optionalIndex ConstantPool.appends_utf8Index _).ok h₃
  have hle₁ := hp₁.size_le_maxCount hle
  have hle₂ := hp₂.size_le_maxCount hle₁
  refine ⟨rfl, fun r hr => ?_⟩
  have hinner := ConstantPool.leadsBack_classIndex hle h₁ r (hp₂.trans (hp₃.trans hr))
  have houter : optionalEntry r.className outer = .ok row.outer :=
    ConstantPool.leadsBack_classIndex.optional (fun _ _ h => nomatch h) hle₁ h₂ r (hp₃.trans hr)
  have hsimpleName : optionalEntry r.utf8 simpleName = .ok row.simpleName :=
    ConstantPool.leadsBack_utf8Index.optional (fun _ _ h => nomatch h) hle₂ h₃ r hr
  have hrow : Decoder.Reads (α := InnerClass) (do
      return {
        inner := ← r.className inner
        outer := ← optionalEntry r.className outer
        simpleName := ← optionalEntry r.utf8 simpleName
        accessFlags := ⟨row.accessFlags.bits⟩ }) row [] := by
    rw [hinner, houter, hsimpleName]
    exact Decoder.reads_pure row
  rw [← List.append_nil (_ ++ _), List.append_assoc, List.append_assoc, List.append_assoc]
  exact (Decoder.reads_u16 inner).bind ((Decoder.reads_u16 outer).bind
    ((Decoder.reads_u16 simpleName).bind ((Decoder.reads_u16 row.accessFlags.bits).bind hrow)))

theorem rowsIn_mapM {rows : List InnerClass} {p q : ConstantPool} {parts : List Bytes}
    (hle : p.slots.size ≤ maxCount) (h : rows.mapM encodeInnerClass p = .ok parts q) :
    List.Forall₂ (RowIn q) rows parts := by
  induction rows generalizing p parts with
  | nil =>
    cases h
    exact .nil
  | cons row rows ih =>
    rw [List.mapM_cons] at h
    obtain ⟨bytes, p₁, h₁, h⟩ := estate_bind_eq_ok h
    obtain ⟨parts, p₂, h₂, h⟩ := estate_bind_eq_ok h
    cases h
    have hle₁ := ((appends_encodeInnerClass row).ok h₁).size_le_maxCount hle
    have hrest := (Keeps.mapM fun row _ => appends_encodeInnerClass row).ok h₂
    exact .cons ((rowIn_encodeInnerClass hle h₁).of_appends hrest) (ih hle₁ h₂)

theorem length_flatten_rows {p : ConstantPool} {rows : List InnerClass} {parts : List Bytes}
    (h : List.Forall₂ (RowIn p) rows parts) : parts.flatten.length = 8 * rows.length := by
  induction h with
  | nil => rfl
  | cons hrow _ ih =>
    rw [List.flatten_cons, List.length_append, hrow.length, ih, List.length_cons]
    omega

theorem findsNew_optionalIndex {α : Type} {text : Bytes} {index : α → ConstantPool.Edit UInt16}
    (h : ∀ a, Keeps (FindsNew text) (index a)) (entry : Option α) :
    Keeps (FindsNew text) (optionalIndex index entry) := by
  cases entry with
  | none => exact .pure 0
  | some a => exact h a

theorem gains_optionalIndex {α : Type} {texts : String → Prop}
    {index : α → ConstantPool.Edit UInt16} {entry : Option α}
    (h : ∀ a ∈ entry, Keeps (Gains texts) (index a)) :
    Keeps (Gains texts) (optionalIndex index entry) := by
  cases entry with
  | none => exact .pure 0
  | some a => exact h a rfl

theorem findsNew_encodeInnerClass {text : Bytes} (row : InnerClass) :
    Keeps (FindsNew text) (encodeInnerClass row) :=
  .bind (ConstantPool.findsNew_classIndex _) fun _ =>
    .bind (findsNew_optionalIndex ConstantPool.findsNew_classIndex _) fun _ =>
      .bind (findsNew_optionalIndex (fun _ => ConstantPool.findsNew_indexOf _) _) fun _ => .pure _

theorem gains_encodeInnerClass {texts : String → Prop} {row : InnerClass}
    (h : ∀ s ∈ row.texts, texts s) : Keeps (Gains texts) (encodeInnerClass row) := by
  have houter : ∀ n ∈ row.outer, texts n.internal := fun n hn => h _ <| by
    rw [InnerClass.texts, Option.mem_def.1 hn]
    simp
  have hsimpleName : ∀ s ∈ row.simpleName, texts s := fun s hs => h _ <| by
    rw [InnerClass.texts, Option.mem_def.1 hs]
    simp
  exact .bind (ConstantPool.gains_classIndex (h _ List.mem_cons_self)) fun _ =>
    .bind (gains_optionalIndex fun n hn => ConstantPool.gains_classIndex (houter n hn)) fun _ =>
      .bind (gains_optionalIndex fun s hs => ConstantPool.gains_utf8Index (hsimpleName s hs))
        fun _ => .pure _

/-! ## The attribute -/

/-- The text is one that a list of the rows needs in the pool. -/
def NeededFor (rows : List InnerClass) (s : String) : Prop :=
  s = innerClassesName ∨ ∃ row ∈ rows, s ∈ row.texts

/-- The attribute is made for the rows, in the later pool. -/
structure MadeFor (rows : List InnerClass) (p q : ConstantPool) (listing : Attribute) : Prop where
  pool : Appends p q
  body : ∃ parts, List.Forall₂ (RowIn q) rows parts ∧
    listing.info = Bytes.ofUInt16 (UInt16.ofNat rows.length) ++ parts.flatten
  name : ListsInner q listing
  found : q.findUtf8? innerClassesName = some listing.nameIndex
  findsNew : FindsNew (encode innerClassesName) p q
  gains : Gains (NeededFor rows) p q

theorem madeFor_of_innerClassesAttribute {rows : List InnerClass} {p q : ConstantPool}
    {listing : Attribute} (hle : p.slots.size ≤ maxCount)
    (h : innerClassesAttribute rows p = .ok listing q) : MadeFor rows p q listing := by
  have hpool := (appends_innerClassesAttribute rows).ok h
  have hname := innerClassesAttribute_lists hle h
  unfold innerClassesAttribute at h
  rw [encodeRows_nil] at h
  obtain ⟨parts, p₁, h₁, h⟩ := estate_bind_eq_ok h
  obtain ⟨nameIndex, p₂, h₂, h⟩ := estate_bind_eq_ok h
  cases h
  have hrows := rowsIn_mapM hle h₁
  refine ⟨hpool, ⟨parts, hrows.imp fun _ _ hrow => hrow.of_appends
    ((ConstantPool.appends_utf8Index _).ok h₂), rfl⟩, hname, ConstantPool.find?_of_indexOf h₂,
    ?_, ?_⟩
  · exact trans_of _ ((Keeps.mapM fun row _ => findsNew_encodeInnerClass row).ok h₁)
      ((ConstantPool.findsNew_indexOf _).ok h₂)
  · have hgains : ∀ row ∈ rows, Keeps (Gains (NeededFor rows)) (encodeInnerClass row) :=
      fun row hrow => gains_encodeInnerClass fun s hs => .inr ⟨row, hrow, hs⟩
    exact trans_of _ ((Keeps.mapM hgains).ok h₁)
      ((ConstantPool.gains_utf8Index (.inl rfl)).ok h₂)

theorem MadeFor.reads {rows : List InnerClass} {p q : ConstantPool} {listing : Attribute}
    (h : MadeFor rows p q listing) (hn : rows.length ≤ 65535) :
    ((Decoder.counted (readInnerClass q.className q.utf8)).run listing.info).map (·.1) =
      .ok rows := by
  obtain ⟨parts, hparts, hinfo⟩ := h.body
  have hreads := Decoder.reads_counted hn (hparts.imp fun _ _ hrow => hrow.reads q (.refl q)) 0 []
  rw [List.append_nil, ← hinfo] at hreads
  show Except.map (·.1) (Decoder.counted _ ⟨0, listing.info⟩) = _
  rw [hreads]
  rfl

theorem MadeFor.length_info {rows : List InnerClass} {p q : ConstantPool} {listing : Attribute}
    (h : MadeFor rows p q listing) : listing.info.length = 2 + 8 * rows.length := by
  obtain ⟨parts, hparts, hinfo⟩ := h.body
  rw [hinfo, List.length_append, Bytes.length_ofUInt16, length_flatten_rows hparts]

/-! ## The new list -/

instance (pool : ConstantPool) (a : Attribute) : Decidable (ListsInner pool a) :=
  inferInstanceAs (Decidable (_ = _))

/-- All lists of inner classes stand under the first constant with their name. -/
def ListedByFirst (c : ClassFile) : Prop :=
  ∀ a ∈ c.attributes, ListsInner c.pool a →
    c.pool.findUtf8? innerClassesName = some a.nameIndex

instance (c : ClassFile) : Decidable c.ListedByFirst :=
  inferInstanceAs (Decidable (∀ a ∈ c.attributes, _))

/-- The lists of inner classes in the class file. -/
def listings (c : ClassFile) : List Attribute :=
  c.attributes.filter fun a => decide (ListsInner c.pool a)

variable {c d : ClassFile} {rows : List InnerClass}

theorem setInnerClasses_eq_ok (hle : c.pool.slots.size ≤ maxCount)
    (h : setInnerClasses rows c = .ok () d) : rows.length ≤ 65535 ∧ ∃ listing,
      MadeFor rows c.pool d.pool listing ∧ d = { c with
        pool := d.pool
        attributes := c.attributes.filter (fun a => a.nameIndex != listing.nameIndex) ++
          [listing] } := by
  rw [setInnerClasses_eq] at h
  split_ifs at h with hn
  cases hl : innerClassesAttribute rows c.pool with
  | error e pool => rw [hl] at h; cases h
  | ok listing pool =>
    rw [hl] at h
    cases h
    exact ⟨hn, listing, madeFor_of_innerClassesAttribute hle hl, rfl⟩

theorem attribute?_innerClasses (c : ClassFile) :
    c.attribute? innerClassesName = c.listings.head? := by
  rw [attribute?_eq, listings, List.head?_filter]
  exact List.find?_congr fun a _ => beq_eq_decide _ _

/-- The old lists under other constants stay, in front of the new one. -/
theorem MadeFor.listings {listing : Attribute} (h : MadeFor rows c.pool d.pool listing)
    (hd : d.attributes = c.attributes.filter (fun a => a.nameIndex != listing.nameIndex) ++
      [listing]) :
    d.listings = c.listings.filter (fun a => a.nameIndex != listing.nameIndex) ++ [listing] := by
  unfold ClassFile.listings
  have hnew : [listing].filter (fun a => decide (ListsInner d.pool a)) = [listing] := by
    rw [List.filter_singleton, decide_eq_true h.name]
    rfl
  rw [hd, List.filter_append, List.filter_filter, List.filter_filter, hnew]
  congr 1
  refine List.filter_congr fun a _ => ?_
  by_cases hsame : a.nameIndex = listing.nameIndex
  · simp [hsame]
  · have hlists : ListsInner d.pool a ↔ ListsInner c.pool a := by
      refine ⟨fun hq => ?_, fun hp => ConstantPool.get?_of_appends hp h.pool⟩
      rcases h.findsNew.found _ hq with hp | hfound
      · exact hp
      · exact absurd (Option.some.inj (hfound.symm.trans h.found)) hsame
    rw [decide_eq_decide.2 hlists, Bool.and_comm]

/-- The new list is the only one if it takes the place of all old ones. -/
theorem MadeFor.listedByFirst_iff {listing : Attribute} (h : MadeFor rows c.pool d.pool listing) :
    c.ListedByFirst ↔ c.listings.filter (fun a => a.nameIndex != listing.nameIndex) = [] := by
  have hfirst {index : UInt16} (hindex : c.pool.findUtf8? innerClassesName = some index) :
      index = listing.nameIndex :=
    Option.some.inj
      ((ConstantPool.find?_of_extends hindex h.findsNew.longer).symm.trans h.found)
  rw [List.filter_eq_nil_iff]
  constructor
  · intro hall a ha
    obtain ⟨hmem, hlists⟩ := List.mem_filter.1 ha
    rw [hfirst (hall a hmem (of_decide_eq_true hlists))]
    simp
  · intro hall a ha hlists
    have hsame := hall a (List.mem_filter.2 ⟨ha, decide_eq_true hlists⟩)
    obtain ⟨first, hfind⟩ := ConstantPool.exists_find?_of_get? hlists
    rw [ConstantPool.findUtf8?, hfind, hfirst hfind]
    simpa using (Eq.symm (by simpa using hsame))

/-- The texts of the later pool fit if those of the earlier one and the new ones do. -/
theorem texts_fit {p q : ConstantPool} (hle : q.slots.size ≤ maxCount)
    (h : Gains (NeededFor rows) p q)
    (hp : ∀ text, some (.utf8 text) ∈ p.slots → text.length ≤ 65535)
    (hrows : ∀ row ∈ rows, ∀ s ∈ row.texts, (encode s).length ≤ 65535) (text : Bytes)
    (htext : some (.utf8 text) ∈ q.slots) : text.length ≤ 65535 := by
  refine h.length_le hle hp (fun s hs => ?_) text htext
  rcases hs with rfl | ⟨row, hrow, hs⟩
  · decide
  · exact hrows row hrow s hs

/-- There is room for one more attribute, or an old one makes room. -/
theorem room_iff {attributes : List Attribute} {listing : Attribute}
    (h : attributes.length ≤ 65535) :
    (attributes.filter (fun a => a.nameIndex != listing.nameIndex) ++ [listing]).length ≤ 65535 ↔
      attributes.length < 65535 ∨ ∃ a ∈ attributes, listing.nameIndex = a.nameIndex := by
  have hshorter :
      (attributes.filter (fun a => a.nameIndex != listing.nameIndex)).length < attributes.length ↔
        ∃ a ∈ attributes, listing.nameIndex = a.nameIndex := by
    rw [List.length_filter_lt_length_iff_exists]
    refine exists_congr fun a => and_congr_right fun _ => ?_
    rw [bne_iff_ne, not_not, eq_comm]
  have hle := List.length_filter_le (fun a => a.nameIndex != listing.nameIndex) attributes
  rw [List.length_append, List.length_singleton, ← hshorter]
  omega

/-- The lengths fit if the texts do and the attributes are not too many. -/
theorem fits_iff (hc : c.Fits) (hd : d = { c with pool := d.pool, attributes := d.attributes })
    (hpool : Appends c.pool d.pool) (htexts : ∀ text, some (.utf8 text) ∈ d.pool.slots →
      text.length ≤ 65535)
    (hbodies : ∀ a ∈ d.attributes, a.info.length < 2 ^ 32) :
    d.Fits ↔ d.attributes.length ≤ 65535 := by
  refine ⟨Fits.attributes, fun hattributes => ?_⟩
  have hcount : d.pool.count ≤ 65535 := by
    rcases hpool.count with hcount | hsame
    · exact hcount
    · exact hsame ▸ hc.pool
  rw [hd]
  exact ⟨hcount, htexts, hc.interfaces, hc.fields, hc.methods, hattributes,
    hc.memberAttributes, hbodies, hc.memberBodies⟩

/-- Setting the list of inner classes: what is read back, and when it can be written. -/
theorem inner_classes_read_back (hc : c.pool.Obtained) (h : setInnerClasses rows c = .ok () d) :
    (c.ListedByFirst → d.innerClasses = .ok rows ∧ ∀ n, c.name = .ok n →
      d.nestedClassNames = .ok (directMembers n rows).eraseDups) ∧
    (d.listings.length = 1 ↔ c.ListedByFirst) ∧
    ((∃ bytes, c.toBytes = .ok bytes) →
      (∀ row ∈ rows, ∀ s ∈ row.texts, (encode s).length ≤ 65535) →
      ((∃ bytes, d.toBytes = .ok bytes) ↔ c.attributes.length < 65535 ∨
        ∃ a ∈ c.attributes, d.pool.findUtf8? innerClassesName = some a.nameIndex)) := by
  obtain ⟨hn, listing, hmade, hd⟩ := setInnerClasses_eq_ok hc.size_le h
  have hattributes := congrArg ClassFile.attributes hd
  have hlistings := hmade.listings hattributes
  refine ⟨fun hfirst => ?_, ?_, fun hbytes hrows => ?_⟩
  · rw [hmade.listedByFirst_iff.1 hfirst, List.nil_append] at hlistings
    have hinner : d.innerClasses = .ok rows := by
      rw [innerClasses_eq, attribute?_innerClasses, hlistings]
      exact hmade.reads hn
    refine ⟨hinner, fun n hname => ?_⟩
    have hname' : d.name = .ok n := by
      rw [hd]
      exact ConstantPool.className_of_appends hname hmade.pool
    rw [nestedClassNames_eq hname', hinner]
    rfl
  · rw [hlistings, hmade.listedByFirst_iff, List.length_append, List.length_singleton,
      ← List.length_eq_zero_iff]
    omega
  · have hfits := exists_toBytes_iff.1 hbytes
    have hle := hmade.pool.size_le_maxCount hc.size_le
    have hbodies : ∀ a ∈ d.attributes, a.info.length < 2 ^ 32 := by
      intro a ha
      rw [hattributes] at ha
      rcases List.mem_append.1 ha with ha | ha
      · exact hfits.bodies a (List.mem_filter.1 ha).1
      · rw [List.mem_singleton.1 ha, hmade.length_info]
        omega
    rw [exists_toBytes_iff, fits_iff hfits (by rw [hd]) hmade.pool
      (texts_fit hle hmade.gains hfits.texts hrows) hbodies, hattributes,
      room_iff hfits.attributes, hmade.found]
    simp only [Option.some.injEq]

/-- A class file that has the name of the list of inner classes as its third and its fourth
constant, and an empty list under the constant at the given index. -/
def listedUnder (index : UInt16) : ClassFile :=
  { empty with
    pool := leaves (do
      let _ ← ConstantPool.classIndex Fixture.objectName
      let _ ← ConstantPool.utf8Index innerClassesName
      ConstantPool.push (.utf8 (encode innerClassesName))) .empty
    thisClass := 2
    attributes := [{ nameIndex := index, info := [0, 0] }] }

/-- A class directly inside that of the sample. -/
def memberRow : InnerClass where
  inner := ⟨"java.lang.Object$Monitor", by constructor <;> simp [Text.split, ClassName.isForbidden]⟩
  outer := some Fixture.objectName
  simpleName := some "Monitor"
  accessFlags := .staticFlag

theorem obtained_listedUnder (index : UInt16) : (listedUnder index).pool.Obtained := by
  have happends : Appends .empty (listedUnder index).pool :=
    Keeps.bind (ConstantPool.appends_classIndex _) (fun _ =>
      .bind (ConstantPool.appends_utf8Index _) fun _ => ConstantPool.appends_push _) _
  exact ConstantPool.Obtained.empty.of_appends happends

/-- What is left of the sample once a class inside was listed. -/
def relisted (index : UInt16) : ClassFile :=
  leaves (setInnerClasses [memberRow]) (listedUnder index)

theorem relisted_reads_back : (listedUnder 3).pool.Obtained ∧
    setInnerClasses [memberRow] (listedUnder 3) = .ok () (relisted 3) ∧
    (listedUnder 3).ListedByFirst ∧ (relisted 3).innerClasses = .ok [memberRow] ∧
    (relisted 3).nestedClassNames = .ok [memberRow.inner] ∧ (relisted 3).listings.length = 1 ∧
    ∃ bytes, (relisted 3).toBytes = .ok bytes := by
  have hset : setInnerClasses [memberRow] (listedUnder 3) = .ok () (relisted 3) :=
    eq_ok_of_succeeds (by decide +kernel)
  have hfirst : (listedUnder 3).ListedByFirst := by decide +kernel
  have hfits : ∃ bytes, (listedUnder 3).toBytes = .ok bytes := by
    have hok : (listedUnder 3).toBytes.isOk = true := by decide +kernel
    cases hbytes : (listedUnder 3).toBytes with
    | ok bytes => exact ⟨bytes, rfl⟩
    | error e => rw [hbytes] at hok; cases hok
  obtain ⟨hreads, honce, hbytes⟩ := inner_classes_read_back (obtained_listedUnder 3) hset
  obtain ⟨hrows, hmembers⟩ := hreads hfirst
  have hnested : (relisted 3).nestedClassNames = .ok [memberRow.inner] :=
    (hmembers Fixture.objectName (by decide +kernel)).trans (by decide +kernel)
  exact ⟨obtained_listedUnder 3, hset, hfirst, hrows, hnested, honce.2 hfirst,
    (hbytes hfits (by decide +kernel)).2 (.inl (by decide +kernel))⟩

/-- The old list, under a constant with the same text as the first one, stays in front of
the new one. -/
theorem old_list_stays : (listedUnder 4).pool.Obtained ∧
    setInnerClasses [memberRow] (listedUnder 4) = .ok () (relisted 4) ∧
    (relisted 4).innerClasses = .ok [] ∧ (relisted 4).listings.length = 2 :=
  ⟨obtained_listedUnder 4, eq_ok_of_succeeds (by decide +kernel), by decide +kernel,
    by decide +kernel⟩

end ClassFile

end ClassStamp
