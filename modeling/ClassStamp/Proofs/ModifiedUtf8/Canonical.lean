import Mathlib.Data.List.Basic
import ClassStamp.Proofs.ModifiedUtf8

/-!
# The byte strings that are modified UTF-8

A byte string is read if it can be cut into groups of one, two or three bytes whose values
are UTF-16: each surrogate stands in a pair. It can be cut in one way at most. The text is
written as these same bytes again exactly if no group is longer than its value needs.

* `Group`: a group of bytes with its value, and `Group.IsOverlong`;
* `units_eq_ok_iff`: the values that are read are those of the groups;
* `Text.Utf16.decode?_eq_some_iff`, `wellPaired_iff`: which values are UTF-16;
* `flatMap_bytes_inj`: there is one way to cut;
* `canonical_form`: the round trip, the bytes that occur, and both equivalences.
-/

namespace ClassStamp

namespace Text.Utf16

theorem isHigh_iff {u : UInt16} : isHigh u = true ↔ 0xD800 ≤ u.toNat ∧ u.toNat ≤ 0xDBFF := by
  rw [isHigh, Bool.and_eq_true, decide_eq_true_eq, decide_eq_true_eq, UInt16.le_iff_toNat_le,
    UInt16.le_iff_toNat_le]
  rfl

theorem isLow_iff {u : UInt16} : isLow u = true ↔ 0xDC00 ≤ u.toNat ∧ u.toNat ≤ 0xDFFF := by
  rw [isLow, Bool.and_eq_true, decide_eq_true_eq, decide_eq_true_eq, UInt16.le_iff_toNat_le,
    UInt16.le_iff_toNat_le]
  rfl

theorem toNat_ofNat_of_valid {n : Nat} (h : n.isValidChar) : (Char.ofNat n).toNat = n := by
  rw [Char.ofNat, dif_pos h]
  rfl

/-- The units of a pair stand for a character above U+FFFF, whose units they are. -/
theorem ofChar_ofPair {u v : UInt16} (hh : isHigh u = true) (hl : isLow v = true) :
    ofChar (ofPair u v) = [u, v] := by
  rw [isHigh_iff] at hh
  rw [isLow_iff] at hl
  have hn : (ofPair u v).toNat =
      0x10000 + (u.toNat - 0xD800) * 0x400 + (v.toNat - 0xDC00) :=
    toNat_ofNat_of_valid (.inr ⟨by omega, by omega⟩)
  have hu : UInt16.ofNat (0xD800 + ((ofPair u v).toNat - 0x10000) / 0x400) = u := by
    apply UInt16.toNat_inj.1
    rw [hn, UInt16.toNat_ofNat']
    omega
  have hv : UInt16.ofNat (0xDC00 + ((ofPair u v).toNat - 0x10000) % 0x400) = v := by
    apply UInt16.toNat_inj.1
    rw [hn, UInt16.toNat_ofNat']
    omega
  rw [ofChar, if_neg (by omega), hu, hv]

theorem ofChar_ofNat {u : UInt16} (hh : ¬isHigh u = true) (hl : ¬isLow u = true) :
    ofChar (Char.ofNat u.toNat) = [u] := by
  have hlt := u.toNat_lt
  rw [isHigh_iff] at hh
  rw [isLow_iff] at hl
  have hvalid : u.toNat.isValidChar := by
    unfold Nat.isValidChar
    omega
  rw [ofChar, toNat_ofNat_of_valid hvalid, if_pos (by omega), UInt16.ofNat_toNat]

/-- The text that is read off some units has these units. -/
theorem decode?_eq_some_iff {us : List UInt16} {cs : List Char} :
    decode? us = some cs ↔ us = encode cs := by
  refine ⟨fun h => ?_, fun h => by rw [h, decode?_encode]⟩
  induction us using decode?.induct generalizing cs with
  | case1 =>
    cases h
    rfl
  | case2 u hh v rest hl ih =>
    rw [decode?_pair rest hh hl] at h
    obtain ⟨cs, hrest, rfl⟩ := Option.map_eq_some_iff.1 h
    rw [encode, List.flatMap_cons, ofChar_ofPair hh hl, ← encode, ← ih hrest]
    rfl
  | case3 u hh v rest hl =>
    rw [decode?, if_pos hh, if_neg hl] at h
    cases h
  | case4 u hh =>
    rw [decode?.eq_def] at h
    simp [hh] at h
  | case5 u rest hh hl =>
    rw [decode?.eq_def] at h
    simp [hh, hl] at h
  | case6 u rest hh hl ih =>
    rw [decode?_single rest (Bool.eq_false_iff.2 hh) (Bool.eq_false_iff.2 hl)] at h
    obtain ⟨cs, hrest, rfl⟩ := Option.map_eq_some_iff.1 h
    rw [encode, List.flatMap_cons, ofChar_ofNat hh hl, ← encode, ← ih hrest]
    rfl

/-- The values are UTF-16: each surrogate stands in a pair, a high one before a low one. -/
inductive WellPaired : List Nat → Prop
  | nil : WellPaired []
  | single {n : Nat} {ns : List Nat} : n < 0xD800 ∨ 0xDFFF < n → WellPaired ns →
    WellPaired (n :: ns)
  | pair {high low : Nat} {ns : List Nat} : 0xD800 ≤ high ∧ high ≤ 0xDBFF →
    0xDC00 ≤ low ∧ low ≤ 0xDFFF → WellPaired ns → WellPaired (high :: low :: ns)

theorem wellPaired_iff {us : List UInt16} :
    WellPaired (us.map (·.toNat)) ↔ ∃ cs, decode? us = some cs := by
  constructor
  · intro h
    generalize hns : us.map (·.toNat) = ns at h
    induction h generalizing us with
    | nil =>
      cases List.map_eq_nil_iff.1 hns
      exact ⟨[], rfl⟩
    | single hn _ ih =>
      obtain ⟨u, us, rfl, rfl, hus⟩ := List.map_eq_cons_iff.1 hns
      obtain ⟨cs, hcs⟩ := ih hus
      refine ⟨Char.ofNat u.toNat :: cs, ?_⟩
      rw [decode?_single us, hcs]
      · rfl
      · exact Bool.eq_false_iff.2 fun h => by rw [isHigh_iff] at h; omega
      · exact Bool.eq_false_iff.2 fun h => by rw [isLow_iff] at h; omega
    | pair hhigh hlow _ ih =>
      obtain ⟨u, vs, rfl, rfl, hvs⟩ := List.map_eq_cons_iff.1 hns
      obtain ⟨v, us, rfl, rfl, hus⟩ := List.map_eq_cons_iff.1 hvs
      obtain ⟨cs, hcs⟩ := ih hus
      refine ⟨ofPair u v :: cs, ?_⟩
      rw [decode?_pair us (isHigh_iff.2 hhigh) (isLow_iff.2 hlow), hcs]
      rfl
  · rintro ⟨cs, h⟩
    rw [decode?_eq_some_iff.1 h]
    clear h
    induction cs with
    | nil => exact .nil
    | cons c cs ih =>
      have hvalid : c.toNat < 0xD800 ∨ 0xDFFF < c.toNat ∧ c.toNat < 0x110000 := c.valid
      rw [encode, List.flatMap_cons, ← encode, ofChar]
      split
      · rw [List.singleton_append, List.map_cons, UInt16.toNat_ofNat']
        exact .single (by omega) ih
      · rw [List.cons_append, List.singleton_append, List.map_cons, List.map_cons,
          UInt16.toNat_ofNat', UInt16.toNat_ofNat']
        exact .pair (by omega) (by omega) ih

end Text.Utf16

namespace ModifiedUtf8

/-! ## Groups of bytes -/

/-- One to three bytes that stand for a unit. -/
inductive Group
  | one (a : UInt8) (ha : 0x01 ≤ a.toNat ∧ a.toNat ≤ 0x7F)
  | two (a b : UInt8) (ha : 0xC0 ≤ a.toNat ∧ a.toNat ≤ 0xDF)
    (hb : 0x80 ≤ b.toNat ∧ b.toNat ≤ 0xBF)
  | three (a b c : UInt8) (ha : 0xE0 ≤ a.toNat ∧ a.toNat ≤ 0xEF)
    (hb : 0x80 ≤ b.toNat ∧ b.toNat ≤ 0xBF) (hc : 0x80 ≤ c.toNat ∧ c.toNat ≤ 0xBF)

namespace Group

/-- The bytes of the group. -/
def bytes : Group → Bytes
  | one a _ => [a]
  | two a b _ _ => [a, b]
  | three a b c _ _ _ => [a, b, c]

/-- The number that the bits of the group make up: seven of one byte, else five or four of
the first byte and six of each other. -/
def value : Group → Nat
  | one a _ => a.toNat
  | two a b _ _ => a.toNat % 0x20 * 0x40 + b.toNat % 0x40
  | three a b c _ _ _ => a.toNat % 0x10 * 0x1000 + b.toNat % 0x40 * 0x40 + c.toNat % 0x40

/-- The group has more bytes than its value needs. Zero needs two. -/
def IsOverlong : Group → Prop
  | one _ _ => False
  | g@(two ..) => g.value ≠ 0 ∧ g.value < 0x80
  | g@(three ..) => g.value < 0x800

instance : DecidablePred IsOverlong
  | one .. => inferInstanceAs (Decidable False)
  | two .. => inferInstanceAs (Decidable (_ ∧ _))
  | three .. => inferInstanceAs (Decidable (_ < _))

/-- No group has a byte that is zero, or one from F0. -/
theorem byte_bounds {g : Group} {byte : UInt8} (h : byte ∈ g.bytes) :
    byte.toNat ≠ 0 ∧ byte.toNat < 0xF0 := by
  cases g <;>
  · simp only [bytes, List.mem_cons, List.not_mem_nil, or_false] at h
    grind

/-- The first byte tells how many there are. -/
theorem bytes_append_inj {g g' : Group} {rest rest' : Bytes}
    (h : g.bytes ++ rest = g'.bytes ++ rest') : g = g' ∧ rest = rest' := by
  cases g <;> cases g' <;>
  · simp only [bytes, List.cons_append, List.nil_append, List.cons.injEq] at h
    grind

/-- The shortest group for a unit. -/
def shortest (u : UInt16) : Group :=
  if h₁ : 1 ≤ u.toNat ∧ u.toNat ≤ 0x7F then
    one (UInt8.ofNat u.toNat) (by rw [UInt8.toNat_ofNat']; omega)
  else if h₂ : u.toNat ≤ 0x7FF then
    two (UInt8.ofNat (0xC0 + u.toNat / 0x40)) (UInt8.ofNat (0x80 + u.toNat % 0x40))
      (by rw [UInt8.toNat_ofNat']; omega) (by rw [UInt8.toNat_ofNat']; omega)
  else
    three (UInt8.ofNat (0xE0 + u.toNat / 0x1000)) (UInt8.ofNat (0x80 + u.toNat / 0x40 % 0x40))
      (UInt8.ofNat (0x80 + u.toNat % 0x40))
      (by have := u.toNat_lt; rw [UInt8.toNat_ofNat']; omega)
      (by rw [UInt8.toNat_ofNat']; omega) (by rw [UInt8.toNat_ofNat']; omega)

theorem bytes_shortest (u : UInt16) : (shortest u).bytes = ofUnit u := by
  unfold shortest ofUnit
  dsimp only
  split
  · rfl
  · split <;> rfl

/-- A group is the shortest one for its value unless it is overlong. -/
theorem eq_shortest_iff {g : Group} {u : UInt16} (hvalue : g.value = u.toNat) :
    g = shortest u ↔ ¬g.IsOverlong := by
  cases g with
  | one a ha =>
    simp only [value] at hvalue
    simp only [IsOverlong, not_false_iff, iff_true]
    unfold shortest
    rw [dif_pos (hvalue ▸ ha)]
    congr 1
    rw [← hvalue, UInt8.ofNat_toNat]
  | two a b ha hb =>
    simp only [IsOverlong, hvalue]
    simp only [value] at hvalue
    unfold shortest
    split
    · simp only [reduceCtorEq, false_iff]
      omega
    · rw [dif_pos (by omega)]
      simp only [two.injEq, ← UInt8.toNat_inj, UInt8.toNat_ofNat']
      omega
  | three a b c ha hb hc =>
    simp only [IsOverlong, hvalue]
    simp only [value] at hvalue
    unfold shortest
    split
    · simp only [reduceCtorEq, false_iff]
      omega
    · split
      · simp only [reduceCtorEq, false_iff]
        omega
      · simp only [three.injEq, ← UInt8.toNat_inj, UInt8.toNat_ofNat']
        omega

end Group

/-- There is one way at most to cut a byte string into groups. -/
theorem flatMap_bytes_inj {gs gs' : List Group}
    (h : gs.flatMap Group.bytes = gs'.flatMap Group.bytes) : gs = gs' := by
  have hne : ∀ g : Group, g.bytes ≠ [] := by
    intro g
    cases g <;> exact List.cons_ne_nil _ _
  induction gs generalizing gs' with
  | nil =>
    cases gs' with
    | nil => rfl
    | cons g' gs' => exact absurd (List.append_eq_nil_iff.1 h.symm).1 (hne g')
  | cons g gs ih =>
    cases gs' with
    | nil => exact absurd (List.append_eq_nil_iff.1 h).1 (hne g)
    | cons g' gs' =>
      rw [List.flatMap_cons, List.flatMap_cons] at h
      obtain ⟨rfl, hrest⟩ := Group.bytes_append_inj h
      rw [ih hrest]

/-! ## Reading groups -/

theorem isContinuation_iff {b : UInt8} :
    isContinuation b = true ↔ 0x80 ≤ b.toNat ∧ b.toNat ≤ 0xBF := by
  rw [isContinuation, Bool.and_eq_true, decide_eq_true_eq, decide_eq_true_eq,
    UInt8.le_iff_toNat_le, UInt8.le_iff_toNat_le]
  rfl

/-- The unit that a group is read as. -/
def Group.unit : Group → UInt16
  | .one a _ => a.toUInt16
  | .two a b _ _ => unit2 a b
  | .three a b c _ _ _ => unit3 a b c

theorem Group.toNat_unit (g : Group) : g.unit.toNat = g.value := by
  cases g with
  | one a ha => exact UInt8.toNat_toUInt16 a
  | two a b ha hb =>
    rw [unit, unit2, UInt16.toNat_ofNat', value]
    omega
  | three a b c ha hb hc =>
    rw [unit, unit3, UInt16.toNat_ofNat', value]
    omega

/-- A group is read, whatever follows. -/
theorem units_bytes_append (g : Group) (offset : Nat) (rest : Bytes) :
    units offset (g.bytes ++ rest) =
      (units (offset + g.bytes.length) rest).map (g.unit :: ·) := by
  cases g with
  | one a ha => exact units_single offset rest ha.1 ha.2
  | two a b ha hb => exact units_pair offset rest ha.1 ha.2 (isContinuation_iff.2 hb)
  | three a b c ha hb hc =>
    exact units_triple offset rest ha.1 ha.2 (isContinuation_iff.2 hb) (isContinuation_iff.2 hc)

/-- The group that is read first goes before those of the rest. -/
theorem exists_groups_append (g : Group) {read : Except Malformed (List UInt16)} {rest : Bytes}
    {us : List UInt16} (h : read.map (g.unit :: ·) = .ok us)
    (ih : ∀ {us}, read = .ok us → ∃ gs : List Group,
      gs.flatMap Group.bytes = rest ∧ gs.map Group.unit = us) :
    ∃ gs : List Group, gs.flatMap Group.bytes = g.bytes ++ rest ∧ gs.map Group.unit = us := by
  cases read with
  | error e => cases h
  | ok us' =>
    cases h
    obtain ⟨gs, hbytes, hunits⟩ := ih rfl
    exact ⟨g :: gs, by rw [List.flatMap_cons, hbytes], by rw [List.map_cons, hunits]⟩

/-- The units that are read are those of the groups. -/
theorem units_eq_ok_iff {offset : Nat} {b : Bytes} {us : List UInt16} :
    units offset b = .ok us ↔
      ∃ gs : List Group, gs.flatMap Group.bytes = b ∧ gs.map Group.unit = us := by
  constructor
  · fun_induction units offset b generalizing us with
    | case1 =>
      rintro ⟨⟩
      exact ⟨[], rfl, rfl⟩
    | case2 offset a rest ha ih =>
      intro h
      rw [Bool.and_eq_true, decide_eq_true_eq, decide_eq_true_eq] at ha
      exact exists_groups_append (.one a ha) h ih
    | case3 offset a _ ha b rest hb ih =>
      intro h
      rw [Bool.and_eq_true, decide_eq_true_eq, decide_eq_true_eq] at ha
      exact exists_groups_append (.two a b ha (isContinuation_iff.1 hb)) h ih
    | case7 offset a _ _ ha b c rest hb hc ih =>
      intro h
      rw [Bool.and_eq_true, decide_eq_true_eq, decide_eq_true_eq] at ha
      rw [Bool.not_eq_true', Bool.not_eq_false] at hb
      exact exists_groups_append (.three a b c ha (isContinuation_iff.1 hb)
        (isContinuation_iff.1 hc)) h ih
    -- In all other cases a byte is missing or wrong, and nothing is read.
    | case4 | case5 | case6 | case8 | case9 | case10 | case11 => nofun
  · rintro ⟨gs, rfl, rfl⟩
    induction gs generalizing offset with
    | nil => rfl
    | cons g gs ih =>
      rw [List.flatMap_cons, units_bytes_append, ih]
      rfl

/-- A byte string is read as the text whose units are those of its groups. -/
theorem decode_eq_ok_iff {b : Bytes} {s : String} :
    decode b = .ok s ↔ ∃ gs : List Group, gs.flatMap Group.bytes = b ∧
      gs.map Group.unit = Text.Utf16.encode s.toList := by
  simp only [← @units_eq_ok_iff 0, decode]
  constructor
  · intro h
    cases hunits : units 0 b with
    | error e => rw [hunits] at h; cases h
    | ok us =>
      rw [hunits] at h
      dsimp only at h
      cases hchars : Text.Utf16.decode? us with
      | none => rw [hchars] at h; cases h
      | some cs =>
        rw [hchars] at h
        cases h
        rw [String.toList_ofList, ← Text.Utf16.decode?_eq_some_iff.1 hchars]
  · intro h
    rw [h]
    dsimp only
    rw [Text.Utf16.decode?_encode]
    dsimp only
    rw [String.ofList_toList]

/-! ## The canonical form -/

theorem encode_eq (s : String) :
    encode s = ((Text.Utf16.encode s.toList).map Group.shortest).flatMap Group.bytes := by
  rw [encode, List.flatMap_map]
  exact List.flatMap_congr fun u _ => (Group.bytes_shortest u).symm

/-- What is written is read as the same text, and no byte of it is zero or from F0 on. A byte
string that is read can be cut into groups in exactly one way, and it is what its text is
written as if and only if none of these groups is overlong. And it is read if and only if it
can be cut into groups whose values are well-paired UTF-16. -/
theorem canonical_form :
    (∀ s, decode (encode s) = .ok s ∧ ∀ byte ∈ encode s, byte.toNat ≠ 0 ∧ byte.toNat < 0xF0) ∧
    (∀ b s, decode b = .ok s → ∃ gs : List Group,
      (∀ gs' : List Group, gs'.flatMap Group.bytes = b ↔ gs' = gs) ∧
      (encode s = b ↔ ∀ g ∈ gs, ¬g.IsOverlong)) ∧
    ∀ b, (∃ s, decode b = .ok s) ↔ ∃ gs : List Group,
      gs.flatMap Group.bytes = b ∧ Text.Utf16.WellPaired (gs.map Group.value) := by
  refine ⟨fun s => ⟨decode_encode s, fun byte hbyte => ?_⟩, fun b s h => ?_, fun b => ?_⟩
  · rw [encode_eq] at hbyte
    obtain ⟨g, -, hg⟩ := List.mem_flatMap.1 hbyte
    exact Group.byte_bounds hg
  · obtain ⟨gs, rfl, hunits⟩ := decode_eq_ok_iff.1 h
    refine ⟨gs, fun gs' => ⟨flatMap_bytes_inj, fun h => by rw [h]⟩, ?_⟩
    have hshortest : gs.map (Group.shortest ∘ Group.unit) = gs.map id ↔
        ∀ g ∈ gs, ¬g.IsOverlong := by
      rw [List.map_inj_left]
      exact forall₂_congr fun g _ => eq_comm.trans (Group.eq_shortest_iff g.toNat_unit.symm)
    rw [List.map_id] at hshortest
    rw [encode_eq, ← hunits, List.map_map, ← hshortest]
    exact ⟨flatMap_bytes_inj, fun h => by rw [h]⟩
  · have hvalues : ∀ gs : List Group, gs.map Group.value = (gs.map Group.unit).map (·.toNat) := by
      intro gs
      rw [List.map_map]
      exact List.map_congr_left fun g _ => g.toNat_unit.symm
    constructor
    · rintro ⟨s, h⟩
      obtain ⟨gs, hbytes, hunits⟩ := decode_eq_ok_iff.1 h
      refine ⟨gs, hbytes, ?_⟩
      rw [hvalues, hunits, Text.Utf16.wellPaired_iff]
      exact ⟨_, Text.Utf16.decode?_encode s.toList⟩
    · rintro ⟨gs, hbytes, hpaired⟩
      rw [hvalues, Text.Utf16.wellPaired_iff] at hpaired
      obtain ⟨cs, hcs⟩ := hpaired
      refine ⟨String.ofList cs, decode_eq_ok_iff.2 ⟨gs, hbytes, ?_⟩⟩
      rw [String.toList_ofList, ← Text.Utf16.decode?_eq_some_iff.1 hcs]

/-- The letter `A` in two bytes is read as such, but it is not written so. -/
theorem long_letter : decode [0xC1, 0x81] = .ok "A" ∧ encode "A" ≠ [0xC1, 0x81] := by
  let long : Group := .two 0xC1 0x81 (by decide) (by decide)
  have hread : decode [0xC1, 0x81] = .ok "A" :=
    decode_eq_ok_iff.2 ⟨[long], rfl, by decide +kernel⟩
  obtain ⟨gs, hcut, hwritten⟩ := canonical_form.2.1 _ _ hread
  have hgs : [long] = gs := (hcut [long]).1 rfl
  refine ⟨hread, fun h => hwritten.1 h long ?_ (by decide)⟩
  rw [← hgs]
  exact List.mem_singleton_self long

end ModifiedUtf8

end ClassStamp
